import Pauline.Emulation.ImageRig

/-!
# The confinement of an emulated drive

The bus of a drive stays in its image: a burst because the master is always
on a track of the image, a word handed back because its address came from
the master. An image that is programmed after the drive has left its reset
finds the master at the base of the one before.
-/

set_option autoImplicit false

namespace Pauline.Confinement
open Pauline.DmaMaster Pauline.FloppyDumper Pauline.ImageRig
open Pauline.FloppyDrive (DriveInput wordEnds)
open Pauline.TrackWindow (Image TrackCore Pins curTracksBase)
open Pauline.TrackFeed (BurstStart burst_fits burstLast_toNat)

/-! ## On the track -/

def InBurst (d : Channel) (m : Master) : Prop :=
  m.state_master_register = .wait_read2 ∧ m.drive_index = d

structure Reads (d : Channel) (img : Image) (m : Master) : Prop extends OnPass d img m where
  starting : EvenTrack img.track_size → ¬InBurst d m →
    BurstStart img.track_size (m.address_offsets d).toNat
  ending : EvenTrack img.track_size → InBurst d m →
    (m.address_offsets d).toNat + 4*(m.burst_count.toNat+1) ≤ img.track_size ∧
    ((m.address_offsets d).toNat + 4*(m.burst_count.toNat+1) = img.track_size ∨
      BurstStart img.track_size ((m.address_offsets d).toNat + 4*(m.burst_count.toNat+1)))

theorem tracks_size_toNat {img : Image} (h : Usable img) :
    img.tracks_size.toNat = img.track_size := by
  have hle : img.track_size ≤ img.track_size * img.max_track := Nat.le_mul_of_pos_right _ h.1
  have hproduct := img.product
  rw [Image.tracks_size, BitVec.toNat_ofNat, Nat.mod_eq_of_lt (by omega)]

theorem base_toNat {img : Image} (h : Usable img) :
    img.image_base_address.toNat = img.base := by
  have hpos : 0 < img.track_size * img.max_track := Nat.mul_pos h.2.1 h.1
  have hmapped := img.mapped
  rw [Image.image_base_address, BitVec.toNat_ofNat, Nat.mod_eq_of_lt (by omega)]

theorem whole_word {img : Image} (h : Usable img) : 4 ≤ img.track_size :=
  Nat.le_of_dvd h.2.1 (Nat.dvd_of_mod_eq_zero h.2.2)

theorem track_end {img : Image} {k : ℕ} (hk : k < img.max_track) :
    k * img.track_size + img.track_size ≤ img.track_size * img.max_track :=
  calc k * img.track_size + img.track_size = img.track_size * (k + 1) := by ring
    _ ≤ img.track_size * img.max_track := Nat.mul_le_mul_left _ hk

theorem onPass_fits {d : Channel} {img : Image} {m : Master} (h : OnPass d img m) {n : ℕ}
    (hn : (m.address_offsets d).toNat + n ≤ img.track_size) :
    img.base ≤ (m.drv_cur_track_address d).toNat ∧
      (m.drv_cur_track_address d).toNat + n ≤ img.base + img.track_size * img.max_track := by
  obtain ⟨k, hk, ha⟩ := h.track
  have hend := track_end hk
  omega

theorem onPass_wordOf {d : Channel} {img : Image} {m : Master} (h : OnPass d img m) :
    WordOf img (m.drv_cur_track_address d) := onPass_fits h h.inside

section Master
variable {d : Channel} {img : Image} {i : Input} {m : Master}

theorem serving_of_state (hs : m.state_master_register ≠ .idle) (hd : m.drive_index = d) :
    Serving d m := ⟨Or.inl hs, hd⟩

theorem serving_takes (h : takes i m d = true) : InBurst d m ∧ Serving d m := by
  simp only [takes, Bool.and_eq_true, decide_eq_true_eq] at h
  exact ⟨h.1, serving_of_state (by rw [h.1.1]; decide) h.1.2⟩

structure Drives (d : Channel) (img : Image) (i : Input) : Prop where
  images_base_address : i.images_base_address d = img.image_base_address
  images_track_size : i.images_track_size d = img.tracks_size
  track : ∃ k < img.max_track,
    (i.drv_cur_track_base_address d).toNat = img.base + k * img.track_size
  continuous_mode : i.continuous_mode d = true

theorem atEnd_iff (hu : Usable img) (hp : OnPass d img m)
    (hset : m.dma_stop_address d = stopAddress img.tracks_size) :
    atEnd m d = true ↔ (m.address_offsets d).toNat + 4 = img.track_size := by
  have hword := whole_word hu
  have hsize := tracks_size_toNat hu
  have hstop := stopAddress_toNat img.tracks_size (by omega)
  have hin := hp.inside
  simp only [atEnd, hset, ge_iff_le, BitVec.le_def, hstop, decide_eq_true_eq]
  omega

theorem nextOffset_toNat (hu : Usable img) (hi : Drives d img i) (hp : OnPass d img m)
    (hset : m.dma_stop_address d = stopAddress img.tracks_size) :
    (nextOffset i m d).toNat =
      if (m.address_offsets d).toNat + 4 = img.track_size then 0
      else (m.address_offsets d).toNat + 4 := by
  have hlt := tracks_size_toNat hu ▸ img.tracks_size.isLt
  have hin := hp.inside
  by_cases he : (m.address_offsets d).toNat + 4 = img.track_size
  · rw [nextOffset, if_pos ((atEnd_iff hu hp hset).mpr he), if_pos hi.continuous_mode, if_pos he]
    rfl
  · rw [nextOffset, if_neg (fun ha => he ((atEnd_iff hu hp hset).mp ha)), if_neg he,
      BitVec.toNat_add]
    exact Nat.mod_eq_of_lt (show _ + 4 < 2^32 by omega)

/-- The next word is on the same track, or the first one of the selected track. -/
theorem nextAddress_track (hu : Usable img) (hi : Drives d img i) (hp : OnPass d img m)
    (hset : m.dma_stop_address d = stopAddress img.tracks_size) :
    ∃ k < img.max_track, (nextAddress i m d).toNat =
      img.base + k * img.track_size + (nextOffset i m d).toNat := by
  rw [nextOffset_toNat hu hi hp hset]
  by_cases he : (m.address_offsets d).toNat + 4 = img.track_size
  · obtain ⟨k, hk, ha⟩ := hi.track
    refine ⟨k, hk, ?_⟩
    rw [nextAddress, if_pos ((atEnd_iff hu hp hset).mpr he), if_pos hi.continuous_mode, ha,
      if_pos he, Nat.add_zero]
  · obtain ⟨k, hk, ha⟩ := hp.track
    have hin := hp.inside
    have haligned := hp.aligned
    have hfour := hu.2.2
    have hfit := (onPass_fits hp (show (m.address_offsets d).toNat + 8 ≤ img.track_size by omega)).2
    have hmapped := img.mapped
    refine ⟨k, hk, ?_⟩
    rw [nextAddress, if_neg (fun h => he ((atEnd_iff hu hp hset).mp h)), if_neg he,
      BitVec.toNat_add, show (4 : LWord).toNat = 4 from rfl, Nat.mod_eq_of_lt (by omega), ha]
    omega

theorem inBurst_before (h : InBurst d (step i m)) :
    m.drive_index = d ∧ i.reset_drives d = false ∧
      (m.state_master_register = .wait_read ∨ InBurst d m) := by
  have hb := step_bus i m
  have hstate := hb.state_master_register
  have hdrive := hb.drive_index
  rw [h.1] at hstate
  rw [h.2] at hdrive
  cases hs : m.state_master_register <;> simp only [hs] at hstate hdrive
  case wait_read =>
    rw [← hdrive] at hstate
    refine ⟨hdrive.symm, ?_, Or.inl rfl⟩
    by_contra hr
    rw [Bool.not_eq_false] at hr
    simp [hr] at hstate
  case wait_read2 =>
    rw [← hdrive] at hstate
    refine ⟨hdrive.symm, ?_, Or.inr ⟨hs, hdrive.symm⟩⟩
    by_contra hr
    rw [Bool.not_eq_false] at hr
    simp [hr] at hstate
  all_goals first | cases hstate | split_ifs at hstate

/-- A burst of the channel goes on unless it is cut by a reset or its last word
is taken. -/
theorem inBurst_after (hd : d ≠ 4) (hdone : m.done_q d = false)
    (hr : i.reset_drives d = false) (h : InBurst d m) :
    InBurst d (step i m) ↔ ¬(takes i m d = true ∧ m.burst_count = 0) := by
  have hb := step_bus i m
  have hstate := hb.state_master_register
  have hdrive := hb.drive_index
  simp only [h.1, h.2, hr, hdone, hd, Bool.false_eq_true, if_false, or_false] at hstate hdrive
  rw [InBurst, hstate, hdrive]
  simp

variable (hu : Usable img) (hi : Drives d img i)
  (hreads : i.reset_drives d = false → Reads d img m)
  (hset : Serving d m → m.dma_stop_address d = stopAddress img.tracks_size)
include hu hi hreads hset

theorem onPass_step : OnPass d img (step i m) := by
  have hword := whole_word hu
  have hc := step_channel i m d
  cases hr : i.reset_drives d with
  | true =>
    have hoff : ((step i m).address_offsets d).toNat = 0 := by
      rw [hc.address_offsets, hr]
      rfl
    refine ⟨⟨0, hu.1, ?_⟩, by rw [hoff], by omega⟩
    rw [hoff, hc.drv_cur_track_address, hr, if_pos rfl, hi.images_base_address, base_toNat hu]
    omega
  | false =>
    have hp := (hreads hr).toOnPass
    cases ht : takes i m d with
    | true =>
      have hs := hset (serving_takes ht).2
      have hnext := nextOffset_toNat hu hi hp hs
      have hin := hp.inside
      have haligned := hp.aligned
      have hfour := hu.2.2
      constructor
      · rw [hc.drv_cur_track_address, hc.address_offsets, hr, ht]
        exact nextAddress_track hu hi hp hs
      · rw [hc.address_offsets, hr, ht]
        simp only [Bool.false_eq_true, if_false, if_true, hnext]
        split_ifs <;> omega
      · rw [hc.address_offsets, hr, ht]
        simp only [Bool.false_eq_true, if_false, if_true, hnext]
        split_ifs <;> omega
    | false =>
      constructor
      · simpa [hc.drv_cur_track_address, hc.address_offsets, hr, ht] using hp.track
      · simpa [hc.address_offsets, hr, ht] using hp.aligned
      · simpa [hc.address_offsets, hr, ht] using hp.inside

theorem starting_step (hd : d ≠ 4) (hdone : m.done_q d = false) (heven : EvenTrack img.track_size)
    (hb : ¬InBurst d (step i m)) :
    BurstStart img.track_size ((step i m).address_offsets d).toNat := by
  have hoff := (step_channel i m d).address_offsets
  cases hr : i.reset_drives d with
  | true =>
    rw [hoff, hr]
    exact Or.inl rfl
  | false =>
    have hm := hreads hr
    rw [hoff, hr, if_neg Bool.false_ne_true]
    by_cases hs : InBurst d m
    · obtain ⟨ht, hz⟩ := not_not.mp (fun hn => hb ((inBurst_after hd hdone hr hs).mpr hn))
      have hend := (hm.ending heven hs).2
      rw [if_pos ht, nextOffset_toNat hu hi hm.toOnPass (hset (serving_takes ht).2)]
      simp only [hz] at hend
      split_ifs with he
      · exact Or.inl rfl
      · exact hend.resolve_left he
    · rw [if_neg (fun ht => hs (serving_takes ht).1)]
      exact hm.starting heven hs

theorem ending_step (hd : d ≠ 4) (hdone : m.done_q d = false) (heven : EvenTrack img.track_size)
    (hb : InBurst d (step i m)) :
    ((step i m).address_offsets d).toNat + 4*((step i m).burst_count.toNat+1) ≤ img.track_size ∧
    (((step i m).address_offsets d).toNat + 4*((step i m).burst_count.toNat+1) = img.track_size ∨
      BurstStart img.track_size
        (((step i m).address_offsets d).toNat + 4*((step i m).burst_count.toNat+1))) := by
  obtain ⟨hdrive, hr, hs⟩ := inBurst_before hb
  have hoff := (step_channel i m d).address_offsets
  have hcount := (step_bus i m).burst_count
  have hm := hreads hr
  rw [hr, if_neg Bool.false_ne_true] at hoff
  rcases hs with hs | hs
  · have ht : takes i m d = false := by simp [takes, hs]
    have hstop := hset (serving_of_state (by rw [hs]; decide) hdrive)
    have hsize := tracks_size_toNat hu
    simp only [hs, hdrive, hstop] at hcount
    rw [ht, if_neg Bool.false_ne_true] at hoff
    rw [hoff, hcount, burstLast_toNat _ _ (by rw [hsize]; exact heven.1), hsize]
    exact (burst_fits _ _ _ hu.2.2 heven.1 heven.2 hm.aligned hm.inside
      (hm.starting heven (by simp [InBurst, hs])) rfl).2.2
  · have hend := hm.ending heven hs
    simp only [hs.1, hdrive] at hcount
    cases ht : takes i m d with
    | false =>
      rw [ht, if_neg Bool.false_ne_true] at hoff hcount
      rwa [hoff, hcount]
    | true =>
      have hne : m.burst_count ≠ 0 := fun hz => (inBurst_after hd hdone hr hs).mp hb ⟨ht, hz⟩
      have hpred : (m.burst_count-1).toNat+1 = m.burst_count.toNat := by bv_omega
      have hnext := nextOffset_toNat hu hi hm.toOnPass (hset (serving_takes ht).2)
      rw [if_neg (by omega)] at hnext
      rw [ht, if_pos rfl] at hoff hcount
      rw [hoff, hcount, hnext, hpred, show (m.address_offsets d).toNat+4+4*m.burst_count.toNat =
        (m.address_offsets d).toNat+4*(m.burst_count.toNat+1) by omega]
      exact hend

/-- One clock keeps the channel on a track of the image, and a reset puts it on
the first. -/
theorem reads_step (hd : d ≠ 4) (hdone : m.done_q d = false) : Reads d img (step i m) where
  toOnPass := onPass_step hu hi hreads hset
  starting := starting_step hu hi hreads hset hd hdone
  ending := ending_step hu hi hreads hset hd hdone

omit hi hreads in
theorem burst_inside (hturn : m.state_master_register = .wait_read → m.drive_index = d → Reads d img m)
    (hburst : m.state_master_register = .wait_read → m.drive_index = d →
      EvenTrack img.track_size ∨ (m.address_offsets d).toNat + 516 < img.track_size ∨
        (m.drv_cur_track_address d).toNat + 1024 ≤ img.base + img.track_size * img.max_track)
    (hread : (step i m).avm_m1_read = true) (hd : (step i m).drive_index = d) :
    busBytes (step i m).busaddress (step i m).avm_m1_burstcount.toNat ⊆ img.bytes := by
  have hb := step_bus i m
  have hs : m.state_master_register = .wait_read := by
    rw [hb.avm_m1_read, Bool.and_eq_true, decide_eq_true_eq] at hread
    exact hread.1
  have hdrive : m.drive_index = d := by
    rw [hb.drive_index] at hd
    simpa only [hs] using hd
  have hserving : Serving d m := serving_of_state (by rw [hs]; decide) hdrive
  have hm := hturn hs hdrive
  have hsize := tracks_size_toNat hu
  have haddr := hb.busaddress
  have hwords := hb.avm_m1_burstcount
  simp only [hs, hdrive, hset hserving] at haddr hwords
  rw [haddr, hwords]
  generalize hl : burstLast (m.address_offsets d) (stopAddress img.tracks_size) = l
  have hle : (l+1).toNat ≤ 255 ∧ (l+1).toNat ≤ l.toNat + 1 := by bv_omega
  have hfits : img.base ≤ (m.drv_cur_track_address d).toNat ∧
      (m.drv_cur_track_address d).toNat + 4*(l+1).toNat ≤
        img.base + img.track_size * img.max_track := by
    rcases hburst hs hdrive with heven | haway | hleft
    · refine onPass_fits hm.toOnPass ?_
      have hlast := burstLast_toNat img.tracks_size (m.address_offsets d)
        (by rw [hsize]; exact heven.1)
      rw [hl, hsize] at hlast
      obtain ⟨-, -, hin, -⟩ := burst_fits _ _ (l.toNat+1) hu.2.2 heven.1 heven.2 hm.aligned hm.inside
        (hm.starting heven (by simp [InBurst, hs])) (by rw [hlast])
      omega
    · refine onPass_fits hm.toOnPass ?_
      have hlast := burstLast_toNat img.tracks_size (m.address_offsets d) (by omega)
      rw [hl, hsize, if_pos (by omega)] at hlast
      omega
    · have hlow := (onPass_wordOf hm.toOnPass).1
      omega
  exact Set.Ico_subset_Ico hfits.1 hfits.2

end Master

/-! ## The words under way -/

section Rig
variable {f g : DriveFifo} {d : Channel} {i : RigInput} {s : Rig f g}

/-- The address of a word of the drive is of its image, from the master to the
drive and back to the fifo of the master. -/
structure CarriesOwn (d : Channel) (s : Rig f g) : Prop where
  words : ∀ address ∈ s.underWay d, WordOf s.image address
  fetched_q : s.fetched.q = true → WordOf s.image (f.q s.popFifo).address
  fetched_q1 : s.fetched.q1 = true → WordOf s.image s.drive.out_address_q1
  fetched_q2 : s.fetched.q2 = true → WordOf s.image s.drive.out_address_q2

structure HandsBack (d : Channel) (s : Rig f g) : Prop where
  request : s.master.push_fifo_out_rq d = true ↔
    s.master.drive_index = d ∧ s.master.state_master_register = .wait_write_ws
  write_on : s.master.avm_m1_write = true ↔ s.master.state_master_register = .wait_write2
  due : s.master.state_master_register = .idle → s.master.filos_out_allempty = false →
    s.master.fifos_out_empty_index = d → g.contents s.pushFifo ≠ []
  requested : s.master.state_master_register = .wait_write_ws → s.master.drive_index = d →
    g.contents s.pushFifo ≠ []
  shown : s.master.state_master_register = .wait_write → s.master.drive_index = d →
    WordOf s.image (g.q s.pushFifo).address
  writing : s.master.state_master_register = .wait_write2 → s.master.drive_index = d →
    WordOf s.image s.master.busaddress

def ReadTurn (d : Channel) (m : Master) : Prop :=
  (m.state_master_register = .wait_read ∨ m.state_master_register = .wait_read2) ∧ m.drive_index = d

structure Kept (d : Channel) (s : Rig f g) : Prop extends CarriesOwn d s, HandsBack d s where
  usable : Usable s.image
  head : TrackWindow.OnTrack ⟨s.image,s.core⟩
  reads : s.placed = true → Reads d s.image s.master
  turn : ReadTurn d s.master → s.placed = true
  settled : Serving d s.master → s.master.dma_stop_address d = stopAddress s.image.tracks_size
  not_done : s.master.done_q d = false
  reading : s.master.avm_m1_read = true → s.master.drive_index = d →
    busBytes s.master.busaddress s.master.avm_m1_burstcount.toNat ⊆ s.image.bytes

theorem Kept.confined (h : Kept d s) : Confined d s := by
  refine fun hd => ⟨fun hread => h.reading hread hd, fun hwrite => ?_⟩
  have hword := h.writing (h.write_on.mp hwrite) hd
  exact Set.Ico_subset_Ico hword.1 hword.2

theorem mem_underWay {address : LWord} : address ∈ s.underWay d ↔
    (s.master.pop_fifo_in_wr d = true ∧ address = s.master.pop_fifo_in_address d) ∨
    (∃ w ∈ f.contents s.popFifo, w.address = address) ∨
    (s.drive.write_fifo_wr = true ∧ address = s.drive.write_fifo_data.address) ∨
    ∃ w ∈ g.contents s.pushFifo, w.address = address := by
  simp only [Rig.underWay, List.mem_append, List.mem_map, or_assoc]
  cases s.master.pop_fifo_in_wr d <;> cases s.drive.write_fifo_wr <;> simp

theorem curTracksBase_track (hu : Usable s.image) (h : TrackWindow.OnTrack ⟨s.image,s.core⟩) :
    ∃ k < s.image.max_track,
      (curTracksBase s.image s.core).toNat = s.image.base + k * s.image.track_size := by
  obtain ⟨hplaced, -, hzero | hpos⟩ := h
  · exact absurd hzero hu.2.1.ne'
  · have hpos' : s.core.trackposition.toNat < s.image.max_track := hpos
    have hend := track_end hpos'
    have hmapped := s.image.mapped
    have hsize := hu.2.1
    refine ⟨_, hpos', ?_⟩
    rw [TrackWindow.curTracksBase_toNat s.image s.core hplaced, Nat.mod_eq_of_lt (by omega)]

theorem masterInput_drives (hu : Usable s.image) (h : TrackWindow.OnTrack ⟨s.image,s.core⟩) :
    Drives d s.image (s.masterInput d i) where
  images_base_address := Function.update_self ..
  images_track_size := Function.update_self ..
  track := by simpa [Rig.masterInput] using curTracksBase_track hu h
  continuous_mode := Function.update_self ..

theorem masterInput_reset (hd : d ≠ 4) :
    (s.masterInput d i).reset_drives d = s.resetting := by
  simp [Rig.masterInput, hd]

/-! ## One clock -/

theorem pushFifo_kept (hr : s.resetting = false) (hrq : s.master.push_fifo_out_rq d = false)
    (h : g.contents s.pushFifo ≠ []) : g.contents (s.clock d i).pushFifo ≠ [] := by
  change g.contents (g.step s.resetting _ _ (s.master.push_fifo_out_rq d) s.pushFifo) ≠ []
  rw [hr, hrq]
  exact g.contents_ne_nil h

theorem requested_clock (h : HandsBack d s) (hf : FetchesWhole d i s)
    (hs : (s.clock d i).master.state_master_register = .wait_write_ws)
    (hdrive : (s.clock d i).master.drive_index = d) : g.contents (s.clock d i).pushFifo ≠ [] := by
  have hb := step_bus (s.masterInput d i) s.master
  have hstate := hb.state_master_register.symm.trans hs
  have hindex := hb.drive_index.symm.trans hdrive
  cases hm : s.master.state_master_register with
  | idle =>
    simp only [hm] at hstate hindex
    cases hread : startsRead (s.masterInput d i) s.master with
    | true => simp [hread] at hstate
    | false =>
      cases hwrite : startsWrite (s.masterInput d i) s.master with
      | false => simp [hread, hwrite] at hstate
      | true =>
        simp only [hread, hwrite, Bool.false_eq_true, if_false, if_true] at hindex
        have hsome : s.master.filos_out_allempty = false := by
          simp only [startsWrite, Bool.and_eq_true, Bool.not_eq_true'] at hwrite
          exact hwrite.2
        have hr : s.resetting = false := by
          by_contra hr
          exact (hf (Bool.not_eq_false _ ▸ hr)).2 ⟨hm, hwrite, hindex⟩
        have hrq : s.master.push_fifo_out_rq d = false := by
          rw [← Bool.not_eq_true, h.request, hm]
          exact fun hws => absurd hws.2 (by decide)
        exact pushFifo_kept hr hrq (h.due hm hsome hindex)
  | wait_read2 =>
    simp only [hm] at hstate
    split_ifs at hstate
  | wait_read =>
    simp only [hm] at hstate
    split_ifs at hstate
  | wait_write2 =>
    simp only [hm] at hstate
    split_ifs at hstate
  | _ => simp [hm] at hstate

theorem due_clock (hd : d ≠ 4) (h : HandsBack d s)
    (hs : (s.clock d i).master.state_master_register = .idle)
    (hsome : (s.clock d i).master.filos_out_allempty = false)
    (hindex : (s.clock d i).master.fifos_out_empty_index = d) :
    g.contents (s.clock d i).pushFifo ≠ [] := by
  have hword := firstOf_spec (hasWord (s.masterInput d i) s.master) hsome
  rw [show (firstOf (hasWord (s.masterInput d i) s.master)).1 = d from hindex] at hword
  simp only [hasWord, Bool.and_eq_true, Bool.not_eq_true', masterInput_reset hd] at hword
  have hrq : s.master.push_fifo_out_rq d = false := by
    rw [← Bool.not_eq_true, h.request]
    rintro ⟨-, hm⟩
    have hstate := (step_bus (s.masterInput d i) s.master).state_master_register.symm.trans hs
    simp [hm] at hstate
  refine pushFifo_kept hword.2 hrq (g.empty_sound _ ?_)
  simpa [Rig.masterInput] using hword.1.1.1

/-- The word the master has asked for is at the output of the push fifo. -/
theorem shown_clock (h : Kept d s) (hf : FetchesWhole d i s)
    (hs : (s.clock d i).master.state_master_register = .wait_write)
    (hdrive : (s.clock d i).master.drive_index = d) :
    WordOf s.image (g.q (s.clock d i).pushFifo).address := by
  have hb := step_bus (s.masterInput d i) s.master
  have hstate := hb.state_master_register.symm.trans hs
  have hindex := hb.drive_index.symm.trans hdrive
  have hm : s.master.state_master_register = .wait_write_ws := by
    cases hm : s.master.state_master_register <;> simp only [hm] at hstate
    case wait_write_ws => rfl
    all_goals first | cases hstate | split_ifs at hstate
  simp only [hm] at hindex
  have hrq : s.master.push_fifo_out_rq d = true := h.request.mpr ⟨hindex, hm⟩
  have hr : s.resetting = false := by
    by_contra hr
    rw [(hf (Bool.not_eq_false _ ▸ hr)).1] at hrq
    exact absurd hrq Bool.false_ne_true
  obtain ⟨w, ws, hw⟩ := List.exists_cons_of_ne_nil (h.requested hm hindex)
  change WordOf s.image (g.q (g.step s.resetting _ _ (s.master.push_fifo_out_rq d) s.pushFifo)).address
  rw [hr, hrq, g.q_step _ _ _ w ws hw]
  exact h.words _ (mem_underWay.mpr (Or.inr (Or.inr (Or.inr ⟨w, by simp [hw], rfl⟩))))

theorem writing_clock (h : Kept d s)
    (hs : (s.clock d i).master.state_master_register = .wait_write2)
    (hdrive : (s.clock d i).master.drive_index = d) :
    WordOf s.image (s.clock d i).master.busaddress := by
  have hb := step_bus (s.masterInput d i) s.master
  have hstate := hb.state_master_register.symm.trans hs
  have hindex := hb.drive_index.symm.trans hdrive
  have haddr : (s.clock d i).master.busaddress = _ := hb.busaddress
  rw [haddr]
  cases hm : s.master.state_master_register <;> simp only [hm] at hstate hindex ⊢
  case wait_write =>
    rw [hindex]
    simpa [Rig.masterInput] using h.shown hm hindex
  case wait_write2 => exact h.writing hm hindex
  all_goals first | cases hstate | split_ifs at hstate

theorem handsBack_clock (hd : d ≠ 4) (h : Kept d s) (hf : FetchesWhole d i s) :
    HandsBack d (s.clock d i) where
  request := request_iff _ _ d
  write_on := write_iff _ _
  due := due_clock hd h.toHandsBack
  requested := requested_clock h.toHandsBack hf
  shown := shown_clock h hf
  writing := writing_clock h

/-- A word taken in a clock is labelled with the channel's address before it. -/
theorem arriving_clock (h : Kept d s) (hwr : (s.clock d i).master.pop_fifo_in_wr d = true) :
    WordOf s.image ((s.clock d i).master.pop_fifo_in_address d) := by
  have hc := step_channel (s.masterInput d i) s.master d
  have ht : takes (s.masterInput d i) s.master d = true := hc.pop_fifo_in_wr.symm.trans hwr
  have haddr : (s.clock d i).master.pop_fifo_in_address d = _ := hc.pop_fifo_in_address
  rw [haddr, ht, if_pos rfl]
  have hburst := (serving_takes ht).1
  exact onPass_wordOf (h.reads (h.turn ⟨Or.inr hburst.1,hburst.2⟩)).toOnPass

/-- A word handed back in a clock is labelled with the address of two words before. -/
theorem leaving_clock (h : Kept d s) (hown : HandsBackOwn i s)
    (hwr : (s.clock d i).drive.write_fifo_wr = true) :
    WordOf s.image (s.clock d i).drive.write_fifo_data.address := by
  have hdrive : (s.clock d i).drive = FloppyDrive.step (s.driveInput i) s.drive := rfl
  rw [hdrive] at hwr ⊢
  cases hr : s.resetting with
  | true => simp [FloppyDrive.step, Rig.driveInput, hr, FloppyDrive.onReset] at hwr
  | false =>
    rw [FloppyDrive.step_write_fifo_data hr hwr]
    rw [FloppyDrive.step_write_fifo_wr hr, Bool.and_eq_true] at hwr
    exact h.fetched_q2 (hown hr hwr.1 hwr.2)

theorem words_clock (h : Kept d s) (hown : HandsBackOwn i s) (address : LWord)
    (ha : address ∈ (s.clock d i).underWay d) : WordOf s.image address := by
  rw [mem_underWay] at ha
  obtain ⟨hwr, rfl⟩ | ⟨w, hw, rfl⟩ | ⟨hwr, rfl⟩ | ⟨w, hw, rfl⟩ := ha
  · exact arriving_clock h hwr
  · obtain hw | ⟨hwr, rfl⟩ := f.mem_contents_step hw
    · exact h.words _ (mem_underWay.mpr (Or.inr (Or.inl ⟨w, hw, rfl⟩)))
    · exact h.words _ (mem_underWay.mpr (Or.inl ⟨hwr, rfl⟩))
  · exact leaving_clock h hown hwr
  · obtain hw | ⟨hwr, rfl⟩ := g.mem_contents_step hw
    · exact h.words _ (mem_underWay.mpr (Or.inr (Or.inr (Or.inr ⟨w, hw, rfl⟩))))
    · exact h.words _ (mem_underWay.mpr (Or.inr (Or.inr (Or.inl ⟨hwr, rfl⟩))))

theorem fetched_q_clock (h : CarriesOwn d s) (hq : (s.fetchNext i).q = true) :
    WordOf s.image (f.q (s.clock d i).popFifo).address := by
  cases hr : s.resetting with
  | true => simp [Rig.fetchNext, hr, Fetched.none] at hq
  | false =>
    change WordOf s.image (f.q (f.step s.resetting _ _ s.drive.read_fifo_rq s.popFifo)).address
    rw [hr]
    cases hrq : s.drive.read_fifo_rq with
    | false =>
      rw [f.q_hold _ _ _ _ (Or.inl rfl)]
      exact h.fetched_q (by simpa [Rig.fetchNext, hr, hrq] using hq)
    | true =>
      cases hc : f.contents s.popFifo with
      | nil =>
        rw [f.q_hold _ _ _ _ (Or.inr hc)]
        exact h.fetched_q (by simpa [Rig.fetchNext, hr, hrq, hc] using hq)
      | cons w ws =>
        rw [f.q_step _ _ _ w ws hc]
        exact h.words _ (mem_underWay.mpr (Or.inr (Or.inl ⟨w, by simp [hc], rfl⟩)))

theorem fetched_q1_clock (h : CarriesOwn d s) (hq : (s.fetchNext i).q1 = true) :
    WordOf s.image (s.clock d i).drive.out_address_q1 := by
  cases hr : s.resetting with
  | true => simp [Rig.fetchNext, hr, Fetched.none] at hq
  | false =>
    have haddr := FloppyDrive.step_out_address_q1 (i := s.driveInput i) (s := s.drive) hr
    change WordOf s.image (FloppyDrive.step (s.driveInput i) s.drive).out_address_q1
    rw [haddr]
    rw [Rig.fetchNext, hr, if_neg Bool.false_ne_true] at hq
    dsimp only at hq
    split_ifs at hq ⊢
    · exact h.fetched_q hq
    · exact h.fetched_q1 hq

theorem fetched_q2_clock (h : CarriesOwn d s) (hq : (s.fetchNext i).q2 = true) :
    WordOf s.image (s.clock d i).drive.out_address_q2 := by
  cases hr : s.resetting with
  | true => simp [Rig.fetchNext, hr, Fetched.none] at hq
  | false =>
    have haddr := FloppyDrive.step_out_address_q2 (i := s.driveInput i) (s := s.drive) hr
    change WordOf s.image (FloppyDrive.step (s.driveInput i) s.drive).out_address_q2
    rw [haddr]
    rw [Rig.fetchNext, hr, if_neg Bool.false_ne_true] at hq
    dsimp only at hq
    split_ifs at hq ⊢
    · exact h.fetched_q1 hq
    · exact h.fetched_q2 hq

theorem carriesOwn_clock (h : Kept d s) (hown : HandsBackOwn i s) : CarriesOwn d (s.clock d i) where
  words := words_clock h hown
  fetched_q := fetched_q_clock h.toCarriesOwn
  fetched_q1 := fetched_q1_clock h.toCarriesOwn
  fetched_q2 := fetched_q2_clock h.toCarriesOwn

/-- A clock in reset puts the master on the first track, any other one keeps it
where it is placed. -/
theorem reads_clock (hd : d ≠ 4) (h : Kept d s) (hp : (s.clock d i).placed = true) :
    Reads d s.image (s.clock d i).master := by
  refine reads_step h.usable (masterInput_drives h.usable h.head) (fun hr => ?_) h.settled hd
    h.not_done
  rw [masterInput_reset hd] at hr
  have hplaced : (s.resetting || s.placed) = true := hp
  rw [hr, Bool.false_or] at hplaced
  exact h.reads hplaced

theorem turn_clock (h : Kept d s) (hl : LaunchesPlaced d i s)
    (ht : ReadTurn d (s.clock d i).master) : (s.clock d i).placed = true := by
  change (s.resetting || s.placed) = true
  have hb := step_bus (s.masterInput d i) s.master
  have hstate : (s.clock d i).master.state_master_register = _ := hb.state_master_register
  have hdrive : (s.clock d i).master.drive_index = _ := hb.drive_index
  have hturn := ht.1
  have hindex := ht.2
  rw [hstate] at hturn
  rw [hdrive] at hindex
  cases hm : s.master.state_master_register with
  | idle =>
    simp only [hm] at hturn hindex
    cases hread : startsRead (s.masterInput d i) s.master with
    | true =>
      rw [hread, if_pos rfl] at hindex
      rw [Bool.or_eq_true]
      exact hl hm hread hindex
    | false =>
      rw [hread] at hturn
      split_ifs at hturn <;> simp_all
  | wait_read =>
    simp only [hm] at hindex
    simp [h.turn ⟨Or.inl hm,hindex⟩]
  | wait_read2 =>
    simp only [hm] at hindex
    simp [h.turn ⟨Or.inr hm,hindex⟩]
  | wait_write2 =>
    simp only [hm] at hturn
    split_ifs at hturn <;> simp_all
  | _ => simp [hm] at hturn

theorem kept_clock (hd : d ≠ 4) (h : Kept d s) (hsteps : StepsInside i s)
    (hburst : BurstsInside d s) (hown : HandsBackOwn i s) (hf : FetchesWhole d i s)
    (hl : LaunchesPlaced d i s) : Kept d (s.clock d i) where
  toCarriesOwn := carriesOwn_clock h hown
  toHandsBack := handsBack_clock hd h hf
  usable := h.usable
  head := TrackWindow.step_onTrack (.edge (s.pins i)) _ h.head fun hm _ => hsteps hm
  reads := reads_clock hd h
  turn := turn_clock h hl
  settled _ := by
    refine (step_channel (s.masterInput d i) s.master d).dma_stop_address.trans ?_
    rw [(masterInput_drives h.usable h.head).images_track_size]
    rfl
  not_done := by
    refine (step_channel (s.masterInput d i) s.master d).done_q.trans ?_
    rw [(masterInput_drives h.usable h.head).continuous_mode, h.not_done]
    simp
  reading := burst_inside h.usable h.settled (fun hs hd => h.reads (h.turn ⟨Or.inl hs,hd⟩)) hburst

/-! ## One write of the software -/

theorem kept_control (h : Kept d s) (v : BitVec 32) : Kept d (s.write d (.control v)) where
  toCarriesOwn := ⟨h.words,h.fetched_q,h.fetched_q1,h.fetched_q2⟩
  toHandsBack := ⟨h.request,h.write_on,h.due,h.requested,h.shown,h.writing⟩
  usable := h.usable
  head := h.head
  reads := h.reads
  turn := h.turn
  settled := h.settled
  not_done := h.not_done
  reading := h.reading

theorem kept_image (h : Kept d s) {img : Image} (hne : img ≠ s.image) (ht : TakesOver d img s) :
    Kept d (s.write d (.image img)) := by
  have hquiet : ∀ {state}, s.master.state_master_register = state → state ≠ .idle →
      s.master.drive_index ≠ d := fun hs hne hd =>
    ht.quiet (serving_of_state (hs ▸ hne) hd)
  have hfetched : (s.write d (.image img)).fetched = Fetched.none := if_neg hne
  have hplaced : (s.write d (.image img)).placed = decide (Placed d img s.master) := if_neg hne
  constructor
  case toCarriesOwn =>
    refine ⟨ht.words, ?_, ?_, ?_⟩
    all_goals
      rw [hfetched]
      exact fun hx => absurd hx Bool.false_ne_true
  case toHandsBack =>
    exact ⟨h.request,h.write_on,h.due,h.requested,
      fun hs hd => absurd hd (hquiet hs (by decide)),
      fun hs hd => absurd hd (hquiet hs (by decide))⟩
  case usable => exact ht.usable
  case head => exact TrackWindow.step_onTrack (.alloc img) _ h.head ⟨Or.inr ht.usable.1,ht.head⟩
  case reads =>
    intro hp
    rw [hplaced, decide_eq_true_eq] at hp
    obtain ⟨hpass, hstart⟩ := hp
    exact ⟨hpass,fun heven _ => hstart heven,fun _ hb => absurd hb.2 (hquiet hb.1 (by decide))⟩
  case turn =>
    rintro ⟨hs | hs, hd⟩
    · exact absurd hd (hquiet hs (by decide))
    · exact absurd hd (hquiet hs (by decide))
  case settled => exact fun hserving => absurd hserving ht.quiet
  case not_done => exact h.not_done
  case reading => exact fun hread hd => absurd ⟨Or.inr hread,hd⟩ ht.quiet

theorem kept_step (hd : d ≠ 4) {e : Event} (he : Meets d e s) (h : Kept d s) :
    Kept d (s.step d e) := by
  cases e with
  | activation p =>
    exact ⟨⟨h.words,h.fetched_q,h.fetched_q1,h.fetched_q2⟩,
      ⟨h.request,h.write_on,h.due,h.requested,h.shown,h.writing⟩,h.usable,
      TrackWindow.step_onTrack (.activation p) _ h.head trivial,h.reads,h.turn,h.settled,h.not_done,
      h.reading⟩
  | clock i w =>
    obtain ⟨hsteps, hburst, hown, hf, hl, hw⟩ := he
    have hk := kept_clock hd h hsteps hburst hown hf hl
    cases w with
    | none => exact hk
    | some w =>
      cases w with
      | control v => exact kept_control hk v
      | image img =>
        by_cases hsame : img = s.image
        · have hwrite : (s.clock d i).write d (.image img) = s.clock d i := by
            simp [Rig.write, Rig.clock, hsame]
          change Kept d ((s.clock d i).write d (.image img))
          rw [hwrite]
          exact hk
        · exact kept_image hk hsame (hw.resolve_left hsame)

/-! ## Runs -/

theorem poweredUp_kept (h : PoweredUp s) : Kept d s := by
  obtain ⟨core, hcore⟩ := h.core
  obtain ⟨drive, hdrive⟩ := h.drive
  have hquiet : ¬Serving d s.master := by
    rw [h.master]
    rintro ⟨hs | hs, -⟩
    · exact hs rfl
    · exact absurd hs Bool.false_ne_true
  constructor
  case toCarriesOwn =>
    refine ⟨?_, ?_, ?_, ?_⟩
    · intro address ha
      rw [mem_underWay, h.master, h.popFifo, h.pushFifo, hdrive] at ha
      simp [Master.reset, FloppyDrive.Drive.powerUp] at ha
    all_goals
      rw [h.fetched]
      exact fun hx => absurd hx Bool.false_ne_true
  case toHandsBack =>
    constructor <;> simp [h.master, Master.reset]
  case usable =>
    rw [h.image]
    exact ⟨by decide,by decide,by decide⟩
  case head =>
    rw [hcore, h.image]
    have htracks : 0 < resetImage.max_track := by decide
    exact ⟨TrackWindow.onReset_placed _ _,Or.inr htracks,Or.inr htracks⟩
  case reads => exact fun hp => absurd (h.placed.symm.trans hp) Bool.false_ne_true
  case turn =>
    rintro ⟨hs | hs, -⟩
    all_goals
      rw [h.master] at hs
      cases hs
  case settled => exact fun hserving => absurd hserving hquiet
  case not_done => simp [h.master, Master.reset]
  case reading => exact fun hread hd => absurd ⟨Or.inr hread,hd⟩ hquiet

/-- In every run from power-up whose steps meet the condition, the bus stays in
the image of the drive. -/
theorem confined_run (hd : d ≠ 4) {s₀ : Rig f g} (hs₀ : PoweredUp s₀)
    (hrun : Clocked.Reach (Rig.step d) (Meets d) s₀ s) : Confined d s :=
  (hrun.invariant (Kept d) (poweredUp_kept hs₀) fun _ _ he h => kept_step hd he h).confined

end Rig

abbrev listFifo : DriveFifo := SyncFifo.ofList FifoWord 4096 3968

def powered : Rig listFifo listFifo where
  image := resetImage
  control_reg := 0
  master := Master.reset
  core := TrackWindow.poweredUp.onReset
  popFifo := ([],default)
  drive := FloppyDrive.Drive.powerUp default
  pushFifo := ([],default)
  fetched := Fetched.none
  placed := false

theorem powered_poweredUp : PoweredUp powered :=
  ⟨rfl,rfl,rfl,⟨_,rfl⟩,rfl,⟨_,rfl⟩,rfl,rfl,rfl⟩

/-- A slave that is ready, the other channels without words and a host that
leaves the drive alone. -/
def still : RigInput where
  bus :=
    { avm_m1_readdata := 0
      avm_m1_waitrequest := false
      avm_m1_readdatavalid := false
      images_base_address := fun _ => 0
      images_track_size := fun _ => 0
      drv_cur_track_base_address := fun _ => 0
      enable_drives := fun _ => false
      continuous_mode := fun _ => true
      pop_fifo_almostfull := fun _ => true
      push_fifo_empty := fun _ => true
      push_fifo_out_data := fun _ => 0
      push_fifo_out_address := fun _ => 0
      reset_drives := fun _ => true }
  pins := ⟨false,false,false,false,false,false,false⟩
  lines := ⟨false,false,false,false,false,false,false,true,false,default⟩
  status := 0

def afterWrites (ws : List HostWrite) : List Event :=
  ws.map (fun w => .clock still (some w)) ++ List.replicate 3 (.clock still none)

def started (ws : List HostWrite) : Rig listFifo listFifo :=
  (afterWrites ws).foldl (fun s e => s.step 0 e) powered

def defaultImage : Image := ⟨600*1024*1024,625000,80,by decide,by decide⟩

def firstReset : List HostWrite :=
  [.control 0,.control 0x8000,
    .image ⟨600*1024*1024,624998*2,80,resetSize_bound,by decide⟩,.image defaultImage]

def laterReset : List HostWrite :=
  [.control 0,.control 0x8000,.image defaultImage,.image defaultImage]

def enabled : List HostWrite :=
  [.image ⟨600*1024*1024,50000,80,by decide,by decide⟩,.image TrackWindow.loaded,.control 0x8001]

/-- The second `reset_fpga` puts the master at the base that the first one has
programmed. -/
theorem confined_run_resetTwice :
    ((started (firstReset ++ laterReset ++ enabled)).image = TrackWindow.loaded ∧
      (started (firstReset ++ laterReset ++ enabled)).master.avm_m1_read = true) ∧
    Confined 0 (started (firstReset ++ laterReset ++ enabled)) :=
  ⟨by decide +kernel,
    confined_run (by decide) powered_poweredUp (Clocked.Reach.along _ _ (by decide +kernel))⟩

def asWritten : List HostWrite := firstReset ++ enabled

/-- The first burst of drive 0 is at the base the core was powered up with. -/
theorem started_outside : PoweredUp powered ∧
    Clocked.Reach (Rig.step 0) (fun _ _ => True) powered (started asWritten) ∧
    ¬Confined 0 (started asWritten) := by
  refine ⟨powered_poweredUp, Clocked.Reach.run _ (fun _ _ _ => trivial) _, fun h => ?_⟩
  have himage : (started asWritten).image = TrackWindow.loaded := by decide +kernel
  have hdrive : (started asWritten).master.drive_index = 0 := by decide +kernel
  have hread : (started asWritten).master.avm_m1_read = true := by decide +kernel
  have haddress : (started asWritten).master.busaddress.toNat = 900*1024*1024 := by decide +kernel
  have hwords : 0 < (started asWritten).master.avm_m1_burstcount.toNat := by decide +kernel
  generalize started asWritten = s at *
  have hin := (h hdrive).1 hread
  have hmem := hin (Set.left_mem_Ico.mpr
    (Nat.lt_add_of_pos_right (Nat.mul_pos (by decide) hwords)))
  rw [himage, haddress] at hmem
  exact absurd hmem.2 (by decide)

end Pauline.Confinement
