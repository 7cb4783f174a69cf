import Pauline.Library.Clocked
import Pauline.Library.SyncFifo
import Pauline.Fpga.TrackFeed

/-!
# Headroom of the pop fifos

The master with the pop fifos it fills. The almost full flags come from the
fifos and reach the main process through a register, while up to two words are
still on their way.
-/

set_option autoImplicit false

namespace Pauline.PopHeadroom
open Pauline.DmaMaster

abbrev DEPTH : ℕ := 4096

abbrev ALMOST_FULL : ℕ := 3968

abbrev PopFifo := SyncFifo (LWord × LWord) DEPTH ALMOST_FULL

structure PopInput extends Input where
  read_fifo_rq : Channel → Bool

structure PopSide (f : PopFifo) where
  master : Master
  fifo : Channel → f.State

section Model
variable {f : PopFifo}

def PopSide.input (s : PopSide f) (i : PopInput) : Input :=
  { i.toInput with pop_fifo_almostfull := fun d => f.almost_full (s.fifo d) }

def PopSide.step (i : PopInput) (s : PopSide f) : PopSide f where
  master := DmaMaster.step (s.input i) s.master
  fifo d := f.step (i.reset_drives d) (s.master.pop_fifo_in_wr d)
    (s.master.pop_fifo_in_address d, s.master.pop_fifo_in_data d) (i.read_fifo_rq d) (s.fifo d)

def PopSide.level (s : PopSide f) (d : Channel) : ℕ := f.level (s.fifo d)

def PopSide.arriving (s : PopSide f) (d : Channel) : ℕ :=
  if s.master.pop_fifo_in_wr d then 1 else 0

def PopInput.leaving (i : PopInput) (d : Channel) : ℕ := if i.read_fifo_rq d then 1 else 0

def Overflow (d : Channel) (s : PopSide f) : Prop :=
  s.master.pop_fifo_in_wr d = true ∧ DEPTH ≤ s.level d

def Empty (s : PopSide f) : Prop :=
  s.master = Master.reset ∧ ∀ d, f.contents (s.fifo d) = []

def Launches (d : Channel) (i : PopInput) (s : PopSide f) : Prop :=
  s.master.state_master_register = .idle ∧ startsRead (s.input i) s.master = true ∧
    s.master.fifos_in_almostfull_index = d ∧ i.reset_drives d = false

def burstWords (size : LWord) (offset : LWord) : ℕ :=
  (burstLast offset (stopAddress size)).toNat + 1

/-- A burst of the channel is launched only with room for all its words, behind
those in the fifo and the one arriving. -/
def Fits (size : LWord) (d : Channel) (i : PopInput) (s : PopSide f) : Prop :=
  Launches d i s →
    s.level d - i.leaving d + s.arriving d +
      burstWords size (s.master.address_offsets d) ≤ DEPTH

def Sized (size : LWord) (d : Channel) (i : PopInput) (_ : PopSide f) : Prop :=
  i.images_track_size d = size

def Roomy (size : LWord) (d : Channel) (i : PopInput) (s : PopSide f) : Prop :=
  Sized size d i s ∧ Fits size d i s

def toCome (size : LWord) (d : Channel) (s : PopSide f) : ℕ :=
  if s.master.drive_index = d then
    match s.master.state_master_register with
    | .wait_read => burstWords size (s.master.address_offsets d)
    | .wait_read2 => s.master.burst_count.toNat+1
    | _ => 0
  else 0

structure Headroom (size : LWord) (d : Channel) (s : PopSide f) : Prop where
  settled : s.master.state_master_register = .wait_read →
    s.master.dma_stop_address d = stopAddress size
  room : s.level d + s.arriving d + toCome size d s ≤ DEPTH

end Model

section Step
variable {f : PopFifo} {size : LWord} {d : Channel} {i : PopInput}
  {s : PopSide f}

theorem level_step_le : (s.step i).level d ≤ s.level d + s.arriving d :=
  f.level_step_le _ _ _ _ _

theorem level_le (hle : s.level d ≤ DEPTH) : (s.step i).level d ≤ DEPTH :=
  f.level_le _ _ _ _ _ hle

/-- Outside a reset a word that is not dropped is added. -/
theorem level_step (hr : i.reset_drives d = false) (hno : ¬Overflow d s) :
    (s.step i).level d = s.level d - i.leaving d + s.arriving d := by
  simp only [PopSide.level, PopSide.step, SyncFifo.level_step, PopSide.arriving, PopInput.leaving, hr]
  cases hw : s.master.pop_fifo_in_wr d with
  | false => simp
  | true =>
    have hlt : f.level (s.fifo d) < DEPTH := by
      by_contra hge
      exact hno ⟨hw, by simpa [PopSide.level] using hge⟩
    simp [hlt]

theorem arriving_step : (s.step i).arriving d =
    if takes (s.input i) s.master d then 1 else 0 := by
  simp only [PopSide.arriving, PopSide.step, (step_channel (s.input i) s.master d).pop_fifo_in_wr]

theorem reading_goes_on (i : Input) (m : Master) (h : m.state_master_register = .wait_read2) :
    (DmaMaster.step i m).state_master_register = .idle ∨
      (DmaMaster.step i m).state_master_register = .wait_read2 ∧
        (takes i m m.drive_index = true → m.burst_count ≠ 0) := by
  rw [(step_bus i m).state_master_register, h]
  simp only
  split_ifs with hr ht
  · exact Or.inl rfl
  · exact Or.inl rfl
  · exact Or.inr ⟨rfl, fun htake hz => ht ⟨htake, Or.inl hz⟩⟩

/-- What is to come grows only where a burst is launched, and a word that is
taken has been to come. -/
theorem toCome_step
    (hs : s.master.state_master_register = .wait_read →
      s.master.dma_stop_address d = stopAddress size) :
    (s.step i).arriving d + toCome size d (s.step i) ≤
      if s.master.state_master_register = .idle ∧ startsRead (s.input i) s.master = true ∧
          s.master.fifos_in_almostfull_index = d then
        burstWords size ((s.step i).master.address_offsets d)
      else toCome size d s := by
  have hb := step_bus (s.input i) s.master
  have hc := step_channel (s.input i) s.master d
  have hstate := hb.state_master_register
  have hdrive := hb.drive_index
  have hcount := hb.burst_count
  have hoff := hc.address_offsets
  rw [arriving_step]
  simp only [toCome, PopSide.step, hstate, hdrive, hcount]
  cases hm : s.master.state_master_register with
  | idle =>
    cases hr : startsRead (s.input i) s.master <;>
      cases hw : startsWrite (s.input i) s.master <;>
      by_cases hx : s.master.fifos_in_almostfull_index = d <;> simp [takes, hm, hx]
  | wait_write_ws => simp [takes, hm]
  | wait_write => simp [takes, hm]
  | wait_write2 => cases hw : (s.input i).avm_m1_waitrequest <;> simp [takes, hm]
  | wait_read =>
    by_cases hd : s.master.drive_index = d
    · have ht : takes (s.input i) s.master d = false := by simp [takes, hm]
      cases hr : (s.input i).reset_drives d with
      | true => simp [hd, hr, ht]
      | false =>
        rw [hr, ht] at hoff
        simp only [hd, hr, ht, hs hm, hoff]
        simp only [burstWords]
        split_ifs <;> simp
    · simp [takes, hm, hd]
  | wait_read2 =>
    by_cases hd : s.master.drive_index = d
    · have hnext := reading_goes_on (s.input i) s.master hm
      rw [hstate, hm] at hnext
      simp only [hd, reduceCtorEq, false_and, if_false, if_true] at hnext ⊢
      rcases hnext with hidle | ⟨hstay, hne⟩
      · rw [hidle]
        split_ifs <;> simp
      · rw [hstay]
        split_ifs with ht
        · have hpred : (s.master.burst_count-1).toNat+1 = s.master.burst_count.toNat := by
            have := hne ht
            bv_omega
          simp only [hpred]
          omega
        · simp
    · simp [takes, hm, hd]

theorem burstWords_le (size o : LWord) : burstWords size o ≤ 256 :=
  (burstLast o (stopAddress size)).isLt

theorem empty_headroom (h : Empty s) : Headroom size d s := by
  obtain ⟨hm, hf⟩ := h
  constructor
  · simp [hm, Master.reset]
  · simp [PopSide.level, SyncFifo.level, PopSide.arriving, toCome, hm, hf, Master.reset]

theorem Headroom.no_overflow (h : Headroom size d s) : ¬Overflow d s := by
  intro ho
  have hroom := h.room
  simp only [PopSide.arriving, ho.1, if_true] at hroom
  have := ho.2
  omega

theorem headroom_step (h : Headroom size d s) (hi : Sized size d i s)
    (hf : Fits size d i s) : Headroom size d (s.step i) where
  settled _ := by
    have hc := (step_channel (s.input i) s.master d).dma_stop_address
    rw [← hi]
    exact hc
  room := by
    have hle := level_step_le (d := d) (i := i) (s := s)
    have hnext := toCome_step (i := i) h.settled
    have hroom := h.room
    have hoff := (step_channel (s.input i) s.master d).address_offsets
    split_ifs at hnext with hl
    · obtain ⟨hs, hr, hx⟩ := hl
      have ht : takes (s.input i) s.master d = false := by simp [takes, hs]
      cases hreset : i.reset_drives d with
      | true =>
        have hzero : (s.step i).level d = 0 := by
          simp [PopSide.level, PopSide.step, SyncFifo.level_step, hreset]
        have := burstWords_le size ((s.step i).master.address_offsets d)
        unfold DEPTH
        omega
      | false =>
        have hfits := hf ⟨hs, hr, hx, hreset⟩
        have hlevel := level_step (d := d) (i := i) hreset h.no_overflow
        have hsame : (s.step i).master.address_offsets d = s.master.address_offsets d := by
          refine hoff.trans ?_
          rw [ht, show (s.input i).reset_drives d = false from hreset]
          rfl
        rw [hsame] at hnext
        omega
    · omega

theorem fits_of_busy (h : s.master.state_master_register ≠ .idle) :
    Fits size d i s := fun hl => absurd hl.1 h

end Step

/-- Only channel `d` is enabled and its drive does not read; the slave answers
at every clock. -/
def stoppedInput (size : LWord) (d : Channel) : PopInput where
  avm_m1_readdata := 0
  avm_m1_waitrequest := false
  avm_m1_readdatavalid := true
  images_base_address _ := 0
  images_track_size _ := size
  drv_cur_track_base_address _ := 0
  enable_drives e := e = d
  continuous_mode _ := true
  pop_fifo_almostfull _ := false
  push_fifo_empty _ := true
  push_fifo_out_data _ := 0
  push_fifo_out_address _ := 0
  reset_drives _ := false
  read_fifo_rq _ := false

section Stopped
variable {f : PopFifo} {size : LWord} {d : Channel} {s : PopSide f}

def Busy (size : LWord) (d : Channel) (i : PopInput) (s : PopSide f) : Prop :=
  Sized size d i s ∧ s.master.state_master_register ≠ .idle

theorem stopped_alone : LoneChannel.Alone d size (s.input (stoppedInput size d)) :=
  ⟨rfl, fun _ => rfl, rfl, rfl⟩

theorem stopped_busy (h : s.master.state_master_register ≠ .idle) :
    Clocked.Reach PopSide.step (Busy size d) s (s.step (stoppedInput size d)) :=
  (Clocked.Reach.refl s).tick _ ⟨rfl, h⟩

variable (size) in
theorem stopped_level (hno : ¬Overflow d s) :
    (s.step (stoppedInput size d)).level d = s.level d + s.arriving d :=
  level_step rfl hno

theorem stopped_takes {o : LWord} {n : BitVec 8} (h : LoneChannel.Reading d size o n s.master) :
    takes (s.input (stoppedInput size d)) s.master d = true := by
  simp [takes, h.state, h.drive, PopSide.input, stoppedInput]

theorem ofNat_succ_ne (k : ℕ) (hk : k+1 < 256) : BitVec.ofNat 8 (k+1) ≠ 0 := by
  intro hz
  have hk0 : (k+1) % 2^8 = 0 := (BitVec.toNat_ofNat (k+1) 8).symm.trans (congrArg _ hz)
  omega

theorem ofNat_succ_pred (k : ℕ) : BitVec.ofNat 8 (k+1) - 1 = BitVec.ofNat 8 k := by
  rw [BitVec.ofNat_add]
  exact BitVec.add_sub_cancel _ _

theorem stopped_taken {o : LWord} {n : BitVec 8} (h : LoneChannel.Reading d size o n s.master) :
    (s.step (stoppedInput size d)).arriving d = 1 := by
  rw [arriving_step, stopped_takes h, if_pos rfl]

theorem stopped_waiting {o : LWord} {asked : Bool}
    (h : LoneChannel.Waiting d size o asked s.master) :
    (s.step (stoppedInput size d)).arriving d = 0 := by
  have ht : takes (s.input (stoppedInput size d)) s.master d = false := by
    simp [takes, h.state]
  rw [arriving_step, ht, if_neg Bool.false_ne_true]

/-- A burst without room for its words overflows when the drive stands still. -/
theorem overflow_reading (hd : d ≠ 4) (k : ℕ) (hk : k < 256) (o : LWord) (hle : s.level d ≤ DEPTH)
    (h : LoneChannel.Reading d size o (BitVec.ofNat 8 k) s.master)
    (hfull : DEPTH < s.level d + s.arriving d + (k+1)) :
    ∃ t, Clocked.Reach PopSide.step (Busy size d) s t ∧ Overflow d t := by
  induction k generalizing o s with
  | zero =>
    by_cases hno : Overflow d s
    · exact ⟨s, Clocked.Reach.refl s, hno⟩
    · have hlevel := stopped_level size hno
      have harr := stopped_taken h
      refine ⟨_, stopped_busy (d := d) (by rw [h.state]; decide), ?_, by rw [hlevel]; omega⟩
      by_contra hw
      simp [PopSide.arriving, hw] at harr
  | succ k ih =>
    by_cases hno : Overflow d s
    · exact ⟨s, Clocked.Reach.refl s, hno⟩
    · have hlevel := stopped_level size hno
      have hnext := LoneChannel.word_taken h (stopped_alone (s := s)) hd rfl (ofNat_succ_ne k hk)
      rw [ofNat_succ_pred] at hnext
      obtain ⟨t, ht, hover⟩ := ih (by omega) _ (level_le hle) hnext (by
        rw [hlevel, stopped_taken h]
        omega)
      exact ⟨t, (stopped_busy (by rw [h.state]; decide)).trans ht, hover⟩

theorem overflow_asked (hd : d ≠ 4) (o : LWord) (hle : s.level d ≤ DEPTH)
    (h : LoneChannel.Waiting d size o true s.master)
    (hfull : DEPTH < s.level d + s.arriving d + burstWords size o) :
    ∃ t, Clocked.Reach PopSide.step (Busy size d) s t ∧ Overflow d t := by
  by_cases hno : Overflow d s
  · exact ⟨s, Clocked.Reach.refl s, hno⟩
  have hlevel := stopped_level size hno
  have hread := LoneChannel.command_accepted h (stopped_alone (s := s)) rfl
  have hword : burstLast o (stopAddress size) =
      BitVec.ofNat 8 (burstWords size o - 1) := by
    simp [burstWords]
  rw [hword] at hread
  have hpos : 0 < burstWords size o := Nat.succ_pos _
  have hmax := burstWords_le size o
  obtain ⟨t, ht, hover⟩ := overflow_reading hd _ (by omega) o (level_le hle) hread (by
    rw [hlevel, stopped_waiting h]
    omega)
  exact ⟨t, (stopped_busy (by rw [h.state]; decide)).trans ht, hover⟩

theorem overflow_waiting (hd : d ≠ 4) (o : LWord) (hle : s.level d ≤ DEPTH)
    (h : LoneChannel.Waiting d size o false s.master)
    (hfull : DEPTH < s.level d + s.arriving d + burstWords size o) :
    ∃ t, Clocked.Reach PopSide.step (Busy size d) s t ∧ Overflow d t := by
  by_cases hno : Overflow d s
  · exact ⟨s, Clocked.Reach.refl s, hno⟩
  have hlevel := stopped_level size hno
  have hask := LoneChannel.command_asked h (stopped_alone (s := s)) hd (Or.inl rfl)
  obtain ⟨t, ht, hover⟩ := overflow_asked hd o (level_le hle) hask (by
    rw [hlevel, stopped_waiting h]
    omega)
  exact ⟨t, (stopped_busy (by rw [h.state]; decide)).trans ht, hover⟩

theorem launched_waiting {i : PopInput} (hi : Sized size d i s)
    (hl : Launches d i s) (hdone : s.master.done_q d = false) :
    LoneChannel.Waiting d size (s.master.address_offsets d) false
      (s.step i).master ∧ (s.step i).arriving d = 0 := by
  obtain ⟨hs, hr, hx, hreset⟩ := hl
  have hb := step_bus (s.input i) s.master
  have hc := step_channel (s.input i) s.master d
  have ht : takes (s.input i) s.master d = false := by simp [takes, hs]
  have hreset' : (s.input i).reset_drives d = false := hreset
  refine ⟨⟨⟨?_, ?_, ?_⟩, ?_, ?_, ?_⟩, by rw [arriving_step, ht]; rfl⟩
  · exact hc.dma_stop_address.trans (by rw [← hi]; rfl)
  · exact hc.address_offsets.trans (by rw [hreset', ht]; rfl)
  · exact hc.done_q.trans (by rw [ht, hdone]; simp)
  · exact hb.state_master_register.trans (by simp [hs, hr])
  · exact hb.drive_index.trans (by simp [hs, hr, hx])
  · exact hb.read_wrrq_delay.trans (by simp [hs])

/-- The bursts of channel `d` do not overflow its fifo while each finds room
for all its words, and a burst that does not find it overflows when the drive
stops reading. -/
theorem pop_fifo_headroom (f : PopFifo) (size : LWord) (d : Channel)
    (hd : d ≠ 4) (s t : PopSide f) (hs : Empty s)
    (h : Clocked.Reach PopSide.step (Roomy size d) s t) :
    ¬Overflow d t ∧ ∀ i, Sized size d i t → Launches d i t →
      t.master.done_q d = false →
      (Fits size d i t ↔ ∀ u, Clocked.Reach PopSide.step (Busy size d)
        (t.step i) u → ¬Overflow d u) := by
  have hroom : Headroom size d t :=
    h.invariant (Headroom size d) (empty_headroom hs)
      (fun i s hi hr => headroom_step hr hi.1 hi.2)
  refine ⟨hroom.no_overflow, fun i hi hl hdone => ⟨fun hf u hu => ?_, fun hno hl' => ?_⟩⟩
  · exact (hu.invariant (Headroom size d) (headroom_step hroom hi hf)
      (fun i s hi hr => headroom_step hr hi.1 (fits_of_busy hi.2))).no_overflow
  · by_contra hfull
    obtain ⟨hwait, harr⟩ := launched_waiting hi hl hdone
    obtain ⟨u, hu, hover⟩ := overflow_waiting hd _
      (level_le (i := i) (by have := hroom.room; omega)) hwait (by
        rw [harr, level_step hl.2.2.2 hroom.no_overflow]
        omega)
    exact hno u hu hover

variable (size) in
theorem stopped_total (hno : ¬Overflow d s) :
    (s.step (stoppedInput size d)).level d +
        (s.step (stoppedInput size d)).arriving d =
      s.level d + s.arriving d +
        if takes (s.input (stoppedInput size d)) s.master d then 1 else 0 := by
  rw [stopped_level size hno, arriving_step]

theorem not_overflow_of_low (h : s.level d < DEPTH) : ¬Overflow d s := fun ho =>
  absurd ho.2 (by omega)

theorem stopped_tick (hf : Fits size d (stoppedInput size d) s) :
    Clocked.Reach PopSide.step (Roomy size d) s (s.step (stoppedInput size d)) :=
  (Clocked.Reach.refl s).tick _ ⟨rfl,hf⟩

theorem stopped_inside (h : s.master.state_master_register ≠ .idle) :
    Clocked.Reach PopSide.step (Roomy size d) s (s.step (stoppedInput size d)) :=
  stopped_tick (fits_of_busy h)

structure Filled (size : LWord) (d : Channel) (o n total : ℕ) (t : PopSide f) : Prop where
  rest : LoneChannel.AtRest d size
    (BitVec.ofNat 32 (if o+4*n = size.toNat then 0 else o+4*n)) t.master
  total : t.level d + t.arriving d = total+n

/-- A burst fills the fifo of a drive that stands still. -/
theorem burst_fills (hd : d ≠ 4) (hsize : 516 < size.toNat) (k : ℕ)
    (hk : k < 128) (o : ℕ) (hin : o+4*(k+1) ≤ size.toNat)
    (h : LoneChannel.Reading d size (BitVec.ofNat 32 o) (BitVec.ofNat 8 k)
      s.master)
    (harr : s.arriving d = 1 ∨ 0 < k) (hroom : s.level d + s.arriving d + k ≤ ALMOST_FULL) :
    ∃ t, Clocked.Reach PopSide.step (Roomy size d) s t ∧
      Filled size d o (k+1) (s.level d + s.arriving d) t := by
  unfold ALMOST_FULL at hroom
  have htotal := stopped_total size
    (not_overflow_of_low (d := d) (s := s) (by unfold DEPTH; omega))
  rw [stopped_takes h, if_pos rfl] at htotal
  induction k generalizing o s with
  | zero =>
    have hflag : (s.input (stoppedInput size d)).pop_fifo_almostfull d = false := by
      have hlow : ¬ALMOST_FULL ≤ f.level (s.fifo d) := by
        unfold PopSide.level at hroom
        unfold ALMOST_FULL
        omega
      simp [PopSide.input, SyncFifo.almost_full, hlow]
    have hend := LoneChannel.burst_ends h stopped_alone rfl hflag
    rw [TrackFeed.followingOffset_ofNat hsize (by omega)] at hend
    exact ⟨_, stopped_inside (by rw [h.state]; decide), hend, htotal⟩
  | succ k ih =>
    have hnext := LoneChannel.word_taken h (stopped_alone (s := s)) hd rfl
      (ofNat_succ_ne k (by omega))
    rw [ofNat_succ_pred, TrackFeed.followingOffset_ofNat hsize (by omega),
      if_neg (by omega)] at hnext
    have harr' := stopped_taken h
    have hlow : (s.step (stoppedInput size d)).level d < DEPTH := by
      unfold DEPTH
      omega
    have htotal' := stopped_total size
      (not_overflow_of_low hlow)
    rw [stopped_takes hnext, if_pos rfl] at htotal'
    obtain ⟨t, ht, hrest, hsum⟩ := ih (by omega) (o+4) (by omega) hnext (Or.inl harr')
      (by omega) htotal'
    rw [show o+4+4*(k+1) = o+4*(k+1+1) by omega] at hrest
    exact ⟨t, (stopped_inside (by rw [h.state]; decide)).trans ht, hrest, by omega⟩

variable (size) in
theorem stopped_quiet (hroom : s.level d + s.arriving d ≤ ALMOST_FULL)
    (hs : s.master.state_master_register ≠ .wait_read2) :
    (s.step (stoppedInput size d)).level d +
      (s.step (stoppedInput size d)).arriving d = s.level d + s.arriving d := by
  unfold ALMOST_FULL at hroom
  rw [stopped_total size (not_overflow_of_low (by unfold DEPTH; omega)), takes]
  simp [hs]

theorem asked_fills (hd : d ≠ 4) (hsize : 516 < size.toNat) (k : ℕ)
    (hk : k < 128) (hpos : 0 < k) (o : ℕ) (hin : o+4*(k+1) ≤ size.toNat)
    (hlast : burstLast (BitVec.ofNat 32 o) (stopAddress size) = BitVec.ofNat 8 k)
    (h : LoneChannel.Waiting d size (BitVec.ofNat 32 o) true s.master)
    (hroom : s.level d + s.arriving d + k ≤ ALMOST_FULL) :
    ∃ t, Clocked.Reach PopSide.step (Roomy size d) s t ∧
      Filled size d o (k+1) (s.level d + s.arriving d) t := by
  have hquiet := stopped_quiet size (d := d) (s := s)
    (by omega) (by rw [h.state]; decide)
  have hread := LoneChannel.command_accepted h (stopped_alone (s := s)) rfl
  rw [hlast] at hread
  obtain ⟨t, ht, hfill⟩ := burst_fills hd hsize k hk o hin hread (Or.inr hpos) (by
    rw [hquiet]
    exact hroom)
  rw [hquiet] at hfill
  exact ⟨t, (stopped_inside (by rw [h.state]; decide)).trans ht, hfill⟩

theorem waiting_fills (hd : d ≠ 4) (hsize : 516 < size.toNat) (k : ℕ)
    (hk : k < 128) (hpos : 0 < k) (o : ℕ) (hin : o+4*(k+1) ≤ size.toNat)
    (hlast : burstLast (BitVec.ofNat 32 o) (stopAddress size) = BitVec.ofNat 8 k)
    (h : LoneChannel.Waiting d size (BitVec.ofNat 32 o) false s.master)
    (hroom : s.level d + s.arriving d + k ≤ ALMOST_FULL) :
    ∃ t, Clocked.Reach PopSide.step (Roomy size d) s t ∧
      Filled size d o (k+1) (s.level d + s.arriving d) t := by
  have hquiet := stopped_quiet size (d := d) (s := s)
    (by omega) (by rw [h.state]; decide)
  obtain ⟨t, ht, hfill⟩ := asked_fills hd hsize k hk hpos o hin hlast
    (LoneChannel.command_asked h (stopped_alone (s := s)) hd (Or.inl rfl)) (by
      rw [← hquiet] at hroom
      exact hroom)
  rw [← hquiet]
  exact ⟨t, (stopped_inside (by rw [h.state]; decide)).trans ht, hfill⟩

variable (size) in
theorem rest_fills (hd : d ≠ 4) (hsize : 516 < size.toNat) (k : ℕ)
    (hk : k < 128) (hpos : 0 < k) (o : ℕ) (hin : o+4*(k+1) ≤ size.toNat)
    (hlast : burstLast (BitVec.ofNat 32 o) (stopAddress size) = BitVec.ofNat 8 k)
    (h : LoneChannel.AtRest d size (BitVec.ofNat 32 o) s.master)
    (hroom : s.level d + s.arriving d + k ≤ ALMOST_FULL) :
    ∃ t, Clocked.Reach PopSide.step (Roomy size d) s t ∧
      Filled size d o (k+1) (s.level d + s.arriving d) t := by
  have hquiet := stopped_quiet size (d := d) (s := s)
    (by omega) (by rw [h.state]; decide)
  obtain ⟨t, ht, hfill⟩ := waiting_fills hd hsize k hk hpos o hin hlast
    (LoneChannel.rest_goes_on h (stopped_alone (s := s))) (by
      rw [← hquiet] at hroom
      exact hroom)
  rw [← hquiet]
  refine ⟨t, (stopped_tick fun _ => ?_).trans ht, hfill⟩
  have hwords : burstWords size (s.master.address_offsets d) = k+1 := by
    rw [burstWords, h.offset, hlast, BitVec.toNat_ofNat, Nat.mod_eq_of_lt (by omega)]
  rw [hwords]
  change s.level d - 0 + s.arriving d + (k+1) ≤ DEPTH
  unfold ALMOST_FULL at hroom
  unfold DEPTH
  omega

variable (size) in
theorem empty_rests (h : Empty s) : ∃ t, Clocked.Reach PopSide.step (Roomy size d) s t ∧
    LoneChannel.AtRest d size (BitVec.ofNat 32 0) t.master ∧
    t.level d + t.arriving d = 0 := by
  obtain ⟨hm, hf⟩ := h
  have hc := step_channel (s.input (stoppedInput size d)) s.master d
  have hb := step_bus (s.input (stoppedInput size d)) s.master
  have ht : takes (s.input (stoppedInput size d)) s.master d = false := by
    simp [takes, hm, Master.reset]
  have hzero : s.level d = 0 ∧ s.arriving d = 0 := by
    simp [PopSide.level, SyncFifo.level, PopSide.arriving, hm, hf, Master.reset]
  refine ⟨_, stopped_tick (d := d) (fun hl => ?_), ⟨⟨?_, ?_, ?_⟩, ?_, ?_⟩, ?_⟩
  · exact absurd hl.2.1 (by simp [hm, Master.reset, startsRead])
  · exact hc.dma_stop_address
  · refine hc.address_offsets.trans ?_
    rw [ht, hm]
    rfl
  · refine hc.done_q.trans ?_
    rw [ht, hm]
    simp [Master.reset]
  · refine hb.state_master_register.trans ?_
    simp [hm, Master.reset, startsRead, startsWrite]
  · change (firstOf _).1 = d ∧ (firstOf _).2 = false
    rw [LoneChannel.chosen_alone (d := d) (by rw [hm]; rfl) (fun _ => rfl) (by
      simp [PopSide.input, SyncFifo.almost_full, SyncFifo.level, hf])]
    exact ⟨rfl, rfl⟩
  · rw [stopped_quiet size (by unfold ALMOST_FULL; omega) (by simp [hm, Master.reset]), hzero.1, hzero.2]

/-- One revolution of a track of 189 words puts all of them into the fifo. -/
theorem revolution_fills (hd : d ≠ 4) (n : ℕ) (hn : n < 21)
    (h : LoneChannel.AtRest d 756 (BitVec.ofNat 32 0) s.master)
    (htotal : s.level d + s.arriving d = 189*n) :
    ∃ t, Clocked.Reach PopSide.step (Roomy 756 d) s t ∧
      LoneChannel.AtRest d 756 (BitVec.ofNat 32 0) t.master ∧
      t.level d + t.arriving d = 189*(n+1) := by
  obtain ⟨t, ht, hrest, hsum⟩ := rest_fills 756 hd (by decide) 127
    (by decide) (by decide) 0 (by decide) (by decide) h (by unfold ALMOST_FULL; omega)
  obtain ⟨u, hu, hrest', hsum'⟩ := rest_fills 756 hd (by decide) 60
    (by decide) (by decide) 512 (by decide) (by decide) hrest (by unfold ALMOST_FULL; omega)
  exact ⟨u, ht.trans hu, hrest', by omega⟩

variable (size) in
theorem rest_overflows (hd : d ≠ 4) (o : LWord)
    (h : LoneChannel.AtRest d size o s.master)
    (hlow : s.level d + s.arriving d < DEPTH)
    (hfull : DEPTH < s.level d + s.arriving d + burstWords size o) :
    ∃ t, Clocked.Reach PopSide.step (Sized size d) s t ∧ Overflow d t := by
  have htotal := stopped_total size
    (not_overflow_of_low (d := d) (s := s) (by omega))
  obtain ⟨t, ht, hover⟩ := overflow_waiting hd o (level_le (by omega))
    (LoneChannel.rest_goes_on h (stopped_alone (s := s))) (by omega)
  have hfirst : Clocked.Reach PopSide.step (Sized size d) s (s.step (stoppedInput size d)) :=
    (Clocked.Reach.refl s).tick _ rfl
  exact ⟨t, hfirst.trans (ht.mono (fun _ _ hi => hi.1)), hover⟩

end Stopped

abbrev listFifo : PopFifo := SyncFifo.ofList (LWord × LWord) DEPTH ALMOST_FULL

def powerUp : PopSide listFifo := ⟨Master.reset, fun _ => ([], default)⟩

theorem powerUp_empty : Empty powerUp := ⟨rfl, fun _ => rfl⟩

theorem revolutions_fill (n : ℕ) (hn : n ≤ 21) :
    ∃ t : PopSide listFifo, Clocked.Reach PopSide.step (Roomy 756 0) powerUp t ∧
      LoneChannel.AtRest 0 756 (BitVec.ofNat 32 0) t.master ∧ t.level 0 + t.arriving 0 = 189*n := by
  induction n with
  | zero => exact empty_rests 756 powerUp_empty
  | succ n ih =>
    obtain ⟨s, hs, hrest, hsum⟩ := ih (by omega)
    obtain ⟨t, ht, hrest', hsum'⟩ := revolution_fills (by decide) n (by omega) hrest hsum
    exact ⟨t, hs.trans ht, hrest', hsum'⟩

/-- Twenty revolutions, of two bursts each, into the fifo of a drive that does not
read, and the launch that follows them. -/
theorem pop_fifo_headroom_revolutions :
    ∃ t : PopSide listFifo, t.level 0 + t.arriving 0 = 3780 ∧
      Launches 0 (stoppedInput 756 0) t ∧ ¬Overflow 0 t ∧
      (Fits 756 0 (stoppedInput 756 0) t ↔
        ∀ u, Clocked.Reach PopSide.step (Busy 756 0) (t.step (stoppedInput 756 0)) u →
          ¬Overflow 0 u) := by
  obtain ⟨t, ht, hrest, hsum⟩ := revolutions_fill 20 (by decide)
  have hlaunch : Launches 0 (stoppedInput 756 0) t := by
    refine ⟨hrest.state,?_,hrest.chosen.1,rfl⟩
    rw [startsRead, hrest.chosen.2]
    rfl
  obtain ⟨hno, hiff⟩ := pop_fifo_headroom listFifo 756 0 (by decide) powerUp t powerUp_empty ht
  exact ⟨t,hsum,hlaunch,hno,hiff _ rfl hlaunch hrest.not_done⟩

/-- With a track of 756 bytes and a drive that never reads, the fifo is given
3969 words and then a burst of 128. -/
theorem pop_fifo_overflows : ∃ t, Clocked.Reach PopSide.step (Sized 756 0) powerUp t ∧
    Overflow 0 t := by
  obtain ⟨t, ht, hrest, hsum⟩ := revolutions_fill 21 le_rfl
  obtain ⟨u, hu, hover⟩ := rest_overflows 756 (by decide) _ hrest (by unfold DEPTH; omega) (by
    have hwords : burstWords 756 (BitVec.ofNat 32 0) = 128 := by decide
    unfold DEPTH
    omega)
  exact ⟨u, (ht.mono fun _ _ hi => hi.1).trans hu, hover⟩

end Pauline.PopHeadroom
