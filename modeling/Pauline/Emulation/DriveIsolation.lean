import Pauline.Fpga.AvalonRead

/-!
# What the other drives do to a drive

The four emulated drives share the bus master. The words a drive is given are a
function of its own registers, its own image and the tracks its host steps it
to; what the others do decides when they come. The index flag is mixed with the
hard sector pulse of drive 0.
-/

set_option autoImplicit false

namespace Pauline.DriveIsolation
open Pauline.DmaMaster Pauline.AvalonRead

/-! ## The index generators and the fifos -/

def indexOut (track_length index_length start_track_index current_position : LWord) : Bool :=
  if start_track_index + index_length > track_length then
    current_position ≥ start_track_index ||
      current_position < start_track_index + index_length - track_length
  else
    current_position ≥ start_track_index && current_position < start_track_index + index_length

structure CoreInput extends Input where
  drives_config_regs : Channel → LWord
  drives_index_len : Channel → LWord
  drives_track_index_start : Channel → LWord
  hs_index_positions : Fin 32 → LWord
  host_drv0_qdstopmotor_len : LWord
  host_drv0_qdstopmotor_start : LWord

structure Loaded where
  address : LWord
  data : LWord
  status : BitVec 8
deriving DecidableEq

structure Core where
  bus : Bus
  index_state : Channel → Bool
  hs_index_state : Fin 32 → Bool
  qd_stopmotor_state : Bool
  loaded : Channel → List Loaded

def Core.reset : Core := ⟨Bus.reset,fun _ => false,fun _ => false,false,fun _ => []⟩

def hsIndex (i : CoreInput) (s : Core) : Bool :=
  (List.finRange 32).any s.hs_index_state && (i.drives_config_regs 0).getLsbD 27

def mixed (i : CoreInput) (s : Core) : Bool :=
  hsIndex i s && (i.drives_config_regs 0).getLsbD 28

def statusByte (i : CoreInput) (s : Core) (d : Channel) : BitVec 8 :=
  0#6 ++ BitVec.ofBool s.qd_stopmotor_state ++ BitVec.ofBool (s.index_state d || mixed i s)

def Core.step (i : CoreInput) (s : Core) : Core where
  bus := s.bus.step i.toInput
  index_state d := d != 4 && indexOut (i.images_track_size d) (i.drives_index_len d)
    (i.drives_track_index_start d) (s.bus.master.address_offsets d)
  hs_index_state h := indexOut (i.images_track_size 0) (i.drives_index_len 0)
    (i.hs_index_positions h) (s.bus.master.address_offsets 0)
  qd_stopmotor_state := indexOut (i.images_track_size 0) i.host_drv0_qdstopmotor_len
    i.host_drv0_qdstopmotor_start (s.bus.master.address_offsets 0)
  loaded d :=
    if i.reset_drives d then []
    else s.loaded d ++
      if s.bus.master.pop_fifo_in_wr d then
        [⟨s.bus.master.pop_fifo_in_address d,s.bus.master.pop_fifo_in_data d,statusByte i s d⟩]
      else []

/-! ## A drive on its own -/

structure Word where
  address : LWord
  data : LWord
  index : Bool
deriving DecidableEq

def Loaded.word (w : Loaded) : Word := ⟨w.address,w.data,w.status.getLsbD 0⟩

structure Settings where
  image_base_address : LWord
  track_size : LWord
  continuous_mode : Bool
  index_len : LWord
  index_start : LWord
  memory : LWord → LWord
  track : ℕ → LWord

structure Position where
  offset : LWord
  address : LWord
  burst : Option (LWord × BitVec 8)

section Stream
variable (σ : Settings)

def Settings.stop : LWord := stopAddress σ.track_size

def Settings.burstAt (p : Position) : LWord × BitVec 8 :=
  p.burst.getD (p.address,burstLast p.offset σ.stop)

def Settings.next (k : ℕ) (p : Position) : Position where
  offset :=
    if p.offset ≥ σ.stop then if σ.continuous_mode then 0 else σ.stop else p.offset + 4
  address :=
    if p.offset ≥ σ.stop then
      if σ.continuous_mode then σ.track k else σ.track k + σ.stop
    else p.address + 4
  burst :=
    if (σ.burstAt p).2 = 0 then none else some ((σ.burstAt p).1 + 4,(σ.burstAt p).2 - 1)

def Settings.position : ℕ → Position
  | 0 => ⟨0,σ.image_base_address,none⟩
  | k+1 => σ.next k (Settings.position k)

def Settings.word (k : ℕ) : Word where
  address := (σ.position k).address
  data := σ.memory (σ.burstAt (σ.position k)).1
  index := indexOut σ.track_size σ.index_len σ.index_start (σ.position k).offset

end Stream

/-! ## The runs -/

def Core.taken (s : Core) (d : Channel) : ℕ :=
  (s.loaded d).length + if s.bus.master.pop_fifo_in_wr d then 1 else 0

/-- The registers and the image of drive `d` are as set; the slave answers in
order and accepts each command once. -/
structure Given (σ : Settings) (d : Channel) (i : CoreInput) (s : Core) : Prop where
  legal : Legal i.toInput s.bus
  once : s.bus.master.state_master_register ≠ .wait_read → accepts i.toInput s.bus = false
  read : ∀ b rest, s.bus.outstanding = b::rest → b.channel = d → i.avm_m1_readdatavalid = true →
    i.avm_m1_readdata = σ.memory b.word
  image : i.images_base_address d = σ.image_base_address
  size : i.images_track_size d = σ.track_size
  continuous : i.continuous_mode d = σ.continuous_mode
  index_len : i.drives_index_len d = σ.index_len
  index_start : i.drives_track_index_start d = σ.index_start

/-- No command is dropped and no burst left while words of it are owed, neither
by a reset nor because its channel is done, and drive `d` is not reset in a burst
of its own; no size register is written under a waiting command; where drive `d`
comes to the end of its track its host has stepped it to the track that is given. -/
structure Kept (σ : Settings) (d : Channel) (i : CoreInput) (s : Core) : Prop where
  not_dropped : s.bus.master.state_master_register = .wait_read → accepts i.toInput s.bus = true →
    i.reset_drives s.bus.master.drive_index = false
  not_reset : s.bus.master.state_master_register = .wait_read2 →
    i.reset_drives s.bus.master.drive_index = true → s.bus.master.drive_index ≠ d ∧
      i.avm_m1_readdatavalid = true ∧ s.bus.outstanding.length ≤ 1
  not_left : s.bus.master.state_master_register = .wait_read2 → i.avm_m1_readdatavalid = true →
    s.bus.master.done_q s.bus.master.drive_index = true → s.bus.outstanding.length ≤ 1
  steady : Steady i.toInput s.bus
  track : takes i.toInput s.bus.master d = true → atEnd s.bus.master d = true →
    i.drv_cur_track_base_address d = σ.track (s.taken d)

structure Apart (σ : Settings) (d : Channel) (i : CoreInput) (s : Core) : Prop
    extends Kept σ d i s where
  unmixed : s.bus.master.pop_fifo_in_wr d = true → mixed i s = true → s.index_state d = true

def Alone (σ : Settings) (d : Channel) (i : CoreInput) (s : Core) : Prop :=
  Given σ d i s ∧ Apart σ d i s

def Started (σ : Settings) (d : Channel) (s : Core) : Prop :=
  ∃ i, Alone σ d i Core.reset ∧ i.reset_drives d = true ∧ s = Core.reset.step i

theorem Alone.keeps {σ : Settings} {d : Channel} {i : CoreInput} {s : Core} (h : Alone σ d i s) :
    Keeps i.toInput s.bus where
  not_again := h.1.once
  not_dropped := h.2.not_dropped
  not_left := by
    intro hs hcut
    obtain hreset | ⟨hv, hdone⟩ := hcut
    · obtain ⟨-, hv, hle⟩ := h.2.not_reset hs hreset
      rwa [if_pos hv]
    · rw [if_pos hv]
      exact h.2.not_left hs hv hdone

def InBurst (d : Channel) (s : Core) : Prop :=
  s.bus.master.state_master_register = .wait_read2 ∧ s.bus.master.drive_index = d

structure Follows (σ : Settings) (d : Channel) (s : Core) : Prop where
  orderly : Orderly s.bus
  settled : s.bus.master.dma_stop_address d = σ.stop
  offset : s.bus.master.address_offsets d = (σ.position (s.taken d)).offset
  address : s.bus.master.drv_cur_track_address d = (σ.position (s.taken d)).address
  outside : ¬ InBurst d s → (σ.position (s.taken d)).burst = none
  count : InBurst d s → s.bus.master.burst_count = (σ.burstAt (σ.position (s.taken d))).2
  words : InBurst d s → ∀ k b, s.bus.outstanding[k]? = some b →
    b.word = (σ.burstAt (σ.position (s.taken d))).1 + 4 * BitVec.ofNat 32 k
  loaded : (s.loaded d).map Loaded.word = (List.range (s.loaded d).length).map σ.word
  pending : s.bus.master.pop_fifo_in_wr d = true →
    (⟨s.bus.master.pop_fifo_in_address d,s.bus.master.pop_fifo_in_data d,s.index_state d⟩ : Word) =
      σ.word (s.loaded d).length

section Step
variable {σ : Settings} {d : Channel} {i : CoreInput} {s : Core}

theorem takes_iff (hd : d ≠ 4) : takes i.toInput s.bus.master d = true ↔
    InBurst d s ∧ i.avm_m1_readdatavalid = true := by
  simp [takes, InBurst, hd]

theorem not_takes_of_reset (hi : Apart σ d i s) (hr : i.reset_drives d = true) :
    takes i.toInput s.bus.master d = false := by
  by_contra ht
  simp only [takes, Bool.not_eq_false, Bool.and_eq_true, decide_eq_true_eq] at ht
  obtain ⟨⟨hs, hdrive⟩, -⟩ := ht
  rw [← hdrive] at hr
  exact (hi.not_reset hs hr).1 hdrive

theorem InBurst.not_reset (hb : InBurst d s) (hi : Apart σ d i s) : i.reset_drives d = false := by
  obtain ⟨h2, hdrive⟩ := hb
  by_contra hr
  rw [Bool.not_eq_false, ← hdrive] at hr
  exact (hi.not_reset h2 hr).1 hdrive

theorem inBurst_before (hi : Apart σ d i s) (hb : InBurst d (s.step i)) :
    s.bus.master.drive_index = d ∧ i.reset_drives d = false ∧
      (s.bus.master.state_master_register = .wait_read ∨ InBurst d s) := by
  obtain ⟨h2, hd⟩ := hb
  change (DmaMaster.step i.toInput s.bus.master).state_master_register = .wait_read2 at h2
  change (DmaMaster.step i.toInput s.bus.master).drive_index = d at hd
  obtain ⟨hdrive, hs⟩ := reading_before h2
  rw [hdrive] at hd
  rcases hs with hs | ⟨hs, -⟩
  · refine ⟨hd,?_,Or.inl hs⟩
    by_contra hr
    have hstate := (step_bus i.toInput s.bus.master).state_master_register
    rw [h2, hs, hd] at hstate
    rw [Bool.not_eq_false] at hr
    simp [hr] at hstate
  · have hin : InBurst d s := ⟨hs,hd⟩
    exact ⟨hd,hin.not_reset hi,Or.inr hin⟩

theorem done_last (h : Follows σ d s) (hi : Alone σ d i s)
    (hd : d ≠ 4) (hb : InBurst d s) (hv : i.avm_m1_readdatavalid = true)
    (hdone : s.bus.master.done_q d = true) : s.bus.master.burst_count = 0 := by
  obtain ⟨h2, rfl⟩ := hb
  have hle := hi.2.not_left h2 hv hdone
  have hpos := List.length_pos_iff.mpr (hi.1.legal.in_order hv)
  have howed := h.orderly.owed h2 hd
  have hone : (s.bus.master.burst_count + 1).toNat = 1 := by omega
  bv_omega

theorem inBurst_after (h : Follows σ d s) (hi : Alone σ d i s) (hd : d ≠ 4) (hb : InBurst d s) :
    InBurst d (s.step i) ↔ ¬ (i.avm_m1_readdatavalid = true ∧ s.bus.master.burst_count = 0) := by
  have hlast := done_last h hi hd hb
  have hr := hb.not_reset hi.2
  obtain ⟨h2, hdrive⟩ := hb
  have hnext := reading_next (i := i.toInput) h2 (by rw [hdrive]; exact hd)
  have hdrive' := (step_bus i.toInput s.bus.master).drive_index
  rw [h2] at hdrive'
  change (DmaMaster.step i.toInput s.bus.master).state_master_register = .wait_read2 ∧
    (DmaMaster.step i.toInput s.bus.master).drive_index = d ↔ _
  rw [hnext, hdrive', hdrive, hr]
  have hends : (i.avm_m1_readdatavalid = true ∧
      (s.bus.master.burst_count = 0 ∨ s.bus.master.done_q d = true)) ↔
      (i.avm_m1_readdatavalid = true ∧ s.bus.master.burst_count = 0) := by
    constructor
    · rintro ⟨hv, hz | hdone⟩
      · exact ⟨hv,hz⟩
      · exact ⟨hv,hlast hv hdone⟩
    · rintro ⟨hv, hz⟩
      exact ⟨hv,Or.inl hz⟩
  simp only [Bool.false_eq_true, false_or, hends]
  split <;> simp_all

/-- A clock without a word for the channel leaves a burst as it is. -/
theorem inBurst_still (h : Follows σ d s) (hi : Alone σ d i s) (hd : d ≠ 4) (hb : InBurst d s)
    (ht : takes i.toInput s.bus.master d = false) :
    InBurst d (s.step i) ∧ i.avm_m1_readdatavalid = false := by
  have hv : i.avm_m1_readdatavalid = false := by
    by_contra hv
    have htakes := (takes_iff hd).mpr ⟨hb,by simpa using hv⟩
    simp [ht] at htakes
  refine ⟨(inBurst_after h hi hd hb).mpr ?_,hv⟩
  simp [hv]

/-- The burst that a clock begins: its command is accepted, and the words of it
are all that is owed. -/
theorem burst_begins (h : Follows σ d s) (hi : Alone σ d i s)
    (hd : d ≠ 4) (hs : s.bus.master.state_master_register = .wait_read)
    (hb : InBurst d (s.step i)) :
    (s.step i).bus.outstanding = s.bus.command.beats s.bus.commands.length ∧
      s.bus.master.busaddress = s.bus.master.drv_cur_track_address d := by
  obtain ⟨hdrive, hr, -⟩ := inBurst_before hi.2 hb
  have hent : entersBurst i.toInput s.bus = true := by
    have h2 := hb.1
    change (DmaMaster.step i.toInput s.bus.master).state_master_register = .wait_read2 at h2
    simp [entersBurst, hs, hdrive, hd, h2]
  rw [entersBurst_iff h.orderly hs, Bool.and_eq_true] at hent
  have hread : s.bus.master.avm_m1_read = true := by
    have ha := hent.1
    simp only [accepts, Bool.and_eq_true] at ha
    exact ha.1
  have hq := h.orderly.quiet (by rw [hs]; decide)
  have hv := hi.1.legal.silent hq
  constructor
  · simp [Core.step, Bus.step, hv, hent.1, hq]
  · rw [(h.orderly.presented hs hread).1, hdrive]

theorem taken_step (hi : Apart σ d i s) : (s.step i).taken d =
    if i.reset_drives d then 0
    else s.taken d + if takes i.toInput s.bus.master d then 1 else 0 := by
  have hwr : (s.step i).bus.master.pop_fifo_in_wr d = takes i.toInput s.bus.master d :=
    (step_channel i.toInput s.bus.master d).pop_fifo_in_wr
  unfold Core.taken
  rw [hwr]
  cases hr : i.reset_drives d with
  | true => simp [Core.step, hr, not_takes_of_reset hi hr]
  | false => cases hp : s.bus.master.pop_fifo_in_wr d <;> simp [Core.step, hr, hp]

theorem next_place (h : Follows σ d s) (hi : Alone σ d i s)
    (ht : takes i.toInput s.bus.master d = true) :
    nextOffset i.toInput s.bus.master d = (σ.position (s.taken d + 1)).offset ∧
      nextAddress i.toInput s.bus.master d = (σ.position (s.taken d + 1)).address := by
  have hend : atEnd s.bus.master d = decide ((σ.position (s.taken d)).offset ≥ σ.stop) := by
    rw [atEnd, h.offset, h.settled]
  rw [nextOffset, nextAddress, h.settled, h.offset, h.address, hi.1.continuous]
  simp only [Settings.position, Settings.next]
  by_cases hlast : (σ.position (s.taken d)).offset ≥ σ.stop
  · have htrack := hi.2.track ht (by simp [hend, hlast])
    simp [hend, hlast, htrack]
  · simp [hend, hlast]

theorem place_step (h : Follows σ d s) (hi : Alone σ d i s) :
    (s.step i).bus.master.address_offsets d = (σ.position ((s.step i).taken d)).offset ∧
      (s.step i).bus.master.drv_cur_track_address d =
        (σ.position ((s.step i).taken d)).address := by
  have hc := step_channel i.toInput s.bus.master d
  have hoff : (s.step i).bus.master.address_offsets d = _ := hc.address_offsets
  have haddr : (s.step i).bus.master.drv_cur_track_address d = _ := hc.drv_cur_track_address
  rw [hoff, haddr, taken_step hi.2]
  cases hr : i.reset_drives d with
  | true => exact ⟨rfl,hi.1.image⟩
  | false =>
    cases ht : takes i.toInput s.bus.master d with
    | false => exact ⟨h.offset,h.address⟩
    | true => exact next_place h hi ht

theorem outside_step (h : Follows σ d s) (hi : Alone σ d i s) (hd : d ≠ 4)
    (hb : ¬ InBurst d (s.step i)) : (σ.position ((s.step i).taken d)).burst = none := by
  rw [taken_step hi.2]
  cases hr : i.reset_drives d with
  | true => rfl
  | false =>
    cases ht : takes i.toInput s.bus.master d with
    | false =>
      apply h.outside
      intro hs
      exact hb (inBurst_still h hi hd hs ht).1
    | true =>
      obtain ⟨hs, hv⟩ := (takes_iff hd).mp ht
      have hz : s.bus.master.burst_count = 0 := by
        by_contra hz
        exact hb ((inBurst_after h hi hd hs).mpr fun hend => hz hend.2)
      have hlast : (σ.burstAt (σ.position (s.taken d))).2 = 0 := by rw [← h.count hs, hz]
      simp [Settings.position, Settings.next, hlast]

theorem burst_step (h : Follows σ d s) (hi : Alone σ d i s)
    (hd : d ≠ 4) (hb : InBurst d (s.step i)) :
    (s.step i).bus.master.burst_count =
        (σ.burstAt (σ.position ((s.step i).taken d))).2 ∧
      ∀ k b, (s.step i).bus.outstanding[k]? = some b →
        b.word = (σ.burstAt (σ.position ((s.step i).taken d))).1 + 4 * BitVec.ofNat 32 k := by
  obtain ⟨hdrive, hr, hs⟩ := inBurst_before hi.2 hb
  have hcount : (s.step i).bus.master.burst_count = _ :=
    (step_bus i.toInput s.bus.master).burst_count
  rw [hcount, taken_step hi.2, hr]
  rcases hs with hs | hs
  · -- the command has the length and the address the drive goes on with
    obtain ⟨howed, hcur⟩ := burst_begins h hi hd hs hb
    have ht : takes i.toInput s.bus.master d = false := by simp [takes, hs]
    have hnone := h.outside (by simp [InBurst, hs])
    have hat : σ.burstAt (σ.position (s.taken d)) =
        (s.bus.master.drv_cur_track_address d,
          burstLast (s.bus.master.address_offsets d) (s.bus.master.dma_stop_address d)) := by
      rw [Settings.burstAt, hnone, h.address, h.offset, h.settled]
      rfl
    simp only [ht, Bool.false_eq_true, if_false, Nat.add_zero, hat, hs, hdrive, true_and]
    intro k b hk
    rw [howed] at hk
    simp only [Command.beats, Bus.command, List.getElem?_map, Option.map_eq_some_iff] at hk
    obtain ⟨j, hj, rfl⟩ := hk
    obtain ⟨hlt, hj⟩ := List.getElem?_eq_some_iff.mp hj
    rw [List.getElem_range] at hj
    rw [hj, hcur]
  · have ha := hi.1.once (by rw [hs.1]; decide)
    have hout : (s.step i).bus.outstanding =
        if i.avm_m1_readdatavalid then s.bus.outstanding.tail else s.bus.outstanding := by
      simp [Core.step, Bus.step, ha]
    rw [hout, hs.1]
    cases ht : takes i.toInput s.bus.master d with
    | false =>
      obtain ⟨-, hv⟩ := inBurst_still h hi hd hs ht
      simp only [hdrive, ht, hv, Bool.false_eq_true, if_false, Nat.add_zero]
      exact ⟨h.count hs,h.words hs⟩
    | true =>
      obtain ⟨-, hv⟩ := (takes_iff hd).mp ht
      have hne : (σ.burstAt (σ.position (s.taken d))).2 ≠ 0 := by
        rw [← h.count hs]
        exact fun hz => (inBurst_after h hi hd hs).mp hb ⟨hv,hz⟩
      have hnext : σ.burstAt (σ.position (s.taken d + 1)) =
          ((σ.burstAt (σ.position (s.taken d))).1 + 4,
            (σ.burstAt (σ.position (s.taken d))).2 - 1) := by
        change (σ.next (s.taken d) (σ.position (s.taken d))).burst.getD _ = _
        simp only [Settings.next, if_neg hne, Option.getD_some]
      simp only [hdrive, ht, hv, Bool.false_eq_true, if_false, if_true, hnext, h.count hs,
        true_and, List.getElem?_tail]
      intro k b hk
      have hone : BitVec.ofNat 32 1 = 1 := rfl
      rw [h.words hs (k+1) b hk, BitVec.ofNat_add, hone]
      ring

theorem status_own (hi : Apart σ d i s) (hp : s.bus.master.pop_fifo_in_wr d = true) :
    (statusByte i s d).getLsbD 0 = s.index_state d := by
  have hor : (s.index_state d || mixed i s) = s.index_state d := by
    cases hm : mixed i s with
    | false => simp
    | true => simp [hi.unmixed hp hm]
  rw [statusByte, hor]
  cases s.index_state d <;> cases s.qd_stopmotor_state <;> rfl

theorem loaded_step (h : Follows σ d s) (hi : Apart σ d i s) :
    ((s.step i).loaded d).map Loaded.word =
      (List.range ((s.step i).loaded d).length).map σ.word := by
  cases hr : i.reset_drives d with
  | true => simp [Core.step, hr]
  | false =>
    cases hp : s.bus.master.pop_fifo_in_wr d with
    | false => simpa [Core.step, hr, hp] using h.loaded
    | true =>
      have hword := h.pending hp
      have hstatus : (statusByte i s d)[0] = s.index_state d := status_own hi hp
      simp [Core.step, hr, hp, List.range_succ, h.loaded, ← hword, Loaded.word, hstatus]

theorem pending_step (h : Follows σ d s) (hi : Alone σ d i s)
    (hd : d ≠ 4)
    (hp : (s.step i).bus.master.pop_fifo_in_wr d = true) :
    (⟨(s.step i).bus.master.pop_fifo_in_address d,(s.step i).bus.master.pop_fifo_in_data d,
        (s.step i).index_state d⟩ : Word) = σ.word ((s.step i).loaded d).length := by
  have hc := step_channel i.toInput s.bus.master d
  have ht : takes i.toInput s.bus.master d = true := hc.pop_fifo_in_wr.symm.trans hp
  have hr : i.reset_drives d = false := by
    by_contra hr
    have hnot := not_takes_of_reset hi.2 (by simpa using hr)
    simp [ht] at hnot
  obtain ⟨hs, hv⟩ := (takes_iff hd).mp ht
  have hcount : ((s.step i).loaded d).length = s.taken d := by
    cases hold : s.bus.master.pop_fifo_in_wr d <;> simp [Core.step, Core.taken, hr, hold]
  have haddress : (s.step i).bus.master.pop_fifo_in_address d = _ := hc.pop_fifo_in_address
  have hdata : (s.step i).bus.master.pop_fifo_in_data d = _ := hc.pop_fifo_in_data
  have hread : i.avm_m1_readdata = σ.memory (σ.burstAt (σ.position (s.taken d))).1 := by
    obtain ⟨b, rest, hout⟩ := List.exists_cons_of_ne_nil (hi.1.legal.in_order hv)
    have hchannel := (h.orderly.attributed b (by simp [hout])).2.2.1
    have hword := h.words hs 0 b (by simp [hout])
    rw [hi.1.read b rest hout (hchannel.trans hs.2) hv, hword]
    simp
  have hindex : (s.step i).index_state d =
      indexOut σ.track_size σ.index_len σ.index_start (σ.position (s.taken d)).offset := by
    simp [Core.step, hd, hi.1.size, hi.1.index_len, hi.1.index_start, h.offset]
  rw [hcount, haddress, hdata, hindex, if_pos ht, if_pos ht, if_neg hd, h.address, hread]
  rfl

theorem follows_step (h : Follows σ d s) (hi : Alone σ d i s) (hd : d ≠ 4) :
    Follows σ d (s.step i) where
  orderly := orderly_step h.orderly hi.1.legal hi.keeps hi.2.steady
  settled := by
    have hstop : (s.step i).bus.master.dma_stop_address d = _ :=
      (step_channel i.toInput s.bus.master d).dma_stop_address
    rw [hstop, hi.1.size]
    rfl
  offset := (place_step h hi).1
  address := (place_step h hi).2
  outside := outside_step h hi hd
  count hb := (burst_step h hi hd hb).1
  words hb := (burst_step h hi hd hb).2
  loaded := loaded_step h hi.2
  pending := pending_step h hi hd

end Step

theorem started_follows {σ : Settings} {d : Channel} {s : Core} (h : Started σ d s) :
    Follows σ d s := by
  obtain ⟨i, hi, hr, rfl⟩ := h
  have hc := step_channel i.toInput Master.reset d
  have htaken : (Core.reset.step i).taken d = 0 := by rw [taken_step hi.2, if_pos hr]
  have hnot : ¬ InBurst d (Core.reset.step i) := by
    intro hin
    have hbefore := (reading_before (s := Bus.reset) hin.1).2
    simp [Bus.reset, Master.reset] at hbefore
  have hwr : (Core.reset.step i).bus.master.pop_fifo_in_wr d = false := by
    change (DmaMaster.step i.toInput Master.reset).pop_fifo_in_wr d = false
    rw [hc.pop_fifo_in_wr]
    simp [takes, Master.reset]
  exact
    { orderly := orderly_step reset_orderly hi.1.legal hi.keeps hi.2.steady
      settled := by
        change (DmaMaster.step i.toInput Master.reset).dma_stop_address d = σ.stop
        rw [hc.dma_stop_address, hi.1.size]
        rfl
      offset := by
        change (DmaMaster.step i.toInput Master.reset).address_offsets d = _
        rw [htaken, hc.address_offsets, if_pos hr]
        rfl
      address := by
        change (DmaMaster.step i.toInput Master.reset).drv_cur_track_address d = _
        rw [htaken, hc.drv_cur_track_address, if_pos hr]
        exact hi.1.image
      outside := by
        intro _
        rw [htaken]
        rfl
      count := fun hin => absurd hin hnot
      words := fun hin => absurd hin hnot
      loaded := by simp [Core.step, hr]
      pending := fun hp => absurd hp (by simp [hwr]) }

/-- The words loaded for the drive are the first words of the drive on its own. -/
theorem loads_own {σ : Settings} {d : Channel} (hd : d ≠ 4) {s t : Core} (hs : Started σ d s)
    (hrun : Clocked.Reach Core.step (Alone σ d) s t) :
    (t.loaded d).map Loaded.word = (List.range (t.loaded d).length).map σ.word := by
  have hfollows := hrun.invariant (Follows σ d) (started_follows hs)
    fun i s hi h => follows_step h hi hd
  exact hfollows.loaded

/-- Two runs in which a drive has the same registers, image and tracks and is left
alone load the same words for it: what one has loaded is the beginning of what
the other has, whatever drive 0 and the others do. -/
theorem drives_apart (d : Channel) (hd : d ≠ 4) (σ : Settings)
    (s t s' t' : Core) (hs : Started σ d s)
    (hrun : Clocked.Reach Core.step (Alone σ d) s t)
    (hs' : Started σ d s')
    (hrun' : Clocked.Reach Core.step (Alone σ d) s' t') :
    (t.loaded d).map Loaded.word <+: (t'.loaded d).map Loaded.word ∨
      (t'.loaded d).map Loaded.word <+: (t.loaded d).map Loaded.word := by
  rw [loads_own hd hs hrun, loads_own hd hs' hrun']
  have hbegins : ∀ m n, m ≤ n → (List.range m).map σ.word <+: (List.range n).map σ.word := by
    intro m n hmn
    obtain ⟨k, rfl⟩ := Nat.exists_eq_add_of_le hmn
    rw [List.range_add, List.map_append]
    exact List.prefix_append _ _
  rcases le_total (t.loaded d).length (t'.loaded d).length with hle | hle
  · exact Or.inl (hbegins _ _ hle)
  · exact Or.inr (hbegins _ _ hle)

/-! ## The hard sectors of drive 0 -/

/-- Drive 1 alone on a track of zeros whose index is in the middle; the hard
sectors of drive 0 begin with its track. -/
def driveOne (config0 : LWord) (reset accepted valid : Bool) : CoreInput where
  avm_m1_readdata := 0
  avm_m1_waitrequest := !accepted
  avm_m1_readdatavalid := valid
  images_base_address _ := 0x1000
  images_track_size _ := 520
  drv_cur_track_base_address _ := 0x1000
  enable_drives d := d = 1
  continuous_mode _ := true
  pop_fifo_almostfull _ := false
  push_fifo_empty _ := true
  push_fifo_out_data _ := 0
  push_fifo_out_address _ := 0
  reset_drives _ := reset
  drives_config_regs d := if d = 0 then config0 else 0
  drives_index_len _ := 8
  drives_track_index_start d := if d = 0 then 0 else 256
  hs_index_positions _ := 0
  host_drv0_qdstopmotor_len := 0
  host_drv0_qdstopmotor_start := 0

def zeros : Settings := ⟨0x1000,520,true,8,256,fun _ => 0,fun _ => 0x1000⟩

instance (σ : Settings) (d : Channel) (i : CoreInput) (s : Core) : Decidable (Given σ d i s) :=
  decidable_of_iff (Legal i.toInput s.bus ∧
      (s.bus.master.state_master_register ≠ .wait_read → accepts i.toInput s.bus = false) ∧
      (∀ b ∈ s.bus.outstanding.head?, b.channel = d → i.avm_m1_readdatavalid = true →
        i.avm_m1_readdata = σ.memory b.word) ∧
      i.images_base_address d = σ.image_base_address ∧ i.images_track_size d = σ.track_size ∧
      i.continuous_mode d = σ.continuous_mode ∧ i.drives_index_len d = σ.index_len ∧
      i.drives_track_index_start d = σ.index_start)
    ⟨fun h => ⟨h.1,h.2.1,fun b rest hout => h.2.2.1 b (by simp [hout]),h.2.2.2.1,h.2.2.2.2.1,
        h.2.2.2.2.2.1,h.2.2.2.2.2.2.1,h.2.2.2.2.2.2.2⟩,
      fun h => ⟨h.legal,h.once,fun b hb => by
          obtain ⟨rest, hout⟩ := List.head?_eq_some_iff.mp hb
          exact h.read b rest hout,
        h.image,h.size,h.continuous,h.index_len,h.index_start⟩⟩

instance (σ : Settings) (d : Channel) (i : CoreInput) (s : Core) : Decidable (Kept σ d i s) :=
  decidable_of_iff
    ((s.bus.master.state_master_register = .wait_read → accepts i.toInput s.bus = true →
        i.reset_drives s.bus.master.drive_index = false) ∧
      (s.bus.master.state_master_register = .wait_read2 →
        i.reset_drives s.bus.master.drive_index = true → s.bus.master.drive_index ≠ d ∧
          i.avm_m1_readdatavalid = true ∧ s.bus.outstanding.length ≤ 1) ∧
      (s.bus.master.state_master_register = .wait_read2 → i.avm_m1_readdatavalid = true →
        s.bus.master.done_q s.bus.master.drive_index = true → s.bus.outstanding.length ≤ 1) ∧
      Steady i.toInput s.bus ∧
      (takes i.toInput s.bus.master d = true → atEnd s.bus.master d = true →
        i.drv_cur_track_base_address d = σ.track (s.taken d)))
    ⟨fun h => ⟨h.1,h.2.1,h.2.2.1,h.2.2.2.1,h.2.2.2.2⟩,
      fun h => ⟨h.not_dropped,h.not_reset,h.not_left,h.steady,h.track⟩⟩

instance (σ : Settings) (d : Channel) (i : CoreInput) (s : Core) : Decidable (Alone σ d i s) :=
  decidable_of_iff (Given σ d i s ∧ Kept σ d i s ∧
      (s.bus.master.pop_fifo_in_wr d = true → mixed i s = true → s.index_state d = true))
    ⟨fun h => ⟨h.1,⟨h.2.1,h.2.2⟩⟩,fun h => ⟨h.1,h.2.toKept,h.2.unmixed⟩⟩

def firstClock (config0 : LWord) : Core := Core.reset.step (driveOne config0 true false false)

def firstWords (config0 : LWord) : List CoreInput :=
  [driveOne config0 false false false,driveOne config0 false false false,
    driveOne config0 false true false,driveOne config0 false false true,
    driveOne config0 false false true,driveOne config0 false false false]

def afterFirstWords (config0 : LWord) : Core :=
  (firstWords config0).foldl (fun s i => Core.step i s) (firstClock config0)

def twoDrives (almostfull0 : Bool) (avm_m1_readdata : LWord) (reset accepted valid : Bool) :
    CoreInput :=
  { driveOne 0x08000000 reset accepted valid with
    avm_m1_readdata := avm_m1_readdata
    images_base_address := fun d => if d = 0 then 0x9000 else 0x1000
    images_track_size := fun d => if d = 0 then 516 else 520
    enable_drives := fun d => d = 0 || d = 1
    pop_fifo_almostfull := fun d => d = 0 && almostfull0 }

def afterDriveZero : List CoreInput :=
  [twoDrives true 0 false false false,twoDrives true 0 false false false,
    twoDrives true 0 false true false,twoDrives true 0xFFFFFFFF false false true,
    twoDrives true 0 false false false,twoDrives true 0 false false false,
    twoDrives true 0 false false false,twoDrives true 0 false true false,
    twoDrives true 0 false false true,twoDrives true 0 false false false]

def besideFirst : Core := Core.reset.step (twoDrives false 0 true false false)

def besideDriveZero : Core := afterDriveZero.foldl (fun s i => Core.step i s) besideFirst

theorem drives_apart_zeros :
    (((afterFirstWords 0).loaded 1).map Loaded.word = [⟨0x1000,0,false⟩,⟨0x1004,0,false⟩] ∧
      besideDriveZero.loaded 0 = [⟨0x9000,0xFFFFFFFF,1⟩] ∧
      (besideDriveZero.loaded 1).map Loaded.word = [⟨0x1000,0,false⟩]) ∧
    (((afterFirstWords 0).loaded 1).map Loaded.word <+: (besideDriveZero.loaded 1).map Loaded.word ∨
      (besideDriveZero.loaded 1).map Loaded.word <+:
        ((afterFirstWords 0).loaded 1).map Loaded.word) := by
  refine ⟨by decide +kernel,?_⟩
  exact drives_apart 1 (by decide) zeros (firstClock 0) (afterFirstWords 0) besideFirst
    besideDriveZero ⟨_,by decide +kernel,rfl,rfl⟩
    (Clocked.Reach.along (firstWords 0) _ (by decide +kernel))
    ⟨_,by decide +kernel,rfl,rfl⟩ (Clocked.Reach.along afterDriveZero _ (by decide +kernel))

/-- Drive 0 with hard sectors that are not apart from its index: their pulse is
the index of the first words of drive 1. -/
theorem hardSector_mixed : ¬ ∀ (d : Channel), d ≠ 4 → d ≠ 0 → ∀ (σ : Settings)
    (s t s' t' : Core), Started σ d s →
      Clocked.Reach Core.step (fun i s => Given σ d i s ∧ Kept σ d i s) s t →
      Started σ d s' →
      Clocked.Reach Core.step (fun i s => Given σ d i s ∧ Kept σ d i s) s' t' →
      (t.loaded d).map Loaded.word <+: (t'.loaded d).map Loaded.word ∨
        (t'.loaded d).map Loaded.word <+: (t.loaded d).map Loaded.word := by
  intro h
  have hruns := h 1 (by decide) (by decide) zeros (firstClock 0) (afterFirstWords 0)
    (firstClock 0x18000000) (afterFirstWords 0x18000000) ⟨_,by decide +kernel,rfl,rfl⟩
    (Clocked.Reach.along (firstWords 0) _ (by decide +kernel)) ⟨_,by decide +kernel,rfl,rfl⟩
    (Clocked.Reach.along (firstWords 0x18000000) _ (by decide +kernel))
  have hplain : ((afterFirstWords 0).loaded 1).map Loaded.word =
      [⟨0x1000,0,false⟩,⟨0x1004,0,false⟩] := by
    decide +kernel
  have hsectors : ((afterFirstWords 0x18000000).loaded 1).map Loaded.word =
      [⟨0x1000,0,true⟩,⟨0x1004,0,true⟩] := by
    decide +kernel
  rw [hplain, hsectors] at hruns
  revert hruns
  decide

end Pauline.DriveIsolation
