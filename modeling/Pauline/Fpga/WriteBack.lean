import Pauline.Library.Clocked
import Pauline.Library.SyncFifo
import Pauline.Fpga.FloppyDrive

/-!
# Writing to the emulated drive

What the host writes comes back as whole words of the track. The pop fifo shows a
word only after it was asked for, so the first word loaded is what its output
showed before. A bit cell passes the write head one word after its word was loaded,
and the word is handed back when its last cell has passed.
-/

set_option autoImplicit false

namespace Pauline.FloppyDrive
open Pauline.DmaMaster Pauline.FloppyDumper

section Sides

def half (side : Bool) (data : LWord) : BitVec 16 :=
  if side then data.extractLsb' 16 16 else data.extractLsb' 0 16

def outShifter (side : Bool) (s : Drive) : BitVec 33 :=
  if side then s.out_shifter_side1 else s.out_shifter_side0

def inShifter (side : Bool) (s : Drive) : BitVec 16 :=
  if side then s.in_shifter_side1 else s.in_shifter_side0

def writeStream (side : Bool) (i : DriveInput) (s : Drive) : Bool :=
  if side then writeStreamSide1 i s else writeStreamSide0 i s

variable {i : DriveInput} {s : Drive} (hr : i.reset_state = false) (side : Bool)
include hr

theorem step_outShifter : outShifter side (step i s) =
    if wordEnds i s then (shiftOut (outShifter side s)).extractLsb' 16 17 ++
      half side i.read_fifo_data.data
    else if ticks i s then shiftOut (outShifter side s)
    else outShifter side s := by
  cases side with
  | true => exact step_out_shifter_side1 hr
  | false => exact step_out_shifter_side0 hr

theorem step_inShifter : inShifter side (step i s) =
    if ticks i s then shiftIn (inShifter side s) (writeStream side i s) else inShifter side s := by
  cases side with
  | true => exact step_in_shifter_side1 hr
  | false => exact step_in_shifter_side0 hr

end Sides

theorem writeStream_eq (side : Bool) (i : DriveInput) (s : Drive) : writeStream side i s =
    if gated i && i.floppy_side1 == side then writeBit i s
    else (outShifter side s).getLsbD 30 := by
  cases side <;> cases h : i.floppy_side1 <;> cases hg : gated i <;>
    simp [writeStream, writeStreamSide0, writeStreamSide1, outShifter, h, hg]

structure Cell where
  gated : Bool
  selected : Bool
  side1 : Bool
  bit : Bool

abbrev PopFifo := SyncFifo FifoWord 4096 3968

/-- `read_fifo_data` is what the pop fifo shows; the bus master writes to it when
it likes. -/
structure FedInput extends DriveInput where
  pop_fifo_in_wr : Bool
  pop_fifo_in : FifoWord

/-- The drive and its pop fifo with a log: the cells of all ticks, the words read
from the fifo, the words loaded, and what was handed back where a word ended. -/
structure DriveRun (f : PopFifo) extends Drive where
  fifo : f.State
  cells : List Cell
  popped : List FifoWord
  loaded : List FifoWord
  pushes : List (Option (LWord × LWord))

variable {f : PopFifo}

namespace DriveRun

def cell (i : DriveInput) (s : Drive) : Cell :=
  ⟨FloppyDrive.gated i, i.floppy_select, i.floppy_side1, writeBit i s⟩

def pushed (s : Drive) : Option (LWord × LWord) :=
  if s.write_fifo_wr then some (s.write_fifo_data.address, s.write_fifo_data.data) else none

def input (i : FedInput) (s : DriveRun f) : DriveInput :=
  { i.toDriveInput with read_fifo_data := f.q s.fifo }

def step (i : FedInput) (s : DriveRun f) : DriveRun f where
  toDrive := FloppyDrive.step (s.input i) s.toDrive
  fifo := f.step i.reset_state i.pop_fifo_in_wr i.pop_fifo_in s.read_fifo_rq s.fifo
  cells := s.cells ++ if ticks (s.input i) s.toDrive then [cell (s.input i) s.toDrive] else []
  popped := s.popped ++ if s.read_fifo_rq then (f.contents s.fifo).take 1 else []
  loaded := s.loaded ++ if wordEnds (s.input i) s.toDrive then [f.q s.fifo] else []
  pushes := s.pushes ++
    if wordEnds (s.input i) s.toDrive then [pushed (FloppyDrive.step (s.input i) s.toDrive)] else []

structure Running (i : FedInput) (s : DriveRun f) : Prop where
  no_reset : i.reset_state = false
  not_empty : s.read_fifo_rq = true → f.contents s.fifo ≠ []

structure Released (s : DriveRun f) : Prop where
  count : s.fiforeadcnt = 0
  request : s.read_fifo_rq = false
  out_side0 : s.out_shifter_side0 = 0
  out_side1 : s.out_shifter_side1 = 0
  address_q1 : s.out_address_q1 = 0
  address_q2 : s.out_address_q2 = 0
  log : s.cells = [] ∧ s.popped = [] ∧ s.loaded = [] ∧ s.pushes = []

end DriveRun

def cellBit (side : Bool) (loaded : List FifoWord) (t : ℕ) : Bool :=
  if 32 ≤ t then
    (loaded[t/16-2]?).elim false fun w => (half side w.data).getLsbD (15-t % 16)
  else false

def streamBit (side : Bool) (cells : List Cell) (loaded : List FifoWord) (t : ℕ) : Bool :=
  (cells[t]?).elim false fun c =>
    if c.gated && c.side1 == side then c.bit else cellBit side loaded (t+1)

def writesAt (cells : List Cell) (t : ℕ) : Bool :=
  (cells[t]?).elim false fun c => c.gated && c.selected

def flagged (stale : Bool) (cells : List Cell) (k : ℕ) : Prop :=
  (stale = true ∧ k = 0) ∨ ∃ t, 16*k ≤ t ∧ t < 16*k+15 ∧ writesAt cells t = true

def addressOf (loaded : List FifoWord) (k n : ℕ) : LWord :=
  if n ≤ k then (loaded[k-n]?).elim 0 (·.address) else 0

def HandsBack (stale : Bool) (cells : List Cell) (loaded : List FifoWord) (k : ℕ)
    (back : Option (LWord × LWord)) : Prop :=
  (back.isSome ↔ flagged stale cells k) ∧
    ∀ p, back = some p → p.1 = addressOf loaded k 2 ∧
      ∀ side, ∀ j < 16, j < 16*k+15 →
        (half side p.2).getLsbD j = streamBit side cells loaded (16*k+14-j)

structure Aligned (stale : Bool) (s : DriveRun f) : Prop where
  count : s.fiforeadcnt.toNat = s.cells.length % 16
  loads : s.loaded.length = s.cells.length/16
  pushes_length : s.pushes.length = s.loaded.length
  out_bits : ∀ side j, s.cells.length % 16 ≤ j → j ≤ 31 →
    (outShifter side s.toDrive).getLsbD j = cellBit side s.loaded (s.cells.length+31-j)
  in_bits : ∀ side, ∀ j < 16, j < s.cells.length →
    (inShifter side s.toDrive).getLsbD j =
      streamBit side s.cells s.loaded (s.cells.length-1-j)
  address_q1 : s.out_address_q1 = addressOf s.loaded s.loaded.length 1
  address_q2 : s.out_address_q2 = addressOf s.loaded s.loaded.length 2
  flag : s.write_flag = true ↔ (stale = true ∧ s.cells.length < 16) ∨
    ∃ t, 16*s.loaded.length ≤ t ∧ t < s.cells.length ∧ writesAt s.cells t = true
  backs : ∀ k back, s.pushes[k]? = some back → HandsBack stale s.cells s.loaded k back

section Append
variable {cells : List Cell} {loaded : List FifoWord} (side : Bool)

theorem cellBit_append (more : List FifoWord) (t : ℕ) (h : t < 16*loaded.length+32) :
    cellBit side (loaded ++ more) t = cellBit side loaded t := by
  unfold cellBit
  split_ifs with ht
  · rw [List.getElem?_append_left (by omega)]
  · rfl

theorem writesAt_append (more : List Cell) (t : ℕ) (h : t < cells.length) :
    writesAt (cells ++ more) t = writesAt cells t := by
  rw [writesAt, List.getElem?_append_left h]
  rfl

theorem streamBit_append (more : List Cell) (words : List FifoWord) (t : ℕ)
    (h : t < cells.length) (hl : t+1 < 16*loaded.length+32) :
    streamBit side (cells ++ more) (loaded ++ words) t = streamBit side cells loaded t := by
  rw [streamBit, List.getElem?_append_left h, cellBit_append side words (t+1) hl]
  rfl

theorem addressOf_append (more : List FifoWord) (k n : ℕ)
    (h : k < loaded.length+n) : addressOf (loaded ++ more) k n = addressOf loaded k n := by
  unfold addressOf
  split_ifs
  · rw [List.getElem?_append_left (by omega)]
  · rfl

theorem addressOf_succ (k n : ℕ) : addressOf loaded (k+1) (n+1) = addressOf loaded k n := by
  simp [addressOf]

theorem flagged_append {stale : Bool} (more : List Cell) (k : ℕ) (h : 16*k+15 ≤ cells.length) :
    flagged stale (cells ++ more) k ↔ flagged stale cells k := by
  unfold flagged
  refine or_congr Iff.rfl (exists_congr ?_)
  intro t
  refine and_congr_right fun _ => and_congr_right fun ht => ?_
  rw [writesAt_append more t (by omega)]

/-- What was handed back stays as the log says. -/
theorem HandsBack.append {stale : Bool} {k : ℕ} {back : Option (LWord × LWord)}
    (h : HandsBack stale cells loaded k back) (more : List Cell) (words : List FifoWord)
    (hc : 16*k+15 ≤ cells.length) (hl : k < loaded.length+1) :
    HandsBack stale (cells ++ more) (loaded ++ words) k back := by
  refine ⟨h.1.trans (flagged_append more k hc).symm, ?_⟩
  intro p hp
  obtain ⟨haddress, hbits⟩ := h.2 p hp
  refine ⟨haddress.trans (addressOf_append words k 2 (by omega)).symm, ?_⟩
  intro side j hj hlt
  rw [streamBit_append side more words _ (by omega) (by omega)]
  exact hbits side j hj hlt

end Append

section Step
variable {i : FedInput} {s : DriveRun f} {stale : Bool} (hr : (s.input i).reset_state = false)

theorem wordEnds_iff (h : Aligned stale s) : wordEnds (s.input i) s.toDrive = true ↔
    ticks (s.input i) s.toDrive = true ∧ s.cells.length % 16 = 15 := by
  have hcount := h.count
  have h15 : (15 : BitVec 6).toNat = 15 := rfl
  rw [wordEnds, Bool.and_eq_true, decide_eq_true_eq, ← BitVec.toNat_inj, hcount, h15]

theorem cells_step_length : (s.step i).cells.length =
    s.cells.length + if ticks (s.input i) s.toDrive then 1 else 0 := by
  simp only [DriveRun.step, List.length_append]
  split_ifs <;> rfl

theorem loaded_step_length : (s.step i).loaded.length =
    s.loaded.length + if wordEnds (s.input i) s.toDrive then 1 else 0 := by
  simp only [DriveRun.step, List.length_append]
  split_ifs <;> rfl

theorem shiftOut_getLsbD (x : BitVec 33) (j : ℕ) (hpos : 0 < j) (hj : j ≤ 32) :
    (shiftOut x).getLsbD j = x.getLsbD (j-1) := by
  rw [shiftOut, BitVec.getLsbD_append, if_neg (by omega), BitVec.getLsbD_extractLsb', Nat.zero_add]
  have hlt : j-1 < 32 := by omega
  simp [hlt]

include hr

theorem count_step (h : Aligned stale s) :
    (s.step i).fiforeadcnt.toNat = (s.step i).cells.length % 16 := by
  have hcount := h.count
  have hw := wordEnds_iff (i := i) h
  have hlength := cells_step_length (i := i) (s := s)
  rw [show (s.step i).fiforeadcnt = _ from step_fiforeadcnt hr]
  by_cases ht : ticks (s.input i) s.toDrive = true
  · rw [if_pos ht] at hlength
    by_cases hend : wordEnds (s.input i) s.toDrive = true
    · have := (hw.mp hend).2
      have h0 : (0 : BitVec 6).toNat = 0 := rfl
      rw [if_pos hend]
      omega
    · have hne : s.cells.length % 16 ≠ 15 := fun hc => hend (hw.mpr ⟨ht, hc⟩)
      rw [if_neg hend, if_pos ht]
      bv_omega
  · have hend : wordEnds (s.input i) s.toDrive ≠ true := fun hc => ht (hw.mp hc).1
    rw [if_neg ht] at hlength
    rw [if_neg hend, if_neg ht]
    omega

theorem out_step (h : Aligned stale s) (side : Bool) (j : ℕ)
    (hlow : (s.step i).cells.length % 16 ≤ j) (hj : j ≤ 31) :
    (outShifter side (s.step i).toDrive).getLsbD j =
      cellBit side (s.step i).loaded ((s.step i).cells.length+31-j) := by
  have hw := wordEnds_iff (i := i) h
  have hloads := h.loads
  have hcells := cells_step_length (i := i) (s := s)
  have hloaded : (s.step i).loaded =
    s.loaded ++ if wordEnds (s.input i) s.toDrive then [f.q s.fifo] else [] := rfl
  rw [show (s.step i).toDrive = FloppyDrive.step (s.input i) s.toDrive from rfl, step_outShifter hr, hloaded]
  by_cases ht : ticks (s.input i) s.toDrive = true
  · rw [if_pos ht] at hcells
    rw [hcells] at hlow ⊢
    by_cases hend : wordEnds (s.input i) s.toDrive = true
    · have h15 := (hw.mp hend).2
      rw [if_pos hend, if_pos hend, BitVec.getLsbD_append]
      by_cases hnew : j < 16
      · -- the word just loaded
        rw [if_pos hnew, cellBit, if_pos (by omega),
          show (s.cells.length+1+31-j)/16-2 = s.loaded.length by omega,
          List.getElem?_concat_length, show 15-(s.cells.length+1+31-j) % 16 = j by omega]
        rfl
      · rw [if_neg hnew, BitVec.getLsbD_extractLsb', show 16+(j-16) = j by omega,
          shiftOut_getLsbD _ j (by omega) (by omega), h.out_bits side (j-1) (by omega) (by omega),
          cellBit_append side _ _ (by omega),
          show s.cells.length+31-(j-1) = s.cells.length+1+31-j by omega]
        simp [show j-16 < 17 by omega]
    · have hne : s.cells.length % 16 ≠ 15 := fun hc => hend (hw.mpr ⟨ht, hc⟩)
      rw [if_neg hend, if_neg hend, if_pos ht, List.append_nil,
        shiftOut_getLsbD _ j (by omega) (by omega), h.out_bits side (j-1) (by omega) (by omega),
        show s.cells.length+31-(j-1) = s.cells.length+1+31-j by omega]
  · have hend : wordEnds (s.input i) s.toDrive ≠ true := fun hc => ht (hw.mp hc).1
    rw [if_neg ht, Nat.add_zero] at hcells
    rw [hcells] at hlow ⊢
    rw [if_neg hend, if_neg hend, if_neg ht, List.append_nil]
    exact h.out_bits side j hlow hj

omit hr in
/-- The bit that goes back at a tick, as the log tells it. -/
theorem streamBit_last (h : Aligned stale s) (side : Bool) (words : List FifoWord) :
    streamBit side (s.cells ++ [DriveRun.cell (s.input i) s.toDrive]) (s.loaded ++ words) s.cells.length =
      writeStream side (s.input i) s.toDrive := by
  have hloads := h.loads
  have hout := h.out_bits side 30 (by omega) (by omega)
  rw [show s.cells.length+31-30 = s.cells.length+1 by omega] at hout
  rw [streamBit, List.getElem?_concat_length, writeStream_eq, hout]
  simp only [Option.elim_some, DriveRun.cell]
  rw [cellBit_append side words _ (by omega)]

theorem in_step (h : Aligned stale s) (side : Bool) (j : ℕ) (hj : j < 16)
    (hlt : j < (s.step i).cells.length) :
    (inShifter side (s.step i).toDrive).getLsbD j =
      streamBit side (s.step i).cells (s.step i).loaded ((s.step i).cells.length-1-j) := by
  have hloads := h.loads
  have hlength := cells_step_length (i := i) (s := s)
  have hcells : (s.step i).cells =
    s.cells ++ if ticks (s.input i) s.toDrive then [DriveRun.cell (s.input i) s.toDrive] else [] := rfl
  have hloaded : (s.step i).loaded =
    s.loaded ++ if wordEnds (s.input i) s.toDrive then [f.q s.fifo] else [] := rfl
  rw [show (s.step i).toDrive = FloppyDrive.step (s.input i) s.toDrive from rfl, step_inShifter hr]
  by_cases ht : ticks (s.input i) s.toDrive = true
  · rw [if_pos ht] at hlength hcells
    rw [hlength] at hlt ⊢
    rw [if_pos ht, hcells, hloaded, shiftIn_getLsbD _ _ j hj]
    cases j with
    | zero =>
      rw [if_pos rfl, Nat.sub_zero, Nat.add_sub_cancel, streamBit_last h]
    | succ j =>
      rw [if_neg (by omega), Nat.add_sub_cancel, h.in_bits side j (by omega) (by omega),
        streamBit_append side _ _ _ (by omega) (by omega),
        show s.cells.length+1-1-(j+1) = s.cells.length-1-j by omega]
  · have hend : wordEnds (s.input i) s.toDrive ≠ true := fun hc => ht (wordEnds_ticks hc)
    rw [if_neg ht, Nat.add_zero] at hlength
    rw [if_neg ht, List.append_nil] at hcells
    rw [if_neg hend, List.append_nil] at hloaded
    rw [hlength] at hlt ⊢
    rw [if_neg ht, hcells, hloaded]
    exact h.in_bits side j hj hlt

theorem flag_step (h : Aligned stale s) : (s.step i).write_flag = true ↔
    (stale = true ∧ (s.step i).cells.length < 16) ∨
      ∃ t, 16*(s.step i).loaded.length ≤ t ∧ t < (s.step i).cells.length ∧
        writesAt (s.step i).cells t = true := by
  have hw := wordEnds_iff (i := i) h
  have hloads := h.loads
  have hlength := cells_step_length (i := i) (s := s)
  have hlength' := loaded_step_length (i := i) (s := s)
  have hcells : (s.step i).cells =
    s.cells ++ if ticks (s.input i) s.toDrive then [DriveRun.cell (s.input i) s.toDrive] else [] := rfl
  rw [show (s.step i).write_flag = _ from step_write_flag hr]
  by_cases ht : ticks (s.input i) s.toDrive = true
  · rw [if_pos ht] at hlength hcells
    by_cases hend : wordEnds (s.input i) s.toDrive = true
    · -- the flag is down, and no tick of the next word has passed
      have h15 := (hw.mp hend).2
      rw [if_pos hend] at hlength'
      rw [hend]
      simp only [Bool.not_true, Bool.false_and, Bool.false_eq_true, false_iff, not_or, not_exists]
      exact ⟨fun hc => by omega, fun t hc => by omega⟩
    · have hne : s.cells.length % 16 ≠ 15 := fun hc => hend (hw.mpr ⟨ht, hc⟩)
      rw [if_neg hend, Nat.add_zero] at hlength'
      have hnew : writesAt (s.step i).cells s.cells.length = writes (s.input i) := by
        rw [hcells, writesAt, List.getElem?_concat_length]
        simp [DriveRun.cell, gated, writes, Bool.and_right_comm]
      have hold : ∀ t < s.cells.length, writesAt (s.step i).cells t = writesAt s.cells t := by
        intro t hlt
        rw [hcells, writesAt_append _ t hlt]
      rw [Bool.eq_false_iff.mpr hend, ht, hlength', hlength]
      simp only [Bool.not_false, Bool.true_and, Bool.or_eq_true, h.flag, ← hnew]
      constructor
      · rintro (hwrites | ⟨hstale, hlt⟩ | ⟨t, hlow, hlt, hwrites⟩)
        · exact Or.inr ⟨s.cells.length, by omega, by omega, hwrites⟩
        · exact Or.inl ⟨hstale, by omega⟩
        · exact Or.inr ⟨t, hlow, by omega, (hold t hlt).trans hwrites⟩
      · rintro (⟨hstale, hlt⟩ | ⟨t, hlow, hlt, hwrites⟩)
        · exact Or.inr (Or.inl ⟨hstale, by omega⟩)
        · rcases Nat.lt_succ_iff_lt_or_eq.mp hlt with hlt | rfl
          · exact Or.inr (Or.inr ⟨t, hlow, hlt, (hold t hlt).symm.trans hwrites⟩)
          · exact Or.inl hwrites
  · have hend : wordEnds (s.input i) s.toDrive ≠ true := fun hc => ht (wordEnds_ticks hc)
    rw [if_neg ht] at hlength hcells
    rw [if_neg hend] at hlength'
    rw [Bool.eq_false_iff.mpr hend, Bool.eq_false_iff.mpr ht, hlength', hlength, hcells,
      List.append_nil]
    simpa using h.flag

/-- What the tick that ends a word hands back. -/
theorem handsBack_wordEnd (h : Aligned stale s) (hend : wordEnds (s.input i) s.toDrive = true) :
    HandsBack stale s.cells s.loaded s.loaded.length
      (DriveRun.pushed (FloppyDrive.step (s.input i) s.toDrive)) := by
  have hloads := h.loads
  have h15 := ((wordEnds_iff h).mp hend).2
  have hwr : (FloppyDrive.step (s.input i) s.toDrive).write_fifo_wr = s.write_flag := by
    rw [step_write_fifo_wr hr, hend]
    rfl
  constructor
  · have hflag := h.flag
    have hsome : (DriveRun.pushed (FloppyDrive.step (s.input i) s.toDrive)).isSome = s.write_flag := by
      rw [DriveRun.pushed, hwr]
      cases s.write_flag <;> rfl
    rw [hsome, hflag, flagged]
    refine or_congr (and_congr_right fun _ => by omega) (exists_congr fun t => ?_)
    exact and_congr_right fun _ => and_congr (by omega) Iff.rfl
  · intro p hp
    unfold DriveRun.pushed at hp
    split_ifs at hp with hflag
    cases hp
    rw [step_write_fifo_data hr hflag]
    refine ⟨h.address_q2, ?_⟩
    intro side j hj hlt
    have hhalf : half side (s.in_shifter_side1 ++ s.in_shifter_side0) =
        inShifter side s.toDrive := by
      cases side with
      | true => exact BitVec.extractLsb'_append_eq_left
      | false => exact BitVec.extractLsb'_append_eq_right
    rw [hhalf, h.in_bits side j hj (by omega)]
    congr 1
    omega

theorem backs_step (h : Aligned stale s) (k : ℕ) (back : Option (LWord × LWord))
    (hk : (s.step i).pushes[k]? = some back) :
    HandsBack stale (s.step i).cells (s.step i).loaded k back := by
  have hw := wordEnds_iff (i := i) h
  have hloads := h.loads
  have hpushes := h.pushes_length
  have hold : ∀ back, s.pushes[k]? = some back →
      HandsBack stale (s.step i).cells (s.step i).loaded k back := by
    intro back hback
    have hlt := (List.getElem?_eq_some_iff.mp hback).1
    exact (h.backs k back hback).append _ _ (by omega) (by omega)
  simp only [DriveRun.step] at hk
  by_cases hend : wordEnds (s.input i) s.toDrive = true
  · have h15 := (hw.mp hend).2
    rw [if_pos hend] at hk
    rcases Nat.lt_or_ge k s.pushes.length with hlt | hge
    · rw [List.getElem?_append_left hlt] at hk
      exact hold back hk
    · have hkm : k = s.pushes.length := by
        have := (List.getElem?_eq_some_iff.mp hk).1
        simp only [List.length_append, List.length_singleton] at this
        omega
      subst hkm
      rw [List.getElem?_concat_length, Option.some_inj] at hk
      rw [← hk, hpushes]
      exact (handsBack_wordEnd hr h hend).append _ _ (by omega) (by omega)
  · rw [if_neg hend, List.append_nil] at hk
    exact hold back hk

theorem aligned_step (h : Aligned stale s) : Aligned stale (s.step i) where
  count := count_step hr h
  loads := by
    have hw := wordEnds_iff (i := i) h
    have hloads := h.loads
    have hlength := cells_step_length (i := i) (s := s)
    have hlength' := loaded_step_length (i := i) (s := s)
    split_ifs at hlength hlength' <;> simp_all <;> omega
  pushes_length := by
    have hpushes := h.pushes_length
    simp only [DriveRun.step, List.length_append]
    split_ifs <;> simp [hpushes]
  out_bits := out_step hr h
  in_bits := in_step hr h
  address_q1 := by
    rw [show (s.step i).out_address_q1 = _ from step_out_address_q1 hr]
    simp only [DriveRun.step]
    split_ifs
    · simp [addressOf, DriveRun.input]
    · rw [List.append_nil]
      exact h.address_q1
  address_q2 := by
    rw [show (s.step i).out_address_q2 = _ from step_out_address_q2 hr]
    simp only [DriveRun.step]
    split_ifs
    · rw [h.address_q1, List.length_append, List.length_singleton, ← addressOf_succ,
        addressOf_append _ _ _ (by omega)]
    · rw [List.append_nil]
      exact h.address_q2
  flag := flag_step hr h
  backs := backs_step hr h

end Step

theorem released_aligned {s : DriveRun f} (h : s.Released) : Aligned s.write_flag s := by
  obtain ⟨hcells, -, hloaded, hpushes⟩ := h.log
  have hout : ∀ side, outShifter side s.toDrive = 0 := by
    intro side
    cases side with
    | true => exact h.out_side1
    | false => exact h.out_side0
  constructor
  case count => simp [h.count, hcells]
  case loads => simp [hloaded, hcells]
  case pushes_length => simp [hpushes, hloaded]
  case out_bits =>
    intro side j _ _
    simp [hout, hcells, hloaded, cellBit]
  case in_bits => simp [hcells]
  case address_q1 => simp [h.address_q1, hloaded, addressOf]
  case address_q2 => simp [h.address_q2, hloaded, addressOf]
  case flag => simp [hcells, hloaded]
  case backs => simp [hpushes]

/-! ## The words that are read from the fifo -/

/-- A word is loaded at the end of the word period after the one in which it is
read from the fifo. -/
structure Fed (s : DriveRun f) : Prop where
  requested : s.read_fifo_rq = true →
    s.clock_div = false ∧ s.popped.length + 1 = s.loaded.length
  shown : s.read_fifo_rq = false → s.popped.length = s.loaded.length ∧
    (s.popped ≠ [] → s.popped.getLast? = some (f.q s.fifo))
  same : ∀ n w, s.loaded[n+1]? = some w → s.popped[n]? = some w

theorem released_fed {s : DriveRun f} (h : s.Released) : Fed s := by
  obtain ⟨-, hpopped, hloaded, -⟩ := h.log
  constructor
  case requested => exact fun hrq => absurd (h.request.symm.trans hrq) Bool.noConfusion
  case shown => simp [hpopped, hloaded]
  case same => simp [hloaded]

/-- The clock in which a word leaves the fifo. -/
theorem fed_read {i : FedInput} {s : DriveRun f} (h : Fed s) (hi : s.Running i)
    (hrq : s.read_fifo_rq = true) : Fed (s.step i) := by
  obtain ⟨hdiv, hlength⟩ := h.requested hrq
  obtain ⟨x, xs, hcontents⟩ := List.exists_cons_of_ne_nil (hi.not_empty hrq)
  have hends : wordEnds (s.input i) s.toDrive = false := by simp [wordEnds, ticks, hdiv]
  have hpopped : (s.step i).popped = s.popped ++ [x] := by simp [DriveRun.step, hrq, hcontents]
  have hloaded : (s.step i).loaded = s.loaded := by simp [DriveRun.step, hends]
  have hq : f.q (s.step i).fifo = x := by
    simp only [DriveRun.step, hi.no_reset, hrq]
    exact f.q_step _ _ _ _ _ hcontents
  have hrq' : (s.step i).read_fifo_rq = false := by
    rw [show (s.step i).read_fifo_rq = _ from step_read_fifo_rq hi.no_reset]
    exact hends
  constructor
  case requested => exact fun hc => absurd (hrq'.symm.trans hc) Bool.noConfusion
  case shown =>
    intro _
    rw [hpopped, hloaded, hq]
    simpa using hlength
  case same =>
    intro n w hw
    rw [hloaded] at hw
    rw [hpopped, List.getElem?_append_left (List.getElem?_eq_some_iff.mp (h.same n w hw)).1]
    exact h.same n w hw

theorem fed_wordEnd {i : FedInput} {s : DriveRun f} (h : Fed s) (hi : s.Running i)
    (hrq : s.read_fifo_rq = false) (hends : wordEnds (s.input i) s.toDrive = true) :
    Fed (s.step i) := by
  obtain ⟨hlength, hlast⟩ := h.shown hrq
  have hpopped : (s.step i).popped = s.popped := by simp [DriveRun.step, hrq]
  have hloaded : (s.step i).loaded = s.loaded ++ [f.q s.fifo] := by simp [DriveRun.step, hends]
  have hrq' : (s.step i).read_fifo_rq = wordEnds (s.input i) s.toDrive :=
    step_read_fifo_rq hi.no_reset
  have hticks : s.clock_div = true := (Bool.and_eq_true_iff.mp (wordEnds_ticks hends)).1
  constructor
  case requested =>
    intro _
    rw [show (s.step i).clock_div = _ from step_clock_div hi.no_reset, hpopped, hloaded]
    simp [hticks, hlength]
  case shown => exact fun hc => absurd (hends.symm.trans (hrq'.symm.trans hc)) Bool.noConfusion
  case same =>
    intro n w hw
    rw [hloaded] at hw
    rw [hpopped]
    rcases Nat.lt_or_ge (n+1) s.loaded.length with hlt | hge
    · rw [List.getElem?_append_left hlt] at hw
      exact h.same n w hw
    · -- the word loaded now is the one read last
      have hn : n+1 = s.loaded.length := by
        have hbound := (List.getElem?_eq_some_iff.mp hw).1
        rw [List.length_append, List.length_singleton] at hbound
        omega
      rw [hn, List.getElem?_concat_length, Option.some_inj] at hw
      have hne : s.popped ≠ [] := by
        rintro hnil
        rw [hnil] at hlength
        simp at hlength
        omega
      rw [← hw, ← hlast hne, List.getLast?_eq_getElem?, hlength, ← hn]
      rfl

/-- A clock in which the fifo is left alone. -/
theorem fed_quiet {i : FedInput} {s : DriveRun f} (h : Fed s) (hi : s.Running i)
    (hrq : s.read_fifo_rq = false) : Fed (s.step i) := by
  cases hends : wordEnds (s.input i) s.toDrive with
  | true => exact fed_wordEnd h hi hrq hends
  | false =>
    have hpopped : (s.step i).popped = s.popped := by simp [DriveRun.step, hrq]
    have hloaded : (s.step i).loaded = s.loaded := by simp [DriveRun.step, hends]
    have hq : f.q (s.step i).fifo = f.q s.fifo := by
      simp only [DriveRun.step, hi.no_reset, hrq]
      exact f.q_hold _ _ _ _ (Or.inl rfl)
    have hrq' : (s.step i).read_fifo_rq = wordEnds (s.input i) s.toDrive :=
      step_read_fifo_rq hi.no_reset
    constructor
    case requested => exact fun hc => absurd (hends.symm.trans (hrq'.symm.trans hc)) Bool.noConfusion
    case shown =>
      intro _
      rw [hpopped, hloaded, hq]
      exact h.shown hrq
    case same =>
      intro n w hw
      rw [hloaded] at hw
      rw [hpopped]
      exact h.same n w hw

theorem fed_step {i : FedInput} {s : DriveRun f} (h : Fed s) (hi : s.Running i) :
    Fed (s.step i) := by
  cases hrq : s.read_fifo_rq with
  | true => exact fed_read h hi hrq
  | false => exact fed_quiet h hi hrq

/-! ## What is handed back -/

/-- The host's cell that meets bit `j` of the word handed back at the end of
word period `k`. -/
def cellOf (cells : List Cell) (k j : ℕ) : Option Cell := cells[16*k+14-j]?

def replaced (cells : List Cell) (k : ℕ) (side : Bool) (j : ℕ) : Bool :=
  (cellOf cells k j).elim false fun c => c.gated && c.selected && c.side1 == side

structure WithCells (cells : List Cell) (k : ℕ) (w : FifoWord) (p : LWord × LWord) : Prop where
  address : p.1 = w.address
  bits : ∀ side, ∀ j < 16, (half side p.2).getLsbD j =
    if replaced cells k side j then (cellOf cells k j).elim false (·.bit)
    else (half side w.data).getLsbD j

/-- What should be handed back at the end of word period `k`: the word read from
the fifo three periods before, if a cell of it was replaced. -/
structure WrittenBack (s : DriveRun f) (k : ℕ) : Prop where
  none_read : k < 3 → s.pushes[k]? = some none
  replaced : ∀ w, 3 ≤ k → s.popped[k-3]? = some w →
    (∃ side, ∃ j < 16, replaced s.cells k side j = true) →
    ∃ p, s.pushes[k]? = some (some p) ∧ WithCells s.cells k w p
  untouched : 3 ≤ k → (∀ side, ∀ j < 16, FloppyDrive.replaced s.cells k side j = false) →
    s.pushes[k]? = some none

def Handled (stale : Bool) (s : DriveRun f) (k : ℕ) : Prop :=
  if k < 3 then
    ¬(stale = true ∧ k = 0) ∧ ∀ t, 16*k ≤ t → t < 16*k+15 → writesAt s.cells t = false
  else
    (∀ side, ∀ j < 16, replaced s.cells k side j = false) ∨
    (∃ side, ∃ j < 15, replaced s.cells k side j = true) ∧
      ∀ j < 16, ∀ c, cellOf s.cells k j = some c → c.gated = true → c.selected = false →
        ∀ w, s.popped[k-3]? = some w → c.bit = (half c.side1 w.data).getLsbD j

section Periods
variable {stale : Bool} {s : DriveRun f}

theorem replaced_writesAt (k j : ℕ) : (∃ side, replaced s.cells k side j = true) ↔
    writesAt s.cells (16*k+14-j) = true := by
  unfold replaced writesAt cellOf
  cases s.cells[16*k+14-j]? with
  | none => simp
  | some c => simp

/-- The flag sees all cells of a word but its first one. -/
theorem flagged_iff_replaced (k : ℕ) (h2 : 2 ≤ k) : flagged stale s.cells k ↔
    ∃ j < 15, ∃ side, replaced s.cells k side j = true := by
  simp only [flagged, replaced_writesAt]
  constructor
  · rintro (⟨-, hk⟩ | ⟨t, hlow, hlt, hwrites⟩)
    · omega
    · refine ⟨16*k+14-t, by omega, ?_⟩
      rwa [show 16*k+14-(16*k+14-t) = t by omega]
  · rintro ⟨j, hj, hwrites⟩
    exact Or.inr ⟨16*k+14-j, by omega, by omega, hwrites⟩

theorem bit_handed_back (k : ℕ) (h2 : 2 ≤ k) (w : FifoWord) (hw : s.loaded[k-2]? = some w)
    (side : Bool) (j : ℕ) (hj : j < 16) (c : Cell) (hc : cellOf s.cells k j = some c) :
    streamBit side s.cells s.loaded (16*k+14-j) =
      if c.gated && c.side1 == side then c.bit else (half side w.data).getLsbD j := by
  have hbit : cellBit side s.loaded (16*k+14-j+1) = (half side w.data).getLsbD j := by
    rw [cellBit, if_pos (by omega), show (16*k+14-j+1)/16-2 = k-2 by omega, hw,
      show 15-(16*k+14-j+1) % 16 = j by omega]
    rfl
  rw [cellOf] at hc
  rw [streamBit, hc, hbit]
  rfl

theorem writtenBack_iff_first (h : Aligned stale s) (k : ℕ) (hk : k < s.pushes.length)
    (h3 : k < 3) : WrittenBack s k ↔ Handled stale s k := by
  obtain ⟨hsome, -⟩ := h.backs k _ (List.getElem?_eq_getElem hk)
  have hnone : s.pushes[k]? = some none ↔ ¬ flagged stale s.cells k := by
    rw [List.getElem?_eq_getElem hk, Option.some_inj, ← hsome]
    cases s.pushes[k] <;> simp
  have hhandled : Handled stale s k ↔ ¬ flagged stale s.cells k := by
    rw [Handled, if_pos h3, flagged, not_or, not_exists]
    refine and_congr_right fun _ => forall_congr' fun t => ?_
    simp
  rw [hhandled, ← hnone]
  exact ⟨fun hb => hb.none_read h3, fun hn => ⟨fun _ => hn, fun w hc => by omega, fun hc => by omega⟩⟩

theorem word_of_period (h : Aligned stale s) (hfed : Fed s) (k : ℕ) (hk : k < s.pushes.length)
    (h3 : 3 ≤ k) : ∃ w, s.loaded[k-2]? = some w ∧ s.popped[k-3]? = some w := by
  have hpushes := h.pushes_length
  have hloads := h.loads
  obtain ⟨w, hw⟩ : ∃ w, s.loaded[k-2]? = some w :=
    ⟨_, List.getElem?_eq_getElem (show k-2 < s.loaded.length by omega)⟩
  exact ⟨w,hw,hfed.same (k-3) w (by rw [show k-3+1 = k-2 by omega]; exact hw)⟩

theorem handed_iff_replaced (h : Aligned stale s) (k : ℕ) (hk : k < s.pushes.length)
    (h3 : 3 ≤ k) : (s.pushes[k]).isSome = true ↔
      ∃ j < 15, ∃ side, replaced s.cells k side j = true :=
  (h.backs k _ (List.getElem?_eq_getElem hk)).1.trans (flagged_iff_replaced k (by omega))

theorem handled_of_writtenBack (h : Aligned stale s) (k : ℕ) (hk : k < s.pushes.length)
    (h3 : 3 ≤ k) {w : FifoWord} (hw : s.loaded[k-2]? = some w) (hread : s.popped[k-3]? = some w)
    (hb : WrittenBack s k) : Handled stale s k := by
  have hsome := handed_iff_replaced h k hk h3
  have hback := List.getElem?_eq_getElem hk
  rw [Handled, if_neg (by omega)]
  by_cases hall : ∀ side, ∀ j < 16, replaced s.cells k side j = false
  · exact Or.inl hall
  · right
    push Not at hall
    obtain ⟨side, j, hj, hr⟩ := hall
    obtain ⟨p, hp, hwith⟩ := hb.replaced w h3 hread ⟨side, j, hj, by simpa using hr⟩
    rw [hback, Option.some_inj] at hp
    obtain ⟨j, hj, side, hr⟩ := hsome.mp (by rw [hp]; rfl)
    refine ⟨⟨side, j, hj, hr⟩, ?_⟩
    intro j hj c hc hgated hselected w' hw'
    cases hread.symm.trans hw'
    -- the head has written the cell, and the bit of the word is asked for
    have hhead := ((h.backs k _ hback).2 p hp).2 c.side1 j hj (by omega)
    have hkept := hwith.bits c.side1 j hj
    rw [bit_handed_back k (by omega) w hw c.side1 j hj c hc, hgated] at hhead
    rw [show replaced s.cells k c.side1 j = false by simp [replaced, hc, hselected]] at hkept
    simpa [hkept] using hhead.symm

theorem writtenBack_untouched (h : Aligned stale s) (k : ℕ) (hk : k < s.pushes.length)
    (h3 : 3 ≤ k) (hall : ∀ side, ∀ j < 16, replaced s.cells k side j = false) :
    WrittenBack s k := by
  have hnone : s.pushes[k]? = some none := by
    rw [List.getElem?_eq_getElem hk, Option.some_inj, ← Option.not_isSome_iff_eq_none,
      handed_iff_replaced h k hk h3]
    rintro ⟨j, hj, side, hr⟩
    rw [hall side j (by omega)] at hr
    cases hr
  refine ⟨fun hc => by omega, ?_, fun _ _ => hnone⟩
  rintro w - - ⟨side, j, hj, hr⟩
  rw [hall side j hj] at hr
  cases hr

theorem writtenBack_replaced (h : Aligned stale s) (k : ℕ) (hk : k < s.pushes.length) (h3 : 3 ≤ k)
    {w : FifoWord} (hw : s.loaded[k-2]? = some w) (hread : s.popped[k-3]? = some w) {side : Bool}
    {j : ℕ} (hj : j < 15) (hr : replaced s.cells k side j = true)
    (hcells : ∀ j < 16, ∀ c, cellOf s.cells k j = some c → c.gated = true → c.selected = false → ∀ w, s.popped[k-3]? = some w → c.bit = (half c.side1 w.data).getLsbD j)
    : WrittenBack s k := by
  have hpushes := h.pushes_length
  have hloads := h.loads
  have hback := List.getElem?_eq_getElem hk
  obtain ⟨p, hp⟩ := Option.isSome_iff_exists.mp
    ((handed_iff_replaced h k hk h3).mpr ⟨j, hj, side, hr⟩)
  obtain ⟨haddress, hbits⟩ := (h.backs k _ hback).2 p hp
  refine ⟨fun hc => by omega, ?_, ?_⟩
  · rintro w' - hw' -
    cases hread.symm.trans hw'
    refine ⟨p, by rw [hback, hp], ?_, ?_⟩
    · rw [haddress, addressOf, if_pos (by omega), hw]
      rfl
    · intro side j hj
      obtain ⟨c, hc⟩ : ∃ c, cellOf s.cells k j = some c :=
        ⟨_, List.getElem?_eq_getElem (show 16*k+14-j < s.cells.length by omega)⟩
      rw [hbits side j hj (by omega), bit_handed_back k (by omega) w hw side j hj c hc, hc]
      have hunselected := fun hg hs => hcells j hj c hc hg hs w hread
      by_cases hside : c.side1 = side
      · subst hside
        cases hg : c.gated <;> cases hsel : c.selected <;>
          simp_all [replaced]
      · simp [replaced, hc, hside]
  · intro _ hall
    rw [hall side j (by omega)] at hr
    cases hr

theorem writtenBack_iff_word (h : Aligned stale s) (hfed : Fed s) (k : ℕ)
    (hk : k < s.pushes.length) (h3 : 3 ≤ k) : WrittenBack s k ↔ Handled stale s k := by
  obtain ⟨w, hw, hread⟩ := word_of_period h hfed k hk h3
  constructor
  · exact handled_of_writtenBack h k hk h3 hw hread
  · intro hhandled
    rw [Handled, if_neg (by omega)] at hhandled
    obtain hall | ⟨⟨side, j, hj, hr⟩, hcells⟩ := hhandled
    · exact writtenBack_untouched h k hk h3 hall
    · exact writtenBack_replaced h k hk h3 hw hread hj hr hcells

end Periods

section Hosts
variable {s : DriveRun f}

/-- One clock of a host that does as in a cell, with the motor on and a master that
fills the pop fifo. -/
def hostInput (c : Cell) : FedInput where
  reset_state := false
  drive_motor := true
  floppy_select := c.selected
  floppy_write_gate := c.gated
  floppy_write_data := c.bit
  floppy_side1 := c.side1
  disk_write_protect_sw := false
  disk_in_drive := true
  weakbit_noise_sig := false
  read_fifo_data := default
  pop_fifo_in_wr := true
  pop_fifo_in := default

/-- A fifo that is written at every clock holds a word. -/
theorem host_fills (c : Cell) : f.contents (s.step (hostInput c)).fifo ≠ [] := by
  change f.contents (f.step false true default s.read_fifo_rq s.fifo) ≠ []
  rw [f.contents_step, if_neg Bool.false_ne_true]
  by_cases hroom : (f.contents s.fifo).length < 4096
  · have hwritten : (if true = true ∧ (f.contents s.fifo).length < 4096 then
        [(default : FifoWord)] else []) = [default] := if_pos ⟨rfl,hroom⟩
    rw [hwritten]
    exact List.append_ne_nil_of_right_ne_nil _ (List.cons_ne_nil _ _)
  · intro hnil
    have hlength := congrArg List.length (List.append_eq_nil_iff.mp hnil).1
    split_ifs at hlength
    · rw [List.length_tail, List.length_nil] at hlength
      omega
    · rw [List.length_nil] at hlength
      omega

structure Ready (s : DriveRun f) : Prop where
  clock_div : s.clock_div = false
  not_empty : s.read_fifo_rq = true → f.contents s.fifo ≠ []

theorem host_cell (hs : Ready s) (c : Cell) :
    ∃ t, Clocked.Reach DriveRun.step DriveRun.Running s t ∧ Ready t ∧
      t.cells = s.cells ++ [c] := by
  have hstep : ∀ s : DriveRun f, (s.step (hostInput c)).cells = s.cells ++
      if s.clock_div then [DriveRun.cell (s.input (hostInput c)) s.toDrive] else [] := by
    intro s
    simp only [DriveRun.step, ticks, DriveRun.input, hostInput, Bool.and_true]
  have hdiv : ∀ s : DriveRun f, (s.step (hostInput c)).clock_div = !s.clock_div :=
    fun s => step_clock_div (i := s.input (hostInput c)) rfl
  have hcell : DriveRun.cell ((s.step (hostInput c)).input (hostInput c))
      (s.step (hostInput c)).toDrive = c := by
    have hbit : writeBit ((s.step (hostInput c)).input (hostInput c))
        (s.step (hostInput c)).toDrive = c.bit := by
      have hq1 : (s.step (hostInput c)).floppy_write_data_q1 = c.bit :=
        step_floppy_write_data_q1 (i := s.input (hostInput c)) rfl
      rw [writeBit, hq1]
      exact Bool.or_self _
    rw [DriveRun.cell, hbit]
    simp [DriveRun.input, hostInput, gated, writeProtectState]
  have hfirst : s.Running (hostInput c) := ⟨rfl,hs.not_empty⟩
  have hsecond : (s.step (hostInput c)).Running (hostInput c) := ⟨rfl,fun _ => host_fills c⟩
  refine ⟨_,((Clocked.Reach.refl s).tick _ hfirst).tick _ hsecond,⟨?_,fun _ => host_fills c⟩,?_⟩
  · rw [hdiv, hdiv, hs.clock_div]
    rfl
  · rw [hstep, hstep, hdiv, hs.clock_div, hcell]
    simp

theorem host_cells (hs : Ready s) (cs : List Cell) :
    ∃ t, Clocked.Reach DriveRun.step DriveRun.Running s t ∧
      t.cells = s.cells ++ cs := by
  induction cs generalizing s with
  | nil => exact ⟨s, Clocked.Reach.refl s, (List.append_nil _).symm⟩
  | cons c cs ih =>
    obtain ⟨t, hfirst, hready, hcell⟩ := host_cell hs c
    obtain ⟨u, hrest, hcells⟩ := ih hready
    refine ⟨u, hfirst.trans hrest, ?_⟩
    rw [hcells, hcell, List.append_assoc]
    rfl

end Hosts

theorem run_aligned {s t : DriveRun f} (hs : s.Released)
    (hrun : Clocked.Reach DriveRun.step DriveRun.Running s t) : Aligned s.write_flag t ∧ Fed t :=
  hrun.invariant (fun t => Aligned s.write_flag t ∧ Fed t) ⟨released_aligned hs,released_fed hs⟩
    fun _ _ hi h => ⟨aligned_step hi.no_reset h.1,fed_step h.2 hi⟩

/-- Every word period ends as write-back should exactly if its cells meet the
condition. -/
theorem write_back_iff (f : PopFifo) {s t : DriveRun f} (hs : s.Released)
    (hrun : Clocked.Reach DriveRun.step DriveRun.Running s t) (k : ℕ)
    (hk : k < t.pushes.length) : WrittenBack t k ↔ Handled s.write_flag t k := by
  obtain ⟨h, hfed⟩ := run_aligned hs hrun
  rcases Nat.lt_or_ge k 3 with h3 | h3
  · exact writtenBack_iff_first h k hk h3
  · exact writtenBack_iff_word h hfed k hk h3

def poweredUp : DriveRun (SyncFifo.ofList FifoWord 4096 3968) where
  toDrive := Drive.powerUp default
  fifo := ([],default)
  cells := []
  popped := []
  loaded := []
  pushes := []

theorem poweredUp_released : poweredUp.Released := ⟨rfl,rfl,rfl,rfl,rfl,rfl,⟨rfl,rfl,rfl,rfl⟩⟩

theorem poweredUp_ready : Ready poweredUp :=
  ⟨rfl,fun hrq => absurd (poweredUp_released.request.symm.trans hrq) Bool.noConfusion⟩

def oneCell (n : ℕ) : List Cell :=
  List.replicate n ⟨false,false,false,false⟩ ++ [⟨true,true,false,true⟩] ++
    List.replicate (63-n) ⟨false,false,false,false⟩

theorem oneCell_run (n : ℕ) (hn : n < 64) :
    ∃ t, Clocked.Reach DriveRun.step DriveRun.Running poweredUp t ∧
      t.cells = oneCell n ∧ t.pushes.length = 4 := by
  obtain ⟨t, hrun, hcells⟩ := host_cells poweredUp_ready (oneCell n)
  have h := (run_aligned poweredUp_released hrun).1
  refine ⟨t,hrun,hcells,?_⟩
  rw [h.pushes_length, h.loads, hcells]
  simp only [poweredUp, oneCell, List.nil_append, List.length_append, List.length_replicate,
    List.length_singleton]
  omega

/-- The word read first, written in its first cell only, is not handed back. -/
theorem first_cell_lost : ∃ t,
    Clocked.Reach DriveRun.step DriveRun.Running poweredUp t ∧
      t.cells = oneCell 47 ∧ 3 < t.pushes.length ∧ ¬ WrittenBack t 3 := by
  obtain ⟨t, hrun, hcells, hlength⟩ := oneCell_run 47 (by decide)
  refine ⟨t,hrun,hcells,by omega,?_⟩
  obtain ⟨h, hfed⟩ := run_aligned poweredUp_released hrun
  rw [writtenBack_iff_word h hfed 3 (by omega) le_rfl, Handled, if_neg (by decide), hcells]
  rintro (hall | ⟨⟨side, j, hj, hr⟩, -⟩)
  · exact absurd (hall false 15 (by decide)) (by decide)
  · revert side j
    decide

theorem write_back_iff_secondCell : ∃ t : DriveRun (SyncFifo.ofList FifoWord 4096 3968),
    t.cells = oneCell 48 ∧ (WrittenBack t 3 ↔ Handled false t 3) ∧
      ∃ w p, t.popped[0]? = some w ∧ t.pushes[3]? = some (some p) ∧ WithCells t.cells 3 w p := by
  obtain ⟨t, hrun, hcells, hlength⟩ := oneCell_run 48 (by decide)
  have hiff : WrittenBack t 3 ↔ Handled false t 3 :=
    write_back_iff _ poweredUp_released hrun 3 (by omega)
  refine ⟨t,hcells,hiff,?_⟩
  obtain ⟨h, hfed⟩ := run_aligned poweredUp_released hrun
  have hhandled : Handled false t 3 := by
    rw [Handled, if_neg (by decide), hcells]
    refine Or.inr ⟨⟨false,14,by decide,by decide⟩,fun j hj c hc hgated hselected => ?_⟩
    have hboth : ∀ j < 16, (cellOf (oneCell 48) 3 j).all (fun c => !c.gated || c.selected) := by
      decide
    have hcell := hboth j hj
    rw [hc] at hcell
    simp [hgated, hselected] at hcell
  have hpushes := h.pushes_length
  obtain ⟨w, hw⟩ : ∃ w, t.loaded[1]? = some w :=
    ⟨_,List.getElem?_eq_getElem (show 1 < t.loaded.length by omega)⟩
  obtain ⟨p, hp, hwith⟩ := (hiff.mpr hhandled).replaced w le_rfl (hfed.same 0 w hw)
    ⟨false,14,by decide,by rw [hcells]; decide⟩
  exact ⟨w,p,hfed.same 0 w hw,hp,hwith⟩

end Pauline.FloppyDrive
