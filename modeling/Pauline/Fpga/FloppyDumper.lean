import Pauline.Fpga.DmaMaster

/-!
# The dumper

The capture process of the dumper. A tick shifts one sample in; the sixteenth
tick of a word hands the word over with an address that came out of the pop
fifo two words earlier.
-/

set_option autoImplicit false

namespace Pauline.FloppyDumper
open Pauline.DmaMaster

structure FifoWord where
  data : LWord
  address : LWord
  status : BitVec 8
deriving Inhabited

structure DumperInput where
  reset_state : Bool
  stop : Bool
  fast_capture_sig : Bool
  slow_capture_bus : BitVec 16
  sample_rate_divisor : Bool
  enable_dump : Bool
  start_write : Bool
  index_trigger_signal : Bool
  ignore_index_trigger : Bool
  pop_fifo_empty : Bool
  write_fifo_data : FifoWord

structure Dumper where
  fiforeadcnt : BitVec 6
  write_fifo_rq : Bool
  read_fifo_wr : Bool
  read_fifo_data : FifoWord
  write_flag : Bool
  out_shifter_side0 : BitVec 32
  in_shifter_side0 : BitVec 16
  in_ios_state : BitVec 16
  read_stream_side0 : Bool
  clock_div : Bool
  write_enabled : Bool
  out_address_q1 : LWord
  out_address_q2 : LWord
  out_status_q1 : BitVec 8
  out_status_q2 : BitVec 8
  pop_fifo_data_valid_q1 : Bool
  pop_fifo_data_valid_q2 : Bool
  pop_fifo_data_valid_q3 : Bool
  pre_charged_state : Bool
  pre_charged_state_q1 : Bool
  pre_charged_state_q2 : Bool
deriving Inhabited

def onReset (i : DumperInput) (s : Dumper) : Dumper :=
  { s with
    read_stream_side0 := i.fast_capture_sig
    write_fifo_rq := false
    read_fifo_wr := false
    clock_div := false
    fiforeadcnt := 0
    pop_fifo_data_valid_q1 := false
    pop_fifo_data_valid_q2 := false
    pop_fifo_data_valid_q3 := false
    pre_charged_state_q1 := false
    pre_charged_state_q2 := false
    out_shifter_side0 := 0
    out_address_q1 := 0
    out_address_q2 := 0
    out_status_q1 := 0
    out_status_q2 := 0
    write_flag := false
    in_ios_state := i.slow_capture_bus
    write_enabled := false
    pre_charged_state := false }

def ticks (i : DumperInput) (s : Dumper) : Bool :=
  (s.clock_div || !i.sample_rate_divisor) && (i.enable_dump || s.write_enabled) && !i.stop &&
    (i.index_trigger_signal || i.ignore_index_trigger)

def sample (i : DumperInput) (s : Dumper) : Bool :=
  if i.sample_rate_divisor then s.read_stream_side0 || i.fast_capture_sig
  else s.read_stream_side0

def shiftIn (shifter : BitVec 16) (bit : Bool) : BitVec 16 :=
  shifter.extractLsb' 0 15 ++ BitVec.ofBool bit

theorem shiftIn_getLsbD (shifter : BitVec 16) (bit : Bool) (j : ℕ) (hj : j < 16) :
    (shiftIn shifter bit).getLsbD j = if j = 0 then bit else shifter.getLsbD (j-1) := by
  rw [shiftIn, BitVec.getLsbD_append, BitVec.getLsbD_extractLsb']
  cases j with
  | zero => simp
  | succ j =>
    have h15 : j < 15 := by omega
    simp [h15]

def wordEnds (i : DumperInput) (s : Dumper) : Bool := ticks i s && s.fiforeadcnt = 15

/-- The word that ends is pushed when its address was new two words ago and is
not the last one of the buffer. -/
def pushes (i : DumperInput) (s : Dumper) : Bool :=
  wordEnds i s && s.pre_charged_state_q2 && s.write_flag && s.pop_fifo_data_valid_q2 &&
    !s.out_status_q2.getLsbD 0

def onTick (i : DumperInput) (s n : Dumper) : Dumper :=
  { n with
    fiforeadcnt := s.fiforeadcnt+1
    out_shifter_side0 := s.out_shifter_side0.extractLsb' 0 31 ++ 0#1
    in_shifter_side0 := shiftIn s.in_shifter_side0 (sample i s)
    write_flag := i.enable_dump || i.start_write || s.write_flag }

def onWordEnd (i : DumperInput) (s n : Dumper) : Dumper :=
  { n with
    fiforeadcnt := 0
    out_shifter_side0 := n.out_shifter_side0.extractLsb' 16 16 ++
      i.write_fifo_data.data.extractLsb' 0 16
    pop_fifo_data_valid_q1 := !i.pop_fifo_empty
    pop_fifo_data_valid_q2 := s.pop_fifo_data_valid_q1
    pop_fifo_data_valid_q3 := s.pop_fifo_data_valid_q2
    pre_charged_state_q1 := s.pre_charged_state
    pre_charged_state_q2 := s.pre_charged_state_q1
    out_address_q1 := i.write_fifo_data.address
    out_address_q2 := s.out_address_q1
    out_status_q1 := i.write_fifo_data.status
    out_status_q2 := s.out_status_q1
    read_fifo_wr := pushes i s
    read_fifo_data := ⟨i.slow_capture_bus ++ s.in_shifter_side0, s.out_address_q2, 0⟩
    in_ios_state := i.slow_capture_bus
    write_flag := false
    pre_charged_state := !i.pop_fifo_empty || s.pre_charged_state
    write_fifo_rq := !i.pop_fifo_empty }

def step (i : DumperInput) (s : Dumper) : Dumper :=
  if i.reset_state then onReset i s
  else
    let n := { s with
      read_stream_side0 := i.fast_capture_sig
      write_fifo_rq := false
      read_fifo_wr := false
      clock_div := !s.clock_div }
    let n := if ticks i s then onTick i s n else n
    if wordEnds i s then onWordEnd i s n else n

section Registers
variable {i : DumperInput} {s : Dumper} (hr : i.reset_state = false)
include hr

theorem step_fiforeadcnt : (step i s).fiforeadcnt =
    if wordEnds i s then 0 else if ticks i s then s.fiforeadcnt+1 else s.fiforeadcnt := by
  rw [step, hr, if_neg Bool.false_ne_true]
  split_ifs <;> rfl

theorem step_write_fifo_rq : (step i s).write_fifo_rq = (wordEnds i s && !i.pop_fifo_empty) := by
  rw [step, hr, if_neg Bool.false_ne_true]
  cases wordEnds i s <;> cases ticks i s <;> rfl

theorem step_read_fifo_wr : (step i s).read_fifo_wr = pushes i s := by
  rw [step, hr, if_neg Bool.false_ne_true]
  cases hw : wordEnds i s <;> cases ticks i s <;> simp [pushes, hw, onWordEnd, onTick]

theorem step_in_shifter : (step i s).in_shifter_side0 =
    if ticks i s then shiftIn s.in_shifter_side0 (sample i s) else s.in_shifter_side0 := by
  rw [step, hr, if_neg Bool.false_ne_true]
  split_ifs <;> rfl

theorem step_write_flag (he : s.write_enabled = false) : (step i s).write_flag =
    (!wordEnds i s && (ticks i s || s.write_flag)) := by
  rw [step, hr, if_neg Bool.false_ne_true]
  cases hw : wordEnds i s with
  | true => rfl
  | false =>
    cases ht : ticks i s with
    | false => rfl
    | true =>
      -- a tick needs the dump to be enabled
      have hen : i.enable_dump = true := by
        simp only [ticks, he, Bool.or_false, Bool.and_eq_true] at ht
        exact ht.1.1.2
      simp [onTick, hen]

theorem step_write_enabled : (step i s).write_enabled = s.write_enabled := by
  rw [step, hr, if_neg Bool.false_ne_true]
  split_ifs <;> rfl

theorem step_clock_div : (step i s).clock_div = !s.clock_div := by
  rw [step, hr, if_neg Bool.false_ne_true]
  split_ifs <;> rfl

/-- The pipeline moves only where a word ends. -/
theorem step_held (hw : wordEnds i s = false) :
    (step i s).pop_fifo_data_valid_q1 = s.pop_fifo_data_valid_q1 ∧
    (step i s).pop_fifo_data_valid_q2 = s.pop_fifo_data_valid_q2 ∧
    (step i s).pre_charged_state = s.pre_charged_state ∧
    (step i s).pre_charged_state_q1 = s.pre_charged_state_q1 ∧
    (step i s).pre_charged_state_q2 = s.pre_charged_state_q2 ∧
    (step i s).out_address_q1 = s.out_address_q1 ∧
    (step i s).out_address_q2 = s.out_address_q2 ∧
    (step i s).out_status_q1 = s.out_status_q1 ∧
    (step i s).out_status_q2 = s.out_status_q2 ∧
    (step i s).read_fifo_data = s.read_fifo_data := by
  rw [step, hr, if_neg Bool.false_ne_true]
  simp only [hw, Bool.false_eq_true, if_false]
  split_ifs <;> exact ⟨rfl, rfl, rfl, rfl, rfl, rfl, rfl, rfl, rfl, rfl⟩

theorem step_wordEnd (hw : wordEnds i s = true) :
    (step i s).pop_fifo_data_valid_q1 = !i.pop_fifo_empty ∧
    (step i s).pop_fifo_data_valid_q2 = s.pop_fifo_data_valid_q1 ∧
    (step i s).pre_charged_state = (!i.pop_fifo_empty || s.pre_charged_state) ∧
    (step i s).pre_charged_state_q1 = s.pre_charged_state ∧
    (step i s).pre_charged_state_q2 = s.pre_charged_state_q1 ∧
    (step i s).out_address_q1 = i.write_fifo_data.address ∧
    (step i s).out_address_q2 = s.out_address_q1 ∧
    (step i s).out_status_q1 = i.write_fifo_data.status ∧
    (step i s).out_status_q2 = s.out_status_q1 ∧
    (step i s).read_fifo_data =
      ⟨i.slow_capture_bus ++ s.in_shifter_side0, s.out_address_q2, 0⟩ := by
  rw [step, hr, if_neg Bool.false_ne_true]
  simp only [hw, if_true]
  split_ifs <;> exact ⟨rfl, rfl, rfl, rfl, rfl, rfl, rfl, rfl, rfl, rfl⟩

end Registers

end Pauline.FloppyDumper
