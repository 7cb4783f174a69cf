import Pauline.Fpga.FloppyDumper

/-!
# The emulated drive

The process of the drive that shifts the track out and the written data in.
A tick shifts both sides by one bit cell; the sixteenth tick of a word loads
the next word of the track and hands back the word of two words earlier if
the host has written to it.
-/

set_option autoImplicit false

namespace Pauline.FloppyDrive
open Pauline.DmaMaster Pauline.FloppyDumper

structure DriveInput where
  reset_state : Bool
  /-- `floppy_motor`, or the motor of the quick disk logic. -/
  drive_motor : Bool
  floppy_select : Bool
  floppy_write_gate : Bool
  floppy_write_data : Bool
  floppy_side1 : Bool
  disk_write_protect_sw : Bool
  disk_in_drive : Bool
  weakbit_noise_sig : Bool
  read_fifo_data : FifoWord

structure Drive where
  fiforeadcnt : BitVec 6
  read_fifo_rq : Bool
  write_fifo_wr : Bool
  write_fifo_data : FifoWord
  write_flag : Bool
  out_shifter_side0 : BitVec 33
  out_shifter_side1 : BitVec 33
  out_index_shifter : BitVec 32
  out_qd_stopmotor_shifter : BitVec 32
  out_address_q1 : LWord
  out_address_q2 : LWord
  in_shifter_side0 : BitVec 16
  in_shifter_side1 : BitVec 16
  clock_div : Bool
  floppy_write_data_q1 : Bool
  noise_gen_signal : Bool
  led2_out : Bool
deriving Inhabited

def Drive.powerUp (s : Drive) : Drive :=
  { s with
    fiforeadcnt := 0
    read_fifo_rq := false
    write_fifo_wr := false
    write_flag := false
    out_shifter_side0 := 0
    out_shifter_side1 := 0
    out_index_shifter := 0
    out_qd_stopmotor_shifter := 0
    out_address_q1 := 0
    out_address_q2 := 0
    clock_div := false
    floppy_write_data_q1 := false
    led2_out := false }

def onReset (s : Drive) : Drive :=
  { s with
    read_fifo_rq := false
    write_fifo_wr := false
    clock_div := false
    floppy_write_data_q1 := false
    fiforeadcnt := 0
    out_shifter_side0 := 0
    out_shifter_side1 := 0
    out_index_shifter := 0
    out_qd_stopmotor_shifter := 0
    out_address_q1 := 0
    out_address_q2 := 0 }

def writeProtectState (i : DriveInput) : Bool := i.disk_write_protect_sw || !i.disk_in_drive

/-- The write head is on: the multiplexer does not ask whether the drive is
selected. -/
def gated (i : DriveInput) : Bool := i.floppy_write_gate && !writeProtectState i

def writeBit (i : DriveInput) (s : Drive) : Bool := i.floppy_write_data || s.floppy_write_data_q1

def writeStreamSide0 (i : DriveInput) (s : Drive) : Bool :=
  if !i.floppy_side1 && gated i then writeBit i s else s.out_shifter_side0.getLsbD 30

def writeStreamSide1 (i : DriveInput) (s : Drive) : Bool :=
  if i.floppy_side1 && gated i then writeBit i s else s.out_shifter_side1.getLsbD 30

def ticks (i : DriveInput) (s : Drive) : Bool := s.clock_div && i.drive_motor

def wordEnds (i : DriveInput) (s : Drive) : Bool := ticks i s && s.fiforeadcnt = 15

def writes (i : DriveInput) : Bool :=
  i.floppy_write_gate && i.floppy_select && !writeProtectState i

def shiftOut (shifter : BitVec 33) : BitVec 33 := shifter.extractLsb' 0 32 ++ 0#1

def onTick (i : DriveInput) (s n : Drive) : Drive :=
  { n with
    fiforeadcnt := s.fiforeadcnt+1
    out_shifter_side0 := shiftOut s.out_shifter_side0
    out_shifter_side1 := shiftOut s.out_shifter_side1
    noise_gen_signal := i.weakbit_noise_sig
    out_index_shifter := s.out_index_shifter.extractLsb' 0 31 ++ 0#1
    out_qd_stopmotor_shifter := s.out_qd_stopmotor_shifter.extractLsb' 0 31 ++ 0#1
    in_shifter_side0 := shiftIn s.in_shifter_side0 (writeStreamSide0 i s)
    in_shifter_side1 := shiftIn s.in_shifter_side1 (writeStreamSide1 i s)
    write_flag := writes i || n.write_flag
    led2_out := writes i }

def onWordEnd (i : DriveInput) (s n : Drive) : Drive :=
  { n with
    fiforeadcnt := 0
    out_shifter_side0 := n.out_shifter_side0.extractLsb' 16 17 ++
      i.read_fifo_data.data.extractLsb' 0 16
    out_shifter_side1 := n.out_shifter_side1.extractLsb' 16 17 ++
      i.read_fifo_data.data.extractLsb' 16 16
    out_address_q1 := i.read_fifo_data.address
    out_address_q2 := s.out_address_q1
    out_index_shifter := n.out_index_shifter.extractLsb' 16 16 ++
      if i.read_fifo_data.status.getLsbD 0 then BitVec.allOnes 16 else 0#16
    out_qd_stopmotor_shifter := n.out_qd_stopmotor_shifter.extractLsb' 16 16 ++
      if i.read_fifo_data.status.getLsbD 1 then BitVec.allOnes 16 else 0#16
    write_fifo_wr := s.write_flag
    write_fifo_data :=
      if s.write_flag then ⟨s.in_shifter_side1 ++ s.in_shifter_side0, s.out_address_q2, 0⟩
      else n.write_fifo_data
    write_flag := false
    read_fifo_rq := true }

def step (i : DriveInput) (s : Drive) : Drive :=
  if i.reset_state then onReset s
  else
    let n := { s with
      read_fifo_rq := false
      write_fifo_wr := false
      clock_div := !s.clock_div
      floppy_write_data_q1 := i.floppy_write_data }
    let n := if ticks i s then onTick i s n else n
    if wordEnds i s then onWordEnd i s n else n

theorem wordEnds_ticks {i : DriveInput} {s : Drive} (h : wordEnds i s = true) :
    ticks i s = true := (Bool.and_eq_true_iff.mp h).1

section Registers
variable {i : DriveInput} {s : Drive} (hr : i.reset_state = false)
include hr

theorem step_fiforeadcnt : (step i s).fiforeadcnt =
    if wordEnds i s then 0 else if ticks i s then s.fiforeadcnt+1 else s.fiforeadcnt := by
  rw [step, hr, if_neg Bool.false_ne_true]
  split_ifs <;> rfl

theorem step_read_fifo_rq : (step i s).read_fifo_rq = wordEnds i s := by
  rw [step, hr, if_neg Bool.false_ne_true]
  cases wordEnds i s <;> cases ticks i s <;> rfl

theorem step_write_fifo_wr : (step i s).write_fifo_wr = (wordEnds i s && s.write_flag) := by
  rw [step, hr, if_neg Bool.false_ne_true]
  cases wordEnds i s <;> cases ticks i s <;> rfl

theorem step_write_fifo_data (h : (step i s).write_fifo_wr = true) : (step i s).write_fifo_data =
    ⟨s.in_shifter_side1 ++ s.in_shifter_side0, s.out_address_q2, 0⟩ := by
  rw [step_write_fifo_wr hr, Bool.and_eq_true] at h
  rw [step, hr, if_neg Bool.false_ne_true, h.1, wordEnds_ticks h.1]
  simp [onWordEnd, h.2]

/-- The flag set by the tick that ends a word is cleared at once. -/
theorem step_write_flag : (step i s).write_flag =
    (!wordEnds i s && (ticks i s && writes i || s.write_flag)) := by
  rw [step, hr, if_neg Bool.false_ne_true]
  cases hw : wordEnds i s with
  | true => rfl
  | false => cases ticks i s <;> simp [onTick]

theorem step_in_shifter_side0 : (step i s).in_shifter_side0 =
    if ticks i s then shiftIn s.in_shifter_side0 (writeStreamSide0 i s)
    else s.in_shifter_side0 := by
  rw [step, hr, if_neg Bool.false_ne_true]
  split_ifs <;> rfl

theorem step_in_shifter_side1 : (step i s).in_shifter_side1 =
    if ticks i s then shiftIn s.in_shifter_side1 (writeStreamSide1 i s)
    else s.in_shifter_side1 := by
  rw [step, hr, if_neg Bool.false_ne_true]
  split_ifs <;> rfl

theorem step_out_shifter_side0 : (step i s).out_shifter_side0 =
    if wordEnds i s then (shiftOut s.out_shifter_side0).extractLsb' 16 17 ++
      i.read_fifo_data.data.extractLsb' 0 16
    else if ticks i s then shiftOut s.out_shifter_side0
    else s.out_shifter_side0 := by
  rw [step, hr, if_neg Bool.false_ne_true]
  cases hw : wordEnds i s with
  | true => rw [wordEnds_ticks hw]; rfl
  | false => cases ticks i s <;> rfl

theorem step_out_shifter_side1 : (step i s).out_shifter_side1 =
    if wordEnds i s then (shiftOut s.out_shifter_side1).extractLsb' 16 17 ++
      i.read_fifo_data.data.extractLsb' 16 16
    else if ticks i s then shiftOut s.out_shifter_side1
    else s.out_shifter_side1 := by
  rw [step, hr, if_neg Bool.false_ne_true]
  cases hw : wordEnds i s with
  | true => rw [wordEnds_ticks hw]; rfl
  | false => cases ticks i s <;> rfl

theorem step_clock_div : (step i s).clock_div = !s.clock_div := by
  rw [step, hr, if_neg Bool.false_ne_true]
  split_ifs <;> rfl

theorem step_floppy_write_data_q1 : (step i s).floppy_write_data_q1 = i.floppy_write_data := by
  rw [step, hr, if_neg Bool.false_ne_true]
  split_ifs <;> rfl

theorem step_out_address_q1 : (step i s).out_address_q1 =
    if wordEnds i s then i.read_fifo_data.address else s.out_address_q1 := by
  rw [step, hr, if_neg Bool.false_ne_true]
  split_ifs <;> rfl

theorem step_out_address_q2 : (step i s).out_address_q2 =
    if wordEnds i s then s.out_address_q1 else s.out_address_q2 := by
  rw [step, hr, if_neg Bool.false_ne_true]
  split_ifs <;> rfl

end Registers

end Pauline.FloppyDrive
