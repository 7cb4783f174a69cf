import Pauline.Library.Clocked
import Pauline.Library.SyncFifo
import Pauline.Fpga.FloppyDumper

/-!
# The path of a dump

The master, the dumper and the two fifos between them. Addresses come out of
the master through the pop fifo, captured words go back through the push fifo.
-/

set_option autoImplicit false

namespace Pauline.DumpPath
open Pauline.DmaMaster Pauline.FloppyDumper

abbrev DumpFifo := SyncFifo FifoWord 4096 3968

structure DumpInput where
  bus : Input
  capture : DumperInput

structure DumpCore (pop push : DumpFifo) where
  master : Master
  dumper : Dumper
  popFifo : pop.State
  pushFifo : push.State

structure Captured where
  word : FifoWord
  tick : ℕ

/-- The core and what happened in it since the release of the channel: the
addresses given to the pop fifo and those read out of it, the samples of every
tick, the words captured, those lost in front of a full push fifo, and those
the bus has taken. -/
structure Dump (pop push : DumpFifo) extends DumpCore pop push where
  given : ℕ
  popped : ℕ
  samples : List (Bool × BitVec 16)
  captured : List Captured
  lost : List (LWord × LWord)
  written : List (LWord × LWord)

section Model
variable {pop push : DumpFifo}

def DumpCore.busInput (s : DumpCore pop push) (i : DumpInput) : Input :=
  { i.bus with
    pop_fifo_almostfull := Function.update i.bus.pop_fifo_almostfull 4 (pop.almost_full s.popFifo)
    push_fifo_empty := Function.update i.bus.push_fifo_empty 4 (push.empty s.pushFifo)
    push_fifo_out_data := Function.update i.bus.push_fifo_out_data 4 (push.q s.pushFifo).data
    push_fifo_out_address :=
      Function.update i.bus.push_fifo_out_address 4 (push.q s.pushFifo).address
    drv_cur_track_base_address :=
      Function.update i.bus.drv_cur_track_base_address 4 (i.bus.images_base_address 4) }

def DumpCore.captureInput (s : DumpCore pop push) (i : DumpInput) : DumperInput :=
  { i.capture with
    reset_state := i.bus.reset_drives 4
    pop_fifo_empty := pop.empty s.popFifo
    write_fifo_data := pop.q s.popFifo }

def DumpCore.arriving (s : DumpCore pop push) : FifoWord :=
  ⟨s.master.pop_fifo_in_data 4, s.master.pop_fifo_in_address 4, s.master.pop_fifo_in_status 4⟩

def DumpCore.step (i : DumpInput) (s : DumpCore pop push) : DumpCore pop push where
  master := DmaMaster.step (s.busInput i) s.master
  dumper := FloppyDumper.step (s.captureInput i) s.dumper
  popFifo := pop.step (i.bus.reset_drives 4) (s.master.pop_fifo_in_wr 4) s.arriving
    s.dumper.write_fifo_rq s.popFifo
  pushFifo := push.step (i.bus.reset_drives 4) s.dumper.read_fifo_wr s.dumper.read_fifo_data
    (s.master.push_fifo_out_rq 4) s.pushFifo

def DumpCore.pushOverflow (s : DumpCore pop push) : Bool :=
  s.dumper.read_fifo_wr && decide (4096 ≤ push.level s.pushFifo)

def DumpCore.writes (i : DumpInput) (s : DumpCore pop push) : Bool :=
  s.master.avm_m1_write && !i.bus.avm_m1_waitrequest && s.master.drive_index == 4

def pair (w : FifoWord) : LWord × LWord := (w.address, w.data)

def Dump.step (i : DumpInput) (s : Dump pop push) : Dump pop push where
  toDumpCore := s.toDumpCore.step i
  given := if takes (s.busInput i) s.master 4 then s.given+1 else s.given
  popped := if s.dumper.write_fifo_rq then s.popped+1 else s.popped
  samples := s.samples ++ if ticks (s.captureInput i) s.dumper then
    [(sample (s.captureInput i) s.dumper, i.capture.slow_capture_bus)] else []
  captured := s.captured ++ if (s.toDumpCore.step i).dumper.read_fifo_wr then
    [⟨(s.toDumpCore.step i).dumper.read_fifo_data, s.samples.length⟩] else []
  lost := s.lost ++ if s.pushOverflow then [pair s.dumper.read_fifo_data] else []
  written := s.written ++ if s.writes i then [(s.master.busaddress, s.master.writedata)] else []

@[simp] theorem step_master (i : DumpInput) (s : Dump pop push) :
    (s.step i).master = DmaMaster.step (s.busInput i) s.master := rfl

@[simp] theorem step_dumper (i : DumpInput) (s : Dump pop push) :
    (s.step i).dumper = FloppyDumper.step (s.captureInput i) s.dumper := rfl

@[simp] theorem captureInput_empty (i : DumpInput) (s : DumpCore pop push) :
    (s.captureInput i).pop_fifo_empty = pop.empty s.popFifo := rfl

structure Programmed (buffer_size base : LWord) (i : DumpInput) : Prop where
  size : i.bus.images_track_size 4 = buffer_size
  base : i.bus.images_base_address 4 = base
  not_continuous : i.bus.continuous_mode 4 = false
  released : i.bus.reset_drives 4 = false

def Writing (m : Master) : Prop :=
  m.drive_index = 4 ∧ (m.state_master_register = .wait_write_ws ∨
    m.state_master_register = .wait_write ∨ m.state_master_register = .wait_write2)

structure Released (buffer_size base : LWord) (s : Dump pop push) : Prop where
  not_writing : ¬ Writing s.master
  no_write : s.master.avm_m1_write = true → s.master.drive_index ≠ 4
  no_write_due : s.master.filos_out_allempty = false → s.master.fifos_out_empty_index ≠ 4
  offset : s.master.address_offsets 4 = 0
  address : s.master.drv_cur_track_address 4 = base
  stop : s.master.dma_stop_address 4 = stopAddress buffer_size
  no_word : s.master.pop_fifo_in_wr 4 = false
  no_request : s.master.push_fifo_out_rq 4 = false
  dumper : ∃ i : DumperInput, ∃ d : Dumper, s.dumper = onReset i d
  pop_empty : pop.contents s.popFifo = []
  push_empty : push.contents s.pushFifo = []
  log : s.given = 0 ∧ s.popped = 0 ∧ s.samples = [] ∧ s.captured = [] ∧ s.lost = [] ∧
    s.written = []

def DumpCore.start (s : DumpCore pop push) : Dump pop push :=
  { s with given := 0, popped := 0, samples := [], captured := [], lost := [], written := [] }

structure Quiet (m : Master) : Prop where
  busy : m.drive_index = 4 → m.state_master_register = .idle ∨ m.state_master_register = .wait_read
  due : m.filos_out_allempty = false → m.fifos_out_empty_index ≠ 4

theorem reset_quiet : Quiet Master.reset := ⟨fun _ => Or.inl rfl, fun h => absurd h (by decide)⟩

end Model

/-- While the channel is held in reset no transfer of it starts. -/
theorem quiet_step {i : Input} {m : Master} (hreset : i.reset_drives 4 = true) (h : Quiet m) :
    Quiet (DmaMaster.step i m) where
  busy := by
    rw [(step_bus i m).state_master_register, (step_bus i m).drive_index]
    cases hm : m.state_master_register with
    | idle =>
      cases hread : startsRead i m with
      | true => exact fun _ => Or.inr rfl
      | false =>
        cases hwrite : startsWrite i m with
        | true =>
          simp only [startsWrite, Bool.and_eq_true, Bool.not_eq_true'] at hwrite
          exact fun hx => absurd hx (h.due hwrite.2)
        | false => exact fun _ => Or.inl rfl
    | wait_read =>
      intro hd
      simp only [show m.drive_index = 4 from hd, hreset, if_true, true_or]
    | _ =>
      intro hd
      have := h.busy hd
      simp [hm] at this
  due := by
    intro hempty hx
    have hword : hasWord i m 4 = true := by
      have := firstOf_spec (hasWord i m) hempty
      rwa [show (firstOf (hasWord i m)).1 = 4 from hx] at this
    simp [hasWord, hreset] at hword

/-- A clock of reset leaves the channel ready for a dump. -/
theorem reset_released {pop push : DumpFifo} {buffer_size base : LWord} {i : DumpInput}
    {s : DumpCore pop push} (hreset : i.bus.reset_drives 4 = true)
    (hsize : i.bus.images_track_size 4 = buffer_size)
    (hbase : i.bus.images_base_address 4 = base) (h : Quiet s.master) :
    Released buffer_size base (s.step i).start := by
  have hquiet : Quiet (DmaMaster.step (s.busInput i) s.master) := quiet_step hreset h
  have hc := step_channel (s.busInput i) s.master 4
  have hnot : ¬ Writing (DmaMaster.step (s.busInput i) s.master) := by
    rintro ⟨hd, hw⟩
    rcases hquiet.busy hd with hm | hm <;> simp [hm] at hw
  constructor
  case not_writing => exact hnot
  case no_write =>
    intro hw hd
    exact hnot ⟨hd, Or.inr (Or.inr ((write_iff _ _).mp hw))⟩
  case no_write_due => exact hquiet.due
  case offset => exact hc.address_offsets.trans (if_pos hreset)
  case address => exact (hc.drv_cur_track_address.trans (if_pos hreset)).trans hbase
  case stop => exact hc.dma_stop_address.trans (congrArg stopAddress hsize)
  case no_word =>
    rw [show (s.step i).start.master.pop_fifo_in_wr 4 = takes (s.busInput i) s.master 4 from
      hc.pop_fifo_in_wr, Bool.eq_false_iff]
    intro ht
    simp only [takes, Bool.and_eq_true, decide_eq_true_eq] at ht
    rcases h.busy ht.1.2 with hm | hm <;> simp [hm] at ht
  case no_request =>
    rw [Bool.eq_false_iff]
    intro hrq
    obtain ⟨hd, hm⟩ := (request_iff _ _ 4).mp hrq
    exact hnot ⟨hd, Or.inl hm⟩
  case dumper => exact ⟨s.captureInput i, s.dumper, if_pos hreset⟩
  case pop_empty => exact (pop.contents_step _ _ _ _ _).trans (if_pos hreset)
  case push_empty => exact (push.contents_step _ _ _ _ _).trans (if_pos hreset)
  case log => exact ⟨rfl, rfl, rfl, rfl, rfl, rfl⟩

section Generator
variable {pop push : DumpFifo}

def Dump.arrivals (s : Dump pop push) : List FifoWord :=
  if s.master.pop_fifo_in_wr 4 then [s.arriving] else []

def Dump.coming (s : Dump pop push) : ℕ :=
  if s.master.drive_index = 4 ∧ (s.master.state_master_register = .wait_read ∨
    s.master.state_master_register = .wait_read2) then 1 else 0

structure Room (s : Dump pop push) : Prop where
  room : pop.level s.popFifo + s.arrivals.length + s.coming ≤ 3970
  chosen : s.master.fifos_in_allfull = false → s.master.fifos_in_almostfull_index = 4 →
    pop.level s.popFifo + s.arrivals.length ≤ 3969

theorem arrivals_length (s : Dump pop push) :
    s.arrivals.length = if s.master.pop_fifo_in_wr 4 then 1 else 0 := by
  unfold Dump.arrivals
  split_ifs <;> rfl

section Step
variable {i : DumpInput} {s : Dump pop push}

theorem level_step_le :
    pop.level (s.step i).popFifo ≤ pop.level s.popFifo + s.arrivals.length := by
  rw [arrivals_length]
  exact pop.level_step_le _ _ _ _ _

theorem arrivals_step_length : (s.step i).arrivals.length =
    if takes (s.busInput i) s.master 4 then 1 else 0 := by
  rw [arrivals_length]
  exact congrArg (fun b : Bool => if b then 1 else 0)
    (step_channel (s.busInput i) s.master 4).pop_fifo_in_wr

/-- A word given was coming, and one comes only after channel 4 was chosen. -/
theorem coming_step : (s.step i).coming + (if takes (s.busInput i) s.master 4 then 1 else 0) ≤
    s.coming + if s.master.fifos_in_allfull = false ∧ s.master.fifos_in_almostfull_index = 4 ∧
      s.master.state_master_register = .idle then 1 else 0 := by
  have hb := step_bus (s.busInput i) s.master
  have hstate := hb.state_master_register
  have hdrive := hb.drive_index
  simp only [Dump.coming, step_master, hstate, hdrive]
  cases hm : s.master.state_master_register with
  | idle =>
    cases hr : startsRead (s.busInput i) s.master with
    | true =>
      have hfull : s.master.fifos_in_allfull = false := by
        simpa [startsRead] using (Bool.and_eq_true_iff.mp hr).2
      by_cases hx : s.master.fifos_in_almostfull_index = 4 <;> simp [takes, hm, hx, hfull]
    | false => cases hw : startsWrite (s.busInput i) s.master <;> simp [takes, hm]
  | wait_read =>
    by_cases hd : s.master.drive_index = 4
    · cases hreset : (s.busInput i).reset_drives 4 <;> simp [takes, hm, hd, hreset]
    · simp [takes, hm, hd]
  | wait_read2 =>
    by_cases hd : s.master.drive_index = 4
    · cases hreset : (s.busInput i).reset_drives 4 <;> simp [takes, hm, hd, hreset]
    · simp [takes, hm, hd]
  | wait_write_ws => simp [takes, hm]
  | wait_write => simp [takes, hm]
  | wait_write2 => cases hw : (s.busInput i).avm_m1_waitrequest <;> simp [takes, hm]

theorem room_step (h : Room s) : Room (s.step i) := by
  have hlevel := level_step_le (s := s) (i := i)
  have harr := arrivals_step_length (s := s) (i := i)
  constructor
  · have hcome := coming_step (s := s) (i := i)
    have hroom := h.room
    by_cases hc : s.master.fifos_in_allfull = false ∧ s.master.fifos_in_almostfull_index = 4 ∧
      s.master.state_master_register = .idle
    · have hle := h.chosen hc.1 hc.2.1
      have hidle : s.coming = 0 := by simp [Dump.coming, hc.2.2]
      rw [if_pos hc] at hcome
      omega
    · rw [if_neg hc] at hcome
      omega
  · intro hfull hx
    -- the flag that chose the channel leaves two words of slack
    have hwants : wantsWords (s.busInput i) s.master 4 = true := by
      have := firstOf_spec (wantsWords (s.busInput i) s.master) hfull
      rwa [show (firstOf (wantsWords (s.busInput i) s.master)).1 = 4 from hx] at this
    have hflag : pop.almost_full s.popFifo = false := by
      simp only [wantsWords, Bool.and_eq_true, Bool.not_eq_true', DumpCore.busInput,
        Function.update_self] at hwants
      exact hwants.1.1
    have hle : pop.level s.popFifo < 3968 := by simpa [SyncFifo.almost_full] using hflag
    have hone : s.arrivals.length ≤ 1 := by
      rw [arrivals_length]
      split_ifs <;> decide
    split_ifs at harr <;> omega

end Step
end Generator

end Pauline.DumpPath
