import Pauline.Control.ReadDisk
import Pauline.Dump.CaptureEnd

/-!
# What a dump leaves behind

`readdisk` on a drive in generic mode, with the lines of the drive, the mapping
of the dump buffer and the files of the tracks. It returns where the folder
cannot be made, where track 0 is not found, and behind `readstop`.
-/

set_option autoImplicit false

namespace Pauline.DumpCleanup
open Pauline.HeadStepper Pauline.Track Pauline.Capture Pauline.CaptureEnd

/-! ## The state -/

abbrev Regs := ℕ → BitVec 32

def control_reg : ℕ := 0x00
def floppy_ctrl_control : ℕ := 0x23
def floppy_ctrl_headmove : ℕ := 0x25
def floppy_dump_base_address : ℕ := 0x27
def floppy_dump_buffer_size : ℕ := 0x28
def floppy_continuous_mode : ℕ := 0x2A
def dump_delay_value : ℕ := 0x34
def dump_timeout_value : ℕ := 0x35
def sound_period : ℕ := 0x4F

structure Line where
  reg_number : ℕ
  bit_mask : BitVec 32

structure Drive extends HeadStepper.Drive where
  sel : Line
  mot : Line
  headload : Line

inductive Pointer where
  | null
  | map_failed
  | address (a : ℕ)

structure Server where
  fpga : FpgaState
  regs : Regs
  dump_running : Bool
  dump_buffer : Pointer
  dump_buffer_size : ℕ
  /-- What is mapped for the dump, with the lengths. -/
  mappings : List (ℕ × ℕ)
  /-- The track files that are open. -/
  files : List (ℤ × ℤ)
  /-- The lines that this call of `readdisk` has asserted. -/
  asserted : List Line

structure Call where
  drive : Drive
  params : DumpParams
  high_res_mode : Bool
  ignore_index : Bool
  spy : Bool
  prepare_folder : ℤ
  apple_mode : Bool
  at_track00 : ℕ → Bool
  index_to_dump_delay : BitVec 32
  dump_time_per_track : ℤ → ℤ → BitVec 32
  stop_process : ℤ → ℤ → Bool
  fopen : ℤ → ℤ → Bool
  mmap : ℤ → ℤ → Option ℕ
  capture : ℤ → ℤ → ℕ → Answer

/-! ## The functions of the core -/

def Server.modify (r : ℕ) (f : BitVec 32 → BitVec 32) (s : Server) : Server :=
  { s with regs := Function.update s.regs r (f (s.regs r)) }

def Server.setLine (l : Line) (enable : Bool) (s : Server) : Server :=
  if enable then
    { s.modify l.reg_number (· ||| l.bit_mask) with asserted := l :: s.asserted }
  else s.modify l.reg_number (· &&& ~~~l.bit_mask)

def Server.floppyCtrlMotor (d : Drive) (enable : Bool) (s : Server) : Server :=
  s.setLine d.mot enable

def Server.floppyCtrlSelectDrive (d : Drive) (enable : Bool) (s : Server) : Server :=
  s.setLine d.sel enable

def Server.floppyCtrlHeadload (d : Drive) (enable : Bool) (s : Server) : Server :=
  s.setLine d.headload enable

def Server.floppyCtrlSide (side : ℤ) (s : Server) : Server :=
  if side ≠ 0 then s.modify floppy_ctrl_control (· ||| 0x20)
  else s.modify floppy_ctrl_control (· &&& ~~~0x20#32)

def Server.floppyCtrlMoveHead (dir : Bool) (trk : BitVec 32) (s : Server) : Server :=
  s.modify floppy_ctrl_headmove fun _ =>
    0x10000 ||| ((if dir then 1 else 0) <<< 17) ||| (trk &&& 0x1FF)

def Server.sound (s : Server) : Server := s.modify sound_period fun _ => 0#32

def Server.allocDumpBuffer (mmap : Option ℕ) (base : BitVec 32) (buffer_size : ℕ) (s : Server) :
    Server :=
  let s := s.modify floppy_dump_base_address fun _ => base
  let s := s.modify floppy_dump_buffer_size fun _ => BitVec.ofNat 32 buffer_size
  match s.dump_buffer, mmap with
  | .null, some a =>
    { s with
      dump_buffer := .address a
      dump_buffer_size := buffer_size
      mappings := (a,buffer_size) :: s.mappings }
  | .null, none => { s with dump_buffer := .map_failed, dump_buffer_size := buffer_size }
  | _, _ => s

def Server.freeDumpBuffer (s : Server) : Server :=
  match s.dump_buffer with
  | .null => s
  | .map_failed => { s with dump_buffer := .null }
  | .address a =>
    { s with dump_buffer := .null, mappings := s.mappings.erase (a,s.dump_buffer_size) }

def Server.startDump (c : Call) (mmap : Option ℕ) (buffersize : ℕ) (s : Server) : Server :=
  let s := s.modify dump_timeout_value fun _ => 2000*1000
  let s := s.modify dump_delay_value fun _ => c.index_to_dump_delay
  let s := s.modify control_reg (· &&& ~~~0x4010#32)
  let s := s.modify floppy_ctrl_control (· &&& ~~~(0x3#32 <<< 20))
  let s := s.allocDumpBuffer mmap (512*1024*1024) buffersize
  let s := s.modify floppy_continuous_mode (· &&& ~~~0x10#32)
  let s := s.modify control_reg (· ||| 0x4010)
  let s := s.modify floppy_ctrl_control fun r =>
    if c.high_res_mode then r &&& ~~~(0x1#32 <<< 22) else r ||| 0x1 <<< 22
  let s := s.modify floppy_ctrl_control fun r =>
    if c.ignore_index then r ||| 0x1 <<< 23 else r &&& ~~~(0x1#32 <<< 23)
  let s := s.modify floppy_ctrl_control (· ||| 0x1 <<< 21)
  s.modify floppy_ctrl_control (· ||| 0x1 <<< 20)

def Server.captureState (s : Server) : FpgaState :=
  { s.fpga with floppy_ctrl_control := s.regs DumpCleanup.floppy_ctrl_control }

/-! ## The dump -/

def Server.openTrack (opened : Bool) (i j : ℤ) (s : Server) : Server :=
  if opened then { s with files := (i,j) :: s.files } else s

def Server.closeTrack (opened : Bool) (i j : ℤ) (s : Server) : Server :=
  if opened then { s with files := s.files.erase (i,j) } else s

/-- One side of a track, and whether a chunk failed. None if the capture loop
takes more turns than the fuel. -/
def readSide (c : Call) (fuel : ℕ) (i j : ℤ) (s : Server) : Option (Bool × Server) :=
  let s := s.openTrack (c.fopen i j) i j
  let s := s.floppyCtrlSide j
  let buffersize := programmedSize (c.dump_time_per_track i j) c.high_res_mode
  let s := s.startDump c (c.mmap i j) buffersize
  (turns (c.capture i j) fuel 0 (startTrack s.captureState buffersize)).map fun flags =>
    (flags.any id,s.closeTrack (c.fopen i j) i j)

def readSides (c : Call) (fuel : ℕ) (i : ℤ) (n : ℕ) (j : ℤ) (s : Server) :
    Option (Bool × Server) :=
  (sideLoop (m := StateT Server Option) (fun j s =>
    if c.stop_process i j then some (false,s)
    else (readSide c fuel i j s).map fun r => (!r.1,r.2)) n j).run s

def nextTrack (c : Call) (last i : ℤ) (s : Server) : Server :=
  if i < last ∧ !c.spy then s.floppyCtrlMoveHead true (if c.params.doublestep then 2 else 1)
  else s

def readTracks (c : Call) (fuel : ℕ) (last : ℤ) (n : ℕ) (i : ℤ) (s : Server) : Option Server :=
  ((trackLoop (m := StateT Server Option)
    (fun i => readSides c fuel i (iterations c.params.start_side c.params.max_side)
      c.params.start_side)
    (fun i s => some ((),nextTrack c last i s)) n i).run s).map (·.2)

def calibrate (at_track00 : ℕ → Bool) : ℕ → ℕ → Server → ℕ × Server
  | 0, i, s => (i,s)
  | n+1, i, s =>
    if at_track00 i then (i,s)
    else calibrate at_track00 n (i+1) (s.floppyCtrlMoveHead false 1)

def headTrack (c : Call) : ℤ × ℤ :=
  let start := c.drive.current_head_position
  let start := if c.params.doublestep then start.tdiv 2 else start
  (start,start)

def seek (c : Call) (s : Server) : Option (ℤ × ℤ) × Server :=
  if c.params.start_track ≠ -1 then
    let (i, s) := calibrate c.at_track00 (if c.apple_mode then 80 else 160) 0 s
    if i ≥ 160 then (none,s)
    else (some (c.params.start_track,c.params.max_track),
      (Server.floppyCtrlMoveHead true 1)^[c.params.start_track.toNat] s)
  else (some (headTrack c),s)

def readAll (c : Call) (fuel : ℕ) (tracks : ℤ × ℤ) (s : Server) : Option (ℤ × Server) :=
  let last := clampTrack c.drive.max_steps tracks.2
  let s := if c.drive.headload.bit_mask ≠ 0 then s.floppyCtrlHeadload c.drive true else s
  (readTracks c fuel last (iterations tracks.1 last) tracks.1 s).map fun s =>
    let s := s.freeDumpBuffer
    let s := { s with dump_running := false }
    let s :=
      if c.spy then s
      else
        let s :=
          if c.drive.headload.bit_mask ≠ 0 then s.floppyCtrlHeadload c.drive false else s
        let s := s.floppyCtrlSelectDrive c.drive false
        s.floppyCtrlMotor c.drive false
    (0,s.sound)

def readdisk (fuel : ℕ) (c : Call) (s : Server) : Option (ℤ × Server) :=
  let s := { s with dump_running := true, asserted := [] }
  if c.spy then readAll c fuel (headTrack c) s
  else
    let s := s.sound
    if c.prepare_folder < 0 then some (-1,{ s with dump_running := false }.sound)
    else
      let s := s.floppyCtrlMotor c.drive true
      let s := s.floppyCtrlSelectDrive c.drive true
      match seek c s with
      | (none, s) =>
        let s := s.floppyCtrlSelectDrive c.drive false
        let s := s.floppyCtrlMotor c.drive false
        some (-1,{ s with dump_running := false }.sound)
      | (some tracks, s) => readAll c fuel tracks s

def startup (fpga : FpgaState) (regs : Regs) : Server where
  fpga := fpga
  regs := regs
  dump_running := false
  dump_buffer := .null
  dump_buffer_size := 0
  mappings := []
  files := []
  asserted := []

/-- The states in which a dump can be started: others may have written the
registers since the last one. -/
inductive Idle : Server → Prop where
  | startup (fpga : FpgaState) (regs : Regs) : Idle (startup fpga regs)
  | command (s : Server) (fpga : FpgaState) (regs : Regs) :
    Idle s → Idle { s with fpga := fpga, regs := regs }
  | dump (fuel : ℕ) (c : Call) (s t : Server) (r : ℤ) :
    Idle s → readdisk fuel c s = some (r,t) → Idle t

def Line.Off (l : Line) (s : Server) : Prop := s.regs l.reg_number &&& l.bit_mask = 0#32

structure Quiet (s : Server) : Prop where
  buffer_null : s.dump_buffer = .null
  unmapped : s.mappings = []
  closed : s.files = []

structure Released (s : Server) : Prop extends Quiet s where
  not_running : s.dump_running = false
  deasserted : ∀ l ∈ s.asserted, l.Off s

/-! ## What the steps keep -/

structure Underway (lines : List Line) (files : List (ℤ × ℤ)) (s : Server) : Prop where
  mapped : s.mappings = [] ∧ (∀ a, s.dump_buffer ≠ .address a) ∨
    ∃ a, s.dump_buffer = .address a ∧ s.mappings = [(a,s.dump_buffer_size)]
  opened : s.files = files
  known : ∀ l ∈ s.asserted, l ∈ lines

variable {lines : List Line} {files : List (ℤ × ℤ)} {s : Server} {c : Call}

theorem Underway.mono {lines' : List Line} (h : Underway lines files s) (hsub : lines ⊆ lines') :
    Underway lines' files s :=
  ⟨h.mapped,h.opened,fun l hl => hsub (h.known l hl)⟩

theorem Underway.modify (h : Underway lines files s) (r : ℕ) (f : BitVec 32 → BitVec 32) :
    Underway lines files (s.modify r f) :=
  ⟨h.mapped,h.opened,h.known⟩

theorem Underway.setLine (h : Underway lines files s) {l : Line} (hl : l ∈ lines) (enable : Bool) :
    Underway lines files (s.setLine l enable) := by
  cases enable with
  | false => exact h.modify l.reg_number (· &&& ~~~l.bit_mask)
  | true => exact ⟨h.mapped,h.opened,List.forall_mem_cons.mpr ⟨hl,h.known⟩⟩

theorem Underway.floppyCtrlMoveHead (h : Underway lines files s) (dir : Bool) (trk : BitVec 32) :
    Underway lines files (s.floppyCtrlMoveHead dir trk) :=
  h.modify _ _

theorem Underway.allocDumpBuffer (h : Underway lines files s) (mmap : Option ℕ) (base : BitVec 32)
    (buffer_size : ℕ) : Underway lines files (s.allocDumpBuffer mmap base buffer_size) := by
  obtain ⟨hmapped, hopened, hknown⟩ := h
  unfold Server.allocDumpBuffer Server.modify
  cases hb : s.dump_buffer with
  | null =>
    obtain ⟨hnone, -⟩ | ⟨a, ha, -⟩ := hmapped
    · cases mmap with
      | none => exact ⟨Or.inl ⟨hnone,fun a ha => by cases ha⟩,hopened,hknown⟩
      | some a => exact ⟨Or.inr ⟨a,rfl,by simp only [hnone]⟩,hopened,hknown⟩
    · rw [hb] at ha
      cases ha
  | map_failed => exact ⟨by simpa only [hb] using hmapped,hopened,hknown⟩
  | address a => exact ⟨by simpa only [hb] using hmapped,hopened,hknown⟩

theorem Underway.startDump (h : Underway lines files s) (c : Call) (mmap : Option ℕ)
    (buffersize : ℕ) : Underway lines files (s.startDump c mmap buffersize) := by
  unfold Server.startDump
  iterate 6 apply Underway.modify
  apply Underway.allocDumpBuffer
  iterate 4 apply Underway.modify
  exact h

theorem Underway.floppyCtrlSide (h : Underway lines files s) (side : ℤ) :
    Underway lines files (s.floppyCtrlSide side) := by
  unfold Server.floppyCtrlSide
  split_ifs
  · exact h.modify _ _
  · exact h.modify _ _

theorem Underway.openTrack (h : Underway lines files s) (opened : Bool) (i j : ℤ) :
    Underway lines (if opened then (i,j)::files else files) (s.openTrack opened i j) := by
  cases opened with
  | false => exact h
  | true => exact ⟨h.mapped,congrArg _ h.opened,h.known⟩

theorem Underway.closeTrack {opened : Bool} {i j : ℤ}
    (h : Underway lines (if opened then (i,j)::files else files) s) :
    Underway lines files (s.closeTrack opened i j) := by
  cases opened with
  | false => exact h
  | true =>
    refine ⟨h.mapped,?_,h.known⟩
    have hfiles : s.files = (i,j)::files := h.opened
    simp only [Server.closeTrack, if_true, hfiles, List.erase_cons_head]

theorem readSide_underway (fuel : ℕ) (i j : ℤ) {failed : Bool} {t : Server}
    (h : Underway lines files s) (hrun : readSide c fuel i j s = some (failed,t)) :
    Underway lines files t := by
  unfold readSide at hrun
  obtain ⟨flags, -, ht⟩ := Option.map_eq_some_iff.mp hrun
  obtain ⟨-, rfl⟩ := Prod.mk.inj ht
  have hopen := h.openTrack (c.fopen i j) i j
  have hside := hopen.floppyCtrlSide j
  have hdump := hside.startDump c (c.mmap i j)
    (programmedSize (c.dump_time_per_track i j) c.high_res_mode)
  exact hdump.closeTrack

theorem readSides_succ (c : Call) (fuel : ℕ) (i : ℤ) (n : ℕ) (j : ℤ) (s : Server) :
    readSides c fuel i (n+1) j s =
      if c.stop_process i j then some (false,s)
      else
        match readSide c fuel i j s with
        | none => none
        | some (true, s) => some (false,s)
        | some (false, s) => readSides c fuel i n (j+1) s := by
  unfold readSides
  rw [sideLoop_run, StateT.run]
  by_cases hstop : c.stop_process i j = true
  · simp only [if_pos hstop]
    rfl
  · simp only [if_neg hstop]
    cases readSide c fuel i j s with
    | none => rfl
    | some r =>
      obtain ⟨failed, u⟩ := r
      cases failed <;> rfl

theorem readTracks_succ (c : Call) (fuel : ℕ) (last : ℤ) (n : ℕ) (i : ℤ) (s : Server) :
    readTracks c fuel last (n+1) i s =
      match readSides c fuel i (iterations c.params.start_side c.params.max_side)
          c.params.start_side s with
      | none => none
      | some (false, s) => some s
      | some (true, s) => readTracks c fuel last n (i+1) (nextTrack c last i s) := by
  unfold readTracks
  rw [trackLoop_run, StateT.run]
  cases readSides c fuel i (iterations c.params.start_side c.params.max_side)
      c.params.start_side s with
  | none => rfl
  | some r =>
    obtain ⟨go, u⟩ := r
    cases go <;> rfl

theorem readSides_underway (fuel : ℕ) (i : ℤ) (n : ℕ) (j : ℤ) {go : Bool} {t : Server}
    (h : Underway lines files s) (hrun : readSides c fuel i n j s = some (go,t)) :
    Underway lines files t := by
  induction n generalizing j s with
  | zero =>
    cases hrun
    exact h
  | succ n ih =>
    rw [readSides_succ] at hrun
    split at hrun
    · cases hrun
      exact h
    · cases hside : readSide c fuel i j s with
      | none => simp [hside] at hrun
      | some r =>
        obtain ⟨failed, u⟩ := r
        have hu := readSide_underway fuel i j h hside
        rw [hside] at hrun
        cases failed with
        | true =>
          cases hrun
          exact hu
        | false => exact ih (j+1) hu hrun

theorem readTracks_underway (fuel : ℕ) (last : ℤ) (n : ℕ) (i : ℤ) {t : Server}
    (h : Underway lines files s) (hrun : readTracks c fuel last n i s = some t) :
    Underway lines files t := by
  induction n generalizing i s with
  | zero =>
    cases hrun
    exact h
  | succ n ih =>
    rw [readTracks_succ] at hrun
    cases hsides : readSides c fuel i (iterations c.params.start_side c.params.max_side)
        c.params.start_side s with
    | none => simp [hsides] at hrun
    | some r =>
      obtain ⟨go, u⟩ := r
      have hu := readSides_underway fuel i _ _ h hsides
      rw [hsides] at hrun
      cases go with
      | false =>
        cases hrun
        exact hu
      | true =>
        apply ih (i+1) _ hrun
        unfold nextTrack
        split
        · exact hu.floppyCtrlMoveHead _ _
        · exact hu

/-- The search for track 0 writes registers only. -/
theorem calibrate_regs (at_track00 : ℕ → Bool) (n i : ℕ) (s : Server) :
    ∃ regs, (calibrate at_track00 n i s).2 = { s with regs := regs } := by
  induction n generalizing i s with
  | zero => exact ⟨s.regs,rfl⟩
  | succ n ih =>
    rw [calibrate]
    split_ifs
    · exact ⟨s.regs,rfl⟩
    · exact ih (i+1) (s.floppyCtrlMoveHead false 1)

theorem steps_regs (n : ℕ) (s : Server) :
    ∃ regs, (Server.floppyCtrlMoveHead true 1)^[n] s = { s with regs := regs } := by
  induction n generalizing s with
  | zero => exact ⟨s.regs,rfl⟩
  | succ n ih => exact ih (s.floppyCtrlMoveHead true 1)

theorem seek_regs (c : Call) (s : Server) : ∃ regs, (seek c s).2 = { s with regs := regs } := by
  unfold seek
  obtain ⟨regs, hcal⟩ := calibrate_regs c.at_track00 (if c.apple_mode then 80 else 160) 0 s
  generalize calibrate c.at_track00 (if c.apple_mode then 80 else 160) 0 s = r at hcal
  obtain ⟨i, t⟩ := r
  have ht : t = { s with regs := regs } := hcal
  split_ifs
  · simp only [ht]
    split_ifs
    · exact ⟨regs,rfl⟩
    · exact steps_regs _ { s with regs := regs }
  · exact ⟨s.regs,rfl⟩

/-! ## The lines are deasserted -/

theorem setLine_off (l : Line) (s : Server) : l.Off (s.setLine l false) := by
  simp only [Line.Off, Server.setLine, Server.modify, Bool.false_eq_true, if_false,
    Function.update_self, BitVec.and_assoc]
  rw [BitVec.and_comm _ l.bit_mask, BitVec.and_not_self]
  exact BitVec.and_zero

/-- To deassert a line asserts no other. -/
theorem Line.Off.setLine {l : Line} (h : l.Off s) (m : Line) : l.Off (s.setLine m false) := by
  by_cases hreg : l.reg_number = m.reg_number
  · unfold Line.Off at h ⊢
    simp only [Server.setLine, Server.modify, Bool.false_eq_true, if_false, hreg,
      Function.update_self]
    rw [hreg] at h
    rw [BitVec.and_assoc, BitVec.and_comm _ l.bit_mask, ← BitVec.and_assoc, h, BitVec.zero_and]
  · simpa only [Line.Off, Server.setLine, Server.modify, Bool.false_eq_true, if_false,
      Function.update_of_ne hreg] using h

theorem Line.Off.sound {l : Line} (h : l.Off s) : l.Off s.sound := by
  by_cases hreg : l.reg_number = sound_period
  · simp only [Line.Off, Server.sound, Server.modify, hreg, Function.update_self,
      BitVec.zero_and]
  · simpa only [Line.Off, Server.sound, Server.modify, Function.update_of_ne hreg] using h

/-! ## The end of a call -/

theorem Underway.freeDumpBuffer (h : Underway lines files s) :
    s.freeDumpBuffer.dump_buffer = .null ∧ s.freeDumpBuffer.mappings = [] ∧
      s.freeDumpBuffer.files = files ∧ s.freeDumpBuffer.asserted = s.asserted := by
  unfold Server.freeDumpBuffer
  obtain ⟨hnone, hno⟩ | ⟨a, ha, hone⟩ := h.mapped
  · cases hb : s.dump_buffer with
    | null => exact ⟨hb,hnone,h.opened,rfl⟩
    | map_failed => exact ⟨rfl,hnone,h.opened,rfl⟩
    | address a => exact absurd hb (hno a)
  · simp only [ha]
    exact ⟨trivial,by rw [hone, List.erase_cons_head],h.opened,trivial⟩

def Drive.all (d : Drive) : List Line := [d.sel,d.mot,d.headload]

theorem Quiet.underway (h : Quiet s) (running : Bool) :
    Underway [] [] { s with dump_running := running, asserted := [] } where
  mapped := Or.inl ⟨h.unmapped,fun a ha => by cases h.buffer_null.symm.trans ha⟩
  opened := h.closed
  known := fun _ hl => absurd hl List.not_mem_nil

theorem Quiet.modify (h : Quiet s) (r : ℕ) (f : BitVec 32 → BitVec 32) : Quiet (s.modify r f) :=
  ⟨h.buffer_null,h.unmapped,h.closed⟩

/-- Behind `readstop` every line of the drive is off. -/
theorem deasserted_all (d : Drive) (s : Server) :
    ∀ l ∈ d.all, l.Off ((((if d.headload.bit_mask ≠ 0 then s.floppyCtrlHeadload d false
      else s).floppyCtrlSelectDrive d false).floppyCtrlMotor d false).sound) := by
  have hhead : d.headload.Off
      (if d.headload.bit_mask ≠ 0 then s.floppyCtrlHeadload d false else s) := by
    split_ifs with hmask
    · exact setLine_off _ _
    · rw [Line.Off, not_not.mp hmask]
      exact BitVec.and_zero
  intro l hl
  simp only [Drive.all, List.mem_cons, List.not_mem_nil, or_false] at hl
  apply Line.Off.sound
  obtain rfl | rfl | rfl := hl
  · exact (setLine_off _ _).setLine _
  · exact setLine_off _ _
  · exact (hhead.setLine _).setLine _

/-- Of all that is left, only registers change behind `readstop`. -/
theorem Quiet.readstop (h : Quiet s) (d : Drive) :
    Quiet (((if d.headload.bit_mask ≠ 0 then s.floppyCtrlHeadload d false
      else s).floppyCtrlSelectDrive d false).floppyCtrlMotor d false).sound := by
  split_ifs
  · exact ⟨h.buffer_null,h.unmapped,h.closed⟩
  · exact ⟨h.buffer_null,h.unmapped,h.closed⟩

theorem readstop_kept (d : Drive) (s : Server) :
    let t := (((if d.headload.bit_mask ≠ 0 then s.floppyCtrlHeadload d false
      else s).floppyCtrlSelectDrive d false).floppyCtrlMotor d false).sound
    t.asserted = s.asserted ∧ t.dump_running = s.dump_running := by
  split_ifs
  · exact ⟨rfl,rfl⟩
  · exact ⟨rfl,rfl⟩

structure Ended (c : Call) (s : Server) : Prop extends Quiet s where
  not_running : s.dump_running = false
  deasserted : c.spy = false → ∀ l ∈ s.asserted, l.Off s

theorem readAll_ended (fuel : ℕ) (tracks : ℤ × ℤ) {r : ℤ} {t : Server}
    (h : Underway c.drive.all [] s) (hrun : readAll c fuel tracks s = some (r,t)) :
    Ended c t := by
  have hhead : Underway c.drive.all [] (if c.drive.headload.bit_mask ≠ 0 then
      s.floppyCtrlHeadload c.drive true else s) := by
    split_ifs
    · exact h.setLine (by simp [Drive.all]) true
    · exact h
  unfold readAll at hrun
  obtain ⟨u, hu, ht⟩ := Option.map_eq_some_iff.mp hrun
  have hend := readTracks_underway fuel _ _ _ hhead hu
  obtain ⟨hnull, hmap, hfiles, hasserted⟩ := hend.freeDumpBuffer
  have hquiet : Quiet { u.freeDumpBuffer with dump_running := false } := ⟨hnull,hmap,hfiles⟩
  obtain ⟨-, rfl⟩ := Prod.mk.inj ht
  cases hspy : c.spy with
  | true => exact ⟨hquiet.modify _ _,rfl,fun h => by cases hspy.symm.trans h⟩
  | false =>
    simp only [Bool.false_eq_true, if_false]
    obtain ⟨hsame, hrunning⟩ := readstop_kept c.drive
      { u.freeDumpBuffer with dump_running := false }
    refine ⟨hquiet.readstop c.drive,hrunning,fun _ l hl => ?_⟩
    apply deasserted_all
    rw [hsame] at hl
    exact hend.known l (hasserted ▸ hl)

/-- Without track 0 the select line and the motor line are put off. -/
theorem calibration_failed_ended (h : Quiet s) (hknown : ∀ l ∈ s.asserted, l = c.drive.sel ∨
    l = c.drive.mot) :
    Ended c { (s.floppyCtrlSelectDrive c.drive false).floppyCtrlMotor c.drive false with
      dump_running := false }.sound := by
  refine ⟨⟨h.buffer_null,h.unmapped,h.closed⟩,rfl,fun _ l hl => ?_⟩
  apply Line.Off.sound
  obtain rfl | rfl := hknown l hl
  · exact (setLine_off _ _).setLine _
  · exact setLine_off _ _

theorem readdisk_ended (fuel : ℕ) {r : ℤ} {t : Server} (h : Quiet s)
    (hrun : readdisk fuel c s = some (r,t)) : Ended c t := by
  have hstart := h.underway true
  unfold readdisk at hrun
  cases hspy : c.spy with
  | true =>
    simp only [hspy, if_true] at hrun
    exact readAll_ended fuel _ (hstart.mono (List.nil_subset _)) hrun
  | false =>
    simp only [hspy, Bool.false_eq_true, if_false] at hrun
    by_cases hfolder : c.prepare_folder < 0
    · rw [if_pos hfolder] at hrun
      cases hrun
      exact ⟨⟨h.buffer_null,h.unmapped,h.closed⟩,rfl,fun _ l hl => absurd hl List.not_mem_nil⟩
    · rw [if_neg hfolder] at hrun
      generalize hasked : (({ s with dump_running := true, asserted := [] }.sound.floppyCtrlMotor
        c.drive true).floppyCtrlSelectDrive c.drive true) = u at hrun
      have hu : Quiet u ∧ u.asserted = [c.drive.sel,c.drive.mot] := by
        subst hasked
        exact ⟨⟨h.buffer_null,h.unmapped,h.closed⟩,rfl⟩
      obtain ⟨hquiet, hasserted⟩ := hu
      obtain ⟨regs, hregs⟩ := seek_regs c u
      generalize seek c u = sought at hrun hregs
      obtain ⟨tracks, v⟩ := sought
      obtain rfl : v = { u with regs := regs } := hregs
      cases tracks with
      | none =>
        have hv : Quiet { u with regs := regs } :=
          ⟨hquiet.buffer_null,hquiet.unmapped,hquiet.closed⟩
        cases hrun
        exact calibration_failed_ended hv (by simp [hasserted])
      | some tracks =>
        have hv : Underway c.drive.all [] { u with regs := regs } :=
          ⟨Or.inl ⟨hquiet.unmapped,fun a ha => by cases hquiet.buffer_null.symm.trans ha⟩,
            hquiet.closed,by simp [hasserted, Drive.all]⟩
        exact readAll_ended fuel tracks hv hrun

theorem Idle.quiet (h : Idle s) : Quiet s := by
  induction h with
  | startup fpga regs => exact ⟨rfl,rfl,rfl⟩
  | command s fpga regs _ ih => exact ⟨ih.buffer_null,ih.unmapped,ih.closed⟩
  | dump fuel c s t r _ hrun ih => exact (readdisk_ended fuel ih hrun).toQuiet

/-! ## A dump returns -/

def Call.Timed (c : Call) : Prop :=
  ∀ i j, ¬NoBytes (c.dump_time_per_track i j) c.high_res_mode

theorem readSide_returns (h : c.Timed) {fuel : ℕ} (hf : 2^32 ≤ fuel) (i j : ℤ) (s : Server) :
    ∃ r, readSide c fuel i j s = some r := by
  have hsize : programmedSize (c.dump_time_per_track i j) c.high_res_mode ≠ 0 :=
    mt (programmedSize_zero_iff _ _).mp (h i j)
  obtain ⟨h16, hlt⟩ := programmedSize_sixteen (c.dump_time_per_track i j) c.high_res_mode
  unfold readSide
  generalize programmedSize (c.dump_time_per_track i j) c.high_res_mode = size at hsize h16 hlt
  simp only
  generalize Server.startDump c (c.mmap i j) size _ = u
  obtain ⟨flags, hrun, -⟩ := turns_end (c.capture i j) (by omega) hlt fuel 0
    (startTrack u.captureState size) rfl ((Nat.sub_le _ _).trans_lt (hlt.trans_le hf))
  rw [hrun]
  exact ⟨_,rfl⟩

theorem readSides_returns (h : c.Timed) {fuel : ℕ} (hf : 2^32 ≤ fuel) (i : ℤ) (n : ℕ)
    (j : ℤ) (s : Server) :
    ∃ r, readSides c fuel i n j s = some r := by
  induction n generalizing j s with
  | zero => exact ⟨_,rfl⟩
  | succ n ih =>
    rw [readSides_succ]
    split
    · exact ⟨_,rfl⟩
    · obtain ⟨⟨failed, u⟩, hside⟩ := readSide_returns h hf i j s
      rw [hside]
      cases failed with
      | true => exact ⟨_,rfl⟩
      | false => exact ih (j+1) u

theorem readTracks_returns (h : c.Timed) {fuel : ℕ} (hf : 2^32 ≤ fuel) (last : ℤ) (n : ℕ)
    (i : ℤ) (s : Server) :
    ∃ t, readTracks c fuel last n i s = some t := by
  induction n generalizing i s with
  | zero => exact ⟨_,rfl⟩
  | succ n ih =>
    obtain ⟨⟨go, u⟩, hsides⟩ := readSides_returns h hf i
      (iterations c.params.start_side c.params.max_side) c.params.start_side s
    rw [readTracks_succ, hsides]
    cases go with
    | false => exact ⟨_,rfl⟩
    | true => exact ih (i+1) _

theorem readAll_returns (h : c.Timed) {fuel : ℕ} (hf : 2^32 ≤ fuel) (tracks : ℤ × ℤ) (s : Server) :
    ∃ r, readAll c fuel tracks s = some r := by
  unfold readAll
  obtain ⟨t, ht⟩ := readTracks_returns h hf (clampTrack c.drive.max_steps tracks.2)
    (iterations tracks.1 (clampTrack c.drive.max_steps tracks.2)) tracks.1
    (if c.drive.headload.bit_mask ≠ 0 then s.floppyCtrlHeadload c.drive true else s)
  simp only [ht]
  exact ⟨_,rfl⟩

theorem readdisk_returns (h : c.Timed) {fuel : ℕ} (hf : 2^32 ≤ fuel) (s : Server) :
    ∃ r, readdisk fuel c s = some r := by
  unfold readdisk
  cases c.spy with
  | true => exact readAll_returns h hf _ _
  | false =>
    simp only [Bool.false_eq_true, if_false]
    split
    · exact ⟨_,rfl⟩
    · split
      · exact ⟨_,rfl⟩
      · exact readAll_returns h hf _ _

/-! ## The state a dump leaves -/

/-- However a dump ends, it runs no more, its mapping and its files are gone
and the lines it has asserted are off. Unless a dump time programs an empty buffer,
it ends. -/
theorem readdisk_released (c : Call) (s : Server) (h : Idle s) (hspy : c.spy = false) :
    (∀ fuel r t, readdisk fuel c s = some (r,t) → Released t) ∧
      (c.Timed → ∀ fuel, 2^32 ≤ fuel → ∃ r t, readdisk fuel c s = some (r,t)) := by
  constructor
  · intro fuel r t hrun
    obtain ⟨hquiet, hrunning, hlines⟩ := readdisk_ended fuel h.quiet hrun
    exact ⟨hquiet,hrunning,hlines hspy⟩
  · intro htimed fuel hfuel
    obtain ⟨⟨r, t⟩, hrun⟩ := readdisk_returns htimed hfuel s
    exact ⟨r,t,hrun⟩

def noIndex : Call where
  drive := ⟨⟨82,0⟩,⟨0x23,0x1⟩,⟨0x23,0x10⟩,⟨0x43,0x4⟩⟩
  params := ⟨0,0,0,0,false⟩
  high_res_mode := false
  ignore_index := false
  spy := false
  prepare_folder := 0
  apple_mode := false
  at_track00 := fun _ => true
  index_to_dump_delay := 0
  dump_time_per_track := fun _ _ => 800
  stop_process := fun _ _ => false
  fopen := fun _ _ => true
  mmap := fun _ _ => some 4096
  capture := fun _ _ _ => ⟨fun _ => true,0x20,fun _ => 0⟩

theorem readdisk_released_no_index :
    (∃ t, readdisk 2 noIndex (startup blankDump fun _ => 0) = some (0,t) ∧ Released t) ∧
      ∃ r t, readdisk (2^32) noIndex (startup blankDump fun _ => 0) = some (r,t) := by
  obtain ⟨hends, hreturns⟩ :=
    readdisk_released noIndex _ (.startup blankDump fun _ => 0) rfl
  have htimed : ¬NoBytes 800 false := by decide
  have hzero : (readdisk 2 noIndex (startup blankDump fun _ => 0)).map (·.1) = some 0 := by
    decide +kernel
  obtain ⟨⟨r, t⟩, hrun, rfl⟩ := Option.map_eq_some_iff.mp hzero
  exact ⟨⟨t,hrun,hends 2 0 t hrun⟩,hreturns (fun _ _ => htimed) (2^32) (Nat.le_refl _)⟩

end Pauline.DumpCleanup
