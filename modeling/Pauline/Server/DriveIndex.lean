import Pauline.Library.Logging
import Pauline.Control.ReadDisk
import Pauline.Server.Replies

/-!
# The number of a drive

A drive number of a command line goes down to the arrays of `fpga_state`, which
have `MAX_DRIVES` entries. The functions compare it with both bounds, with the
upper one, or not at all.
-/

set_option autoImplicit false

namespace Pauline.DriveIndex
open Pauline.CommandLine Pauline.DriveConfig Pauline.Replies
open Pauline.HeadStepper (Outcome iterations sideLoop trackLoop)
open Logging

/-! ## The arrays -/

def maxDrives : ℤ := 16

inductive Line where
  | sel | mot | headload | x68000_opt_sel
deriving DecidableEq

inductive Field where
  | reg_number (line : Line)
  | bit_mask (line : Line)
  | drive_max_steps
  | drive_current_head_position
  | drive_type
  | drive_config
deriving DecidableEq

def Field.size : Field → ℤ
  | .drive_config => 4
  | _ => maxDrives

structure Access where
  field : Field
  index : ℤ
deriving DecidableEq

def Access.InBounds (a : Access) : Prop := 0 ≤ a.index ∧ a.index < a.field.size

instance (a : Access) : Decidable a.InBounds := inferInstanceAs (Decidable (_ ∧ _))

/-- The arrays, with what is read outside of them, and the readings to come of the
track 0 line and of the stepper phases. -/
structure Board where
  array : Field → ℤ → ℤ
  at_track00 : ℕ → Bool
  phase : ℕ → Bool

abbrev Fpga := Logging Board Access

def load (field : Field) (index : ℤ) : Fpga ℤ := do
  write ⟨field,index⟩
  act fun b => (b.array field index,b)

def store (field : Field) (index value : ℤ) : Fpga Unit := do
  write ⟨field,index⟩
  act fun b => ((),{ b with
    array := Function.update b.array field (Function.update (b.array field) index value) })

def readTrack00 : Fpga Bool :=
  act fun b => (b.at_track00 0,{ b with at_track00 := fun k => b.at_track00 (k+1) })

def readPhase : Fpga Bool :=
  act fun b => (b.phase 0,{ b with phase := fun k => b.phase (k+1) })

/-! ## The functions of the core -/

def genericMode : ℤ := 0
def appleIIMode : ℤ := 1

def floppyHeadAtTrack00 (drive : ℤ) : Fpga Bool := do
  let _ ← load .drive_type drive
  readTrack00

def setLine (line : Line) (drive : ℤ) : Fpga Unit := do
  let _ ← load (.reg_number line) drive
  let _ ← load (.bit_mask line) drive
  pure ()

def floppyCtrlSelectDrive (drive : ℤ) : Fpga Unit :=
  if maxDrives ≤ drive then pure () else setLine .sel drive

def floppyCtrlX68000OptionSelectDrive (drive : ℤ) : Fpga Unit :=
  if maxDrives ≤ drive then pure () else setLine .x68000_opt_sel drive

def floppyCtrlX68000Eject (drive : ℤ) : Fpga Unit := do
  let mode ← load .drive_type drive
  if mode = genericMode then
    floppyCtrlX68000OptionSelectDrive drive
    floppyCtrlX68000OptionSelectDrive drive
  else pure ()

def floppyCtrlMotor (drive : ℤ) : Fpga Unit :=
  if maxDrives ≤ drive then pure ()
  else do
    let mode ← load .drive_type drive
    if mode = genericMode ∨ mode = appleIIMode then setLine .mot drive else pure ()

def floppyCtrlHeadload (drive : ℤ) : Fpga Unit :=
  if maxDrives ≤ drive then pure ()
  else do
    let mode ← load .drive_type drive
    if mode = genericMode then setLine .headload drive else pure ()

def floppyCtrlSide (drive : ℤ) : Fpga Unit := do
  let _ ← load .drive_type drive
  pure ()

def ifDrive (drive : ℤ) (m : Fpga Unit) : Fpga Unit :=
  if 0 ≤ drive ∧ drive < maxDrives then m else pure ()

def zeroPosition (drive : ℤ) : Fpga Unit := store .drive_current_head_position drive 0

def zeroAtTrack00 (drive : ℤ) : Fpga Unit := do
  let home ← floppyHeadAtTrack00 drive
  if home then zeroPosition drive else pure ()

def countSteps (dir : Bool) (trk drive : ℤ) : Fpga Unit := do
  let position ← load .drive_current_head_position drive
  if dir then store .drive_current_head_position drive (position + trk % 512)
  else if trk < position then store .drive_current_head_position drive (position - trk % 512)
  else zeroPosition drive

def floppyCtrlMoveHead (dir : Bool) (trk drive : ℤ) : Fpga Unit := do
  ifDrive drive (zeroAtTrack00 drive)
  let _ ← load .drive_type drive
  ifDrive drive (countSteps dir trk drive)

def seekTrack00 (drive : ℤ) : ℕ → ℕ → Fpga ℕ
  | 0, i => do
    let _ ← floppyHeadAtTrack00 drive
    pure i
  | limit+1, i => do
    let home ← floppyHeadAtTrack00 drive
    if home then pure i
    else
      floppyCtrlMoveHead false 1 drive
      seekTrack00 drive limit (i+1)

def seekPhase0 (drive : ℤ) : ℕ → Fpga Unit
  | 0 => pure ()
  | limit+1 => do
    let phase ← readPhase
    if phase then
      floppyCtrlMoveHead false 1 drive
      seekPhase0 drive limit
    else pure ()

def floppyHeadRecalibrate (apple_mode : Bool) (drive : ℤ) : Fpga ℤ := do
  let i ← seekTrack00 drive 100 0
  if apple_mode then
    seekPhase0 drive 4
    ifDrive drive (zeroPosition drive)
    pure 0
  else if 100 ≤ i then pure (-1)
  else
    ifDrive drive (zeroPosition drive)
    times 4 (floppyCtrlMoveHead true 1 drive)
    let home ← floppyHeadAtTrack00 drive
    if home then pure (-2)
    else
      let i ← seekTrack00 drive 5 0
      if 5 ≤ i then pure (-3)
      else
        ifDrive drive (zeroPosition drive)
        pure 0

def setDriveConfig (drive : BitVec 32) : Fpga Unit := do
  let config ← load .drive_config (unit drive).toNat
  store .drive_config (unit drive).toNat config

def resetFpga (drives_interface_mode : ℤ) : ℕ → Fpga Unit
  | 0 => pure ()
  | n+1 => do
    resetFpga drives_interface_mode n
    store .drive_type n drives_interface_mode

def clampTrack (drive track : ℤ) : Fpga ℤ := do
  let steps ← load .drive_max_steps drive
  if steps < track then
    let _ ← load .drive_max_steps drive
    load .drive_max_steps drive
  else pure track

/-! ## A dump -/

structure World where
  dump_running : Bool
  dump_drive : BitVec 32
  /-- At the end of a command that moves the head. -/
  still_running : Bool
  apple_mode : Bool
  drives_interface_mode : ℤ
  execScriptFile : ℤ
  pthread_create : ℤ
  prepare_folder : ℤ
  outcome : ℤ → ℤ → Outcome

section Dump
variable (w : World) (drive : ℤ)

def readSide (i j : ℤ) : Fpga Bool :=
  match w.outcome i j with
  | .stopped => pure false
  | .read => do
    floppyCtrlSide drive
    pure true
  | .failed => do
    floppyCtrlSide drive
    pure false

def nextTrack (line : Text) (last i : ℤ) : Fpga Unit :=
  if i < last ∧ arg line 9 = 0 then
    floppyCtrlMoveHead true (if arg line 7 ≠ 0 then 2 else 1) drive
  else pure ()

def readTracks (line : Text) (last : ℤ) : ℕ → ℤ → Fpga Unit :=
  trackLoop
    (fun i => sideLoop (readSide w drive i) (iterations (arg line 4).toInt (arg line 5).toInt)
      (arg line 4).toInt)
    (nextTrack drive line last)

def headload : Fpga Unit := do
  let mask ← load (.bit_mask .headload) drive
  if mask ≠ 0 then floppyCtrlHeadload drive else pure ()

def dumpTracks (line : Text) (first last : ℤ) : Fpga Unit := do
  let last ← clampTrack drive last
  headload drive
  readTracks w drive line last (iterations first last) first
  if arg line 9 = 0 then
    headload drive
    floppyCtrlSelectDrive drive
    floppyCtrlMotor drive
  else pure ()

def dumpHere (line : Text) : Fpga Unit := do
  let position ← load .drive_current_head_position drive
  let track := tracks (arg line 7) (BitVec.ofInt 32 position)
  dumpTracks w drive line track track

def readdisk (line : Text) : Fpga Unit :=
  if arg line 9 = 0 then
    if w.prepare_folder < 0 then pure ()
    else do
      floppyCtrlMotor drive
      floppyCtrlSelectDrive drive
      if (arg line 2).toInt ≠ -1 then
        let i ← seekTrack00 drive (if w.apple_mode then 80 else 160) 0
        if 160 ≤ i then
          floppyCtrlSelectDrive drive
          floppyCtrlMotor drive
        else
          times (arg line 2).toInt.toNat (floppyCtrlMoveHead true 1 drive)
          dumpTracks w drive line (arg line 2).toInt (arg line 3).toInt
      else dumpHere w drive line
  else dumpHere w drive line

end Dump

/-! ## The commands -/

section Commands
variable (w : World) (line : Text)

def Busy : Prop := w.dump_running = true ∧ w.dump_drive ≠ arg line 1

instance : Decidable (Busy w line) := inferInstanceAs (Decidable (_ ∧ _))

def deselect (drive : ℤ) : Fpga Unit :=
  if w.still_running then pure () else floppyCtrlSelectDrive drive

def cmdHeadstep : Fpga Unit :=
  let drive := (arg line 1).toInt
  let track := (arg line 2).toInt
  if given 2 line ∧ ¬Busy w line then do
    let position ← load .drive_current_head_position drive
    let steps ← load .drive_max_steps drive
    if steps ≤ tracks (arg line 3) (BitVec.ofInt 32 position) ∧ 0 < track then
      let _ ← load .drive_max_steps drive
      pure ()
    else
      floppyCtrlSelectDrive drive
      times (if arg line 3 ≠ 0 then 2 else 1) (floppyCtrlMoveHead (0 ≤ track) |track| drive)
      zeroAtTrack00 drive
      deselect w drive
  else pure ()

def cmdMovehead : Fpga Unit :=
  let drive := (arg line 1).toInt
  let track := (arg line 2).toInt
  if given 2 line ∧ ¬Busy w line then do
    let position ← load .drive_current_head_position drive
    let cur_track := tracks (arg line 3) (BitVec.ofInt 32 position)
    let track ← clampTrack drive track
    floppyCtrlSelectDrive drive
    times (|track - cur_track| * (if arg line 3 ≠ 0 then 2 else 1)).toNat do
      floppyCtrlMoveHead (cur_track < track) 1 drive
      zeroAtTrack00 drive
    deselect w drive
  else pure ()

def cmdRecalibrate : Fpga Unit :=
  let drive := (arg line 1).toInt
  if given 1 line then do
    floppyCtrlSelectDrive drive
    let ret ← floppyHeadRecalibrate w.apple_mode drive
    if ret < 0 then floppyCtrlSelectDrive drive else deselect w drive
  else pure ()

def cmdEjectdisk : Fpga Unit :=
  if given 1 line then floppyCtrlX68000Eject (arg line 1).toInt else pure ()

def cmdDump : Fpga Unit :=
  if given 9 line ∧ w.dump_running = false ∧ w.pthread_create = 0 then
    readdisk w (arg line 1).toInt line
  else pure ()

def cmdReloadConfig : Fpga Unit :=
  if w.execScriptFile < 0 then pure () else resetFpga w.drives_interface_mode 16

/-- The commands of the emulated drives; `fe_motsrc` takes the second parameter as
the drive. -/
def cmdDriveConfig (k : ℕ) : Fpga Unit :=
  if given 2 line then setDriveConfig (arg line k) else pure ()

def executeLine : Fpga Unit :=
  match command line with
  | some .headstep => cmdHeadstep w line
  | some .movehead => cmdMovehead w line
  | some .recalibrate => cmdRecalibrate w line
  | some .ejectdisk => cmdEjectdisk line
  | some .dump => cmdDump w line
  | some .reset => resetFpga w.drives_interface_mode 16
  | some .reloadcfg => cmdReloadConfig w
  | some .fe_writeprotect | some .fe_selsrc | some .fe_pin02mode | some .fe_pin34mode =>
    cmdDriveConfig line 1
  | some .fe_motsrc => cmdDriveConfig line 2
  | _ => pure ()

end Commands

def autodetect (w : World) : Fpga Unit :=
  times 5 do
    let _ ← floppyHeadRecalibrate w.apple_mode (-1)
    pure ()

inductive Entry where
  | line (line : Text)
  | autodetect

def run (w : World) : Entry → Fpga Unit
  | .line line => executeLine w line
  | .autodetect => autodetect w

/-! ## What is asked -/

def InBounds (w : World) (e : Entry) (b : Board) : Prop := ∀ a ∈ (run w e).log b, a.InBounds

def IsDrive (d : BitVec 32) : Prop := 0 ≤ d.toInt ∧ d.toInt < maxDrives

def Starts (w : World) (line : Text) : Prop :=
  w.dump_running = false ∧ w.pthread_create = 0 ∧ (arg line 9 = 0 → 0 ≤ w.prepare_folder)

def ProperLine (w : World) (line : Text) : Prop :=
  match command line with
  | some .headstep | some .movehead => given 2 line → ¬Busy w line → IsDrive (arg line 1)
  | some .recalibrate | some .ejectdisk => given 1 line → IsDrive (arg line 1)
  | some .dump => given 9 line → Starts w line → IsDrive (arg line 1)
  | _ => True

def Proper (w : World) : Entry → Prop
  | .autodetect => False
  | .line line => ProperLine w line

/-! ## One drive -/

structure Of (drive : ℤ) (a : Access) : Prop where
  index : a.index = drive
  size : a.field.size = maxDrives

theorem Of.inBounds {drive : ℤ} {a : Access} (h : Of drive a) :
    a.InBounds ↔ 0 ≤ drive ∧ drive < maxDrives := by
  rw [Access.InBounds, h.index, h.size]

theorem load_only {p : Access → Prop} {field : Field} {index : ℤ} (h : p ⟨field,index⟩) :
    Only p (load field index) := (only_write h).bind fun _ => only_act _

theorem store_only {p : Access → Prop} {field : Field} {index value : ℤ} (h : p ⟨field,index⟩) :
    Only p (store field index value) := (only_write h).bind fun _ => only_act _

theorem load_always {p : Access → Prop} {field : Field} {index : ℤ} (h : p ⟨field,index⟩) :
    Always p (load field index) := (always_write h).first _

section Only
variable (drive : ℤ)

theorem loaded {field : Field} (h : field.size = maxDrives) : Only (Of drive) (load field drive) :=
  load_only ⟨rfl,h⟩

theorem stored {field : Field} (h : field.size = maxDrives) (value : ℤ) :
    Only (Of drive) (store field drive value) := store_only ⟨rfl,h⟩

theorem floppyHeadAtTrack00_only : Only (Of drive) (floppyHeadAtTrack00 drive) :=
  (loaded drive rfl).bind fun _ => only_act _

theorem setLine_only (line : Line) : Only (Of drive) (setLine line drive) :=
  (loaded drive rfl).bind fun _ => (loaded drive rfl).bind fun _ => only_pure ()

theorem floppyCtrlSelectDrive_only : Only (Of drive) (floppyCtrlSelectDrive drive) :=
  (only_pure ()).ite (setLine_only drive .sel)

theorem floppyCtrlX68000OptionSelectDrive_only :
    Only (Of drive) (floppyCtrlX68000OptionSelectDrive drive) :=
  (only_pure ()).ite (setLine_only drive .x68000_opt_sel)

theorem floppyCtrlX68000Eject_only : Only (Of drive) (floppyCtrlX68000Eject drive) :=
  (loaded drive rfl).bind fun _ => ((floppyCtrlX68000OptionSelectDrive_only drive).bind fun _ =>
    floppyCtrlX68000OptionSelectDrive_only drive).ite (only_pure ())

theorem floppyCtrlMotor_only : Only (Of drive) (floppyCtrlMotor drive) :=
  (only_pure ()).ite ((loaded drive rfl).bind fun _ => (setLine_only drive .mot).ite (only_pure ()))

theorem floppyCtrlHeadload_only : Only (Of drive) (floppyCtrlHeadload drive) :=
  (only_pure ()).ite ((loaded drive rfl).bind fun _ =>
    (setLine_only drive .headload).ite (only_pure ()))

theorem floppyCtrlSide_only : Only (Of drive) (floppyCtrlSide drive) :=
  (loaded drive rfl).bind fun _ => only_pure ()

theorem ifDrive_only {m : Fpga Unit} (hm : Only (Of drive) m) : Only (Of drive) (ifDrive drive m) :=
  hm.ite (only_pure ())

theorem zeroPosition_only : Only (Of drive) (zeroPosition drive) := stored drive rfl 0

theorem countSteps_only (dir : Bool) (trk : ℤ) : Only (Of drive) (countSteps dir trk drive) :=
  (loaded drive rfl).bind fun _ => (stored drive rfl _).ite
    ((stored drive rfl _).ite (zeroPosition_only drive))

theorem zeroAtTrack00_only : Only (Of drive) (zeroAtTrack00 drive) :=
  (floppyHeadAtTrack00_only drive).bind fun _ => (zeroPosition_only drive).ite (only_pure ())

theorem floppyCtrlMoveHead_only (dir : Bool) (trk : ℤ) :
    Only (Of drive) (floppyCtrlMoveHead dir trk drive) :=
  (ifDrive_only drive (zeroAtTrack00_only drive)).bind fun _ => (loaded drive rfl).bind fun _ =>
    ifDrive_only drive (countSteps_only drive dir trk)

theorem seekTrack00_only (limit i : ℕ) : Only (Of drive) (seekTrack00 drive limit i) := by
  induction limit generalizing i with
  | zero => exact (floppyHeadAtTrack00_only drive).bind fun _ => only_pure i
  | succ limit ih =>
    exact (floppyHeadAtTrack00_only drive).bind fun _ => (only_pure i).ite
      ((floppyCtrlMoveHead_only drive false 1).bind fun _ => ih (i+1))

theorem seekPhase0_only (limit : ℕ) : Only (Of drive) (seekPhase0 drive limit) := by
  induction limit with
  | zero => exact only_pure ()
  | succ limit ih =>
    exact (only_act _).bind fun _ =>
      ((floppyCtrlMoveHead_only drive false 1).bind fun _ => ih).ite (only_pure ())

theorem floppyHeadRecalibrate_only (apple_mode : Bool) :
    Only (Of drive) (floppyHeadRecalibrate apple_mode drive) := by
  have hzero := ifDrive_only drive (zeroPosition_only drive)
  have hback : Only (Of drive) (do
      let i ← seekTrack00 drive 5 0
      if 5 ≤ i then pure (-3 : ℤ)
      else
        ifDrive drive (zeroPosition drive)
        pure 0) :=
    (seekTrack00_only drive 5 0).bind fun _ =>
      (only_pure _).ite (hzero.bind fun _ => only_pure _)
  refine (seekTrack00_only drive 100 0).bind fun i => Only.ite ?_ ((only_pure _).ite ?_)
  · exact (seekPhase0_only drive 4).bind fun _ => hzero.bind fun _ => only_pure _
  · exact hzero.bind fun _ => ((floppyCtrlMoveHead_only drive true 1).times 4).bind fun _ =>
      (floppyHeadAtTrack00_only drive).bind fun _ => (only_pure _).ite hback

theorem clampTrack_only (track : ℤ) : Only (Of drive) (clampTrack drive track) :=
  (loaded drive rfl).bind fun _ =>
    ((loaded drive rfl).bind fun _ => loaded drive rfl).ite (only_pure track)

section Dump
variable (w : World) (line : Text)

theorem readSide_only (i j : ℤ) : Only (Of drive) (readSide w drive i j) := by
  unfold readSide
  cases w.outcome i j with
  | stopped => exact only_pure false
  | read => exact (floppyCtrlSide_only drive).bind fun _ => only_pure true
  | failed => exact (floppyCtrlSide_only drive).bind fun _ => only_pure false

theorem readSides_only (i : ℤ) (n : ℕ) (j : ℤ) :
    Only (Of drive) (sideLoop (readSide w drive i) n j) := by
  induction n generalizing j with
  | zero => exact only_pure true
  | succ n ih => exact (readSide_only drive w i j).bind fun _ => (ih (j+1)).ite (only_pure false)

theorem nextTrack_only (last i : ℤ) : Only (Of drive) (nextTrack drive line last i) :=
  (floppyCtrlMoveHead_only drive true _).ite (only_pure ())

theorem readTracks_only (last : ℤ) (n : ℕ) (i : ℤ) :
    Only (Of drive) (readTracks w drive line last n i) := by
  induction n generalizing i with
  | zero => exact only_pure ()
  | succ n ih =>
    refine (readSides_only drive w i _ _).bind fun go => Only.ite ?_ (only_pure ())
    exact (nextTrack_only drive line last i).bind fun _ => ih (i+1)

theorem headload_only : Only (Of drive) (headload drive) :=
  (loaded drive rfl).bind fun _ => (floppyCtrlHeadload_only drive).ite (only_pure ())

theorem dumpTracks_only (first last : ℤ) : Only (Of drive) (dumpTracks w drive line first last) := by
  refine (clampTrack_only drive last).bind fun last => (headload_only drive).bind fun _ =>
    (readTracks_only drive w line last _ first).bind fun _ => Only.ite ?_ (only_pure ())
  exact (headload_only drive).bind fun _ => (floppyCtrlSelectDrive_only drive).bind fun _ =>
    floppyCtrlMotor_only drive

theorem dumpHere_only : Only (Of drive) (dumpHere w drive line) :=
  (loaded drive rfl).bind fun _ => dumpTracks_only drive w line _ _

theorem dumpHere_always : Always (Of drive) (dumpHere w drive line) :=
  (load_always ⟨rfl,rfl⟩).first _

theorem readdisk_only : Only (Of drive) (readdisk w drive line) := by
  refine Only.ite ((only_pure ()).ite ?_) (dumpHere_only drive w line)
  refine (floppyCtrlMotor_only drive).bind fun _ => (floppyCtrlSelectDrive_only drive).bind fun _ =>
    Only.ite ((seekTrack00_only drive _ 0).bind fun i => Only.ite ?_ ?_) (dumpHere_only drive w line)
  · exact (floppyCtrlSelectDrive_only drive).bind fun _ => floppyCtrlMotor_only drive
  · exact ((floppyCtrlMoveHead_only drive true 1).times _).bind fun _ =>
      dumpTracks_only drive w line _ _

theorem seekTrack00_always (limit i : ℕ) : Always (Of drive) (seekTrack00 drive limit i) := by
  have hfirst : Always (Of drive) (floppyHeadAtTrack00 drive) := (load_always ⟨rfl,rfl⟩).first _
  cases limit with
  | zero => exact hfirst.first _
  | succ limit => exact hfirst.first _

/-- A dump that comes to its drive uses its number. -/
theorem readdisk_always (h : arg line 9 = 0 → 0 ≤ w.prepare_folder) :
    Always (Of drive) (readdisk w drive line) := by
  unfold readdisk
  by_cases hspy : arg line 9 = 0
  · rw [if_pos hspy, if_neg (not_lt.mpr (h hspy))]
    refine Always.then fun _ => Always.then fun _ => Always.ite ?_ (dumpHere_always drive w line)
    exact (seekTrack00_always drive _ 0).first _
  · rw [if_neg hspy]
    exact dumpHere_always drive w line

end Dump

end Only

/-! ## The commands of a drive -/

/-- A command that uses the number whenever it does anything. -/
theorem guarded_iff {c : Prop} [Decidable c] {drive : ℤ} {m : Fpga Unit} (hm : Only (Of drive) m)
    (hm' : Always (Of drive) m) (b : Board) :
    (∀ a ∈ (if c then m else pure ()).log b, a.InBounds) ↔ (c → 0 ≤ drive ∧ drive < maxDrives) := by
  by_cases hc : c
  · rw [if_pos hc, only_iff_of_same hm hm' (fun a ha => ha.inBounds) b]
    exact ⟨fun h _ => h,fun h => h hc⟩
  · rw [if_neg hc]
    exact iff_of_true (only_pure () b) fun h => absurd h hc

section Commands
variable (w : World) (line : Text) (b : Board)

theorem deselect_only (drive : ℤ) : Only (Of drive) (deselect w drive) :=
  (only_pure ()).ite (floppyCtrlSelectDrive_only drive)

theorem cmdHeadstep_iff : (∀ a ∈ (cmdHeadstep w line).log b, a.InBounds) ↔
    (given 2 line → ¬Busy w line → IsDrive (arg line 1)) := by
  refine (guarded_iff ?_ ((load_always ⟨rfl,rfl⟩).first _) b).trans and_imp
  refine (loaded _ rfl).bind fun position => (loaded _ rfl).bind fun steps =>
    ((loaded _ rfl).bind fun _ => only_pure ()).ite ?_
  exact (floppyCtrlSelectDrive_only _).bind fun _ =>
    ((floppyCtrlMoveHead_only _ _ _).times _).bind fun _ =>
      (zeroAtTrack00_only _).bind fun _ => deselect_only w _

theorem cmdMovehead_iff : (∀ a ∈ (cmdMovehead w line).log b, a.InBounds) ↔
    (given 2 line → ¬Busy w line → IsDrive (arg line 1)) := by
  refine (guarded_iff ?_ ((load_always ⟨rfl,rfl⟩).first _) b).trans and_imp
  refine (loaded _ rfl).bind fun position => (clampTrack_only _ _).bind fun track =>
    (floppyCtrlSelectDrive_only _).bind fun _ => Only.bind (Only.times ?_ _) fun _ =>
      deselect_only w _
  exact (floppyCtrlMoveHead_only _ _ _).bind fun _ => zeroAtTrack00_only _

theorem cmdRecalibrate_iff : (∀ a ∈ (cmdRecalibrate w line).log b, a.InBounds) ↔
    (given 1 line → IsDrive (arg line 1)) := by
  refine guarded_iff ?_ (Always.then fun _ => ((seekTrack00_always _ _ 0).first _).first _) b
  exact (floppyCtrlSelectDrive_only _).bind fun _ =>
    (floppyHeadRecalibrate_only _ w.apple_mode).bind fun ret =>
      (floppyCtrlSelectDrive_only _).ite (deselect_only w _)

theorem cmdEjectdisk_iff : (∀ a ∈ (cmdEjectdisk line).log b, a.InBounds) ↔
    (given 1 line → IsDrive (arg line 1)) :=
  guarded_iff (floppyCtrlX68000Eject_only _) ((load_always ⟨rfl,rfl⟩).first _) b

theorem cmdDump_iff : (∀ a ∈ (cmdDump w line).log b, a.InBounds) ↔
    (given 9 line → Starts w line → IsDrive (arg line 1)) := by
  by_cases hfolder : arg line 9 = 0 → 0 ≤ w.prepare_folder
  · refine (guarded_iff (readdisk_only _ w line) (readdisk_always _ w line hfolder) b).trans ?_
    constructor
    · exact fun h hgiven hstarts => h ⟨hgiven,hstarts.1,hstarts.2.1⟩
    · exact fun h hc => h hc.1 ⟨hc.2.1,hc.2.2,hfolder⟩
  · refine iff_of_true ?_ fun _ hstarts => absurd hstarts.2.2 hfolder
    rw [Classical.not_imp, not_le] at hfolder
    refine Only.ite ?_ (only_pure ()) b
    rw [readdisk, if_pos hfolder.1, if_pos hfolder.2]
    exact only_pure ()

theorem resetFpga_only (mode : ℤ) {n : ℕ} (h : n ≤ 16) :
    Only Access.InBounds (resetFpga mode n) := by
  induction n with
  | zero => exact only_pure ()
  | succ n ih =>
    refine (ih (by omega)).bind fun _ => store_only ⟨Int.natCast_nonneg n,?_⟩
    show (n : ℤ) < 16
    omega

/-- The commands of the emulated drives take the number modulo 4. -/
theorem cmdDriveConfig_only (k : ℕ) : Only Access.InBounds (cmdDriveConfig line k) := by
  have hunit : Access.InBounds ⟨.drive_config,(unit (arg line k)).toNat⟩ := by
    have hlt := (unit (arg line k)).isLt
    refine ⟨Int.natCast_nonneg _,?_⟩
    show ((unit (arg line k)).toNat : ℤ) < 4
    omega
  exact Only.ite ((load_only hunit).bind fun _ => store_only hunit) (only_pure ())

theorem executeLine_iff :
    (∀ a ∈ (executeLine w line).log b, a.InBounds) ↔ ProperLine w line := by
  have hreset := resetFpga_only w.drives_interface_mode (le_refl 16)
  unfold executeLine ProperLine
  cases command line with
  | none => exact iff_of_true (only_pure () b) trivial
  | some c =>
    cases c with
    | headstep => exact cmdHeadstep_iff w line b
    | movehead => exact cmdMovehead_iff w line b
    | recalibrate => exact cmdRecalibrate_iff w line b
    | ejectdisk => exact cmdEjectdisk_iff line b
    | dump => exact cmdDump_iff w line b
    | reset => exact iff_of_true (hreset b) trivial
    | reloadcfg => exact iff_of_true ((only_pure ()).ite hreset b) trivial
    | fe_writeprotect => exact iff_of_true (cmdDriveConfig_only line 1 b) trivial
    | fe_selsrc => exact iff_of_true (cmdDriveConfig_only line 1 b) trivial
    | fe_pin02mode => exact iff_of_true (cmdDriveConfig_only line 1 b) trivial
    | fe_pin34mode => exact iff_of_true (cmdDriveConfig_only line 1 b) trivial
    | fe_motsrc => exact iff_of_true (cmdDriveConfig_only line 2 b) trivial
    | _ => exact iff_of_true (only_pure () b) trivial

end Commands

/-- No drive has the number -1. -/
theorem autodetect_outside (w : World) (b : Board) :
    ¬∀ a ∈ (autodetect w).log b, a.InBounds := fun h => by
  have halways : Always (Of (-1)) (autodetect w) :=
    ((((seekTrack00_always (-1) 100 0).first _).first _).first _)
  obtain ⟨a, ha, hof⟩ := halways b
  have hlow := (hof.inBounds.mp (h a ha)).1
  omega

/-- The indices are in bounds exactly when the numbers that reach the arrays are
those of drives. -/
theorem inBounds_iff (w : World) (e : Entry) (b : Board) : InBounds w e b ↔ Proper w e := by
  cases e with
  | line line => exact executeLine_iff w line b
  | autodetect => exact iff_of_false (autodetect_outside w b) id

def quiet : World where
  dump_running := false
  dump_drive := 0
  still_running := false
  apple_mode := false
  drives_interface_mode := genericMode
  execScriptFile := 0
  pthread_create := 0
  prepare_folder := 0
  outcome := fun _ _ => .read

/-- The number of a drive is not compared with the size of the arrays. -/
theorem recalibrate_outside : ∃ line : Text, ∀ b, ¬InBounds quiet (.line line) b := by
  refine ⟨"recalibrate 16".toList,fun b h => ?_⟩
  have hcommand : command "recalibrate 16".toList = some .recalibrate := by decide
  have hproper := (executeLine_iff quiet _ b).mp h
  rw [ProperLine, hcommand] at hproper
  exact absurd (hproper (by decide)).2 (by decide)

end Pauline.DriveIndex
