import Pauline.Library.Clocked
import Pauline.Library.Latch

/-!
# The status pins

Pin 2 and pin 34 of the emulated drive each show one of fourteen statuses. The
disk-change latches among them are specified by what has happened since the disk
was inserted, and the registers are proved to follow that.
-/

set_option autoImplicit false

namespace Pauline.PinStatus

/-! ## The circuit -/

structure StatusInput where
  tick_ms : Bool
  signal_config : BitVec 4
  disk_in_drive : Bool
  step_event : Bool
  ready_status : Bool
  density : Bool
  reset_dc : Bool

structure StatusSignal where
  disk_changed_0 : Bool
  disk_changed_1 : Bool
  disk_changed_2 : Bool
  disk_changed_3 : Bool
  timeout : BitVec 16
  signal_out : Bool

def StatusSignal.onReset : StatusSignal := ⟨true,true,true,true,0,false⟩

def StatusSignal.latches (i : StatusInput) (s : StatusSignal) : StatusSignal :=
  if !i.disk_in_drive then
    { s with
      disk_changed_0 := true
      disk_changed_1 := true
      disk_changed_2 := true
      disk_changed_3 := true
      timeout := 0 }
  else
    let n := if i.step_event then { s with disk_changed_0 := false, disk_changed_1 := false } else s
    let n :=
      if s.timeout > 3000 then { n with disk_changed_2 := false, disk_changed_1 := false }
      else if i.tick_ms then { n with timeout := s.timeout + 1 }
      else n
    if i.reset_dc then { n with disk_changed_3 := false } else n

/-- What the second process puts out. The configurations of the density show
whether there is a disk. -/
def StatusSignal.signalOut (i : StatusInput) (s : StatusSignal) : Bool :=
  match i.signal_config with
  | 0b0000#4 => true
  | 0b0001#4 => false
  | 0b0010#4 => i.ready_status
  | 0b0011#4 => !i.ready_status
  | 0b0100#4 => i.disk_in_drive
  | 0b0101#4 => !i.disk_in_drive
  | 0b0110#4 => s.disk_changed_0
  | 0b0111#4 => !s.disk_changed_0
  | 0b1000#4 => s.disk_changed_1
  | 0b1001#4 => !s.disk_changed_1
  | 0b1010#4 => s.disk_changed_2
  | 0b1011#4 => !s.disk_changed_2
  | 0b1100#4 => s.disk_changed_3
  | 0b1101#4 => !s.disk_changed_3
  | _ => false

def StatusSignal.step (i : StatusInput) (s : StatusSignal) : StatusSignal :=
  { s.latches i with signal_out := s.signalOut i }

def run (i : ℕ → StatusInput) : ℕ → StatusSignal :=
  Clocked.trace StatusSignal.step i StatusSignal.onReset

/-! ## The table -/

inductive Change where
  /-- Step only clear. -/
  | step
  /-- Step only, and timer. -/
  | step_timer
  | timer
  /-- `floppy_dc_reset` -/
  | dc_reset

inductive Status where
  | low
  | high
  | nReady
  | ready
  | nDensity
  | density
  | nDiskChanged (k : Change)
  | diskChanged (k : Change)

def table (signal_config : BitVec 4) : Option Status :=
  match signal_config with
  | 0b0000#4 => some .low
  | 0b0001#4 => some .high
  | 0b0010#4 => some .nReady
  | 0b0011#4 => some .ready
  | 0b0100#4 => some .nDensity
  | 0b0101#4 => some .density
  | 0b0110#4 => some (.nDiskChanged .step)
  | 0b0111#4 => some (.diskChanged .step)
  | 0b1000#4 => some (.nDiskChanged .step_timer)
  | 0b1001#4 => some (.diskChanged .step_timer)
  | 0b1010#4 => some (.nDiskChanged .timer)
  | 0b1011#4 => some (.diskChanged .timer)
  | 0b1100#4 => some (.nDiskChanged .dc_reset)
  | 0b1101#4 => some (.diskChanged .dc_reset)
  | _ => none

def Change.Event (i : StatusInput) (expired : Prop) : Change → Prop
  | .step => i.step_event = true
  | .step_timer => i.step_event = true ∨ expired
  | .timer => expired
  | .dc_reset => i.reset_dc = true

section Trace
variable (i : ℕ → StatusInput)

def InDrive (t : ℕ) : Prop := (i t).disk_in_drive = true

def Expired (t : ℕ) : Prop := Latch.Counted (InDrive i) (fun t => (i t).tick_ms = true) 3000 t

def Cleared (k : Change) (t : ℕ) : Prop :=
  Latch.Since (fun u => k.Event (i u) (Expired i u)) (InDrive i) t

def Status.High (t : ℕ) : Status → Prop
  | .low => False
  | .high => True
  | .nReady => (i t).ready_status = false
  | .ready => (i t).ready_status = true
  | .nDensity => (i t).density = false
  | .density => (i t).density = true
  | .nDiskChanged k => Cleared i k t
  | .diskChanged k => ¬ Cleared i k t

end Trace

def StatusSignal.changed (s : StatusSignal) : Change → Bool
  | .step => s.disk_changed_0
  | .step_timer => s.disk_changed_1
  | .timer => s.disk_changed_2
  | .dc_reset => s.disk_changed_3

/-- The latches are as the clocks before say, and after the next clock edge the
output, which drives the pin low, is as the table says. -/
structure Follows (i : ℕ → StatusInput) (t : ℕ) : Prop where
  latches : ∀ k, (run i t).changed k = false ↔ Cleared i k t
  output : ∀ m, table (i t).signal_config = some m →
    ((run i (t+1)).signal_out = true ↔ ¬ m.High i t)

/-! ## The latches -/

def StatusSignal.Timed (s : StatusSignal) : Prop := 3000 < s.timeout.toNat

theorem timed_lt (s : StatusSignal) : s.Timed ↔ 3000#16 < s.timeout := by
  rw [BitVec.lt_def]
  rfl

theorem changed_step (i : StatusInput) (s : StatusSignal) (k : Change) :
    (s.step i).changed k = false ↔
      i.disk_in_drive = true ∧ (k.Event i s.Timed ∨ s.changed k = false) := by
  rw [timed_lt]
  unfold StatusSignal.step StatusSignal.latches
  cases hd : i.disk_in_drive with
  | false => cases k <;> simp [StatusSignal.changed]
  | true =>
    by_cases ht : 3000#16 < s.timeout
    · cases k <;> cases hs : i.step_event <;> cases hr : i.reset_dc <;>
        simp [StatusSignal.changed, Change.Event, ht, hs, hr]
    · cases k <;> cases hs : i.step_event <;> cases hr : i.reset_dc <;> cases i.tick_ms <;>
        simp [StatusSignal.changed, Change.Event, ht, hs, hr]

theorem timeout_step (i : StatusInput) (s : StatusSignal) : (s.step i).timeout.toNat =
    if i.disk_in_drive then
      if 3000 < s.timeout.toNat then s.timeout.toNat
      else s.timeout.toNat + if i.tick_ms = true then 1 else 0
    else 0 := by
  have htimed := timed_lt s
  unfold StatusSignal.Timed at htimed
  unfold StatusSignal.step StatusSignal.latches
  cases hd : i.disk_in_drive with
  | false => rfl
  | true =>
    by_cases ht : 3000#16 < s.timeout
    · have hlt := htimed.mpr ht
      cases i.step_event <;> cases i.reset_dc <;> simp [ht, hlt]
    · have hle : ¬ 3000 < s.timeout.toNat := fun hlt => ht (htimed.mp hlt)
      have hone : (s.timeout + 1#16).toNat = s.timeout.toNat + 1 := by
        rw [BitVec.toNat_add, BitVec.toNat_ofNat]
        omega
      cases i.step_event <;> cases i.reset_dc <;> cases i.tick_ms <;> simp [ht, hle, hone]

variable (i : ℕ → StatusInput)

theorem expired_iff (t : ℕ) : (run i t).Timed ↔ Expired i t := by
  refine Latch.counted_iff (c := fun t => (run i t).timeout.toNat) rfl ?_ ?_ t
  · intro t ht
    have hout : (i t).disk_in_drive = false := by simpa [InDrive] using ht
    rw [run, Clocked.trace, timeout_step, hout]
    rfl
  · intro t ht
    have hin : (i t).disk_in_drive = true := ht
    rw [run, Clocked.trace, timeout_step, if_pos hin]

theorem cleared_iff (k : Change) (t : ℕ) : (run i t).changed k = false ↔ Cleared i k t := by
  refine Latch.low_iff (q := fun t => (run i t).changed k) (by cases k <;> rfl) ?_ t
  intro t
  rw [run, Clocked.trace, changed_step]
  have hexpired := expired_iff i t
  rw [run] at hexpired
  rw [propext hexpired]
  rfl

/-! ## The output -/

theorem config_cases (c : BitVec 4) : c = 0#4 ∨ c = 1#4 ∨ c = 2#4 ∨ c = 3#4 ∨ c = 4#4 ∨ c = 5#4 ∨
    c = 6#4 ∨ c = 7#4 ∨ c = 8#4 ∨ c = 9#4 ∨ c = 10#4 ∨ c = 11#4 ∨ c = 12#4 ∨ c = 13#4 ∨
    c = 14#4 ∨ c = 15#4 := by
  revert c
  decide

theorem output_iff (t : ℕ) :
    (∀ m, table (i t).signal_config = some m →
      ((run i (t+1)).signal_out = true ↔ ¬ m.High i t)) ↔
    ((i t).signal_config = 0b0100#4 ∨ (i t).signal_config = 0b0101#4 →
      (i t).density = (i t).disk_in_drive) := by
  have hout : (run i (t+1)).signal_out = (run i t).signalOut (i t) := rfl
  have hlatch : ∀ k, Cleared i k t ↔ (run i t).changed k = false := fun k =>
    (cleared_iff i k t).symm
  rw [hout, StatusSignal.signalOut]
  by_cases hdensity : (i t).signal_config = 0b0100#4 ∨ (i t).signal_config = 0b0101#4
  · cases hden : (i t).density <;> cases (i t).disk_in_drive <;> rcases hdensity with h | h <;>
      simp [h, hden, table, Status.High]
  · refine iff_of_true ?_ fun h => absurd h hdensity
    rcases config_cases (i t).signal_config with
      h | h | h | h | h | h | h | h | h | h | h | h | h | h | h | h <;>
      simp [h, table, Status.High, hlatch, StatusSignal.changed] at hdensity ⊢

/-- In every run and at every clock the pin follows the table if and only if the
density, where the pin is to show it, is that of a disk in the drive. -/
theorem follows_iff (t : ℕ) :
    Follows i t ↔
      ((i t).signal_config = 0b0100#4 ∨ (i t).signal_config = 0b0101#4 →
        (i t).density = (i t).disk_in_drive) := by
  constructor
  · intro h
    exact (output_iff i t).mp h.output
  · intro h
    exact ⟨fun k => cleared_iff i k t,(output_iff i t).mpr h⟩

def noDisk : StatusInput := ⟨false,0b0101#4,false,false,false,true,false⟩

/-- The pin that is to show the density is driven low. -/
theorem density_not_shown : ¬ ∀ i t, Follows i t := by
  intro h
  have hlevel := ((h (fun _ => noDisk) 0).output .density rfl).mp rfl
  exact hlevel rfl

end Pauline.PinStatus
