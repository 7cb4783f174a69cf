import Pauline.Control.MoveHead

/-!
# A drive under the commands of the controller

The head of a drive with a generic interface, with the position the software
keeps of it. Its track 0 sensor is on at cylinder 0 and nowhere else.
-/

set_option autoImplicit false

namespace Pauline.HeadStepper

structure Rig where
  head : Head
  /-- `drive_current_head_position` -/
  position : ℤ
  /-- The innermost cylinder the head has come to. -/
  highest : ℕ
  counter_le : head.track_pos ≤ 900

def Rig.atTrack00 (r : Rig) : Bool := r.head.cylinder = 0

def Rig.moveHead (dir : Bool) (trk : BitVec 32) (r : Rig) : Rig where
  head := (Head.step dir)^[stepCount trk] r.head
  position := newPosition r.atTrack00 dir trk r.position
  highest := max r.highest ((Head.step dir)^[stepCount trk] r.head).cylinder
  counter_le := Head.iterate_le _ _ _ r.counter_le

def Rig.stepsIn (n : ℕ) (r : Rig) : Rig := (Rig.moveHead true 1)^[n] r

/-- The loop that steps outwards until the sensor is on, `limit` times at most:
the number of steps made and the drive after them. -/
def Rig.seekTrack00 : ℕ → Rig → ℕ × Rig
  | 0, r => (0,r)
  | limit+1, r =>
    if r.atTrack00 then (0,r)
    else
      let (i, r) := Rig.seekTrack00 limit (r.moveHead false 1)
      (i+1,r)

theorem stepCount_one : stepCount 1 = 1 := rfl

theorem moveHead_head (dir : Bool) (trk : BitVec 32) (r : Rig) :
    (r.moveHead dir trk).head = (Head.step dir)^[stepCount trk] r.head := rfl

theorem stepsIn_head (n : ℕ) (r : Rig) : (r.stepsIn n).head = (Head.step true)^[n] r.head := by
  induction n with
  | zero => rfl
  | succ n ih =>
    rw [Rig.stepsIn, Function.iterate_succ_apply', Function.iterate_succ_apply', ← ih]
    rfl

theorem step_inward_cylinder (n : ℕ) (h : Head) (hle : h.track_pos ≤ 900) :
    ((Head.step true)^[n] h).cylinder = h.cylinder + pulseCount true n h := by
  by_cases hfull : h.track_pos = 900 ∧ h.cylinder = 0
  · cases n with
    | zero => simp [pulseCount, hfull]
    | succ n =>
      have hfirst : h.step true = { h with track_pos := 0 } := by
        simp [Head.step, hfull]
      rw [Function.iterate_succ_apply, hfirst, step_inward n _ (by simp) (by simp)]
      simp [pulseCount, hfull]
  · rw [step_inward n h hle (by omega)]
    simp [pulseCount, hfull]

theorem pulseCount_le (n : ℕ) (h : Head) : pulseCount true n h ≤ n := by
  unfold pulseCount
  simp only [Bool.not_true, Bool.false_eq_true, if_false]
  split <;> omega

/-- All steps inwards are made if and only if the counter of the machine has
room for them. -/
theorem pulseCount_eq_iff (n : ℕ) (h : Head) (hle : h.track_pos ≤ 900) :
    pulseCount true n h = n ↔ h.track_pos + n ≤ 900 := by
  unfold pulseCount
  simp only [Bool.not_true, Bool.false_eq_true, if_false]
  split <;> omega

theorem pulseCount_mono {n k : ℕ} (hnk : n ≤ k) (h : Head) :
    pulseCount true n h ≤ pulseCount true k h := by
  unfold pulseCount
  simp only [Bool.not_true, Bool.false_eq_true, if_false]
  split <;> omega

theorem seekTrack00_cylinder (limit : ℕ) (r : Rig) :
    (r.seekTrack00 limit).1 = min limit r.head.cylinder ∧
      (r.seekTrack00 limit).2.head.cylinder = r.head.cylinder - limit := by
  induction limit generalizing r with
  | zero => simp [Rig.seekTrack00]
  | succ limit ih =>
    by_cases hcyl : r.head.cylinder = 0
    · simp [Rig.seekTrack00, Rig.atTrack00, hcyl]
    · have hstep : (r.moveHead false 1).head.cylinder = r.head.cylinder - 1 := by
        rw [moveHead_head, stepCount_one]
        exact (step_outward 1 r.head).2
      obtain ⟨hi, hc⟩ := ih (r.moveHead false 1)
      rw [hstep] at hi hc
      simp only [Rig.seekTrack00, Rig.atTrack00, hcyl, decide_false, Bool.false_eq_true, if_false]
      constructor <;> omega

/-- The counter of the machine after the search: the sensor has cleared it,
unless the head was there before. -/
theorem seekTrack00_track_pos (limit : ℕ) (r : Rig) (h : r.head.cylinder ≤ limit) :
    (r.seekTrack00 limit).2.head.track_pos =
      if r.head.cylinder = 0 then r.head.track_pos else 0 := by
  induction limit generalizing r with
  | zero => simp [Rig.seekTrack00, Nat.le_zero.mp h]
  | succ limit ih =>
    by_cases hcyl : r.head.cylinder = 0
    · simp [Rig.seekTrack00, Rig.atTrack00, hcyl]
    · have hstep : (r.moveHead false 1).head = r.head.step false := rfl
      have hcylinder : (r.head.step false).cylinder = r.head.cylinder - 1 := rfl
      simp only [Rig.seekTrack00, Rig.atTrack00, hcyl, decide_false, Bool.false_eq_true, if_false]
      rw [ih _ (by rw [hstep, hcylinder]; omega), hstep, hcylinder]
      split
      next hone => simp [Head.step, follow, hone]
      next => rfl

end Pauline.HeadStepper
