import Pauline.Control.MoveHead

/-!
# The number of tracks of a drive

The software finds how far a head goes by stepping it inwards more often than it
can and counting the steps back to track 0.
-/

set_option autoImplicit false

namespace Pauline.MaxTrack
open HeadStepper

structure StopHead where
  inner : ℕ
  cylinder : ℕ
  inner_pos : 1 ≤ inner
  cylinder_le : cylinder ≤ inner

def StopHead.step (dir : Bool) (h : StopHead) : StopHead where
  inner := h.inner
  cylinder := if dir then min (h.cylinder+1) h.inner else h.cylinder - 1
  inner_pos := h.inner_pos
  cylinder_le := by
    have hle := h.cylinder_le
    split_ifs <;> omega

structure Drive where
  head : StopHead
  drive_current_head_position : ℤ

def Drive.atTrack00 (s : Drive) : Bool := s.head.cylinder = 0

def Drive.moveHead (dir : Bool) (s : Drive) : Drive where
  head := s.head.step dir
  drive_current_head_position := newPosition s.atTrack00 dir 1 s.drive_current_head_position

def Drive.stepsIn (n : ℕ) (s : Drive) : Drive := (Drive.moveHead true)^[n] s

/-- The loop that steps outwards while a flag is on, `limit` times at most: the
steps made and the drive after them. The flag is read before each step. -/
def Drive.stepsOutWhile (on : ℕ → Drive → Bool) : ℕ → ℕ → Drive → ℕ × Drive
  | 0, i, s => (i,s)
  | limit+1, i, s =>
    if on i s then Drive.stepsOutWhile on limit (i+1) (s.moveHead false) else (i,s)

def Drive.seekTrack00 (limit : ℕ) (s : Drive) : ℕ × Drive :=
  Drive.stepsOutWhile (fun _ s => !s.atTrack00) limit 0 s

def Drive.zeroed (s : Drive) : Drive := { s with drive_current_head_position := 0 }

/-- `floppy_head_recalibrate`. With `ENABLE_APPLE_MODE` the head goes on while the
phases of the stepper, as they are read, are not at 0. -/
def floppyHeadRecalibrate (apple_mode : Bool) (phases : ℕ → BitVec 2) (s : Drive) : ℤ × Drive :=
  let (i, s) := s.seekTrack00 100
  if apple_mode then
    let (_, s) := Drive.stepsOutWhile (fun i _ => phases i ≠ 0) 4 0 s
    (0,s.zeroed)
  else if i ≥ 100 then (-1,s)
  else
    let s := s.zeroed.stepsIn 4
    if s.atTrack00 then (-2,s)
    else
      let (i, s) := s.seekTrack00 5
      if i ≥ 5 then (-3,s) else (0,s.zeroed)

def floppyHeadMaxtrack (apple_mode : Bool) (phases : ℕ → BitVec 2) (maxtrack : ℤ) (s : Drive) :
    ℤ × Drive :=
  let (ret, s) := floppyHeadRecalibrate apple_mode phases s
  if ret < 0 then (ret,s)
  else
    let s := s.stepsIn maxtrack.toNat
    if s.atTrack00 then (-2,s)
    else
      let (i, s) := s.seekTrack00 maxtrack.toNat
      if s.atTrack00 then (maxtrack - i,s) else (-3,s)

/-! ## The loops -/

theorem stepsIn_head (n : ℕ) (s : Drive) : (s.stepsIn n).head.inner = s.head.inner ∧
    (s.stepsIn n).head.cylinder = min (s.head.cylinder+n) s.head.inner := by
  have hle := s.head.cylinder_le
  induction n with
  | zero => exact ⟨rfl,by rw [Drive.stepsIn, Function.iterate_zero, id]; omega⟩
  | succ n ih =>
    obtain ⟨hinner, hcylinder⟩ := ih
    rw [Drive.stepsIn, Function.iterate_succ_apply']
    refine ⟨hinner,?_⟩
    show min ((s.stepsIn n).head.cylinder+1) (s.stepsIn n).head.inner = _
    rw [hinner, hcylinder]
    omega

theorem stepsOutWhile_head (on : ℕ → Drive → Bool) (limit i : ℕ) (s : Drive) :
    (Drive.stepsOutWhile on limit i s).2.head.inner = s.head.inner ∧
      (Drive.stepsOutWhile on limit i s).2.head.cylinder ≤ s.head.cylinder := by
  induction limit generalizing i s with
  | zero => exact ⟨rfl,le_rfl⟩
  | succ limit ih =>
    unfold Drive.stepsOutWhile
    split_ifs
    · obtain ⟨hinner, hle⟩ := ih (i+1) (s.moveHead false)
      exact ⟨hinner,hle.trans (Nat.sub_le _ _)⟩
    · exact ⟨rfl,le_rfl⟩

theorem stepsOutWhile_seeks (limit i : ℕ) (s : Drive) (h : s.head.cylinder ≤ limit) :
    (Drive.stepsOutWhile (fun _ s => !s.atTrack00) limit i s).1 = i + s.head.cylinder ∧
      (Drive.stepsOutWhile (fun _ s => !s.atTrack00) limit i s).2.head.cylinder = 0 := by
  induction limit generalizing i s with
  | zero => exact ⟨(by rw [Nat.le_zero.mp h]; rfl),Nat.le_zero.mp h⟩
  | succ limit ih =>
    unfold Drive.stepsOutWhile
    by_cases hzero : s.head.cylinder = 0
    · simp [Drive.atTrack00, hzero]
    · have hstep : (s.moveHead false).head.cylinder = s.head.cylinder - 1 := rfl
      obtain ⟨hi, hc⟩ := ih (i+1) (s.moveHead false) (by omega)
      rw [hstep] at hi
      simp only [Drive.atTrack00, hzero, decide_false, Bool.not_false, if_true]
      exact ⟨hi.trans (by omega),hc⟩

/-- The search finds track 0 after as many steps as the head stood away from it. -/
theorem seekTrack00_finds (limit : ℕ) (s : Drive) (h : s.head.cylinder ≤ limit) :
    (s.seekTrack00 limit).1 = s.head.cylinder ∧
      (s.seekTrack00 limit).2.head.cylinder = 0 ∧
      (s.seekTrack00 limit).2.head.inner = s.head.inner := by
  obtain ⟨hi, hc⟩ := stepsOutWhile_seeks limit 0 s h
  exact ⟨hi.trans (Nat.zero_add _),hc,(stepsOutWhile_head _ limit 0 s).1⟩

/-! ## The results -/

theorem recalibrate_succeeds (apple_mode : Bool) (phases : ℕ → BitVec 2) (s : Drive)
    (h : s.head.cylinder ≤ 99) :
    (floppyHeadRecalibrate apple_mode phases s).1 = 0 ∧
      (floppyHeadRecalibrate apple_mode phases s).2.head.cylinder = 0 ∧
      (floppyHeadRecalibrate apple_mode phases s).2.head.inner = s.head.inner := by
  obtain ⟨hi, hzero, hinner⟩ := seekTrack00_finds 100 s (by omega)
  cases apple_mode with
  | true =>
    obtain ⟨hin, hle⟩ := stepsOutWhile_head (fun i _ => phases i ≠ 0) 4 0 (s.seekTrack00 100).2
    exact ⟨rfl,Nat.le_zero.mp (hle.trans hzero.le),hin.trans hinner⟩
  | false =>
    obtain ⟨hin, hcyl⟩ := stepsIn_head 4 (s.seekTrack00 100).2.zeroed
    have hpos := s.head.inner_pos
    have hfour : ((s.seekTrack00 100).2.zeroed.stepsIn 4).head.cylinder = min 4 s.head.inner := by
      rw [hcyl]
      show min ((s.seekTrack00 100).2.head.cylinder + 4) (s.seekTrack00 100).2.head.inner = _
      rw [hzero, hinner, Nat.zero_add]
    obtain ⟨hi5, hzero5, hinner5⟩ := seekTrack00_finds 5 ((s.seekTrack00 100).2.zeroed.stepsIn 4)
      (by omega)
    have haway : ((s.seekTrack00 100).2.zeroed.stepsIn 4).atTrack00 = false := by
      rw [Drive.atTrack00, hfour, decide_eq_false_iff_not]
      omega
    unfold floppyHeadRecalibrate
    simp only [Bool.false_eq_true, if_false, haway, hi, hi5, hfour]
    rw [if_neg (by omega), if_neg (by omega)]
    exact ⟨rfl,hzero5,hinner5.trans (hin.trans hinner)⟩

/-- The answer is how many of the steps the stop has held back. -/
theorem maxtrack_found (apple_mode : Bool) (phases : ℕ → BitVec 2) (maxtrack : ℤ)
    (hmax : 1 ≤ maxtrack) (s : Drive) (h : s.head.cylinder ≤ 99) :
    (floppyHeadMaxtrack apple_mode phases maxtrack s).1 = max 0 (maxtrack - s.head.inner) ∧
      (floppyHeadMaxtrack apple_mode phases maxtrack s).2.head.cylinder = 0 := by
  obtain ⟨hret, hzero, hinner⟩ := recalibrate_succeeds apple_mode phases s h
  obtain ⟨-, hcyl⟩ := stepsIn_head maxtrack.toNat (floppyHeadRecalibrate apple_mode phases s).2
  rw [hzero, hinner, Nat.zero_add] at hcyl
  have hpos := s.head.inner_pos
  obtain ⟨hi, hback, -⟩ := seekTrack00_finds maxtrack.toNat
    ((floppyHeadRecalibrate apple_mode phases s).2.stepsIn maxtrack.toNat) (by omega)
  have haway : ((floppyHeadRecalibrate apple_mode phases s).2.stepsIn
      maxtrack.toNat).atTrack00 = false := by
    rw [Drive.atTrack00, hcyl, decide_eq_false_iff_not]
    omega
  have hthere : (((floppyHeadRecalibrate apple_mode phases s).2.stepsIn
      maxtrack.toNat).seekTrack00 maxtrack.toNat).2.atTrack00 = true := by
    rw [Drive.atTrack00, hback]
    rfl
  unfold floppyHeadMaxtrack
  simp only [hret, lt_irrefl, if_false, haway, Bool.false_eq_true, hthere, if_true, hi, hcyl]
  exact ⟨by omega,hback⟩

theorem maxtrack_found_eighty :
    (floppyHeadMaxtrack false (fun _ => 0) 90 ⟨⟨82,12,by decide,by decide⟩,0⟩).1 = max 0 (90-82) :=
  (maxtrack_found false (fun _ => 0) 90 (by decide) ⟨⟨82,12,by decide,by decide⟩,0⟩
    (by decide)).1

end Pauline.MaxTrack
