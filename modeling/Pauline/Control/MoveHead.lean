import Pauline.Control.Stepper

/-!
# The head position of the software

`floppy_ctrl_move_head` hands a number of steps to the head stepper and keeps
a position of its own for each drive.
-/

set_option autoImplicit false

namespace Pauline.HeadStepper

inductive InterfaceMode where
  | generic
  | apple_ii
  | apple_macintosh
deriving DecidableEq

/-- What goes to the hardware: the word written to `floppy_ctrl_headmove`, or
the two commands of the Macintosh interface, the direction and the step. -/
inductive HeadCommand where
  | headmove (w : BitVec 32)
  | appleMac (stepdir : Bool)

def headmoveWord (dir : Bool) (trk : BitVec 32) : BitVec 32 :=
  0x10000 ||| ((if dir then 1 else 0) <<< 17) ||| (trk &&& 0x1FF)

def headCommand (mode : InterfaceMode) (dir : Bool) (trk : BitVec 32) : HeadCommand :=
  match mode with
  | .generic | .apple_ii => .headmove (headmoveWord dir trk)
  | .apple_macintosh => .appleMac !dir

def countOf (trk : BitVec 32) : ℕ := (trk &&& 0x1FF).toNat

def newPosition (at_track00 dir : Bool) (trk : BitVec 32) (position : ℤ) : ℤ :=
  let position := if at_track00 then 0 else position
  if dir then position + countOf trk
  else if position > trk.toInt then position - countOf trk
  else 0

def Returns (mode : InterfaceMode) (dir : Bool) (trk : BitVec 32) (s t : System) : Prop :=
  t.stepper.head_moving = false ∧
    match headCommand mode dir trk with
    | .headmove w => ReadAfter w s t
    | .appleMac _ => Run s t

theorem countOf_eq (trk : BitVec 32) : countOf trk = trk.toNat % 512 := by
  rw [countOf, BitVec.toNat_and]
  exact Nat.and_two_pow_sub_one_eq_mod trk.toNat 9

theorem headmoveWord_cmd (dir : Bool) (trk : BitVec 32) :
    (headmoveWord dir trk).getLsbD 16 = true := by
  cases dir <;> simp [headmoveWord]

theorem headmoveWord_dir (dir : Bool) (trk : BitVec 32) :
    (headmoveWord dir trk).getLsbD 17 = dir := by
  cases dir <;> simp [headmoveWord]

theorem headmoveWord_count (dir : Bool) (trk : BitVec 32) :
    ((headmoveWord dir trk).extractLsb' 0 10).toNat = countOf trk := by
  have hlow : (headmoveWord dir trk).extractLsb' 0 10 = (trk &&& 0x1FF).extractLsb' 0 10 := by
    ext i hi
    have hhigh : i ≠ 16 ∧ i ≠ 17 := by omega
    interval_cases i <;> cases dir <;> simp [headmoveWord]
  have hlt := countOf_eq trk
  rw [hlow, BitVec.extractLsb'_toNat, Nat.shiftRight_zero]
  exact Nat.mod_eq_of_lt (by unfold countOf at hlt; omega)

def stepCount (trk : BitVec 32) : ℕ := if countOf trk = 0 then 1024 else countOf trk

theorem headmoveWord_steps (dir : Bool) (trk : BitVec 32) :
    stepsOf ((headmoveWord dir trk).extractLsb' 0 10) = stepCount trk := by
  have hcount := headmoveWord_count dir trk
  have hzero : (headmoveWord dir trk).extractLsb' 0 10 = 0 ↔ countOf trk = 0 := by
    rw [← hcount, ← BitVec.toNat_inj]
    rfl
  simp only [stepsOf, stepCount, hzero, hcount]

def emitted (mode : InterfaceMode) (dir : Bool) (trk : BitVec 32) (h : Head) : ℕ :=
  match mode with
  | .generic | .apple_ii => pulseCount dir (stepCount trk) h
  | .apple_macintosh => 0

theorem idle_run {s t : System} (hs : Idle s) (h : Run s t) : Idle t ∧ t.head = s.head := by
  refine h.invariant (fun t => Idle t ∧ t.head = s.head) ⟨hs,rfl⟩ fun _ _ _ hu => ?_
  obtain ⟨hidle, hhead⟩ := hu.1.clock
  exact ⟨hidle,hhead.trans hu.2⟩

theorem headmove_pulses (dir : Bool) (trk : BitVec 32) (s : System) (hs : Idle s) :
    (∃ t, ReadAfter (headmoveWord dir trk) s t ∧ t.stepper.head_moving = false) ∧
      ∀ t, ReadAfter (headmoveWord dir trk) s t → t.stepper.head_moving = false →
        Idle t ∧
          t.pulses = s.pulses ++ List.replicate (pulseCount dir (stepCount trk) s.head) dir := by
  obtain ⟨hends, hdone⟩ := move_done hs (headmoveWord dir trk) (headmoveWord_cmd dir trk)
  refine ⟨hends,fun t hrun ht => ?_⟩
  obtain ⟨hidle, hhead⟩ := hdone t hrun ht
  rw [headmoveWord_dir, headmoveWord_steps] at hhead
  exact ⟨hidle,(congrArg Head.pulses hhead).trans (step_pulses _ _ _ hs.pos_le)⟩

/-- Every call returns, and leaves the machine at rest with these pulses. -/
theorem returns_pulses (mode : InterfaceMode) (dir : Bool) (trk : BitVec 32) (s : System)
    (hs : Idle s) :
    (∃ t, Returns mode dir trk s t) ∧
      ∀ t, Returns mode dir trk s t →
        Idle t ∧ t.pulses = s.pulses ++ List.replicate (emitted mode dir trk s.head) dir := by
  obtain ⟨⟨t, hrun, ht⟩, hdone⟩ := headmove_pulses dir trk s hs
  cases mode with
  | generic => exact ⟨⟨t,ht,hrun⟩,fun u hu => hdone u hu.2 hu.1⟩
  | apple_ii => exact ⟨⟨t,ht,hrun⟩,fun u hu => hdone u hu.2 hu.1⟩
  | apple_macintosh =>
    refine ⟨⟨s,hs.moving,Clocked.Reach.refl s⟩,fun u hu => ?_⟩
    obtain ⟨hidle, hhead⟩ := idle_run hs hu.2
    exact ⟨hidle,by simpa [emitted, System.head] using congrArg Head.pulses hhead⟩

/-! ## The two positions -/

/-- As many step pulses as the software's position has changed, in the direction
of the call. -/
def Agrees (dir : Bool) (trk : BitVec 32) (position : ℤ) (s t : System) : Prop :=
  t.pulses = s.pulses ++
    List.replicate (newPosition (s.cylinder = 0) dir trk position - position).natAbs dir

def NotStopped (mode : InterfaceMode) (dir : Bool) (trk : BitVec 32) (s : System) : Prop :=
  dir = false → (if mode = .apple_macintosh then 1 else stepCount trk) ≤ s.cylinder

/-- The counts agree: on track 0 with another position kept by the software the
correction to 0 happens to make up for the steps; anywhere else:
inwards, there is a step to make and the counter of the machine has room for
all of them (or there is none and the counter is full);
outwards, there is a step to make and the position is beyond the unmasked count,
or the position is the number of steps. -/
def Meets (mode : InterfaceMode) (dir : Bool) (trk : BitVec 32) (position : ℤ) (s : System) :
    Prop :=
  if s.cylinder = 0 ∧ position ≠ 0 then
    (countOf trk - position).natAbs = emitted mode true trk s.head
  else
    match mode, dir with
    | .apple_macintosh, true => countOf trk = 0
    | .apple_macintosh, false => if trk.toInt < position then countOf trk = 0 else position = 0
    | _, true =>
      if countOf trk = 0 then s.stepper.track_pos = 900 ∧ s.cylinder ≠ 0
      else s.stepper.track_pos.toNat + countOf trk ≤ 900
    | _, false =>
      if trk.toInt < position then countOf trk ≠ 0 else position.natAbs = stepCount trk

theorem agrees_iff (mode : InterfaceMode) (dir : Bool) (trk : BitVec 32) (position : ℤ)
    (s t : System)
    (ht : t.pulses = s.pulses ++ List.replicate (emitted mode dir trk s.head) dir) :
    Agrees dir trk position s t ↔
      (newPosition (s.cylinder = 0) dir trk position - position).natAbs =
        emitted mode dir trk s.head := by
  rw [Agrees, ht, List.append_cancel_left_eq]
  constructor
  · intro h
    simpa using (congrArg List.length h).symm
  · intro h
    rw [h]

theorem countOf_lt (trk : BitVec 32) : countOf trk < 512 := by
  rw [countOf_eq]
  exact Nat.mod_lt _ (by decide)

/-- Inwards the position goes up by the count; the machine has room for it or
not. -/
theorem change_inward_iff (trk : BitVec 32) (h : Head) (hle : h.track_pos ≤ 900) :
    countOf trk = pulseCount true (stepCount trk) h ↔
      if countOf trk = 0 then h.track_pos = 900 ∧ h.cylinder ≠ 0
      else h.track_pos + countOf trk ≤ 900 := by
  have hlt := countOf_lt trk
  unfold pulseCount stepCount
  generalize countOf trk = c at hlt ⊢
  simp only [Bool.not_true, Bool.false_eq_true, if_false]
  split_ifs <;> omega

theorem change_outward_iff (trk : BitVec 32) (position : ℤ) :
    ((if trk.toInt < position then position - countOf trk else 0) - position).natAbs =
        stepCount trk ↔
      if trk.toInt < position then countOf trk ≠ 0 else position.natAbs = stepCount trk := by
  have hlt := countOf_lt trk
  unfold stepCount
  generalize countOf trk = c at hlt ⊢
  split_ifs <;> omega

theorem change_iff (mode : InterfaceMode) (dir : Bool) (trk : BitVec 32) (position : ℤ)
    (s : System) (hs : Idle s) (hfree : NotStopped mode dir trk s) :
    (newPosition (s.cylinder = 0) dir trk position - position).natAbs =
      emitted mode dir trk s.head ↔ Meets mode dir trk position s := by
  have hN : 0 < stepCount trk := by
    unfold stepCount
    split <;> omega
  cases dir with
  | true =>
    unfold Meets
    by_cases hstale : s.cylinder = 0 ∧ position ≠ 0
    · simp [newPosition, hstale]
    · have hnew : newPosition (s.cylinder = 0) true trk position = position + countOf trk := by
        by_cases hcyl : s.cylinder = 0
        · have hpos : position = 0 := by
            by_contra hne
            exact hstale ⟨hcyl,hne⟩
          simp [newPosition, hpos]
        · simp [newPosition, hcyl]
      have habs : (position + (countOf trk : ℤ) - position).natAbs = countOf trk := by omega
      have hfull : s.stepper.track_pos = 900 ↔ s.head.track_pos = 900 := by
        rw [← BitVec.toNat_inj]
        rfl
      have hroom : countOf trk = pulseCount true (stepCount trk) s.head ↔
          if countOf trk = 0 then s.stepper.track_pos = 900 ∧ s.cylinder ≠ 0
          else s.stepper.track_pos.toNat + countOf trk ≤ 900 := by
        rw [hfull]
        exact change_inward_iff trk s.head hs.pos_le
      rw [hnew, habs, if_neg hstale]
      cases mode with
      | generic => exact hroom
      | apple_ii => exact hroom
      | apple_macintosh => simp [emitted]
  | false =>
    have hcyl : s.cylinder ≠ 0 := by
      have hbound := hfree rfl
      split at hbound <;> omega
    have hnew : newPosition (s.cylinder = 0) false trk position =
        if trk.toInt < position then position - countOf trk else 0 := by
      simp [newPosition, hcyl]
    have hfresh : ¬ (s.cylinder = 0 ∧ position ≠ 0) := fun h => hcyl h.1
    have hsteps := change_outward_iff trk position
    unfold Meets
    rw [hnew, if_neg hfresh]
    cases mode with
    | generic => exact hsteps
    | apple_ii => exact hsteps
    | apple_macintosh =>
      simp only [emitted]
      split <;> omega

/-- One complete call of `floppy_ctrl_move_head` makes the stepper emit as many
pulses in its direction as the position of the software has changed, if and
only if the condition holds. -/
theorem move_head_agrees_iff (mode : InterfaceMode) (dir : Bool) (trk : BitVec 32) (position : ℤ)
    (s : System) (hs : Idle s) (hfree : NotStopped mode dir trk s) :
    (∃ t, Returns mode dir trk s t) ∧
      ∀ t, Returns mode dir trk s t →
        Idle t ∧ (Agrees dir trk position s t ↔ Meets mode dir trk position s) := by
  obtain ⟨hends, hdone⟩ := returns_pulses mode dir trk s hs
  refine ⟨hends,fun t ht => ?_⟩
  obtain ⟨hidle, hpulses⟩ := hdone t ht
  refine ⟨hidle,?_⟩
  rw [agrees_iff mode dir trk position s t hpulses]
  exact change_iff mode dir trk position s hs hfree

def restingAt (cylinder : ℕ) : System where
  ctrl_steprate_reg := 24000
  ctrl_track_reg := 0
  ctrl_head_move_cmd := false
  ctrl_head_move_dir := false
  cylinder := cylinder
  pulses := []
  stepper := ⟨.wait_cmd,false,BitVec.ofNat 10 cylinder,0,0,0,true,false,false,false,0⟩

theorem restingAt_idle (cylinder : ℕ) (h : cylinder ≤ 900) : Idle (restingAt cylinder) where
  cmd := rfl
  state := rfl
  rst := rfl
  moving := rfl
  pos_le := by
    rw [restingAt, BitVec.toNat_ofNat]
    exact (Nat.mod_le _ _).trans h

theorem move_head_agrees_iff_outward :
    (∃ t, Returns .generic false 3 (restingAt 40) t) ∧
      ∀ t, Returns .generic false 3 (restingAt 40) t →
        Idle t ∧ (Agrees false 3 40 (restingAt 40) t ↔ Meets .generic false 3 40 (restingAt 40)) :=
  move_head_agrees_iff .generic false 3 40 (restingAt 40) (restingAt_idle 40 (by decide))
    (fun _ => by decide)

/-- A call for no steps inwards: the machine goes on to the end of its counter
and the position stays. -/
theorem no_step_runs_away :
    ∃ s t, Idle s ∧ s.cylinder = 0 ∧ Returns .generic true 0 s t ∧
      newPosition true true 0 0 - 0 = 0 ∧ t.pulses = List.replicate 900 true ∧
      ¬ Agrees true 0 0 s t := by
  have hidle := restingAt_idle 0 (by decide)
  obtain ⟨⟨t, ht⟩, hdone⟩ := returns_pulses .generic true 0 (restingAt 0) hidle
  have hpulses : t.pulses = List.replicate 900 true := (hdone t ht).2
  refine ⟨restingAt 0,t,hidle,rfl,ht,rfl,hpulses,fun hagrees => ?_⟩
  have hlength := congrArg List.length (hpulses.symm.trans hagrees)
  rw [List.length_replicate] at hlength
  exact absurd hlength (by decide)

end Pauline.HeadStepper
