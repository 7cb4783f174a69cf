import Mathlib.Tactic
import Pauline.Library.Clocked

/-!
# The head stepper of the controller

The state machine that steps the head of the attached drive, with the register
that commands it and the drive that follows its pulses. A move is a number of
steps of an abstract head: the machine does one of them after the other and is
busy until the last.
-/

set_option autoImplicit false

namespace Pauline.HeadStepper

inductive StepperState where
  | wait_cmd
  | pre_move_head
  | move_head
deriving DecidableEq

structure Stepper where
  state_stepper_register : StepperState
  move_head_cmd_q : Bool
  track_pos : BitVec 10
  track_pos_cnt : BitVec 10
  stepper_tick_cnt : BitVec 32
  stepper_time_cnt : BitVec 16
  stepper_tick_cnt_rst : Bool
  step_pulse : Bool
  floppy_ctrl_dir_q : Bool
  head_moving : Bool
  motor_phases_cnt : BitVec 2

def Stepper.onReset (s : Stepper) : Stepper :=
  { s with
    head_moving := false
    track_pos := 0
    state_stepper_register := .wait_cmd
    floppy_ctrl_dir_q := false
    move_head_cmd_q := false
    track_pos_cnt := 0
    motor_phases_cnt := 0
    stepper_tick_cnt := 0
    stepper_time_cnt := 0 }

structure StepperInput where
  step_rate : BitVec 32
  track_pos_cmd : BitVec 10
  move_head_cmd : Bool
  move_dir : Bool
  floppy_ctrl_trk00 : Bool

def tickCounter (i : StepperInput) (s n : Stepper) : Stepper :=
  if s.stepper_tick_cnt_rst then { n with stepper_tick_cnt := 0, stepper_time_cnt := 0 }
  else if s.stepper_time_cnt = 50 then
    { n with
      stepper_time_cnt := 0
      stepper_tick_cnt :=
        if i.step_rate ≠ s.stepper_tick_cnt then s.stepper_tick_cnt + 1 else s.stepper_tick_cnt }
  else { n with stepper_time_cnt := s.stepper_time_cnt + 1 }

def stepHead (s n : Stepper) : Stepper :=
  if s.floppy_ctrl_dir_q then
    { n with
      track_pos := if s.track_pos ≠ 900 then s.track_pos + 1 else s.track_pos
      step_pulse := s.track_pos ≠ 900
      motor_phases_cnt := s.motor_phases_cnt + 1 }
  else
    { n with
      track_pos := if s.track_pos ≠ 0 then s.track_pos - 1 else s.track_pos
      step_pulse := true
      motor_phases_cnt := s.motor_phases_cnt - 1 }

def trackCounter (i : StepperInput) (s n : Stepper) : Stepper :=
  let n := { n with
    move_head_cmd_q := i.move_head_cmd
    head_moving := false
    stepper_tick_cnt_rst := true
    step_pulse := false }
  match s.state_stepper_register with
  | .wait_cmd =>
    let n := { n with track_pos_cnt := 0 }
    if !s.move_head_cmd_q && i.move_head_cmd then
      { n with
        floppy_ctrl_dir_q := i.move_dir
        head_moving := true
        state_stepper_register := .pre_move_head }
    else n
  | .pre_move_head =>
    let n := { n with stepper_tick_cnt_rst := false, head_moving := true }
    if s.stepper_tick_cnt = i.step_rate >>> 1 then
      { stepHead s n with
        track_pos_cnt := s.track_pos_cnt + 1
        state_stepper_register := .move_head }
    else n
  | .move_head =>
    let n := { n with stepper_tick_cnt_rst := false, head_moving := true }
    if s.stepper_tick_cnt = i.step_rate then
      let n := if i.floppy_ctrl_trk00 then { n with track_pos := 0, motor_phases_cnt := 0 } else n
      if s.track_pos_cnt ≠ i.track_pos_cmd then
        { n with stepper_tick_cnt_rst := true, state_stepper_register := .pre_move_head }
      else { n with state_stepper_register := .wait_cmd }
    else n

def edge (i : StepperInput) (s : Stepper) : Stepper := trackCounter i s (tickCounter i s s)

structure System where
  ctrl_steprate_reg : BitVec 32
  ctrl_track_reg : BitVec 10
  ctrl_head_move_cmd : Bool
  ctrl_head_move_dir : Bool
  stepper : Stepper
  cylinder : ℕ
  /-- The directions of the step pulses so far. -/
  pulses : List Bool

def System.input (s : System) : StepperInput where
  step_rate := s.ctrl_steprate_reg
  track_pos_cmd := s.ctrl_track_reg
  move_head_cmd := s.ctrl_head_move_cmd
  move_dir := s.ctrl_head_move_dir
  floppy_ctrl_trk00 := s.cylinder = 0

def follow (inward : Bool) (cylinder : ℕ) : ℕ := if inward then cylinder + 1 else cylinder - 1

def clock (s : System) : System :=
  let stepper := edge s.input s.stepper
  { s with
    ctrl_head_move_cmd := false
    stepper := stepper
    cylinder :=
      if stepper.step_pulse then follow stepper.floppy_ctrl_dir_q s.cylinder else s.cylinder
    pulses :=
      if stepper.step_pulse then s.pulses ++ [stepper.floppy_ctrl_dir_q] else s.pulses }

def clockWrite (w : BitVec 32) (s : System) : System :=
  { clock s with
    ctrl_track_reg := w.extractLsb' 0 10
    ctrl_head_move_cmd := w.getLsbD 16
    ctrl_head_move_dir := w.getLsbD 17 }

/-! ## The abstract move -/

structure Head where
  track_pos : ℕ
  cylinder : ℕ
  pulses : List Bool

def Head.step (inward : Bool) (h : Head) : Head :=
  if inward && h.track_pos = 900 then { h with track_pos := if h.cylinder = 0 then 0 else 900 }
  else
    { track_pos :=
        if follow inward h.cylinder = 0 then 0
        else if inward then h.track_pos + 1 else h.track_pos - 1
      cylinder := follow inward h.cylinder
      pulses := h.pulses ++ [inward] }

/-- The steps a command asks for: the machine counts up and compares after the
step, so that 0 is only met after all 1024 values of the counter. -/
def stepsOf (count : BitVec 10) : ℕ := if count = 0 then 1024 else count.toNat

theorem stepsOf_pos (count : BitVec 10) : 0 < stepsOf count := by
  unfold stepsOf
  split
  · decide
  · rename_i h
    exact Nat.pos_of_ne_zero fun hz => h (BitVec.eq_of_toNat_eq (by simpa using hz))

/-- The counter meets the command after that many steps and not before. -/
theorem count_eq_iff (count : BitVec 10) (j : ℕ) (hj : 0 < j) (hle : j ≤ stepsOf count) :
    BitVec.ofNat 10 j = count ↔ j = stepsOf count := by
  have hlt := count.isLt
  rw [← BitVec.toNat_inj, BitVec.toNat_ofNat]
  unfold stepsOf at hle ⊢
  split at hle
  · rename_i hz
    have h0 : count.toNat = 0 := by simp [hz]
    have hzero : (0 : BitVec 10).toNat = 0 := rfl
    simp only [hz, if_true, hzero] at hle ⊢
    omega
  · rename_i hz
    simp only [hz, if_false]
    omega

/-! ## The waits of the machine -/

/-- The tick counter is about to be cleared, or has not passed the value the
machine waits for. -/
def Ticking (target : ℕ) (s : Stepper) : Prop :=
  s.stepper_tick_cnt_rst = true ∨
    s.stepper_tick_cnt.toNat ≤ target ∧ s.stepper_time_cnt.toNat ≤ 50

def clocksLeft (target : ℕ) (s : Stepper) : ℕ :=
  if s.stepper_tick_cnt_rst then 51 * target + 52
  else 51 * (target - s.stepper_tick_cnt.toNat) + (50 - s.stepper_time_cnt.toNat)

theorem trackCounter_tick (i : StepperInput) (s n : Stepper) :
    (trackCounter i s n).stepper_tick_cnt = n.stepper_tick_cnt ∧
      (trackCounter i s n).stepper_time_cnt = n.stepper_time_cnt := by
  unfold trackCounter stepHead
  split <;> (dsimp only; split_ifs <;> exact ⟨rfl,rfl⟩)

theorem edge_waits (i : StepperInput) (s : Stepper) (target : ℕ)
    (htarget : target ≤ i.step_rate.toNat) (h : Ticking target s)
    (hT : s.stepper_tick_cnt.toNat ≠ target ∨ s.stepper_tick_cnt_rst = true)
    (hrst : (edge i s).stepper_tick_cnt_rst = false) :
    Ticking target (edge i s) ∧ clocksLeft target (edge i s) < clocksLeft target s := by
  have htick : (edge i s).stepper_tick_cnt = (tickCounter i s s).stepper_tick_cnt :=
    (trackCounter_tick i s (tickCounter i s s)).1
  have htime : (edge i s).stepper_time_cnt = (tickCounter i s s).stepper_time_cnt :=
    (trackCounter_tick i s (tickCounter i s s)).2
  unfold Ticking clocksLeft at *
  rw [hrst, htick, htime]
  cases hr : s.stepper_tick_cnt_rst with
  | true =>
    simp [tickCounter, hr]
  | false =>
    obtain ⟨hle, hc⟩ : _ ∧ _ := by simpa [hr] using h
    replace hT : s.stepper_tick_cnt.toNat ≠ target := by simpa [hr] using hT
    have hrate := i.step_rate.isLt
    by_cases h50 : s.stepper_time_cnt = 50#16
    · have hne : i.step_rate ≠ s.stepper_tick_cnt := by
        rintro heq
        rw [heq] at htarget
        omega
      have hnext : (s.stepper_tick_cnt + 1#32).toNat = s.stepper_tick_cnt.toNat + 1 := by
        have hone : (1#32).toNat = 1 := rfl
        rw [BitVec.toNat_add, hone]
        omega
      have hfifty : s.stepper_time_cnt.toNat = 50 := by rw [h50]; rfl
      simp [tickCounter, hr, h50, hne, hnext]
      omega
    · have hne : s.stepper_time_cnt.toNat ≠ 50 := fun heq =>
        h50 (BitVec.eq_of_toNat_eq (by simpa using heq))
      have hnext : (s.stepper_time_cnt + 1#16).toNat = s.stepper_time_cnt.toNat + 1 := by
        have hone : (1#16).toNat = 1 := rfl
        rw [BitVec.toNat_add, hone]
        omega
      simp [tickCounter, hr, h50, hnext]
      omega

/-- Any clock leaves the counter where the end of the step can be waited for. -/
theorem edge_ticking (i : StepperInput) (s : Stepper) (target : ℕ)
    (htarget : target ≤ i.step_rate.toNat) (h : Ticking target s) :
    Ticking i.step_rate.toNat (edge i s) := by
  have htick : (edge i s).stepper_tick_cnt = (tickCounter i s s).stepper_tick_cnt :=
    (trackCounter_tick i s (tickCounter i s s)).1
  have htime : (edge i s).stepper_time_cnt = (tickCounter i s s).stepper_time_cnt :=
    (trackCounter_tick i s (tickCounter i s s)).2
  refine Or.inr ?_
  rw [htick, htime]
  unfold Ticking at h
  cases hr : s.stepper_tick_cnt_rst with
  | true => simp [tickCounter, hr]
  | false =>
    obtain ⟨hle, hc⟩ : _ ∧ _ := by simpa [hr] using h
    have hrate := i.step_rate.isLt
    have hone : (1#32).toNat = 1 := rfl
    have hone' : (1#16).toNat = 1 := rfl
    by_cases h50 : s.stepper_time_cnt = 50#16
    · by_cases heq : i.step_rate = s.stepper_tick_cnt
      · simp [tickCounter, hr, h50, heq]
      · have hne : i.step_rate.toNat ≠ s.stepper_tick_cnt.toNat := fun h =>
          heq (BitVec.eq_of_toNat_eq h)
        simp [tickCounter, hr, h50, heq, BitVec.toNat_add]
        omega
    · have hne : s.stepper_time_cnt.toNat ≠ 50 := fun heq =>
        h50 (BitVec.eq_of_toNat_eq (by simpa using heq))
      simp [tickCounter, hr, h50, BitVec.toNat_add]
      omega

/-! ## A move of the machine -/

def System.head (s : System) : Head := ⟨s.stepper.track_pos.toNat,s.cylinder,s.pulses⟩

def System.settled (s : System) : Head :=
  { s.head with track_pos := if s.cylinder = 0 then 0 else s.stepper.track_pos.toNat }

structure Move where
  rate : BitVec 32
  count : BitVec 10
  inward : Bool
  start : Head
  start_le : start.track_pos ≤ 900

def Move.headAfter (m : Move) (j : ℕ) : Head := (Head.step m.inward)^[j] m.start

theorem Head.step_le (inward : Bool) (h : Head) (hle : h.track_pos ≤ 900) :
    (h.step inward).track_pos ≤ 900 := by
  unfold Head.step
  by_cases h900 : (inward && h.track_pos = 900) = true
  · rw [if_pos h900]
    dsimp only
    split <;> omega
  · rw [if_neg h900]
    dsimp only
    cases inward with
    | true =>
      simp only [Bool.true_and, decide_eq_true_eq] at h900
      split
      · omega
      · simp only [if_true]
        omega
    | false =>
      split
      · omega
      · simp only [Bool.false_eq_true, if_false]
        omega

theorem Head.iterate_le (inward : Bool) (n : ℕ) (h : Head) (hle : h.track_pos ≤ 900) :
    ((Head.step inward)^[n] h).track_pos ≤ 900 := by
  induction n with
  | zero => exact hle
  | succ n ih =>
    rw [Function.iterate_succ_apply']
    exact Head.step_le _ _ ih

theorem Move.headAfter_le (m : Move) (j : ℕ) : (m.headAfter j).track_pos ≤ 900 :=
  Head.iterate_le _ _ _ m.start_le

structure Move.Held (m : Move) (s : System) : Prop where
  rate : s.ctrl_steprate_reg = m.rate
  count : s.ctrl_track_reg = m.count
  cmd : s.ctrl_head_move_cmd = false
  dir : s.stepper.floppy_ctrl_dir_q = m.inward

structure Move.Before (m : Move) (j : ℕ) (s : System) : Prop extends m.Held s where
  state : s.stepper.state_stepper_register = .pre_move_head
  moving : s.stepper.head_moving = true
  todo : j < stepsOf m.count
  cnt : s.stepper.track_pos_cnt = BitVec.ofNat 10 j
  ticking : Ticking (m.rate.toNat / 2) s.stepper
  head : s.head = m.headAfter j

structure Move.After (m : Move) (j : ℕ) (s : System) : Prop extends m.Held s where
  state : s.stepper.state_stepper_register = .move_head
  moving : s.stepper.head_moving = true
  done_pos : 0 < j
  done_le : j ≤ stepsOf m.count
  cnt : s.stepper.track_pos_cnt = BitVec.ofNat 10 j
  ticking : Ticking m.rate.toNat s.stepper
  settled : s.settled = m.headAfter j

structure Move.Done (m : Move) (s : System) : Prop extends m.Held s where
  state : s.stepper.state_stepper_register = .wait_cmd
  head : s.head = m.headAfter (stepsOf m.count)

structure Idle (s : System) : Prop where
  cmd : s.ctrl_head_move_cmd = false
  state : s.stepper.state_stepper_register = .wait_cmd
  rst : s.stepper.stepper_tick_cnt_rst = true
  moving : s.stepper.head_moving = false
  pos_le : s.stepper.track_pos.toNat ≤ 900

theorem edge_wait_start (i : StepperInput) (s : Stepper)
    (hs : s.state_stepper_register = .wait_cmd) (hq : s.move_head_cmd_q = false)
    (hc : i.move_head_cmd = true) :
    edge i s = { tickCounter i s s with
      move_head_cmd_q := true
      head_moving := true
      stepper_tick_cnt_rst := true
      step_pulse := false
      track_pos_cnt := 0
      floppy_ctrl_dir_q := i.move_dir
      state_stepper_register := .pre_move_head } := by
  simp [edge, trackCounter, hs, hq, hc]

theorem edge_wait_idle (i : StepperInput) (s : Stepper)
    (hs : s.state_stepper_register = .wait_cmd) (hc : i.move_head_cmd = false) :
    edge i s = { tickCounter i s s with
      move_head_cmd_q := false
      head_moving := false
      stepper_tick_cnt_rst := true
      step_pulse := false
      track_pos_cnt := 0 } := by
  simp [edge, trackCounter, hs, hc]

theorem edge_pre_waits (i : StepperInput) (s : Stepper)
    (hs : s.state_stepper_register = .pre_move_head) (hT : s.stepper_tick_cnt ≠ i.step_rate >>> 1) :
    edge i s = { tickCounter i s s with
      move_head_cmd_q := i.move_head_cmd
      head_moving := true
      stepper_tick_cnt_rst := false
      step_pulse := false } := by
  simp [edge, trackCounter, hs, hT]

theorem edge_pre_steps (i : StepperInput) (s : Stepper)
    (hs : s.state_stepper_register = .pre_move_head) (hT : s.stepper_tick_cnt = i.step_rate >>> 1) :
    edge i s = { stepHead s { tickCounter i s s with
      move_head_cmd_q := i.move_head_cmd
      head_moving := true
      stepper_tick_cnt_rst := false
      step_pulse := false } with
      track_pos_cnt := s.track_pos_cnt + 1
      state_stepper_register := .move_head } := by
  simp [edge, trackCounter, hs, hT]

theorem edge_move_waits (i : StepperInput) (s : Stepper)
    (hs : s.state_stepper_register = .move_head) (hT : s.stepper_tick_cnt ≠ i.step_rate) :
    edge i s = { tickCounter i s s with
      move_head_cmd_q := i.move_head_cmd
      head_moving := true
      stepper_tick_cnt_rst := false
      step_pulse := false } := by
  simp [edge, trackCounter, hs, hT]

theorem edge_move_ends (i : StepperInput) (s : Stepper)
    (hs : s.state_stepper_register = .move_head) (hT : s.stepper_tick_cnt = i.step_rate) :
    edge i s = { tickCounter i s s with
      move_head_cmd_q := i.move_head_cmd
      head_moving := true
      stepper_tick_cnt_rst := s.track_pos_cnt ≠ i.track_pos_cmd
      step_pulse := false
      track_pos := if i.floppy_ctrl_trk00 then 0 else (tickCounter i s s).track_pos
      motor_phases_cnt :=
        if i.floppy_ctrl_trk00 then 0 else (tickCounter i s s).motor_phases_cnt
      state_stepper_register :=
        if s.track_pos_cnt ≠ i.track_pos_cmd then .pre_move_head else .wait_cmd } := by
  by_cases hcnt : s.track_pos_cnt = i.track_pos_cmd <;> cases ht : i.floppy_ctrl_trk00 <;>
    simp [edge, trackCounter, hs, hT, hcnt, ht]

theorem edge_seen (i : StepperInput) (s : Stepper) :
    (edge i s).move_head_cmd_q = i.move_head_cmd := by
  unfold edge trackCounter stepHead
  split <;> (dsimp only; split_ifs <;> rfl)

section Fields
variable (i : StepperInput) (s : Stepper)

/-! The tick counter leaves the rest of the machine alone. -/

@[simp] theorem tickCounter_track_pos : (tickCounter i s s).track_pos = s.track_pos := by
  unfold tickCounter
  split_ifs <;> rfl

@[simp] theorem tickCounter_track_pos_cnt :
    (tickCounter i s s).track_pos_cnt = s.track_pos_cnt := by
  unfold tickCounter
  split_ifs <;> rfl

@[simp] theorem tickCounter_dir : (tickCounter i s s).floppy_ctrl_dir_q = s.floppy_ctrl_dir_q := by
  unfold tickCounter
  split_ifs <;> rfl

@[simp] theorem tickCounter_state :
    (tickCounter i s s).state_stepper_register = s.state_stepper_register := by
  unfold tickCounter
  split_ifs <;> rfl

@[simp] theorem stepHead_moving (n : Stepper) : (stepHead s n).head_moving = n.head_moving := by
  unfold stepHead
  split_ifs <;> rfl

@[simp] theorem stepHead_dir (n : Stepper) :
    (stepHead s n).floppy_ctrl_dir_q = n.floppy_ctrl_dir_q := by
  unfold stepHead
  split_ifs <;> rfl

end Fields

theorem clock_still (s : System) (hp : (edge s.input s.stepper).step_pulse = false)
    (ht : (edge s.input s.stepper).track_pos = s.stepper.track_pos) :
    (clock s).head = s.head ∧ (clock s).settled = s.settled := by
  simp [clock, System.head, System.settled, hp, ht]

variable {m : Move} {s : System} {j : ℕ}

theorem half_rate (h : m.Held s) : (s.input.step_rate >>> 1).toNat = m.rate.toNat / 2 := by
  rw [BitVec.toNat_ushiftRight, Nat.shiftRight_eq_div_pow, System.input, h.rate, pow_one]

/-- The pulse moves the counter and the head by one step. -/
theorem clock_steps (hle : s.stepper.track_pos.toNat ≤ 900)
    (hs : s.stepper.state_stepper_register = .pre_move_head)
    (hT : s.stepper.stepper_tick_cnt = s.input.step_rate >>> 1) :
    (clock s).settled = s.head.step s.stepper.floppy_ctrl_dir_q := by
  have hedge := edge_pre_steps s.input s.stepper hs hT
  have hlt := s.stepper.track_pos.isLt
  cases hd : s.stepper.floppy_ctrl_dir_q with
  | true =>
    by_cases h900 : s.stepper.track_pos = 900#10
    · simp [clock, hedge, stepHead, hd, System.settled, System.head, Head.step, h900]
    · have hne : s.stepper.track_pos.toNat ≠ 900 := fun heq =>
        h900 (BitVec.eq_of_toNat_eq (by simpa using heq))
      simp [clock, hedge, stepHead, hd, System.settled, System.head, Head.step, h900, hne, follow]
      omega
  | false =>
    by_cases h0 : s.stepper.track_pos = 0#10
    · simp [clock, hedge, stepHead, hd, System.settled, System.head, Head.step, h0, follow]
    · have hne : s.stepper.track_pos.toNat ≠ 0 := fun heq =>
        h0 (BitVec.eq_of_toNat_eq (by simpa using heq))
      have hpred : (1023 + s.stepper.track_pos.toNat) % 1024 = s.stepper.track_pos.toNat - 1 := by
        omega
      simp [clock, hedge, stepHead, hd, System.settled, System.head, Head.step, h0, follow, hpred]

theorem Move.Before.clock (h : m.Before j s) :
    (m.Before j (clock s) ∧
      clocksLeft (m.rate.toNat / 2) (HeadStepper.clock s).stepper <
        clocksLeft (m.rate.toNat / 2) s.stepper) ∨
    m.After (j+1) (HeadStepper.clock s) := by
  have hhalf := half_rate h.toHeld
  have hrate : s.input.step_rate = m.rate := h.rate
  have hle : m.rate.toNat / 2 ≤ s.input.step_rate.toNat := hrate ▸ Nat.div_le_self _ _
  by_cases hT : s.stepper.stepper_tick_cnt = s.input.step_rate >>> 1
  · refine Or.inr ?_
    have hedge := edge_pre_steps s.input s.stepper h.state hT
    have htick := edge_ticking s.input s.stepper _ hle h.ticking
    have hpos : s.stepper.track_pos.toNat ≤ 900 := by
      have hhead := congrArg Head.track_pos h.head
      exact le_of_eq_of_le hhead (m.headAfter_le j)
    exact
      { rate := h.rate
        count := h.count
        cmd := rfl
        dir := by simp [HeadStepper.clock, hedge, h.dir]
        state := by simp [HeadStepper.clock, hedge]
        moving := by simp [HeadStepper.clock, hedge]
        done_pos := by omega
        done_le := h.todo
        cnt := by simp [HeadStepper.clock, hedge, h.cnt, BitVec.ofNat_add]
        ticking := hrate ▸ htick
        settled := by
          rw [clock_steps hpos h.state hT, h.head, h.dir]
          exact (Function.iterate_succ_apply' _ _ _).symm }
  · refine Or.inl ?_
    have hedge := edge_pre_waits s.input s.stepper h.state hT
    have hrst : (edge s.input s.stepper).stepper_tick_cnt_rst = false := by simp [hedge]
    have hne : s.stepper.stepper_tick_cnt.toNat ≠ m.rate.toNat / 2 := fun heq =>
      hT (BitVec.eq_of_toNat_eq (heq.trans hhalf.symm))
    obtain ⟨htick, hless⟩ := edge_waits s.input s.stepper _ hle h.ticking (Or.inl hne) hrst
    have hstill := clock_still s (by simp [hedge]) (by simp [hedge])
    refine ⟨?_,hless⟩
    exact
      { rate := h.rate
        count := h.count
        cmd := rfl
        dir := by simp [HeadStepper.clock, hedge, h.dir]
        state := by simp [HeadStepper.clock, hedge, h.state]
        moving := by simp [HeadStepper.clock, hedge]
        todo := h.todo
        cnt := by simp [HeadStepper.clock, hedge, h.cnt]
        ticking := htick
        head := hstill.1.trans h.head }

theorem Move.After.clock (h : m.After j s) :
    (m.After j (clock s) ∧
      clocksLeft m.rate.toNat (HeadStepper.clock s).stepper <
        clocksLeft m.rate.toNat s.stepper) ∨
    m.Before j (HeadStepper.clock s) ∨
    (HeadStepper.clock s).stepper.head_moving = true ∧ m.Done (HeadStepper.clock s) := by
  have hrate : s.input.step_rate = m.rate := h.rate
  have hcmd : s.input.track_pos_cmd = m.count := h.count
  by_cases hT : s.stepper.stepper_tick_cnt = s.input.step_rate
  · refine Or.inr ?_
    have hedge := edge_move_ends s.input s.stepper h.state hT
    have hhead : (HeadStepper.clock s).head = m.headAfter j := by
      have hsensor : s.input.floppy_ctrl_trk00 = decide (s.cylinder = 0) := rfl
      rw [← h.settled]
      by_cases hcyl : s.cylinder = 0 <;>
        simp [HeadStepper.clock, hedge, hsensor, System.head, System.settled, hcyl]
    by_cases hlast : j = stepsOf m.count
    · have hcnt : s.stepper.track_pos_cnt = s.input.track_pos_cmd := by
        rw [h.cnt, hcmd, count_eq_iff _ _ h.done_pos h.done_le]
        exact hlast
      refine Or.inr ⟨by simp [HeadStepper.clock, hedge],?_⟩
      exact
        { rate := h.rate
          count := h.count
          cmd := rfl
          dir := by simp [HeadStepper.clock, hedge, h.dir]
          state := by simp [HeadStepper.clock, hedge, hcnt]
          head := hlast ▸ hhead }
    · have hcnt : s.stepper.track_pos_cnt ≠ s.input.track_pos_cmd := by
        rw [h.cnt, hcmd]
        exact fun heq => hlast ((count_eq_iff _ _ h.done_pos h.done_le).mp heq)
      refine Or.inl ?_
      exact
        { rate := h.rate
          count := h.count
          cmd := rfl
          dir := by simp [HeadStepper.clock, hedge, h.dir]
          state := by simp [HeadStepper.clock, hedge, hcnt]
          moving := by simp [HeadStepper.clock, hedge]
          todo := lt_of_le_of_ne h.done_le hlast
          cnt := by simp [HeadStepper.clock, hedge, h.cnt]
          ticking := Or.inl (by simp [HeadStepper.clock, hedge, hcnt])
          head := hhead }
  · refine Or.inl ?_
    have hedge := edge_move_waits s.input s.stepper h.state hT
    have hrst : (edge s.input s.stepper).stepper_tick_cnt_rst = false := by simp [hedge]
    have hne : s.stepper.stepper_tick_cnt.toNat ≠ m.rate.toNat := fun heq =>
      hT (BitVec.eq_of_toNat_eq (by rw [heq, hrate]))
    obtain ⟨htick, hless⟩ :=
      edge_waits s.input s.stepper _ (hrate ▸ le_refl _) h.ticking (Or.inl hne) hrst
    have hstill := clock_still s (by simp [hedge]) (by simp [hedge])
    refine ⟨?_,hless⟩
    exact
      { rate := h.rate
        count := h.count
        cmd := rfl
        dir := by simp [HeadStepper.clock, hedge, h.dir]
        state := by simp [HeadStepper.clock, hedge, h.state]
        moving := by simp [HeadStepper.clock, hedge]
        done_pos := h.done_pos
        done_le := h.done_le
        cnt := by simp [HeadStepper.clock, hedge, h.cnt]
        ticking := htick
        settled := hstill.2.trans h.settled }

theorem Move.Done.clock (h : m.Done s) :
    Idle (clock s) ∧ (HeadStepper.clock s).head = m.headAfter (stepsOf m.count) := by
  have hedge := edge_wait_idle s.input s.stepper h.state h.cmd
  have hstill := clock_still s (by simp [hedge]) (by simp [hedge])
  have hhead := hstill.1.trans h.head
  refine ⟨?_,hhead⟩
  exact
    { cmd := rfl
      state := by simp [HeadStepper.clock, hedge, h.state]
      rst := by simp [HeadStepper.clock, hedge]
      moving := by simp [HeadStepper.clock, hedge]
      pos_le := le_of_eq_of_le (congrArg Head.track_pos hhead) (m.headAfter_le _) }

theorem Idle.clock (h : Idle s) : Idle (clock s) ∧ (HeadStepper.clock s).head = s.head := by
  have hedge := edge_wait_idle s.input s.stepper h.state h.cmd
  have hstill := clock_still s (by simp [hedge]) (by simp [hedge])
  refine ⟨?_,hstill.1⟩
  exact
    { cmd := rfl
      state := by simp [HeadStepper.clock, hedge, h.state]
      rst := by simp [HeadStepper.clock, hedge]
      moving := by simp [HeadStepper.clock, hedge]
      pos_le := le_of_eq_of_le (congrArg Head.track_pos hstill.1) h.pos_le }

def moveOf (w : BitVec 32) (s : System) (h : Idle s) : Move where
  rate := s.ctrl_steprate_reg
  count := w.extractLsb' 0 10
  inward := w.getLsbD 17
  start := s.head
  start_le := h.pos_le

structure Raised (w : BitVec 32) (s : System) : Prop where
  count : s.ctrl_track_reg = w.extractLsb' 0 10
  cmd : s.ctrl_head_move_cmd = w.getLsbD 16
  dir : s.ctrl_head_move_dir = w.getLsbD 17
  state : s.stepper.state_stepper_register = .wait_cmd
  seen : s.stepper.move_head_cmd_q = false
  pos_le : s.stepper.track_pos.toNat ≤ 900

def Raised.move {w : BitVec 32} (h : Raised w s) : Move where
  rate := s.ctrl_steprate_reg
  count := w.extractLsb' 0 10
  inward := w.getLsbD 17
  start := s.head
  start_le := h.pos_le

theorem Raised.starts {w : BitVec 32} (h : Raised w s) (hw : w.getLsbD 16 = true) :
    h.move.Before 0 (HeadStepper.clock s) := by
  have hcmd : s.input.move_head_cmd = true := h.cmd.trans hw
  have hedge := edge_wait_start s.input s.stepper h.state h.seen hcmd
  have hstill := clock_still s (by simp [hedge]) (by simp [hedge])
  exact
    { rate := rfl
      count := h.count
      cmd := rfl
      dir := by
        have hdir : s.input.move_dir = w.getLsbD 17 := h.dir
        simp [HeadStepper.clock, hedge, Raised.move, hdir]
      state := by simp [HeadStepper.clock, hedge]
      moving := by simp [HeadStepper.clock, hedge]
      todo := stepsOf_pos _
      cnt := by simp [HeadStepper.clock, hedge]
      ticking := Or.inl (by simp [HeadStepper.clock, hedge])
      head := hstill.1 }

/-- A write behind a clock that leaves the machine waiting, with no command up
before it. -/
theorem raised_of_clock (w : BitVec 32) (hcmd : s.ctrl_head_move_cmd = false)
    (hstate : (HeadStepper.clock s).stepper.state_stepper_register = .wait_cmd)
    (hpos : (HeadStepper.clock s).stepper.track_pos.toNat ≤ 900) : Raised w (clockWrite w s) where
  count := rfl
  cmd := rfl
  dir := rfl
  state := hstate
  seen := (edge_seen s.input s.stepper).trans hcmd
  pos_le := hpos

/-- Two clocks after the write of a command the machine is busy with it. -/
theorem Idle.starts (h : Idle s) (w : BitVec 32) (hw : w.getLsbD 16 = true) :
    (moveOf w s h).Before 0 (HeadStepper.clock (clockWrite w s)) := by
  obtain ⟨hidle, hhead⟩ := h.clock
  have hraised : Raised w (clockWrite w s) := raised_of_clock w h.cmd hidle.state hidle.pos_le
  have hmove : moveOf w s h = hraised.move := by
    have hstart : (clockWrite w s).head = s.head := hhead
    simp only [moveOf, Raised.move, hstart]
    rfl
  exact hmove ▸ hraised.starts hw

def Move.Reached (m : Move) (s : System) : Prop :=
  s.stepper.head_moving = true ∧ (∃ j, m.Before j s) ∨
  s.stepper.head_moving = true ∧ (∃ j, m.After j s) ∨
  s.stepper.head_moving = true ∧ m.Done s ∨
  Idle s ∧ s.head = m.headAfter (stepsOf m.count)

theorem Move.Reached.clock (h : m.Reached s) : m.Reached (clock s) := by
  obtain ⟨-, j, h⟩ | ⟨-, j, h⟩ | ⟨-, h⟩ | ⟨hidle, hhead⟩ := h
  · obtain ⟨h, -⟩ | h := h.clock
    · exact Or.inl ⟨h.moving,j,h⟩
    · exact Or.inr (Or.inl ⟨h.moving,_,h⟩)
  · obtain ⟨h, -⟩ | h | ⟨hm, h⟩ := h.clock
    · exact Or.inr (Or.inl ⟨h.moving,j,h⟩)
    · exact Or.inl ⟨h.moving,j,h⟩
    · exact Or.inr (Or.inr (Or.inl ⟨hm,h⟩))
  · exact Or.inr (Or.inr (Or.inr h.clock))
  · obtain ⟨h, heq⟩ := hidle.clock
    exact Or.inr (Or.inr (Or.inr ⟨h,heq.trans hhead⟩))

/-- Not busy any more, the machine has done all steps of the move. -/
theorem Move.Reached.ended (h : m.Reached s) (hm : s.stepper.head_moving = false) :
    Idle s ∧ s.head = m.headAfter (stepsOf m.count) := by
  obtain ⟨hb, -⟩ | ⟨hb, -⟩ | ⟨hb, -⟩ | h := h
  · simp [hm] at hb
  · simp [hm] at hb
  · simp [hm] at hb
  · exact h

/-! ## Runs -/

def Run : System → System → Prop := Clocked.Reach (fun _ : Unit => clock) fun _ _ => True

theorem Move.Reached.run {t : System} (h : m.Reached s) (hrun : Run s t) : m.Reached t :=
  hrun.invariant m.Reached h fun _ _ _ h => h.clock

theorem Move.Before.leaves (h : m.Before j s) : ∃ t, Run s t ∧ m.After (j+1) t :=
  Clocked.Reach.leaves (m.Before j) (m.After (j+1))
    (fun s => clocksLeft (m.rate.toNat / 2) s.stepper) () (fun _ => trivial)
    (fun _ h => h.clock) s h

theorem Move.After.leaves (h : m.After j s) : ∃ t, Run s t ∧ (m.Before j t ∨ m.Done t) :=
  Clocked.Reach.leaves (m.After j) (fun t => m.Before j t ∨ m.Done t)
    (fun s => clocksLeft m.rate.toNat s.stepper) () (fun _ => trivial)
    (fun _ h => h.clock.imp id (Or.imp id And.right)) s h

theorem Move.Before.ends (h : m.Before j s) : ∃ t, Run s t ∧ Idle t := by
  obtain ⟨n, hn⟩ : ∃ n, n = stepsOf m.count - j := ⟨_,rfl⟩
  induction n using Nat.strong_induction_on generalizing j s with
  | _ n ih =>
    obtain ⟨t, hst, ht⟩ := h.leaves
    obtain ⟨u, htu, hu | hu⟩ := ht.leaves
    · have htodo := h.todo
      obtain ⟨v, huv, hv⟩ := ih _ (by omega) hu rfl
      exact ⟨v,hst.trans (htu.trans huv),hv⟩
    · exact ⟨_,hst.trans (htu.tick () trivial),hu.clock.1⟩

/-- The states in which the registers can be read after a command has been
written: the read is at least two clocks behind the write. -/
def ReadAfter (w : BitVec 32) (s t : System) : Prop := Run (clock (clockWrite w s)) t

/-- The machine does the move it is commanded and comes to rest, and whenever
it does not read busy it has done all of it. -/
theorem move_done (h : Idle s) (w : BitVec 32) (hw : w.getLsbD 16 = true) :
    (∃ t, ReadAfter w s t ∧ t.stepper.head_moving = false) ∧
      ∀ t, ReadAfter w s t → t.stepper.head_moving = false →
        Idle t ∧ t.head = (Head.step (w.getLsbD 17))^[stepsOf (w.extractLsb' 0 10)] s.head := by
  have hstart := h.starts w hw
  constructor
  · obtain ⟨t, hrun, ht⟩ := hstart.ends
    exact ⟨t,hrun,ht.moving⟩
  · intro t hrun ht
    have hreached : (moveOf w s h).Reached (clock (clockWrite w s)) :=
      Or.inl ⟨hstart.moving,0,hstart⟩
    exact (hreached.run hrun).ended ht

/-! ## The pulses of a move -/

theorem step_outward (n : ℕ) (h : Head) :
    ((Head.step false)^[n] h).pulses = h.pulses ++ List.replicate n false ∧
      ((Head.step false)^[n] h).cylinder = h.cylinder - n := by
  induction n with
  | zero => simp
  | succ n ih =>
    rw [Function.iterate_succ_apply', List.replicate_succ']
    simp [Head.step, follow, ih]
    omega

theorem step_inward (n : ℕ) (h : Head) (hle : h.track_pos ≤ 900)
    (hcyl : h.cylinder = 0 → h.track_pos < 900) :
    (Head.step true)^[n] h =
      ⟨min (h.track_pos + n) 900,h.cylinder + min n (900 - h.track_pos),
        h.pulses ++ List.replicate (min n (900 - h.track_pos)) true⟩ := by
  induction n with
  | zero => simp [hle]
  | succ n ih =>
    rw [Function.iterate_succ_apply', ih]
    by_cases hfull : 900 ≤ h.track_pos + n
    · have hmin : min (h.track_pos + n) 900 = 900 := min_eq_right hfull
      have hmin' : min (h.track_pos + (n+1)) 900 = 900 := min_eq_right (by omega)
      have hsame : min (n+1) (900 - h.track_pos) = min n (900 - h.track_pos) := by omega
      have hoff : h.cylinder + min n (900 - h.track_pos) ≠ 0 := by omega
      simp only [Head.step, hmin, hmin', hsame, hoff, Bool.true_and, decide_true, if_true, if_false]
    · have hmin : min (h.track_pos + n) 900 = h.track_pos + n := min_eq_left (by omega)
      have hmin' : min (h.track_pos + (n+1)) 900 = h.track_pos + n + 1 := by omega
      have hroom : min n (900 - h.track_pos) = n := by omega
      have hroom' : min (n+1) (900 - h.track_pos) = n + 1 := by omega
      have hnot : h.track_pos + n ≠ 900 := by omega
      simp [Head.step, hmin, hmin', hroom, hroom', hnot, follow, List.replicate_succ', add_assoc]

/-- On cylinder 0 with the counter at 900 the first step is only the sensor's. -/
theorem step_inward_full (n : ℕ) (h : Head) (hfull : h.track_pos = 900) (hcyl : h.cylinder = 0) :
    ((Head.step true)^[n] h).pulses = h.pulses ++ List.replicate (min (n - 1) 900) true := by
  cases n with
  | zero => simp
  | succ n =>
    have hfirst : h.step true = { h with track_pos := 0 } := by
      simp [Head.step, hfull, hcyl]
    rw [Function.iterate_succ_apply, hfirst, step_inward n _ (by simp) (by simp)]
    simp

def pulseCount (inward : Bool) (n : ℕ) (h : Head) : ℕ :=
  if !inward then n
  else if h.track_pos = 900 ∧ h.cylinder = 0 then min (n - 1) 900
  else min n (900 - h.track_pos)

theorem step_pulses (inward : Bool) (n : ℕ) (h : Head) (hle : h.track_pos ≤ 900) :
    ((Head.step inward)^[n] h).pulses =
      h.pulses ++ List.replicate (pulseCount inward n h) inward := by
  cases inward with
  | false => simpa [pulseCount] using (step_outward n h).1
  | true =>
    by_cases hfull : h.track_pos = 900 ∧ h.cylinder = 0
    · simpa [pulseCount, hfull] using step_inward_full n h hfull.1 hfull.2
    · rw [step_inward n h hle (by omega)]
      simp [pulseCount, hfull]

end Pauline.HeadStepper
