import Pauline.Control.Stepper

/-!
# The pulses on the step line

The pulse shaper beside the stepper. The machine takes longer from one step to
the next than the widest pulse lasts, so that every step is a pulse of its own.
-/

set_option autoImplicit false

namespace Pauline.StepPulses
open HeadStepper Clocked

/-! ## The circuit -/

structure Shaper where
  floppy_ctrl_step : Bool
  step_pulse_cnt : BitVec 16

def Shaper.onReset : Shaper := ⟨false,65535⟩

def Shaper.step (step_width : BitVec 16) (step_pulse : Bool) (p : Shaper) : Shaper where
  floppy_ctrl_step := p.step_pulse_cnt < step_width
  step_pulse_cnt :=
    if step_pulse then 0
    else if p.step_pulse_cnt ≠ 65535 then p.step_pulse_cnt + 1
    else p.step_pulse_cnt

structure Circuit where
  stepper : Stepper
  shaper : Shaper

def Circuit.clock (step_width : BitVec 16) (i : StepperInput) (s : Circuit) : Circuit :=
  ⟨edge i s.stepper,s.shaper.step step_width s.stepper.step_pulse⟩

structure Circuit.AtReset (s : Circuit) : Prop where
  stepper : s.stepper = s.stepper.onReset
  pulse : s.stepper.step_pulse = false
  shaper : s.shaper = Shaper.onReset

structure Settings where
  step_rate : BitVec 32
  step_width : BitVec 16
  rate_pos : 1 ≤ step_rate.toNat
  width_pos : 1 ≤ step_width.toNat
  width_lt : step_width.toNat < 51 * step_rate.toNat

def Commanded (i : StepperInput) (s : Circuit) : Prop :=
  s.stepper.state_stepper_register = .wait_cmd ∧ s.stepper.move_head_cmd_q = false ∧
    i.move_head_cmd = true

/-! ## The pulse shaper -/

def Circuit.age (s : Circuit) : ℕ :=
  if s.stepper.step_pulse then 0 else s.shaper.step_pulse_cnt.toNat + 1

def Aged (n : ℕ) (s : Circuit) : Prop := min n 65536 ≤ s.age

theorem cnt_eq (p : Shaper) (w : BitVec 16) : (p.step w false).step_pulse_cnt.toNat =
    min (p.step_pulse_cnt.toNat + 1) 65535 := by
  have hlt := p.step_pulse_cnt.isLt
  by_cases hfull : p.step_pulse_cnt = 65535#16
  · simp [Shaper.step, hfull]
  · have hne : p.step_pulse_cnt.toNat ≠ 65535 := fun heq =>
      hfull (BitVec.eq_of_toNat_eq (by simpa using heq))
    have hone : (1#16).toNat = 1 := rfl
    simp only [Shaper.step, Bool.false_eq_true, if_false, ne_eq, hfull, not_false_eq_true, if_true,
      BitVec.toNat_add, BitVec.ofNat_eq_ofNat, hone]
    omega

theorem cnt_restarts (p : Shaper) (w : BitVec 16) : (p.step w true).step_pulse_cnt.toNat = 0 := rfl

section Shaper
variable {w : BitVec 16} {i : StepperInput} {s : Circuit}

theorem age_clock (h : (s.clock w i).stepper.step_pulse = false) :
    (s.clock w i).age = min (s.age + 1) 65536 := by
  simp only [Circuit.age, h, Bool.false_eq_true, if_false]
  cases hp : s.stepper.step_pulse with
  | true => simp [Circuit.clock, hp, cnt_restarts]
  | false =>
    have hcnt := cnt_eq s.shaper w
    simp only [Circuit.clock, hp, Bool.false_eq_true, if_false, hcnt]
    omega

theorem Aged.clock {n : ℕ} (hs : Aged n s) (h : (s.clock w i).stepper.step_pulse = false) :
    Aged (n+1) (s.clock w i) := by
  unfold Aged at *
  rw [age_clock h]
  omega

theorem Aged.mono {n m : ℕ} (h : Aged n s) (hle : m ≤ n) : Aged m s := by
  unfold Aged at *
  omega

theorem aged_none {n : ℕ} (s : Circuit) (hn : n = 0) : Aged n s := by
  rw [Aged, hn, Nat.zero_min]
  exact Nat.zero_le _

structure Shaped (w : BitVec 16) (s : Circuit) : Prop where
  strobe : s.stepper.step_pulse = true → w.toNat ≤ s.shaper.step_pulse_cnt.toNat
  first : s.shaper.step_pulse_cnt.toNat = 0 → s.shaper.floppy_ctrl_step = false
  within : 0 < s.shaper.step_pulse_cnt.toNat → s.shaper.step_pulse_cnt.toNat < w.toNat →
    s.shaper.floppy_ctrl_step = true

def pending (s : Circuit) : ℕ :=
  if s.stepper.step_pulse || s.shaper.step_pulse_cnt.toNat = 0 then 1 else 0

def Apart (w : BitVec 16) (s s' : Circuit) : Prop :=
  s'.stepper.step_pulse = true → Aged w.toNat s

theorem age_of_apart (hw : 1 ≤ w.toNat) {s' : Circuit} (h : Apart w s s')
    (hp : s'.stepper.step_pulse = true) :
    s.stepper.step_pulse = false ∧ w.toNat ≤ s.shaper.step_pulse_cnt.toNat + 1 := by
  have hage := h hp
  have hlt := w.isLt
  unfold Aged Circuit.age at hage
  cases hs : s.stepper.step_pulse with
  | true =>
    simp only [hs, if_true] at hage
    omega
  | false =>
    simp only [hs, Bool.false_eq_true, if_false] at hage
    exact ⟨rfl,by omega⟩

theorem step_line (p : Shaper) (pulse : Bool) :
    (p.step w pulse).floppy_ctrl_step = decide (p.step_pulse_cnt.toNat < w.toNat) := rfl

theorem Shaped.clock (hw : 1 ≤ w.toNat) (h : Shaped w s) (hapart : Apart w s (s.clock w i)) :
    Shaped w (s.clock w i) := by
  have hlt := w.isLt
  cases hp : s.stepper.step_pulse with
  | true =>
    have hcnt := h.strobe hp
    have hzero : (s.clock w i).shaper.step_pulse_cnt.toNat = 0 := by
      simp only [Circuit.clock, hp]
      exact cnt_restarts _ _
    refine ⟨fun hp' => ?_,fun _ => ?_,fun hpos => by omega⟩
    · rw [(age_of_apart hw hapart hp').1] at hp
      cases hp
    · simp only [Circuit.clock, step_line, decide_eq_false_iff_not]
      omega
  | false =>
    have hnext : (s.clock w i).shaper.step_pulse_cnt.toNat =
        min (s.shaper.step_pulse_cnt.toNat + 1) 65535 := by
      simp only [Circuit.clock, hp]
      exact cnt_eq _ _
    refine ⟨fun hp' => ?_,fun hz => by omega,fun _ hin => ?_⟩
    · have hage := (age_of_apart hw hapart hp').2
      omega
    · simp only [Circuit.clock, step_line, decide_eq_true_eq]
      omega

/-- The line rises for each step once. -/
theorem Shaped.rise (hw : 1 ≤ w.toNat) (h : Shaped w s) (hapart : Apart w s (s.clock w i)) :
    rise s.shaper.floppy_ctrl_step (s.clock w i).shaper.floppy_ctrl_step + pending (s.clock w i) =
      pending s + if (s.clock w i).stepper.step_pulse then 1 else 0 := by
  have hline : (s.clock w i).shaper.floppy_ctrl_step =
      decide (s.shaper.step_pulse_cnt.toNat < w.toNat) := rfl
  cases hp : s.stepper.step_pulse with
  | true =>
    have hcnt := h.strobe hp
    have hlow : (s.clock w i).shaper.floppy_ctrl_step = false := by
      rw [hline, decide_eq_false_iff_not]
      omega
    have hquiet : (s.clock w i).stepper.step_pulse = false := by
      by_contra hp'
      rw [(age_of_apart hw hapart (by simpa using hp')).1] at hp
      cases hp
    have hzero : (s.clock w i).shaper.step_pulse_cnt.toNat = 0 := by
      simp only [Circuit.clock, hp]
      exact cnt_restarts _ _
    simp [pending, hp, hlow, hquiet, hzero, Clocked.rise]
  | false =>
    have hnext : (s.clock w i).shaper.step_pulse_cnt.toNat ≠ 0 := by
      have hcnt := cnt_eq s.shaper w
      simp only [Circuit.clock, hp]
      omega
    by_cases hz : s.shaper.step_pulse_cnt.toNat = 0
    · have hhigh : (s.clock w i).shaper.floppy_ctrl_step = true := by
        rw [hline, decide_eq_true_eq]
        omega
      simp [pending, hp, hz, hhigh, hnext, h.first hz, Clocked.rise]
    · have hstill : Clocked.rise s.shaper.floppy_ctrl_step
          (s.clock w i).shaper.floppy_ctrl_step = 0 := by
        by_cases hin : s.shaper.step_pulse_cnt.toNat < w.toNat
        · simp [Clocked.rise, h.within (by omega) hin]
        · simp [Clocked.rise, hline, hin]
      simp [pending, hp, hz, hstill, hnext]

end Shaper

/-! ## The machine -/

def elapsed (s : Stepper) : ℕ := 51 * s.stepper_tick_cnt.toNat + s.stepper_time_cnt.toNat

def Settings.toStep (g : Settings) : ℕ := 51 * (g.step_rate.toNat / 2)

def Settings.rest (g : Settings) : ℕ := 51 * (g.step_rate.toNat - g.step_rate.toNat / 2)

def Stopped (g : Settings) (s : Stepper) : Prop :=
  s.stepper_tick_cnt = g.step_rate ∨
    s.stepper_tick_cnt = 0 ∧ (s.stepper_tick_cnt_rst = true ∨ s.stepper_time_cnt = 0)

structure Waits (g : Settings) (s : Circuit) : Prop where
  state : s.stepper.state_stepper_register = .wait_cmd
  stopped : Stopped g s.stepper
  aged : Aged g.rest s

structure Starts (g : Settings) (s : Circuit) : Prop where
  state : s.stepper.state_stepper_register = .pre_move_head
  rst : s.stepper.stepper_tick_cnt_rst = true
  stopped : Stopped g s.stepper
  aged : Aged g.rest s

structure Before (g : Settings) (s : Circuit) : Prop where
  state : s.stepper.state_stepper_register = .pre_move_head
  rst : s.stepper.stepper_tick_cnt_rst = false
  time : s.stepper.stepper_time_cnt.toNat ≤ 50
  bound : elapsed s.stepper ≤ g.toStep
  aged : Aged (g.rest + 1 + elapsed s.stepper) s

structure After (g : Settings) (s : Circuit) : Prop where
  state : s.stepper.state_stepper_register = .move_head
  rst : s.stepper.stepper_tick_cnt_rst = false
  time : s.stepper.stepper_time_cnt.toNat ≤ 50
  bound : elapsed s.stepper ≤ 51 * g.step_rate.toNat
  aged : Aged (elapsed s.stepper - (g.toStep + 1)) s

theorem half_toNat (r : BitVec 32) : (r >>> 1).toNat = r.toNat / 2 := by
  rw [BitVec.toNat_ushiftRight, Nat.shiftRight_eq_div_pow, pow_one]

theorem stepHead_rst (s n : Stepper) :
    (stepHead s n).stepper_tick_cnt_rst = n.stepper_tick_cnt_rst := by
  unfold stepHead
  split_ifs <;> rfl

section Tick
variable {i : StepperInput} {s : Stepper}

theorem edge_tick : (edge i s).stepper_tick_cnt = (tickCounter i s s).stepper_tick_cnt :=
  (trackCounter_tick i s (tickCounter i s s)).1

theorem edge_time : (edge i s).stepper_time_cnt = (tickCounter i s s).stepper_time_cnt :=
  (trackCounter_tick i s (tickCounter i s s)).2

/-- A cleared counter starts from 0. -/
theorem elapsed_restarts (h : s.stepper_tick_cnt_rst = true) :
    elapsed (edge i s) = 0 ∧ (edge i s).stepper_time_cnt.toNat ≤ 50 := by
  simp [elapsed, edge_tick, edge_time, tickCounter, h]

theorem elapsed_succ (h : s.stepper_tick_cnt_rst = false) (htime : s.stepper_time_cnt.toNat ≤ 50)
    (hlt : s.stepper_tick_cnt.toNat < i.step_rate.toNat) :
    elapsed (edge i s) = elapsed s + 1 ∧ (edge i s).stepper_time_cnt.toNat ≤ 50 := by
  have hrate := i.step_rate.isLt
  have hone : (1#32).toNat = 1 := rfl
  have hone' : (1#16).toNat = 1 := rfl
  by_cases h50 : s.stepper_time_cnt = 50#16
  · have hne : i.step_rate ≠ s.stepper_tick_cnt := by
      rintro heq
      rw [heq] at hlt
      omega
    have hfifty : s.stepper_time_cnt.toNat = 50 := by rw [h50]; rfl
    simp [elapsed, edge_tick, edge_time, tickCounter, h, h50, hne, BitVec.toNat_add]
    omega
  · have hne : s.stepper_time_cnt.toNat ≠ 50 := fun heq =>
      h50 (BitVec.eq_of_toNat_eq (by simpa using heq))
    simp [elapsed, edge_tick, edge_time, tickCounter, h, h50, BitVec.toNat_add]
    omega

/-- A stopped counter is at its end for one more clock, or cleared. -/
theorem Stopped.edge {g : Settings} (hrate : i.step_rate = g.step_rate) (h : Stopped g s)
    (hrst : (HeadStepper.edge i s).stepper_tick_cnt_rst = true) :
    Stopped g (HeadStepper.edge i s) := by
  unfold Stopped at *
  rw [edge_tick, edge_time, hrst]
  cases hr : s.stepper_tick_cnt_rst with
  | true => simp [tickCounter, hr]
  | false =>
    by_cases h50 : s.stepper_time_cnt = 50#16
    · rcases h with h | ⟨h, hz⟩
      · simp [tickCounter, hr, h50, hrate, h]
      · simp [hr, h50] at hz
    · rcases h with h | ⟨h, hz⟩
      · simp [tickCounter, hr, h50, h]
      · simp [tickCounter, hr, h50, h]

end Tick

theorem edge_wait_quiet (i : StepperInput) (s : Stepper)
    (hs : s.state_stepper_register = .wait_cmd)
    (hc : ¬(s.move_head_cmd_q = false ∧ i.move_head_cmd = true)) :
    edge i s = { tickCounter i s s with
      move_head_cmd_q := i.move_head_cmd
      head_moving := false
      stepper_tick_cnt_rst := true
      step_pulse := false
      track_pos_cnt := 0 } := by
  have hno : (!s.move_head_cmd_q && i.move_head_cmd) = false := by
    cases hq : s.move_head_cmd_q <;> simp_all
  simp [edge, trackCounter, hs, hno]

/-- The machine reads busy the clock after it waited for no command. -/
theorem edge_moving (i : StepperInput) (s : Circuit) : (edge i s.stepper).head_moving = true ↔
    s.stepper.state_stepper_register ≠ .wait_cmd ∨ Commanded i s := by
  unfold Commanded
  cases hs : s.stepper.state_stepper_register with
  | wait_cmd =>
    by_cases hc : s.stepper.move_head_cmd_q = false ∧ i.move_head_cmd = true
    · simp [edge_wait_start i s.stepper hs hc.1 hc.2, hc]
    · simp only [edge_wait_quiet i s.stepper hs hc, hc]
      simp
  | pre_move_head =>
    by_cases hT : s.stepper.stepper_tick_cnt = i.step_rate >>> 1
    · simp [edge_pre_steps i s.stepper hs hT]
    · simp [edge_pre_waits i s.stepper hs hT]
  | move_head =>
    by_cases hT : s.stepper.stepper_tick_cnt = i.step_rate
    · simp [edge_move_ends i s.stepper hs hT]
    · simp [edge_move_waits i s.stepper hs hT]

section Phases
variable {g : Settings} {i : StepperInput} {s : Circuit} (hrate : i.step_rate = g.step_rate)
include hrate

theorem Waits.quiet (h : Waits g s) (hc : ¬Commanded i s) : Waits g (s.clock g.step_width i) := by
  have hedge := edge_wait_quiet i s.stepper h.state fun hup => hc ⟨h.state,hup⟩
  have hstate : (edge i s.stepper).state_stepper_register = .wait_cmd := by
    simp [hedge, h.state]
  exact
    { state := hstate
      stopped := h.stopped.edge hrate (by simp [hedge])
      aged := (h.aged.clock (by simp [Circuit.clock, hedge])).mono (by omega) }

theorem Waits.starts (h : Waits g s) (hc : Commanded i s) : Starts g (s.clock g.step_width i) := by
  have hedge := edge_wait_start i s.stepper hc.1 hc.2.1 hc.2.2
  have hrst : (edge i s.stepper).stepper_tick_cnt_rst = true := by simp [hedge]
  have hstate : (edge i s.stepper).state_stepper_register = .pre_move_head := by simp [hedge]
  exact
    { state := hstate
      rst := hrst
      stopped := h.stopped.edge hrate hrst
      aged := (h.aged.clock (by simp [Circuit.clock, hedge])).mono (by omega) }

theorem half_eq : (i.step_rate >>> 1).toNat = g.step_rate.toNat / 2 := by
  rw [half_toNat, hrate]

omit hrate in
theorem Starts.counts (h : Starts g s) (hT : s.stepper.stepper_tick_cnt ≠ i.step_rate >>> 1) :
    Before g (s.clock g.step_width i) ∧ elapsed (s.clock g.step_width i).stepper = 0 := by
  have hedge := edge_pre_waits i s.stepper h.state hT
  obtain ⟨hzero, htime⟩ := elapsed_restarts (i := i) h.rst
  have hstate : (edge i s.stepper).state_stepper_register = .pre_move_head := by
    simp [hedge, h.state]
  have hrst : (edge i s.stepper).stepper_tick_cnt_rst = false := by simp [hedge]
  have hquiet : (s.clock g.step_width i).stepper.step_pulse = false := by
    simp [Circuit.clock, hedge]
  refine ⟨⟨hstate,hrst,htime,le_of_eq_of_le hzero (Nat.zero_le _),?_⟩,hzero⟩
  exact (h.aged.clock hquiet).mono (by rw [Circuit.clock, hzero])

theorem Starts.steps (h : Starts g s) (hT : s.stepper.stepper_tick_cnt = i.step_rate >>> 1) :
    (After g (s.clock g.step_width i) ∧ elapsed (s.clock g.step_width i).stepper = 0) ∧
      Aged g.step_width.toNat s := by
  have hedge := edge_pre_steps i s.stepper h.state hT
  obtain ⟨hzero, htime⟩ := elapsed_restarts (i := i) h.rst
  have hstate : (edge i s.stepper).state_stepper_register = .move_head := by simp [hedge]
  have hrst : (edge i s.stepper).stepper_tick_cnt_rst = false := by simp [hedge, stepHead_rst]
  refine ⟨⟨⟨hstate,hrst,htime,le_of_eq_of_le hzero (Nat.zero_le _),?_⟩,hzero⟩,?_⟩
  · rw [Circuit.clock, hzero]
    exact aged_none _ (by omega)
  · have hpos := g.rate_pos
    have hlt := g.width_lt
    have hhalf := half_eq hrate
    rw [← hT] at hhalf
    -- a counter that is not cleared stands at the rate, which is not its half
    have hfirst : g.step_rate.toNat / 2 = 0 := by
      rcases h.stopped with hend | ⟨hclear, -⟩
      · rw [hend] at hhalf
        omega
      · rw [hclear] at hhalf
        exact hhalf.symm
    exact h.aged.mono (by rw [Settings.rest, hfirst]; omega)

theorem Before.counts (h : Before g s) (hT : s.stepper.stepper_tick_cnt ≠ i.step_rate >>> 1) :
    Before g (s.clock g.step_width i) ∧
      elapsed (s.clock g.step_width i).stepper = elapsed s.stepper + 1 := by
  have hedge := edge_pre_waits i s.stepper h.state hT
  have hne : s.stepper.stepper_tick_cnt.toNat ≠ g.step_rate.toNat / 2 := fun heq =>
    hT (BitVec.eq_of_toNat_eq (heq.trans (half_eq hrate).symm))
  have hle : elapsed s.stepper ≤ g.toStep := h.bound
  unfold Settings.toStep elapsed at hle
  obtain ⟨hnext, htime⟩ := elapsed_succ (i := i) h.rst h.time (by rw [hrate]; omega)
  have hstate : (edge i s.stepper).state_stepper_register = .pre_move_head := by
    simp [hedge, h.state]
  have hrst : (edge i s.stepper).stepper_tick_cnt_rst = false := by simp [hedge]
  have hquiet : (s.clock g.step_width i).stepper.step_pulse = false := by
    simp [Circuit.clock, hedge]
  refine ⟨⟨hstate,hrst,htime,?_,?_⟩,hnext⟩
  · rw [Circuit.clock, hnext, elapsed, Settings.toStep]
    have hin := h.time
    omega
  · exact (h.aged.clock hquiet).mono (by rw [Circuit.clock, hnext]; omega)

theorem Before.steps (h : Before g s) (hT : s.stepper.stepper_tick_cnt = i.step_rate >>> 1) :
    (After g (s.clock g.step_width i) ∧
      elapsed (s.clock g.step_width i).stepper = elapsed s.stepper + 1) ∧
      Aged g.step_width.toNat s := by
  have hedge := edge_pre_steps i s.stepper h.state hT
  have hpos := g.rate_pos
  have hlt := g.width_lt
  have hhalf := half_eq hrate
  rw [← hT] at hhalf
  have hle : elapsed s.stepper ≤ g.toStep := h.bound
  have hall : elapsed s.stepper = g.toStep := by
    unfold Settings.toStep elapsed at *
    omega
  obtain ⟨hnext, htime⟩ := elapsed_succ (i := i) h.rst h.time (by rw [hrate]; omega)
  have hstate : (edge i s.stepper).state_stepper_register = .move_head := by simp [hedge]
  have hrst : (edge i s.stepper).stepper_tick_cnt_rst = false := by simp [hedge, stepHead_rst]
  refine ⟨⟨⟨hstate,hrst,htime,?_,?_⟩,hnext⟩,?_⟩
  · rw [Circuit.clock, hnext, hall, Settings.toStep]
    omega
  · rw [Circuit.clock, hnext, hall, Nat.sub_self]
    exact aged_none _ (by omega)
  · exact h.aged.mono (by rw [hall, Settings.rest, Settings.toStep]; omega)

theorem After.counts (h : After g s) (hT : s.stepper.stepper_tick_cnt ≠ i.step_rate) :
    After g (s.clock g.step_width i) ∧
      elapsed (s.clock g.step_width i).stepper = elapsed s.stepper + 1 := by
  have hedge := edge_move_waits i s.stepper h.state hT
  have hne : s.stepper.stepper_tick_cnt.toNat ≠ g.step_rate.toNat := fun heq =>
    hT (BitVec.eq_of_toNat_eq (heq.trans (by rw [hrate])))
  have hle := h.bound
  have hin := h.time
  unfold elapsed at hle
  obtain ⟨hnext, htime⟩ := elapsed_succ (i := i) h.rst h.time (by rw [hrate]; omega)
  have hstate : (edge i s.stepper).state_stepper_register = .move_head := by
    simp [hedge, h.state]
  have hrst : (edge i s.stepper).stepper_tick_cnt_rst = false := by simp [hedge]
  have hquiet : (s.clock g.step_width i).stepper.step_pulse = false := by
    simp [Circuit.clock, hedge]
  refine ⟨⟨hstate,hrst,htime,?_,?_⟩,hnext⟩
  · rw [Circuit.clock, hnext, elapsed]
    omega
  · exact (h.aged.clock hquiet).mono (by rw [Circuit.clock, hnext]; omega)

/-- At the end of the turn, for the next step or for the next command. -/
theorem After.ends (h : After g s) (hT : s.stepper.stepper_tick_cnt = i.step_rate) :
    elapsed s.stepper = 51 * g.step_rate.toNat ∧
      (s.stepper.track_pos_cnt ≠ i.track_pos_cmd → Starts g (s.clock g.step_width i)) ∧
      (s.stepper.track_pos_cnt = i.track_pos_cmd → Waits g (s.clock g.step_width i)) := by
  have hedge := edge_move_ends i s.stepper h.state hT
  have hpos := g.rate_pos
  have htick : s.stepper.stepper_tick_cnt.toNat = g.step_rate.toNat := by rw [hT, hrate]
  have hle := h.bound
  have hall : elapsed s.stepper = 51 * g.step_rate.toNat := by
    unfold elapsed at *
    omega
  have htime : s.stepper.stepper_time_cnt.toNat = 0 := by
    unfold elapsed at hall
    omega
  have hquiet : (s.clock g.step_width i).stepper.step_pulse = false := by
    simp [Circuit.clock, hedge]
  have hstopped : Stopped g (edge i s.stepper) := by
    have hne : s.stepper.stepper_time_cnt ≠ 50#16 := by
      rintro heq
      rw [heq] at htime
      cases htime
    refine Or.inl ?_
    rw [edge_tick]
    simp [tickCounter, h.rst, hne, hT, hrate]
  have haged : Aged g.rest (s.clock g.step_width i) :=
    (h.aged.clock hquiet).mono (by rw [hall, Settings.rest, Settings.toStep]; omega)
  refine ⟨hall,fun hne => ?_,fun heq => ?_⟩
  · exact ⟨by simp [Circuit.clock, hedge, hne],by simp [Circuit.clock, hedge, hne],hstopped,haged⟩
  · exact ⟨by simp [Circuit.clock, hedge, heq],hstopped,haged⟩

end Phases

/-! ## A move -/

def posAfter (inward : Bool) (k p : ℕ) : ℕ := if inward then min (p+k) 900 else p - k

def pulsesOf (inward : Bool) (k p : ℕ) : ℕ := if inward then min k (900-p) else k

theorem stepHead_counts {s n : Stepper} {inward : Bool} {k p : ℕ}
    (hdir : s.floppy_ctrl_dir_q = inward) (hp : p ≤ 900)
    (hpos : s.track_pos.toNat = posAfter inward k p) :
    (stepHead s n).track_pos.toNat = posAfter inward (k+1) p ∧
      pulsesOf inward (k+1) p =
        pulsesOf inward k p + if (stepHead s n).step_pulse then 1 else 0 := by
  have hlt := s.track_pos.isLt
  have hone : (1#10).toNat = 1 := rfl
  cases inward with
  | true =>
    simp only [posAfter, pulsesOf, if_true] at hpos ⊢
    by_cases hfull : s.track_pos = 900#10
    · have hat : s.track_pos.toNat = 900 := by rw [hfull]; rfl
      simp [stepHead, hdir, hfull]
      omega
    · have hat : s.track_pos.toNat ≠ 900 := fun heq =>
        hfull (BitVec.eq_of_toNat_eq (by simpa using heq))
      simp [stepHead, hdir, hfull, BitVec.toNat_add]
      omega
  | false =>
    simp only [posAfter, pulsesOf, Bool.false_eq_true, if_false] at hpos ⊢
    by_cases hzero : s.track_pos = 0#10
    · have hat : s.track_pos.toNat = 0 := by rw [hzero]; rfl
      simp [stepHead, hdir, hzero]
      omega
    · have hat : s.track_pos.toNat ≠ 0 := fun heq =>
        hzero (BitVec.eq_of_toNat_eq (by simpa using heq))
      simp [stepHead, hdir, hzero, BitVec.toNat_sub]
      omega

structure Command where
  inward : Bool
  count : BitVec 10
  start : ℕ
  start_le : start ≤ 900

structure Held (g : Settings) (m : Command) (i : StepperInput) : Prop where
  rate : i.step_rate = g.step_rate
  count : i.track_pos_cmd = m.count
  trk00 : i.floppy_ctrl_trk00 = false

structure Done (g : Settings) (m : Command) (k n : ℕ) (s : Circuit) : Prop where
  shaped : Shaped g.step_width s
  dir : s.stepper.floppy_ctrl_dir_q = m.inward
  pos : s.stepper.track_pos.toNat = posAfter m.inward k m.start
  pulses : n + pending s = pulsesOf m.inward k m.start

def riseAt (w : BitVec 16) (i : StepperInput) (s : Circuit) : ℕ :=
  rise s.shaper.floppy_ctrl_step (s.clock w i).shaper.floppy_ctrl_step

section Move
variable {g : Settings} {m : Command} {i : StepperInput} {s : Circuit} {j k n d : ℕ}

theorem Done.still (h : Done g m k n s)
    (hquiet : (edge i s.stepper).step_pulse = false)
    (hdir : (edge i s.stepper).floppy_ctrl_dir_q = s.stepper.floppy_ctrl_dir_q)
    (hpos : (edge i s.stepper).track_pos = s.stepper.track_pos) :
    Done g m k (n + riseAt g.step_width i s) (s.clock g.step_width i) := by
  have hapart : Apart g.step_width s (s.clock g.step_width i) := fun hp => by
    rw [Circuit.clock, hquiet] at hp
    cases hp
  have hrise := h.shaped.rise g.width_pos hapart
  have hnone : (s.clock g.step_width i).stepper.step_pulse = false := hquiet
  rw [hnone, if_neg Bool.false_ne_true] at hrise
  have hpulses := h.pulses
  exact
    { shaped := h.shaped.clock g.width_pos hapart
      dir := hdir.trans h.dir
      pos := (congrArg BitVec.toNat hpos).trans h.pos
      pulses := by unfold riseAt; omega }

theorem Done.step (h : Done g m k n s) (haged : Aged g.step_width.toNat s)
    (hs : s.stepper.state_stepper_register = .pre_move_head)
    (hT : s.stepper.stepper_tick_cnt = i.step_rate >>> 1) :
    Done g m (k+1) (n + riseAt g.step_width i s) (s.clock g.step_width i) := by
  have hrise := h.shaped.rise (i := i) g.width_pos fun _ => haged
  have hpulses := h.pulses
  have hedge := edge_pre_steps i s.stepper hs hT
  obtain ⟨hpos, hcount⟩ := stepHead_counts (n := { tickCounter i s.stepper s.stepper with
      move_head_cmd_q := i.move_head_cmd
      head_moving := true
      stepper_tick_cnt_rst := false
      step_pulse := false }) h.dir m.start_le h.pos
  have hpulse : (s.clock g.step_width i).stepper.step_pulse =
      (stepHead s.stepper { tickCounter i s.stepper s.stepper with
        move_head_cmd_q := i.move_head_cmd
        head_moving := true
        stepper_tick_cnt_rst := false
        step_pulse := false }).step_pulse := by
    simp only [Circuit.clock, hedge]
  rw [hpulse] at hrise
  exact
    { shaped := h.shaped.clock g.width_pos fun _ => haged
      dir := by simp [Circuit.clock, hedge, h.dir]
      pos := by simp only [Circuit.clock, hedge]; exact hpos
      pulses := by unfold riseAt; omega }

inductive Turn (g : Settings) (m : Command) (j d n : ℕ) (s : Circuit) : Prop
  | starts (h : Starts g s) (hd : d = 0) (hk : s.stepper.track_pos_cnt = BitVec.ofNat 10 j)
      (done : Done g m j n s)
  | before (h : Before g s) (hd : elapsed s.stepper + 1 = d)
      (hk : s.stepper.track_pos_cnt = BitVec.ofNat 10 j) (done : Done g m j n s)
  | after (h : After g s) (hd : elapsed s.stepper + 1 = d)
      (hk : s.stepper.track_pos_cnt = BitVec.ofNat 10 (j+1)) (done : Done g m (j+1) n s)

theorem Turn.state (h : Turn g m j d n s) : s.stepper.state_stepper_register ≠ .wait_cmd := by
  cases h with
  | starts h => simp [h.state]
  | before h => simp [h.state]
  | after h => simp [h.state]

theorem Turn.dir (h : Turn g m j d n s) : s.stepper.floppy_ctrl_dir_q = m.inward := by
  cases h with
  | starts _ _ _ done => exact done.dir
  | before _ _ _ done => exact done.dir
  | after _ _ _ done => exact done.dir

theorem Turn.clock (h : Turn g m j d n s) (hheld : Held g m i) (hd : d < 51*g.step_rate.toNat+1) :
    Turn g m j (d+1) (n + riseAt g.step_width i s) (s.clock g.step_width i) := by
  cases h with
  | starts h hd' hk done =>
    subst hd'
    by_cases hT : s.stepper.stepper_tick_cnt = i.step_rate >>> 1
    · have hedge := edge_pre_steps i s.stepper h.state hT
      obtain ⟨⟨hafter, hzero⟩, haged⟩ := h.steps hheld.rate hT
      exact Turn.after hafter (by rw [hzero])
        (by simp [Circuit.clock, hedge, hk, BitVec.ofNat_add]) (done.step haged h.state hT)
    · have hedge := edge_pre_waits i s.stepper h.state hT
      obtain ⟨hbefore, hzero⟩ := h.counts hT
      exact Turn.before hbefore (by rw [hzero]) (by simp [Circuit.clock, hedge, hk])
        (done.still (by simp [hedge]) (by simp [hedge]) (by simp [hedge]))
  | before h hd' hk done =>
    by_cases hT : s.stepper.stepper_tick_cnt = i.step_rate >>> 1
    · have hedge := edge_pre_steps i s.stepper h.state hT
      obtain ⟨⟨hafter, hnext⟩, haged⟩ := h.steps hheld.rate hT
      exact Turn.after hafter (by rw [hnext, hd'])
        (by simp [Circuit.clock, hedge, hk, BitVec.ofNat_add]) (done.step haged h.state hT)
    · have hedge := edge_pre_waits i s.stepper h.state hT
      obtain ⟨hbefore, hnext⟩ := h.counts hheld.rate hT
      exact Turn.before hbefore (by rw [hnext, hd']) (by simp [Circuit.clock, hedge, hk])
        (done.still (by simp [hedge]) (by simp [hedge]) (by simp [hedge]))
  | after h hd' hk done =>
    have hT : s.stepper.stepper_tick_cnt ≠ i.step_rate := fun heq => by
      have hall := (h.ends hheld.rate heq).1
      omega
    have hedge := edge_move_waits i s.stepper h.state hT
    obtain ⟨hafter, hnext⟩ := h.counts hheld.rate hT
    exact Turn.after hafter (by rw [hnext, hd']) (by simp [Circuit.clock, hedge, hk])
      (done.still (by simp [hedge]) (by simp [hedge]) (by simp [hedge]))

theorem Turn.ends (h : Turn g m j (51*g.step_rate.toNat+1) n s) (hheld : Held g m i) :
    (BitVec.ofNat 10 (j+1) ≠ m.count →
      Turn g m (j+1) 0 (n + riseAt g.step_width i s) (s.clock g.step_width i)) ∧
    (BitVec.ofNat 10 (j+1) = m.count →
      Waits g (s.clock g.step_width i) ∧
        Done g m (j+1) (n + riseAt g.step_width i s) (s.clock g.step_width i)) := by
  have hpos := g.rate_pos
  cases h with
  | starts h hd => omega
  | before h hd =>
    have hle := h.bound
    unfold Settings.toStep at hle
    omega
  | after h hd hk done =>
    have hT : s.stepper.stepper_tick_cnt = i.step_rate := by
      by_contra hne
      have hnext := (h.counts hheld.rate hne).1.bound
      have hsucc := (h.counts hheld.rate hne).2
      omega
    have hedge := edge_move_ends i s.stepper h.state hT
    obtain ⟨-, hmore, hlast⟩ := h.ends hheld.rate hT
    have hdone := done.still (i := i) (by simp [hedge]) (by simp [hedge])
      (by simp [hedge, hheld.trk00])
    rw [hk, hheld.count] at hmore hlast
    refine ⟨fun hne => ?_,fun heq => ⟨hlast heq,hdone⟩⟩
    exact Turn.starts (hmore hne) rfl (by simp [Circuit.clock, hedge, hk]) hdone

theorem Done.rests (h : Done g m k n s) (hw : Waits g s) (hc : ¬Commanded i s) :
    Done g m k (n + riseAt g.step_width i s) (s.clock g.step_width i) := by
  have hedge := edge_wait_quiet i s.stepper hw.state fun hup => hc ⟨hw.state,hup⟩
  exact h.still (by simp [hedge]) (by simp [hedge]) (by simp [hedge])

/-- Long enough after a step the line has risen for it. -/
theorem pending_waits (h : Waits g s) : pending s = 0 := by
  have hpos := g.rate_pos
  have hage := h.aged
  unfold Aged Circuit.age Settings.rest at hage
  unfold pending
  cases hp : s.stepper.step_pulse with
  | true =>
    simp only [hp, if_true] at hage
    omega
  | false =>
    simp only [hp, Bool.false_eq_true, if_false] at hage
    simp only [Bool.false_or, decide_eq_true_eq]
    rw [if_neg (by omega)]

end Move

/-! ## Any commands -/

structure Sound (g : Settings) (s : Circuit) : Prop where
  phase : Waits g s ∨ Starts g s ∨ Before g s ∨ After g s
  shaped : Shaped g.step_width s
  pos_le : s.stepper.track_pos.toNat ≤ 900

theorem Circuit.AtReset.sound {s : Circuit} (g : Settings) (h : s.AtReset) : Sound g s := by
  have hlt := g.step_width.isLt
  have hcnt : s.shaper.step_pulse_cnt.toNat = 65535 := by rw [h.shaper]; rfl
  refine ⟨Or.inl ⟨?_,Or.inr ?_,?_⟩,⟨fun _ => by omega,fun hz => by omega,fun _ hin => by omega⟩,?_⟩
  · rw [h.stepper]
    rfl
  · rw [h.stepper]
    exact ⟨rfl,Or.inr rfl⟩
  · rw [Aged, Circuit.age, h.pulse, if_neg Bool.false_ne_true, hcnt]
    omega
  · rw [h.stepper]
    exact Nat.zero_le _

section Sound
variable {g : Settings} {i : StepperInput} {s : Circuit}

theorem stepHead_pos_le {s : Stepper} (n : Stepper) (h : s.track_pos.toNat ≤ 900) :
    (stepHead s n).track_pos.toNat ≤ 900 := by
  have hsame : s.track_pos.toNat = posAfter s.floppy_ctrl_dir_q 0 s.track_pos.toNat := by
    unfold posAfter
    split_ifs <;> omega
  rw [(stepHead_counts rfl h hsame).1]
  unfold posAfter
  split_ifs <;> omega

theorem edge_pos_le (i : StepperInput) (s : Stepper) (h : s.track_pos.toNat ≤ 900) :
    (edge i s).track_pos.toNat ≤ 900 := by
  cases hs : s.state_stepper_register with
  | wait_cmd =>
    by_cases hc : s.move_head_cmd_q = false ∧ i.move_head_cmd = true
    · simpa [edge_wait_start i s hs hc.1 hc.2] using h
    · simpa [edge_wait_quiet i s hs hc] using h
  | pre_move_head =>
    by_cases hT : s.stepper_tick_cnt = i.step_rate >>> 1
    · rw [edge_pre_steps i s hs hT]
      exact stepHead_pos_le _ h
    · simpa [edge_pre_waits i s hs hT] using h
  | move_head =>
    by_cases hT : s.stepper_tick_cnt = i.step_rate
    · cases htrk : i.floppy_ctrl_trk00 with
      | true => simp [edge_move_ends i s hs hT, htrk]
      | false => simpa [edge_move_ends i s hs hT, htrk] using h
    · simpa [edge_move_waits i s hs hT] using h

/-- A pulse begins only at the step of a turn. -/
theorem pulse_steps (hp : (edge i s.stepper).step_pulse = true) :
    s.stepper.state_stepper_register = .pre_move_head ∧
      s.stepper.stepper_tick_cnt = i.step_rate >>> 1 := by
  cases hs : s.stepper.state_stepper_register with
  | wait_cmd =>
    by_cases hc : s.stepper.move_head_cmd_q = false ∧ i.move_head_cmd = true
    · simp [edge_wait_start i s.stepper hs hc.1 hc.2] at hp
    · simp [edge_wait_quiet i s.stepper hs hc] at hp
  | pre_move_head =>
    refine ⟨rfl,?_⟩
    by_contra hT
    simp [edge_pre_waits i s.stepper hs hT] at hp
  | move_head =>
    by_cases hT : s.stepper.stepper_tick_cnt = i.step_rate
    · simp [edge_move_ends i s.stepper hs hT] at hp
    · simp [edge_move_waits i s.stepper hs hT] at hp

theorem Sound.apart (h : Sound g s) (hrate : i.step_rate = g.step_rate) :
    Apart g.step_width s (s.clock g.step_width i) := by
  intro hp
  obtain ⟨hs, hT⟩ := pulse_steps hp
  rcases h.phase with hw | hstart | hbefore | hafter
  · exact absurd hw.state (by simp [hs])
  · exact (hstart.steps hrate hT).2
  · exact (hbefore.steps hrate hT).2
  · exact absurd hafter.state (by simp [hs])

theorem Sound.phase_clock (h : Sound g s) (hrate : i.step_rate = g.step_rate) :
    Waits g (s.clock g.step_width i) ∨ Starts g (s.clock g.step_width i) ∨
      Before g (s.clock g.step_width i) ∨ After g (s.clock g.step_width i) := by
  rcases h.phase with hw | hstart | hbefore | hafter
  · by_cases hc : Commanded i s
    · exact Or.inr (Or.inl (hw.starts hrate hc))
    · exact Or.inl (hw.quiet hrate hc)
  · by_cases hT : s.stepper.stepper_tick_cnt = i.step_rate >>> 1
    · exact Or.inr (Or.inr (Or.inr (hstart.steps hrate hT).1.1))
    · exact Or.inr (Or.inr (Or.inl (hstart.counts hT).1))
  · by_cases hT : s.stepper.stepper_tick_cnt = i.step_rate >>> 1
    · exact Or.inr (Or.inr (Or.inr (hbefore.steps hrate hT).1.1))
    · exact Or.inr (Or.inr (Or.inl (hbefore.counts hrate hT).1))
  · by_cases hT : s.stepper.stepper_tick_cnt = i.step_rate
    · obtain ⟨-, hmore, hlast⟩ := hafter.ends hrate hT
      by_cases hcnt : s.stepper.track_pos_cnt = i.track_pos_cmd
      · exact Or.inl (hlast hcnt)
      · exact Or.inr (Or.inl (hmore hcnt))
    · exact Or.inr (Or.inr (Or.inr (hafter.counts hrate hT).1))

theorem Sound.clock (h : Sound g s) (hrate : i.step_rate = g.step_rate) :
    Sound g (s.clock g.step_width i) where
  phase := h.phase_clock hrate
  shaped := h.shaped.clock g.width_pos (h.apart hrate)
  pos_le := edge_pos_le i s.stepper h.pos_le

theorem Sound.waits (h : Sound g s) (hs : s.stepper.state_stepper_register = .wait_cmd) :
    Waits g s := by
  rcases h.phase with hw | hstart | hbefore | hafter
  · exact hw
  · exact absurd hstart.state (by simp [hs])
  · exact absurd hbefore.state (by simp [hs])
  · exact absurd hafter.state (by simp [hs])

end Sound

/-! ## Runs -/

def Settings.turn (g : Settings) : ℕ := 51 * g.step_rate.toNat + 2

section Runs
variable (g : Settings) (i : ℕ → StepperInput) (s₀ : Circuit)

def stateAt (t : ℕ) : Circuit := trace (Circuit.clock g.step_width) i s₀ t

def line (t : ℕ) : Bool := (stateAt g i s₀ t).shaper.floppy_ctrl_step

variable {g i s₀} {m : Command} {c j : ℕ}

theorem turn_run {a d : ℕ} (hd : d ≤ 51*g.step_rate.toNat+1)
    (hheld : ∀ t, a ≤ t → t < a+d → Held g m (i (c+t)))
    (h : Turn g m j 0 (risingEdges (line g i s₀) c a) (stateAt g i s₀ (c+a))) :
    Turn g m j d (risingEdges (line g i s₀) c (a+d)) (stateAt g i s₀ (c+(a+d))) := by
  induction d with
  | zero => exact h
  | succ d ih =>
    have hprev := ih (by omega) fun t ht hlt => hheld t ht (by omega)
    exact hprev.clock (hheld (a+d) (by omega) (by omega)) (by omega)

theorem turns_run (hj : j < m.count.toNat)
    (hheld : ∀ t, 1 ≤ t → t < 1+m.count.toNat*g.turn → Held g m (i (c+t)))
    (h : Turn g m 0 0 (risingEdges (line g i s₀) c 1) (stateAt g i s₀ (c+1))) :
    Turn g m j 0 (risingEdges (line g i s₀) c (1+j*g.turn)) (stateAt g i s₀ (c+(1+j*g.turn))) := by
  induction j with
  | zero => simpa using h
  | succ j ih =>
    have hroom : (j+1)*g.turn ≤ m.count.toNat*g.turn := Nat.mul_le_mul_right _ (by omega)
    have hsucc : (j+1)*g.turn = j*g.turn + g.turn := Nat.succ_mul _ _
    have hturn : g.turn = 51*g.step_rate.toNat+1+1 := rfl
    have hin := turn_run (d := 51*g.step_rate.toNat+1) le_rfl
      (fun t ht hlt => hheld t (by omega) (by omega)) (ih (by omega))
    have hne : BitVec.ofNat 10 (j+1) ≠ m.count := fun heq => by
      have hlt := m.count.isLt
      rw [← heq, BitVec.toNat_ofNat] at hj
      omega
    have hlast := hheld (1+j*g.turn+(51*g.step_rate.toNat+1)) (by omega) (by omega)
    have hnext := (hin.ends hlast).1 hne
    rw [show 1+(j+1)*g.turn = 1+j*g.turn+(51*g.step_rate.toNat+1)+1 by omega]
    exact hnext

theorem turns_end (hcount : m.count ≠ 0)
    (hheld : ∀ t, 1 ≤ t → t < 1+m.count.toNat*g.turn → Held g m (i (c+t)))
    (h : Turn g m 0 0 (risingEdges (line g i s₀) c 1) (stateAt g i s₀ (c+1))) :
    Waits g (stateAt g i s₀ (c+(1+m.count.toNat*g.turn))) ∧
      Done g m m.count.toNat (risingEdges (line g i s₀) c (1+m.count.toNat*g.turn))
        (stateAt g i s₀ (c+(1+m.count.toNat*g.turn))) := by
  have hpos : m.count.toNat ≠ 0 := fun hz => hcount (BitVec.eq_of_toNat_eq hz)
  obtain ⟨j, hj⟩ := Nat.exists_eq_succ_of_ne_zero hpos
  rw [Nat.succ_eq_add_one] at hj
  have hsucc : (j+1)*g.turn = j*g.turn + g.turn := Nat.succ_mul _ _
  have hturn : g.turn = 51*g.step_rate.toNat+1+1 := rfl
  have hin := turn_run (d := 51*g.step_rate.toNat+1) le_rfl
    (fun t ht hlt => hheld t (by omega) (by rw [hj]; omega)) (turns_run (j := j) (by omega) hheld h)
  have heq : BitVec.ofNat 10 (j+1) = m.count := by
    rw [← hj, BitVec.ofNat_toNat, BitVec.setWidth_eq]
  have hlast := hheld (1+j*g.turn+(51*g.step_rate.toNat+1)) (by omega) (by rw [hj]; omega)
  have hends := (hin.ends hlast).2 heq
  rw [hj, show 1+(j+1)*g.turn = 1+j*g.turn+(51*g.step_rate.toNat+1)+1 by omega]
  exact hends

theorem rest_run {a k n : ℕ} (hrate : ∀ t, (i t).step_rate = g.step_rate)
    (hnone : ∀ t, a ≤ t → t < a+k → ¬Commanded (i (c+t)) (stateAt g i s₀ (c+t)))
    (hw : Waits g (stateAt g i s₀ (c+a)))
    (h : Done g m n (risingEdges (line g i s₀) c a) (stateAt g i s₀ (c+a))) :
    Waits g (stateAt g i s₀ (c+(a+k))) ∧
      Done g m n (risingEdges (line g i s₀) c (a+k)) (stateAt g i s₀ (c+(a+k))) ∧
      Aged (g.rest+k) (stateAt g i s₀ (c+(a+k))) := by
  induction k with
  | zero => exact ⟨hw,h,hw.aged⟩
  | succ k ih =>
    obtain ⟨hw', h', haged⟩ := ih fun t ht hlt => hnone t ht (by omega)
    have hquiet := hnone (a+k) (by omega) (by omega)
    have hedge := edge_wait_quiet (i (c+(a+k))) _ hw'.state fun hup => hquiet ⟨hw'.state,hup⟩
    exact ⟨hw'.quiet (hrate _) hquiet,h'.rests hw' hquiet,
      haged.clock (by simp [Circuit.clock, hedge])⟩

theorem at_sound (hreset : s₀.AtReset) (hrate : ∀ t, (i t).step_rate = g.step_rate) (t : ℕ) :
    Sound g (stateAt g i s₀ t) :=
  trace_invariant (Sound g) (hreset.sound g) (fun t _ h => h.clock (hrate t)) t

/-- The command starts the first turn. -/
theorem turn_starts (hsound : Sound g (stateAt g i s₀ c)) (hrate : (i c).step_rate = g.step_rate)
    (hcmd : Commanded (i c) (stateAt g i s₀ c)) (hdir : (i c).move_dir = m.inward)
    (hstart : (stateAt g i s₀ c).stepper.track_pos.toNat = m.start) :
    Turn g m 0 0 (risingEdges (line g i s₀) c 1) (stateAt g i s₀ (c+1)) := by
  have hw := hsound.waits hcmd.1
  have hedge := edge_wait_start (i c) (stateAt g i s₀ c).stepper hcmd.1 hcmd.2.1 hcmd.2.2
  have hapart := hsound.apart hrate
  have hrise := hsound.shaped.rise g.width_pos hapart
  have hnone : ((stateAt g i s₀ c).clock g.step_width (i c)).stepper.step_pulse = false := by
    simp [Circuit.clock, hedge]
  rw [hnone, if_neg Bool.false_ne_true, pending_waits hw] at hrise
  refine Turn.starts (hw.starts hrate hcmd) rfl ?_ ?_
  · show (edge (i c) (stateAt g i s₀ c).stepper).track_pos_cnt = _
    simp [hedge]
  · refine ⟨hsound.shaped.clock g.width_pos hapart,?_,?_,?_⟩
    · show (edge (i c) (stateAt g i s₀ c).stepper).floppy_ctrl_dir_q = _
      simp [hedge, hdir]
    · have hle := m.start_le
      show (edge (i c) (stateAt g i s₀ c).stepper).track_pos.toNat = _
      simp only [hedge, tickCounter_track_pos, hstart, posAfter]
      split_ifs <;> omega
    · have hzero : pulsesOf m.inward 0 m.start = 0 := by
        unfold pulsesOf
        split_ifs <;> simp
      rw [hzero]
      simpa [risingEdges, line, stateAt, trace] using hrise

/-- Every clock of the command is in one of its turns. -/
theorem turn_at (hheld : ∀ t, 1 ≤ t → t < 1+m.count.toNat*g.turn → Held g m (i (c+t)))
    (h : Turn g m 0 0 (risingEdges (line g i s₀) c 1) (stateAt g i s₀ (c+1))) (t : ℕ) (ht : 1 ≤ t)
    (hlt : t < 1+m.count.toNat*g.turn) :
    ∃ j d, Turn g m j d (risingEdges (line g i s₀) c t) (stateAt g i s₀ (c+t)) := by
  have hturn : g.turn = 51*g.step_rate.toNat+1+1 := rfl
  have hj : (t-1)/g.turn < m.count.toNat := Nat.div_lt_of_lt_mul (by rw [Nat.mul_comm]; omega)
  have hd : (t-1)%g.turn < g.turn := Nat.mod_lt _ (by omega)
  have hsplit : (t-1)/g.turn*g.turn + (t-1)%g.turn = t-1 := Nat.div_add_mod' _ _
  have hroom : ((t-1)/g.turn+1)*g.turn ≤ m.count.toNat*g.turn := Nat.mul_le_mul_right _ (by omega)
  have hsucc : ((t-1)/g.turn+1)*g.turn = (t-1)/g.turn*g.turn + g.turn := Nat.succ_mul _ _
  have hin := turn_run (d := (t-1)%g.turn) (by omega)
    (fun u hu hult => hheld u (by omega) (by omega)) (turns_run hj hheld h)
  rw [show 1+(t-1)/g.turn*g.turn+(t-1)%g.turn = t by omega] at hin
  exact ⟨_,_,hin⟩

end Runs

/-- What a command has come to, when no other has followed it by the clock `u`:
it began at `c` and the machine waited again at `T`. -/
structure Moved (g : Settings) (i : ℕ → StepperInput) (s₀ : Circuit) (inward : Bool)
    (n start c T u : ℕ) : Prop where
  pulses : risingEdges (line g i s₀) c (u-c) = pulsesOf inward n start
  pos : (stateAt g i s₀ u).stepper.track_pos.toNat = posAfter inward n start
  dir : ∀ t, c < t → t ≤ u → (stateAt g i s₀ t).stepper.floppy_ctrl_dir_q = inward
  state : (stateAt g i s₀ u).stepper.state_stepper_register = .wait_cmd
  moving : T < u → (stateAt g i s₀ u).stepper.head_moving = false
  /-- The last pulse is over. -/
  ended : T + g.step_width.toNat ≤ u → line g i s₀ u = false

section Runs
variable {g : Settings} {i : ℕ → StepperInput} {s₀ : Circuit} {m : Command} {c : ℕ}

theorem line_ended {a k n : ℕ} (hrate : ∀ t, (i t).step_rate = g.step_rate)
    (hnone : ∀ t, a ≤ t → t < a+k → ¬Commanded (i (c+t)) (stateAt g i s₀ (c+t)))
    (hw : Waits g (stateAt g i s₀ (c+a)))
    (h : Done g m n (risingEdges (line g i s₀) c a) (stateAt g i s₀ (c+a)))
    (hk : g.step_width.toNat ≤ k) : line g i s₀ (c+(a+k)) = false := by
  have hwidth := g.width_pos
  have hrest := g.rate_pos
  have hlt := g.step_width.isLt
  obtain ⟨k, rfl⟩ := Nat.exists_eq_succ_of_ne_zero (show k ≠ 0 by omega)
  have haged := (rest_run (k := k) hrate (fun t ht hlt => hnone t ht (by omega)) hw h).2.2
  have hcnt : g.step_width.toNat ≤ (stateAt g i s₀ (c+(a+k))).shaper.step_pulse_cnt.toNat := by
    unfold Aged Circuit.age Settings.rest at haged
    split_ifs at haged <;> omega
  show decide ((stateAt g i s₀ (c+(a+k))).shaper.step_pulse_cnt.toNat < g.step_width.toNat) = false
  rw [decide_eq_false_iff_not]
  omega

/-- From the first turn of a command on. -/
theorem moved_of_turn (hrate : ∀ t, (i t).step_rate = g.step_rate) (hcount : m.count ≠ 0)
    (hheld : ∀ t, 1 ≤ t → t < 1+m.count.toNat*g.turn → Held g m (i (c+t)))
    (h : Turn g m 0 0 (risingEdges (line g i s₀) c 1) (stateAt g i s₀ (c+1))) (k : ℕ)
    (hnone : ∀ t, 1+m.count.toNat*g.turn ≤ t → t < 1+m.count.toNat*g.turn+k →
      ¬Commanded (i (c+t)) (stateAt g i s₀ (c+t))) :
    Moved g i s₀ m.inward m.count.toNat m.start c (c+(1+m.count.toNat*g.turn))
      (c+(1+m.count.toNat*g.turn+k)) := by
  obtain ⟨hwaits, hdone⟩ := turns_end hcount hheld h
  obtain ⟨hw, hlast, -⟩ := rest_run hrate hnone hwaits hdone
  exact
    { pulses := by
        have hpulses := hlast.pulses
        rw [pending_waits hw, Nat.add_zero] at hpulses
        rw [Nat.add_sub_cancel_left, hpulses]
      pos := hlast.pos
      dir := by
        intro t hct htu
        obtain ⟨t, rfl⟩ := Nat.exists_eq_add_of_lt hct
        by_cases hin : t+1 < 1+m.count.toNat*g.turn
        · obtain ⟨_, _, hturn⟩ := turn_at hheld h (t+1) (by omega) hin
          exact hturn.dir
        · have hrest := rest_run (k := t+1-(1+m.count.toNat*g.turn)) hrate
            (fun u hu hlt => hnone u hu (by omega)) hwaits hdone
          rw [show 1+m.count.toNat*g.turn+(t+1-(1+m.count.toNat*g.turn)) = t+1 by omega] at hrest
          exact hrest.2.1.dir
      state := hw.state
      moving := by
        intro hlt
        obtain ⟨k, rfl⟩ := Nat.exists_eq_succ_of_ne_zero (show k ≠ 0 by omega)
        have hprev := (rest_run (k := k) hrate (fun u hu hlt => hnone u hu (by omega)) hwaits
          hdone).1
        have hquiet := hnone (1+m.count.toNat*g.turn+k) (by omega) (by omega)
        refine Bool.eq_false_iff.mpr fun hmoving => ?_
        rcases (edge_moving _ _).mp hmoving with hbusy | hc
        · exact hbusy hprev.state
        · exact hquiet hc
      ended := fun hk => line_ended hrate hnone hwaits hdone (by omega) }

end Runs

/-- A command moves the head by its steps, with a pulse for each that the machine
counts, and after as many turns the machine waits again. -/
theorem command_moves (g : Settings) (s₀ : Circuit) (hreset : s₀.AtReset)
    (i : ℕ → StepperInput) (hrate : ∀ t, (i t).step_rate = g.step_rate) (c : ℕ)
    (hcmd : Commanded (i c) (stateAt g i s₀ c)) (n : BitVec 10) (hn : n ≠ 0)
    (hheld : ∀ t, c < t → t < c+(1+n.toNat*g.turn) →
      (i t).track_pos_cmd = n ∧ (i t).floppy_ctrl_trk00 = false) :
    (∀ t, c < t → t < c+(1+n.toNat*g.turn) →
      (stateAt g i s₀ t).stepper.state_stepper_register ≠ .wait_cmd ∧
        (stateAt g i s₀ t).stepper.head_moving = true) ∧
    ∀ u, c+(1+n.toNat*g.turn) ≤ u →
      (∀ t, c+(1+n.toNat*g.turn) ≤ t → t < u → ¬Commanded (i t) (stateAt g i s₀ t)) →
      Moved g i s₀ (i c).move_dir n.toNat (stateAt g i s₀ c).stepper.track_pos.toNat c
        (c+(1+n.toNat*g.turn)) u := by
  have hsound := at_sound hreset hrate c
  let m : Command := ⟨(i c).move_dir,n,_,hsound.pos_le⟩
  have hheld' : ∀ t, 1 ≤ t → t < 1+m.count.toNat*g.turn → Held g m (i (c+t)) := fun t ht hlt =>
    have hin : t < 1+n.toNat*g.turn := hlt
    ⟨hrate _,(hheld (c+t) (by omega) (by omega)).1,(hheld (c+t) (by omega) (by omega)).2⟩
  have hfirst : Turn g m 0 0 (risingEdges (line g i s₀) c 1) (stateAt g i s₀ (c+1)) :=
    turn_starts hsound (hrate c) hcmd rfl rfl
  have hstate : ∀ t, 1 ≤ t → t < 1+n.toNat*g.turn →
      (stateAt g i s₀ (c+t)).stepper.state_stepper_register ≠ .wait_cmd := fun t ht hlt => by
    obtain ⟨_, _, hturn⟩ := turn_at hheld' hfirst t ht hlt
    exact hturn.state
  constructor
  · intro t hct hlt
    obtain ⟨t, rfl⟩ := Nat.exists_eq_add_of_lt hct
    refine ⟨hstate (t+1) (by omega) (by omega),(edge_moving _ (stateAt g i s₀ (c+t))).mpr ?_⟩
    obtain rfl | hpos := Nat.eq_zero_or_pos t
    · exact Or.inr hcmd
    · exact Or.inl (hstate t hpos (by omega))
  · intro u hu hnone
    obtain ⟨k, rfl⟩ := Nat.exists_eq_add_of_le hu
    rw [Nat.add_assoc]
    exact moved_of_turn hrate hn hheld' hfirst k fun t ht hlt => by
      have hge : 1+n.toNat*g.turn ≤ t := ht
      have hlt' : t < 1+n.toNat*g.turn+k := hlt
      exact hnone (c+t) (by omega) (by omega)

def shortPulses : Settings := ⟨1,10,by decide,by decide,by decide⟩

def resetCircuit : Circuit where
  stepper := Stepper.onReset ⟨.move_head,true,80,3,1,7,false,false,false,true,2⟩
  shaper := Shaper.onReset

def threeSteps (t : ℕ) : StepperInput := ⟨1,3,t == 0,true,false⟩

theorem command_moves_three : risingEdges (line shortPulses threeSteps resetCircuit) 0 160 = 3 :=
  ((command_moves shortPulses resetCircuit ⟨rfl,rfl,rfl⟩ threeSteps (fun _ => rfl) 0 ⟨rfl,rfl,rfl⟩ 3
    (by decide) (fun _ _ _ => ⟨rfl,rfl⟩)).2 160 (by decide) (fun t ht hlt => by
      have hT : 0+(1+(3 : BitVec 10).toNat*shortPulses.turn) = 160 := rfl
      omega)).pulses

end Pauline.StepPulses
