import Pauline.Library.Clocked

/-!
# The index trigger

The first index edge after the clear starts a delay, in ticks of a divider that
the clear holds, and its end starts the dump. Without an edge the ticks run into
the timeout. A tick is 51 clocks, so that the delay is late by as many clocks as
it has ticks.
-/

set_option autoImplicit false

namespace Pauline.IndexTrigger

/-! ## The circuit -/

structure Settings where
  delay : BitVec 32
  timeout : BitVec 32
  invert : Bool
  pulse_out_mode : Bool
  rising_edge : Bool
  falling_edge : Bool

structure TriggerInput where
  signal_in : Bool
  clear_event : Bool

structure TickGenerator where
  tick_us_cnt : BitVec 32
  tick_us : Bool

def TickGenerator.step (sync : Bool) (s : TickGenerator) : TickGenerator :=
  if sync then ⟨0,false⟩
  else if s.tick_us_cnt ≥ 50 then ⟨0,true⟩
  else ⟨s.tick_us_cnt+1,false⟩

structure EventLatch where
  signal_in_q1 : Bool
  event_state : Bool

def EventLatch.step (g : Settings) (i : TriggerInput) (s : EventLatch) : EventLatch where
  signal_in_q1 := i.signal_in
  event_state :=
    if i.clear_event then false
    else if i.signal_in ≠ s.signal_in_q1 then
      (g.rising_edge && !s.signal_in_q1) || (g.falling_edge && s.signal_in_q1) || s.event_state
    else s.event_state

structure Delay where
  signal_delay_cnt : BitVec 32
  signal_out_state : Bool
  signal_out_state_q : Bool
  signal_pulse_out : Bool

def Delay.step (g : Settings) (tick_us event_state : Bool) (s : Delay) : Delay :=
  let n := { s with
    signal_out_state_q := s.signal_out_state
    signal_pulse_out := s.signal_out_state ≠ s.signal_out_state_q && s.signal_out_state }
  if !event_state then
    { n with signal_delay_cnt := 0, signal_out_state := false, signal_out_state_q := false }
  else if s.signal_delay_cnt < g.delay then
    if tick_us then { n with signal_delay_cnt := s.signal_delay_cnt + 1 } else n
  else { n with signal_out_state := true }

structure Timeout where
  signal_timeout_cnt : BitVec 32
  timeout_state : Bool

def Timeout.step (g : Settings) (clear_event tick_us event_state : Bool) (s : Timeout) : Timeout :=
  if clear_event then ⟨0,false⟩
  else if !event_state then
    if s.signal_timeout_cnt < g.timeout then
      if tick_us then { s with signal_timeout_cnt := s.signal_timeout_cnt + 1 } else s
    else { s with timeout_state := true }
  else { s with signal_timeout_cnt := 0 }

structure Trigger where
  ticks : TickGenerator
  latch : EventLatch
  delay : Delay
  timeout : Timeout

def Trigger.onReset : Trigger := ⟨⟨0,false⟩,⟨false,false⟩,⟨0,false,false,false⟩,⟨0,false⟩⟩

def Trigger.step (g : Settings) (i : TriggerInput) (s : Trigger) : Trigger where
  ticks := s.ticks.step i.clear_event
  latch := s.latch.step g i
  delay := s.delay.step g s.ticks.tick_us s.latch.event_state
  timeout := s.timeout.step g i.clear_event s.ticks.tick_us s.latch.event_state

def Trigger.signalOut (g : Settings) (s : Trigger) : Bool :=
  if g.pulse_out_mode then s.delay.signal_pulse_out else xor s.delay.signal_out_state g.invert

def indexTrigger (delay timeout : BitVec 32) : Settings := ⟨delay,timeout,false,false,true,false⟩

/-! ## What it is to do -/

def Rises (i : ℕ → TriggerInput) (t : ℕ) : Prop :=
  (i (t-1)).signal_in = false ∧ (i t).signal_in = true

structure First (i : ℕ → TriggerInput) (r e : ℕ) : Prop where
  edge : Rises i e
  le : r ≤ e
  none_before : ∀ u, r ≤ u → u < e → ¬ Rises i u

structure Released (i : ℕ → TriggerInput) (r n : ℕ) : Prop where
  pos : 1 ≤ r
  le : r ≤ n
  clear : ∀ u < r, (i u).clear_event = true
  free : ∀ u, r ≤ u → u < n → (i u).clear_event = false

section Law
variable (delay timeout : BitVec 32) (i : ℕ → TriggerInput) (s : Trigger)

def run : ℕ → Trigger := Clocked.trace (Trigger.step (indexTrigger delay timeout)) i s

def signalOut (t : ℕ) : Bool := (run delay timeout i s t).signalOut (indexTrigger delay timeout)

/-- The outputs until the next clear: `signal_out` is low until the first edge,
rises within a microsecond of the delay after it and stays high, and a timeout
is signalled only without an edge for as long as it says. -/
structure Timed (r n : ℕ) : Prop where
  low : ∀ u, r ≤ u → u ≤ n → (∀ v, r ≤ v → v < u → ¬ Rises i v) →
    signalOut delay timeout i s u = false
  not_early : ∀ e u, First i r e → r ≤ u → u ≤ n → u + 50 ≤ e + 50 * delay.toNat →
    signalOut delay timeout i s u = false
  not_late : ∀ e u, First i r e → u ≤ n → e + 50 * (delay.toNat + 1) + 10 < u →
    signalOut delay timeout i s u = true
  stays : ∀ u, r ≤ u → u < n → signalOut delay timeout i s u = true →
    signalOut delay timeout i s (u+1) = true
  timeout : ∀ u, r ≤ u → u ≤ n → (run delay timeout i s u).timeout.timeout_state = true →
    r + 50 * timeout.toNat < u ∧ ∀ v, r ≤ v → v < r + 50 * timeout.toNat → ¬ Rises i v

end Law

def Fired (delay : BitVec 32) (s : Trigger) : Prop :=
  s.latch.event_state = true ∧
    (s.delay.signal_delay_cnt < delay → s.delay.signal_out_state = true)

/-! ## One clock -/

theorem toNat_succ {x y : BitVec 32} (h : x < y) : (x + 1#32).toNat = x.toNat + 1 := by
  have hlt : x.toNat < y.toNat := h
  have hmax := y.isLt
  rw [BitVec.toNat_add, BitVec.toNat_ofNat]
  omega

theorem TickGenerator.cnt_step (s : TickGenerator) (h : s.tick_us_cnt.toNat ≤ 50) :
    (s.step false).tick_us_cnt.toNat = (s.tick_us_cnt.toNat + 1) % 51 ∧
      (s.step false).tick_us = decide (s.tick_us_cnt.toNat = 50) := by
  have hfifty : (50 : BitVec 32).toNat = 50 := rfl
  by_cases hend : s.tick_us_cnt ≥ 50
  · have hle : 50 ≤ s.tick_us_cnt.toNat := hend
    have heq : s.tick_us_cnt.toNat = 50 := by omega
    rw [TickGenerator.step, if_neg Bool.false_ne_true, if_pos hend, heq]
    exact ⟨rfl,rfl⟩
  · have hlt : s.tick_us_cnt < 50 := BitVec.not_le.mp hend
    have hnext : (s.tick_us_cnt + 1).toNat = s.tick_us_cnt.toNat + 1 := toNat_succ hlt
    rw [BitVec.lt_def, hfifty] at hlt
    simp only [TickGenerator.step, Bool.false_eq_true, if_false, if_neg hend, hnext]
    exact ⟨by omega,(decide_eq_false (by omega)).symm⟩

theorem Delay.held_step (g : Settings) (tick_us : Bool) (s : Delay) :
    (s.step g tick_us false).signal_delay_cnt.toNat = 0 ∧
      (s.step g tick_us false).signal_out_state = false := ⟨rfl,rfl⟩

theorem Delay.count_step (g : Settings) (tick_us : Bool) (s : Delay) :
    (s.step g tick_us true).signal_delay_cnt.toNat =
        (if s.signal_delay_cnt.toNat < g.delay.toNat then
          s.signal_delay_cnt.toNat + if tick_us then 1 else 0
        else s.signal_delay_cnt.toNat) ∧
      (s.step g tick_us true).signal_out_state =
        (s.signal_out_state || decide (g.delay.toNat ≤ s.signal_delay_cnt.toNat)) := by
  by_cases hlt : s.signal_delay_cnt < g.delay
  · have hnat : s.signal_delay_cnt.toNat < g.delay.toNat := hlt
    have hnext := toNat_succ hlt
    cases tick_us <;> simp [Delay.step, hlt, hnat, hnext, -BitVec.toNat_add]
  · have hnat : ¬ s.signal_delay_cnt.toNat < g.delay.toNat := hlt
    have hle := Nat.le_of_not_lt hnat
    simp [Delay.step, hlt, hle]

theorem Timeout.count_step (g : Settings) (tick_us : Bool) (s : Timeout) :
    (s.step g false tick_us false).signal_timeout_cnt.toNat =
        (if s.signal_timeout_cnt.toNat < g.timeout.toNat then
          s.signal_timeout_cnt.toNat + if tick_us then 1 else 0
        else s.signal_timeout_cnt.toNat) ∧
      (s.step g false tick_us false).timeout_state =
        (s.timeout_state || decide (g.timeout.toNat ≤ s.signal_timeout_cnt.toNat)) := by
  by_cases hlt : s.signal_timeout_cnt < g.timeout
  · have hnat : s.signal_timeout_cnt.toNat < g.timeout.toNat := hlt
    have hnext := toNat_succ hlt
    cases tick_us <;> simp [Timeout.step, hlt, hnat, hnext, -BitVec.toNat_add]
  · have hnat : ¬ s.signal_timeout_cnt.toNat < g.timeout.toNat := hlt
    have hle := Nat.le_of_not_lt hnat
    simp [Timeout.step, hlt, hle]

theorem EventLatch.event_step (delay timeout : BitVec 32) (i : TriggerInput) (s : EventLatch) :
    (s.step (indexTrigger delay timeout) i).event_state = true ↔
      i.clear_event = false ∧
        (s.signal_in_q1 = false ∧ i.signal_in = true ∨ s.event_state = true) := by
  unfold EventLatch.step indexTrigger
  cases i.clear_event <;> cases i.signal_in <;> cases s.signal_in_q1 <;> cases s.event_state <;>
    simp

/-! ## From the release on -/

section Run
variable {delay timeout : BitVec 32} {i : ℕ → TriggerInput} {s : Trigger} {r n : ℕ}

theorem signalOut_eq (t : ℕ) :
    signalOut delay timeout i s t = (run delay timeout i s t).delay.signal_out_state := by
  rw [signalOut, Trigger.signalOut, indexTrigger, if_neg Bool.false_ne_true, Bool.xor_false]

theorem signal_in_q1_eq {t : ℕ} (ht : 1 ≤ t) :
    (run delay timeout i s t).latch.signal_in_q1 = (i (t-1)).signal_in := by
  obtain ⟨t, rfl⟩ := Nat.exists_eq_add_of_le' ht
  rfl

variable (hrel : Released i r n)
include hrel

theorem released : (run delay timeout i s r).ticks = ⟨0,false⟩ ∧
    (run delay timeout i s r).latch.event_state = false ∧
    (run delay timeout i s r).timeout = ⟨0,false⟩ := by
  obtain ⟨q, rfl⟩ := Nat.exists_eq_add_of_le' hrel.pos
  have hclear := hrel.clear q (by omega)
  simp [run, Clocked.trace, Trigger.step, TickGenerator.step, EventLatch.step, Timeout.step, hclear]

theorem ticks_run {m : ℕ} (hm : r+m ≤ n) :
    (run delay timeout i s (r+m)).ticks.tick_us_cnt.toNat = m % 51 ∧
      (run delay timeout i s (r+m)).ticks.tick_us = decide (0 < m ∧ m % 51 = 0) := by
  induction m with
  | zero =>
    rw [Nat.add_zero, (released hrel).1]
    exact ⟨rfl,rfl⟩
  | succ m ih =>
    obtain ⟨hcnt, -⟩ := ih (by omega)
    have hfree := hrel.free (r+m) (by omega) (by omega)
    obtain ⟨hnext, htick⟩ := TickGenerator.cnt_step _ (hcnt.trans_le (by omega))
    rw [← Nat.add_assoc, run, Clocked.trace, Trigger.step, hfree, ← run, hnext, htick, hcnt]
    exact ⟨by omega,decide_eq_decide.mpr (by omega)⟩

theorem event_iff {m : ℕ} (hm : r+m ≤ n) :
    (run delay timeout i s (r+m)).latch.event_state = true ↔
      ∃ v, r ≤ v ∧ v < r+m ∧ Rises i v := by
  have hpos := hrel.pos
  induction m with
  | zero =>
    rw [Nat.add_zero, (released hrel).2.1]
    simp only [Bool.false_eq_true, false_iff]
    omega
  | succ m ih =>
    have hfree := hrel.free (r+m) (by omega) (by omega)
    have hprev := ih (by omega)
    rw [← Nat.add_assoc, run, Clocked.trace, Trigger.step, EventLatch.event_step, ← run,
      signal_in_q1_eq (by omega), hfree]
    constructor
    · rintro ⟨-, hedge | hlatched⟩
      · exact ⟨r+m,by omega,by omega,hedge⟩
      · obtain ⟨v, hv, hvm, hedge⟩ := hprev.mp hlatched
        exact ⟨v,hv,by omega,hedge⟩
    · rintro ⟨v, hv, hvm, hedge⟩
      refine ⟨rfl,?_⟩
      obtain rfl | hlt := Nat.eq_or_lt_of_le (Nat.le_of_lt_succ hvm)
      · exact Or.inl hedge
      · exact Or.inr (hprev.mpr ⟨v,hv,hlt,hedge⟩)

theorem no_event {m : ℕ} (hm : r+m ≤ n) (hnone : ∀ v, r ≤ v → v < r+m → ¬ Rises i v) :
    (run delay timeout i s (r+m)).latch.event_state = false := by
  rw [Bool.eq_false_iff, ne_eq, event_iff hrel hm]
  rintro ⟨v, hv, hvm, hedge⟩
  exact hnone v hv hvm hedge

/-- The ticks since the edge, and the output, `m` clocks after the release. -/
theorem delay_run {p m : ℕ} (hfirst : First i r (r+p)) (hpm : p+1 ≤ m) (hm : r+m ≤ n) :
    (run delay timeout i s (r+m)).delay.signal_delay_cnt.toNat =
        min delay.toNat ((m-1)/51 - p/51) ∧
      (run delay timeout i s (r+m)).delay.signal_out_state =
        decide (p+2 ≤ m ∧ delay.toNat ≤ (m-2)/51 - p/51) := by
  induction m, hpm using Nat.le_induction with
  | base =>
    have hnone : (run delay timeout i s (r+p)).latch.event_state = false :=
      no_event hrel (by omega) fun v hv hvp => hfirst.none_before v hv hvp
    rw [← Nat.add_assoc, run, Clocked.trace, Trigger.step, ← run, hnone]
    obtain ⟨hcnt, hout⟩ := Delay.held_step (indexTrigger delay timeout)
      (run delay timeout i s (r+p)).ticks.tick_us (run delay timeout i s (r+p)).delay
    rw [hcnt, hout]
    exact ⟨by omega,(decide_eq_false (by omega)).symm⟩
  | succ m hpm ih =>
    obtain ⟨hcnt, hout⟩ := ih (by omega)
    have htick : (run delay timeout i s (r+m)).ticks.tick_us = decide (0 < m ∧ m % 51 = 0) :=
      (ticks_run hrel (by omega)).2
    have hevent : (run delay timeout i s (r+m)).latch.event_state = true :=
      (event_iff hrel (by omega)).mpr ⟨r+p,by omega,by omega,hfirst.edge⟩
    rw [← Nat.add_assoc, run, Clocked.trace, Trigger.step, ← run, hevent, htick]
    obtain ⟨hcnt', hout'⟩ := Delay.count_step (indexTrigger delay timeout)
      (decide (0 < m ∧ m % 51 = 0)) (run delay timeout i s (r+m)).delay
    rw [hcnt', hout', hcnt, hout, indexTrigger]
    simp only [decide_eq_true_eq, ← Bool.decide_or]
    refine ⟨?_,decide_eq_decide.mpr (by omega)⟩
    split_ifs <;> omega

theorem out_low {m : ℕ} (hm : r+m < n) (hnone : ∀ v, r ≤ v → v < r+m → ¬ Rises i v) :
    (run delay timeout i s (r+m+1)).delay.signal_out_state = false := by
  rw [run, Clocked.trace, Trigger.step, ← run, no_event hrel (by omega) hnone]
  rfl

/-- The ticks since the release, as long as there is no edge. -/
theorem timeout_cnt {m : ℕ} (hm : r+m ≤ n) (hnone : ∀ v, r ≤ v → v+1 < r+m → ¬ Rises i v) :
    (run delay timeout i s (r+m)).timeout.signal_timeout_cnt.toNat =
      min timeout.toNat ((m-1)/51) := by
  induction m with
  | zero =>
    rw [Nat.add_zero, (released hrel).2.2]
    exact (Nat.min_zero _).symm
  | succ m ih =>
    have hcnt := ih (by omega) fun v hv hvm => hnone v hv (by omega)
    have hfree := hrel.free (r+m) (by omega) (by omega)
    have hquiet : (run delay timeout i s (r+m)).latch.event_state = false :=
      no_event hrel (by omega) fun v hv hvm => hnone v hv (by omega)
    have htick : (run delay timeout i s (r+m)).ticks.tick_us = decide (0 < m ∧ m % 51 = 0) :=
      (ticks_run hrel (by omega)).2
    rw [← Nat.add_assoc, run, Clocked.trace, Trigger.step, ← run, hfree, hquiet, htick,
      (Timeout.count_step _ _ _).1, hcnt, indexTrigger]
    simp only [decide_eq_true_eq]
    split_ifs <;> omega

/-- A timeout comes after as many ticks, and no edge before it. -/
theorem timeout_run {m : ℕ} (hm : r+m ≤ n)
    (h : (run delay timeout i s (r+m)).timeout.timeout_state = true) :
    ∃ j ≤ m, 1 ≤ j ∧ timeout.toNat ≤ (j-2)/51 ∧ ∀ v, r ≤ v → v+1 < r+j → ¬ Rises i v := by
  induction m with
  | zero =>
    rw [Nat.add_zero, (released hrel).2.2] at h
    cases h
  | succ m ih =>
    have hfree := hrel.free (r+m) (by omega) (by omega)
    have hearlier : (run delay timeout i s (r+m)).timeout.timeout_state = true →
        ∃ j ≤ m+1, 1 ≤ j ∧ timeout.toNat ≤ (j-2)/51 ∧ ∀ v, r ≤ v → v+1 < r+j → ¬ Rises i v := by
      intro hstate
      obtain ⟨j, hj, hrest⟩ := ih (by omega) hstate
      exact ⟨j,by omega,hrest⟩
    rw [← Nat.add_assoc, run, Clocked.trace, Trigger.step, ← run, hfree] at h
    cases hevent : (run delay timeout i s (r+m)).latch.event_state with
    | true =>
      rw [hevent] at h
      exact hearlier h
    | false =>
      have hnone : ∀ v, r ≤ v → v < r+m → ¬ Rises i v := by
        intro v hv hvm hedge
        rw [Bool.eq_false_iff, ne_eq, event_iff hrel (by omega)] at hevent
        exact hevent ⟨v,hv,hvm,hedge⟩
      rw [hevent, (Timeout.count_step _ _ _).2, Bool.or_eq_true, decide_eq_true_eq,
        timeout_cnt hrel (by omega) fun v hv hvm => hnone v hv (by omega)] at h
      obtain hstate | hle := h
      · exact hearlier hstate
      · have hticks : timeout.toNat ≤ (m-1)/51 := (le_min_iff.mp hle).2
        exact ⟨m+1,le_rfl,by omega,by omega,fun v hv hvm => hnone v hv (by omega)⟩

/-! ## The law -/

omit hrel in
theorem fired_iff (tick_us : Bool) :
    (s.delay.step (indexTrigger delay timeout) tick_us s.latch.event_state).signal_out_state = true ↔
      Fired delay s := by
  unfold Fired
  cases s.latch.event_state with
  | false => simp [(Delay.held_step _ _ _).2]
  | true =>
    rw [(Delay.count_step _ _ _).2, Bool.or_eq_true, decide_eq_true_eq, BitVec.lt_def, indexTrigger]
    simp only [true_and]
    constructor
    · rintro (hout | hle) hlt
      · exact hout
      · exact absurd hle (Nat.not_le_of_lt hlt)
    · intro h
      obtain hlt | hle := Nat.lt_or_ge s.delay.signal_delay_cnt.toNat delay.toNat
      · exact Or.inl (h hlt)
      · exact Or.inr hle

/-- When the clear is released the output is low, unless the clear has lasted for
one clock and the trigger had gone off. -/
theorem released_low_iff :
    signalOut delay timeout i s r = false ↔ 2 ≤ r ∨ ¬ Fired delay s := by
  have hpos := hrel.pos
  rw [signalOut_eq]
  match r, hpos with
  | 1, _ =>
    rw [run, Clocked.trace, Clocked.trace, Trigger.step, Bool.eq_false_iff, ne_eq, fired_iff]
    simp
  | q+2, _ =>
    have hclear := hrel.clear q (by omega)
    simp [run, Clocked.trace, Trigger.step, EventLatch.step, Delay.step, hclear]

theorem low_until_edge (hlow : 2 ≤ r ∨ ¬ Fired delay s) {u : ℕ} (hr : r ≤ u) (hu : u ≤ n)
    (hnone : ∀ v, r ≤ v → v < u → ¬ Rises i v) : signalOut delay timeout i s u = false := by
  obtain ⟨m, rfl⟩ := Nat.exists_eq_add_of_le hr
  cases m with
  | zero => exact (released_low_iff hrel).mpr hlow
  | succ m =>
    rw [signalOut_eq]
    exact out_low hrel (by omega) fun v hv hvm => hnone v hv (by omega)

theorem high_iff {e u : ℕ} (hfirst : First i r e) (heu : e < u) (hu : u ≤ n) :
    signalOut delay timeout i s u = true ↔
      e + 2 ≤ u ∧ delay.toNat ≤ (u-r-2)/51 - (e-r)/51 := by
  obtain ⟨p, rfl⟩ := Nat.exists_eq_add_of_le hfirst.le
  obtain ⟨m, rfl⟩ := Nat.exists_eq_add_of_le (show r ≤ u by omega)
  rw [signalOut_eq, (delay_run hrel hfirst (by omega) hu).2, decide_eq_true_eq]
  rw [Nat.add_sub_cancel_left, Nat.add_sub_cancel_left]
  omega

omit hrel in
theorem exists_first {v : ℕ} (hv : r ≤ v) (hedge : Rises i v) : ∃ e ≤ v, First i r e := by
  classical
  have hex : ∃ e, r ≤ e ∧ Rises i e := ⟨v,hv,hedge⟩
  obtain ⟨hle, hrises⟩ := Nat.find_spec hex
  refine ⟨Nat.find hex,Nat.find_min' hex ⟨hv,hedge⟩,hrises,hle,fun u hu hlt hu' => ?_⟩
  exact Nat.find_min hex hlt ⟨hu,hu'⟩

theorem stays_high (hlow : 2 ≤ r ∨ ¬ Fired delay s) {u : ℕ} (hr : r ≤ u) (hu : u < n)
    (h : signalOut delay timeout i s u = true) : signalOut delay timeout i s (u+1) = true := by
  have hedge : ∃ v, r ≤ v ∧ v < u ∧ Rises i v := by
    by_contra! hnone
    rw [low_until_edge hrel hlow hr (by omega) hnone] at h
    cases h
  obtain ⟨v, hv, hvu, hedge⟩ := hedge
  obtain ⟨e, hev, hfirst⟩ := exists_first hv hedge
  rw [high_iff hrel hfirst (by omega) (by omega)] at h ⊢
  omega

/-- The output is as it is to be if and only if it was low when the clear was
released and, where the clear does not come back before, the ticks of the delay
are not more than the microsecond, the ten clocks and the place of the edge in
the running tick make up for. -/
theorem timed_iff : Timed delay timeout i s r n ↔
    (2 ≤ r ∨ ¬ Fired delay s) ∧
      ∀ e, First i r e →
        delay.toNat ≤ 59 + (e-r) % 51 ∨ n ≤ e + 50 * (delay.toNat + 1) + 10 := by
  have hle := hrel.le
  constructor
  · intro h
    refine ⟨(released_low_iff hrel).mp (h.low r le_rfl hle fun v hv hvr => by omega),?_⟩
    intro e hfirst
    have her := hfirst.le
    by_contra! hlate
    have hhigh := h.not_late e (e + 50 * (delay.toNat + 1) + 11) hfirst (by omega) (by omega)
    rw [high_iff hrel hfirst (by omega) (by omega)] at hhigh
    omega
  · rintro ⟨hlow, hdelay⟩
    refine ⟨fun u hr hu => low_until_edge hrel hlow hr hu,fun e u hfirst hr hu hearly => ?_,
      fun e u hfirst hu hlate => ?_,fun u hr hu => stays_high hrel hlow hr hu,
      fun u hr hu hstate => ?_⟩
    · obtain heu | hue := Nat.lt_or_ge e u
      · rw [Bool.eq_false_iff, ne_eq, high_iff hrel hfirst heu hu]
        have her := hfirst.le
        omega
      · exact low_until_edge hrel hlow hr hu fun v hv hvu => hfirst.none_before v hv (by omega)
    · have her := hfirst.le
      have hphase := hdelay e hfirst
      rw [high_iff hrel hfirst (by omega) hu]
      omega
    · obtain ⟨m, rfl⟩ := Nat.exists_eq_add_of_le hr
      obtain ⟨j, hj, hpos, hticks, hnone⟩ := timeout_run hrel hu hstate
      exact ⟨by omega,fun v hv hvr => hnone v hv (by omega)⟩

end Run

def edgeAt (e u : ℕ) : TriggerInput := ⟨e ≤ u,u < 2⟩

theorem edgeAt_released (e : ℕ) {n : ℕ} (hn : 2 ≤ n) : Released (edgeAt e) 2 n := by
  refine ⟨by decide,hn,fun u hu => ?_,fun u hu _ => ?_⟩
  · exact decide_eq_true hu
  · exact decide_eq_false (Nat.not_lt_of_le hu)

theorem timed_iff_short : Timed 1 2000000 (edgeAt 5) Trigger.onReset 2 1000 := by
  rw [timed_iff (edgeAt_released 5 (by decide))]
  refine ⟨Or.inl le_rfl,fun e _ => Or.inl ?_⟩
  have hone : (1 : BitVec 32).toNat = 1 := rfl
  omega

/-- The delay of a dump is late by more than a microsecond. -/
theorem dump_delay_late : ¬ Timed 100000 2000000 (edgeAt 2) Trigger.onReset 2 6000000 := by
  intro h
  have hfirst : First (edgeAt 2) 2 2 := ⟨⟨rfl,rfl⟩,le_rfl,fun u hu hlt => by omega⟩
  have hrel : Released (edgeAt 2) 2 6000000 := edgeAt_released 2 (by decide)
  have hdelay : (100000 : BitVec 32).toNat = 100000 := rfl
  have hhigh := h.not_late 2 5000063 hfirst (by decide) (by rw [hdelay]; decide)
  rw [high_iff hrel hfirst (by decide) (by decide), hdelay] at hhigh
  exact absurd hhigh.2 (by decide)

end Pauline.IndexTrigger
