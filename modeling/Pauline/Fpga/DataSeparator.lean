import Mathlib.Tactic

/-!
# The FM data separator

A counter of the half cell, put right by every pulse, opens a window for the
data pulses. Where a data pulse is missing the window is set to the clock, and
from there on it follows the pulses of an FM stream.
-/

set_option autoImplicit false

namespace Pauline.DataSeparator

/-! ## The circuit -/

structure Separator where
  raw_data_q : Bool
  pulse_event : Bool
  data_bit_window : Bool
  window_cnt : BitVec 16

structure Settings where
  window_period : BitVec 16
  window_phase_correction : BitVec 16

def Separator.step (g : Settings) (raw_data : Bool) (s : Separator) : Separator :=
  let n := { s with raw_data_q := raw_data, window_cnt := s.window_cnt + 1 }
  let n :=
    if s.window_cnt ≥ g.window_period then
      { n with
        window_cnt := 0
        -- no pulse in the period before: the next one is a clock
        data_bit_window := if s.pulse_event then !s.data_bit_window else false
        pulse_event := false }
    else n
  let n :=
    if !s.raw_data_q && raw_data then
      { n with pulse_event := true, window_cnt := g.window_phase_correction }
    else n
  if g.window_period = 0 then
    { n with pulse_event := false, data_bit_window := false, window_cnt := 0 }
  else n

def Separator.dataOut (raw_data : Bool) (s : Separator) : Bool := raw_data && s.data_bit_window

def run (g : Settings) (raw : ℕ → Bool) (s : Separator) : ℕ → Separator
  | 0 => s
  | t+1 => (run g raw s t).step g (raw t)

def settings (H c : ℕ) : Settings := ⟨BitVec.ofNat 16 (H-1),BitVec.ofNat 16 c⟩

/-! ## The stream -/

def Edge (raw : ℕ → Bool) : ℕ → Prop
  | 0 => False
  | t+1 => raw t = false ∧ raw (t+1) = true

structure Next (raw : ℕ → Bool) (p q : ℕ) : Prop where
  edge : Edge raw q
  lt : p < q
  none_between : ∀ t, p < t → t < q → ¬Edge raw t

/-- `n` clocks, but for a jitter below the correction and what it leaves of the
half cell. -/
def Near (H c n gap : ℕ) : Prop := ∃ e : ℤ, |e| < min c (H-c) ∧ (gap : ℤ) = n + e

/-- An FM stream: after a clock pulse comes a data pulse or, where that is
missing, the next clock pulse. -/
structure Stream (H c : ℕ) (raw : ℕ → Bool) (isClock : ℕ → Bool) : Prop where
  width : ∀ p, Edge raw p → ∃ t, p < t ∧ t ≤ p + (H-c) ∧ raw t = false
  gap : ∀ p q, Edge raw p → Next raw p q →
    (Near H c H (q-p) ∧ isClock q = !isClock p) ∨
      (Near H c (2*H) (q-p) ∧ isClock p = true ∧ isClock q = true)

structure Missing (H c : ℕ) (raw : ℕ → Bool) (p q : ℕ) : Prop where
  edge : Edge raw p
  next : Next raw p q
  gap : Near H c (2*H) (q-p)

/-! ## One clock -/

structure Separator.At (s : Separator) (cnt : ℕ) (pulse window : Bool) : Prop where
  cnt : s.window_cnt.toNat = cnt
  pulse : s.pulse_event = pulse
  window : s.data_bit_window = window

section Step
variable {H c : ℕ} (hc : 1 ≤ c) (hcH : c < H) (hH : H ≤ 2^16)
include hc hcH hH

omit hc in
theorem period_toNat : (settings H c).window_period.toNat = H-1 := by
  rw [settings, BitVec.toNat_ofNat]
  exact Nat.mod_eq_of_lt (by omega)

omit hc in
theorem correction_toNat : (settings H c).window_phase_correction.toNat = c := by
  rw [settings, BitVec.toNat_ofNat]
  exact Nat.mod_eq_of_lt (by omega)

theorem period_ne_zero : (settings H c).window_period ≠ 0 := by
  intro h
  have hp := period_toNat hcH hH
  rw [h] at hp
  have hzero : (0 : BitVec 16).toNat = 0 := rfl
  omega

omit hc in
theorem period_ends_iff (s : Separator) :
    s.window_cnt ≥ (settings H c).window_period ↔ H-1 ≤ s.window_cnt.toNat := by
  rw [ge_iff_le, BitVec.le_def, period_toNat hcH hH]

theorem At.quiet {s : Separator} {cnt : ℕ} {pulse window raw_data : Bool}
    (h : s.At cnt pulse window) (hcnt : cnt < H-1) (hraw : (!s.raw_data_q && raw_data) = false) :
    (s.step (settings H c) raw_data).At (cnt+1) pulse window := by
  have hin : ¬ s.window_cnt ≥ (settings H c).window_period := by
    rw [period_ends_iff hcH hH, h.cnt]
    omega
  have hone : (1 : BitVec 16).toNat = 1 := rfl
  have hnext : (s.window_cnt + 1).toNat = cnt+1 := by
    rw [BitVec.toNat_add, h.cnt, hone]
    omega
  simp only [Separator.step, if_neg hin, hraw, Bool.false_eq_true, if_false,
    if_neg (period_ne_zero hc hcH hH)]
  exact ⟨hnext,h.pulse,h.window⟩

/-- A clock without an edge, at the end of the half cell. -/
theorem At.boundary {s : Separator} {pulse window raw_data : Bool}
    (h : s.At (H-1) pulse window) (hraw : (!s.raw_data_q && raw_data) = false) :
    (s.step (settings H c) raw_data).At 0 false (pulse && !window) := by
  have hout : s.window_cnt ≥ (settings H c).window_period :=
    (period_ends_iff hcH hH s).mpr (le_of_eq h.cnt.symm)
  simp only [Separator.step, if_pos hout, hraw, Bool.false_eq_true, if_false,
    if_neg (period_ne_zero hc hcH hH)]
  refine ⟨rfl,rfl,?_⟩
  rw [h.pulse, h.window]
  cases pulse <;> rfl

theorem At.edge {s : Separator} {cnt : ℕ} {pulse window raw_data : Bool}
    (h : s.At cnt pulse window) (hcnt : cnt < H-1) (hraw : (!s.raw_data_q && raw_data) = true) :
    (s.step (settings H c) raw_data).At c true window := by
  have hin : ¬ s.window_cnt ≥ (settings H c).window_period := by
    rw [period_ends_iff hcH hH, h.cnt]
    omega
  simp only [Separator.step, if_neg hin, hraw, if_true, if_neg (period_ne_zero hc hcH hH)]
  exact ⟨correction_toNat hcH hH,rfl,h.window⟩

theorem edge_at {s : Separator} {raw_data : Bool} (hraw : (!s.raw_data_q && raw_data) = true) :
    ∃ window, (s.step (settings H c) raw_data).At c true window := by
  refine ⟨_,?_,?_,rfl⟩
  · simp only [Separator.step, hraw, if_true, if_neg (period_ne_zero hc hcH hH)]
    exact correction_toNat hcH hH
  · simp only [Separator.step, hraw, if_true, if_neg (period_ne_zero hc hcH hH)]

end Step

/-! ## From pulse to pulse -/

theorem rises_iff (g : Settings) (raw : ℕ → Bool) (s : Separator) (t : ℕ) (ht : t ≠ 0) :
    (!(run g raw s t).raw_data_q && raw t) = true ↔ Edge raw t := by
  obtain ⟨t, rfl⟩ := Nat.exists_eq_succ_of_ne_zero ht
  have hq : (run g raw s (t+1)).raw_data_q = raw t := by
    rw [run, Separator.step]
    split_ifs <;> rfl
  rw [Nat.succ_eq_add_one, hq, Edge]
  simp

def phaseAfter (H c : ℕ) (w : Bool) (d : ℕ) (s : Separator) : Prop :=
  if d ≤ H-c then s.At (c+d-1) true w
  else if d ≤ 2*H-c then s.At (d-(H-c)-1) false (!w)
  else s.At (d-(2*H-c)-1) false false

section Stream
variable {H c : ℕ} (hc : 1 ≤ c) (hcH : c < H) (hH : H ≤ 2^16)
include hc hcH hH

theorem phaseAfter_step {w raw_data : Bool} {d : ℕ} {s : Separator} (hd : 1 ≤ d)
    (hlast : d < 3*H-c) (h : phaseAfter H c w d s) (hraw : (!s.raw_data_q && raw_data) = false) :
    phaseAfter H c w (d+1) (s.step (settings H c) raw_data) := by
  unfold phaseAfter at h ⊢
  by_cases hfirst : d ≤ H-c
  · rw [if_pos hfirst] at h
    by_cases hend : d = H-c
    · rw [show c+d-1 = H-1 by omega] at h
      rw [if_neg (by omega), if_pos (by omega), show d+1-(H-c)-1 = 0 by omega]
      exact At.boundary hc hcH hH h hraw
    · rw [if_pos (by omega), show c+(d+1)-1 = c+d-1+1 by omega]
      exact At.quiet hc hcH hH h (by omega) hraw
  · rw [if_neg hfirst] at h
    rw [if_neg (by omega)]
    by_cases hsecond : d ≤ 2*H-c
    · rw [if_pos hsecond] at h
      by_cases hend : d = 2*H-c
      · rw [show d-(H-c)-1 = H-1 by omega] at h
        rw [if_neg (by omega), show d+1-(2*H-c)-1 = 0 by omega]
        exact At.boundary hc hcH hH h hraw
      · rw [if_pos (by omega), show d+1-(H-c)-1 = d-(H-c)-1+1 by omega]
        exact At.quiet hc hcH hH h (by omega) hraw
    · rw [if_neg hsecond] at h
      rw [if_neg (by omega), show d+1-(2*H-c)-1 = d-(2*H-c)-1+1 by omega]
      exact At.quiet hc hcH hH h (by omega) hraw

theorem phaseAfter_run {raw : ℕ → Bool} {s : Separator} {w : Bool} {p d : ℕ} (hd : 1 ≤ d)
    (hlast : d ≤ 3*H-c) (hstart : (run (settings H c) raw s (p+1)).At c true w)
    (hnone : ∀ t, p < t → t < p+d → ¬Edge raw t) :
    phaseAfter H c w d (run (settings H c) raw s (p+d)) := by
  induction d, hd using Nat.le_induction with
  | base =>
    rw [phaseAfter, if_pos (by omega), Nat.add_sub_cancel]
    exact hstart
  | succ d hd ih =>
    have hraw : (!(run (settings H c) raw s (p+d)).raw_data_q && raw (p+d)) = false := by
      rw [Bool.eq_false_iff, ne_eq, rises_iff _ _ _ _ (by omega)]
      exact hnone (p+d) (by omega) (by omega)
    rw [show p+(d+1) = p+d+1 by omega, run]
    exact phaseAfter_step hc hcH hH hd (by omega)
      (ih (by omega) fun t ht hlt => hnone t ht (by omega)) hraw

/-- The window at the next pulse, by the time it begins at. -/
theorem window_at_next {raw : ℕ → Bool} {s : Separator} {w : Bool} {p q : ℕ}
    (hstart : (run (settings H c) raw s (p+1)).At c true w) (hnext : Next raw p q)
    (hlast : q-p ≤ 3*H-c) : phaseAfter H c w (q-p) (run (settings H c) raw s q) := by
  have hlt := hnext.lt
  have h := phaseAfter_run hc hcH hH (d := q-p) (by omega) hlast hstart
    fun t ht htq => hnext.none_between t ht (by omega)
  rwa [show p+(q-p) = q by omega] at h

end Stream

structure Held (H c : ℕ) (raw : ℕ → Bool) (s : Separator) (w : Bool) (p : ℕ) : Prop where
  window : (run (settings H c) raw s p).data_bit_window = w
  next : (run (settings H c) raw s (p+1)).At c true w

theorem near_bounds {H c n gap : ℕ} (h : Near H c n gap) :
    n < gap + c ∧ gap < n + (H-c) := by
  obtain ⟨e, he, hgap⟩ := h
  rw [abs_lt, Nat.cast_min] at he
  obtain ⟨hlow, hhigh⟩ := he
  have hc : min (c : ℤ) ((H-c : ℕ) : ℤ) ≤ c := min_le_left _ _
  have hrest : min (c : ℤ) ((H-c : ℕ) : ℤ) ≤ (H-c : ℕ) := min_le_right _ _
  omega

section Pulse
variable {H c : ℕ} (hc : 1 ≤ c) (hcH : c < H) (hH : H ≤ 2^16) {raw : ℕ → Bool} {s : Separator}
include hc hcH hH

/-- A pulse that begins within a half cell finds and leaves the window there. -/
theorem held_of_at {w pulse : Bool} {q cnt : ℕ} (hedge : Edge raw q) (hcnt : cnt < H-1)
    (h : (run (settings H c) raw s q).At cnt pulse w) : Held H c raw s w q := by
  have hq : q ≠ 0 := by
    rintro rfl
    exact hedge
  exact ⟨h.window,At.edge hc hcH hH h hcnt ((rises_iff _ raw s q hq).mpr hedge)⟩

/-- One half cell after a pulse the window is the other one. -/
theorem held_after_one {w : Bool} {p q : ℕ} (hnext : Next raw p q) (hgap : Near H c H (q-p))
    (hstart : (run (settings H c) raw s (p+1)).At c true w) : Held H c raw s (!w) q := by
  obtain ⟨hlow, hhigh⟩ := near_bounds hgap
  have h := window_at_next hc hcH hH hstart hnext (by omega)
  rw [phaseAfter, if_neg (by omega), if_pos (by omega)] at h
  exact held_of_at hc hcH hH hnext.edge (by omega) h

theorem held_after_two {w : Bool} {p q : ℕ} (hnext : Next raw p q) (hgap : Near H c (2*H) (q-p))
    (hstart : (run (settings H c) raw s (p+1)).At c true w) : Held H c raw s false q := by
  obtain ⟨hlow, hhigh⟩ := near_bounds hgap
  have h := window_at_next hc hcH hH hstart hnext (by omega)
  rw [phaseAfter, if_neg (by omega), if_neg (by omega)] at h
  exact held_of_at hc hcH hH hnext.edge (by omega) h

theorem held_next {isClock : ℕ → Bool} (hstream : Stream H c raw isClock) {p q : ℕ}
    (hedge : Edge raw p) (hnext : Next raw p q) (h : Held H c raw s (!isClock p) p) :
    Held H c raw s (!isClock q) q := by
  rcases hstream.gap p q hedge hnext with ⟨hgap, hkind⟩ | ⟨hgap, -, hclock⟩
  · rw [hkind]
    exact held_after_one hc hcH hH hnext hgap h.next
  · rw [hclock]
    exact held_after_two hc hcH hH hnext hgap h.next

theorem held_of_missing {isClock : ℕ → Bool} (hstream : Stream H c raw isClock) {p q : ℕ}
    (hmiss : Missing H c raw p q) : Held H c raw s (!isClock q) q := by
  have hp : p ≠ 0 := by
    rintro rfl
    exact hmiss.edge
  obtain ⟨w, hstart⟩ := edge_at hc hcH hH ((rises_iff (settings H c) raw s p hp).mpr hmiss.edge)
  have hclock : isClock q = true := by
    rcases hstream.gap p q hmiss.edge hmiss.next with ⟨hgap, -⟩ | ⟨-, -, hclock⟩
    · obtain ⟨-, hhigh⟩ := near_bounds hgap
      obtain ⟨hlow, -⟩ := near_bounds hmiss.gap
      omega
    · exact hclock
  rw [hclock]
  exact held_after_two hc hcH hH hmiss.next hmiss.gap hstart

omit hc hcH hH in
theorem exists_prev {p e : ℕ} (hp : Edge raw p) (hpe : p < e) (he : Edge raw e) :
    ∃ q, p ≤ q ∧ Edge raw q ∧ Next raw q e := by
  classical
  have hex : ∃ n, Edge raw (e-1-n) ∧ n ≤ e-1-p := ⟨e-1-p,by rwa [show e-1-(e-1-p) = p by omega],le_rfl⟩
  obtain ⟨hedge, hle⟩ := Nat.find_spec hex
  refine ⟨e-1-Nat.find hex,by omega,hedge,⟨he,by omega,fun t ht hte hat => ?_⟩⟩
  refine Nat.find_min hex (m := e-1-t) (by omega) ⟨?_,by omega⟩
  rwa [show e-1-(e-1-t) = t by omega]

/-- From the first missing data pulse on every pulse has its window. -/
theorem held_run {isClock : ℕ → Bool} (hstream : Stream H c raw isClock) {p q : ℕ}
    (hmiss : Missing H c raw p q) (e : ℕ) (he : Edge raw e) (hpe : p < e) :
    Held H c raw s (!isClock e) e := by
  induction e using Nat.strong_induction_on with
  | _ e ih =>
    obtain ⟨d, hpd, hd, hnext⟩ := exists_prev hmiss.edge hpe he
    obtain rfl | hlt := Nat.eq_or_lt_of_le hpd
    · have hqe : q = e := by
        rcases Nat.lt_trichotomy q e with h | h | h
        · exact absurd hmiss.next.edge (hnext.none_between q hmiss.next.lt h)
        · exact h
        · exact absurd he (hmiss.next.none_between e hpe h)
      exact hqe ▸ held_of_missing hc hcH hH hstream hmiss
    · exact held_next hc hcH hH hstream hd hnext (ih d hnext.lt hd hlt)

end Pulse

/-- From the first missing data pulse on every data pulse passes as it is, and no
clock pulse does, whatever the registers held at first. -/
theorem fm_separated (H c : ℕ) (hc : 1 ≤ c) (hcH : c < H) (hH : H ≤ 2^16) (raw : ℕ → Bool)
    (isClock : ℕ → Bool) (hstream : Stream H c raw isClock) (s : Separator) (p q : ℕ)
    (hmiss : Missing H c raw p q) (e t : ℕ) (he : Edge raw e) (hpe : p < e) (het : e ≤ t)
    (hpulse : ∀ u, e ≤ u → u ≤ t → raw u = true) :
    (run (settings H c) raw s t).dataOut (raw t) = !isClock e := by
  have hheld := held_run (s := s) hc hcH hH hstream hmiss e he hpe
  have hwindow : (run (settings H c) raw s t).data_bit_window = !isClock e := by
    obtain rfl | hlt := Nat.eq_or_lt_of_le het
    · exact hheld.window
    · obtain ⟨v, hv, hwide, hlow⟩ := hstream.width e he
      have htv : t < v := by
        by_contra hge
        rw [hpulse v (by omega) (by omega)] at hlow
        cases hlow
      have hnone : ∀ u, e < u → u < e+(t-e) → ¬Edge raw u := by
        intro u hu hut hedge
        obtain ⟨u, rfl⟩ := Nat.exists_eq_succ_of_ne_zero (by omega : u ≠ 0)
        have hhigh := hpulse u (by omega) (by omega)
        rw [hedge.1] at hhigh
        cases hhigh
      have h := phaseAfter_run hc hcH hH (d := t-e) (by omega) (by omega) hheld.next hnone
      rw [phaseAfter, if_pos (by omega), show e+(t-e) = t by omega] at h
      exact h.window
  rw [Separator.dataOut, hpulse t het le_rfl, hwindow, Bool.true_and]

def pulses (t : ℕ) : Bool := t == 1 || t == 9 || t == 13

theorem edge_pulses_iff (t : ℕ) : Edge pulses t ↔ t = 1 ∨ t = 9 ∨ t = 13 := by
  cases t with
  | zero => simp [Edge]
  | succ t =>
    simp only [Edge, pulses, Bool.or_eq_true, Bool.or_eq_false_iff, beq_eq_false_iff_ne, beq_iff_eq]
    omega

theorem next_pulses {p q : ℕ} (hp : Edge pulses p) (h : Next pulses p q) :
    (p = 1 ∧ q = 9) ∨ (p = 9 ∧ q = 13) := by
  have hq := (edge_pulses_iff q).mp h.edge
  have hlt := h.lt
  have hmid : ¬(p < 9 ∧ 9 < q) := fun hm =>
    h.none_between 9 hm.1 hm.2 ((edge_pulses_iff 9).mpr (by omega))
  rcases (edge_pulses_iff p).mp hp with hp | hp | hp <;> omega

theorem stream_pulses : Stream 4 2 pulses (· != 13) where
  width p hp := ⟨p+1,by omega,by omega,by
    rcases (edge_pulses_iff p).mp hp with rfl | rfl | rfl <;> rfl⟩
  gap p q hp h := by
    rcases next_pulses hp h with ⟨rfl, rfl⟩ | ⟨rfl, rfl⟩
    · exact Or.inr ⟨⟨0,by decide,rfl⟩,rfl,rfl⟩
    · exact Or.inl ⟨⟨0,by decide,rfl⟩,rfl⟩

theorem missing_pulses : Missing 4 2 pulses 1 9 where
  edge := (edge_pulses_iff 1).mpr (by omega)
  next := ⟨(edge_pulses_iff 9).mpr (by omega),by omega,fun t ht htq hedge => by
    have := (edge_pulses_iff t).mp hedge
    omega⟩
  gap := ⟨0,by decide,rfl⟩

theorem fm_separated_pulses :
    (run (settings 4 2) pulses ⟨true,false,true,3⟩ 13).dataOut (pulses 13) = true :=
  fm_separated 4 2 (by decide) (by decide) (by decide) pulses (· != 13) stream_pulses _ 1 9
    missing_pulses 13 13 ((edge_pulses_iff 13).mpr (by omega)) (by decide) (by decide)
    fun u hu hut => by rw [Nat.le_antisymm hut hu]; rfl

end Pauline.DataSeparator
