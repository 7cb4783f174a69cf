import Mathlib.Order.Interval.Finset.Nat
import Mathlib.Data.Nat.Count
import Mathlib.Tactic

/-!
# Latches by the clock

A latch is set at the clocks outside a condition and, inside it, falls at an
event and stays low. What it holds is a statement about the clocks before.
-/

set_option autoImplicit false

namespace Latch

variable (event held : ℕ → Prop)

def Since (t : ℕ) : Prop := ∃ u < t, event u ∧ ∀ v, u ≤ v → v < t → held v

def Counted (tick : ℕ → Prop) [DecidablePred tick] (n t : ℕ) : Prop :=
  ∃ a ≤ t, (∀ v, a ≤ v → v < t → held v) ∧ n < Nat.count (fun k => tick (a+k)) (t-a)

variable {event held}

theorem since_succ (t : ℕ) :
    Since event held (t+1) ↔ held t ∧ (event t ∨ Since event held t) := by
  constructor
  · rintro ⟨u, hu, he, hheld⟩
    refine ⟨hheld t (by omega) (by omega),?_⟩
    obtain rfl | hlt := Nat.eq_or_lt_of_le (Nat.le_of_lt_succ hu)
    · exact Or.inl he
    · exact Or.inr ⟨u,hlt,he,fun v hv hvt => hheld v hv (by omega)⟩
  · rintro ⟨ht, he | ⟨u, hu, he, hheld⟩⟩
    · refine ⟨t,by omega,he,fun v hv hvt => ?_⟩
      rwa [show v = t by omega]
    · refine ⟨u,by omega,he,fun v hv hvt => ?_⟩
      obtain rfl | hlt := Nat.eq_or_lt_of_le (Nat.le_of_lt_succ hvt)
      · exact ht
      · exact hheld v hv hlt

/-- A latch is low since the last event. -/
theorem low_iff {q : ℕ → Bool} (hstart : q 0 = true)
    (hnext : ∀ t, q (t+1) = false ↔ held t ∧ (event t ∨ q t = false)) (t : ℕ) :
    q t = false ↔ Since event held t := by
  induction t with
  | zero => simp [hstart, Since]
  | succ t ih => rw [hnext, ih, since_succ]

section Count
variable {tick : ℕ → Prop} [DecidablePred tick] {n : ℕ} {c : ℕ → ℕ} (hstart : c 0 = 0)
  (hout : ∀ t, ¬ held t → c (t+1) = 0)
  (hnext : ∀ t, held t → c (t+1) = if n < c t then c t else c t + if tick t then 1 else 0)
include hnext

theorem count_le {a d : ℕ} (hheld : ∀ v, a ≤ v → v < a+d → held v) :
    min (n+1) (Nat.count (fun k => tick (a+k)) d) ≤ c (a+d) := by
  induction d with
  | zero => simp
  | succ d ih =>
    have hlast := ih fun v hv hvd => hheld v hv (by omega)
    rw [← Nat.add_assoc, hnext (a+d) (hheld _ (by omega) (by omega)), Nat.count_succ]
    split_ifs <;> omega

include hstart hout

theorem exists_count (t : ℕ) : ∃ a ≤ t, (∀ v, a ≤ v → v < t → held v) ∧
    c t ≤ Nat.count (fun k => tick (a+k)) (t-a) := by
  induction t with
  | zero => exact ⟨0,le_rfl,fun v _ hv => absurd hv (Nat.not_lt_zero v),by simp [hstart]⟩
  | succ t ih =>
    by_cases ht : held t
    · obtain ⟨a, ha, hheld, hle⟩ := ih
      refine ⟨a,by omega,fun v hv hvt => ?_,?_⟩
      · obtain rfl | hlt := Nat.eq_or_lt_of_le (Nat.le_of_lt_succ hvt)
        · exact ht
        · exact hheld v hv hlt
      · rw [hnext t ht, show t+1-a = t-a+1 by omega, Nat.count_succ, show a+(t-a) = t by omega]
        split_ifs <;> omega
    · refine ⟨t+1,le_rfl,fun v hv hvt => absurd hvt (by omega),?_⟩
      rw [hout t ht]
      exact Nat.zero_le _

theorem counted_iff (t : ℕ) : n < c t ↔ Counted held tick n t := by
  constructor
  · intro hc
    obtain ⟨a, ha, hheld, hle⟩ := exists_count hstart hout hnext t
    exact ⟨a,ha,hheld,by omega⟩
  · rintro ⟨a, ha, hheld, hcount⟩
    have hle := count_le hnext (a := a) (d := t-a) fun v hv hvt => hheld v hv (by omega)
    rw [show a+(t-a) = t by omega] at hle
    omega

end Count

end Latch
