import Mathlib.Tactic

/-!
# Debouncing

A filter that passes a level on once it has disagreed with its output for more
than `L` samples. It counts the samples that disagree and clears the count at one
that agrees. When it passes a level on the count is left, so that the sample
after is judged by it.
-/

set_option autoImplicit false

namespace Debounce

structure Filter where
  out : Bool
  count : ℕ

def Filter.step (L : ℕ) (x : Bool) (s : Filter) : Filter :=
  if s.out ≠ x then
    if s.count < L then { s with count := s.count+1 } else { s with out := x }
  else { s with count := 0 }

def run (L : ℕ) (x : ℕ → Bool) : ℕ → Filter
  | 0 => ⟨false,0⟩
  | t+1 => (run L x t).step L (x t)

def Held (L : ℕ) (x : ℕ → Bool) (v : Bool) (t : ℕ) : Prop := L ≤ t ∧ ∀ k ≤ L, x (t-k) = v

instance (L : ℕ) (x : ℕ → Bool) (v : Bool) (t : ℕ) : Decidable (Held L x v t) :=
  inferInstanceAs (Decidable (_ ∧ _))

def settled (L : ℕ) (x : ℕ → Bool) : ℕ → Bool
  | 0 => false
  | t+1 => if Held L x (x t) t then x t else settled L x t

def Rests (L : ℕ) (x : ℕ → Bool) : Prop :=
  ∀ t, settled L x (t+1) ≠ settled L x t → x (t+1) = x t

variable {L : ℕ} {x : ℕ → Bool}

theorem held_level {v : Bool} {t : ℕ} (h : Held L x v t) : x t = v := h.2 0 (Nat.zero_le L)

/-! ## The count -/

theorem count_le (t : ℕ) : (run L x t).count ≤ L := by
  induction t with
  | zero => exact Nat.zero_le L
  | succ t ih =>
    rw [run, Filter.step]
    split_ifs
    · exact ‹_ < L›
    · exact ih
    · exact Nat.zero_le L

theorem changes_iff (t : ℕ) : (run L x (t+1)).out ≠ (run L x t).out ↔
    (run L x t).out ≠ x t ∧ (run L x t).count = L := by
  have hle := count_le (L := L) (x := x) t
  rw [run, Filter.step]
  split_ifs with hne hlt
  · simp [hne]
    omega
  · simp only [hne, true_and, ne_eq, not_false_eq_true]
    exact iff_of_true (fun h => hne h.symm) (by omega)
  · simp [not_not.mp hne]

theorem passes {t : ℕ} (h : (run L x (t+1)).out ≠ (run L x t).out) :
    (run L x (t+1)).out = x t ∧ (run L x (t+1)).count = L := by
  have hle := count_le (L := L) (x := x) t
  rw [changes_iff] at h
  rw [run, Filter.step, if_pos h.1, if_neg (by omega)]
  exact ⟨rfl,h.2⟩

theorem out_of_held {v : Bool} {a : ℕ} (h : ∀ k ≤ L, x (a+k) = v) : (run L x (a+L+1)).out = v := by
  have hcount : ∀ k ≤ L+1, (run L x (a+k)).out = v ∨ k ≤ (run L x (a+k)).count := by
    intro k hk
    induction k with
    | zero => exact Or.inr (Nat.zero_le _)
    | succ k ih =>
      have hx := h k (by omega)
      have hprev := ih (by omega)
      rw [← Nat.add_assoc, run, Filter.step, hx]
      split_ifs with hne hlt
      · exact Or.inr (Nat.succ_le_succ (hprev.resolve_left hne))
      · exact Or.inl rfl
      · exact Or.inl (not_not.mp hne)
  obtain hout | hle := hcount (L+1) le_rfl
  · exact hout
  · have hmax := count_le (L := L) (x := x) (a+(L+1))
    omega

theorem out_of_held_at {v : Bool} {t : ℕ} (h : Held L x v t) : (run L x (t+1)).out = v := by
  have hout := out_of_held (L := L) (x := x) (v := v) (a := t-L) fun k hk => by
    have hsample := h.2 (L-k) (by omega)
    rwa [show t-(L-k) = t-L+k by have := h.1; omega] at hsample
  rwa [show t-L+L+1 = t+1 by have := h.1; omega] at hout

def Counted (L : ℕ) (x : ℕ → Bool) (t : ℕ) : Prop :=
  (run L x t).count ≤ t ∧ ∀ k < (run L x t).count, x (t-1-k) ≠ (run L x t).out

def Passed (L : ℕ) (x : ℕ → Bool) : ℕ → Prop
  | 0 => False
  | t+1 => (run L x (t+1)).out ≠ (run L x t).out

theorem counted_or_passed (t : ℕ) : Counted L x t ∨ Passed L x t := by
  induction t with
  | zero => exact Or.inl ⟨le_rfl,fun k hk => absurd hk (Nat.not_lt_zero k)⟩
  | succ t ih =>
    by_cases hpass : (run L x (t+1)).out ≠ (run L x t).out
    · exact Or.inr hpass
    · refine Or.inl ?_
      rw [not_not] at hpass
      have hstep : run L x (t+1) = (run L x t).step L (x t) := rfl
      unfold Counted
      rw [hpass, hstep, Filter.step]
      split_ifs with hne hlt
      · -- a count goes on only where it counts what has disagreed
        have hcounted : Counted L x t := by
          refine ih.resolve_right fun hp => ?_
          cases t with
          | zero => exact hp
          | succ t => exact absurd (passes hp).2 (by omega)
        refine ⟨Nat.succ_le_succ hcounted.1,fun k hk => ?_⟩
        cases k with
        | zero => exact fun h => hne h.symm
        | succ k =>
          have hk' : k < (run L x t).count := Nat.lt_of_succ_lt_succ hk
          have hdis := hcounted.2 k hk'
          rwa [show t-1-k = t+1-1-(k+1) by omega] at hdis
      · refine absurd hpass ?_
        rw [hstep, Filter.step, if_pos hne, if_neg hlt]
        exact fun h => hne h.symm
      · exact ⟨Nat.zero_le _,fun k hk => absurd hk (Nat.not_lt_zero k)⟩

/-! ## What is passed on -/

def Sound (L : ℕ) (x : ℕ → Bool) (t : ℕ) : Prop :=
  (run L x (t+1)).out ≠ (run L x t).out → Held L x (run L x (t+1)).out t

theorem sound_of_counted {t : ℕ} (h : Counted L x t) : Sound L x t := by
  intro hchange
  obtain ⟨hne, hcount⟩ := (changes_iff t).mp hchange
  rw [(passes hchange).1]
  rw [Counted, hcount] at h
  refine ⟨h.1,fun k hk => ?_⟩
  cases k with
  | zero => rfl
  | succ k =>
    have hdis := h.2 k (by omega)
    rw [show t-(k+1) = t-1-k by omega]
    revert hdis hne
    cases x (t-1-k) <;> cases x t <;> cases (run L x t).out <;> simp

/-- As long as only held samples are passed on, the output is the settled level. -/
theorem out_settled {t : ℕ} (h : ∀ u < t, Sound L x u) : (run L x t).out = settled L x t := by
  induction t with
  | zero => rfl
  | succ t ih =>
    have hprev := ih fun u hu => h u (by omega)
    rw [settled]
    split_ifs with hheld
    · exact out_of_held_at hheld
    · rw [← hprev]
      by_contra hchange
      have hsound := h t (by omega) hchange
      rw [(passes hchange).1] at hsound
      exact hheld hsound

/-- Only held levels are passed on if and only if a level that has settled
always rests, or any sample is passed on at once. -/
theorem sound_iff : (∀ t, Sound L x t) ↔ L = 0 ∨ Rests L x := by
  constructor
  · intro h
    by_cases hzero : L = 0
    · exact Or.inl hzero
    · refine Or.inr fun t hchange => ?_
      rw [← out_settled fun u _ => h u, ← out_settled fun u _ => h u] at hchange
      obtain ⟨hout, hcount⟩ := passes hchange
      by_contra hnext
      have hagain : (run L x (t+1+1)).out ≠ (run L x (t+1)).out :=
        (changes_iff (t+1)).mpr ⟨fun h => hnext (h.symm.trans hout),hcount⟩
      have hheld := h (t+1) hagain
      rw [(passes hagain).1] at hheld
      exact hnext (hheld.2 1 (by omega)).symm
  · intro h t
    induction t using Nat.strong_induction_on with
    | _ t ih =>
      obtain hcounted | hpassed := counted_or_passed (L := L) (x := x) t
      · exact sound_of_counted hcounted
      · intro hchange
        cases t with
        | zero => exact absurd hpassed id
        | succ t =>
          have hlevel := (passes hpassed).1
          obtain hzero | hrests := h
          · rw [(passes hchange).1]
            exact ⟨by omega,fun k hk => by rw [show k = 0 by omega, Nat.sub_zero]⟩
          · have hnext : x (t+1) = x t := by
              apply hrests
              rw [← out_settled ih, ← out_settled fun u hu => ih u (by omega)]
              exact hpassed
            exact absurd (hlevel.trans hnext.symm) ((changes_iff (t+1)).mp hchange).1

end Debounce
