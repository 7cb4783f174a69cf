import Mathlib.Tactic

/-!
# Terminating do-while loops

A body is run at least once and again while a test of the state it leaves
holds. Termination is a measure that falls on every repetition, so the loop
is a total function of its first state and needs no fuel.
-/

set_option autoImplicit false

namespace DoWhile

variable {σ : Type*} (body : σ → σ) (again : σ → Prop) [DecidablePred again] (μ : σ → ℕ)

def loop (h : ∀ s, again (body s) → μ (body s) < μ s) (s : σ) : σ :=
  if _ha : again (body s) then loop h (body s) else body s
termination_by μ s
decreasing_by exact h s _ha

variable {body again μ} (h : ∀ s, again (body s) → μ (body s) < μ s)

theorem loop_again (s : σ) (ha : again (body s)) :
    loop body again μ h s = loop body again μ h (body s) := by
  rw [loop, dif_pos ha]

theorem loop_exit (s : σ) (ha : ¬again (body s)) : loop body again μ h s = body s := by
  rw [loop, dif_neg ha]

/-- A loop whose test holds after each of the first `n` runs of the body and
fails after the next is that many runs of the body. -/
theorem loop_iterate (n : ℕ) (s : σ) (hgo : ∀ i < n, again (body^[i+1] s))
    (hstop : ¬again (body^[n+1] s)) : loop body again μ h s = body^[n+1] s := by
  induction n generalizing s with
  | zero => exact loop_exit h s hstop
  | succ n ih =>
    rw [loop_again h s (hgo 0 (by omega)), ih (body s)]
    · rfl
    · intro i hi
      exact hgo (i+1) (by omega)
    · exact hstop

end DoWhile
