import Mathlib.Tactic

/-!
# Programs with a log

A program changes a state and writes a log. What it may write follows from what
its parts may write, and what it always writes one of its parts always writes.
-/

set_option autoImplicit false

def Logging (σ ε α : Type) : Type := σ → α × σ × List ε

namespace Logging
variable {σ ε α β : Type}

instance : Monad (Logging σ ε) where
  pure a := fun s => (a,s,[])
  bind m f := fun s => ((f (m s).1 (m s).2.1).1,(f (m s).1 (m s).2.1).2.1,
    (m s).2.2 ++ (f (m s).1 (m s).2.1).2.2)

def log (m : Logging σ ε α) (s : σ) : List ε := (m s).2.2

def write (e : ε) : Logging σ ε Unit := fun s => ((),s,[e])

def act (f : σ → α × σ) : Logging σ ε α := fun s => ((f s).1,(f s).2,[])

def times : ℕ → Logging σ ε Unit → Logging σ ε Unit
  | 0, _ => pure ()
  | n+1, m => do
    m
    times n m

def Only (p : ε → Prop) (m : Logging σ ε α) : Prop := ∀ s, ∀ e ∈ m.log s, p e

def Always (p : ε → Prop) (m : Logging σ ε α) : Prop := ∀ s, ∃ e ∈ m.log s, p e

theorem log_bind (m : Logging σ ε α) (f : α → Logging σ ε β) (s : σ) :
    (m >>= f).log s = m.log s ++ (f (m s).1).log (m s).2.1 := rfl

section Only
variable {p : ε → Prop}

theorem only_pure (a : α) : Only p (pure a : Logging σ ε α) := fun _ _ he => by cases he

theorem only_act (f : σ → α × σ) : Only p (act f : Logging σ ε α) := fun _ _ he => by cases he

theorem only_write {e : ε} (h : p e) : Only p (write e : Logging σ ε Unit) := fun _ e' he => by
  obtain rfl := List.mem_singleton.mp he
  exact h

theorem Only.bind {m : Logging σ ε α} {f : α → Logging σ ε β} (hm : Only p m)
    (hf : ∀ a, Only p (f a)) : Only p (m >>= f) := fun s e he => by
  rw [log_bind, List.mem_append] at he
  exact he.elim (hm s e) (hf _ _ e)

theorem Only.ite {c : Prop} [Decidable c] {m m' : Logging σ ε α} (hm : Only p m)
    (hm' : Only p m') : Only p (if c then m else m') := by
  split_ifs
  · exact hm
  · exact hm'

theorem Only.times {m : Logging σ ε Unit} (hm : Only p m) (n : ℕ) : Only p (times n m) := by
  induction n with
  | zero => exact only_pure ()
  | succ n ih => exact hm.bind fun _ => ih

end Only

section Always
variable {p : ε → Prop}

theorem always_write {e : ε} (h : p e) : Always p (write e : Logging σ ε Unit) := fun _ =>
  ⟨e,List.mem_singleton_self e,h⟩

theorem Always.first {m : Logging σ ε α} (hm : Always p m) (f : α → Logging σ ε β) :
    Always p (m >>= f) := fun s => by
  obtain ⟨e, he, hp⟩ := hm s
  exact ⟨e,List.mem_append_left _ he,hp⟩

theorem Always.then {m : Logging σ ε α} {f : α → Logging σ ε β} (hf : ∀ a, Always p (f a)) :
    Always p (m >>= f) := fun s => by
  obtain ⟨e, he, hp⟩ := hf (m s).1 (m s).2.1
  exact ⟨e,List.mem_append_right _ he,hp⟩

theorem Always.ite {c : Prop} [Decidable c] {m m' : Logging σ ε α} (hm : Always p m)
    (hm' : Always p m') : Always p (if c then m else m') := by
  split_ifs
  · exact hm
  · exact hm'

/-- A program that writes entries with a property and no others. -/
theorem only_iff_of_same {q : ε → Prop} {r : Prop} {m : Logging σ ε α} (hm : Only p m)
    (hm' : Always p m) (h : ∀ e, p e → (q e ↔ r)) (s : σ) : (∀ e ∈ m.log s, q e) ↔ r := by
  constructor
  · intro hall
    obtain ⟨e, he, hp⟩ := hm' s
    exact (h e hp).mp (hall e he)
  · exact fun hr e he => (h e (hm s e he)).mpr hr

end Always

end Logging
