import Mathlib.Logic.Relation
import Mathlib.Tactic

/-!
# Synchronous systems

A system takes one step at every clock, under inputs its environment may give.
A property of all runs is an invariant of the states a run can reach.
-/

set_option autoImplicit false

namespace Clocked

variable {σ ι : Type*} (step : ι → σ → σ) (ok : ι → σ → Prop)

def Tick (s t : σ) : Prop := ∃ i, ok i s ∧ step i s = t

def Reach (s t : σ) : Prop := Relation.ReflTransGen (Tick step ok) s t

variable {step ok}

theorem Reach.refl (s : σ) : Reach step ok s s := Relation.ReflTransGen.refl

theorem Reach.trans {s t u : σ} (h : Reach step ok s t) (h' : Reach step ok t u) :
    Reach step ok s u :=
  Relation.ReflTransGen.trans h h'

theorem Reach.tick {s t : σ} (h : Reach step ok s t) (i : ι) (hi : ok i t) :
    Reach step ok s (step i t) :=
  Relation.ReflTransGen.tail h ⟨i, hi, rfl⟩

theorem Reach.run (is : List ι) (hi : ∀ i ∈ is, ∀ s, ok i s) (s : σ) :
    Reach step ok s (is.foldl (fun s i => step i s) s) := by
  induction is generalizing s with
  | nil => exact Reach.refl s
  | cons i is ih =>
    have hfirst : Reach step ok s (step i s) := (Reach.refl s).tick i (hi i (by simp) s)
    exact hfirst.trans (ih (fun j hj => hi j (by simp [hj])) (step i s))

def Allows (step : ι → σ → σ) (ok : ι → σ → Prop) : List ι → σ → Prop
  | [], _ => True
  | i::is, s => ok i s ∧ Allows step ok is (step i s)

instance decidableAllows [∀ i s, Decidable (ok i s)] : (is : List ι) → (s : σ) →
    Decidable (Allows step ok is s)
  | [], _ => inferInstanceAs (Decidable True)
  | i::is, s =>
    haveI := decidableAllows is (step i s)
    inferInstanceAs (Decidable (ok i s ∧ Allows step ok is (step i s)))

theorem Reach.along (is : List ι) (s : σ) (h : Allows step ok is s) :
    Reach step ok s (is.foldl (fun s i => step i s) s) := by
  induction is generalizing s with
  | nil => exact Reach.refl s
  | cons i is ih => exact ((Reach.refl s).tick i h.1).trans (ih (step i s) h.2)

theorem Allows.invariant (inv : σ → Prop) (hstep : ∀ i s, ok i s → inv s → inv (step i s))
    (is : List ι) (s : σ) (h : Allows step ok is s) (hs : inv s) :
    inv (is.foldl (fun s i => step i s) s) := by
  induction is generalizing s with
  | nil => exact hs
  | cons i is ih => exact ih (step i s) h.2 (hstep i s h.1 hs)

/-- What is lost at an input that is not well timed stays lost. -/
theorem Allows.breaks {timed : ι → σ → Prop} (kept lost : σ → Prop)
    (hkeep : ∀ i s, ok i s → kept s → kept (step i s))
    (hbreak : ∀ i s, ok i s → kept s → ¬ timed i s → lost (step i s))
    (hlost : ∀ i s, ok i s → lost s → lost (step i s))
    (is : List ι) (s : σ) (h : Allows step ok is s) (hs : kept s)
    (hnot : ¬ Allows step timed is s) : lost (is.foldl (fun s i => step i s) s) := by
  induction is generalizing s with
  | nil => exact absurd trivial hnot
  | cons i is ih =>
    by_cases hi : timed i s
    · apply ih (step i s) h.2 (hkeep i s h.1 hs)
      exact fun hrest => hnot ⟨hi, hrest⟩
    · exact Allows.invariant lost hlost is (step i s) h.2 (hbreak i s h.1 hs hi)

theorem Allows.and {ok' : ι → σ → Prop} (is : List ι) (s : σ) (h : Allows step ok is s)
    (h' : Allows step ok' is s) : Allows step (fun i s => ok i s ∧ ok' i s) is s := by
  induction is generalizing s with
  | nil => trivial
  | cons i is ih => exact ⟨⟨h.1, h'.1⟩, ih (step i s) h.2 h'.2⟩

theorem Reach.mono {ok' : ι → σ → Prop} (hle : ∀ i s, ok i s → ok' i s) {s t : σ}
    (h : Reach step ok s t) : Reach step ok' s t :=
  Relation.ReflTransGen.mono (fun _ _ ⟨i, hi, ht⟩ => ⟨i, hle i _ hi, ht⟩) _ _ h

/-- A part of a system has the runs that the system shows of it. -/
theorem Reach.project {σ' ι' : Type*} {step' : ι' → σ' → σ'} {ok' : ι' → σ' → Prop} (f : ι → ι')
    (part : σ → σ') (hstep : ∀ i s, part (step i s) = step' (f i) (part s))
    (hok : ∀ i s, ok i s → ok' (f i) (part s)) {s t : σ} (h : Reach step ok s t) :
    Reach step' ok' (part s) (part t) := by
  induction h with
  | refl => exact Reach.refl _
  | tail _ htick ih =>
    obtain ⟨i, hi, rfl⟩ := htick
    rw [hstep]
    exact ih.tick (f i) (hok i _ hi)

/-- What holds at the start and is kept by every clock holds in every run. -/
theorem Reach.invariant (inv : σ → Prop) {s t : σ} (h : Reach step ok s t) (hs : inv s)
    (hstep : ∀ i s, ok i s → inv s → inv (step i s)) : inv t := by
  induction h with
  | refl => exact hs
  | tail _ htick ih =>
    obtain ⟨i, hi, rfl⟩ := htick
    exact hstep i _ hi ih

theorem Reach.countdown (P : ℕ → σ → Prop)
    (hstep : ∀ n s, P (n+1) s → ∃ t, Reach step ok s t ∧ P n t) (n : ℕ) (s : σ) (hs : P n s) :
    ∃ t, Reach step ok s t ∧ P 0 t := by
  induction n generalizing s with
  | zero => exact ⟨s, Reach.refl s, hs⟩
  | succ n ih =>
    obtain ⟨t, ht, hp⟩ := hstep n s hs
    obtain ⟨u, hu, hp⟩ := ih t hp
    exact ⟨u, ht.trans hu, hp⟩

theorem Reach.leaves (P Q : σ → Prop) (left : σ → ℕ) (i : ι) (hi : ∀ s, ok i s)
    (hstep : ∀ s, P s → (P (step i s) ∧ left (step i s) < left s) ∨ Q (step i s))
    (s : σ) (hs : P s) : ∃ t, Reach step ok s t ∧ Q t := by
  generalize hn : left s = n
  induction n using Nat.strong_induction_on generalizing s with
  | _ n ih =>
    have hone : Reach step ok s (step i s) := (Reach.refl s).tick i (hi s)
    obtain ⟨hp, hless⟩ | hq := hstep s hs
    · obtain ⟨t, ht, hq⟩ := ih _ (hn ▸ hless) _ hp rfl
      exact ⟨t, hone.trans ht, hq⟩
    · exact ⟨_, hone, hq⟩

/-! ## By the clock -/

def trace (step : ι → σ → σ) (i : ℕ → ι) (s : σ) : ℕ → σ
  | 0 => s
  | t+1 => step (i t) (trace step i s t)

theorem trace_invariant (inv : σ → Prop) {i : ℕ → ι} {s : σ} (hs : inv s)
    (hstep : ∀ t s, inv s → inv (step (i t) s)) (t : ℕ) : inv (trace step i s t) := by
  induction t with
  | zero => exact hs
  | succ t ih => exact hstep t _ ih

def rise (before after : Bool) : ℕ := if !before && after then 1 else 0

def risingEdges (f : ℕ → Bool) (t : ℕ) : ℕ → ℕ
  | 0 => 0
  | n+1 => risingEdges f t n + rise (f (t+n)) (f (t+n+1))

end Clocked
