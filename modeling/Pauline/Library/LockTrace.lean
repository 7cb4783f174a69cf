import Mathlib.Tactic

/-!
# Traces of a lock

What one thread does to a lock that is not recursive, and to the data it guards.
-/

set_option autoImplicit false

namespace LockTrace

inductive Event where
  | lock
  | unlock
  /-- The guarded data is read or written. -/
  | access
deriving DecidableEq

def Event.allowed : Event → Bool → Bool
  | .lock, held => !held
  | .unlock, held => held
  | .access, held => held

def Event.after : Event → Bool → Bool
  | .lock, _ => true
  | .unlock, _ => false
  | .access, held => held

def holds (held : Bool) (es : List Event) : Bool := es.foldl (fun held e => e.after held) held

def Kept : Bool → List Event → Prop
  | _, [] => True
  | held, e::es => e.allowed held = true ∧ Kept (e.after held) es

theorem holds_append (held : Bool) (es es' : List Event) :
    holds held (es ++ es') = holds (holds held es) es' := List.foldl_append

theorem kept_append (held : Bool) (es es' : List Event) :
    Kept held (es ++ es') ↔ Kept held es ∧ Kept (holds held es) es' := by
  induction es generalizing held with
  | nil => simp [Kept, holds]
  | cons e es ih =>
    rw [List.cons_append, Kept, Kept, ih, and_assoc]
    rfl

end LockTrace
