import Mathlib.Data.List.ReduceOption
import Mathlib.Logic.Relation
import Mathlib.Tactic

/-!
# Bounded queues

A queue of bounded length that drops its oldest value for a new one, with what
it was given and what it gave.
-/

set_option autoImplicit false

def boundedPush {α : Type*} (capacity : ℕ) (x : α) (q : List α) : List α :=
  if q.length < capacity then q ++ [x] else q.tail ++ [x]

section BoundedPush
variable {α : Type*} (capacity : ℕ) (x : α) (q : List α)

theorem boundedPush_sublist : (boundedPush capacity x q).Sublist (q ++ [x]) := by
  unfold boundedPush
  split
  · exact List.Sublist.refl _
  · exact (List.tail_sublist q).append (List.Sublist.refl [x])

theorem map_boundedPush {β : Type*} (f : α → β) :
    (boundedPush capacity x q).map f = boundedPush capacity (f x) (q.map f) := by
  unfold boundedPush
  rw [List.length_map]
  split <;> simp

end BoundedPush

structure BoundedFifo (α : Type*) where
  pushed : List α
  queue : List α
  popped : List (Option α)

namespace BoundedFifo
variable {α : Type*} {capacity : ℕ}

def empty : BoundedFifo α := ⟨[],[],[]⟩

def push (capacity : ℕ) (x : α) (s : BoundedFifo α) : BoundedFifo α :=
  { s with pushed := s.pushed ++ [x], queue := boundedPush capacity x s.queue }

def pop (s : BoundedFifo α) : BoundedFifo α :=
  { s with queue := s.queue.tail, popped := s.popped ++ [s.queue.head?] }

def Ordered (s : BoundedFifo α) : Prop :=
  (s.popped.reduceOption ++ s.queue).Sublist s.pushed

theorem empty_ordered : (empty : BoundedFifo α).Ordered := List.Sublist.refl _

variable {s : BoundedFifo α}

theorem Ordered.push (h : s.Ordered) (x : α) : (s.push capacity x).Ordered := by
  have happend := (List.Sublist.refl s.popped.reduceOption).append
    (boundedPush_sublist capacity x s.queue)
  rw [← List.append_assoc] at happend
  exact happend.trans (List.Sublist.append h (List.Sublist.refl [x]))

theorem Ordered.pop (h : s.Ordered) : s.pop.Ordered := by
  have hsame : s.pop.popped.reduceOption ++ s.pop.queue = s.popped.reduceOption ++ s.queue := by
    cases hq : s.queue with
    | nil => simp [BoundedFifo.pop, hq, List.reduceOption_append, List.reduceOption_singleton]
    | cons x q => simp [BoundedFifo.pop, hq, List.reduceOption_append, List.reduceOption_singleton]
  rw [Ordered, hsame]
  exact h

end BoundedFifo
