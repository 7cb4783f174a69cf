import Mathlib.Data.List.Basic
import Mathlib.Tactic
import Pauline.Library.BoundedFifo

/-!
# Circular buffers

A circular buffer of `n` slots holds at most `n - 1` values, and a value that
is pushed into a full one takes the place of the oldest. It is a queue of
bounded length.
-/

set_option autoImplicit false

structure CircularBuffer (α : Type*) (n : ℕ) where
  slots : ℕ → α
  inIndex : ℕ
  outIndex : ℕ

namespace CircularBuffer
variable {α : Type*} {n : ℕ}

structure Valid (r : CircularBuffer α n) : Prop where
  inIndex_lt : r.inIndex < n
  outIndex_lt : r.outIndex < n

def count (r : CircularBuffer α n) : ℕ := (r.inIndex + n - r.outIndex) % n

def contents (r : CircularBuffer α n) : List α :=
  (List.range r.count).map fun k => r.slots ((r.outIndex + k) % n)

def push (x : α) (r : CircularBuffer α n) : CircularBuffer α n where
  slots := Function.update r.slots r.inIndex x
  inIndex := (r.inIndex + 1) % n
  outIndex := if (r.inIndex + 1) % n = r.outIndex then (r.outIndex + 1) % n else r.outIndex

def isEmpty (r : CircularBuffer α n) : Bool := r.outIndex = r.inIndex

def head (r : CircularBuffer α n) : α := r.slots r.outIndex

def pop (r : CircularBuffer α n) : CircularBuffer α n := { r with outIndex := (r.outIndex + 1) % n }

theorem contents_length (r : CircularBuffer α n) : r.contents.length = r.count := by
  simp [contents]

theorem contents_getElem? (r : CircularBuffer α n) (k : ℕ) :
    r.contents[k]? = if k < r.count then some (r.slots ((r.outIndex + k) % n)) else none := by
  rw [contents, List.getElem?_map]
  split_ifs with h
  · rw [List.getElem?_range h]
    rfl
  · rw [List.getElem?_eq_none (by simpa using h)]
    rfl

section Valid
variable {r : CircularBuffer α n} (h : r.Valid)
include h

/-- Without the remainder: the count on one side of the wrap or the other. -/
theorem count_eq : r.count =
    if r.outIndex ≤ r.inIndex then r.inIndex - r.outIndex else r.inIndex + n - r.outIndex := by
  have hin := h.inIndex_lt
  have hout := h.outIndex_lt
  unfold count
  split_ifs with hle
  · rw [show r.inIndex + n - r.outIndex = r.inIndex - r.outIndex + n by omega,
      Nat.add_mod_right, Nat.mod_eq_of_lt (by omega)]
  · rw [Nat.mod_eq_of_lt (by omega)]

theorem count_lt : r.count < n := by
  have hin := h.inIndex_lt
  rw [count_eq h]
  split_ifs <;> omega

theorem isEmpty_iff : r.isEmpty = true ↔ r.contents = [] := by
  have hin := h.inIndex_lt
  have hout := h.outIndex_lt
  rw [← List.length_eq_zero_iff, contents_length, count_eq h, isEmpty, decide_eq_true_eq]
  split_ifs <;> omega

theorem full_iff : (r.inIndex + 1) % n = r.outIndex ↔ r.count + 1 = n := by
  have hin := h.inIndex_lt
  have hout := h.outIndex_lt
  rw [count_eq h]
  by_cases hwrap : r.inIndex + 1 = n
  · rw [hwrap, Nat.mod_self]
    split_ifs <;> omega
  · rw [Nat.mod_eq_of_lt (by omega)]
    split_ifs <;> omega

/-- The slot behind the newest value is the next one written. -/
theorem slot_eq_inIndex {k : ℕ} (hk : k < n) : (r.outIndex + k) % n = r.inIndex ↔ k = r.count := by
  have hin := h.inIndex_lt
  have hout := h.outIndex_lt
  rw [count_eq h]
  by_cases hwrap : r.outIndex + k < n
  · rw [Nat.mod_eq_of_lt hwrap]
    split_ifs <;> omega
  · rw [Nat.mod_eq_sub_mod (by omega), Nat.mod_eq_of_lt (by omega)]
    split_ifs <;> omega

theorem push_valid (x : α) : (r.push x).Valid := by
  have hin := h.inIndex_lt
  have hpos : 0 < n := by omega
  refine ⟨Nat.mod_lt _ hpos, ?_⟩
  simp only [push]
  split_ifs
  · exact Nat.mod_lt _ hpos
  · exact h.outIndex_lt

theorem pop_valid : r.pop.Valid :=
  ⟨h.inIndex_lt, Nat.mod_lt _ (Nat.zero_lt_of_lt h.inIndex_lt)⟩

theorem push_count (x : α) :
    (r.push x).count = if r.count + 1 = n then r.count else r.count + 1 := by
  have hin := h.inIndex_lt
  have hout := h.outIndex_lt
  rw [count_eq (push_valid h x), count_eq h]
  simp only [push, full_iff h, count_eq h]
  by_cases hwrap : r.inIndex + 1 = n
  · rw [hwrap, Nat.mod_self]
    by_cases hwrap' : r.outIndex + 1 = n
    · rw [hwrap', Nat.mod_self]
      split_ifs <;> omega
    · rw [Nat.mod_eq_of_lt (show r.outIndex + 1 < n by omega)]
      split_ifs <;> omega
  · rw [Nat.mod_eq_of_lt (show r.inIndex + 1 < n by omega)]
    by_cases hwrap' : r.outIndex + 1 = n
    · rw [hwrap', Nat.mod_self]
      split_ifs <;> omega
    · rw [Nat.mod_eq_of_lt (show r.outIndex + 1 < n by omega)]
      split_ifs <;> omega

theorem push_slot (x : α) (k : ℕ) (hk : k ≤ r.count) :
    (r.push x).slots ((r.outIndex + k) % n) =
      if k = r.count then x else r.slots ((r.outIndex + k) % n) := by
  have hlt := count_lt h
  simp only [push, Function.update_apply, slot_eq_inIndex h (show k < n by omega)]

/-- The value before the newest one is where it was. -/
theorem append_getElem? (x : α) (k : ℕ) : (r.contents ++ [x])[k]? =
    if k < r.count + 1 then some ((r.push x).slots ((r.outIndex + k) % n)) else none := by
  by_cases hk : k < r.count + 1
  · rw [if_pos hk, push_slot h x k (by omega)]
    by_cases hlast : k = r.count
    · rw [if_pos hlast, List.getElem?_append_right (by rw [contents_length]; omega),
        contents_length, hlast, Nat.sub_self]
      rfl
    · rw [if_neg hlast, List.getElem?_append_left (by rw [contents_length]; omega),
        contents_getElem?, if_pos (by omega)]
  · rw [if_neg hk, List.getElem?_eq_none]
    rw [List.length_append, contents_length, List.length_singleton]
    omega

theorem push_contents (x : α) (hn : 1 < n) :
    (r.push x).contents = boundedPush (n - 1) x r.contents := by
  have hlt := count_lt h
  apply List.ext_getElem?
  intro k
  by_cases hfull : r.count + 1 = n
  · have hqueue : boundedPush (n - 1) x r.contents = r.contents.tail ++ [x] :=
      if_neg (by rw [contents_length]; omega)
    have hout : (r.push x).outIndex = (r.outIndex + 1) % n := if_pos ((full_iff h).mpr hfull)
    have hsome : r.contents ≠ [] := List.ne_nil_of_length_pos (by rw [contents_length]; omega)
    rw [hqueue, ← List.tail_append_of_ne_nil hsome, List.getElem?_tail, append_getElem? h,
      contents_getElem?, push_count h, if_pos hfull, hout, Nat.mod_add_mod,
      show r.outIndex + 1 + k = r.outIndex + (k+1) by omega]
    simp only [Nat.add_lt_add_iff_right]
  · have hqueue : boundedPush (n - 1) x r.contents = r.contents ++ [x] :=
      if_pos (by rw [contents_length]; omega)
    have hout : (r.push x).outIndex = r.outIndex :=
      if_neg (fun he => hfull ((full_iff h).mp he))
    rw [hqueue, append_getElem? h, contents_getElem?, push_count h, if_neg hfull, hout]

theorem pop_count (hne : r.isEmpty = false) : r.pop.count + 1 = r.count := by
  have hin := h.inIndex_lt
  have hout := h.outIndex_lt
  have hne' : r.outIndex ≠ r.inIndex := of_decide_eq_false hne
  have hpop : r.pop.count = if (r.outIndex + 1) % n ≤ r.inIndex then
      r.inIndex - (r.outIndex + 1) % n else r.inIndex + n - (r.outIndex + 1) % n :=
    count_eq (pop_valid h)
  rw [hpop, count_eq h]
  by_cases hwrap : r.outIndex + 1 = n
  · rw [hwrap, Nat.mod_self]
    split_ifs <;> omega
  · rw [Nat.mod_eq_of_lt (show r.outIndex + 1 < n by omega)]
    split_ifs <;> omega

theorem contents_pop (hne : r.isEmpty = false) : r.contents = r.head :: r.pop.contents := by
  have hcount := pop_count h hne
  apply List.ext_getElem?
  intro k
  cases k with
  | zero =>
    rw [contents_getElem?, if_pos (by omega), Nat.add_zero, Nat.mod_eq_of_lt h.outIndex_lt]
    rfl
  | succ k =>
    rw [List.getElem?_cons_succ, contents_getElem?, contents_getElem?]
    have hslot : (r.pop.outIndex + k) % n = (r.outIndex + (k+1)) % n := by
      rw [pop, Nat.mod_add_mod, Nat.add_assoc, Nat.add_comm 1 k]
    rw [hslot]
    by_cases hk : k < r.pop.count
    · rw [if_pos (by omega), if_pos hk]
      rfl
    · rw [if_neg (by omega), if_neg hk]

end Valid

end CircularBuffer
