import Mathlib.Tactic

/-!
# Single-clock fifos

A fifo of fixed depth with checked overflow and underflow. A word requested at
one edge stands at the output after it. What the output shows after a clear is
left open, and so is how soon an empty fifo reports a word.
-/

set_option autoImplicit false

/-- A fifo for words of type `α`: at most `depth` of them, with the almost full
flag from `almostFull` words on. -/
structure SyncFifo (α : Type) (depth almostFull : ℕ) where
  State : Type
  /-- One edge with `sclr`, `wrreq`, `data` and `rdreq`. -/
  step : Bool → Bool → α → Bool → State → State
  contents : State → List α
  q : State → α
  empty : State → Bool
  contents_step : ∀ sclr wrreq data rdreq s, contents (step sclr wrreq data rdreq s) =
    if sclr then []
    else (if rdreq then (contents s).tail else contents s) ++
      (if wrreq ∧ (contents s).length < depth then [data] else [])
  q_step : ∀ wrreq data s x xs, contents s = x::xs → q (step false wrreq data true s) = x
  q_hold : ∀ wrreq data rdreq s, rdreq = false ∨ contents s = [] →
    q (step false wrreq data rdreq s) = q s
  empty_sound : ∀ s, empty s = false → contents s ≠ []

namespace SyncFifo
variable {α : Type} {depth almostFull : ℕ} (f : SyncFifo α depth almostFull)

def level (s : f.State) : ℕ := (f.contents s).length

def almost_full (s : f.State) : Bool := almostFull ≤ f.level s

def Settles : Prop := ∀ wrreq data rdreq s, f.contents s ≠ [] →
  f.contents (f.step false wrreq data rdreq s) ≠ [] →
    f.empty (f.step false wrreq data rdreq s) = false

/-- What a fifo holds was there before or has just been written. -/
theorem mem_contents_step {sclr wrreq : Bool} {data : α} {rdreq : Bool} {s : f.State} {x : α}
    (hx : x ∈ f.contents (f.step sclr wrreq data rdreq s)) :
    x ∈ f.contents s ∨ wrreq = true ∧ x = data := by
  rw [f.contents_step] at hx
  cases sclr with
  | true => simp at hx
  | false =>
    rw [if_neg Bool.false_ne_true, List.mem_append] at hx
    obtain hx | hx := hx
    · cases rdreq with
      | true => exact Or.inl (List.mem_of_mem_tail hx)
      | false => exact Or.inl hx
    · split_ifs at hx with hw
      · exact Or.inr ⟨hw.1, List.mem_singleton.mp hx⟩
      · simp at hx

/-- Words stay where none is read and the fifo is not cleared. -/
theorem contents_ne_nil {wrreq : Bool} {data : α} {s : f.State} (h : f.contents s ≠ []) :
    f.contents (f.step false wrreq data false s) ≠ [] := by
  rw [f.contents_step]
  simp [h]

theorem level_step (sclr wrreq : Bool) (data : α) (rdreq : Bool) (s : f.State) :
    f.level (f.step sclr wrreq data rdreq s) =
      if sclr then 0
      else f.level s - (if rdreq then 1 else 0) +
        (if wrreq ∧ f.level s < depth then 1 else 0) := by
  unfold level
  rw [f.contents_step]
  cases sclr <;> cases rdreq <;> simp [apply_ite List.length]

theorem level_step_le (sclr wrreq : Bool) (data : α) (rdreq : Bool) (s : f.State) :
    f.level (f.step sclr wrreq data rdreq s) ≤ f.level s + (if wrreq then 1 else 0) := by
  rw [level_step]
  cases wrreq
  · simp only [Bool.false_eq_true, false_and, if_false]
    split_ifs <;> omega
  · simp only [true_and, if_true]
    split_ifs <;> omega

theorem level_le (sclr wrreq : Bool) (data : α) (rdreq : Bool) (s : f.State)
    (h : f.level s ≤ depth) : f.level (f.step sclr wrreq data rdreq s) ≤ depth := by
  rw [level_step]
  split_ifs <;> omega

theorem forall₂_step {β : Type} (f : SyncFifo α depth almostFull)
    (g : SyncFifo β depth almostFull) {R : α → β → Prop} {s : f.State} {t : g.State} {x : α} {y : β}
    (sclr wrreq rdreq : Bool) (hxy : wrreq = true → R x y)
    (h : List.Forall₂ R (f.contents s) (g.contents t)) :
    List.Forall₂ R (f.contents (f.step sclr wrreq x rdreq s))
      (g.contents (g.step sclr wrreq y rdreq t)) := by
  rw [f.contents_step, g.contents_step, ← h.length_eq]
  have hread : List.Forall₂ R (if rdreq then (f.contents s).tail else f.contents s)
      (if rdreq then (g.contents t).tail else g.contents t) := by
    cases rdreq with
    | true =>
      rw [if_pos rfl, if_pos rfl, ← List.drop_one, ← List.drop_one]
      exact List.forall₂_drop 1 h
    | false => exact h
  cases sclr with
  | true => exact List.Forall₂.nil
  | false =>
    rw [if_neg Bool.false_ne_true, if_neg Bool.false_ne_true]
    refine List.rel_append hread ?_
    by_cases hw : wrreq = true ∧ (f.contents s).length < depth
    · rw [if_pos hw, if_pos hw]
      exact List.Forall₂.cons (hxy hw.1) List.Forall₂.nil
    · rw [if_neg hw, if_neg hw]
      exact List.Forall₂.nil

def ofList (α : Type) [Inhabited α] (depth almostFull : ℕ) : SyncFifo α depth almostFull where
  State := List α × α
  step sclr wrreq data rdreq s :=
    if sclr then ([], s.2)
    else ((if rdreq then s.1.tail else s.1) ++ (if wrreq ∧ s.1.length < depth then [data] else []),
      if rdreq then s.1.headD s.2 else s.2)
  contents := Prod.fst
  q := Prod.snd
  empty s := s.1.isEmpty
  contents_step sclr wrreq data rdreq s := by cases sclr <;> rfl
  q_step wrreq data s x xs h := by simp [h]
  q_hold wrreq data rdreq s h := by
    rcases h with rfl | h
    · simp
    · simp [h]
  empty_sound s h := by
    intro hnil
    rw [hnil] at h
    simp at h

/-- Two words are not written in one clock. -/
theorem Settles.shown (h : f.Settles) (wrreq : Bool) (data : α) (rdreq : Bool) (s : f.State)
    (hlevel : 2 ≤ f.level (f.step false wrreq data rdreq s)) :
    f.empty (f.step false wrreq data rdreq s) = false := by
  have hle := f.level_step_le false wrreq data rdreq s
  have hold : 0 < f.level s := by split_ifs at hle <;> omega
  exact h wrreq data rdreq s (List.ne_nil_of_length_pos hold)
    (List.ne_nil_of_length_pos (Nat.lt_of_lt_of_le Nat.zero_lt_two hlevel))

theorem ofList_settles [Inhabited α] : (ofList α depth almostFull).Settles := by
  intro wrreq data rdreq s _ hnext
  exact List.isEmpty_eq_false_iff.mpr hnext

end SyncFifo
