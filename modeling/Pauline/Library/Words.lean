import Mathlib.Data.List.TakeWhile
import Mathlib.Tactic

/-!
# Words

The runs of a text between the characters that separate.
-/

set_option autoImplicit false

namespace Words

variable {α : Type*} (separates : α → Bool)

def split (text : List α) : List (List α) :=
  (text.splitOnP separates).filter fun word => !word.isEmpty

variable {separates}

theorem split_nil : split separates ([] : List α) = [] := by
  simp [split, List.splitOnP_nil]

theorem split_append (text rest : List α) {c : α} (hc : separates c = true) :
    split separates (text ++ c::rest) = split separates text ++ split separates rest := by
  rw [split, List.splitOnP_append_cons text rest hc, List.filter_append]
  rfl

theorem split_cons (rest : List α) {c : α} (hc : separates c = true) :
    split separates (c::rest) = split separates rest := by
  have h := split_append [] rest hc
  rwa [List.nil_append, split_nil, List.nil_append] at h

theorem plain_of_all {word : List α} (h : word.all (!separates ·) = true) :
    ∀ c ∈ word, separates c = false := by
  intro c hc
  simpa using List.all_eq_true.mp h c hc

theorem split_word {word : List α} (hne : word ≠ []) (hword : ∀ c ∈ word, separates c = false) :
    split separates word = [word] := by
  rw [split, List.splitOnP_eq_singleton hword]
  simp [hne]

theorem split_append_word {word rest : List α} (hne : word ≠ [])
    (hword : ∀ c ∈ word, separates c = false)
    (hrest : ∀ c, rest.head? = some c → separates c = true) :
    split separates (word ++ rest) = word :: split separates rest := by
  cases rest with
  | nil => rw [List.append_nil, split_nil, split_word hne hword]
  | cons c rest =>
    have hc := hrest c rfl
    rw [split_append _ _ hc, split_word hne hword, split_cons rest hc]
    rfl

theorem plain_of_mem_splitOnP (text : List α) :
    ∀ word ∈ text.splitOnP separates, ∀ c ∈ word, separates c = false := by
  induction text with
  | nil => simp
  | cons a text ih =>
    rw [List.splitOnP_cons_eq_if_modifyHead]
    split
    · simpa using ih
    · cases hpieces : text.splitOnP separates with
      | nil => exact absurd hpieces (List.splitOnP_ne_nil _ _)
      | cons piece pieces =>
        rw [hpieces] at ih
        obtain ⟨hpiece, hrest⟩ := List.forall_mem_cons.mp ih
        have ha : separates a = false := by simpa using ‹¬separates a = true›
        exact List.forall_mem_cons.mpr ⟨List.forall_mem_cons.mpr ⟨ha,hpiece⟩,hrest⟩

/-- A word is a text without what separates. -/
theorem plain_of_mem_split {text word : List α} (h : word ∈ split separates text) :
    word ≠ [] ∧ ∀ c ∈ word, separates c = false := by
  obtain ⟨hmem, hne⟩ := List.mem_filter.mp h
  exact ⟨by simpa using hne,plain_of_mem_splitOnP text word hmem⟩

end Words
