import Mathlib.Data.List.Basic
import Mathlib.Tactic

/-!
# Lines

A text as its lines, each ended by a separator, and the rest behind the last
separator.
-/

set_option autoImplicit false

namespace Lines

variable {α : Type*} [DecidableEq α] (sep : α)

def split : List α → List (List α) × List α
  | [] => ([],[])
  | c::text =>
    let next := split text
    if c = sep then ([]::next.1,next.2)
    else
      match next.1 with
      | [] => ([],c::next.2)
      | line::lines => ((c::line)::lines,next.2)

def all (text : List α) : List (List α) :=
  (split sep text).1 ++ if (split sep text).2 = [] then [] else [(split sep text).2]

variable {sep}

theorem split_rest {text : List α} (h : sep ∉ text) : split sep text = ([],text) := by
  induction text with
  | nil => rfl
  | cons c text ih =>
    rw [List.mem_cons, not_or] at h
    rw [split, ih h.2, if_neg (Ne.symm h.1)]

theorem split_line {line : List α} (text : List α) (h : sep ∉ line) :
    split sep (line ++ sep::text) = (line::(split sep text).1,(split sep text).2) := by
  induction line with
  | nil => simp [split]
  | cons c line ih =>
    rw [List.mem_cons, not_or] at h
    rw [List.cons_append, split, ih h.2, if_neg (Ne.symm h.1)]

theorem recLines {P : List α → Prop} (hrest : ∀ text, sep ∉ text → P text)
    (hline : ∀ line text, sep ∉ line → P text → P (line ++ sep::text)) (text : List α) :
    P text := by
  generalize hn : text.length = n
  induction n using Nat.strong_induction_on generalizing text with
  | _ n ih =>
    by_cases h : sep ∈ text
    · obtain ⟨line, rest, rfl, hline'⟩ := List.eq_append_cons_of_mem h
      refine hline line rest hline' (ih rest.length ?_ rest rfl)
      rw [← hn, List.length_append, List.length_cons]
      omega
    · exact hrest text h

theorem split_nil : split sep ([] : List α) = ([],[]) := rfl

/-- The rest of a text goes on with the text behind it. -/
theorem split_append (first second : List α) : split sep (first ++ second) =
    ((split sep first).1 ++ (split sep ((split sep first).2 ++ second)).1,
      (split sep ((split sep first).2 ++ second)).2) := by
  induction first using @recLines _ _ sep with
  | hrest text h => rw [split_rest h, List.nil_append]
  | hline line text h ih =>
    rw [List.append_assoc, List.cons_append, split_line _ h, split_line _ h, ih]
    rfl

theorem sep_notMem_rest (text : List α) : sep ∉ (split sep text).2 := by
  induction text using @recLines _ _ sep with
  | hrest text h => rwa [split_rest h]
  | hline line text h ih => rwa [split_line _ h]

theorem all_rest {text : List α} (h : sep ∉ text) (hne : text ≠ []) : all sep text = [text] := by
  rw [all, split_rest h, if_neg hne, List.nil_append]

theorem all_line {line : List α} (text : List α) (h : sep ∉ line) :
    all sep (line ++ sep::text) = line::all sep text := by
  rw [all, split_line _ h, List.cons_append]
  rfl

theorem all_nil : all sep ([] : List α) = [] := rfl

theorem all_length_le (text : List α) : ∀ line ∈ all sep text, line.length ≤ text.length := by
  induction text using @recLines _ _ sep with
  | hrest text h =>
    by_cases hne : text = []
    · rw [hne, all_nil]
      exact fun line hline => absurd hline List.not_mem_nil
    · rw [all_rest h hne]
      intro line hline
      rw [List.mem_singleton.mp hline]
  | hline line text h ih =>
    rw [all_line _ h]
    intro l hl
    rw [List.length_append, List.length_cons]
    obtain rfl | hl := List.mem_cons.mp hl
    · omega
    · have := ih l hl
      omega

/-! ## The parts between the separators -/

def parts (sep : α) (text : List α) : List (List α) := (split sep text).1 ++ [(split sep text).2]

theorem parts_rest {text : List α} (h : sep ∉ text) : parts sep text = [text] := by
  rw [parts, split_rest h, List.nil_append]

theorem parts_line {line : List α} (text : List α) (h : sep ∉ line) :
    parts sep (line ++ sep::text) = line::parts sep text := by
  rw [parts, split_line _ h, List.cons_append]
  rfl

/-- A text that is ended by a separator comes with its parts as lines. -/
theorem all_append_sep (first second : List α) :
    all sep (first ++ sep::second) = parts sep first ++ all sep second := by
  rw [all, split_append, split_line _ (sep_notMem_rest first), all, parts]
  simp

/-- What stands before a text is in its first part. -/
theorem parts_append {line : List α} (text : List α) (h : sep ∉ line) :
    ∃ first rest, parts sep text = first::rest ∧ parts sep (line ++ text) = (line ++ first)::rest := by
  induction text using @recLines _ _ sep with
  | hrest text ht =>
    refine ⟨text,[],parts_rest ht,parts_rest ?_⟩
    rw [List.mem_append]
    exact not_or.mpr ⟨h,ht⟩
  | hline first text hf ih =>
    refine ⟨first,parts sep text,parts_line _ hf,?_⟩
    rw [← List.append_assoc]
    refine parts_line _ ?_
    rw [List.mem_append]
    exact not_or.mpr ⟨h,hf⟩

theorem parts_append_last (text : List α) {line : List α} (h : sep ∉ line) :
    parts sep (text ++ line) = (split sep text).1 ++ [(split sep text).2 ++ line] := by
  have hrest : sep ∉ (split sep text).2 ++ line := by
    rw [List.mem_append]
    exact not_or.mpr ⟨sep_notMem_rest text,h⟩
  rw [parts, split_append, split_rest hrest, List.append_nil]

end Lines
