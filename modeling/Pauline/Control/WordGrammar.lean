import Pauline.Control.CommandLine
import Pauline.Library.Words
import Pauline.Server.Messages

/-!
# The words of a command line

What `get_param` reads, compared with the words of the line. It skips spaces
only between two words, and a line that ends with a CR or LF is not over for it.
-/

set_option autoImplicit false

namespace Pauline.WordGrammar
open Pauline.CommandLine Pauline.Messages

/-! ## The words -/

def marked (insidequote : Bool) : Text → List (Char × Bool)
  | [] => []
  | c::line => (c,insidequote) :: marked (if c = '"' then !insidequote else insidequote) line

def endsLine (c : Char × Bool) : Bool :=
  c.1 = nul ∨ c.1 = '\r' ∨ c.1 = '\n' ∨ (c.1 = '#' ∧ c.2 = false)

def separates (c : Char × Bool) : Bool := isSpace c.1 && !c.2

def cut (insidequote : Bool) (line : Text) : List (Char × Bool) :=
  (marked insidequote line).takeWhile (!endsLine ·)

def lineEnd (insidequote : Bool) (line : Text) : Option Char :=
  (((marked insidequote line).dropWhile (!endsLine ·)).head?).map Prod.fst

def unquoted (word : List (Char × Bool)) : Text :=
  (word.filter fun c => c.1 ≠ '"').map Prod.fst

def words (line : Text) : List Text := (Words.split separates (cut false line)).map unquoted

def TakesWord (line : Text) (param : ℕ) : Prop :=
  ((getParam (cString line) param).isSome ↔ param + 1 ≤ (words line).length) ∧
    ∀ text, getParam (cString line) param = some text → (words line)[param]? = some text

/-! ## The condition -/

def tab : Char × Bool := ('\t',false)

def reached (line : Text) : ℕ :=
  (Words.split separates ((cut false line).takeWhile (· ≠ tab))).length

structure Unbroken (line : Text) : Prop where
  tabless : tab ∉ cut false line
  no_cr : lineEnd false line ≠ some '\r'
  no_lf : lineEnd false line ≠ some '\n'

/-! ## A parameter is a piece of the line -/

theorem endsLine_outside {c : Char} (h : c ≠ nul) : endsLine (c,false) = isEndLine c := by
  rw [Bool.eq_iff_iff]
  simp only [endsLine, isEndLine, h, decide_eq_true_eq, and_true, false_or]
  tauto

structure Piece (insidequote : Bool) (line text rest : Text) : Prop where
  word : text = unquoted ((cut insidequote line).takeWhile (!separates ·))
  cut_rest : cut false rest = (cut insidequote line).dropWhile (!separates ·)
  end_rest : lineEnd false rest = lineEnd insidequote line
  stop : ∀ c, rest.head? = some c → isEndLine c = true ∨ isSpace c = true

theorem piece_stop {insidequote : Bool} {c : Char} (line : Text) (hc : c ≠ nul)
    (h : endsLine (c,insidequote) = true ∨ separates (c,insidequote) = true) :
    Piece insidequote (c::line) [] (c::line) := by
  have hmarked : marked insidequote (c::line) =
      (c,insidequote) :: marked (if c = '"' then !insidequote else insidequote) line := rfl
  cases hend : endsLine (c,insidequote) with
  | true =>
    have hout : endsLine (c,false) = true := by
      simp only [endsLine, decide_eq_true_eq] at hend ⊢
      tauto
    have hmark : marked false (c::line) =
        (c,false) :: marked (if c = '"' then !false else false) line := rfl
    constructor
    · simp [cut, hmarked, hend, unquoted]
    · simp [cut, hmarked, hmark, hend, hout]
    · simp [lineEnd, hmarked, hmark, hend, hout]
    · intro d hd
      cases hd
      exact Or.inl (endsLine_outside hc ▸ hout)
  | false =>
    have hsep : separates (c,insidequote) = true := by simpa [hend] using h
    have hin : insidequote = false := by
      rw [separates, Bool.and_eq_true] at hsep
      simpa using hsep.2
    subst hin
    constructor
    · simp [cut, hmarked, hend, hsep, unquoted]
    · simp [cut, hmarked, hend, hsep]
    · rfl
    · intro d hd
      cases hd
      exact Or.inr (by simpa [separates] using hsep)

theorem piece_cons {insidequote : Bool} {c : Char} {line text rest : Text}
    (hend : endsLine (c,insidequote) = false) (hsep : separates (c,insidequote) = false)
    (h : Piece (if c = '"' then !insidequote else insidequote) line text rest) :
    Piece insidequote (c::line) ((if c = '"' then [] else [c]) ++ text) rest := by
  have hmarked : marked insidequote (c::line) =
      (c,insidequote) :: marked (if c = '"' then !insidequote else insidequote) line := rfl
  have hcut : cut insidequote (c::line) =
      (c,insidequote) :: cut (if c = '"' then !insidequote else insidequote) line := by
    rw [cut, hmarked, List.takeWhile_cons_of_pos (by simp [hend]), cut]
  constructor
  · rw [hcut, List.takeWhile_cons_of_pos (by simp [hsep]), h.word]
    split <;> rename_i hc <;> simp [unquoted, hc]
  · rw [hcut, List.dropWhile_cons_of_pos (by simp [hsep]), h.cut_rest]
  · rw [h.end_rest, lineEnd, lineEnd, hmarked, List.dropWhile_cons_of_pos (by simp [hend])]
  · exact h.stop

theorem copyLoop_piece (insidequote : Bool) (room : ℕ) (line : Text) (hnul : nul ∉ line)
    (hroom : line.length ≤ room) :
    Piece insidequote line (copyLoop insidequote room line).1
      (copyLoop insidequote room line).2 := by
  induction line generalizing insidequote room with
  | nil => exact ⟨rfl,rfl,rfl,fun _ h => nomatch h⟩
  | cons c line ih =>
    rw [List.mem_cons, not_or] at hnul
    rw [List.length_cons] at hroom
    have hpos : 0 < room := by omega
    have hc : c ≠ nul := Ne.symm hnul.1
    have hcond : ((!isEndLine c || (insidequote && c = '#')) && (insidequote || !isSpace c)
        && 0 < room) = (!endsLine (c,insidequote) && !separates (c,insidequote)) := by
      by_cases hcomment : c = '#'
      · subst hcomment
        cases insidequote <;> simp [endsLine, isEndLine, separates, hpos, hc]
      · rw [Bool.or_comm insidequote (!isSpace c)]
        simp [endsLine, isEndLine, separates, hpos, hc, hcomment]
    rw [copyLoop, hcond]
    split
    · rename_i hgo
      rw [Bool.and_eq_true, Bool.not_eq_true', Bool.not_eq_true'] at hgo
      by_cases hquote : c = '"'
      · rw [if_neg (by simpa using hquote)]
        have h := piece_cons hgo.1 hgo.2 (by
          rw [if_pos hquote]
          exact ih (!insidequote) room hnul.2 (by omega))
        simpa [hquote] using h
      · rw [if_pos hquote]
        have h := piece_cons hgo.1 hgo.2 (by
          rw [if_neg hquote]
          exact ih insidequote (room-1) hnul.2 (by omega))
        simpa [hquote] using h
    · rename_i hstop
      apply piece_stop line hc
      rw [Bool.and_eq_true, Bool.not_eq_true', Bool.not_eq_true', not_and_or] at hstop
      simpa using hstop

/-! ## From one word to the next -/

structure SameAhead (line rest : Text) : Prop where
  words : words rest = words line
  reached : reached rest = reached line
  unbroken : Unbroken rest ↔ Unbroken line

theorem getNextWord_ahead (line : Text) : SameAhead line (getNextWord line) := by
  induction line with
  | nil => exact ⟨rfl,rfl,Iff.rfl⟩
  | cons c line ih =>
    by_cases hc : c = ' '
    · subst hc
      have hcut : cut false (' '::line) = (' ',false) :: cut false line := rfl
      have hnext : getNextWord (' '::line) = getNextWord line := rfl
      have hend : lineEnd false (' '::line) = lineEnd false line := rfl
      have htab : ((' ',false) :: cut false line).takeWhile (· ≠ tab) =
          (' ',false) :: (cut false line).takeWhile (· ≠ tab) := rfl
      rw [hnext]
      constructor
      · rw [ih.words, words, words, hcut, Words.split_cons _ (by decide)]
      · rw [ih.reached, reached, reached, hcut, htab, Words.split_cons _ (by decide)]
      · rw [ih.unbroken]
        constructor
        · intro h
          refine ⟨?_,hend ▸ h.no_cr,hend ▸ h.no_lf⟩
          rw [hcut, List.mem_cons, not_or]
          exact ⟨by decide,h.tabless⟩
        · intro h
          have htabless := h.tabless
          rw [hcut, List.mem_cons, not_or] at htabless
          exact ⟨htabless.2,hend ▸ h.no_cr,hend ▸ h.no_lf⟩
    · rw [getNextWord, List.dropWhile_cons_of_neg (by simpa using hc)]
      exact ⟨rfl,rfl,Iff.rfl⟩

def AtWord (line : Text) : Prop :=
  ∃ c, line.head? = some c ∧ isEndLine c = false ∧ isSpace c = false

theorem tab_separates : separates tab = true := by decide

structure Begins (line : Text) (word : List (Char × Bool)) (rest : Text) : Prop where
  nonempty : word ≠ []
  plain : ∀ c ∈ word, separates c = false
  append : word ++ cut false rest = cut false line
  separated : ∀ c, (cut false rest).head? = some c → separates c = true

namespace Begins
variable {line rest : Text} {word : List (Char × Bool)} (h : Begins line word rest)
include h

theorem words_eq : words line = unquoted word :: words rest := by
  rw [words, ← h.append, Words.split_append_word h.nonempty h.plain h.separated]
  rfl

theorem tab_notMem : tab ∉ word := by
  intro htab
  have hplain := h.plain tab htab
  rw [tab_separates] at hplain
  cases hplain

theorem tab_mem_iff : tab ∈ cut false line ↔ tab ∈ cut false rest := by
  rw [← h.append, List.mem_append]
  exact or_iff_right h.tab_notMem

theorem reached_eq : reached line = reached rest + 1 := by
  have htabs : (cut false line).takeWhile (· ≠ tab) =
      word ++ (cut false rest).takeWhile (· ≠ tab) := by
    rw [← h.append, List.takeWhile_append_of_pos]
    intro c hc
    have hne : c ≠ tab := fun heq => h.tab_notMem (heq ▸ hc)
    simpa using hne
  rw [reached, htabs, Words.split_append_word h.nonempty h.plain]
  · rfl
  · intro c hc
    rw [← List.singleton_prefix_iff_head?_eq_some] at hc
    apply h.separated
    rw [← List.singleton_prefix_iff_head?_eq_some]
    exact hc.trans (List.takeWhile_prefix _)

end Begins

theorem begins_of_piece {line text rest : Text} (hnul : nul ∉ line)
    (hpiece : Piece false line text rest) (hword : AtWord line) :
    Begins line ((cut false line).takeWhile (!separates ·)) rest := by
  have hhead := List.head?_dropWhile_not (!separates ·) (cut false line)
  rw [← hpiece.cut_rest] at hhead
  constructor
  · obtain ⟨c, hc, hend, hspace⟩ := hword
    cases line with
    | nil => cases hc
    | cons d line =>
      cases hc
      rw [List.mem_cons, not_or] at hnul
      have hmarked : marked false (c::line) =
          (c,false) :: marked (if c = '"' then !false else false) line := rfl
      have hends : endsLine (c,false) = false := endsLine_outside (Ne.symm hnul.1) ▸ hend
      simp [cut, hmarked, hends, separates, hspace]
  · intro c hc
    simpa using List.mem_takeWhile_imp hc
  · rw [hpiece.cut_rest]
    exact List.takeWhile_append_dropWhile
  · intro c hc
    simpa [hc] using hhead

section Word
variable {line : Text} (hnul : nul ∉ line) (hlen : line.length < defaultBufLen)
include hnul hlen

theorem copyParam_piece : Piece false line (copyParam line).1 (copyParam line).2 :=
  copyLoop_piece false _ line hnul (by unfold defaultBufLen at *; omega)

theorem word_ahead (hword : AtWord line) :
    words line = (copyParam line).1 :: words (copyParam line).2 ∧
      reached line = reached (copyParam line).2 + 1 ∧
      (Unbroken line ↔ Unbroken (copyParam line).2) := by
  have hpiece := copyParam_piece hnul hlen
  have hbegins := begins_of_piece hnul hpiece hword
  refine ⟨?_,hbegins.reached_eq,?_⟩
  · rw [hbegins.words_eq, ← hpiece.word]
  · constructor
    · intro h
      exact ⟨fun htab => h.tabless (hbegins.tab_mem_iff.mpr htab),hpiece.end_rest ▸ h.no_cr,
        hpiece.end_rest ▸ h.no_lf⟩
    · intro h
      exact ⟨fun htab => h.tabless (hbegins.tab_mem_iff.mp htab),hpiece.end_rest ▸ h.no_cr,
        hpiece.end_rest ▸ h.no_lf⟩

end Word

/-! ## Where the words are not found -/

def Stuck (line : Text) : Prop :=
  ∃ c, line.head? = some c ∧ (c = '\t' ∨ c = '\r' ∨ c = '\n')

def Over (line : Text) : Prop := line.head? = none ∨ line.head? = some '#'

theorem skipParams_over (line : Text) (param : ℕ) (h : Over (getNextWord (copyParam line).2)) :
    skipParams (param+1) line = none := if_pos h

theorem skipParams_next (line : Text) (param : ℕ) (h : ¬Over (getNextWord (copyParam line).2)) :
    skipParams (param+1) line = skipParams param (getNextWord (copyParam line).2) := if_neg h

theorem Stuck.not_over {line : Text} (h : Stuck line) : ¬Over line := by
  obtain ⟨c, hc, hstuck⟩ := h
  rw [Over, hc]
  obtain rfl | rfl | rfl := hstuck <;> decide

theorem AtWord.not_over {line : Text} (h : AtWord line) : ¬Over line := by
  obtain ⟨c, hc, hend, -⟩ := h
  rw [Over, hc]
  rintro (h | h)
  · cases h
  · cases h
    exact absurd hend (by decide)

theorem stuck_next {line : Text} (h : Stuck line) :
    (copyParam line).1 = [] ∧ getNextWord (copyParam line).2 = line := by
  obtain ⟨c, hc, hstuck⟩ := h
  cases line with
  | nil => cases hc
  | cons d line =>
    cases hc
    obtain rfl | rfl | rfl := hstuck <;> exact ⟨rfl,rfl⟩

/-- What is read at a tab, a CR or an LF is an empty parameter, however far the
parameter is from here. -/
theorem stuck_skipParams {line : Text} (h : Stuck line) (param : ℕ) :
    skipParams param line = some line := by
  induction param with
  | zero => rfl
  | succ param ih =>
    have hrest := (stuck_next h).2
    rw [skipParams_next _ param (hrest.symm ▸ h.not_over), hrest]
    exact ih

theorem stuck_ahead {line : Text} (h : Stuck line) : reached line = 0 ∧ ¬Unbroken line := by
  obtain ⟨c, hc, hstuck⟩ := h
  cases line with
  | nil => cases hc
  | cons d line =>
    cases hc
    obtain rfl | rfl | rfl := hstuck
    · refine ⟨?_,fun h => h.tabless List.mem_cons_self⟩
      have hcut : (cut false ('\t'::line)).takeWhile (· ≠ tab) = [] := rfl
      rw [reached, hcut, Words.split_nil]
      rfl
    · exact ⟨congrArg List.length Words.split_nil,fun h => h.no_cr rfl⟩
    · exact ⟨congrArg List.length Words.split_nil,fun h => h.no_lf rfl⟩

theorem over_words {line : Text} (h : Over line) : words line = [] ∧ Unbroken line := by
  cases line with
  | nil => exact ⟨congrArg (List.map unquoted) Words.split_nil,⟨by decide,by decide,by decide⟩⟩
  | cons c line =>
    obtain h | h := h
    · cases h
    · cases h
      have hcut : cut false ('#'::line) = [] := rfl
      have hend : lineEnd false ('#'::line) = some '#' := rfl
      refine ⟨congrArg (List.map unquoted) Words.split_nil,⟨?_,?_,?_⟩⟩
      · rw [hcut]
        exact List.not_mem_nil
      · rw [hend]
        decide
      · rw [hend]
        decide

/-- Behind the spaces the line is over, or a word begins, or the scan is stuck. -/
theorem getNextWord_cases (line : Text) :
    Over (getNextWord line) ∨ Stuck (getNextWord line) ∨ AtWord (getNextWord line) := by
  have hspace := List.head?_dropWhile_not (· = ' ') line
  rw [← getNextWord] at hspace
  cases hc : (getNextWord line).head? with
  | none => exact Or.inl (Or.inl hc)
  | some c =>
    rw [hc] at hspace
    by_cases hcomment : c = '#'
    · exact Or.inl (Or.inr (hcomment ▸ hc))
    by_cases hstuck : c = '\t' ∨ c = '\r' ∨ c = '\n'
    · exact Or.inr (Or.inl ⟨c,hc,hstuck⟩)
    · refine Or.inr (Or.inr ⟨c,hc,?_,?_⟩)
      · simp only [isEndLine, decide_eq_false_iff_not]
        tauto
      · have : c ≠ ' ' := by simpa using hspace
        simp only [isSpace, decide_eq_false_iff_not]
        tauto

/-! ## The parameters of a line -/

/-- The parameter read at a word is a word of the line if it is reached, and
beyond only where there is none or it is empty. -/
theorem skipParams_word_iff (param : ℕ) {line : Text} (hnul : nul ∉ line)
    (hlen : line.length < defaultBufLen) (hword : AtWord line) :
    (skipParams param line).map (fun rest => (copyParam rest).1) = (words line)[param]? ↔
      param < reached line ∨ Unbroken line ∨ (words line)[param]? = some [] := by
  induction param generalizing line with
  | zero =>
    obtain ⟨hwords, hreached, -⟩ := word_ahead hnul hlen hword
    simp [skipParams, hwords, hreached]
  | succ param ih =>
    obtain ⟨hwords, hreached, hunbroken⟩ := word_ahead hnul hlen hword
    have hahead := getNextWord_ahead (copyParam line).2
    have hsuffix : getNextWord (copyParam line).2 <:+ line :=
      (List.dropWhile_suffix _).trans (copyLoop_suffix _ _ _)
    have hover := skipParams_over line param
    have hnext := skipParams_next line param
    rw [hwords, hreached, hunbroken, List.getElem?_cons_succ, ← hahead.words, ← hahead.reached,
      ← hahead.unbroken]
    have hcases := getNextWord_cases (copyParam line).2
    generalize getNextWord (copyParam line).2 = rest at hsuffix hcases hover hnext ⊢
    obtain hrest | hrest | hrest := hcases
    · obtain ⟨hnone, hwhole⟩ := over_words hrest
      rw [hover hrest, hnone]
      simp [hwhole]
    · obtain ⟨hzero, hbroken⟩ := stuck_ahead hrest
      rw [hnext hrest.not_over, stuck_skipParams hrest, hzero, Option.map_some,
        (stuck_next hrest).1]
      simp [hbroken, eq_comm]
    · rw [hnext hrest.not_over,
        ih (fun hmem => hnul (hsuffix.subset hmem)) (hsuffix.length_le.trans_lt hlen) hrest,
        Nat.succ_lt_succ_iff]

theorem getParam_of_ahead (line : Text) (param : ℕ) : getParam line param =
    (skipParams param (getNextWord line)).map fun rest => (copyParam rest).1 := rfl

theorem getParam_word_iff {line : Text} {param : ℕ} (hparam : 1 ≤ param) (hnul : nul ∉ line)
    (hlen : line.length < defaultBufLen) :
    getParam line param = (words line)[param]? ↔
      param < reached line ∨ Unbroken line ∨ (words line)[param]? = some [] := by
  have hahead := getNextWord_ahead line
  have hsuffix : getNextWord line <:+ line := List.dropWhile_suffix _
  rw [getParam_of_ahead, ← hahead.words, ← hahead.reached, ← hahead.unbroken]
  have hcases := getNextWord_cases line
  generalize getNextWord line = rest at hsuffix hcases ⊢
  obtain hrest | hrest | hrest := hcases
  · obtain ⟨n, rfl⟩ := Nat.exists_eq_add_of_le' hparam
    obtain ⟨hnone, hwhole⟩ := over_words hrest
    have hover : Over (getNextWord (copyParam rest).2) := by
      cases rest with
      | nil => exact Or.inl rfl
      | cons c rest =>
        obtain h | h := hrest
        · cases h
        · cases h
          exact Or.inr rfl
    rw [skipParams_over _ n hover, hnone]
    simp [hwhole]
  · obtain ⟨hzero, hbroken⟩ := stuck_ahead hrest
    rw [stuck_skipParams hrest, hzero, Option.map_some, (stuck_next hrest).1]
    simp [hbroken, eq_comm]
  · exact skipParams_word_iff param (fun hmem => hnul (hsuffix.subset hmem))
      (hsuffix.length_le.trans_lt hlen) hrest

/-! ## A line in memory -/

theorem marked_cString (insidequote : Bool) (line : Text) :
    marked insidequote (cString line) = (marked insidequote line).takeWhile fun c => c.1 ≠ nul := by
  induction line generalizing insidequote with
  | nil => rfl
  | cons c line ih =>
    by_cases hc : c = nul
    · simp [cString, marked, hc]
    · have hcons : cString (c::line) = c :: cString line := by simp [cString, hc]
      rw [hcons, marked, marked, ih, List.takeWhile_cons_of_pos (by simpa using hc)]

theorem cut_cString (insidequote : Bool) (line : Text) :
    cut insidequote (cString line) = cut insidequote line := by
  rw [cut, marked_cString, List.takeWhile_takeWhile, cut]
  congr 1
  funext c
  by_cases hc : c.1 = nul
  · simp [endsLine, hc]
  · simp [hc]

theorem lineEnd_cString {insidequote : Bool} {line : Text} {c : Char} (hc : c ≠ nul) :
    lineEnd insidequote (cString line) = some c ↔ lineEnd insidequote line = some c := by
  induction line generalizing insidequote with
  | nil => rfl
  | cons d line ih =>
    by_cases hd : d = nul
    · simp [cString, lineEnd, marked, endsLine, hd, Ne.symm hc]
    · have hcons : cString (d::line) = d :: cString line := by simp [cString, hd]
      rw [hcons]
      cases hend : endsLine (d,insidequote) with
      | true => simp [lineEnd, marked, hend]
      | false =>
        have hgo : ∀ rest : Text, lineEnd insidequote (d::rest) =
            lineEnd (if d = '"' then !insidequote else insidequote) rest := by
          intro rest
          rw [lineEnd, marked, List.dropWhile_cons_of_pos (by simp [hend]), lineEnd]
        rw [hgo, hgo, ih]

theorem words_cString (line : Text) : words (cString line) = words line := by
  rw [words, cut_cString, words]

theorem reached_cString (line : Text) : reached (cString line) = reached line := by
  rw [reached, cut_cString, reached]

theorem unbroken_cString (line : Text) : Unbroken (cString line) ↔ Unbroken line := by
  have hcr : lineEnd false (cString line) = some '\r' ↔ lineEnd false line = some '\r' :=
    lineEnd_cString (by decide)
  have hlf : lineEnd false (cString line) = some '\n' ↔ lineEnd false line = some '\n' :=
    lineEnd_cString (by decide)
  constructor
  · intro h
    exact ⟨cut_cString false line ▸ h.tabless,fun he => h.no_cr (hcr.mpr he),
      fun he => h.no_lf (hlf.mpr he)⟩
  · intro h
    exact ⟨(cut_cString false line).symm ▸ h.tabless,fun he => h.no_cr (hcr.mp he),
      fun he => h.no_lf (hlf.mp he)⟩

theorem takesWord_eq (line : Text) (param : ℕ) :
    TakesWord line param ↔ getParam (cString line) param = (words line)[param]? := by
  have hsome : (words line)[param]?.isSome ↔ param + 1 ≤ (words line).length := by
    rw [Option.isSome_iff_ne_none, ne_eq, List.getElem?_eq_none_iff]
    omega
  constructor
  · intro ⟨hiff, htext⟩
    cases h : getParam (cString line) param with
    | some text => exact (htext text h).symm
    | none =>
      rw [h, ← hsome] at hiff
      have hnot : ¬(words line)[param]?.isSome = true := fun hs => absurd (hiff.mpr hs) (by simp)
      exact (Option.not_isSome_iff_eq_none.mp hnot).symm
  · intro h
    rw [TakesWord, h]
    exact ⟨hsome,fun _ => id⟩

/-- `get_param` finds the words of a line before a tab; from there on it finds
empty parameters, and at a CR or LF too. -/
theorem takesWord_iff (line : Text) (param : ℕ) (hparam : 1 ≤ param)
    (hlen : (cString line).length < defaultBufLen) :
    TakesWord line param ↔
      param < reached line ∨ Unbroken line ∨ (words line)[param]? = some [] := by
  rw [takesWord_eq, ← words_cString line,
    getParam_word_iff hparam (nul_notMem_cString line) hlen, reached_cString, unbroken_cString]

theorem takesWord_iff_motsrc : TakesWord "fe_motsrc 0  \"1 # 2\" # motor".toList 2 ↔
    2 < reached "fe_motsrc 0  \"1 # 2\" # motor".toList ∨
      Unbroken "fe_motsrc 0  \"1 # 2\" # motor".toList ∨
      (words "fe_motsrc 0  \"1 # 2\" # motor".toList)[2]? = some [] :=
  takesWord_iff _ 2 (by decide) (by decide)

/-- A tab is a word of its own, and so is the end of a line. -/
theorem tab_not_skipped :
    ¬TakesWord "headstep\t3".toList 1 ∧ ¬TakesWord "stop\r\n".toList 1 := by
  have hcut : cut false "headstep\t3".toList = "headstep".toList.map (·,false) ++
      tab :: [('3',false)] := by decide
  have hwords : words "headstep\t3".toList = ["headstep".toList,['3']] := by
    rw [words, hcut, Words.split_append _ _ tab_separates,
      Words.split_word (by decide) (Words.plain_of_all (by decide)),
      Words.split_word (by decide) (Words.plain_of_all (by decide))]
    rfl
  have hstop : words "stop\r\n".toList = ["stop".toList] := by
    have hcut : cut false "stop\r\n".toList = "stop".toList.map (·,false) := by decide
    rw [words, hcut, Words.split_word (by decide) (Words.plain_of_all (by decide))]
    rfl
  rw [takesWord_eq, takesWord_eq, hwords, hstop]
  decide

end Pauline.WordGrammar
