import Mathlib.Tactic

/-!
# The parameters of a command line

`get_param` reads a word of the line, or a text between quotes, of at most
`DEFAULT_BUFLEN - 1` characters.
-/

set_option autoImplicit false

namespace Pauline.CommandLine

abbrev Text := List Char

def defaultBufLen : ℕ := 512

def isEndLine (c : Char) : Bool := c = '#' ∨ c = '\r' ∨ c = '\n'

def isSpace (c : Char) : Bool := c = ' ' ∨ c = '\t'

def getNextWord (line : Text) : Text := line.dropWhile (· = ' ')

/-- The loop of `copy_param`, with `room` characters left in the parameter: the
parameter, and what is left of the line. -/
def copyLoop (insidequote : Bool) (room : ℕ) : Text → Text × Text
  | [] => ([],[])
  | c :: line =>
    if (!isEndLine c || (insidequote && c = '#')) && (insidequote || !isSpace c)
        && 0 < room then
      if c ≠ '"' then
        let next := copyLoop insidequote (room-1) line
        (c :: next.1,next.2)
      else copyLoop (!insidequote) room line
    else ([],c :: line)

def copyParam (line : Text) : Text × Text := copyLoop false (defaultBufLen-1) line

def skipParams : ℕ → Text → Option Text
  | 0, line => some line
  | param+1, line =>
    let rest := getNextWord (copyParam line).2
    if rest.head? = none ∨ rest.head? = some '#' then none
    else skipParams param rest

def getParamOffset (line : Text) (param : ℕ) : Option Text :=
  skipParams param (getNextWord line)

def getParam (line : Text) (param : ℕ) : Option Text :=
  (getParamOffset line param).map fun rest => (copyParam rest).1

def digits (text : Text) : ℕ :=
  (text.takeWhile Char.isDigit).foldl (fun n c => 10*n + (c.toNat - 48)) 0

def atoi (text : Text) : ℤ :=
  match text.dropWhile (· ∈ " \t\n\x0b\x0c\r".toList) with
  | '-' :: rest => -digits rest
  | '+' :: rest => digits rest
  | rest => digits rest

def intOf (text : Text) : ℤ := max (-2^31) (min (atoi text) (2^31-1))

def decimalText (precision : ℕ) (n : ℤ) : Text :=
  (if n < 0 then ['-'] else []) ++ (Nat.toDigits 10 n.natAbs).leftpad precision '0'

theorem decimalText_one (n : ℤ) :
    decimalText 1 n = (if n < 0 then ['-'] else []) ++ Nat.toDigits 10 n.natAbs := by
  have hpos : 1 ≤ (Nat.toDigits 10 n.natAbs).length := Nat.length_toDigits_pos
  rw [decimalText, List.leftpad, Nat.sub_eq_zero_of_le hpos]
  rfl

theorem copyLoop_length (insidequote : Bool) (room : ℕ) (line : Text) :
    (copyLoop insidequote room line).1.length ≤ room := by
  induction line generalizing insidequote room with
  | nil => exact Nat.zero_le room
  | cons c line ih =>
    rw [copyLoop]
    split
    · rename_i h
      have hroom : 0 < room := by
        simp only [Bool.and_eq_true, decide_eq_true_eq] at h
        exact h.2
      split
      · have := ih insidequote (room-1)
        simp only [List.length_cons]
        omega
      · exact ih (!insidequote) room
    · exact Nat.zero_le room

theorem copyLoop_suffix (insidequote : Bool) (room : ℕ) (line : Text) :
    (copyLoop insidequote room line).2 <:+ line := by
  induction line generalizing insidequote room with
  | nil => exact List.suffix_refl _
  | cons c line ih =>
    rw [copyLoop]
    split
    · split
      · exact (ih insidequote (room-1)).trans (List.suffix_cons c line)
      · exact (ih (!insidequote) room).trans (List.suffix_cons c line)
    · exact List.suffix_refl _

/-- The parameter and its final 0 fit the buffers of the callers. -/
theorem getParam_length (line : Text) (param : ℕ) (text : Text)
    (h : getParam line param = some text) : text.length < defaultBufLen := by
  obtain ⟨rest, -, rfl⟩ := Option.map_eq_some_iff.mp h
  have := copyLoop_length false (defaultBufLen-1) rest
  unfold copyParam defaultBufLen at *
  omega

theorem copyLoop_inside (text rest : Text) (room : ℕ) (hroom : text.length < room)
    (hquote : '"' ∉ text) (hline : '\r' ∉ text ∧ '\n' ∉ text) :
    copyLoop true room (text ++ '"' :: rest) =
      (text ++ (copyLoop false (room - text.length) rest).1,
        (copyLoop false (room - text.length) rest).2) := by
  induction text generalizing room with
  | nil =>
    have : 0 < room := hroom
    simp [copyLoop, isEndLine, this]
  | cons c text ih =>
    simp only [List.mem_cons, not_or, List.length_cons] at hroom hquote hline
    have hc : (!isEndLine c || c = '#') = true := by
      simp only [isEndLine, Bool.or_eq_true, Bool.not_eq_true', decide_eq_false_iff_not,
        decide_eq_true_eq]
      tauto
    have hpos : 0 < room := by omega
    have hne : c ≠ '"' := fun h => hquote.1 h.symm
    rw [List.cons_append, copyLoop]
    simp only [Bool.true_and, hc, Bool.true_or, hpos, decide_true, Bool.and_self, if_true, hne,
      ne_eq, not_false_eq_true]
    rw [ih (room-1) (by omega) hquote.2 ⟨hline.1.2,hline.2.2⟩]
    rw [show room - 1 - text.length = room - (text.length+1) by omega, List.length_cons]
    rfl

/-! ## The parameters of a line of words -/

def EndsWord (rest : Text) : Prop := rest = [] ∨ rest.head? = some ' '

structure Reads (word value : Text) : Prop where
  read : ∀ rest, EndsWord rest → copyParam (word ++ rest) = (value,rest)
  head : ∃ c, word.head? = some c ∧ c ≠ ' ' ∧ c ≠ '#'

def joined (words : List Text) : Text := words.flatMap fun word => ' ' :: word

theorem endsWord_joined (words : List Text) : EndsWord (joined words) := by
  cases words with
  | nil => exact Or.inl rfl
  | cons word words => exact Or.inr rfl

theorem copyLoop_ends (room : ℕ) {rest : Text} (h : EndsWord rest) :
    copyLoop false room rest = ([],rest) := by
  cases rest with
  | nil => rfl
  | cons c rest =>
    obtain h | h := h
    · cases h
    · rw [List.head?_cons, Option.some.injEq] at h
      subst h
      simp [copyLoop, isSpace]

theorem reads_plain {word : Text} (hne : word ≠ []) (hlen : word.length < defaultBufLen)
    (hword : ∀ c ∈ word, isEndLine c = false ∧ isSpace c = false ∧ c ≠ '"') :
    Reads word word where
  read rest hrest := by
    have hloop : ∀ room, word.length ≤ room → copyLoop false room (word ++ rest) = (word,rest) := by
      clear hne hlen
      induction word with
      | nil => exact fun room _ => copyLoop_ends room hrest
      | cons c word ih =>
        intro room hroom
        rw [List.length_cons] at hroom
        obtain ⟨hend, hspace, hquote⟩ := hword c List.mem_cons_self
        have hpos : 0 < room := by omega
        have hnext := ih (fun d hd => hword d (List.mem_cons_of_mem _ hd)) (room-1) (by omega)
        rw [List.cons_append, copyLoop]
        simp only [hend, hspace, hpos, decide_true, Bool.not_false, Bool.true_or, Bool.or_true,
          Bool.and_self, if_true, ne_eq, hquote, not_false_eq_true, hnext]
    exact hloop _ (by unfold defaultBufLen at *; omega)
  head := by
    obtain ⟨c, word, rfl⟩ := List.exists_cons_of_ne_nil hne
    obtain ⟨hend, hspace, -⟩ := hword c List.mem_cons_self
    refine ⟨c,rfl,?_,?_⟩
    · rintro rfl
      exact absurd hspace (by decide)
    · rintro rfl
      exact absurd hend (by decide)

/-- A text between quotes is read as it is, its spaces and its `#` included. -/
theorem reads_quoted {text : Text} (hlen : text.length < defaultBufLen - 1) (hquote : '"' ∉ text)
    (hline : '\r' ∉ text ∧ '\n' ∉ text) : Reads ('"' :: text ++ ['"']) text where
  read rest hrest := by
    have hopen : copyParam ('"' :: (text ++ '"' :: rest)) =
        copyLoop true (defaultBufLen-1) (text ++ '"' :: rest) := rfl
    rw [List.append_assoc, List.singleton_append, List.cons_append, hopen,
      copyLoop_inside text rest _ hlen hquote hline, copyLoop_ends _ hrest, List.append_nil]
  head := ⟨'"',rfl,by decide,by decide⟩

theorem getNextWord_word {word : Text} (h : ∃ c, word.head? = some c ∧ c ≠ ' ' ∧ c ≠ '#')
    (rest : Text) : getNextWord (word ++ rest) = word ++ rest := by
  obtain ⟨c, hc, hspace, -⟩ := h
  cases word with
  | nil => cases hc
  | cons d word =>
    rw [List.head?_cons, Option.some.injEq] at hc
    subst hc
    rw [getNextWord, List.cons_append, List.dropWhile_cons_of_neg (by simpa using hspace)]

theorem getParam_joined {command value : Text} (hcommand : Reads command value)
    (words : List (Text × Text)) (hwords : ∀ w ∈ words, Reads w.1 w.2) (k : ℕ) :
    getParam (command ++ joined (words.map Prod.fst)) (k+1) = words[k]?.map Prod.snd := by
  have hskip : ∀ {command value : Text} (hcommand : Reads command value),
      (skipParams (k+1) (command ++ joined (words.map Prod.fst))).map (fun rest => (copyParam rest).1) =
        words[k]?.map Prod.snd := by
    clear hcommand
    induction words generalizing k with
    | nil =>
      intro command value hcommand
      rw [List.map_nil, skipParams, hcommand.read _ (endsWord_joined [])]
      rfl
    | cons w words ih =>
      intro command value hcommand
      have hw := hwords w List.mem_cons_self
      have hnext : getNextWord (joined ((w::words).map Prod.fst)) =
          w.1 ++ joined (words.map Prod.fst) := by
        have hspace : joined ((w::words).map Prod.fst) = ' '::(w.1 ++ joined (words.map Prod.fst)) :=
          rfl
        rw [hspace, getNextWord, List.dropWhile_cons_of_pos (by simp)]
        exact getNextWord_word hw.head _
      obtain ⟨c, hc, -, hcomment⟩ := hw.head
      have hhead : (w.1 ++ joined (words.map Prod.fst)).head? = some c := by
        rw [List.head?_append, hc]
        rfl
      rw [skipParams, hcommand.read _ (endsWord_joined _)]
      dsimp only
      rw [hnext, hhead, if_neg (by simpa using hcomment)]
      cases k with
      | zero =>
        rw [skipParams, Option.map_some, hw.read _ (endsWord_joined _)]
        rfl
      | succ k =>
        exact ih (fun v hv => hwords v (List.mem_cons_of_mem _ hv)) k hw
  rw [getParam, getParamOffset, getNextWord_word hcommand.head]
  exact hskip hcommand

end Pauline.CommandLine
