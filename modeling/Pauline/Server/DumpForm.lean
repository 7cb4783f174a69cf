import Pauline.Control.PrepareFolder
import Pauline.Server.ScriptThread

/-!
# The dump form

The web page makes a message of three lines of its dump form. The script thread
takes it from the command queue and executes the lines, and the last one starts
a dump.
-/

set_option autoImplicit false

namespace Pauline.DumpForm
open Pauline.CommandLine Pauline.Messages Pauline.PrepareFolder

/-! ## The page -/

structure Form where
  indexToDumpDelay : Text
  trackDumpLenght : Text
  drive : Text
  dumpMinTrack : Text
  dumpMaxTrack : Text
  side0 : Bool
  side1 : Bool
  is50Mhz : Bool
  doubleStep : Bool
  ignoreIndex : Bool
  dumpName : Text
  dumpComment : Text
  autoIndex : Bool
  dumpStartIndex : Text
  driveInfos : Text
  dumpOperator : Text
  dumpComment2 : Text

def quoted (text : Text) : Text := '"' :: text ++ ['"']

def checked (box : Bool) : Text := if box then ['1'] else ['0']

namespace Form
variable (f : Form)

def mode : Text := if f.autoIndex then "AUTO_INDEX_NAME".toList else "MANUAL_INDEX_NAME".toList

def startindex : Text := if f.autoIndex then ['1'] else f.dumpStartIndex

def words : List Text :=
  [f.drive,f.dumpMinTrack,f.dumpMaxTrack,checked !f.side0,checked f.side1,checked f.is50Mhz,
    checked f.doubleStep,checked f.ignoreIndex,['0'],quoted f.dumpName,quoted f.dumpComment,
    f.startindex,f.mode,quoted f.driveInfos,quoted f.dumpOperator,quoted f.dumpComment2]

def indexLine : Text := "index_to_dump".toList ++ joined [f.indexToDumpDelay]

def timeLine : Text := "dump_time".toList ++ joined [f.trackDumpLenght]

def dumpLine : Text := "dump".toList ++ joined f.words

def message : Text :=
  f.indexLine ++ '\n' :: (f.timeLine ++ '\n' :: (f.dumpLine ++ '\n' :: []))

end Form

/-! ## The commands -/

structure Console where
  index_to_dump_delay : ℤ
  dump_time_per_track : ℤ
  dump_running : Bool
  dumps : List Dump
deriving DecidableEq

def cmdSetIndexToDumpTime (line : Text) (c : Console) : Console :=
  match getParam line 1 with
  | some text => { c with index_to_dump_delay := intOf text }
  | none => c

def trackTime (time : ℤ) : ℤ :=
  let time := if time = 0 then 800 else time
  if time > 60000 then 60000 else time

def cmdSetDumpTimePerTrack (line : Text) (c : Console) : Console :=
  match getParam line 1 with
  | some text => { c with dump_time_per_track := trackTime (intOf text) }
  | none => c

def cmdDump (stack : ℕ → ℤ) (line : Text) (c : Console) : Console :=
  if (List.range 9).all fun k => (getParam line (k+1)).isSome then
    if !c.dump_running then { c with dumps := c.dumps ++ [diskdumpThread stack line] } else c
  else c

def extractCmd (line : Text) : Text :=
  ((getNextWord line).takeWhile fun c => !isEndLine c && !isSpace c).take (defaultBufLen - 1)

def executeLine (stack : ℕ → ℤ) (c : Console) (line : Text) : Console :=
  let command := extractCmd line
  if command = "dump_time".toList then cmdSetDumpTimePerTrack line c
  else if command = "index_to_dump".toList then cmdSetIndexToDumpTime line c
  else if command = "dump".toList then cmdDump stack line c
  else c

def execute (stack : ℕ → ℤ) (recvbuf : List Char) (s : ScriptThread.Script) (c : Console) :
    Console :=
  (ScriptThread.loop (recvbuf,{ s with executed := [] })).2.executed.foldl (executeLine stack) c

/-! ## What is asked -/

def IsDecimal (text : Text) : Prop :=
  ∃ number : Text, number ≠ [] ∧ (∀ c ∈ number, c.isDigit = true) ∧
    (text = number ∨ text = '-' :: number)

theorem isDecimal_of_digits {text : Text} (hne : text ≠ [])
    (hdigits : text.all Char.isDigit = true) : IsDecimal text :=
  ⟨text,hne,List.all_eq_true.mp hdigits,Or.inl rfl⟩

def decimal : Text → ℤ
  | '-' :: number => -(number.foldl (fun n c => 10*n + (c.toNat - 48)) 0 : ℕ)
  | number => (number.foldl (fun n c => 10*n + (c.toNat - 48)) 0 : ℕ)

def Form.numbers (f : Form) : List Text :=
  [f.indexToDumpDelay,f.trackDumpLenght,f.drive,f.dumpMinTrack,f.dumpMaxTrack,f.dumpStartIndex]

def Form.texts (f : Form) : List Text :=
  [f.dumpName,f.dumpComment,f.driveInfos,f.dumpOperator,f.dumpComment2]

structure Form.Valid (f : Form) : Prop where
  numbers : ∀ text ∈ f.numbers, IsDecimal text
  texts : ∀ text ∈ f.texts, '"' ∉ text ∧ '\r' ∉ text ∧ '\n' ∉ text

structure Form.Fits (f : Form) : Prop where
  numbers : ∀ text ∈ f.numbers, -2^31 ≤ decimal text ∧ decimal text < 2^31
  texts : ∀ text ∈ f.texts, nul ∉ text

def Form.dump (f : Form) (number : Text → ℤ) : Dump where
  drive := number f.drive
  dump_start_track := number f.dumpMinTrack
  dump_max_track := number f.dumpMaxTrack
  dump_start_side := if f.side0 then 0 else 1
  dump_max_side := if f.side1 then 1 else 0
  high_res_mode := if f.is50Mhz then 1 else 0
  doublestep := if f.doubleStep then 1 else 0
  ignore_index := if f.ignoreIndex then 1 else 0
  spy := 0
  name := if f.dumpName = [] then "untitled".toList else f.dumpName
  comment := f.dumpComment
  comment2 := f.dumpComment2
  start_index := if f.autoIndex then 1 else number f.dumpStartIndex
  incmode := if f.autoIndex then .auto else .manual
  driveref := f.driveInfos
  operator := f.dumpOperator

def RoundTrip (f : Form) : Prop :=
  ∀ (b b' : MsgBuffer) (outbuf : List Char) (s : ScriptThread.Script) (stack : ℕ → ℤ) (c : Console),
    b'.messages b'.out_index =
        (b.putMsg f.message).messages (b.in_index &&& (maxNbMessages - 1)) →
      outbuf.length = maxMessagesSize → s.fullline = [] → c.dump_running = false →
        execute stack (b'.copyMsg outbuf) s c =
          { c with
            index_to_dump_delay := decimal f.indexToDumpDelay
            dump_time_per_track := trackTime (decimal f.trackDumpLenght)
            dumps := c.dumps ++ [f.dump decimal] }

/-! ## The words of the lines -/

def Plain (word : Text) : Prop :=
  word ≠ [] ∧ ∀ c ∈ word, isEndLine c = false ∧ isSpace c = false ∧ c ≠ '"' ∧ c ≠ nul

instance decidablePlain (word : Text) : Decidable (Plain word) :=
  decidable_of_iff (word ≠ [] ∧ word.all
    (fun c => decide (isEndLine c = false ∧ isSpace c = false ∧ c ≠ '"' ∧ c ≠ nul)) = true)
    (by simp only [Plain, List.all_eq_true, decide_eq_true_eq])

theorem reads_of_plain {word : Text} (h : Plain word) (hlen : word.length < defaultBufLen) :
    Reads word word :=
  reads_plain h.1 hlen fun c hc => ⟨(h.2 c hc).1,(h.2 c hc).2.1,(h.2 c hc).2.2.1⟩

theorem isDigit_plain {c : Char} (h : c.isDigit = true) :
    isEndLine c = false ∧ isSpace c = false ∧ c ≠ '"' ∧ c ≠ nul := by
  have hne : ∀ d : Char, d.isDigit = false → c ≠ d := by
    rintro d hd rfl
    exact absurd (hd.symm.trans h) (by decide)
  refine ⟨?_,?_,hne _ (by decide),hne _ (by decide)⟩
  · simp only [isEndLine, hne '#' (by decide), hne '\r' (by decide), hne '\n' (by decide), or_self,
      decide_false]
  · simp only [isSpace, hne ' ' (by decide), hne '\t' (by decide), or_self, decide_false]

theorem decimal_plain {text : Text} (h : IsDecimal text) : Plain text := by
  obtain ⟨number, hne, hdigits, rfl | rfl⟩ := h
  · exact ⟨hne,fun c hc => isDigit_plain (hdigits c hc)⟩
  · refine ⟨List.cons_ne_nil _ _,fun c hc => ?_⟩
    obtain rfl | hc := List.mem_cons.mp hc
    · decide
    · exact isDigit_plain (hdigits c hc)

theorem checked_plain (box : Bool) : Plain (checked box) := by
  cases box <;> decide

theorem mode_plain (f : Form) : Plain f.mode := by
  unfold Form.mode
  split <;> decide

theorem atoi_decimal {text : Text} (h : IsDecimal text) : atoi text = decimal text := by
  obtain ⟨number, hne, hdigits, htext⟩ := h
  have htake : number.takeWhile Char.isDigit = number := List.takeWhile_eq_self_iff.mpr hdigits
  obtain ⟨c, rest, rfl⟩ := List.exists_cons_of_ne_nil hne
  have hfirst := hdigits c List.mem_cons_self
  have hne : ∀ d : Char, d.isDigit = false → c ≠ d := by
    rintro d hd rfl
    exact absurd (hd.symm.trans hfirst) (by decide)
  obtain rfl | rfl := htext
  · have hspace : c ∉ " \t\n\x0b\x0c\r".toList := by
      intro hc
      have hall : (" \t\n\x0b\x0c\r".toList).all (fun d => !d.isDigit) = true := by decide
      have := List.all_eq_true.mp hall c hc
      simp [hfirst] at this
    have hdecimal : decimal (c::rest) = digits (c::rest) := by
      rw [digits, htake]
      unfold decimal
      split
      next number he => exact absurd (List.cons.inj he).1 (hne '-' (by decide))
      next => rfl
    rw [atoi, List.dropWhile_cons_of_neg (by simpa using hspace), hdecimal]
    split
    next number he => exact absurd (List.cons.inj he).1 (hne '-' (by decide))
    next number he => exact absurd (List.cons.inj he).1 (hne '+' (by decide))
    next => rfl
  · have hminus : decimal ('-'::c::rest) = -digits (c::rest) := by
      rw [digits, htake]
      rfl
    rw [atoi, List.dropWhile_cons_of_neg (by decide), hminus]
    rfl

section Form
variable {f : Form} (hvalid : f.Valid) (hlen : f.message.length < maxMessagesSize - 1)

def Form.values (f : Form) : List Text :=
  [f.drive,f.dumpMinTrack,f.dumpMaxTrack,checked !f.side0,checked f.side1,checked f.is50Mhz,
    checked f.doubleStep,checked f.ignoreIndex,['0'],f.dumpName,f.dumpComment,f.startindex,f.mode,
    f.driveInfos,f.dumpOperator,f.dumpComment2]

theorem word_length_le {words : List Text} {word : Text} (h : word ∈ words) :
    word.length < (joined words).length := by
  induction words with
  | nil => exact absurd h List.not_mem_nil
  | cons first words ih =>
    have hjoined : (joined (first::words)).length = first.length + 1 + (joined words).length := by
      simp only [joined, List.flatMap_cons, List.length_append, List.length_cons]
    rw [hjoined]
    obtain rfl | h := List.mem_cons.mp h
    · omega
    · have := ih h
      omega

theorem message_length (f : Form) : f.message.length =
    f.indexLine.length + f.timeLine.length + f.dumpLine.length + 3 := by
  simp only [Form.message, List.length_append, List.length_cons, List.length_nil]
  omega

include hvalid in
theorem startindex_decimal : IsDecimal f.startindex := by
  unfold Form.startindex
  split
  · exact isDecimal_of_digits (List.cons_ne_nil _ _) (by decide)
  · exact hvalid.numbers _ (by simp [Form.numbers])

include hvalid hlen in
theorem dumpLine_reads : ∀ w ∈ f.words.zip f.values, Reads w.1 w.2 := by
  have hshort : ∀ word ∈ f.words, word.length < defaultBufLen := by
    intro word hword
    have := word_length_le hword
    have hlength := message_length f
    have hline : f.dumpLine.length = 4 + (joined f.words).length := by
      rw [Form.dumpLine, List.length_append]
      rfl
    unfold maxMessagesSize defaultBufLen at *
    omega
  have hplain : ∀ word ∈ f.words, Plain word → Reads word word :=
    fun word hword h => reads_of_plain h (hshort word hword)
  have hquoted : ∀ text ∈ f.texts, quoted text ∈ f.words → Reads (quoted text) text := by
    intro text htext hword
    have hlength := hshort _ hword
    obtain ⟨hquote, hline⟩ := hvalid.texts text htext
    apply reads_quoted _ hquote hline
    simp only [quoted, List.cons_append, List.length_cons, List.length_append,
      List.length_nil] at hlength
    unfold defaultBufLen at *
    omega
  have hnumber : ∀ text ∈ f.numbers, text ∈ f.words → Reads text text :=
    fun text htext hword => hplain text hword (decimal_plain (hvalid.numbers text htext))
  have hchecked : ∀ box, checked box ∈ f.words → Reads (checked box) (checked box) :=
    fun box hword => hplain _ hword (checked_plain box)
  rw [Form.words, Form.values]
  simp only [List.zip_cons_cons, List.zip_nil_left, List.forall_mem_cons]
  refine ⟨?_,?_,?_,?_,?_,?_,?_,?_,?_,?_,?_,?_,?_,?_,?_,?_,?_⟩
  · exact hnumber _ (by simp [Form.numbers]) (by simp [Form.words])
  · exact hnumber _ (by simp [Form.numbers]) (by simp [Form.words])
  · exact hnumber _ (by simp [Form.numbers]) (by simp [Form.words])
  · exact hchecked _ (by simp [Form.words])
  · exact hchecked _ (by simp [Form.words])
  · exact hchecked _ (by simp [Form.words])
  · exact hchecked _ (by simp [Form.words])
  · exact hchecked _ (by simp [Form.words])
  · exact hplain _ (by simp [Form.words]) (checked_plain false)
  · exact hquoted _ (by simp [Form.texts]) (by simp [Form.words])
  · exact hquoted _ (by simp [Form.texts]) (by simp [Form.words])
  · exact hplain _ (by simp [Form.words]) (decimal_plain (startindex_decimal hvalid))
  · exact hplain _ (by simp [Form.words]) (mode_plain f)
  · exact hquoted _ (by simp [Form.texts]) (by simp [Form.words])
  · exact hquoted _ (by simp [Form.texts]) (by simp [Form.words])
  · exact hquoted _ (by simp [Form.texts]) (by simp [Form.words])
  · exact fun w hw => absurd hw List.not_mem_nil

include hvalid hlen in
/-- Each parameter of the dump line is the value of the form. -/
theorem dumpLine_param (k : ℕ) : getParam f.dumpLine (k+1) = f.values[k]? := by
  have hcommand : Reads "dump".toList "dump".toList :=
    reads_of_plain (by decide) (by decide)
  have hwords := getParam_joined hcommand _ (dumpLine_reads hvalid hlen) k
  rw [List.map_fst_zip (by simp [Form.words, Form.values])] at hwords
  rw [Form.dumpLine, hwords, ← List.getElem?_map, List.map_snd_zip (by simp [Form.words, Form.values])]

theorem intOf_checked (box : Bool) : intOf (checked box) = if box then 1 else 0 := by
  cases box <;> decide

include hvalid hlen in
theorem dumpLine_dump (stack : ℕ → ℤ) : diskdumpThread stack f.dumpLine = f.dump intOf := by
  have hparam := dumpLine_param hvalid hlen
  have hname : nameParam f.dumpLine = if f.dumpName = [] then "untitled".toList else f.dumpName := by
    rw [nameParam, show getParam f.dumpLine 10 = some f.dumpName from hparam 9]
    cases f.dumpName with
    | nil => rfl
    | cons c name => rfl
  have hmode : indexMode f.dumpLine = if f.autoIndex then .auto else .manual := by
    rw [indexMode, show getParam f.dumpLine 13 = some f.mode from hparam 12, Form.mode]
    by_cases hauto : f.autoIndex = true
    · simp only [hauto, if_true]
      decide
    · simp only [hauto]
      decide
  have hstart : intOf f.startindex = if f.autoIndex then 1 else intOf f.dumpStartIndex := by
    unfold Form.startindex
    split
    · decide
    · rfl
  have hside : intOf (checked !f.side0) = if f.side0 then 0 else 1 := by
    cases f.side0 <;> decide
  have hcomment : commentParam f.dumpLine = f.dumpComment := by
    rw [commentParam, show getParam f.dumpLine 11 = some f.dumpComment from hparam 10]
    rfl
  rw [diskdumpThread, hname, hmode, hcomment,
    show getParam f.dumpLine 14 = some f.driveInfos from hparam 13,
    show getParam f.dumpLine 15 = some f.dumpOperator from hparam 14,
    show getParam f.dumpLine 16 = some f.dumpComment2 from hparam 15]
  simp only [hparam, Form.values, List.getElem?_cons_succ, List.getElem?_cons_zero, Option.map_some,
    Option.getD_some, hside, hstart, intOf_checked, Form.dump, Dump.mk.injEq, and_true, true_and]
  decide

theorem extractCmd_joined {command : Text} (hcommand : Plain command)
    (hlen : command.length < defaultBufLen) (words : List Text) :
    extractCmd (command ++ joined words) = command := by
  have htake : (command ++ joined words).takeWhile (fun c => !isEndLine c && !isSpace c) =
      command := by
    rw [List.takeWhile_append_of_pos fun c hc => by
      simp only [hcommand.2 c hc, Bool.not_false, Bool.and_self]]
    cases words with
    | nil => exact List.append_nil _
    | cons word words =>
      rw [show joined (word::words) = ' '::(word ++ joined words) from rfl,
        List.takeWhile_cons_of_neg (by decide), List.append_nil]
  rw [extractCmd, getNextWord_word (reads_of_plain hcommand hlen).head, htake,
    List.take_of_length_le (by unfold defaultBufLen at *; omega)]

include hvalid hlen in
theorem execute_dumpLine (stack : ℕ → ℤ) {c : Console} (hidle : c.dump_running = false) :
    executeLine stack c f.dumpLine = { c with dumps := c.dumps ++ [f.dump intOf] } := by
  have hcommand : extractCmd f.dumpLine = "dump".toList :=
    extractCmd_joined (by decide) (by decide) f.words
  have hall : ((List.range 9).all fun k => (getParam f.dumpLine (k+1)).isSome) = true := by
    rw [List.all_eq_true]
    intro k hk
    have hlength : k < f.values.length := (List.mem_range.mp hk).trans_le (by simp [Form.values])
    rw [dumpLine_param hvalid hlen, List.getElem?_eq_getElem hlength]
    rfl
  rw [executeLine, hcommand, if_neg (by decide), if_neg (by decide), if_pos rfl, cmdDump,
    if_pos hall, hidle, dumpLine_dump hvalid hlen]
  rfl

/-- The parameter of a command with one number. -/
theorem getParam_number {command number : Text} (hcommand : Plain command)
    (hlen : command.length < defaultBufLen) (hnumber : IsDecimal number)
    (hshort : number.length < defaultBufLen) :
    getParam (command ++ joined [number]) 1 = some number := by
  have hread := getParam_joined (reads_of_plain hcommand hlen) [(number,number)] (by
    intro w hw
    rw [List.mem_singleton.mp hw]
    exact reads_of_plain (decimal_plain hnumber) hshort) 0
  exact hread

include hlen in
theorem number_short : f.indexToDumpDelay.length < defaultBufLen ∧
    f.trackDumpLenght.length < defaultBufLen := by
  have hlength := message_length f
  have hword : ∀ command number : Text, number.length < (command ++ joined [number]).length := by
    intro command number
    rw [List.length_append]
    exact (word_length_le List.mem_cons_self).trans_le (Nat.le_add_left _ _)
  have hindex : f.indexToDumpDelay.length < f.indexLine.length := hword _ _
  have htime : f.trackDumpLenght.length < f.timeLine.length := hword _ _
  unfold maxMessagesSize defaultBufLen at *
  omega

include hvalid hlen in
theorem execute_indexLine (stack : ℕ → ℤ) (c : Console) :
    executeLine stack c f.indexLine =
      { c with index_to_dump_delay := intOf f.indexToDumpDelay } := by
  have hplain : Plain "index_to_dump".toList := by decide
  have hcommand : extractCmd f.indexLine = "index_to_dump".toList :=
    extractCmd_joined hplain (by decide) _
  have hparam : getParam f.indexLine 1 = some f.indexToDumpDelay :=
    getParam_number hplain (by decide) (hvalid.numbers _ (by simp [Form.numbers]))
      (number_short hlen).1
  rw [executeLine, hcommand, if_neg (by decide), if_pos rfl, cmdSetIndexToDumpTime, hparam]

include hvalid hlen in
theorem execute_timeLine (stack : ℕ → ℤ) (c : Console) :
    executeLine stack c f.timeLine =
      { c with dump_time_per_track := trackTime (intOf f.trackDumpLenght) } := by
  have hplain : Plain "dump_time".toList := by decide
  have hcommand : extractCmd f.timeLine = "dump_time".toList :=
    extractCmd_joined hplain (by decide) _
  have hparam : getParam f.timeLine 1 = some f.trackDumpLenght :=
    getParam_number hplain (by decide) (hvalid.numbers _ (by simp [Form.numbers]))
      (number_short hlen).2
  rw [executeLine, hcommand, if_pos rfl, cmdSetDumpTimePerTrack, hparam]

/-! ## The message in the script thread -/

theorem mem_joined {words : List Text} {c : Char} (h : c ∈ joined words) :
    c = ' ' ∨ ∃ word ∈ words, c ∈ word := by
  obtain ⟨word, hword, hc⟩ := List.mem_flatMap.mp h
  obtain rfl | hc := List.mem_cons.mp hc
  · exact Or.inl rfl
  · exact Or.inr ⟨word,hword,hc⟩

theorem plain_mem {word : Text} (h : Plain word) {c : Char} (hc : c ∈ word) : c ≠ '\n' ∧ c ≠ nul := by
  refine ⟨?_,(h.2 c hc).2.2.2⟩
  rintro rfl
  exact absurd (h.2 '\n' hc).1 (by decide)

include hvalid in
theorem word_mem (hnul : ∀ text ∈ f.texts, nul ∉ text) {word : Text} (hword : word ∈ f.words)
    {c : Char} (hc : c ∈ word) : c ≠ '\n' ∧ c ≠ nul := by
  have hnumber : ∀ text ∈ f.numbers, c ∈ text → c ≠ '\n' ∧ c ≠ nul :=
    fun text htext => plain_mem (decimal_plain (hvalid.numbers text htext))
  have hquoted : ∀ text ∈ f.texts, c ∈ quoted text → c ≠ '\n' ∧ c ≠ nul := by
    intro text htext hmem
    rw [quoted, List.cons_append, List.mem_cons, List.mem_append, List.mem_singleton] at hmem
    obtain rfl | hmem | rfl := hmem
    · decide
    · refine ⟨?_,?_⟩
      · rintro rfl
        exact (hvalid.texts text htext).2.2 hmem
      · rintro rfl
        exact hnul text htext hmem
    · decide
  simp only [Form.words, List.mem_cons, List.not_mem_nil, or_false] at hword
  obtain rfl | rfl | rfl | rfl | rfl | rfl | rfl | rfl | rfl | rfl | rfl | rfl | rfl | rfl | rfl |
    rfl := hword
  · exact hnumber _ (by simp [Form.numbers]) hc
  · exact hnumber _ (by simp [Form.numbers]) hc
  · exact hnumber _ (by simp [Form.numbers]) hc
  · exact plain_mem (checked_plain _) hc
  · exact plain_mem (checked_plain _) hc
  · exact plain_mem (checked_plain _) hc
  · exact plain_mem (checked_plain _) hc
  · exact plain_mem (checked_plain _) hc
  · exact plain_mem (checked_plain false) hc
  · exact hquoted _ (by simp [Form.texts]) hc
  · exact hquoted _ (by simp [Form.texts]) hc
  · exact plain_mem (decimal_plain (startindex_decimal hvalid)) hc
  · exact plain_mem (mode_plain f) hc
  · exact hquoted _ (by simp [Form.texts]) hc
  · exact hquoted _ (by simp [Form.texts]) hc
  · exact hquoted _ (by simp [Form.texts]) hc

/-- A command and its words have no line end and no 0. -/
theorem line_notMem {command : Text} (hcommand : Plain command) {words : List Text}
    (hwords : ∀ word ∈ words, ∀ c ∈ word, c ≠ '\n' ∧ c ≠ nul) :
    '\n' ∉ command ++ joined words ∧ nul ∉ command ++ joined words := by
  have hline : ∀ c ∈ command ++ joined words, c ≠ '\n' ∧ c ≠ nul := by
    intro c hc
    obtain hc | hc := List.mem_append.mp hc
    · exact plain_mem hcommand hc
    · obtain rfl | ⟨word, hword, hc⟩ := mem_joined hc
      · decide
      · exact hwords word hword c hc
  exact ⟨fun h => (hline _ h).1 rfl,fun h => (hline _ h).2 rfl⟩

include hvalid in
theorem lines_notMem (hnul : ∀ text ∈ f.texts, nul ∉ text) :
    ('\n' ∉ f.indexLine ∧ nul ∉ f.indexLine) ∧ ('\n' ∉ f.timeLine ∧ nul ∉ f.timeLine) ∧
      '\n' ∉ f.dumpLine ∧ nul ∉ f.dumpLine := by
  have hnumber : ∀ text ∈ f.numbers, ∀ word ∈ [text], ∀ c ∈ word, c ≠ '\n' ∧ c ≠ nul := by
    intro text htext word hword c hc
    rw [List.mem_singleton.mp hword] at hc
    exact plain_mem (decimal_plain (hvalid.numbers text htext)) hc
  refine ⟨?_,?_,?_⟩
  · exact line_notMem (by decide) (hnumber _ (by simp [Form.numbers]))
  · exact line_notMem (by decide) (hnumber _ (by simp [Form.numbers]))
  · exact line_notMem (by decide) fun word hword c hc => word_mem hvalid hnul hword hc

theorem hear_line {s : ScriptThread.Script} (hs : s.fullline = []) {line : Text}
    (hlen : line.length ≤ LineBuffer.maxLineSize) (hkills : LineBuffer.kills line = false) :
    (ScriptThread.hear s line).fullline = [] ∧
      (ScriptThread.hear s line).executed = s.executed ++ [line] := by
  rw [ScriptThread.hear, hs, List.nil_append, LineBuffer.cut_of_short hlen, ScriptThread.endLine,
    if_neg (by rw [hkills]; decide)]
  exact ⟨rfl,rfl⟩

include hvalid hlen in
theorem message_executed (hnul : ∀ text ∈ f.texts, nul ∉ text) (last : Char)
    {s : ScriptThread.Script} (hs : s.fullline = []) :
    (ScriptThread.onMessage last f.message s).executed =
      [f.indexLine,f.timeLine,f.dumpLine] := by
  obtain ⟨hindex, htime, hdump⟩ := lines_notMem hvalid hnul
  have hmessage : ScriptThread.Message f.message := by
    refine ⟨?_,hlen⟩
    have hne : nul ≠ '\n' := by decide
    simp only [Form.message, List.mem_append, List.mem_cons, List.not_mem_nil, or_false, hne, false_or]
    tauto
  have hall : Lines.all '\n' f.message = [f.indexLine,f.timeLine,f.dumpLine] := by
    rw [Form.message, Lines.all_line _ hindex.1, Lines.all_line _ htime.1, Lines.all_line _ hdump.1,
      Lines.all_nil]
  have hrest : (Lines.split '\n' f.message).2 = [] := by
    rw [Form.message, Lines.split_line _ hindex.1, Lines.split_line _ htime.1,
      Lines.split_line _ hdump.1]
    rfl
  have hheard : ScriptThread.heard last f.message = [f.indexLine,f.timeLine,f.dumpLine] := by
    have hne : f.message ≠ [] := by simp [Form.message]
    have hstray : ScriptThread.stray last f.message = [] := if_neg fun h => h.2.1 hrest
    rw [ScriptThread.heard, if_neg hne, hall, hstray, List.append_nil]
  have hlength := message_length f
  have hsize : maxMessagesSize - 1 ≤ LineBuffer.maxLineSize := by decide
  have hroom : s.fullline.length ≤ LineBuffer.maxLineSize := by
    rw [hs]
    exact Nat.zero_le _
  rw [ScriptThread.onMessage_heard hmessage last s hroom, hheard]
  simp only [List.foldl_cons, List.foldl_nil]
  have hshort : ∀ line ∈ [f.indexLine,f.timeLine,f.dumpLine],
      line.length ≤ LineBuffer.maxLineSize := by
    intro line hline
    simp only [List.mem_cons, List.not_mem_nil, or_false] at hline
    obtain rfl | rfl | rfl := hline <;> omega
  obtain ⟨hfull, hfirst⟩ := hear_line (s := { s with executed := [] }) hs
    (hshort f.indexLine (by simp)) rfl
  obtain ⟨hfull, hsecond⟩ := hear_line hfull (hshort f.timeLine (by simp)) rfl
  obtain ⟨-, hthird⟩ := hear_line hfull (hshort f.dumpLine (by simp)) rfl
  rw [hthird, hsecond, hfirst]
  rfl

include hvalid hlen in
/-- What the message does, whatever its numbers are. -/
theorem execute_message (hnul : ∀ text ∈ f.texts, nul ∉ text) (stack : ℕ → ℤ) (last : Char)
    {s : ScriptThread.Script} (hs : s.fullline = []) {c : Console} (hidle : c.dump_running = false) :
    execute stack (ScriptThread.recvbuf last f.message) s c =
      { c with
        index_to_dump_delay := intOf f.indexToDumpDelay
        dump_time_per_track := trackTime (intOf f.trackDumpLenght)
        dumps := c.dumps ++ [f.dump intOf] } := by
  have hexecuted := message_executed hvalid hlen hnul last hs
  rw [ScriptThread.onMessage] at hexecuted
  rw [execute, hexecuted, List.foldl_cons, List.foldl_cons, List.foldl_cons, List.foldl_nil,
    execute_indexLine hvalid hlen, execute_timeLine hvalid hlen, execute_dumpLine hvalid hlen]
  exact hidle

theorem intOf_decimal {text : Text} (h : IsDecimal text)
    (hint : -2^31 ≤ decimal text ∧ decimal text < 2^31) : intOf text = decimal text := by
  rw [intOf, atoi_decimal h, min_eq_left (Int.le_sub_one_of_lt hint.2), max_eq_right hint.1]

include hvalid in
theorem dump_decimal (hfits : f.Fits) : f.dump intOf = f.dump decimal := by
  have hint : ∀ text ∈ f.numbers, intOf text = decimal text :=
    fun text htext => intOf_decimal (hvalid.numbers text htext) (hfits.numbers text htext)
  rw [Form.dump, hint f.drive (by simp [Form.numbers]), hint f.dumpMinTrack (by simp [Form.numbers]),
    hint f.dumpMaxTrack (by simp [Form.numbers]), hint f.dumpStartIndex (by simp [Form.numbers])]
  rfl

end Form

/-- What is copied of the place of a message. -/
theorem copyMsg_recvbuf {b b' : MsgBuffer} {msg : List Char}
    (h : b'.messages b'.out_index = (b.putMsg msg).messages (b.in_index &&& (maxNbMessages - 1)))
    {outbuf : List Char} (hout : outbuf.length = maxMessagesSize) :
    ∃ last, b'.copyMsg outbuf = ScriptThread.recvbuf last msg := by
  have hplace : (b.putMsg msg).messages (b.in_index &&& (maxNbMessages - 1)) =
      Messages.entry msg :=
    Function.update_self ..
  have hrest : (outbuf.drop (maxMessagesSize - 1)).length = 1 := by
    rw [List.length_drop, hout]
    rfl
  obtain ⟨last, hlast⟩ := List.length_eq_one_iff.mp hrest
  refine ⟨last,?_⟩
  rw [MsgBuffer.copyMsg, h, hplace, strncpy_entry, hlast]
  rfl

/-- The dump is the one of the form. -/
theorem dump_form_roundTrip (f : Form) (hvalid : f.Valid) (hfits : f.Fits)
    (hlen : f.message.length ≤ 510) : RoundTrip f := by
  intro b b' outbuf s stack c hplace hout hs hidle
  have hshort : f.message.length < maxMessagesSize - 1 := Nat.lt_succ_of_le hlen
  obtain ⟨last, hrecvbuf⟩ := copyMsg_recvbuf hplace hout
  have hint : ∀ text ∈ f.numbers, intOf text = decimal text :=
    fun text htext => intOf_decimal (hvalid.numbers text htext) (hfits.numbers text htext)
  rw [hrecvbuf, execute_message hvalid hshort hfits.texts stack last hs hidle,
    dump_decimal hvalid hfits, hint f.indexToDumpDelay (by simp [Form.numbers]),
    hint f.trackDumpLenght (by simp [Form.numbers])]

def pageForm (name startIndex : Text) : Form where
  indexToDumpDelay := ['0']
  trackDumpLenght := "800".toList
  drive := ['0']
  dumpMinTrack := ['0']
  dumpMaxTrack := "80".toList
  side0 := true
  side1 := true
  is50Mhz := false
  doubleStep := false
  ignoreIndex := false
  dumpName := name
  dumpComment := "a # b".toList
  autoIndex := false
  dumpStartIndex := startIndex
  driveInfos := []
  dumpOperator := []
  dumpComment2 := []

theorem pageForm_valid {name startIndex : Text} (hname : '"' ∉ name ∧ '\r' ∉ name ∧ '\n' ∉ name)
    (hindex : IsDecimal startIndex) : (pageForm name startIndex).Valid where
  numbers := by
    intro text htext
    simp only [Form.numbers, pageForm, List.mem_cons, List.not_mem_nil, or_false] at htext
    obtain rfl | rfl | rfl | rfl | rfl | rfl := htext
    · exact isDecimal_of_digits (by decide) (by decide)
    · exact isDecimal_of_digits (by decide) (by decide)
    · exact isDecimal_of_digits (by decide) (by decide)
    · exact isDecimal_of_digits (by decide) (by decide)
    · exact isDecimal_of_digits (by decide) (by decide)
    · exact hindex
  texts := by
    intro text htext
    simp only [Form.texts, pageForm, List.mem_cons, List.not_mem_nil, or_false] at htext
    obtain rfl | rfl | rfl | rfl | rfl := htext
    · exact hname
    · decide
    · decide
    · decide
    · decide

theorem dump_form_roundTrip_page : RoundTrip (pageForm "my disk".toList ['7']) := by
  have hvalid : (pageForm "my disk".toList ['7']).Valid :=
    pageForm_valid (by decide) (isDecimal_of_digits (by decide) (by decide))
  apply dump_form_roundTrip _ hvalid
  · constructor
    · decide
    · decide
  · decide

/-! ## Numbers that no `int` holds, and texts with a 0 -/

def emptyBuffer : MsgBuffer := ⟨false,0,0,fun _ => [],⟨false,false⟩⟩

def idleConsole : Console := ⟨0,800,false,[]⟩

def dumpsOf (f : Form) : List Dump :=
  (execute (fun _ => 0) ((emptyBuffer.putMsg f.message).copyMsg (List.replicate maxMessagesSize nul))
    ScriptThread.Script.start idleConsole).dumps

theorem dumpsOf_roundTrip {f : Form} (h : RoundTrip f) : dumpsOf f = [f.dump decimal] := by
  have hrun := h emptyBuffer (emptyBuffer.putMsg f.message) (List.replicate maxMessagesSize nul)
    ScriptThread.Script.start (fun _ => 0) idleConsole rfl List.length_replicate rfl rfl
  rw [dumpsOf, hrun]
  rfl

def bigForm : Form := pageForm "my disk".toList "99999999999".toList

def nulForm : Form := pageForm ['a',nul,'b'] ['7']

def cutMessage : List Char :=
  "index_to_dump 0\ndump_time 800\ndump 0 0 80 0 1 0 0 0 0 \"a".toList

theorem dumpsOf_recvbuf (f : Form) : ∃ last, dumpsOf f =
    (execute (fun _ => 0) (ScriptThread.recvbuf last f.message) ScriptThread.Script.start
      idleConsole).dumps := by
  have hplace : (emptyBuffer.putMsg f.message).messages (emptyBuffer.putMsg f.message).out_index =
      (emptyBuffer.putMsg f.message).messages (emptyBuffer.in_index &&& (maxNbMessages - 1)) := rfl
  have hout : (List.replicate maxMessagesSize nul).length = maxMessagesSize := List.length_replicate
  obtain ⟨last, hlast⟩ := copyMsg_recvbuf hplace hout
  exact ⟨last,by rw [dumpsOf, hlast]⟩

theorem form_limits :
    (bigForm.Valid ∧ bigForm.message.length ≤ 510 ∧ ¬RoundTrip bigForm) ∧
      (nulForm.Valid ∧ nulForm.message.length ≤ 510 ∧ ¬RoundTrip nulForm) := by
  have hbig : bigForm.Valid :=
    pageForm_valid (by decide) (isDecimal_of_digits (by decide) (by decide))
  have hnul : nulForm.Valid :=
    pageForm_valid (by decide) (isDecimal_of_digits (by decide) (by decide))
  refine ⟨⟨hbig,by decide,fun h => ?_⟩,hnul,by decide,fun h => ?_⟩
  · have hdumps := dumpsOf_roundTrip h
    obtain ⟨last, hlast⟩ := dumpsOf_recvbuf bigForm
    have hexecute := execute_message hbig (by decide) (by decide) (fun _ => 0) last
      (s := ScriptThread.Script.start) rfl (c := idleConsole) rfl
    rw [hlast, hexecute] at hdumps
    exact absurd (congrArg (List.map Dump.start_index) hdumps) (by decide)
  · have hdumps := dumpsOf_roundTrip h
    obtain ⟨last, hlast⟩ := dumpsOf_recvbuf nulForm
    have hbuffer : ScriptThread.recvbuf last nulForm.message = ScriptThread.recvbuf last cutMessage := by
      have hcut : cString nulForm.message = cString cutMessage := by decide
      rw [ScriptThread.recvbuf, ScriptThread.recvbuf, strncpy, strncpy, hcut]
    have hexecuted : (ScriptThread.onMessage last cutMessage ScriptThread.Script.start).executed =
        Lines.all '\n' cutMessage := by
      have hmessage : ScriptThread.Message cutMessage := ⟨by decide,by decide⟩
      have hheard : ScriptThread.heard last cutMessage = Lines.all '\n' cutMessage := by
        have hstray : ScriptThread.stray last cutMessage = [] :=
          if_neg fun h => absurd h.1 (by decide)
        rw [ScriptThread.heard, if_neg (by decide), hstray, List.append_nil]
      rw [ScriptThread.onMessage_heard hmessage last _ (by decide), hheard]
      decide
    rw [ScriptThread.onMessage] at hexecuted
    rw [hlast, hbuffer, execute, hexecuted] at hdumps
    exact absurd (congrArg (List.map Dump.name) hdumps) (by decide)

end Pauline.DumpForm
