import Pauline.Library.Lines
import Pauline.Dump.Metadata

/-!
# The keys of the metadata

A reader of the metadata finds a key at the beginning of a line. A string of the
dump that goes over a line can show one too.
-/

set_option autoImplicit false

namespace Pauline.Metadata
open Pauline.DeltaCode Pauline.DumpChunk

/-! ## Entries -/

@[ext] theorem CString.ext {s t : CString} (h : s.bytes = t.bytes) : s = t := by
  obtain ⟨bytes, _⟩ := s
  obtain ⟨bytes', _⟩ := t
  obtain rfl : bytes = bytes' := h
  rfl

structure Entry where
  key : CString
  value : CString

open CString in
def Entry.line (e : Entry) : CString := e.key ++ (lit " " ++ (e.value ++ lit "\n"))

structure TextEntry where
  key : CString
  before : CString
  text : CString

open CString in
def TextEntry.entry (e : TextEntry) : Entry :=
  ⟨e.key,e.before ++ (lit "\"" ++ (e.text ++ lit "\""))⟩

open CString in
def firstEntries (buildtime : CString) (tm : Tm) (c : Chunk) : List Entry :=
  [⟨lit "format_version",lit "v1.0"⟩,
    ⟨lit "software_version",lit "v1.4.2.1 13 September 2023"⟩,
    ⟨lit "software_buildtime",buildtime⟩,
    ⟨lit "chunk_number",int 0 (asInt c.chunk_number)⟩,
    ⟨lit "current_time",int 0 (tm.tm_year+1900) ++ (lit "-" ++ (int 2 (tm.tm_mon+1) ++ (lit "-" ++
      (int 2 tm.tm_mday ++ (lit " " ++ (int 2 tm.tm_hour ++ (lit ":" ++ (int 2 tm.tm_min ++
        (lit ":" ++ int 2 tm.tm_sec)))))))))⟩,
    ⟨lit "sample_rate_hz",int 0 (asInt c.sample_rate_hz)⟩]

open CString in
def textEntries (dstate : DumpState) : List TextEntry :=
  [⟨lit "floppy_drive",int 0 dstate.drive_number ++ lit " ",dstate.drive_description⟩,
    ⟨lit "drive_reference",empty,dstate.dump_driveref⟩,
    ⟨lit "dump_name",empty,dstate.dump_name⟩,
    ⟨lit "dump_comment",empty,dstate.dump_comment⟩,
    ⟨lit "dump_comment2",empty,dstate.dump_comment2⟩,
    ⟨lit "operator",empty,dstate.dump_operator⟩]

open CString in
def numberEntries (dstate : DumpState) (c : Chunk) : List (CString × ℤ) :=
  [(lit "start_track",dstate.start_track),
    (lit "max_track",dstate.max_track),
    (lit "double_step",dstate.doublestep),
    (lit "start_side",dstate.start_side),
    (lit "max_side",dstate.max_side),
    (lit "index_synced",dstate.index_synced),
    (lit "index_to_dump_delay",dstate.index_to_dump_delay),
    (lit "time_per_track",dstate.time_per_track),
    (lit "current_track",dstate.current_track),
    (lit "current_side",dstate.current_side),
    (lit "number_of_data_pulses",asInt c.number_of_data_pulses),
    (lit "number_of_data_samples",c.number_of_data_samples),
    (lit "number_of_ios_samples",asInt c.number_of_ios_samples)]

open CString in
def lastEntries (c : Chunk) : List Entry :=
  [⟨lit "memory_dump_offset",lit "0x" ++ hex c.memory_dump_offset⟩,
    ⟨lit "io_channel 0",lit "floppy_i_index"⟩,
    ⟨lit "io_channel 1",lit "floppy_i_pin02"⟩,
    ⟨lit "io_channel 2",lit "floppy_i_pin34"⟩,
    ⟨lit "io_channel 5",lit "floppy_i_wpt"⟩,
    ⟨lit "io_channel 9",lit "ext_io_i"⟩]

open CString in
def entries (buildtime : CString) (tm : Tm) (dstate : DumpState) (c : Chunk) : List Entry :=
  firstEntries buildtime tm c ++ (textEntries dstate).map TextEntry.entry ++
    (numberEntries dstate c).map (fun e => ⟨e.1,int 0 e.2⟩) ++ lastEntries c

section Lines
open CString

theorem value_line {label key : CString} (value : CString)
    (h : label.bytes = (key ++ lit " ").bytes) :
    label ++ (value ++ lit "\n") = Entry.line ⟨key,value⟩ := by
  ext1
  rw [append_bytes, h]
  simp only [Entry.line, append_bytes, List.append_assoc]

theorem lit_quote_end : lit "\"\n" = lit "\"" ++ lit "\n" := rfl

theorem quoted_line {label key : CString} (text : CString)
    (h : label.bytes = (key ++ lit " ").bytes) :
    label ++ (lit "\"" ++ text ++ lit "\"\n") = (TextEntry.entry ⟨key,empty,text⟩).line := by
  ext1
  rw [append_bytes, h]
  simp only [lit_quote_end, Entry.line, TextEntry.entry, append_bytes, empty_bytes,
    List.append_assoc, List.nil_append]

theorem drive_line (drive text : CString) :
    lit "floppy_drive " ++ (drive ++ lit " " ++ (lit "\"" ++ text ++ lit "\"\n")) =
      (TextEntry.entry ⟨lit "floppy_drive",drive ++ lit " ",text⟩).line := by
  have hlabel : lit "floppy_drive " = lit "floppy_drive" ++ lit " " := rfl
  ext1
  simp only [hlabel, lit_quote_end, Entry.line, TextEntry.entry, append_bytes, List.append_assoc]

theorem time_line (year mon mday hour min sec : CString) :
    lit "current_time " ++ (year ++ lit "-" ++ (mon ++ lit "-" ++ (mday ++ lit " " ++
      (hour ++ lit ":" ++ (min ++ lit ":" ++ (sec ++ lit "\n")))))) =
    Entry.line ⟨lit "current_time",year ++ (lit "-" ++ (mon ++ (lit "-" ++ (mday ++ (lit " " ++
      (hour ++ (lit ":" ++ (min ++ (lit ":" ++ sec)))))))))⟩ := by
  have hlabel : lit "current_time " = lit "current_time" ++ lit " " := rfl
  ext1
  simp only [hlabel, Entry.line, append_bytes, List.append_assoc]

theorem offset_line (offset : CString) : lit "memory_dump_offset 0x" ++ (offset ++ lit "\n") =
    Entry.line ⟨lit "memory_dump_offset",lit "0x" ++ offset⟩ := by
  have hlabel : lit "memory_dump_offset 0x" = lit "memory_dump_offset" ++ (lit " " ++ lit "0x") :=
    rfl
  ext1
  simp only [hlabel, Entry.line, append_bytes, List.append_assoc]

end Lines

theorem metadataLines_entries (buildtime : CString) (tm : Tm) (dstate : DumpState) (c : Chunk) :
    metadataLines buildtime tm dstate c = (entries buildtime tm dstate c).map Entry.line := by
  simp only [metadataLines, entries, firstEntries, textEntries, numberEntries, lastEntries,
    List.map_cons, List.map_nil, List.cons_append, List.nil_append, List.cons.injEq, and_true]
  refine ⟨?_,?_,value_line _ ?_,value_line _ ?_,time_line _ _ _ _ _ _,value_line _ ?_,
    drive_line _ _,quoted_line _ ?_,quoted_line _ ?_,quoted_line _ ?_,quoted_line _ ?_,
    quoted_line _ ?_,value_line _ ?_,value_line _ ?_,value_line _ ?_,value_line _ ?_,
    value_line _ ?_,value_line _ ?_,value_line _ ?_,value_line _ ?_,value_line _ ?_,
    value_line _ ?_,value_line _ ?_,value_line _ ?_,value_line _ ?_,offset_line _,?_,?_,?_,?_,?_⟩
  -- what is left is about the literals only
  all_goals first | decide | exact CString.ext (by decide)

/-! ## Keys -/

def NEWLINE : Byte := 0x0A#8

def QUOTE : Byte := 0x22#8

def keys : List (List Byte) :=
  ["format_version","software_version","software_buildtime","chunk_number","current_time",
    "sample_rate_hz","floppy_drive","drive_reference","dump_name","dump_comment","dump_comment2",
    "operator","start_track","max_track","double_step","start_side","max_side","index_synced",
    "index_to_dump_delay","time_per_track","current_track","current_side","number_of_data_pulses",
    "number_of_data_samples","number_of_ios_samples","memory_dump_offset","io_channel 0",
    "io_channel 1","io_channel 2","io_channel 5","io_channel 9"].map fun s =>
      (CString.lit s).bytes

def keyOf (line : List Byte) : Option (List Byte) :=
  keys.find? fun key => (key ++ [0x20#8]).isPrefixOf line

def keysOf (text : List Byte) : List (List Byte) := (Lines.all NEWLINE text).filterMap keyOf

def extraKeys (value : CString) : List (List Byte) :=
  (Lines.parts NEWLINE value.withoutReturns.bytes).tail.filterMap keyOf

theorem entries_keys (buildtime : CString) (tm : Tm) (dstate : DumpState) (c : Chunk) :
    (entries buildtime tm dstate c).map (fun e => e.key.bytes) = keys := rfl

theorem keys_plain : ∀ key ∈ keys, NEWLINE ∉ key ∧ 0x0D#8 ∉ key := by decide +kernel

theorem keys_apart : ∀ key ∈ keys, ∀ key' ∈ keys,
    (key ++ [0x20#8]).isPrefixOf (key' ++ [0x20#8]) = true → key = key' := by decide +kernel

theorem keyOf_key {key : List Byte} (h : key ∈ keys) (rest : List Byte) :
    keyOf (key ++ 0x20#8::rest) = some key := by
  have hthis : key ++ [0x20#8] <+: key ++ 0x20#8::rest := by simp
  cases hfind : keyOf (key ++ 0x20#8::rest) with
  | none =>
    have hnone := List.find?_eq_none.mp hfind key h
    rw [List.isPrefixOf_iff_prefix] at hnone
    exact absurd hthis hnone
  | some key' =>
    have hmem := List.mem_of_find?_eq_some hfind
    have hother := List.find?_some hfind
    rw [List.isPrefixOf_iff_prefix] at hother
    rcases List.prefix_or_prefix_of_prefix hother hthis with hpre | hpre
    · rw [keys_apart key' hmem key h (List.isPrefixOf_iff_prefix.mpr hpre)]
    · rw [keys_apart key h key' hmem (List.isPrefixOf_iff_prefix.mpr hpre)]

/-- The quote behind a string is not part of a key. -/
theorem keyOf_quote (line : List Byte) : keyOf (line ++ [QUOTE]) = keyOf line := by
  refine congrArg (fun p => keys.find? p) (funext fun key => ?_)
  rw [Bool.eq_iff_iff, List.isPrefixOf_iff_prefix, List.isPrefixOf_iff_prefix,
    List.prefix_concat_iff]
  refine or_iff_right fun heq => ?_
  have hlast := congrArg List.getLast? heq
  rw [List.getLast?_concat, List.getLast?_concat] at hlast
  exact absurd hlast (by decide)

theorem withoutReturns_append (s t : CString) :
    (s ++ t).withoutReturns = s.withoutReturns ++ t.withoutReturns :=
  CString.ext (List.filter_append _ _)

theorem withoutReturns_plain {s : CString} (h : 0x0D#8 ∉ s.bytes) : s.withoutReturns = s := by
  refine CString.ext (List.filter_eq_self.mpr fun b hb => ?_)
  rw [decide_eq_true_eq]
  rintro rfl
  exact h hb

theorem newline_withoutReturns {s : CString} (h : NEWLINE ∉ s.bytes) :
    NEWLINE ∉ s.withoutReturns.bytes := fun hin => h (List.mem_of_mem_filter hin)

section Text
open CString

theorem line_bytes (e : Entry) (hkey : e.key.bytes ∈ keys) : e.line.withoutReturns.bytes =
    (e.key.bytes ++ 0x20#8::e.value.withoutReturns.bytes) ++ [NEWLINE] := by
  have hblank : (lit " ").withoutReturns.bytes = [0x20#8] := rfl
  have hend : (lit "\n").withoutReturns.bytes = [NEWLINE] := rfl
  rw [Entry.line, withoutReturns_append, withoutReturns_append, withoutReturns_append,
    withoutReturns_plain (keys_plain _ hkey).2, append_bytes, append_bytes, append_bytes, hblank,
    hend]
  simp

theorem line_keys (e : Entry) (hkey : e.key.bytes ∈ keys) :
    (Lines.parts NEWLINE (e.key.bytes ++ 0x20#8::e.value.withoutReturns.bytes)).filterMap keyOf =
      e.key.bytes::extraKeys e.value := by
  have hplain : NEWLINE ∉ e.key.bytes ++ [0x20#8] := by
    rw [List.mem_append]
    exact not_or.mpr ⟨(keys_plain _ hkey).1,by decide⟩
  obtain ⟨first, rest, hvalue, hall⟩ := Lines.parts_append e.value.withoutReturns.bytes hplain
  rw [List.append_assoc, List.singleton_append] at hall
  rw [hall, extraKeys, hvalue, List.append_assoc, List.singleton_append, List.filterMap_cons,
    keyOf_key hkey]
  rfl

theorem keysOf_lines (es : List Entry) (hkeys : ∀ e ∈ es, e.key.bytes ∈ keys) :
    keysOf (es.flatMap fun e => e.line.withoutReturns.bytes) =
      es.flatMap fun e => e.key.bytes::extraKeys e.value := by
  induction es with
  | nil => rfl
  | cons e es ih =>
    obtain ⟨hkey, hrest⟩ := List.forall_mem_cons.mp hkeys
    rw [List.flatMap_cons, List.flatMap_cons, ← ih hrest, line_bytes e hkey, List.append_assoc,
      List.singleton_append, keysOf, Lines.all_append_sep, List.filterMap_append, line_keys e hkey]
    rfl

end Text

theorem flatMap_cons_eq_map_iff {α β : Type*} (f : α → β) (g : α → List β) (l : List α) :
    l.flatMap (fun a => f a::g a) = l.map f ↔ ∀ a ∈ l, g a = [] := by
  induction l with
  | nil => simp
  | cons a l ih =>
    rw [List.flatMap_cons, List.map_cons, List.cons_append, List.cons.injEq, List.forall_mem_cons]
    constructor
    · rintro ⟨-, heq⟩
      have hlen := congrArg List.length heq
      have hge : l.length ≤ (l.flatMap fun a => f a::g a).length := by
        rw [List.length_flatMap]
        exact (List.length_le_sum_of_one_le _ (by simp)).trans' (by simp)
      rw [List.length_append, List.length_map] at hlen
      have hnil : g a = [] := List.eq_nil_of_length_eq_zero (by omega)
      rw [hnil, List.nil_append] at heq
      exact ⟨hnil,ih.mp heq⟩
    · rintro ⟨hnil, hrest⟩
      exact ⟨rfl,by rw [hnil, List.nil_append]; exact ih.mpr hrest⟩

/-! ## Lengths -/

def IsInt (n : ℤ) : Prop := -2^31 ≤ n ∧ n < 2^31

instance (n : ℤ) : Decidable (IsInt n) := inferInstanceAs (Decidable (_ ∧ _))

def printedInts (tm : Tm) (dstate : DumpState) (c : Chunk) : List ℤ :=
  [tm.tm_year+1900,tm.tm_mon+1,tm.tm_mday,tm.tm_hour,tm.tm_min,tm.tm_sec,dstate.drive_number,
    dstate.start_track,dstate.max_track,dstate.doublestep,dstate.start_side,dstate.max_side,
    dstate.index_synced,dstate.index_to_dump_delay,dstate.time_per_track,dstate.current_track,
    dstate.current_side,c.number_of_data_samples]

/-- The values are those of their C types, and the compiler gives its date and time
in 20 characters. -/
structure Typed (buildtime : CString) (tm : Tm) (dstate : DumpState) (c : Chunk) : Prop where
  ints : ∀ n ∈ printedInts tm dstate c, IsInt n
  offset : c.memory_dump_offset < 2^32
  buildtime_length : buildtime.length = 20
  buildtime_plain : NEWLINE ∉ buildtime.bytes

theorem asInt_isInt (n : ℕ) : IsInt (asInt n) := ⟨BitVec.le_toInt _,asInt_lt n⟩

section Lengths
open CString

theorem ofBytes_length_le (bs : List Byte) : (ofBytes bs).length ≤ bs.length :=
  (List.takeWhile_prefix _).length_le

theorem length_append (s t : CString) : (s ++ t).length = s.length + t.length :=
  List.length_append

theorem digits_plain (base n : ℕ) (h2 : 2 ≤ base) (h16 : base ≤ 16) : NEWLINE ∉ digits base n := by
  have hdigit : ∀ d < 16, byte (Nat.digitChar d).toUpper.toNat ≠ NEWLINE := by decide
  induction n using Nat.strong_induction_on with
  | _ n ih =>
    rw [digits, Nat.toDigits_eq_if (by omega)]
    split_ifs with hlt
    · rw [List.map_singleton, List.mem_singleton]
      exact fun heq => hdigit n (by omega) heq.symm
    · rw [List.map_append, List.mem_append, List.map_singleton, List.mem_singleton]
      have hless : n/base < n := Nat.div_lt_self (by omega) (by omega)
      have hmod : n % base < base := Nat.mod_lt _ (by omega)
      exact not_or.mpr ⟨ih _ hless,fun heq => hdigit (n % base) (by omega) heq.symm⟩

theorem int_plain (width : ℕ) (n : ℤ) : NEWLINE ∉ (int width n).bytes := fun hin => by
  have hraw := List.takeWhile_subset _ hin
  rw [List.mem_append, List.leftpad, List.mem_append, List.mem_replicate] at hraw
  rcases hraw with hsign | ⟨-, hzero⟩ | hdigit
  · split_ifs at hsign
    · exact absurd (List.mem_singleton.mp hsign) (by decide)
    · cases hsign
  · exact absurd hzero (by decide)
  · exact digits_plain 10 _ (by decide) (by decide) hdigit

theorem int_length (width : ℕ) {n : ℤ} (hwidth : width ≤ 11) (h : IsInt n) :
    (int width n).length ≤ 11 := by
  obtain ⟨hlow, hhigh⟩ := h
  have hdigits : (digits 10 n.natAbs).length ≤ 10 := by
    rw [digits, List.length_map]
    exact (Nat.length_toDigits_le_iff (by decide) (by decide)).mpr (by omega)
  refine (ofBytes_length_le _).trans ?_
  rw [List.length_append, List.leftpad, List.length_append, List.length_replicate]
  split_ifs <;> simp <;> omega

theorem hex_plain (n : ℕ) : NEWLINE ∉ (hex n).bytes := fun hin => by
  have hraw := List.takeWhile_subset _ hin
  rw [List.leftpad, List.mem_append, List.mem_replicate] at hraw
  rcases hraw with ⟨-, hzero⟩ | hdigit
  · exact absurd hzero (by decide)
  · exact digits_plain 16 _ (by decide) (by decide) hdigit

theorem hex_length {n : ℕ} (h : n < 2^32) : (hex n).length ≤ 8 := by
  have hdigits : (digits 16 n).length ≤ 8 := by
    rw [digits, List.length_map]
    exact (Nat.length_toDigits_le_iff (by decide) (by decide)).mpr (by omega)
  refine (ofBytes_length_le _).trans ?_
  rw [List.leftpad, List.length_append, List.length_replicate]
  omega

theorem line_length (e : Entry) : e.line.length = e.key.length + e.value.length + 2 := by
  have hblank : (lit " ").length = 1 := rfl
  have hend : (lit "\n").length = 1 := rfl
  rw [Entry.line, length_append, length_append, length_append, hblank, hend]
  omega

structure Short (e : Entry) : Prop where
  length : e.line.length ≤ 100
  plain : NEWLINE ∉ e.value.bytes

theorem Short.noKeys {e : Entry} (h : Short e) : extraKeys e.value = [] := by
  rw [extraKeys, Lines.parts_rest (newline_withoutReturns h.plain)]
  rfl

theorem number_short {key : CString} {n : ℤ} (hkey : key.length ≤ 23) (h : IsInt n) :
    Short ⟨key,int 0 n⟩ where
  length := by
    have hint := int_length 0 (by omega) h
    rw [line_length]
    show key.length + (int 0 n).length + 2 ≤ 100
    omega
  plain := int_plain 0 n

theorem append_plain {s t : CString} (hs : NEWLINE ∉ s.bytes) (ht : NEWLINE ∉ t.bytes) :
    NEWLINE ∉ (s ++ t).bytes := by
  rw [append_bytes, List.mem_append]
  exact not_or.mpr ⟨hs,ht⟩

theorem time_short {tm : Tm} (h : ∀ n ∈ [tm.tm_year+1900,tm.tm_mon+1,tm.tm_mday,tm.tm_hour,
    tm.tm_min,tm.tm_sec], IsInt n) :
    Short ⟨lit "current_time",int 0 (tm.tm_year+1900) ++ (lit "-" ++ (int 2 (tm.tm_mon+1) ++
      (lit "-" ++ (int 2 tm.tm_mday ++ (lit " " ++ (int 2 tm.tm_hour ++ (lit ":" ++
        (int 2 tm.tm_min ++ (lit ":" ++ int 2 tm.tm_sec)))))))))⟩ where
  length := by
    simp only [List.forall_mem_cons] at h
    obtain ⟨hyear, hmon, hmday, hhour, hmin, hsec, -⟩ := h
    have hkey : (lit "current_time").length = 12 := rfl
    have hdash : (lit "-").length = 1 := rfl
    have hblank : (lit " ").length = 1 := rfl
    have hcolon : (lit ":").length = 1 := rfl
    have h1 := int_length 0 (by omega) hyear
    have h2 := int_length 2 (by omega) hmon
    have h3 := int_length 2 (by omega) hmday
    have h4 := int_length 2 (by omega) hhour
    have h5 := int_length 2 (by omega) hmin
    have h6 := int_length 2 (by omega) hsec
    rw [line_length]
    simp only [length_append, hkey, hdash, hblank, hcolon]
    omega
  plain := by
    have hdash : NEWLINE ∉ (lit "-").bytes := by decide
    have hblank : NEWLINE ∉ (lit " ").bytes := by decide
    have hcolon : NEWLINE ∉ (lit ":").bytes := by decide
    exact append_plain (int_plain _ _) (append_plain hdash (append_plain (int_plain _ _)
      (append_plain hdash (append_plain (int_plain _ _) (append_plain hblank
        (append_plain (int_plain _ _) (append_plain hcolon (append_plain (int_plain _ _)
          (append_plain hcolon (int_plain _ _))))))))))

theorem offset_short {n : ℕ} (h : n < 2^32) :
    Short ⟨lit "memory_dump_offset",lit "0x" ++ hex n⟩ where
  length := by
    have hkey : (lit "memory_dump_offset").length = 18 := rfl
    have hbase : (lit "0x").length = 2 := rfl
    have hhex := hex_length h
    rw [line_length, length_append, hkey, hbase]
    omega
  plain := append_plain (by decide) (hex_plain n)

end Lengths

section Entries
variable {buildtime : CString} {tm : Tm} {dstate : DumpState} {c : Chunk}
  (h : Typed buildtime tm dstate c)
include h

theorem Typed.first_short : ∀ e ∈ firstEntries buildtime tm c, Short e := by
  have hints := h.ints
  simp only [printedInts, List.forall_mem_cons] at hints
  obtain ⟨hyear, hmon, hmday, hhour, hmin, hsec, -⟩ := hints
  simp only [firstEntries, List.forall_mem_cons]
  refine ⟨⟨by decide,by decide⟩,⟨by decide,by decide⟩,⟨?_,h.buildtime_plain⟩,
    number_short (by decide) (asInt_isInt _),time_short ?_,
    number_short (by decide) (asInt_isInt _),fun e he => by cases he⟩
  · have hkey : (CString.lit "software_buildtime").length = 18 := rfl
    rw [line_length, h.buildtime_length, hkey]
    decide
  · simp only [List.forall_mem_cons]
    exact ⟨hyear,hmon,hmday,hhour,hmin,hsec,fun e he => by cases he⟩

theorem Typed.numbers_short : ∀ e ∈ (numberEntries dstate c).map
    (fun e => (⟨e.1,CString.int 0 e.2⟩ : Entry)), Short e := by
  intro e he
  obtain ⟨⟨key, n⟩, hmem, rfl⟩ := List.mem_map.mp he
  have hkeys : ∀ e ∈ numberEntries dstate c, e.1.length ≤ 23 := by
    simp only [numberEntries, List.forall_mem_cons]
    exact ⟨by decide,by decide,by decide,by decide,by decide,by decide,by decide,by decide,
      by decide,by decide,by decide,by decide,by decide,fun e he => by cases he⟩
  have hnumbers : ∀ e ∈ numberEntries dstate c, IsInt e.2 := by
    have hints := h.ints
    simp only [printedInts, List.forall_mem_cons] at hints
    obtain ⟨-, -, -, -, -, -, -, h1, h2, h3, h4, h5, h6, h7, h8, h9, h10, h11, -⟩ := hints
    simp only [numberEntries, List.forall_mem_cons]
    exact ⟨h1,h2,h3,h4,h5,h6,h7,h8,h9,h10,asInt_isInt _,h11,asInt_isInt _,
      fun e he => by cases he⟩
  exact number_short (hkeys _ hmem) (hnumbers _ hmem)

theorem Typed.last_short : ∀ e ∈ lastEntries c, Short e := by
  simp only [lastEntries, List.forall_mem_cons]
  exact ⟨offset_short h.offset,⟨by decide,by decide⟩,⟨by decide,by decide⟩,⟨by decide,by decide⟩,
    ⟨by decide,by decide⟩,⟨by decide,by decide⟩,fun e he => by cases he⟩

end Entries

/-! ## The strings -/

def TextEntry.Fits (e : TextEntry) : Prop :=
  e.key.length + e.before.length + e.text.length + 4 < 512

def TextEntry.Clean (e : TextEntry) : Prop :=
  ∀ line ∈ (Lines.parts NEWLINE e.text.withoutReturns.bytes).tail, keyOf line = none

section Strings
open CString

theorem TextEntry.line_fits_iff (e : TextEntry) : e.entry.line.length < 512 ↔ e.Fits := by
  have hquote : (lit "\"").length = 1 := rfl
  rw [line_length, TextEntry.Fits, TextEntry.entry, length_append, length_append, length_append,
    hquote]
  show e.key.length + (e.before.length + (1 + (e.text.length + 1))) + 2 < 512 ↔ _
  omega

theorem filterMap_quote (text : List Byte) :
    (Lines.parts NEWLINE (text ++ [QUOTE])).tail.filterMap keyOf =
      (Lines.parts NEWLINE text).tail.filterMap keyOf := by
  have hquote : NEWLINE ∉ [QUOTE] := by decide
  rw [Lines.parts_append_last text hquote, Lines.parts]
  cases (Lines.split NEWLINE text).1 with
  | nil => rfl
  | cons first rest =>
    simp only [List.cons_append, List.tail_cons, List.filterMap_append, List.filterMap_cons,
      keyOf_quote]

theorem TextEntry.clean_iff (e : TextEntry) (hbefore : NEWLINE ∉ e.before.bytes) :
    extraKeys e.entry.value = [] ↔ e.Clean := by
  have hquote : (lit "\"").withoutReturns.bytes = [QUOTE] := rfl
  have hplain : NEWLINE ∉ e.before.withoutReturns.bytes ++ [QUOTE] := by
    rw [List.mem_append]
    exact not_or.mpr ⟨newline_withoutReturns hbefore,by decide⟩
  have hvalue : e.entry.value.withoutReturns.bytes =
      (e.before.withoutReturns.bytes ++ [QUOTE]) ++ (e.text.withoutReturns.bytes ++ [QUOTE]) := by
    rw [TextEntry.entry, withoutReturns_append, withoutReturns_append, withoutReturns_append,
      append_bytes, append_bytes, append_bytes, hquote, List.append_assoc]
  obtain ⟨first, rest, hparts, hall⟩ :=
    Lines.parts_append (e.text.withoutReturns.bytes ++ [QUOTE]) hplain
  have htail := filterMap_quote e.text.withoutReturns.bytes
  rw [hparts] at htail
  rw [extraKeys, hvalue, hall, List.tail_cons, TextEntry.Clean, ← List.filterMap_eq_nil_iff, ← htail]
  rfl

theorem textEntries_before (dstate : DumpState) :
    ∀ e ∈ textEntries dstate, NEWLINE ∉ e.before.bytes := by
  simp only [textEntries, List.forall_mem_cons]
  exact ⟨append_plain (int_plain _ _) (by decide),by decide,by decide,by decide,by decide,by decide,
    fun e he => by cases he⟩

end Strings

/-! ## The text of a chunk -/

structure Formatted (lines : List CString) : Prop where
  fits : ∀ line ∈ lines, line.length < 512
  text : ∃ text, metadataText lines = some text ∧ text.length < METADATA_MAXSIZE ∧
    keysOf text.bytes = keys

section Formatted
variable {buildtime : CString} {tm : Tm} {dstate : DumpState} {c : Chunk}

theorem sum_le {α : Type*} (f : α → ℕ) (l : List α) (b : ℕ) (h : ∀ a ∈ l, f a ≤ b) :
    (l.map f).sum ≤ l.length*b := by
  simpa using List.sum_le_card_nsmul (l.map f) b (by simpa using h)

theorem lines_room (h : Typed buildtime tm dstate c)
    (hfits : ∀ e ∈ textEntries dstate, e.Fits) :
    ((metadataLines buildtime tm dstate c).map CString.length).sum < METADATA_MAXSIZE := by
  have hfirst := sum_le (fun e => e.line.length) _ 100 fun e he => (h.first_short e he).length
  have hnumbers := sum_le (fun e => e.line.length) _ 100 fun e he => (h.numbers_short e he).length
  have hlast := sum_le (fun e => e.line.length) _ 100 fun e he => (h.last_short e he).length
  have htext := sum_le (fun e => e.line.length) ((textEntries dstate).map TextEntry.entry) 511
    fun e he => by
      obtain ⟨t, ht, rfl⟩ := List.mem_map.mp he
      exact Nat.le_of_lt_succ (t.line_fits_iff.mpr (hfits t ht))
  have hsizes : (firstEntries buildtime tm c).length*100 +
      ((textEntries dstate).map TextEntry.entry).length*511 +
      ((numberEntries dstate c).map (fun e => (⟨e.1,CString.int 0 e.2⟩ : Entry))).length*100 +
      (lastEntries c).length*100 < METADATA_MAXSIZE := by
    show 6*100+6*511+13*100+6*100 < 8*1024
    decide
  rw [metadataLines_entries, List.map_map]
  show ((entries buildtime tm dstate c).map fun e => e.line.length).sum < METADATA_MAXSIZE
  rw [entries, List.map_append, List.map_append, List.map_append, List.sum_append, List.sum_append,
    List.sum_append]
  omega

theorem lines_fit_iff (h : Typed buildtime tm dstate c) :
    (∀ line ∈ metadataLines buildtime tm dstate c, line.length < 512) ↔
      ∀ e ∈ textEntries dstate, e.Fits := by
  rw [metadataLines_entries, List.forall_mem_map]
  constructor
  · intro hall e he
    refine e.line_fits_iff.mp (hall _ ?_)
    simp only [entries, List.mem_append]
    exact Or.inl (Or.inl (Or.inr (List.mem_map_of_mem he)))
  · intro hall e he
    simp only [entries, List.mem_append] at he
    rcases he with ((he | he) | he) | he
    · have := (h.first_short e he).length
      omega
    · obtain ⟨t, ht, rfl⟩ := List.mem_map.mp he
      exact t.line_fits_iff.mpr (hall t ht)
    · have := (h.numbers_short e he).length
      omega
    · have := (h.last_short e he).length
      omega

theorem extraKeys_iff (h : Typed buildtime tm dstate c) :
    (∀ e ∈ entries buildtime tm dstate c, extraKeys e.value = []) ↔
      ∀ e ∈ textEntries dstate, e.Clean := by
  constructor
  · intro hall e he
    refine (e.clean_iff (textEntries_before dstate e he)).mp (hall _ ?_)
    simp only [entries, List.mem_append]
    exact Or.inl (Or.inl (Or.inr (List.mem_map_of_mem he)))
  · intro hall e he
    simp only [entries, List.mem_append] at he
    rcases he with ((he | he) | he) | he
    · exact (h.first_short e he).noKeys
    · obtain ⟨t, ht, rfl⟩ := List.mem_map.mp he
      exact (t.clean_iff (textEntries_before dstate t ht)).mpr (hall t ht)
    · exact (h.numbers_short e he).noKeys
    · exact (h.last_short e he).noKeys

/-- The text of lines that fit has the keys of its entries and those in its strings. -/
theorem text_keys (h : Typed buildtime tm dstate c) (hfits : ∀ e ∈ textEntries dstate, e.Fits) :
    ∃ text, metadataText (metadataLines buildtime tm dstate c) = some text ∧
      text.length < METADATA_MAXSIZE ∧
      keysOf text.bytes =
        (entries buildtime tm dstate c).flatMap fun e => e.key.bytes::extraKeys e.value := by
  have hlines := (lines_fit_iff h).mpr hfits
  obtain ⟨text, htext, hlen⟩ := metadataText_length _ hlines
  obtain ⟨text', htext', hbytes⟩ := foldlM_bytes METADATA_MAXSIZE _ CString.empty hlines
    (by rw [CString.length, CString.empty_bytes, List.length_nil, Nat.zero_add]; exact lines_room h hfits)
  obtain rfl : text = text' := Option.some.inj (htext.symm.trans htext')
  refine ⟨text,htext,hlen,?_⟩
  rw [hbytes, CString.empty_bytes, List.nil_append, metadataLines_entries, List.flatMap_map]
  exact keysOf_lines _ fun e he => by
    rw [← entries_keys buildtime tm dstate c]
    exact List.mem_map_of_mem he

end Formatted

/-- The metadata is well formatted exactly when every string of the dump fits its
line and shows no key of its own. -/
theorem formatted_iff (buildtime : CString) (tm : Tm) (dstate : DumpState) (c : Chunk)
    (h : Typed buildtime tm dstate c) : Formatted (metadataLines buildtime tm dstate c) ↔
      ∀ e ∈ textEntries dstate, e.Fits ∧ e.Clean := by
  have hkeys : (entries buildtime tm dstate c).flatMap
      (fun e => e.key.bytes::extraKeys e.value) = keys ↔ ∀ e ∈ textEntries dstate, e.Clean := by
    rw [← extraKeys_iff h, ← entries_keys buildtime tm dstate c]
    exact flatMap_cons_eq_map_iff _ _ _
  constructor
  · rintro ⟨hlines, text, htext, -, hshown⟩
    have hfits := (lines_fit_iff h).mp hlines
    obtain ⟨text', htext', -, hall⟩ := text_keys h hfits
    obtain rfl : text = text' := Option.some.inj (htext.symm.trans htext')
    have hclean := hkeys.mp (hall.symm.trans hshown)
    exact fun e he => ⟨hfits e he,hclean e he⟩
  · intro hall
    obtain ⟨text, htext, hlen, hshown⟩ := text_keys h fun e he => (hall e he).1
    exact
      { fits := (lines_fit_iff h).mpr fun e he => (hall e he).1
        text := ⟨text,htext,hlen,hshown.trans (hkeys.mpr fun e he => (hall e he).2)⟩ }

/-! ## Two dumps -/

def pcDump (comment : CString) : DumpState where
  drive_number := 0
  drive_description := CString.lit "PC drive"
  dump_name := CString.lit "untitled"
  dump_comment := comment
  dump_comment2 := CString.empty
  dump_operator := CString.empty
  dump_driveref := CString.empty
  start_track := 0
  max_track := 79
  start_side := 0
  max_side := 1
  index_synced := 1
  index_to_dump_delay := 100000
  time_per_track := 800
  doublestep := 1
  current_track := 0
  current_side := 0

def pcChunk : Chunk where
  chunk_number := 0
  sample_rate_hz := 25000000
  number_of_data_pulses := 1
  number_of_data_samples := 16
  number_of_ios_samples := 1
  memory_dump_offset := 0
  stream := ⟨[byte 0],128,1,1,128,[0,2,4,6,8,10,12,14]⟩
  io_buffer := [0x1234#16]

def buildDate : CString := CString.lit "Sep 13 2023 12:00:00"

def dumpDate : Tm := ⟨123,8,13,12,0,0⟩

theorem pcDump_typed (comment : CString) : Typed buildDate dumpDate (pcDump comment) pcChunk where
  ints := by
    show ∀ n ∈ printedInts dumpDate (pcDump CString.empty) pcChunk, IsInt n
    decide
  offset := by decide
  buildtime_length := rfl
  buildtime_plain := by decide

theorem formatted_pc :
    Formatted (metadataLines buildDate dumpDate (pcDump (CString.lit "side A\nside B")) pcChunk) :=
  (formatted_iff buildDate dumpDate _ pcChunk (pcDump_typed _)).mpr (by
    simp only [textEntries, List.forall_mem_cons]
    refine ⟨⟨?_,?_⟩,⟨?_,?_⟩,⟨?_,?_⟩,⟨?_,?_⟩,⟨?_,?_⟩,⟨?_,?_⟩,fun e he => by cases he⟩
    all_goals simp only [TextEntry.Fits, TextEntry.Clean]; decide)

theorem commentFits_length {text : CString} (h : ∀ e ∈ textEntries (pcDump text), e.Fits) :
    text.length < 496 := by
  simp only [textEntries, List.forall_mem_cons] at h
  obtain ⟨-, -, -, hcomment, -⟩ := h
  have hkey : (CString.lit "dump_comment").length = 12 := rfl
  change (CString.lit "dump_comment").length + 0 + text.length + 4 < 512 at hcomment
  omega

/-- A comment that fits its array can be too long for its line. -/
theorem unformatted_comment : ∃ comment : CString, comment.length = 500 ∧
    ¬Formatted (metadataLines buildDate dumpDate (pcDump comment) pcChunk) := by
  have hterminated : 0#8 ∉ List.replicate 500 0x41#8 := fun h =>
    absurd (List.eq_of_mem_replicate h) (by decide)
  have hlength : CString.length ⟨List.replicate 500 0x41#8,hterminated⟩ = 500 :=
    List.length_replicate
  refine ⟨⟨List.replicate 500 0x41#8,hterminated⟩,hlength,fun h => ?_⟩
  have hshort := commentFits_length ((lines_fit_iff (pcDump_typed _)).mp h.fits)
  omega

end Pauline.Metadata
