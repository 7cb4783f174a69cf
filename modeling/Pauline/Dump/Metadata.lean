import Pauline.Dump.Chunk

/-!
# The text of a chunk

`metadata_catprintf` adds the lines that tell where a chunk comes from, one at a
time, to a text of at most `METADATA_MAXSIZE - 1` characters.
-/

set_option autoImplicit false

namespace Pauline.Metadata
open Pauline.DeltaCode Pauline.DumpChunk

structure CString where
  bytes : List Byte
  terminated : 0#8 ∉ bytes

namespace CString

def length (s : CString) : ℕ := s.bytes.length

def append (s t : CString) : CString :=
  ⟨s.bytes ++ t.bytes,by simp [s.terminated, t.terminated]⟩

instance : Append CString := ⟨append⟩

@[simp] theorem append_bytes (s t : CString) : (s ++ t).bytes = s.bytes ++ t.bytes := rfl

def ofBytes (buf : List Byte) : CString :=
  ⟨buf.takeWhile (· ≠ 0#8),fun h => by
    have hall : (buf.takeWhile (· ≠ 0#8)).all (· ≠ 0#8) = true := List.all_takeWhile
    simpa using List.all_eq_true.mp hall _ h⟩

def lit (s : String) : CString := ofBytes (s.toList.map fun c => byte c.toNat)

def empty : CString := ⟨[],List.not_mem_nil⟩

@[simp] theorem empty_bytes : empty.bytes = [] := rfl

def withoutReturns (s : CString) : CString :=
  ⟨s.bytes.filter (· ≠ 0x0D#8),fun h => s.terminated (List.mem_of_mem_filter h)⟩

def digits (base n : ℕ) : List Byte := (Nat.toDigits base n).map fun c => byte c.toUpper.toNat

def int (width : ℕ) (n : ℤ) : CString :=
  let sign := if n < 0 then [0x2D#8] else []
  ofBytes (sign ++ (digits 10 n.natAbs).leftpad (width - sign.length) 0x30#8)

def hex (n : ℕ) : CString := ofBytes ((digits 16 n).leftpad 8 0x30#8)

end CString

structure DumpState where
  drive_number : ℤ
  drive_description : CString
  dump_name : CString
  dump_comment : CString
  dump_comment2 : CString
  dump_operator : CString
  dump_driveref : CString
  start_track : ℤ
  max_track : ℤ
  start_side : ℤ
  max_side : ℤ
  index_synced : ℤ
  index_to_dump_delay : ℤ
  time_per_track : ℤ
  doublestep : ℤ
  current_track : ℤ
  current_side : ℤ

structure Tm where
  tm_year : ℤ
  tm_mon : ℤ
  tm_mday : ℤ
  tm_hour : ℤ
  tm_min : ℤ
  tm_sec : ℤ

open CString in
def metadataLines (buildtime : CString) (tm : Tm) (dstate : DumpState) (c : Chunk) :
    List CString :=
  let quoted (s : CString) : CString := lit "\"" ++ s ++ lit "\"\n"
  let number (label : String) (n : ℤ) : CString := lit label ++ (int 0 n ++ lit "\n")
  [lit "format_version v1.0\n",
    lit "software_version v1.4.2.1 13 September 2023\n",
    lit "software_buildtime " ++ (buildtime ++ lit "\n"),
    number "chunk_number " (asInt c.chunk_number),
    lit "current_time " ++ (int 0 (tm.tm_year+1900) ++ lit "-" ++ (int 2 (tm.tm_mon+1) ++
      lit "-" ++ (int 2 tm.tm_mday ++ lit " " ++ (int 2 tm.tm_hour ++ lit ":" ++
        (int 2 tm.tm_min ++ lit ":" ++ (int 2 tm.tm_sec ++ lit "\n")))))),
    number "sample_rate_hz " (asInt c.sample_rate_hz),
    lit "floppy_drive " ++ (int 0 dstate.drive_number ++ lit " " ++
      quoted dstate.drive_description),
    lit "drive_reference " ++ quoted dstate.dump_driveref,
    lit "dump_name " ++ quoted dstate.dump_name,
    lit "dump_comment " ++ quoted dstate.dump_comment,
    lit "dump_comment2 " ++ quoted dstate.dump_comment2,
    lit "operator " ++ quoted dstate.dump_operator,
    number "start_track " dstate.start_track,
    number "max_track " dstate.max_track,
    number "double_step " dstate.doublestep,
    number "start_side " dstate.start_side,
    number "max_side " dstate.max_side,
    number "index_synced " dstate.index_synced,
    number "index_to_dump_delay " dstate.index_to_dump_delay,
    number "time_per_track " dstate.time_per_track,
    number "current_track " dstate.current_track,
    number "current_side " dstate.current_side,
    number "number_of_data_pulses " (asInt c.number_of_data_pulses),
    number "number_of_data_samples " c.number_of_data_samples,
    number "number_of_ios_samples " (asInt c.number_of_ios_samples),
    lit "memory_dump_offset 0x" ++ (hex c.memory_dump_offset ++ lit "\n"),
    lit "io_channel 0 floppy_i_index\n",
    lit "io_channel 1 floppy_i_pin02\n",
    lit "io_channel 2 floppy_i_pin34\n",
    lit "io_channel 5 floppy_i_wpt\n",
    lit "io_channel 9 ext_io_i\n"]

def METADATA_MAXSIZE : ℕ := 8*1024

/-- A line that does not fit the text is left out; one that does not fit `temp`
overruns it. -/
def metadataCatprintf (metamaxsize : ℕ) (metabuffer chaine : CString) : Option CString :=
  if chaine.length < 512 then
    let textbuf := chaine.withoutReturns
    if metabuffer.length + textbuf.length < metamaxsize then some (metabuffer ++ textbuf)
    else some metabuffer
  else none

def metadataText (lines : List CString) : Option CString :=
  lines.foldlM (metadataCatprintf METADATA_MAXSIZE) CString.empty

theorem catprintf_length (size : ℕ) (text line : CString) (hline : line.length < 512)
    (h : text.length < size) :
    ∃ text', metadataCatprintf size text line = some text' ∧ text'.length < size := by
  rw [metadataCatprintf, if_pos hline]
  by_cases hroom : text.length + line.withoutReturns.length < size
  · rw [if_pos hroom]
    refine ⟨_,rfl,?_⟩
    rw [CString.length, CString.append_bytes, List.length_append]
    exact hroom
  · rw [if_neg hroom]
    exact ⟨text,rfl,h⟩

theorem foldlM_length (size : ℕ) (lines : List CString) (text : CString)
    (hlines : ∀ line ∈ lines, line.length < 512) (h : text.length < size) :
    ∃ text', lines.foldlM (metadataCatprintf size) text = some text' ∧ text'.length < size := by
  induction lines generalizing text with
  | nil => exact ⟨text,rfl,h⟩
  | cons line lines ih =>
    obtain ⟨hline, hrest⟩ := List.forall_mem_cons.mp hlines
    obtain ⟨text', htext', hlen⟩ := catprintf_length size text line hline h
    rw [List.foldlM_cons, htext']
    exact ih text' hrest hlen

/-- Lines that fit `temp` make a text that fits its buffer, with its 0. -/
theorem metadataText_length (lines : List CString)
    (hlines : ∀ line ∈ lines, line.length < 512) :
    ∃ text, metadataText lines = some text ∧ text.length < METADATA_MAXSIZE :=
  foldlM_length METADATA_MAXSIZE lines CString.empty hlines (by decide)

/-- No line is left out of a text that has room for all. -/
theorem foldlM_bytes (size : ℕ) (lines : List CString) (text : CString)
    (hlines : ∀ line ∈ lines, line.length < 512)
    (h : text.length + (lines.map CString.length).sum < size) :
    ∃ text', lines.foldlM (metadataCatprintf size) text = some text' ∧
      text'.bytes = text.bytes ++ lines.flatMap fun line => line.withoutReturns.bytes := by
  induction lines generalizing text with
  | nil => exact ⟨text,rfl,by simp⟩
  | cons line lines ih =>
    obtain ⟨hline, hrest⟩ := List.forall_mem_cons.mp hlines
    rw [List.map_cons, List.sum_cons] at h
    have hfilter : line.withoutReturns.length ≤ line.length := List.length_filter_le _ _
    have hcat : metadataCatprintf size text line = some (text ++ line.withoutReturns) := by
      rw [metadataCatprintf, if_pos hline]
      exact if_pos (by omega)
    have hlen : (text ++ line.withoutReturns).length = text.length + line.withoutReturns.length :=
      List.length_append
    obtain ⟨text', htext', hbytes⟩ := ih (text ++ line.withoutReturns) hrest (by omega)
    refine ⟨text',?_,?_⟩
    · rw [List.foldlM_cons, hcat]
      exact htext'
    · rw [hbytes, CString.append_bytes, List.append_assoc, List.flatMap_cons]

end Pauline.Metadata
