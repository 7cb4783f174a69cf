import Pauline.Library.Buffer

/-!
# The reads of the preview thread

`ImageGeneratorThreadProc` reads the first chunk of a file by the size in its
header and, when the library accepts the chunk, the whole file. Both go to
buffers of 1 MiB.
-/

set_option autoImplicit false

namespace Pauline.PreviewReader
open Buffer

abbrev BUFFER_SIZE : ℕ := 1024*1024

abbrev HEADER_SIZE : ℕ := 12

/-- An open file. The program has no large file support: the file is smaller
than 2 GiB. -/
structure OpenFile where
  bytes : List (BitVec 8)
  small : bytes.length < 2^31

structure Read where
  offset : ℕ
  stored : ℕ

def fread (offset size position : ℕ) (f : OpenFile) : Read × Bool :=
  (⟨offset,min size (f.bytes.length - position)⟩,
    size ≠ 0 && size ≤ f.bytes.length - position)

def chunkSize (f : OpenFile) : BitVec 32 := BitVec.ofNat 32 (get32 (f.bytes.drop 4))

structure Turn where
  reads : List Read
  /-- The values of `ch->size` used as a length. -/
  lengths : List ℕ

def preview (inits : Bool) (imports : List (BitVec 8) → Bool) (f : OpenFile) : Turn :=
  let (header, ret) := fread 0 HEADER_SIZE 0 f
  if ret then
    if (chunkSize f).toInt ≤ f.bytes.length then
      let (body, ret) := fread HEADER_SIZE (chunkSize f - 12).toNat HEADER_SIZE f
      if ret && inits && imports (f.bytes.take (chunkSize f).toNat) then
        -- `ch->size = current_file_size`, and both offsets are 0
        let (track, _) := fread 0 f.bytes.length 0 f
        ⟨[header,body,track],[(chunkSize f).toNat,f.bytes.length]⟩
      else ⟨[header,body],[(chunkSize f).toNat]⟩
    else ⟨[header],[]⟩
  else ⟨[header],[]⟩

structure Safe (t : Turn) : Prop where
  reads : ∀ r ∈ t.reads, r.offset + r.stored ≤ BUFFER_SIZE
  lengths : ∀ n ∈ t.lengths, HEADER_SIZE ≤ n

def Imported (inits : Bool) (imports : List (BitVec 8) → Bool) (f : OpenFile) : Prop :=
  HEADER_SIZE < (chunkSize f).toNat ∧ (chunkSize f).toNat ≤ f.bytes.length ∧ inits = true ∧
    imports (f.bytes.take (chunkSize f).toNat) = true

/-- There is no header, or its size is over the file's, or it covers the header and
what there is of the chunk has room, as has the file when the chunk is imported. -/
def Fits (inits : Bool) (imports : List (BitVec 8) → Bool) (f : OpenFile) : Prop :=
  f.bytes.length < HEADER_SIZE ∨ (f.bytes.length : ℤ) < (chunkSize f).toInt ∨
    HEADER_SIZE ≤ (chunkSize f).toNat ∧ min (chunkSize f).toNat f.bytes.length ≤ BUFFER_SIZE ∧
      (Imported inits imports f → f.bytes.length ≤ BUFFER_SIZE)

theorem header_fits : HEADER_SIZE ≤ BUFFER_SIZE := by decide

section Preview
variable {inits : Bool} {imports : List (BitVec 8) → Bool} {f : OpenFile}

theorem header_complete : (fread 0 HEADER_SIZE 0 f).2 = true ↔ HEADER_SIZE ≤ f.bytes.length := by
  simp [fread]

theorem safe_header : Safe ⟨[(fread 0 HEADER_SIZE 0 f).1],[]⟩ where
  reads r hr := by
    have hroom := header_fits
    obtain rfl := List.mem_singleton.mp hr
    show 0 + min HEADER_SIZE (f.bytes.length - 0) ≤ BUFFER_SIZE
    omega
  lengths n hn := by cases hn

/-- The length of the second read, when the size covers the header. -/
theorem rest_toNat (h : HEADER_SIZE ≤ (chunkSize f).toNat) :
    (chunkSize f - 12).toNat = (chunkSize f).toNat - HEADER_SIZE := by
  have htwelve : (12 : BitVec 32).toNat = HEADER_SIZE := rfl
  have hheader : HEADER_SIZE = 12 := rfl
  have hlt := (chunkSize f).isLt
  rw [BitVec.toNat_sub, htwelve]
  omega

theorem body_end (h : HEADER_SIZE ≤ (chunkSize f).toNat) (hlen : HEADER_SIZE ≤ f.bytes.length) :
    (fread HEADER_SIZE (chunkSize f - 12).toNat HEADER_SIZE f).1.offset +
      (fread HEADER_SIZE (chunkSize f - 12).toNat HEADER_SIZE f).1.stored =
    min (chunkSize f).toNat f.bytes.length := by
  simp only [fread, rest_toNat h]
  omega

theorem body_complete (h : HEADER_SIZE ≤ (chunkSize f).toNat) :
    ((fread HEADER_SIZE (chunkSize f - 12).toNat HEADER_SIZE f).2 && inits &&
      imports (f.bytes.take (chunkSize f).toNat)) = true ↔ Imported inits imports f := by
  simp only [fread, rest_toNat h, Imported, Bool.and_eq_true, decide_eq_true_eq, ne_eq, and_assoc]
  refine ⟨fun ⟨h1, h2, h3, h4⟩ => ⟨?_,?_,h3,h4⟩,fun ⟨h1, h2, h3, h4⟩ => ⟨?_,?_,h3,h4⟩⟩ <;> omega

theorem preview_chunk (hlen : HEADER_SIZE ≤ f.bytes.length)
    (hsize : (chunkSize f).toInt ≤ f.bytes.length) (hcover : HEADER_SIZE ≤ (chunkSize f).toNat) :
    Safe (preview inits imports f) ↔
      min (chunkSize f).toNat f.bytes.length ≤ BUFFER_SIZE ∧
        (Imported inits imports f → f.bytes.length ≤ BUFFER_SIZE) := by
  have hend := body_end hcover hlen
  have hheader : (fread 0 HEADER_SIZE 0 f).1.offset + (fread 0 HEADER_SIZE 0 f).1.stored ≤
      BUFFER_SIZE := safe_header.reads _ (List.mem_singleton.mpr rfl)
  have htrack : (fread 0 f.bytes.length 0 f).1.offset + (fread 0 f.bytes.length 0 f).1.stored =
      f.bytes.length := by
    show 0 + min f.bytes.length (f.bytes.length - 0) = f.bytes.length
    omega
  simp only [preview, header_complete.mpr hlen, if_true, if_pos hsize]
  by_cases himp : Imported inits imports f
  · rw [if_pos ((body_complete hcover).mpr himp)]
    constructor
    · intro h
      have hbody := h.reads _ (List.mem_cons_of_mem _ List.mem_cons_self)
      have hfile := h.reads _ (List.mem_cons_of_mem _ (List.mem_cons_of_mem _ List.mem_cons_self))
      rw [hend] at hbody
      rw [htrack] at hfile
      exact ⟨hbody,fun _ => hfile⟩
    · intro h
      refine ⟨fun r hr => ?_,fun n hn => ?_⟩
      · simp only [List.mem_cons, List.not_mem_nil, or_false] at hr
        rcases hr with rfl | rfl | rfl
        · exact hheader
        · exact hend.trans_le h.1
        · exact htrack.trans_le (h.2 himp)
      · simp only [List.mem_cons, List.not_mem_nil, or_false] at hn
        rcases hn with rfl | rfl
        · exact hcover
        · exact hlen
  · rw [if_neg (fun h => himp ((body_complete hcover).mp h))]
    constructor
    · intro h
      have hbody := h.reads _ (List.mem_cons_of_mem _ List.mem_cons_self)
      rw [hend] at hbody
      exact ⟨hbody,fun h => absurd h himp⟩
    · intro h
      refine ⟨fun r hr => ?_,fun n hn => ?_⟩
      · simp only [List.mem_cons, List.not_mem_nil, or_false] at hr
        rcases hr with rfl | rfl
        · exact hheader
        · exact hend.trans_le h.1
      · obtain rfl := List.mem_singleton.mp hn
        exact hcover

theorem preview_short (hlen : HEADER_SIZE ≤ f.bytes.length)
    (hsize : (chunkSize f).toInt ≤ f.bytes.length) (hshort : (chunkSize f).toNat < HEADER_SIZE) :
    ¬Safe (preview inits imports f) := by
  intro h
  have huse : (chunkSize f).toNat ∈ (preview inits imports f).lengths := by
    simp only [preview, header_complete.mpr hlen, if_true, if_pos hsize]
    split_ifs <;> exact List.mem_cons_self
  exact absurd (h.lengths _ huse) (by omega)

end Preview

/-- The reads are safe exactly for the files that fit. -/
theorem preview_safe_iff (inits : Bool) (imports : List (BitVec 8) → Bool) (f : OpenFile) :
    Safe (preview inits imports f) ↔ Fits inits imports f := by
  by_cases hlen : HEADER_SIZE ≤ f.bytes.length
  · by_cases hsize : (chunkSize f).toInt ≤ f.bytes.length
    · by_cases hcover : HEADER_SIZE ≤ (chunkSize f).toNat
      · rw [preview_chunk hlen hsize hcover, Fits]
        constructor
        · exact fun h => Or.inr (Or.inr ⟨hcover,h⟩)
        · rintro (h | h | h)
          · omega
          · omega
          · exact h.2
      · refine iff_of_false (preview_short hlen hsize (by omega)) ?_
        rintro (h | h | h) <;> omega
    · have hover : (f.bytes.length : ℤ) < (chunkSize f).toInt := by omega
      refine iff_of_true ?_ (Or.inr (Or.inl hover))
      simp only [preview, header_complete.mpr hlen, if_true, if_neg hsize]
      exact safe_header
  · refine iff_of_true ?_ (Or.inl (by omega))
    have hshort : (fread 0 HEADER_SIZE 0 f).2 = false := by
      rw [Bool.eq_false_iff]
      exact fun h => hlen (header_complete.mp h)
    simp only [preview, hshort, Bool.false_eq_true, if_false]
    exact safe_header

theorem chunkSize_zeros (n : ℕ) (h : (List.replicate n (0 : BitVec 8)).length < 2^31) :
    chunkSize ⟨List.replicate n 0,h⟩ = 0 := by
  have hzero : ∀ k, get32 (List.replicate k (0 : BitVec 8)) = 0 := fun k => by
    rw [get32, List.take_replicate]
    generalize min 4 k = j
    induction j with
    | zero => rfl
    | succ j ih => simpa [List.replicate_succ] using ih
  rw [chunkSize, List.drop_replicate, hzero]
  rfl

/-- A file of zeros longer than the buffer is read to its end. -/
theorem preview_overruns : ¬∀ inits imports f, Safe (preview inits imports f) := by
  intro hall
  have hsmall : (List.replicate (BUFFER_SIZE+1) (0 : BitVec 8)).length < 2^31 := by
    rw [List.length_replicate]
    norm_num
  have hzero := chunkSize_zeros (BUFFER_SIZE+1) hsmall
  refine preview_short ?_ ?_ ?_ (hall true (fun _ => true) ⟨_,hsmall⟩)
  · rw [List.length_replicate]
    norm_num
  · rw [hzero]
    exact Int.natCast_nonneg _
  · rw [hzero]
    decide

end Pauline.PreviewReader
