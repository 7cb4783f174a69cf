import Pauline.Dump.Chunk

/-!
# Converting a track while it is captured

`readdisk` takes chunks from the dump buffer until the word before the last
has been reached. Every chunk but the last has the fixed length, which the
converter need not round; the last one is rounded up past its end.
-/

set_option autoImplicit false

namespace Pauline.Capture
open Pauline.DeltaCode Pauline.PulseWord Pauline.Track Pauline.DumpChunk

def CHUNK_MAX_SIZE : ℕ := (50000000/16*4)/16/4*4

def sub32 (a b : ℕ) : ℕ := (a+2^32-b) % 2^32

def chunkSize (buffer_size last_dump_offset : ℕ) : ℤ :=
  let left := sub32 buffer_size last_dump_offset
  if left > CHUNK_MAX_SIZE then CHUNK_MAX_SIZE else asInt (sub32 left 4)

/-- One call, once the wait for data has ended. Bit 5 of `floppy_done` is the
index timeout. -/
def getNextAvailableStreamChunk (malloc : ℕ → Bool) (state : FpgaState) :
    Option Chunk × FpgaState :=
  if state.floppy_done.getLsbD 5 then (none, state)
  else
    let samplerate := if state.floppy_ctrl_control.getLsbD 22 then 25000000 else 50000000
    let chunk_size := chunkSize state.floppy_dump_buffer_size state.last_dump_offset
    if chunk_size > 0 then
      match generateChunk malloc state samplerate (state.last_dump_offset/2) chunk_size.toNat with
      | (some ptr, bitdelta) =>
        (some ptr,
          { state with
            bitdelta := bitdelta
            last_dump_offset := (state.last_dump_offset+chunk_size.toNat) % 2^32
            chunk_number := state.chunk_number+1 })
      | (none, bitdelta) => (none, { state with bitdelta := bitdelta })
    else (none, state)

/-- The capture loop of `readdisk` for one track, with the chunks it writes
out. A failed call moves the offset to the end of the buffer. The fuel bounds
the turns; the loop is not known to end for every buffer size. -/
def captureLoop (malloc : ℕ → Bool) : ℕ → FpgaState → Option (List Chunk × FpgaState)
  | 0, _ => none
  | fuel+1, state =>
    if state.last_dump_offset < sub32 state.floppy_dump_buffer_size 4 then
      match getNextAvailableStreamChunk malloc state with
      | (some tmpptr, state) =>
        (captureLoop malloc fuel state).map (fun r => (tmpptr::r.1, r.2))
      | (none, state) =>
        captureLoop malloc fuel { state with last_dump_offset := state.floppy_dump_buffer_size }
    else some ([], state)

def startTrack (state : FpgaState) (buffersize : ℕ) : FpgaState :=
  { state with
    last_dump_offset := 0
    bitdelta := 0
    chunk_number := 0
    floppy_dump_buffer_size := buffersize }

def streamOf (chunks : List Chunk) : List Byte := chunks.flatMap (fun c => c.stream.data_track)

def readsOf (chunks : List Chunk) : List ℕ := chunks.flatMap (fun c => c.stream.reads)

theorem generateChunk_some (malloc : ℕ → Bool) (hm : ∀ n, malloc n = true) (state : FpgaState)
    (rate ptr size : ℕ) (h4 : size % 4 = 0) (hpos : 0 < size) :
    let r := convertWords prepareLUT state.bitdelta
      ((strided ptr (chunkWords size)).map state.dump_buffer)
    ∃ c, generateChunk malloc state rate ptr size = (some c, r.1) ∧
      c.stream.data_track = r.2.flatMap encodeDelta ∧
      c.stream.reads = strided ptr (chunkWords size) := by
  have hc := fastConvertChunk_words malloc state ptr size state.bitdelta h4 hpos (hm _)
  simp only [generateChunk, hc, hm, Bool.and_self, if_true]
  exact ⟨_, rfl, rfl, rfl⟩

structure Underway (size : ℕ) (state : FpgaState) : Prop where
  register : state.floppy_dump_buffer_size = size
  sixteen : size % 16 = 0
  small : size < 2^32
  whole : state.last_dump_offset % 32 = 0
  left : state.last_dump_offset+16 ≤ size
  index_found : state.floppy_done.getLsbD 5 = false

theorem sub32_le (a b : ℕ) (h : b ≤ a) (ha : a < 2^32) : sub32 a b = a-b := by
  unfold sub32
  omega

theorem CHUNK_MAX_SIZE_groups : ∃ k, 0 < k ∧ CHUNK_MAX_SIZE = 32*k ∧ 32*k < 2^31 :=
  ⟨24414, by decide, by decide, by decide⟩

theorem chunkWords_groups (k : ℕ) : chunkWords (32*k) = 8*k := by
  simp only [chunkWords, chunkLen]
  split_ifs <;> omega

def nextSize (size offset : ℕ) : ℕ :=
  if size-offset > CHUNK_MAX_SIZE then CHUNK_MAX_SIZE else size-offset-4

theorem chunkSize_eq {size offset : ℕ} (hsize : size < 2^32) (hle : offset+4 ≤ size) :
    chunkSize size offset = (nextSize size offset : ℤ) := by
  obtain ⟨k, hk, hmax, hksmall⟩ := CHUNK_MAX_SIZE_groups
  simp only [chunkSize, nextSize, sub32_le size offset (by omega) hsize]
  split_ifs with hbig
  · rfl
  · rw [sub32_le _ _ (by omega) (by omega)]
    exact asInt_small _ _ (Nat.mod_eq_of_lt (by omega)) (by omega)

theorem getNext_underway (malloc : ℕ → Bool) (hm : ∀ n, malloc n = true) (size : ℕ)
    (state : FpgaState) (h : Underway size state) :
    let n := nextSize size state.last_dump_offset
    let r := convertWords prepareLUT state.bitdelta
      ((strided (state.last_dump_offset/2) (chunkWords n)).map state.dump_buffer)
    ∃ c, getNextAvailableStreamChunk malloc state =
        (some c,
          { state with
            bitdelta := r.1
            last_dump_offset := state.last_dump_offset+n
            chunk_number := state.chunk_number+1 }) ∧
      c.stream.data_track = r.2.flatMap encodeDelta ∧
      c.stream.reads = strided (state.last_dump_offset/2) (chunkWords n) := by
  obtain ⟨hreg, h16, hsmall, h32, hleft, hidx⟩ := h
  obtain ⟨k, hk, hmax, hksmall⟩ := CHUNK_MAX_SIZE_groups
  have hn : nextSize size state.last_dump_offset % 4 = 0 ∧
      0 < nextSize size state.last_dump_offset ∧
      state.last_dump_offset+nextSize size state.last_dump_offset < 2^32 := by
    unfold nextSize
    rw [hmax]
    split_ifs <;> omega
  have hint := chunkSize_eq hsmall (show state.last_dump_offset+4 ≤ size by omega)
  obtain ⟨c, hc, hdata, hreads⟩ := generateChunk_some malloc hm state
    (if state.floppy_ctrl_control.getLsbD 22 then 25000000 else 50000000)
    (state.last_dump_offset/2) (nextSize size state.last_dump_offset) hn.1 hn.2.1
  refine ⟨c, ?_, hdata, hreads⟩
  have hgo : (nextSize size state.last_dump_offset : ℤ) > 0 := by exact_mod_cast hn.2.1
  simp only [getNextAvailableStreamChunk, hidx, Bool.false_eq_true, if_false, hreg, hint,
    if_pos hgo, Int.toNat_natCast, hc, Nat.mod_eq_of_lt hn.2.2]

def wordsLeft (size offset : ℕ) : ℕ := (size-offset+31)/32*8

/-- The chunks of a track underway: one conversion of all words left,
rounded up to a multiple of eight words. -/
theorem captureLoop_underway (malloc : ℕ → Bool) (hm : ∀ n, malloc n = true) (size fuel : ℕ)
    (state : FpgaState) (h : Underway size state) (hf : size-state.last_dump_offset ≤ fuel) :
    let n := wordsLeft size state.last_dump_offset
    ∃ chunks final, captureLoop malloc fuel state = some (chunks, final) ∧
      streamOf chunks = (convertWords prepareLUT state.bitdelta
        ((strided (state.last_dump_offset/2) n).map state.dump_buffer)).2.flatMap encodeDelta ∧
      readsOf chunks = strided (state.last_dump_offset/2) n := by
  induction fuel generalizing state with
  | zero =>
    have := h.left
    omega
  | succ fuel ih =>
    obtain ⟨c, hc, hdata, hreads⟩ := getNext_underway malloc hm size state h
    obtain ⟨hreg, h16, hsmall, h32, hleft, hidx⟩ := h
    obtain ⟨k, hk, hmax, -⟩ := CHUNK_MAX_SIZE_groups
    have hgo : state.last_dump_offset < sub32 state.floppy_dump_buffer_size 4 := by
      rw [hreg, sub32_le _ _ (by omega) (by omega)]
      omega
    rw [captureLoop, if_pos hgo, hc]
    simp only [nextSize, wordsLeft] at hdata hreads ⊢
    by_cases hbig : size-state.last_dump_offset > CHUNK_MAX_SIZE
    · -- a chunk of fixed length, which is a whole number of groups of eight words
      rw [hmax] at hbig hdata hreads ⊢
      simp only [if_pos hbig, chunkWords_groups] at hdata hreads ⊢
      have hrest := ih
        { state with
          bitdelta := (convertWords prepareLUT state.bitdelta
            ((strided (state.last_dump_offset/2) (8*k)).map state.dump_buffer)).1
          last_dump_offset := state.last_dump_offset+32*k
          chunk_number := state.chunk_number+1 }
        ⟨hreg, h16, hsmall, by dsimp only; omega, by dsimp only; omega, hidx⟩
        (by dsimp only; omega)
      obtain ⟨chunks, final, hrun, hs, hr⟩ := hrest
      have hwords : (size-state.last_dump_offset+31)/32*8 =
          8*k+wordsLeft size (state.last_dump_offset+32*k) := by
        unfold wordsLeft
        omega
      have hptr : state.last_dump_offset/2+2*(8*k) = (state.last_dump_offset+32*k)/2 := by omega
      refine ⟨c::chunks, final, by rw [hrun]; rfl, ?_, ?_⟩
      · rw [streamOf, List.flatMap_cons, ← streamOf, hs, hdata, hwords, strided_append,
          List.map_append, convertWords_append, List.flatMap_append, hptr]
      · rw [readsOf, List.flatMap_cons, ← readsOf, hr, hreads, hwords, strided_append, hptr]
    · -- the last chunk, after which the loop ends
      simp only [if_neg hbig] at hdata hreads ⊢
      have hchunk : chunkWords (size-state.last_dump_offset-4) =
          (size-state.last_dump_offset+31)/32*8 := by
        simp only [chunkWords, chunkLen]
        split_ifs <;> omega
      have hstop : ¬state.last_dump_offset+(size-state.last_dump_offset-4) <
          sub32 state.floppy_dump_buffer_size 4 := by
        rw [hreg, sub32_le _ _ (by omega) (by omega)]
        omega
      obtain ⟨fuel, rfl⟩ : ∃ k, fuel = k+1 := ⟨fuel-1, by omega⟩
      rw [captureLoop, if_neg hstop]
      rw [hchunk] at hdata hreads ⊢
      exact ⟨[c], _, rfl, by simp [streamOf, hdata], by simp [readsOf, hreads]⟩

/-- The chunks amount to a single conversion of the even words before the
last, each read once, and nothing behind the buffer is read. -/
structure SingleConversion (state : FpgaState) (buffersize : ℕ) (chunks : List Chunk) :
    Prop where
  stream : streamOf chunks = (convertWords prepareLUT 0
    ((strided 0 (buffersize/4-1)).map state.dump_buffer)).2.flatMap encodeDelta
  once : (readsOf chunks).Nodup
  none_skipped : ∀ i < buffersize/4-1, 2*i ∈ readsOf chunks
  inside : ∀ a ∈ readsOf chunks, a < buffersize/2

theorem strided_nodup (ptr n : ℕ) : (strided ptr n).Nodup := by
  induction n generalizing ptr with
  | zero => exact List.nodup_nil
  | succ n ih =>
    refine List.nodup_cons.mpr ⟨fun h => ?_, ih _⟩
    obtain ⟨i, -, hi⟩ := (mem_strided _ _ _).mp h
    omega

theorem convertWord_snoc_stream (d : ℕ) (ws : List Word) (w : Word) :
    (convertWords prepareLUT d (ws++[w])).2.flatMap encodeDelta =
      (convertWords prepareLUT d ws).2.flatMap encodeDelta ↔ w = 0#16 := by
  rw [convertWords_append]
  have he := convertWord_emits (convertWords prepareLUT d ws).1 w
  simp only [convertWords, List.append_nil, List.flatMap_append]
  rw [List.append_right_eq_self]
  constructor
  · intro h
    by_contra hw
    obtain ⟨g, hg⟩ := Option.isSome_iff_exists.mp (he.mpr hw)
    rw [hg] at h
    simp [encodeDelta_ne_nil] at h
  · rintro rfl
    rw [convertWord_empty]
    rfl

theorem captureLoop_track (malloc : ℕ → Bool) (hm : ∀ n, malloc n = true) (state : FpgaState)
    (buffersize fuel : ℕ) (h16 : buffersize % 16 = 0) (hpos : 0 < buffersize)
    (hsize : buffersize < 2^32) (hfuel : buffersize ≤ fuel)
    (hindex : state.floppy_done.getLsbD 5 = false) :
    ∃ chunks final, captureLoop malloc fuel (startTrack state buffersize) =
        some (chunks, final) ∧
      streamOf chunks = (convertWords prepareLUT 0
        ((strided 0 ((buffersize+31)/32*8)).map state.dump_buffer)).2.flatMap encodeDelta ∧
      readsOf chunks = strided 0 ((buffersize+31)/32*8) := by
  have h := captureLoop_underway malloc hm buffersize fuel (startTrack state buffersize)
    ⟨rfl, h16, hsize, rfl, by simp only [startTrack]; omega, hindex⟩
    (by simp only [startTrack]; omega)
  simpa only [startTrack, wordsLeft, Nat.sub_zero, Nat.zero_div] using h

theorem captureLoop_timeout (malloc : ℕ → Bool) (state : FpgaState) (buffersize fuel : ℕ)
    (h16 : buffersize % 16 = 0) (hpos : 0 < buffersize) (hsize : buffersize < 2^32)
    (hfuel : buffersize ≤ fuel) (hindex : state.floppy_done.getLsbD 5 = true) :
    ∃ final, captureLoop malloc fuel (startTrack state buffersize) = some ([], final) := by
  obtain ⟨fuel, rfl⟩ : ∃ k, fuel = k+2 := ⟨fuel-2, by omega⟩
  have hsub : sub32 buffersize 4 = buffersize-4 := sub32_le _ _ (by omega) hsize
  have hgo : 0 < buffersize-4 := by omega
  have hstop : ¬buffersize < buffersize-4 := by omega
  simp only [captureLoop, startTrack, getNextAvailableStreamChunk, hindex, if_true, hsub,
    if_pos hgo, if_neg hstop]
  exact ⟨_, rfl⟩

/-- The chunks of a track are one conversion of the buffer exactly when the
index was found, the buffer is a multiple of 32 bytes and the even half of its
last word is zero. -/
theorem capture_single_iff (malloc : ℕ → Bool) (hm : ∀ n, malloc n = true) (state : FpgaState)
    (buffersize fuel : ℕ) (h16 : buffersize % 16 = 0) (hpos : 0 < buffersize)
    (hsize : buffersize < 2^32) (hfuel : buffersize ≤ fuel) :
    ∃ chunks final, captureLoop malloc fuel (startTrack state buffersize) =
        some (chunks, final) ∧
      (SingleConversion state buffersize chunks ↔
        state.floppy_done.getLsbD 5 = false ∧ buffersize % 32 = 0 ∧
          state.dump_buffer (2*(buffersize/4-1)) = 0#16) := by
  cases hindex : state.floppy_done.getLsbD 5 with
  | true =>
    obtain ⟨final, hrun⟩ :=
      captureLoop_timeout malloc state buffersize fuel h16 hpos hsize hfuel hindex
    refine ⟨[], final, hrun, fun h => ?_, fun h => by simp at h⟩
    have hfirst := h.none_skipped 0 (by omega)
    simp [readsOf] at hfirst
  | false =>
  obtain ⟨chunks, final, hrun, hs, hr⟩ :=
    captureLoop_track malloc hm state buffersize fuel h16 hpos hsize hfuel hindex
  refine ⟨chunks, final, hrun, ?_⟩
  constructor
  · rintro ⟨hstream, -, -, hinside⟩
    have h32 : buffersize % 32 = 0 := by
      by_contra hne
      have hlast := hinside (2*(buffersize/4)) (by
        rw [hr, mem_strided]
        exact ⟨buffersize/4, by omega, by omega⟩)
      omega
    refine ⟨rfl, h32, ?_⟩
    rw [hs, show (buffersize+31)/32*8 = buffersize/4-1+1 by omega, strided_append,
      List.map_append] at hstream
    have hw := (convertWord_snoc_stream 0 _ _).mp hstream
    simpa using hw
  · rintro ⟨-, h32, hlast⟩
    have hn : (buffersize+31)/32*8 = buffersize/4-1+1 := by omega
    rw [hn] at hs hr
    refine ⟨?_, by rw [hr]; exact strided_nodup _ _, fun i hi => ?_, fun a ha => ?_⟩
    · rw [hs, strided_append, List.map_append]
      exact (convertWord_snoc_stream 0 _ _).mpr (by simpa using hlast)
    · rw [hr, mem_strided]
      exact ⟨i, by omega, by omega⟩
    · rw [hr, mem_strided] at ha
      obtain ⟨i, hi, rfl⟩ := ha
      omega

def blankDump : FpgaState := smallState fun _ _ => 0#16

def pulseDump : FpgaState :=
  { blankDump with dump_buffer := fun a => if a % 16 = 0 then 0x8000#16 else 0#16 }

theorem capture_single_iff_two_ms :
    ∃ chunks final, captureLoop (fun _ => true) 12512 (startTrack pulseDump 12512) =
        some (chunks, final) ∧ SingleConversion pulseDump 12512 chunks := by
  obtain ⟨chunks, final, hrun, hiff⟩ := capture_single_iff (fun _ => true) (fun _ => rfl) pulseDump
    12512 12512 (by norm_num) (by norm_num) (by norm_num) (by norm_num)
  exact ⟨chunks,final,hrun,hiff.mpr ⟨rfl,by norm_num,rfl⟩⟩

/-- One millisecond at 25 MHz: the last chunk goes on behind the buffer. -/
theorem capture_reads_past_buffer :
    ∃ chunks final, captureLoop (fun _ => true) 6256 (startTrack blankDump 6256) =
        some (chunks, final) ∧ ¬SingleConversion blankDump 6256 chunks := by
  obtain ⟨chunks, final, hrun, -, hr⟩ := captureLoop_track (fun _ => true) (fun _ => rfl)
    blankDump 6256 6256 (by norm_num) (by norm_num) (by norm_num) le_rfl (by rfl)
  refine ⟨chunks, final, hrun, fun h => ?_⟩
  have hpast := h.inside 3128 (by
    rw [hr, mem_strided]
    exact ⟨1564, by norm_num, by norm_num⟩)
  norm_num at hpast

end Pauline.Capture
