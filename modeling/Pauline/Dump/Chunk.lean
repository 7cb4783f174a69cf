import Pauline.Stream.Track

/-!
# Dump chunks

A dump is converted chunk by chunk while it is captured. `fastConvertChunk`
carries `bitdelta`, the samples since the last pulse, from one chunk to the
next; `generateChunk` adds what goes into the metadata and the other input
lines. Packing the chunk into its block is separate from its contents.
-/

set_option autoImplicit false

namespace Pauline.DumpChunk
open Pauline.DeltaCode Pauline.PulseWord Pauline.Track

/-- The byte length the converter allocates and walks: half the chunk,
rounded up to a multiple of sixteen. -/
def chunkLen (track_size : ℕ) : ℕ :=
  let final_track_len := track_size/2
  if final_track_len % 16 ≠ 0 then final_track_len/16*16+0x10 else final_track_len

structure ChunkStream where
  data_track : List Byte
  tracksize : ℕ
  outbuffersize : ℕ
  number_of_pulses : ℕ
  prev_bitdelta : ℕ
  reads : List ℕ

def fastConvertChunk (malloc : ℕ → Bool) (state : FpgaState) (chunk_ptr track_size
    prev_bitdelta : ℕ) : Option ChunkStream :=
  let final_track_len := chunkLen track_size
  if malloc final_track_len then
    let s := fastLoop state.conv_lut state.dump_buffer final_track_len
      ⟨chunk_ptr, 0, prev_bitdelta, 0, [], []⟩
    some ⟨s.data_track, final_track_len*8, s.data_track.length, s.nb_pulses, s.bits_delta, s.reads⟩
  else none

def chunkWords (track_size : ℕ) : ℕ := chunkLen track_size/2

theorem chunkLen_even (track_size : ℕ) : chunkLen track_size = 2*chunkWords track_size := by
  simp only [chunkWords, chunkLen]
  split_ifs <;> omega

theorem chunkWords_pos (track_size : ℕ) (h4 : track_size % 4 = 0) (hpos : 0 < track_size) :
    0 < chunkWords track_size := by
  simp only [chunkWords, chunkLen]
  split_ifs <;> omega

theorem fastConvertChunk_words (malloc : ℕ → Bool) (state : FpgaState) (ptr size d : ℕ)
    (h4 : size % 4 = 0) (hpos : 0 < size) (hm : malloc (chunkLen size) = true) :
    let r := convertWords prepareLUT d ((strided ptr (chunkWords size)).map state.dump_buffer)
    fastConvertChunk malloc state ptr size d =
      some ⟨r.2.flatMap encodeDelta, chunkLen size*8, (r.2.flatMap encodeDelta).length,
        r.2.length, r.1, strided ptr (chunkWords size)⟩ := by
  have hn := chunkWords_pos size h4 hpos
  rw [chunkLen_even] at hm
  simp only [fastConvertChunk, chunkLen_even, hm, if_true, fastLoop_words _ _ _ hn,
    fastBody_iterate, state.conv_lut_prepared, List.nil_append, Nat.zero_add]

/-! ## The chunk handed to the packer -/

def LZ4_compressBound (isize : ℕ) : ℕ :=
  if 0x7E000000 < isize then 0 else isize+isize/255+16

def asInt (x : ℕ) : ℤ := (BitVec.ofNat 32 x).toInt

theorem asInt_lt (x : ℕ) : asInt x < 2^31 := by
  have h := BitVec.toInt_lt (x := BitVec.ofNat 32 x)
  simpa [asInt] using h

theorem asInt_small (x n : ℕ) (hx : x % 2^32 = n) (hn : n < 2^31) : asInt x = n := by
  rw [asInt, BitVec.toInt_ofNat', Int.bmod_def]
  omega

def numberOfDataSamples (prev_bitdelta chunk_size bitdelta : ℕ) : ℤ :=
  asInt (prev_bitdelta+chunk_size/4*16+(2^32-bitdelta % 2^32))

structure Chunk where
  chunk_number : ℕ
  sample_rate_hz : ℕ
  number_of_data_pulses : ℕ
  number_of_data_samples : ℤ
  number_of_ios_samples : ℕ
  memory_dump_offset : ℕ
  stream : ChunkStream
  io_buffer : List Word

/-- The chunk, when every allocation succeeds, and the `bitdelta` left behind,
which has moved on even when a later allocation fails. -/
def generateChunk (malloc : ℕ → Bool) (state : FpgaState) (sample_rate_hz data_in chunk_size : ℕ) :
    Option Chunk × ℕ :=
  match fastConvertChunk malloc state data_in chunk_size state.bitdelta with
  | none => (none, state.bitdelta)
  | some converted =>
    let temp_size := LZ4_compressBound converted.outbuffersize +
      LZ4_compressBound (chunk_size/2) + 8*1024 + 1024
    if malloc temp_size && malloc (chunk_size/2) then
      (some
        { chunk_number := state.chunk_number
          sample_rate_hz := sample_rate_hz
          number_of_data_pulses := converted.number_of_pulses
          number_of_data_samples :=
            numberOfDataSamples state.bitdelta chunk_size converted.prev_bitdelta
          number_of_ios_samples := chunk_size/4
          memory_dump_offset := state.last_dump_offset
          stream := converted
          io_buffer := (List.range (chunk_size/4)).map
            (fun i => state.dump_buffer (data_in+1+i*2)) },
        converted.prev_bitdelta)
    else (none, converted.prev_bitdelta)

/-! ## Sample accounting of one conversion -/

def streamDeltas (c : ChunkStream) : List ℕ :=
  CodeStream.readMany (readCode fun i => c.data_track.getD i 0) c.number_of_pulses 0

theorem readMany_saturated (u : ℕ → Byte) (k : ℕ) (ds : List ℕ)
    (hu : CodeStream.Holds u k (ds.flatMap encodeDelta)) :
    CodeStream.readMany (readCode u) ds.length k = ds.map (min · maxDelta) := by
  have hf : ds.flatMap encodeDelta = (ds.map (min · maxDelta)).flatMap encodeDelta := by
    rw [List.flatMap_map]
    exact List.flatMap_congr (fun d _ => encodeDelta_saturates d)
  rw [hf] at hu
  have hle : ∀ d ∈ ds.map (min · maxDelta), d ≤ maxDelta := by
    intro d hd
    obtain ⟨e, -, rfl⟩ := List.mem_map.mp hd
    exact Nat.min_le_right _ _
  have hr := readMany_encodeDelta u k (ds.map (min · maxDelta)) hle hu
  rwa [List.length_map] at hr

theorem streamDeltas_words (malloc : ℕ → Bool) (state : FpgaState) (ptr size d : ℕ)
    (c : ChunkStream) (h4 : size % 4 = 0) (hpos : 0 < size)
    (hc : fastConvertChunk malloc state ptr size d = some c) :
    let r := convertWords prepareLUT d ((strided ptr (chunkWords size)).map state.dump_buffer)
    streamDeltas c = r.2.map (min · maxDelta) ∧ c.prev_bitdelta = r.1 ∧
      c.reads = strided ptr (chunkWords size) ∧ c.data_track = r.2.flatMap encodeDelta := by
  have hm : malloc (chunkLen size) = true := by
    by_contra hm
    rw [fastConvertChunk, if_neg hm] at hc
    cases hc
  have hw := fastConvertChunk_words malloc state ptr size d h4 hpos hm
  rw [hc] at hw
  obtain rfl := Option.some.inj hw
  refine ⟨?_, rfl, rfl, rfl⟩
  apply readMany_saturated
  apply CodeStream.holds_of_get
  intro i hi
  rw [Nat.zero_add]
  simp only [List.getD_eq_getElem?_getD, List.getElem?_eq_getElem hi, Option.getD_some]

end Pauline.DumpChunk
