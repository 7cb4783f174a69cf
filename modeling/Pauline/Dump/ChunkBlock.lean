import Pauline.Library.Buffer
import Pauline.Dump.Crc32
import Pauline.Dump.Metadata

/-!
# The block of a chunk

`generate_chunk` lays out a block with a header, the text, the packed stream, the
packed words of the other inputs and a check word. A reader walks it by the size
fields.
-/

set_option autoImplicit false

namespace Pauline.ChunkBlock
open Buffer Pauline.DeltaCode Pauline.PulseWord Pauline.Track Pauline.DumpChunk
open Pauline.Crc32 Pauline.Metadata

/-! ## The packer -/

def LZ4_MAX_INPUT_SIZE : ℕ := 0x7E000000

structure LZ4 where
  /-- What `LZ4_compress_default` returns the length of, for a capacity. -/
  compress : List Byte → ℤ → List Byte
  /-- What it leaves behind it, within the bound. -/
  scratch : List Byte → ℤ → ℕ → Byte → Byte
  decompress : List Byte → ℕ → Option (List Byte)
  bounded : ∀ src cap, src.length ≤ LZ4_MAX_INPUT_SIZE →
    (LZ4_compressBound src.length : ℤ) ≤ cap →
      (compress src cap).length ≤ LZ4_compressBound src.length
  inverts : ∀ src cap, src.length ≤ LZ4_MAX_INPUT_SIZE →
    (LZ4_compressBound src.length : ℤ) ≤ cap →
      decompress (compress src cap) src.length = some src

def LZ4.store (lz4 : LZ4) (src : List Byte) (cap : ℤ) (dst : ℕ) (mem : ℕ → Byte) : ℕ → Byte :=
  put (fill mem dst (dst + LZ4_compressBound src.length) (lz4.scratch src cap)) dst
    (lz4.compress src cap)

/-! ## The writer -/

def HXCSTREAM_HEADERSIGN : ℕ := 0x484B4843
def METADATA_ID : ℕ := 0
def PACKEDIOSTREAM_ID : ℕ := 1
def PACKEDSTREAM_ID : ℕ := 2

def padding (size : ℕ) : ℕ := (4 - size % 4) % 4

def tempSize (outbuffersize chunk_size : ℕ) : ℕ :=
  LZ4_compressBound outbuffersize + LZ4_compressBound (chunk_size/2) + 8*1024 + 1024

structure Layout where
  text : ℕ
  packed : ℕ
  iopacked : ℕ

namespace Layout

def metaSize (l : Layout) : ℕ := l.text + padding l.text

def pstream (l : Layout) : ℕ := 12 + (8 + l.metaSize)

def streamSize (l : Layout) : ℕ := 4*3 + l.packed + padding l.packed

def pio (l : Layout) : ℕ := l.pstream + (8 + l.streamSize)

def ioSize (l : Layout) : ℕ := 4*2 + l.iopacked + padding (4*2 + l.iopacked)

def totalSize (l : Layout) : ℕ := l.pio + (8 + l.ioSize) + 4

end Layout

def storeBlocks (lz4 : LZ4) (junk : ℕ → Byte) (text : CString) (c : Chunk) (chunk_size : ℕ) :
    (ℕ → Byte) × Layout :=
  let temp_size := asInt (tempSize c.stream.outbuffersize chunk_size)
  let stream := c.stream.data_track
  let io := c.io_buffer.flatMap le16
  let textSize := text.length + 1
  let atStream : Layout := ⟨textSize,0,0⟩
  let packed := lz4.compress stream (temp_size - atStream.pstream)
  let atIo : Layout := ⟨textSize,packed.length,0⟩
  let iopacked := lz4.compress io (temp_size - atIo.pio)
  let l : Layout := ⟨textSize,packed.length,iopacked.length⟩
  let mem := put junk 20 (text.bytes ++ List.replicate (METADATA_MAXSIZE - text.length) 0#8)
  let mem := put mem 12 (words [METADATA_ID,l.metaSize])
  let mem := lz4.store stream (temp_size - atStream.pstream) (l.pstream + 20) mem
  let mem := put mem l.pstream
    (words [PACKEDSTREAM_ID,l.streamSize,l.packed,stream.length,c.stream.number_of_pulses])
  let mem := lz4.store io (temp_size - atIo.pio) (l.pio + 16) mem
  let mem := put mem l.pio (words [PACKEDIOSTREAM_ID,l.ioSize,l.iopacked,chunk_size/2])
  (put mem 0 (words [HXCSTREAM_HEADERSIGN,l.totalSize,c.chunk_number]),l)

def packChunk (lz4 : LZ4) (junk : ℕ → Byte) (text : CString) (c : Chunk) (chunk_size : ℕ) :
    (ℕ → Byte) × Layout :=
  let r := storeBlocks lz4 junk text c chunk_size
  let crc := stdCrc32 0xFFFFFFFF#32 (slice r.1 0 (r.2.totalSize - 4))
  (put r.1 (r.2.totalSize - 4) (le32 crc.toNat),r.2)

def generateBlock (lz4 : LZ4) (malloc : ℕ → Bool) (junk : ℕ → Byte) (buildtime : CString) (tm : Tm)
    (dstate : DumpState) (state : FpgaState) (sample_rate_hz data_in chunk_size : ℕ) :
    Option (List Byte) :=
  (generateChunk malloc state sample_rate_hz data_in chunk_size).1.bind fun c =>
    (metadataText (metadataLines buildtime tm dstate c)).map fun text =>
      let r := packChunk lz4 junk text c chunk_size
      slice r.1 0 r.2.totalSize

/-! ## The reader -/

structure Block where
  type : ℕ
  payload : List Byte
deriving DecidableEq

structure Container where
  packet_number : ℕ
  blocks : List Block
  crc : ℕ
deriving DecidableEq

def walkBlocks (rest : List Byte) : Option (List Block) :=
  if rest = [] then some []
  else
    let size := get32 (rest.drop 4)
    if 8+size ≤ rest.length ∧ size % 4 = 0 then
      (walkBlocks (rest.drop (8+size))).map (⟨get32 rest,(rest.drop 8).take size⟩ :: ·)
    else none
termination_by rest.length
decreasing_by
  have := List.length_pos_iff.mpr ‹_›
  rw [List.length_drop]
  omega

def walk (block : List Byte) : Option Container :=
  if 16 ≤ block.length ∧ get32 block = HXCSTREAM_HEADERSIGN ∧
      get32 (block.drop 4) = block.length then
    (walkBlocks ((block.take (block.length-4)).drop 12)).map fun blocks =>
      ⟨get32 (block.drop 8),blocks,get32 (block.drop (block.length-4))⟩
  else none

/-- What is packed in a payload, behind a head of `head` words: the packed size,
the unpacked size, and in a stream block the number of pulses. -/
def unpack (lz4 : LZ4) (head : ℕ) (payload : List Byte) : Option (List Byte) :=
  lz4.decompress ((payload.drop (4*head)).take (get32 payload)) (get32 (payload.drop 4))

/-! ## The stream fits its buffer -/

/-- Three more bytes than words are enough for the first code, and each code
after it takes as many words as it has bytes. -/
theorem convertWords_bytes (d : ℕ) (ws : List Word) :
    ((convertWords prepareLUT d ws).2.flatMap encodeDelta).length ≤
      ws.length + min 3 (d/32) := by
  have hcode : ∀ d b : ℕ, b < 16 → (encodeDelta ((d+b) % 2^32)).length ≤ 1 + min 3 (d/32) := by
    intro d b hb
    have hmod : (d+b) % 2^32 ≤ d+b := Nat.mod_le _ _
    unfold encodeDelta
    split_ifs <;> simp only [List.length_cons, List.length_nil] <;> omega
  have hplain : ∀ d : ℕ, (encodeDelta d).length ≤ 1 + min 3 (d/32) := by
    intro d
    unfold encodeDelta
    split_ifs <;> simp only [List.length_cons, List.length_nil] <;> omega
  induction ws generalizing d with
  | nil => simp [convertWords]
  | cons w ws ih =>
    by_cases hw : w = 0#16
    · subst hw
      have h := ih ((d+16) % 2^32)
      have hmod : (d+16) % 2^32 ≤ d+16 := Nat.mod_le _ _
      rw [convertWords, convertWord_empty]
      simp only [Option.toList_none, List.nil_append, List.length_cons]
      omega
    · obtain ⟨b, hb⟩ | hmany : (∃ b, cells w = [b]) ∨ 1 < (cells w).length := by
        cases hc : cells w with
        | nil => exact absurd ((cells_eq_nil w).mp hc) hw
        | cons b bs =>
          cases bs with
          | nil => exact Or.inl ⟨b,rfl⟩
          | cons _ _ => exact Or.inr (by simp)
      · have h := ih (16-b)
        have hlt := (single_toNat w b hb).1
        have hone := hcode d b hlt
        have hmin : min 3 ((16-b)/32) = 0 := by omega
        rw [hmin] at h
        rw [convertWords, convertWord_single d w b hb]
        simp only [Option.toList_some, List.singleton_append, List.flatMap_cons,
          List.length_append, List.length_cons]
        omega
      · have h := ih 0
        have hone := hplain d
        rw [convertWords, convertWord_several d w hmany]
        simp only [Option.toList_some, List.singleton_append, List.flatMap_cons,
          List.length_append, List.length_cons]
        omega

theorem chunkWords_ge (size : ℕ) (h4 : size % 4 = 0) (hpos : 0 < size) :
    8 ≤ chunkWords size := by
  simp only [chunkWords, chunkLen]
  split_ifs <;> omega

theorem fastConvertChunk_length (malloc : ℕ → Bool) (state : FpgaState) (ptr size d : ℕ)
    (s : ChunkStream) (h4 : size % 4 = 0) (hpos : 0 < size)
    (hs : fastConvertChunk malloc state ptr size d = some s) :
    s.outbuffersize = s.data_track.length ∧ s.data_track.length ≤ chunkLen size := by
  have hm : malloc (chunkLen size) = true := by
    by_contra hm
    rw [fastConvertChunk, if_neg hm] at hs
    cases hs
  have hw := fastConvertChunk_words malloc state ptr size d h4 hpos hm
  rw [hs] at hw
  obtain rfl := Option.some.inj hw
  refine ⟨rfl,?_⟩
  have h := convertWords_bytes d ((strided ptr (chunkWords size)).map state.dump_buffer)
  rw [List.length_map, strided_length] at h
  have := chunkWords_ge size h4 hpos
  have := chunkLen_even size
  simp only
  omega

/-! ## What stands in the block -/

/-- The stores one after the other, for any contents of the given lengths. -/
theorem stores_body (junk : ℕ → Byte) (T W2 P W5 Q W4 W3 : List Byte) (f g : ℕ → Byte → Byte)
    (ms pad pad' boundP boundQ : ℕ) (hT : ms ≤ T.length) (hW2 : W2.length = 8)
    (hW5 : W5.length = 20) (hW4 : W4.length = 16) (hW3 : W3.length = 12) :
    let ps := 20+ms
    let pio := ps+20+P.length+pad
    let mem := put (put junk 20 T) 12 W2
    let mem := put (put (fill mem (ps+20) (ps+20+boundP) f) (ps+20) P) ps W5
    let mem := put (put (fill mem (pio+16) (pio+16+boundQ) g) (pio+16) Q) pio W4
    let mem := put mem 0 W3
    ∃ S S' : List Byte, S.length = pad ∧ S'.length = pad' ∧
      slice mem 0 (pio+16+Q.length+pad') =
        W3 ++ ((W2 ++ T.take ms) ++ ((W5 ++ (P ++ S)) ++ (W4 ++ (Q ++ S')))) := by
  intro ps pio mem₁ mem₂ mem₃ mem
  have hps : ps = 20+ms := rfl
  have hpio : pio = ps+20+P.length+pad := rfl
  have h3 : slice mem 0 12 = W3 := slice_put _ 0 12 W3 hW3.symm
  have h2 : slice mem 12 8 = W2 := by
    simp (disch := omega) only [mem, mem₃, mem₂, mem₁, slice_put_apart, slice_fill_apart]
    exact slice_put _ 12 8 W2 hW2.symm
  have hT' : slice mem 20 ms = T.take ms := by
    simp (disch := omega) only [mem, mem₃, mem₂, mem₁, slice_put_apart, slice_fill_apart]
    exact slice_put_take _ 20 ms T hT
  have h5 : slice mem ps 20 = W5 := by
    simp (disch := omega) only [mem, mem₃, mem₂, slice_put_apart, slice_fill_apart]
    exact slice_put _ ps 20 W5 hW5.symm
  have hP : slice mem (ps+20) P.length = P := by
    simp (disch := omega) only [mem, mem₃, mem₂, slice_put_apart, slice_fill_apart]
    exact slice_put _ (ps+20) P.length P rfl
  have h4 : slice mem pio 16 = W4 := by
    simp (disch := omega) only [mem, mem₃, slice_put_apart]
    exact slice_put _ pio 16 W4 hW4.symm
  have hQ : slice mem (pio+16) Q.length = Q := by
    simp (disch := omega) only [mem, mem₃, slice_put_apart]
    exact slice_put _ (pio+16) Q.length Q rfl
  refine ⟨slice mem (ps+20+P.length) pad,slice mem (pio+16+Q.length) pad',by simp,by simp,?_⟩
  have htotal : pio+16+Q.length+pad' =
      12+((8+ms)+((20+(P.length+pad))+(16+(Q.length+pad')))) := by omega
  rw [htotal, slice_add, h3, slice_add, slice_add, slice_add, slice_add, slice_add, slice_add,
    slice_add]
  simp only [Nat.zero_add]
  rw [h2, hT', show 12+(8+ms) = ps by omega, h5, hP,
    show ps+(20+(P.length+pad)) = pio by omega, h4, hQ]

def blockBytes (b : Block) : List Byte := words [b.type,b.payload.length] ++ b.payload

theorem blockBytes_length (b : Block) : (blockBytes b).length = 8 + b.payload.length := by
  rw [blockBytes, List.length_append, words_length]
  rfl

structure Parts where
  text : List Byte
  zeros : ℕ
  packed : List Byte
  unpacked : ℕ
  pulses : ℕ
  pad : List Byte
  iopacked : List Byte
  iounpacked : ℕ
  iopad : List Byte

def Parts.blocks (p : Parts) : List Block :=
  [⟨METADATA_ID,p.text ++ List.replicate p.zeros 0#8⟩,
    ⟨PACKEDSTREAM_ID,words [p.packed.length,p.unpacked,p.pulses] ++ (p.packed ++ p.pad)⟩,
    ⟨PACKEDIOSTREAM_ID,words [p.iopacked.length,p.iounpacked] ++ (p.iopacked ++ p.iopad)⟩]

theorem padding_mod (n : ℕ) : (n + padding n) % 4 = 0 := by
  unfold padding
  omega

theorem padding_lt (n : ℕ) : padding n < 4 := Nat.mod_lt _ (by decide)

theorem metaSize_le (l : Layout) (h : l.text ≤ METADATA_MAXSIZE) : l.metaSize ≤ METADATA_MAXSIZE := by
  unfold Layout.metaSize padding METADATA_MAXSIZE at *
  omega

namespace Layout

variable (l : Layout)

theorem pstream_eq : l.pstream = 20 + l.metaSize := by
  unfold pstream
  omega

theorem pio_eq : l.pio = 20 + l.metaSize + 20 + l.packed + padding l.packed := by
  unfold pio streamSize
  rw [pstream_eq]
  omega

theorem totalSize_sub :
    l.totalSize - 4 = l.pio + 16 + l.iopacked + padding (4*2 + l.iopacked) := by
  unfold totalSize ioSize
  omega

end Layout

structure Parts.Laid (p : Parts) (l : Layout) : Prop where
  text : p.text.length + p.zeros = l.metaSize
  packed : p.packed.length = l.packed
  pad : p.pad.length = padding l.packed
  iopacked : p.iopacked.length = l.iopacked
  iopad : p.iopad.length = padding (4*2 + l.iopacked)

namespace Parts.Laid

variable {p : Parts} {l : Layout} (h : p.Laid l)
include h

theorem meta_length : (p.text ++ List.replicate p.zeros 0#8).length = l.metaSize := by
  rw [List.length_append, List.length_replicate, h.text]

theorem stream_length :
    (words [p.packed.length,p.unpacked,p.pulses] ++ (p.packed ++ p.pad)).length = l.streamSize := by
  rw [List.length_append, List.length_append, words_length, h.packed, h.pad]
  exact (Nat.add_assoc ..).symm

theorem io_length :
    (words [p.iopacked.length,p.iounpacked] ++ (p.iopacked ++ p.iopad)).length = l.ioSize := by
  rw [List.length_append, List.length_append, words_length, h.iopacked, h.iopad]
  exact (Nat.add_assoc ..).symm

theorem aligned (htext : l.metaSize % 4 = 0) : ∀ b ∈ p.blocks, b.payload.length % 4 = 0 := by
  simp only [blocks, List.forall_mem_cons, h.meta_length, h.stream_length, h.io_length]
  refine ⟨htext,?_,?_,by simp⟩
  · have := padding_mod l.packed
    unfold Layout.streamSize
    omega
  · exact padding_mod _

theorem total : l.totalSize = 12 + (p.blocks.flatMap blockBytes).length + 4 := by
  rw [blocks, List.flatMap_cons, List.flatMap_cons, List.flatMap_cons, List.flatMap_nil,
    List.append_nil, List.length_append, List.length_append, blockBytes_length, blockBytes_length,
    blockBytes_length, h.meta_length, h.stream_length, h.io_length]
  unfold Layout.totalSize Layout.pio Layout.pstream
  omega

/-- The header words of a block and the first words of its payload are stored
together. -/
theorem bytes : p.blocks.flatMap blockBytes =
    (words [METADATA_ID,l.metaSize] ++ (p.text ++ List.replicate p.zeros 0#8)) ++
      ((words [PACKEDSTREAM_ID,l.streamSize,l.packed,p.unpacked,p.pulses] ++
        (p.packed ++ p.pad)) ++
      (words [PACKEDIOSTREAM_ID,l.ioSize,l.iopacked,p.iounpacked] ++ (p.iopacked ++ p.iopad))) := by
  rw [blocks, List.flatMap_cons, List.flatMap_cons, List.flatMap_cons, List.flatMap_nil,
    List.append_nil, blockBytes, blockBytes, blockBytes, h.meta_length, h.stream_length,
    h.io_length, h.packed, h.iopacked]
  simp only [words, List.flatMap_cons, List.flatMap_nil, List.append_nil, List.append_assoc]

end Parts.Laid

theorem storeBlocks_body (lz4 : LZ4) (junk : ℕ → Byte) (text : CString) (c : Chunk)
    (chunk_size : ℕ) (htext : text.length < METADATA_MAXSIZE) :
    let temp_size := asInt (tempSize c.stream.outbuffersize chunk_size)
    let io := c.io_buffer.flatMap le16
    let r := storeBlocks lz4 junk text c chunk_size
    ∃ (p : Parts) (cap cap' : ℤ),
      cap = temp_size - (Layout.mk (text.length+1) 0 0).pstream ∧
      cap' = temp_size - (Layout.mk (text.length+1) p.packed.length 0).pio ∧
      p.text = text.bytes ∧ 0 < p.zeros ∧
      p.packed = lz4.compress c.stream.data_track cap ∧
      p.unpacked = c.stream.data_track.length ∧
      p.iopacked = lz4.compress io cap' ∧ p.iounpacked = chunk_size/2 ∧
      r.2 = ⟨text.length+1,p.packed.length,p.iopacked.length⟩ ∧
      (∀ b ∈ p.blocks, b.payload.length % 4 = 0) ∧
      r.2.totalSize = 12 + (p.blocks.flatMap blockBytes).length + 4 ∧
      slice r.1 0 (r.2.totalSize - 4) =
        words [HXCSTREAM_HEADERSIGN,r.2.totalSize,c.chunk_number] ++
          p.blocks.flatMap blockBytes := by
  intro temp_size io r
  set cap := temp_size - (Layout.mk (text.length+1) 0 0).pstream with hcap
  set P := lz4.compress c.stream.data_track cap with hP
  set cap' := temp_size - (Layout.mk (text.length+1) P.length 0).pio with hcap'
  set Q := lz4.compress io cap' with hQ
  set l : Layout := ⟨text.length+1,P.length,Q.length⟩ with hl
  have hms : l.metaSize ≤ METADATA_MAXSIZE := metaSize_le l htext
  have htextlen : text.bytes.length = text.length := rfl
  have hmsadd : text.length + (l.metaSize - text.length) = l.metaSize := by
    simp only [Layout.metaSize, hl]
    omega
  obtain ⟨S, S', hS, hS', hbody⟩ := stores_body junk
    (text.bytes ++ List.replicate (METADATA_MAXSIZE - text.length) 0#8)
    (words [METADATA_ID,l.metaSize]) P
    (words [PACKEDSTREAM_ID,l.streamSize,l.packed,c.stream.data_track.length,
      c.stream.number_of_pulses])
    Q (words [PACKEDIOSTREAM_ID,l.ioSize,l.iopacked,chunk_size/2])
    (words [HXCSTREAM_HEADERSIGN,l.totalSize,c.chunk_number])
    (lz4.scratch c.stream.data_track cap) (lz4.scratch io cap') l.metaSize (padding l.packed)
    (padding (4*2+l.iopacked)) (LZ4_compressBound c.stream.data_track.length)
    (LZ4_compressBound io.length)
    (by rw [List.length_append, List.length_replicate]; omega) rfl rfl rfl rfl
  set p : Parts := ⟨text.bytes,l.metaSize - text.length,P,c.stream.data_track.length,
    c.stream.number_of_pulses,S,Q,chunk_size/2,S'⟩ with hp
  have hlaid : p.Laid l := ⟨hmsadd,rfl,hS,rfl,hS'⟩
  refine ⟨p,cap,cap',rfl,rfl,rfl,?_,rfl,rfl,rfl,rfl,rfl,hlaid.aligned (padding_mod _),
    hlaid.total,?_⟩
  · show 0 < l.metaSize - text.length
    simp only [Layout.metaSize, hl]
    omega
  · have htake : (text.bytes ++ List.replicate (METADATA_MAXSIZE - text.length) 0#8).take
        l.metaSize = text.bytes ++ List.replicate (l.metaSize - text.length) 0#8 := by
      rw [List.take_append, List.take_of_length_le (by omega), List.take_replicate, htextlen,
        min_eq_left (by omega)]
    have hr : slice r.1 0 (r.2.totalSize - 4) = slice (put (put (put (fill (put (put (fill
        (put (put junk 20 (text.bytes ++
          List.replicate (METADATA_MAXSIZE - text.length) 0#8)) 12
            (words [METADATA_ID,l.metaSize]))
        (l.pstream+20) (l.pstream+20+LZ4_compressBound c.stream.data_track.length)
        (lz4.scratch c.stream.data_track cap)) (l.pstream+20) P) l.pstream
        (words [PACKEDSTREAM_ID,l.streamSize,l.packed,c.stream.data_track.length,
          c.stream.number_of_pulses]))
        (l.pio+16) (l.pio+16+LZ4_compressBound io.length) (lz4.scratch io cap')) (l.pio+16) Q)
        l.pio (words [PACKEDIOSTREAM_ID,l.ioSize,l.iopacked,chunk_size/2])) 0
        (words [HXCSTREAM_HEADERSIGN,l.totalSize,c.chunk_number])) 0 (l.totalSize - 4) := rfl
    have hl2 : r.2 = l := rfl
    rw [hr, hlaid.bytes, l.totalSize_sub, l.pstream_eq, l.pio_eq, hbody, htake, hl2]

/-! ## Walking the block -/

theorem walkBlocks_cons (b : Block) (rest : List Byte) (htype : b.type < 2^32)
    (hlen : b.payload.length < 2^32) (h4 : b.payload.length % 4 = 0) :
    walkBlocks (blockBytes b ++ rest) = (walkBlocks rest).map (b :: ·) := by
  have hhead : blockBytes b ++ rest = words [b.type,b.payload.length] ++ (b.payload ++ rest) :=
    List.append_assoc ..
  have hne : blockBytes b ++ rest ≠ [] := by
    rw [hhead]
    exact List.cons_ne_nil _ _
  have hsize : get32 ((blockBytes b ++ rest).drop 4) = b.payload.length := by
    rw [hhead, words_cons, List.append_assoc, List.drop_append, List.drop_of_length_le (by simp),
      List.nil_append, le32_length, Nat.sub_self, List.drop_zero, get32_words,
      Nat.mod_eq_of_lt hlen]
  have hdrop : (blockBytes b ++ rest).drop 8 = b.payload ++ rest := by
    rw [hhead, drop_words _ 8 _ rfl]
  have htotal : (blockBytes b ++ rest).length = 8 + b.payload.length + rest.length := by
    rw [List.length_append, blockBytes_length]
  rw [walkBlocks, if_neg hne]
  simp only [hsize]
  rw [if_pos ⟨by omega,h4⟩, ← List.drop_drop, hdrop, List.drop_left, List.take_left]
  rw [hhead, get32_words, Nat.mod_eq_of_lt htype]

theorem walkBlocks_chain (bs : List Block)
    (h : ∀ b ∈ bs, b.type < 2^32 ∧ b.payload.length < 2^32 ∧ b.payload.length % 4 = 0) :
    walkBlocks (bs.flatMap blockBytes) = some bs := by
  induction bs with
  | nil =>
    rw [walkBlocks]
    rfl
  | cons b bs ih =>
    obtain ⟨⟨htype, hlen, h4⟩, hrest⟩ := List.forall_mem_cons.mp h
    rw [List.flatMap_cons, walkBlocks_cons b _ htype hlen h4, ih hrest]
    rfl

theorem payload_le (bs : List Block) (b : Block) (h : b ∈ bs) :
    b.payload.length ≤ (bs.flatMap blockBytes).length := by
  obtain ⟨before, after, rfl⟩ := List.append_of_mem h
  simp only [List.flatMap_append, List.flatMap_cons, List.length_append, blockBytes_length]
  omega

theorem walk_chain (number crc total : ℕ) (bs : List Block)
    (htotal : total = 12 + (bs.flatMap blockBytes).length + 4) (hsize : total < 2^32)
    (h : ∀ b ∈ bs, b.type < 2^32 ∧ b.payload.length % 4 = 0) :
    walk (words [HXCSTREAM_HEADERSIGN,total,number] ++ bs.flatMap blockBytes ++ le32 crc) =
      some ⟨number % 2^32,bs,crc % 2^32⟩ := by
  have hchain : walkBlocks (bs.flatMap blockBytes) = some bs := by
    refine walkBlocks_chain bs fun b hb => ⟨(h b hb).1,?_,(h b hb).2⟩
    have := payload_le bs b hb
    omega
  generalize bs.flatMap blockBytes = body at htotal hchain ⊢
  have hlen : (words [HXCSTREAM_HEADERSIGN,total,number] ++ body ++ le32 crc).length = total := by
    simp only [List.length_append, words_length, List.length_cons, List.length_nil, le32_length]
    omega
  have hbody : (words [HXCSTREAM_HEADERSIGN,total,number] ++ body).length = total - 4 := by
    simp only [List.length_append, words_length, List.length_cons, List.length_nil]
    omega
  have hmagic : get32 (words [HXCSTREAM_HEADERSIGN,total,number] ++ body ++ le32 crc) =
      HXCSTREAM_HEADERSIGN := by
    rw [List.append_assoc, get32_words]
    rfl
  have htot : get32 ((words [HXCSTREAM_HEADERSIGN,total,number] ++ body ++ le32 crc).drop 4) =
      total := by
    rw [List.append_assoc, show words [HXCSTREAM_HEADERSIGN,total,number] =
      words [HXCSTREAM_HEADERSIGN] ++ words [total,number] from rfl, List.append_assoc,
      drop_words _ 4 _ rfl, get32_words, Nat.mod_eq_of_lt hsize]
  have hnum : get32 ((words [HXCSTREAM_HEADERSIGN,total,number] ++ body ++ le32 crc).drop 8) =
      number % 2^32 := by
    rw [List.append_assoc, show words [HXCSTREAM_HEADERSIGN,total,number] =
      words [HXCSTREAM_HEADERSIGN,total] ++ words [number] from rfl, List.append_assoc,
      drop_words _ 8 _ rfl, get32_words]
  have hcrc : get32 ((words [HXCSTREAM_HEADERSIGN,total,number] ++ body ++ le32 crc).drop
      (total-4)) = crc % 2^32 := by
    rw [← hbody, List.drop_left, ← List.append_nil (le32 crc), get32_le32]
  rw [walk, hlen, hmagic, htot, if_pos ⟨by omega,rfl,rfl⟩, hnum, hcrc, ← hbody, List.take_left,
    drop_words _ 12 _ rfl, hchain]
  rfl

/-- A chain of blocks under its check word is walked to the blocks and to the
check word of all that stands before it. -/
theorem sealed_walk (number total : ℕ) (bs : List Block) (block : List Byte)
    (hblock : block = words [HXCSTREAM_HEADERSIGN,total,number] ++ bs.flatMap blockBytes ++
      le32 (stdCrc32 0xFFFFFFFF#32 (words [HXCSTREAM_HEADERSIGN,total,number] ++
        bs.flatMap blockBytes)).toNat)
    (htotal : total = 12 + (bs.flatMap blockBytes).length + 4) (hsize : total < 2^32)
    (h : ∀ b ∈ bs, b.type < 2^32 ∧ b.payload.length % 4 = 0) :
    block.length = total ∧
      walk block = some ⟨number % 2^32,bs,
        (stdCrc32 0xFFFFFFFF#32 (block.take (block.length-4))).toNat⟩ := by
  have hwalk := walk_chain number (stdCrc32 0xFFFFFFFF#32
    (words [HXCSTREAM_HEADERSIGN,total,number] ++ bs.flatMap blockBytes)).toNat total bs htotal
    hsize h
  have hbody : (words [HXCSTREAM_HEADERSIGN,total,number] ++ bs.flatMap blockBytes).length =
      12 + (bs.flatMap blockBytes).length := by
    rw [List.length_append, words_length]
    rfl
  rw [← hblock] at hwalk
  generalize words [HXCSTREAM_HEADERSIGN,total,number] ++ bs.flatMap blockBytes = body
    at hblock hbody hwalk
  have htake : block.take (block.length-4) = body := by
    rw [hblock, List.length_append, le32_length, Nat.add_sub_cancel, List.take_left]
  refine ⟨?_,?_⟩
  · rw [hblock, List.length_append, le32_length, hbody, htotal]
  · rw [htake, hwalk, Nat.mod_eq_of_lt (BitVec.isLt _)]

theorem Parts.typed (p : Parts) (hfour : ∀ b ∈ p.blocks, b.payload.length % 4 = 0) :
    ∀ b ∈ p.blocks, b.type < 2^32 ∧ b.payload.length % 4 = 0 := by
  intro b hb
  refine ⟨?_,hfour b hb⟩
  simp only [Parts.blocks, List.mem_cons, List.not_mem_nil, or_false] at hb
  obtain rfl | rfl | rfl := hb
  · exact (by decide : METADATA_ID < 2^32)
  · exact (by decide : PACKEDSTREAM_ID < 2^32)
  · exact (by decide : PACKEDIOSTREAM_ID < 2^32)

theorem unpack_payload (lz4 : LZ4) (unpacked : ℕ) (more : List ℕ) (head : ℕ)
    (packed pad : List Byte) (hhead : head = 2 + more.length) (hp : packed.length < 2^32)
    (hu : unpacked < 2^32) :
    unpack lz4 head (words (packed.length :: unpacked :: more) ++ (packed ++ pad)) =
      lz4.decompress packed unpacked := by
  have hdrop : (words (packed.length :: unpacked :: more) ++ (packed ++ pad)).drop (4*head) =
      packed ++ pad := drop_words _ _ _ (by simp only [List.length_cons]; omega)
  have hsize : get32 ((words (packed.length :: unpacked :: more) ++ (packed ++ pad)).drop 4) =
      unpacked := by
    rw [show words (packed.length :: unpacked :: more) =
      words [packed.length] ++ words (unpacked :: more) from rfl, List.append_assoc,
      drop_words _ 4 _ rfl, get32_words, Nat.mod_eq_of_lt hu]
  rw [unpack, hdrop, hsize, get32_words, Nat.mod_eq_of_lt hp, List.take_left]

/-! ## Sizes -/

theorem compressBound_small (n : ℕ) (h : n ≤ LZ4_MAX_INPUT_SIZE) :
    LZ4_compressBound n = n+n/255+16 := if_neg (by unfold LZ4_MAX_INPUT_SIZE at h; omega)

theorem flatMap_le16_length (ws : List Word) : (ws.flatMap le16).length = 2*ws.length := by
  induction ws with
  | nil => rfl
  | cons w ws ih =>
    rw [List.flatMap_cons, List.length_append, ih, List.length_cons, le16]
    simp only [List.length_cons, List.length_nil]
    omega

theorem generateChunk_some (malloc : ℕ → Bool) (state : FpgaState)
    (sample_rate_hz data_in chunk_size : ℕ) (c : Chunk)
    (h : (generateChunk malloc state sample_rate_hz data_in chunk_size).1 = some c) :
    fastConvertChunk malloc state data_in chunk_size state.bitdelta = some c.stream ∧
      malloc (chunkLen chunk_size) = true ∧
      malloc (tempSize c.stream.outbuffersize chunk_size) = true ∧
      c.chunk_number = state.chunk_number ∧
      c.io_buffer = (List.range (chunk_size/4)).map fun i =>
        state.dump_buffer (data_in+1+i*2) := by
  have hm : malloc (chunkLen chunk_size) = true := by
    by_contra hm
    rw [generateChunk, fastConvertChunk, if_neg hm] at h
    cases h
  rw [generateChunk] at h
  cases hs : fastConvertChunk malloc state data_in chunk_size state.bitdelta with
  | none =>
    rw [hs] at h
    cases h
  | some s =>
    rw [hs] at h
    simp only at h
    split at h
    · rename_i hmalloc
      obtain rfl := Option.some.inj h
      exact ⟨rfl,hm,(Bool.and_eq_true _ _ ▸ hmalloc).1,rfl,rfl⟩
    · cases h

/-- In 32 bits of addresses a chunk, its stream and its block leave no room for
sizes LZ4 does not take. -/
theorem sizes_small (stream chunk_size : ℕ) (h4 : chunk_size % 4 = 0)
    (hstream : stream ≤ chunkLen chunk_size)
    (hspace : chunk_size + chunkLen chunk_size + tempSize stream chunk_size < 2^32) :
    stream ≤ LZ4_MAX_INPUT_SIZE ∧ chunk_size/2 ≤ LZ4_MAX_INPUT_SIZE ∧
      tempSize stream chunk_size < 2^31 := by
  have hlen : chunk_size/2 ≤ chunkLen chunk_size ∧ chunkLen chunk_size < chunk_size/2 + 16 := by
    simp only [chunkLen]
    split_ifs <;> omega
  have hs : stream ≤ LZ4_MAX_INPUT_SIZE := by
    unfold LZ4_MAX_INPUT_SIZE
    omega
  have hc : chunk_size/2 ≤ LZ4_MAX_INPUT_SIZE := by
    unfold LZ4_MAX_INPUT_SIZE
    omega
  have htemp : tempSize stream chunk_size =
      stream + stream/255 + 16 + (chunk_size/2 + chunk_size/2/255 + 16) + 8*1024 + 1024 := by
    unfold tempSize
    rw [compressBound_small _ hs, compressBound_small _ hc]
  exact ⟨hs,hc,by omega⟩

/-- The packer has the room it asks for, and the block has room for what it
packs. -/
theorem layout_fits (stream chunk_size text packed iopacked : ℕ)
    (htext : text < METADATA_MAXSIZE) :
    (Layout.mk (text+1) 0 0).pstream + 20 + LZ4_compressBound stream ≤
        tempSize stream chunk_size ∧
      (packed ≤ LZ4_compressBound stream →
        (Layout.mk (text+1) packed 0).pio + 16 + LZ4_compressBound (chunk_size/2) ≤
            tempSize stream chunk_size ∧
          (iopacked ≤ LZ4_compressBound (chunk_size/2) →
            (Layout.mk (text+1) packed iopacked).totalSize ≤ tempSize stream chunk_size)) := by
  have hp := padding_lt (text+1)
  have hq := padding_lt packed
  have hr := padding_lt (4*2+iopacked)
  unfold METADATA_MAXSIZE at htext
  simp only [Layout.totalSize, Layout.pio, Layout.pstream, Layout.streamSize, Layout.ioSize,
    Layout.metaSize, tempSize]
  omega

/-- What is packed with the room the block has left fits the block and is
unpacked to what it was packed from. -/
theorem compress_fits (lz4 : LZ4) (stream io : List Byte) (chunk_size text : ℕ)
    (hio : io.length = chunk_size/2) (htext : text < METADATA_MAXSIZE)
    (hstream : stream.length ≤ LZ4_MAX_INPUT_SIZE) (hchunk : chunk_size/2 ≤ LZ4_MAX_INPUT_SIZE) :
    let size := tempSize stream.length chunk_size
    let packed := lz4.compress stream (size - (Layout.mk (text+1) 0 0).pstream)
    let iopacked := lz4.compress io (size - (Layout.mk (text+1) packed.length 0).pio)
    lz4.decompress packed stream.length = some stream ∧
      lz4.decompress iopacked (chunk_size/2) = some io ∧
      (Layout.mk (text+1) packed.length iopacked.length).totalSize ≤ size := by
  intro size packed iopacked
  obtain ⟨hroom, hrest⟩ := layout_fits stream.length chunk_size text packed.length
    iopacked.length htext
  have hcap : (LZ4_compressBound stream.length : ℤ) ≤
      size - (Layout.mk (text+1) 0 0).pstream := by omega
  obtain ⟨hioroom, hfits⟩ := hrest (lz4.bounded _ _ hstream hcap)
  have hiocap : (LZ4_compressBound io.length : ℤ) ≤
      size - (Layout.mk (text+1) packed.length 0).pio := by
    rw [hio]
    omega
  have hiosmall : io.length ≤ LZ4_MAX_INPUT_SIZE := hio ▸ hchunk
  refine ⟨lz4.inverts _ _ hstream hcap,?_,hfits ?_⟩
  · rw [← hio]
    exact lz4.inverts _ _ hiosmall hiocap
  · rw [← hio]
    exact lz4.bounded _ _ hiosmall hiocap

theorem slice_put_end (mem : ℕ → Byte) (n : ℕ) (bs : List Byte) :
    slice (put mem n bs) 0 (n+bs.length) = slice mem 0 n ++ bs := by
  rw [slice_add, slice_put_apart _ _ _ _ _ (Or.inl (by omega)), Nat.zero_add,
    slice_put _ _ _ _ rfl]

theorem packChunk_slice (lz4 : LZ4) (junk : ℕ → Byte) (text : CString) (c : Chunk)
    (chunk_size : ℕ) (body : List Byte)
    (hbody : slice (storeBlocks lz4 junk text c chunk_size).1 0
      ((storeBlocks lz4 junk text c chunk_size).2.totalSize - 4) = body) :
    slice (packChunk lz4 junk text c chunk_size).1 0
        (packChunk lz4 junk text c chunk_size).2.totalSize =
      body ++ le32 (stdCrc32 0xFFFFFFFF#32 body).toNat := by
  rw [packChunk]
  generalize storeBlocks lz4 junk text c chunk_size = r at hbody ⊢
  have htotal : r.2.totalSize = (r.2.totalSize - 4) + 4 := by
    unfold Layout.totalSize
    omega
  simp only [hbody]
  generalize stdCrc32 0xFFFFFFFF#32 body = crc
  conv_lhs => rw [htotal]
  rw [Nat.add_sub_cancel, ← le32_length crc.toNat, slice_put_end, le32_length, hbody]

/-- The block of a chunk is walked by its size fields to the text, the stream of
`fast_convert_chunk`, the odd words of the input and the check word of all that
stands before it, and fits the memory allocated for it. -/
theorem generateBlock_walk (lz4 : LZ4) (malloc : ℕ → Bool) (junk : ℕ → Byte)
    (buildtime : CString) (tm : Tm) (dstate : DumpState) (state : FpgaState)
    (sample_rate_hz data_in chunk_size : ℕ) (c : Chunk)
    (h4 : chunk_size % 4 = 0) (hpos : 0 < chunk_size)
    (hspace : malloc (chunkLen chunk_size) = true →
      malloc (tempSize c.stream.outbuffersize chunk_size) = true →
        chunk_size + chunkLen chunk_size + tempSize c.stream.outbuffersize chunk_size < 2^32)
    (hc : (generateChunk malloc state sample_rate_hz data_in chunk_size).1 = some c)
    (hlines : ∀ line ∈ metadataLines buildtime tm dstate c, line.length < 512) :
    ∃ block text zeros stream io,
      generateBlock lz4 malloc junk buildtime tm dstate state sample_rate_hz data_in chunk_size =
          some block ∧
        walk block = some ⟨state.chunk_number % 2^32,
          [⟨METADATA_ID,text⟩,⟨PACKEDSTREAM_ID,stream⟩,⟨PACKEDIOSTREAM_ID,io⟩],
          (stdCrc32 0xFFFFFFFF#32 (block.take (block.length-4))).toNat⟩ ∧
        text.length % 4 = 0 ∧ stream.length % 4 = 0 ∧ io.length % 4 = 0 ∧
        (metadataText (metadataLines buildtime tm dstate c)).map (fun s =>
          s.bytes ++ List.replicate (zeros+1) 0#8) = some text ∧
        (∃ s, fastConvertChunk malloc state data_in chunk_size state.bitdelta = some s ∧
          get32 (stream.drop 4) = s.outbuffersize ∧
          unpack lz4 3 stream = some s.data_track) ∧
        unpack lz4 2 io = some (((List.range (chunk_size/4)).map fun i =>
          state.dump_buffer (data_in+1+i*2)).flatMap le16) ∧
        block.length ≤ tempSize c.stream.outbuffersize chunk_size := by
  obtain ⟨hs, hm, hmt, hnum, hio⟩ := generateChunk_some _ _ _ _ _ _ hc
  obtain ⟨hout, hle⟩ := fastConvertChunk_length malloc state _ _ _ _ h4 hpos hs
  obtain ⟨hstream, hchunk, htemp⟩ := sizes_small c.stream.outbuffersize chunk_size h4
    (hout ▸ hle) (hspace hm hmt)
  obtain ⟨text, htext, htextlen⟩ := metadataText_length _ hlines
  obtain ⟨p, cap, cap', hcap, hcap', hptext, hzeros, hpacked, hunpacked, hiopacked, hiounpacked,
    hlayout, hfour, htotal, hbody⟩ := storeBlocks_body lz4 junk text c chunk_size htextlen
  have hint : asInt (tempSize c.stream.outbuffersize chunk_size) =
      tempSize c.stream.outbuffersize chunk_size :=
    asInt_small _ _ (Nat.mod_eq_of_lt (by omega)) htemp
  have hiolen : (c.io_buffer.flatMap le16).length = chunk_size/2 := by
    rw [flatMap_le16_length, hio, List.length_map, List.length_range]
    omega
  obtain ⟨hinverts, hioinverts, hsize⟩ := compress_fits lz4 c.stream.data_track
    (c.io_buffer.flatMap le16) chunk_size text.length hiolen htextlen (hout ▸ hstream) hchunk
  rw [← hout, ← hint, ← hcap, ← hpacked] at hinverts hioinverts hsize
  rw [← hcap', ← hiopacked] at hioinverts hsize
  rw [← hlayout] at hsize
  set r := storeBlocks lz4 junk text c chunk_size with hr
  have hmem := p.typed hfour
  have htotal32 : r.2.totalSize < 2^32 := by omega
  set block := slice (packChunk lz4 junk text c chunk_size).1 0
    (packChunk lz4 junk text c chunk_size).2.totalSize
  obtain ⟨hlen, hwalk⟩ := sealed_walk c.chunk_number r.2.totalSize p.blocks block
    (packChunk_slice lz4 junk text c chunk_size _ hbody) htotal htotal32 hmem
  have hmax : LZ4_MAX_INPUT_SIZE < 2^32 := by decide
  obtain ⟨hpackedSmall, hiopackedSmall⟩ : p.packed.length < 2^32 ∧ p.iopacked.length < 2^32 := by
    rw [hlayout] at htotal32
    unfold Layout.totalSize Layout.pio Layout.streamSize Layout.ioSize at htotal32
    simp only at htotal32
    omega
  have hunpackedSmall : p.unpacked < 2^32 := by
    rw [hunpacked, ← hout]
    exact hstream.trans_lt hmax
  refine ⟨block,p.text ++ List.replicate p.zeros 0#8,p.zeros-1,
    words [p.packed.length,p.unpacked,p.pulses] ++ (p.packed ++ p.pad),
    words [p.iopacked.length,p.iounpacked] ++ (p.iopacked ++ p.iopad),?_,?_,
    (hmem _ (List.mem_cons_self ..)).2,
    (hmem _ (List.mem_cons_of_mem _ (List.mem_cons_self ..))).2,
    (hmem _ (List.mem_cons_of_mem _ (List.mem_cons_of_mem _ (List.mem_cons_self ..)))).2,
    ?_,⟨c.stream,hs,?_,?_⟩,?_,?_⟩
  · rw [generateBlock, hc, Option.bind_some, htext, Option.map_some]
  · rw [hwalk, hnum]
    rfl
  · rw [htext, Option.map_some, hptext, Nat.sub_add_cancel hzeros]
  · rw [show words [p.packed.length,p.unpacked,p.pulses] =
      words [p.packed.length] ++ words [p.unpacked,p.pulses] from rfl, List.append_assoc,
      drop_words _ 4 _ rfl, get32_words, Nat.mod_eq_of_lt hunpackedSmall, hunpacked, hout]
  · rw [unpack_payload lz4 p.unpacked [p.pulses] 3 p.packed p.pad rfl hpackedSmall
      hunpackedSmall, hunpacked, ← hout]
    exact hinverts
  · rw [unpack_payload lz4 p.iounpacked [] 2 p.iopacked p.iopad rfl hiopackedSmall (by omega),
      hiounpacked, ← hio]
    exact hioinverts
  · rw [hlen]
    exact hsize

/-! ## A chunk of one sample -/

def literals (src : List Byte) : List Byte :=
  if src.length < 15 then byte (16*src.length) :: src
  else byte 0xF0 :: (List.replicate ((src.length-15)/255) 0xFF#8 ++
    byte ((src.length-15) % 255) :: src)

theorem literals_suffix (src : List Byte) :
    (literals src).drop ((literals src).length - src.length) = src := by
  have hdrop : ∀ head : List Byte, (head ++ src).drop ((head ++ src).length - src.length) = src := by
    intro head
    rw [List.length_append, Nat.add_sub_cancel, List.drop_left]
  unfold literals
  split
  · exact hdrop [_]
  · simpa using hdrop (byte 0xF0 :: (List.replicate ((src.length-15)/255) 0xFF#8 ++
      [byte ((src.length-15) % 255)]))

def literalLZ4 : LZ4 where
  compress src _ := literals src
  scratch _ _ _ b := b
  decompress packed size := some (packed.drop (packed.length - size))
  bounded src cap hsrc _ := by
    rw [compressBound_small _ hsrc, literals]
    split
    · rw [List.length_cons]
      omega
    · simp only [List.length_cons, List.length_append, List.length_replicate]
      omega
  inverts src _ _ _ := congrArg some (literals_suffix src)

def sampleState : FpgaState :=
  { smallState fun _ _ => 0#16 with
    dump_buffer := fun a => if a = 0 then 0x8000#16 else if a = 1 then 0x1234#16 else 0#16 }

def sampleChunk : Chunk where
  chunk_number := 0
  sample_rate_hz := 25000000
  number_of_data_pulses := 1
  number_of_data_samples := numberOfDataSamples 0 4 128
  number_of_ios_samples := 1
  memory_dump_offset := 0
  stream := ⟨[byte 0],128,1,1,128,strided 0 8⟩
  io_buffer := [0x1234#16]

theorem generateChunk_sample :
    (generateChunk (fun _ => true) sampleState 25000000 0 4).1 = some sampleChunk := by
  have hwords : (strided 0 (chunkWords 4)).map sampleState.dump_buffer =
      0x8000#16 :: List.replicate 7 0#16 := by decide
  have hconv : convertWords prepareLUT 0 ((strided 0 (chunkWords 4)).map sampleState.dump_buffer) =
      (128,[0]) := by
    rw [hwords]
    simp only [List.replicate_succ, List.replicate_zero, convertWords, convertWord_empty,
      convertWord_single 0 0x8000#16 0 (by decide)]
    rfl
  have hs := fastConvertChunk_words (fun _ => true) sampleState 0 4 0 (by decide) (by decide) rfl
  simp only [hconv] at hs
  rw [generateChunk, show sampleState.bitdelta = 0 from rfl, hs]
  rfl

def sampleDump : DumpState where
  drive_number := 0
  drive_description := CString.lit "PC drive"
  dump_name := CString.lit "untitled"
  dump_comment := CString.empty
  dump_comment2 := CString.empty
  dump_operator := CString.empty
  dump_driveref := CString.empty
  start_track := 0
  max_track := 79
  start_side := 0
  max_side := 1
  index_synced := 1
  index_to_dump_delay := 100000
  time_per_track := 800
  doublestep := 0
  current_track := 0
  current_side := 0

theorem generateBlock_walk_sample :
    ∃ block, generateBlock literalLZ4 (fun _ => true) (fun _ => 0#8) (CString.lit "build")
        ⟨123,8,13,12,0,0⟩ sampleDump sampleState 25000000 0 4 = some block ∧
      ∃ crc text stream io, walk block = some ⟨0,[⟨METADATA_ID,text⟩,⟨PACKEDSTREAM_ID,stream⟩,
          ⟨PACKEDIOSTREAM_ID,io⟩],crc⟩ ∧
        unpack literalLZ4 2 io = some [0x34#8,0x12#8] := by
  obtain ⟨block, text, zeros, stream, io, hblock, hwalk, -, -, -, -, -, hio, -⟩ :=
    generateBlock_walk literalLZ4 (fun _ => true) (fun _ => 0#8) (CString.lit "build")
      ⟨123,8,13,12,0,0⟩ sampleDump sampleState 25000000 0 4 sampleChunk (by decide) (by decide)
      (fun _ _ => by decide) generateChunk_sample (by decide +kernel)
  exact ⟨block,hblock,_,text,stream,io,hwalk,hio⟩

end Pauline.ChunkBlock
