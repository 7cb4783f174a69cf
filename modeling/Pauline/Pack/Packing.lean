import Pauline.Pack.EncodeTurn
import Pauline.Pack.Unpack

/-!
# What is packed

The packer makes a block of every source it takes, within the bound its header gives,
and what it makes is unpacked to the source again.
-/

set_option autoImplicit false

namespace Pauline.Pack
open Buffer Lz4Block
open Pauline.ChunkBlock (LZ4_MAX_INPUT_SIZE compressBound_small)
open Pauline.DumpChunk (LZ4_compressBound)

variable {c : Call} {before mem : Mem} {op : ℕ} {t : TableType}

structure Holding (c : Call) (before mem : Mem) (b : Block) : Prop where
  slice : Buffer.slice mem c.dst (b.encode 0).length = b.encode 0
  kept : Kept before mem c.dst c.oend
  expand : b.expand = c.source
  backward : Backward b.sequences 0
  forward : Forward b.sequences
  ends : b.Ends
  bound : (b.encode 0).length ≤ c.iend+c.iend/255+2

theorem lastLiterals_spec {ss : List Sequence} {anchor : ℕ}
    (hcap : c.iend+c.iend/255+16 ≤ c.outputSize) (h : Packed c before ss anchor op mem) :
    ∃ b : Block, ∃ mem', lastLiterals c mem anchor op = some (((b.encode 0).length : ℤ),mem') ∧
      Holding c before mem' b := by
  have hiend : c.iend = c.source.length := rfl
  have hoend : c.oend = c.dst+c.outputSize := rfl
  have hop := h.written.op_eq
  have hbound := h.bound
  have hle := h.anchor_le
  have hlast : (c.source.drop anchor).length = c.iend-anchor := List.length_drop
  have htake : (c.source.drop anchor).take (c.iend-anchor) = c.source.drop anchor :=
    List.take_of_length_le hlast.le
  have hlen := lengthBytes_length (c.iend-anchor)
  have hroom : op+1+(lengthBytes (c.iend-anchor)).length+(c.iend-anchor) ≤ c.oend ∧
      (encodeAll ss).length+1+(lengthBytes (c.iend-anchor)).length+(c.iend-anchor) ≤
        c.iend+c.iend/255+2 := by
    rw [hlen]
    split_ifs <;> omega
  obtain ⟨mem1, htoken, hwritten⟩ := writeToken_spec (c.iend-anchor) h.written (by omega)
  have hop1 := hwritten.op_eq
  obtain ⟨mem2, hcopy, hag, hkept⟩ := copyIn_agrees (n := c.iend-anchor)
    (hwritten.ahead (c.source.drop anchor)) (by omega) le_rfl (by omega) (by omega)
  have hall := hwritten.literals (by omega) hag le_rfl (by omega) (hkept.mono le_rfl (by omega))
  have hencode : (Block.mk ss (c.source.drop anchor)).encode 0 = encodeAll ss ++
      token (c.iend-anchor) 0 :: lengthBytes (c.iend-anchor) ++ c.source.drop anchor := by
    rw [Block.encode, encodeLast, hlast, List.append_assoc, List.cons_append]
  rw [htake, ← hencode] at hall
  have hop2 := hall.op_eq
  refine ⟨⟨ss,c.source.drop anchor⟩,mem2,?_,hall.slice,hall.kept,?_,h.backward,h.forward,?_,?_⟩
  · rw [lastLiterals]
    simp only [htoken, Option.bind_eq_bind, Option.bind_some, hcopy, Option.pure_def, hop2]
    congr 2
    push_cast
    omega
  · rw [Block.expand, h.text, List.take_append_drop]
  · intro q hq
    have hends := h.ends q hq
    simp only [hlast]
    omega
  · rw [hencode, List.length_append, List.length_append, List.length_cons, hlast]
    omega

theorem encodeLoop_spec {ss : List Sequence} {s : Encoder t} (hfits : Fits c t)
    (hcap : c.iend+c.iend/255+16 ≤ c.outputSize) (hlong : MFLIMIT ≤ c.iend)
    (h : Encoding c before ss s) :
    ∃ b : Block, ∃ mem', encodeLoop c s = some (((b.encode 0).length : ℤ),mem') ∧
      Holding c before mem' b := by
  induction hn : c.mflimitPlusOne-s.anchor using Nat.strong_induction_on generalizing s ss with
  | _ n ih =>
    obtain ⟨r, hturn, hstepped⟩ := encodeTurn_spec hfits hcap hlong h
    rw [encodeLoop]
    cases r with
    | again s' =>
      obtain ⟨ss', h'⟩ := hstepped
      have hadv := encodeTurn_advances hturn
      obtain ⟨b, mem', hloop, hholding⟩ := ih _ (by omega) h' rfl
      refine ⟨b,mem',?_,hholding⟩
      split <;> simp_all
    | lastLiterals anchor op mem =>
      obtain ⟨ss', h'⟩ := hstepped
      obtain ⟨b, mem', hlast, hholding⟩ := lastLiterals_spec hcap h'
      refine ⟨b,mem',?_,hholding⟩
      split <;> simp_all

theorem compressGeneric_spec (mem : Mem) (hfits : Fits c t)
    (hsize : c.source.length ≤ LZ4_MAX_INPUT_SIZE) (hcap : c.iend+c.iend/255+16 ≤ c.outputSize) :
    ∃ b : Block, ∃ mem', compressGeneric c t mem = some (((b.encode 0).length : ℤ),mem') ∧
      Holding c mem mem' b := by
  have hiend : c.iend = c.source.length := rfl
  have hlimit : MFLIMIT = 12 := rfl
  unfold compressGeneric
  rw [if_neg (not_lt.mpr hsize), if_neg fun h => absurd (hfits h.1) (not_lt.mpr h.2)]
  by_cases hshort : c.source.length < LZ4_minLength
  · rw [if_pos hshort]
    exact lastLiterals_spec hcap (packed_start c mem)
  · have hmin : LZ4_minLength = 13 := rfl
    obtain ⟨h0, hh0⟩ := hashPosition_at (c := c) (t := t) (p := 0) (by omega)
    obtain ⟨h1, hh1⟩ := hashPosition_at (c := c) (t := t) (p := 1) (by omega)
    simp only [if_neg hshort, hh0, hh1, Option.bind_eq_bind, Option.bind_some]
    refine encodeLoop_spec hfits hcap (by omega) ⟨packed_start c mem,?_,?_,fun m hm => nomatch hm⟩
    · simp only [Call.mflimitPlusOne]
      omega
    · exact (holds_zero Nat.one_pos).put hfits h0 Nat.one_pos (by omega)

/-- Within the bound of the header nothing is accessed outside of the buffers, and what is
returned is the length of a block that stands for the source. -/
theorem lz4CompressDefault_block (c : PackCall) (mem : Mem)
    (hsize : c.source.length ≤ LZ4_MAX_INPUT_SIZE) :
    ∃ b : Block, ∃ mem',
      lz4CompressDefault c mem = some (((b.encode 0).length : ℤ),mem') ∧
        Holding c.toCall mem mem' b := by
  have hcap := c.bound
  rw [compressBound_small _ hsize] at hcap
  exact compressGeneric_spec mem (fits_tableType c.toCall) hsize hcap

/-- A source is packed to a block of the format, within the bound, at least one byte and
without an access outside of the buffers, and what has been packed is unpacked to it,
wherever the buffers stand. -/
theorem lz4_round_trip (c : PackCall) (mem : Mem) (hsize : c.source.length ≤ LZ4_MAX_INPUT_SIZE) :
    ∃ r : ℕ, ∃ mem', lz4CompressDefault c mem = some ((r : ℤ),mem') ∧ 0 < r ∧
      r ≤ c.source.length+c.source.length/255+2 ∧ Kept mem mem' c.dst c.oend ∧
      (∃ b : Block, slice mem' c.dst r = b.encode 0 ∧ b.expand = c.source ∧
        Backward b.sequences 0 ∧ Forward b.sequences ∧ b.Ends) ∧
      ∀ d : Call, d.source = slice mem' c.dst r → c.source.length ≤ d.outputSize → ∀ out,
        ∃ out', lz4DecompressSafe d out = some ((c.source.length : ℤ),out') ∧
          slice out' d.dst c.source.length = c.source ∧ Kept out out' d.dst d.oend := by
  obtain ⟨b, mem', hpack, h⟩ := lz4CompressDefault_block c mem hsize
  refine ⟨_,mem',hpack,?_,h.bound,h.kept,
    ⟨b,h.slice,h.expand,h.backward,h.forward,h.ends⟩,fun d hsource hroom out => ?_⟩
  · exact List.length_pos_iff.mpr (encode_ne_nil b 0)
  · rw [h.slice] at hsource
    obtain ⟨out', hunpack, hkept, htext⟩ := lz4DecompressSafe_complete d out b 0 hsource h.backward
      h.ends (by rw [h.expand]; exact hroom) (Or.inr rfl)
    rw [h.expand] at hunpack htext
    exact ⟨out',hunpack,htext,hkept⟩

def zeros : PackCall where
  source := List.replicate 40 0#8
  src := 2^18
  dst := 2^19
  outputSize := 56
  src_start := by decide
  src_end := by decide
  dst_start := by decide
  dst_end := by decide
  apart := Or.inl (by decide)
  bound := by decide

def unpackZeros (packed : List Byte) (h : packed.length ≤ 42) : Call where
  source := packed
  src := 2^20
  dst := 2^21
  outputSize := 40
  src_start := by decide
  src_end := by omega
  dst_start := by decide
  dst_end := by decide
  apart := Or.inl (by omega)

theorem lz4_round_trip_zeros : ∃ r : ℕ, ∃ mem', ∃ d : Call, ∃ out',
    lz4CompressDefault zeros (fun _ => 0xFF#8) = some ((r : ℤ),mem') ∧
      d.source = slice mem' (2^19) r ∧ lz4DecompressSafe d (fun _ => 0xFF#8) = some (40,out') ∧
      slice out' (2^21) 40 = List.replicate 40 0#8 := by
  obtain ⟨r, mem', hpack, -, hle, -, -, hunpack⟩ :=
    lz4_round_trip zeros (fun _ => 0xFF#8) (by decide)
  have hlength : (slice mem' (2^19) r).length ≤ 42 := by
    rw [slice_length]
    exact hle
  obtain ⟨out', hrun, htext, -⟩ := hunpack (unpackZeros (slice mem' (2^19) r) hlength) rfl
    (Nat.le_refl _) (fun _ => 0xFF#8)
  exact ⟨r,mem',unpackZeros (slice mem' (2^19) r) hlength,out',hpack,rfl,hrun,htext⟩

end Pauline.Pack
