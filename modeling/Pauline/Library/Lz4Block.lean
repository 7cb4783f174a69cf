import Mathlib.Tactic
import Pauline.Library.Buffer

/-!
# The LZ4 block format

A block is a list of sequences and a last run of literals. A sequence puts out
its literals and then repeats what stands an offset before its end, byte by byte,
so that a match may reach into itself.
-/

set_option autoImplicit false

namespace Lz4Block

abbrev Byte := BitVec 8

/-! ## Back references -/

def backByte (off : ℕ) (out : List Byte) : List Byte := out ++ [out.getD (out.length-off) 0#8]

def backCopy (off len : ℕ) (out : List Byte) : List Byte := (backByte off)^[len] out

def trail (off : ℕ) (out : List Byte) (i : ℕ) : Byte :=
  if i < out.length then out.getD i 0#8
  else if off = 0 then 0#8
  else out.getD (out.length-off+(i-out.length) % off) 0#8

theorem trail_old {off i : ℕ} {out : List Byte} (h : i < out.length) :
    trail off out i = out.getD i 0#8 := if_pos h

theorem trail_zero {i : ℕ} {out : List Byte} (h : out.length ≤ i) : trail 0 out i = 0#8 := by
  unfold trail
  rw [if_neg (by omega), if_pos rfl]

theorem trail_back {off i : ℕ} {out : List Byte} (hoff : off ≤ out.length) (hpos : 0 < off)
    (hi : out.length ≤ i) : trail off out i = trail off out (i-off) := by
  unfold trail
  rw [if_neg (by omega), if_neg (by omega)]
  by_cases hlt : i-off < out.length
  · rw [if_pos hlt, Nat.mod_eq_of_lt (by omega)]
    congr 1
    omega
  · rw [if_neg hlt, if_neg (by omega)]
    have hmod : (i-out.length) % off = (i-off-out.length) % off := by
      rw [show i-out.length = i-off-out.length+off by omega, Nat.add_mod_right]
    rw [hmod]

def Steps (off dist : ℕ) : Prop := off = 0 ∨ off ∣ dist

theorem trail_steps {off dist s : ℕ} {out : List Byte} (hoff : off ≤ out.length)
    (hs : out.length-off ≤ s) (hdist : Steps off dist) :
    trail off out (s+dist) = trail off out s := by
  obtain rfl | ⟨n, rfl⟩ := hdist
  · rw [trail_zero (by omega), trail_zero (by omega)]
  · obtain rfl | hpos := Nat.eq_zero_or_pos off
    · rw [Nat.zero_mul, Nat.add_zero]
    · induction n with
      | zero => rw [Nat.mul_zero, Nat.add_zero]
      | succ n ih =>
        have hle : off ≤ off*(n+1) := Nat.le_mul_of_pos_right off (Nat.succ_pos n)
        rw [trail_back hoff hpos (by omega),
          show s+off*(n+1)-off = s+off*n by rw [Nat.mul_succ]; omega, ih]

/-- A match as a whole is the text read with its period. -/
theorem backCopy_eq {off : ℕ} {out : List Byte} (len : ℕ) (hoff : off ≤ out.length) :
    backCopy off len out = (List.range (out.length+len)).map (trail off out) := by
  unfold backCopy
  induction len with
  | zero =>
    rw [Function.iterate_zero, id, Nat.add_zero]
    apply List.ext_getElem
    · simp
    · intro i hi _
      simp [trail, hi]
  | succ len ih =>
    rw [Function.iterate_succ_apply', ih, backByte, List.length_map, List.length_range,
      ← Nat.add_assoc, List.range_succ, List.map_append, List.map_singleton]
    congr 2
    obtain rfl | hpos := Nat.eq_zero_or_pos off
    · rw [trail_zero (by omega)]
      simp
    · rw [trail_back hoff hpos (by omega)]
      simp [List.getD_eq_getElem?_getD, show out.length+len-off < out.length+len by omega]

theorem backCopy_getD {off len i : ℕ} {out : List Byte} (hoff : off ≤ out.length)
    (hi : i < out.length+len) : (backCopy off len out).getD i 0#8 = trail off out i := by
  rw [backCopy_eq len hoff]
  simp [List.getD_eq_getElem?_getD, hi]

theorem backCopy_length (off len : ℕ) (out : List Byte) :
    (backCopy off len out).length = out.length+len := by
  unfold backCopy
  induction len with
  | zero => rfl
  | succ len ih =>
    rw [Function.iterate_succ_apply', backByte, List.length_append, ih, List.length_singleton]
    omega

/-- A match of a text with itself goes on with the text. -/
theorem backCopy_take {src : List Byte} {off pos : ℕ} (len : ℕ) (hpos : 0 < off)
    (hoff : off ≤ pos) (hlen : pos+len ≤ src.length)
    (hsame : ∀ k < len, src.getD (pos+k) 0#8 = src.getD (pos+k-off) 0#8) :
    backCopy off len (src.take pos) = src.take (pos+len) := by
  unfold backCopy
  induction len with
  | zero => rfl
  | succ len ih =>
    have hprev := ih (by omega) fun k hk => hsame k (by omega)
    have hbyte := hsame len (by omega)
    have htake : (src.take (pos+len)).length = pos+len := List.length_take_of_le (by omega)
    have hback : (src.take (pos+len)).getD (pos+len-off) 0#8 = src.getD (pos+len-off) 0#8 := by
      simp only [List.getD_eq_getElem?_getD, List.getElem?_take,
        if_pos (show pos+len-off < pos+len by omega)]
    rw [Function.iterate_succ_apply', hprev, backByte, htake, hback, ← hbyte, ← Nat.add_assoc,
      List.take_add_one]
    simp [List.getD_eq_getElem?_getD, show pos+len < src.length by omega]

/-! ## Blocks -/

structure Sequence where
  literals : List Byte
  offset : ℕ
  matchLength : ℕ
  offset_lt : offset < 2^16
  four_le : 4 ≤ matchLength

structure Block where
  sequences : List Sequence
  last : List Byte

def Sequence.apply (s : Sequence) (out : List Byte) : List Byte :=
  backCopy s.offset s.matchLength (out ++ s.literals)

def Sequence.size (s : Sequence) : ℕ := s.literals.length+s.matchLength

def applyAll (ss : List Sequence) (out : List Byte) : List Byte :=
  ss.foldl (fun out s => s.apply out) out

def Block.expand (b : Block) : List Byte := applyAll b.sequences [] ++ b.last

def Backward : List Sequence → ℕ → Prop
  | [], _ => True
  | s :: ss, pos => s.offset ≤ pos+s.literals.length ∧ Backward ss (pos+s.size)

/-- The format has no offset of 0. An unpacker that takes one puts out zero bytes
for it, as `trail` does. -/
def Forward (ss : List Sequence) : Prop := ∀ s ∈ ss, 0 < s.offset

def sizes (ss : List Sequence) : ℕ := (ss.map Sequence.size).sum

@[simp] theorem Sequence.apply_length (s : Sequence) (out : List Byte) :
    (s.apply out).length = out.length+s.size := by
  rw [Sequence.apply, backCopy_length, List.length_append, Sequence.size, Nat.add_assoc]

theorem applyAll_cons (s : Sequence) (ss : List Sequence) (out : List Byte) :
    applyAll (s :: ss) out = applyAll ss (s.apply out) := rfl

theorem applyAll_append (ss ts : List Sequence) (out : List Byte) :
    applyAll (ss ++ ts) out = applyAll ts (applyAll ss out) := List.foldl_append ..

theorem applyAll_length (ss : List Sequence) (out : List Byte) :
    (applyAll ss out).length = out.length+sizes ss := by
  induction ss generalizing out with
  | nil => rfl
  | cons s ss ih =>
    rw [applyAll_cons, ih, Sequence.apply_length, sizes, sizes, List.map_cons, List.sum_cons]
    omega

theorem Block.expand_length (b : Block) : b.expand.length = sizes b.sequences+b.last.length := by
  rw [Block.expand, List.length_append, applyAll_length, List.length_nil, Nat.zero_add]

theorem backward_append (ss ts : List Sequence) (pos : ℕ) :
    Backward (ss ++ ts) pos ↔ Backward ss pos ∧ Backward ts (pos+sizes ss) := by
  induction ss generalizing pos with
  | nil => exact ⟨fun h => ⟨trivial,h⟩,fun h => h.2⟩
  | cons s ss ih =>
    rw [List.cons_append, Backward, Backward, ih, sizes, sizes, List.map_cons, List.sum_cons,
      ← Nat.add_assoc, and_assoc]

/-! ## The bytes of a block -/

def lengthTail (n : ℕ) : List Byte := List.replicate (n/255) 255#8 ++ [BitVec.ofNat 8 (n % 255)]

def lengthBytes (n : ℕ) : List Byte := if n < 15 then [] else lengthTail (n-15)

def token (literals matchCode : ℕ) : Byte := BitVec.ofNat 8 (16*min 15 literals+min 15 matchCode)

def offsetBytes (n : ℕ) : List Byte := [BitVec.ofNat 8 n,BitVec.ofNat 8 (n/2^8)]

def Sequence.tail (s : Sequence) : List Byte :=
  offsetBytes s.offset ++ lengthBytes (s.matchLength-4)

def Sequence.encode (s : Sequence) : List Byte :=
  token s.literals.length (s.matchLength-4) ::
    (lengthBytes s.literals.length ++ (s.literals ++ s.tail))

def encodeLast (matchCode : ℕ) (last : List Byte) : List Byte :=
  token last.length matchCode :: (lengthBytes last.length ++ last)

def encodeAll (ss : List Sequence) : List Byte := ss.flatMap Sequence.encode

def Block.encode (matchCode : ℕ) (b : Block) : List Byte :=
  encodeAll b.sequences ++ encodeLast matchCode b.last

theorem encodeAll_append (ss ts : List Sequence) :
    encodeAll (ss ++ ts) = encodeAll ss ++ encodeAll ts := List.flatMap_append

theorem encodeAll_cons (s : Sequence) (ss : List Sequence) :
    encodeAll (s :: ss) = s.encode ++ encodeAll ss := List.flatMap_cons

theorem lengthTail_small {n : ℕ} (h : n < 255) : lengthTail n = [BitVec.ofNat 8 n] := by
  rw [lengthTail, Nat.div_eq_of_lt h, Nat.mod_eq_of_lt h]
  rfl

theorem lengthTail_add (n : ℕ) : lengthTail (n+255) = 255#8 :: lengthTail n := by
  rw [lengthTail, Nat.add_div_right _ (by decide), Nat.add_mod_right, List.replicate_succ,
    List.cons_append, lengthTail]

theorem lengthTail_length (n : ℕ) : (lengthTail n).length = n/255+1 := by simp [lengthTail]

theorem lengthBytes_length (n : ℕ) : (lengthBytes n).length = if n < 15 then 0 else (n-15)/255+1 := by
  unfold lengthBytes
  split_ifs
  · rfl
  · exact lengthTail_length _

theorem Sequence.encode_length (q : Sequence) : q.encode.length =
    1+(lengthBytes q.literals.length).length+q.literals.length+q.tail.length := by
  rw [Sequence.encode, List.length_cons, List.length_append, List.length_append]
  omega

theorem token_high (literals matchCode : ℕ) :
    (token literals matchCode).toNat/16 = min 15 literals := by
  rw [token, BitVec.toNat_ofNat]
  omega

theorem token_low (literals matchCode : ℕ) :
    (token literals matchCode).toNat % 16 = min 15 matchCode := by
  rw [token, BitVec.toNat_ofNat]
  omega

theorem encode_ne_nil (b : Block) (matchCode : ℕ) : b.encode matchCode ≠ [] := by
  rw [Block.encode, encodeLast]
  exact List.append_ne_nil_of_right_ne_nil _ (List.cons_ne_nil _ _)

/-- The rules for the end of a block: the last literals are five or more, and the last
match begins at least twelve bytes before the end. -/
def Block.Ends (b : Block) : Prop :=
  ∀ s, b.sequences.getLast? = some s → 5 ≤ b.last.length ∧ 12 ≤ s.matchLength+b.last.length

end Lz4Block
