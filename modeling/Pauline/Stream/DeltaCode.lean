import Pauline.Library.CodeStream

/-!
# The stream code of a pulse gap

The converters write the number of bit cells between two pulses in one to
four bytes, the prefix of the first byte telling the length:

    0XXXXXXX
    10XXXXXX XXXXXXXX
    110XXXXX XXXXXXXX XXXXXXXX
    1110XXXX XXXXXXXX XXXXXXXX XXXXXXXX

A gap of 28 bits or more is written as the largest gap that fits.
-/

set_option autoImplicit false

namespace Pauline.DeltaCode

abbrev Byte := BitVec 8

def byte (x : ℕ) : Byte := BitVec.ofNat 8 x

/-- The code every converter emits for `bits_delta`; the stores truncate to
an unsigned char. -/
def encodeDelta (bits_delta : ℕ) : List Byte :=
  if bits_delta < 0x80 then [byte bits_delta]
  else if bits_delta < 0x4000 then
    [byte (0x80 ||| (bits_delta >>> 8)), byte (bits_delta &&& 0xFF)]
  else if bits_delta < 0x200000 then
    [byte (0xC0 ||| (bits_delta >>> 16)), byte ((bits_delta >>> 8) &&& 0xFF),
      byte (bits_delta &&& 0xFF)]
  else if bits_delta < 0x10000000 then
    [byte (0xE0 ||| (bits_delta >>> 24)), byte ((bits_delta >>> 16) &&& 0xFF),
      byte ((bits_delta >>> 8) &&& 0xFF), byte (bits_delta &&& 0xFF)]
  else [byte (0xE0 ||| 0x0F), byte 0xFF, byte 0xFF, byte 0xFF]

/-- One turn of the byte reader of `decodestream` at offset `k`: the gap it
adds to the position and the offset it leaves. A first byte `1111XXXX` adds
nothing. -/
def readCode (unpacked_data : ℕ → Byte) (k : ℕ) : ℕ × ℕ :=
  let c := unpacked_data k
  if c &&& 0x80#8 = 0#8 then (c.toNat, k+1)
  else if c &&& 0xC0#8 = 0x80#8 then
    (((c &&& 0x3F#8).toNat <<< 8) ||| (unpacked_data (k+1)).toNat, k+2)
  else if c &&& 0xE0#8 = 0xC0#8 then
    (((c &&& 0x1F#8).toNat <<< 16) ||| ((unpacked_data (k+1)).toNat <<< 8) |||
      (unpacked_data (k+2)).toNat, k+3)
  else if c &&& 0xF0#8 = 0xE0#8 then
    (((c &&& 0x0F#8).toNat <<< 24) ||| ((unpacked_data (k+1)).toNat <<< 16) |||
      ((unpacked_data (k+2)).toNat <<< 8) ||| (unpacked_data (k+3)).toNat, k+4)
  else (0, k+1)

def maxDelta : ℕ := 0x0FFFFFFF

theorem encodeDelta_saturates (bits_delta : ℕ) :
    encodeDelta bits_delta = encodeDelta (min bits_delta maxDelta) := by
  by_cases h : bits_delta ≤ maxDelta
  · rw [Nat.min_eq_left h]
  · rw [Nat.min_eq_right (by omega)]
    unfold maxDelta at *
    simp only [encodeDelta, show ¬bits_delta < 0x80 by omega,
      show ¬bits_delta < 0x4000 by omega, show ¬bits_delta < 0x200000 by omega,
      show ¬bits_delta < 0x10000000 by omega, if_false]
    decide

theorem encodeDelta_ne_nil (bits_delta : ℕ) : encodeDelta bits_delta ≠ [] := by
  unfold encodeDelta
  split_ifs <;> simp

/-! Each prefix selects its own branch of the reader and leaves the payload. -/

theorem prefix1 : ∀ x < 0x80, byte x &&& 0x80#8 = 0#8 := by decide

theorem prefix2 : ∀ x < 0x40, byte (0x80 ||| x) &&& 0x80#8 ≠ 0#8 ∧
    byte (0x80 ||| x) &&& 0xC0#8 = 0x80#8 ∧ (byte (0x80 ||| x) &&& 0x3F#8).toNat = x := by
  decide

theorem prefix3 : ∀ x < 0x20, byte (0xC0 ||| x) &&& 0x80#8 ≠ 0#8 ∧
    byte (0xC0 ||| x) &&& 0xC0#8 ≠ 0x80#8 ∧ byte (0xC0 ||| x) &&& 0xE0#8 = 0xC0#8 ∧
    (byte (0xC0 ||| x) &&& 0x1F#8).toNat = x := by
  decide

theorem prefix4 : ∀ x < 0x10, byte (0xE0 ||| x) &&& 0x80#8 ≠ 0#8 ∧
    byte (0xE0 ||| x) &&& 0xC0#8 ≠ 0x80#8 ∧ byte (0xE0 ||| x) &&& 0xE0#8 ≠ 0xC0#8 ∧
    byte (0xE0 ||| x) &&& 0xF0#8 = 0xE0#8 ∧ (byte (0xE0 ||| x) &&& 0x0F#8).toNat = x := by
  decide

theorem byte_low (x : ℕ) : (byte (x &&& 0xFF)).toNat = x % 256 := by
  rw [Nat.and_two_pow_sub_one_eq_mod x 8]
  simp [byte]

theorem or_low (x y : ℕ) (n : ℕ) (h : y < 2^n) : x <<< n ||| y = x*2^n+y := by
  rw [← Nat.shiftLeft_add_eq_or_of_lt h, Nat.shiftLeft_eq]

theorem join2 (d : ℕ) : (d >>> 8) <<< 8 ||| d % 256 = d := by
  have hm : d % 256 < 2^8 := Nat.mod_lt _ (by decide)
  rw [or_low _ _ 8 hm, Nat.shiftRight_eq_div_pow]
  omega

theorem join3 (d : ℕ) : (d >>> 16) <<< 16 ||| (d >>> 8 % 256) <<< 8 ||| d % 256 = d := by
  have h : (d >>> 16) <<< 16 ||| (d >>> 8 % 256) <<< 8 = (d >>> 8) <<< 8 := by
    have := congrArg (· <<< 8) (join2 (d >>> 8))
    simpa only [Nat.shiftLeft_or_distrib, ← Nat.shiftLeft_add, ← Nat.shiftRight_add] using this
  rw [h, join2]

theorem join4 (d : ℕ) : (d >>> 24) <<< 24 ||| (d >>> 16 % 256) <<< 16 |||
    (d >>> 8 % 256) <<< 8 ||| d % 256 = d := by
  have h : (d >>> 24) <<< 24 ||| (d >>> 16 % 256) <<< 16 ||| (d >>> 8 % 256) <<< 8 =
      (d >>> 8) <<< 8 := by
    have := congrArg (· <<< 8) (join3 (d >>> 8))
    simpa only [Nat.shiftLeft_or_distrib, ← Nat.shiftLeft_add, ← Nat.shiftRight_add] using this
  rw [h, join2]

/-- The reader gives back every gap the code can carry and stops right behind
its bytes, whatever follows them in memory. -/
theorem readCode_encodeDelta (u : ℕ → Byte) (k d : ℕ) (hd : d ≤ maxDelta)
    (hu : CodeStream.Holds u k (encodeDelta d)) :
    readCode u k = (d, k+(encodeDelta d).length) := by
  unfold maxDelta at hd
  have hs (n : ℕ) : d >>> n = d / 2^n := Nat.shiftRight_eq_div_pow d n
  unfold encodeDelta at hu ⊢
  split_ifs at hu ⊢ with h1 h2 h3 h4
  · have hb : (byte d).toNat = d := Nat.mod_eq_of_lt (by omega)
    simp only [CodeStream.Holds, and_true] at hu
    simp only [readCode, hu, prefix1 d h1, hb, if_true, List.length_singleton]
  · obtain ⟨p1, p2, p3⟩ := prefix2 (d >>> 8) (by rw [hs]; omega)
    simp only [CodeStream.Holds, and_true] at hu
    simp only [readCode, hu.1, hu.2, p1, p2, p3, byte_low, join2, if_true, if_false]
    rfl
  · obtain ⟨p1, p2, p3, p4⟩ := prefix3 (d >>> 16) (by rw [hs]; omega)
    simp only [CodeStream.Holds, and_true] at hu
    simp only [readCode, hu.1, hu.2.1, hu.2.2, p1, p2, p3, p4, byte_low, join3, if_true, if_false]
    rfl
  · obtain ⟨p1, p2, p3, p4, p5⟩ := prefix4 (d >>> 24) (by rw [hs]; omega)
    simp only [CodeStream.Holds, and_true] at hu
    simp only [readCode, hu.1, hu.2.1, hu.2.2.1, hu.2.2.2, p1, p2, p3, p4, p5, byte_low, join4,
      if_true, if_false]
    rfl
  · omega

/-- The gaps of a whole stream are read back in order. -/
theorem readMany_encodeDelta (u : ℕ → Byte) (k : ℕ) (ds : List ℕ)
    (hd : ∀ d ∈ ds, d ≤ maxDelta) (hu : CodeStream.Holds u k (ds.flatMap encodeDelta)) :
    CodeStream.readMany (readCode u) ds.length k = ds :=
  CodeStream.readMany_encoded readCode encodeDelta (· ≤ maxDelta)
    (fun u k d hd hu => readCode_encodeDelta u k d hd hu) u k ds hd hu

end Pauline.DeltaCode
