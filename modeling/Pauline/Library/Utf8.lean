import Mathlib.Tactic

/-!
# Text as bytes

A character is one to four bytes of its code point. Which bytes may be those of a
character is stated by ranges alone.
-/

set_option autoImplicit false

namespace Utf8

abbrev Byte := BitVec 8

def encodeChar (c : Char) : List Byte := (String.utf8EncodeChar c).map UInt8.toBitVec

def encode (text : List Char) : List Byte := text.flatMap encodeChar

def spell (v : ℕ) : List Byte :=
  if v ≤ 0x7f then [BitVec.ofNat 8 v]
  else if v ≤ 0x7ff then [BitVec.ofNat 8 (v/64 % 32+0xc0),BitVec.ofNat 8 (v % 64+0x80)]
  else if v ≤ 0xffff then
    [BitVec.ofNat 8 (v/4096 % 16+0xe0),BitVec.ofNat 8 (v/64 % 64+0x80),
      BitVec.ofNat 8 (v % 64+0x80)]
  else
    [BitVec.ofNat 8 (v/262144 % 8+0xf0),BitVec.ofNat 8 (v/4096 % 64+0x80),
      BitVec.ofNat 8 (v/64 % 64+0x80),BitVec.ofNat 8 (v % 64+0x80)]

theorem encodeChar_eq (c : Char) : encodeChar c = spell c.val.toNat := by
  simp only [encodeChar, spell, String.utf8EncodeChar]
  split_ifs <;> rfl

def Tail (b : Byte) : Prop := 0x80 ≤ b.toNat ∧ b.toNat < 0xc0

instance (b : Byte) : Decidable (Tail b) := inferInstanceAs (Decidable (_ ∧ _))

/-- The bytes of one character. The second byte keeps out longer spellings of a code point,
the surrogates, and what is beyond the last code point. -/
inductive Sequence : List Byte → Prop
  | one {a : Byte} : a.toNat < 0x80 → Sequence [a]
  | two {a b : Byte} : 0xc2 ≤ a.toNat → a.toNat < 0xe0 → Tail b → Sequence [a,b]
  | three {a b c : Byte} : 0xe0 ≤ a.toNat → a.toNat < 0xf0 → Tail b → Tail c →
      (a.toNat = 0xe0 → 0xa0 ≤ b.toNat) → (a.toNat = 0xed → b.toNat < 0xa0) → Sequence [a,b,c]
  | four {a b c d : Byte} : 0xf0 ≤ a.toNat → a.toNat < 0xf5 → Tail b → Tail c → Tail d →
      (a.toNat = 0xf0 → 0x90 ≤ b.toNat) → (a.toNat = 0xf4 → b.toNat < 0x90) → Sequence [a,b,c,d]

theorem eq_ofNat {b : Byte} {n : ℕ} (h : b.toNat = n) : b = BitVec.ofNat 8 n := by
  rw [← h, BitVec.ofNat_toNat, BitVec.setWidth_eq]

theorem sequence_spells {bs : List Byte} (h : Sequence bs) : ∃ v, v.isValidChar ∧ bs = spell v := by
  unfold Nat.isValidChar
  cases h with
  | @one a ha =>
    refine ⟨a.toNat,by omega,?_⟩
    rw [spell, if_pos (by omega), ← eq_ofNat rfl]
  | @two a b hlo hhi hb =>
    unfold Tail at hb
    refine ⟨(a.toNat-0xc0)*64+(b.toNat-0x80),by omega,?_⟩
    rw [spell, if_neg (by omega), if_pos (by omega), ← eq_ofNat (by omega : a.toNat = _),
      ← eq_ofNat (by omega : b.toNat = _)]
  | @three a b c hlo hhi hb hc hshort hsurrogate =>
    unfold Tail at hb hc
    refine ⟨(a.toNat-0xe0)*4096+(b.toNat-0x80)*64+(c.toNat-0x80),by omega,?_⟩
    rw [spell, if_neg (by omega), if_neg (by omega), if_pos (by omega),
      ← eq_ofNat (by omega : a.toNat = _), ← eq_ofNat (by omega : b.toNat = _),
      ← eq_ofNat (by omega : c.toNat = _)]
  | @four a b c d hlo hhi hb hc hd hshort hlast =>
    unfold Tail at hb hc hd
    refine ⟨(a.toNat-0xf0)*262144+(b.toNat-0x80)*4096+(c.toNat-0x80)*64+(d.toNat-0x80),
      by omega,?_⟩
    rw [spell, if_neg (by omega), if_neg (by omega), if_neg (by omega),
      ← eq_ofNat (by omega : a.toNat = _), ← eq_ofNat (by omega : b.toNat = _),
      ← eq_ofNat (by omega : c.toNat = _), ← eq_ofNat (by omega : d.toNat = _)]

theorem spell_sequence {v : ℕ} (h : v.isValidChar) : Sequence (spell v) := by
  unfold Nat.isValidChar at h
  unfold spell
  have htail (n : ℕ) : Tail (BitVec.ofNat 8 (n % 64+0x80)) := by
    unfold Tail
    rw [BitVec.toNat_ofNat]
    omega
  split_ifs with h1 h2 h3
  · apply Sequence.one
    rw [BitVec.toNat_ofNat]
    omega
  · apply Sequence.two _ _ (htail v)
    · rw [BitVec.toNat_ofNat]
      omega
    · rw [BitVec.toNat_ofNat]
      omega
  · apply Sequence.three _ _ (htail (v/64)) (htail v)
    all_goals
      simp only [BitVec.toNat_ofNat]
      omega
  · apply Sequence.four _ _ (htail (v/4096)) (htail (v/64)) (htail v)
    all_goals
      simp only [BitVec.toNat_ofNat]
      omega

/-- The ranges are those of the encoding. -/
theorem sequence_iff (bs : List Byte) : Sequence bs ↔ ∃ c, bs = encodeChar c := by
  constructor
  · intro h
    obtain ⟨v, hv, hbs⟩ := sequence_spells h
    refine ⟨Char.ofNatAux v hv,?_⟩
    rw [encodeChar_eq]
    exact hbs
  · rintro ⟨c, rfl⟩
    rw [encodeChar_eq]
    exact spell_sequence c.valid

/-! ## Texts -/

def Text (bs : List Byte) : Prop := ∃ text, bs = encode text

theorem Text.nil : Text [] := ⟨[],rfl⟩

theorem Text.cons {bs rest : List Byte} (h : Sequence bs) (hrest : Text rest) :
    Text (bs ++ rest) := by
  obtain ⟨c, rfl⟩ := (sequence_iff bs).mp h
  obtain ⟨text, rfl⟩ := hrest
  exact ⟨c :: text,rfl⟩

/-- What holds of a text is proved character by character. -/
theorem Text.induct {p : List Byte → Prop} (hnil : p [])
    (hcons : ∀ bs rest, Sequence bs → p rest → p (bs ++ rest)) {bs : List Byte} (h : Text bs) :
    p bs := by
  obtain ⟨text, rfl⟩ := h
  induction text with
  | nil => exact hnil
  | cons c text ih => exact hcons _ _ ((sequence_iff _).mpr ⟨c,rfl⟩) ih

end Utf8
