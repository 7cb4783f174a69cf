import Pauline.Pack.Decompress

/-!
# Lengths read back

The decoder reads a length the way it was written. When the input ends before the
length does, what it has read is more than what is left of the input.
-/

set_option autoImplicit false

namespace Pauline.Pack
open Lz4Block

def Call.Roomy (c : Call) : Prop := c.oend+255*c.source.length+19 < 2^32

variable {c : Call}

/-- The loop on a length and what follows it. -/
theorem variableLengthLoop_known {ip n : ℕ} (before length : ℕ) {rest : List Byte}
    (htext : c.source.drop ip = lengthTail n ++ rest) (hwrap : length+n < 2^32)
    (hrest : before ≤ rest.length) :
    ∃ error, variableLengthLoop c before ip length = some (length+n,ip+(n/255+1),error) ∧
      error ≠ .initial_error ∧ (before < rest.length → error = .ok) := by
  induction n using Nat.strong_induction_on generalizing ip length with
  | _ n ih =>
    have hiend : c.iend = c.source.length := rfl
    have hlen : c.source.length-ip = n/255+1+rest.length := by
      rw [← List.length_drop, htext, List.length_append, lengthTail_length]
    have hlt : ip < c.source.length := by omega
    have hdrop := drop_byte hlt
    rw [variableLengthLoop, dif_pos hlt]
    obtain hsmall | ⟨m, rfl⟩ : n < 255 ∨ ∃ m, n = m+255 :=
      (Nat.lt_or_ge n 255).imp_right fun h => ⟨n-255,by omega⟩
    · rw [htext, lengthTail_small hsmall, List.singleton_append, List.cons.injEq] at hdrop
      have hbyte : (c.source.get ⟨ip,hlt⟩).toNat = n := by
        rw [← hdrop.1, BitVec.toNat_ofNat]
        omega
      have hne : c.source.get ⟨ip,hlt⟩ ≠ 255#8 := by
        intro h
        rw [h] at hbyte
        exact absurd hbyte (by rw [BitVec.toNat_ofNat]; omega)
      rw [Nat.div_eq_of_lt hsmall] at hlen ⊢
      simp only [hbyte, Nat.mod_eq_of_lt hwrap, if_neg hne]
      split_ifs with hend
      · exact ⟨_,rfl,by decide,fun h => by omega⟩
      · exact ⟨_,rfl,by decide,fun _ => rfl⟩
    · have hmore : length+255+m < 2^32 := by rwa [Nat.add_assoc, Nat.add_comm 255 m]
      have hsum : length+255 < 2^32 := (Nat.le_add_right _ m).trans_lt hmore
      rw [htext, lengthTail_add, List.cons_append, List.cons.injEq] at hdrop
      have hbyte : (c.source.get ⟨ip,hlt⟩).toNat = 255 := by
        rw [← hdrop.1]
        rfl
      rw [Nat.add_div_right _ (by decide)] at hlen ⊢
      obtain ⟨error, hloop, herror⟩ := ih m (by omega) (length+255) hdrop.2.symm hmore
      refine ⟨error,?_,herror⟩
      simp only [hbyte, Nat.mod_eq_of_lt hsum, if_neg (show ¬c.iend ≤ ip+1+before by omega),
        if_pos hdrop.1.symm, hloop]
      rw [show length+255+m = length+(m+255) by omega,
        show ip+1+(m/255+1) = ip+(m/255+1+1) by omega]

/-! ## The length of a match -/

theorem readMatchLength_known {ip n : ℕ} {rest : List Byte}
    (htext : c.source.drop ip = lengthBytes n ++ rest) (hn : n < 2^32) (hrest : 4 < rest.length) :
    readMatchLength c (min 15 n) ip = some (n,ip+(lengthBytes n).length,.ok) := by
  have hmask : ML_MASK = 15 := rfl
  have hlast : LASTLITERALS-1 = 4 := rfl
  unfold readMatchLength
  by_cases hlong : n < 15
  · rw [if_neg (by omega), lengthBytes, if_pos hlong, min_eq_right (by omega)]
    rfl
  · rw [lengthBytes, if_neg hlong] at htext ⊢
    obtain ⟨error, hloop, -, hok⟩ := variableLengthLoop_known (LASTLITERALS-1) 0 htext (by omega) (by omega)
    rw [hok (by omega), Nat.zero_add] at hloop
    rw [if_pos (by omega)]
    simp only [readVariableLength, Bool.false_eq_true, false_and, if_false, hloop,
      Option.bind_eq_bind, Option.bind_some, Option.pure_def, lengthTail_length]
    rw [Nat.mod_eq_of_lt (by omega), min_eq_left (by omega), Nat.add_sub_cancel' (by omega)]

/-! ## The length of the literals -/

theorem readLiteralLength_known {ip n : ℕ} {rest : List Byte}
    (htext : c.source.drop ip = lengthTail n ++ rest) (hn : n < 2^32) (hrest : 15 ≤ rest.length) :
    ∃ error, readVariableLength c RUN_MASK true ip = some (n,ip+(n/255+1),error) ∧
      error ≠ .initial_error := by
  have hlen : c.source.length-ip = n/255+1+rest.length := by
    rw [← List.length_drop, htext, List.length_append, lengthTail_length]
  have hiend : c.iend = c.source.length := rfl
  have hmask : RUN_MASK = 15 := rfl
  obtain ⟨error, hloop, herror, -⟩ := variableLengthLoop_known RUN_MASK 0 htext (by omega) hrest
  rw [Nat.zero_add] at hloop
  exact ⟨error,(if_neg fun h => by omega).trans hloop,herror⟩

end Pauline.Pack
