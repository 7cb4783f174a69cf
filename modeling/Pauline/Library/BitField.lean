import Mathlib.Tactic

/-!
# Fields of a word

A field of a word is assigned and the rest of it kept; a word is written byte by
byte under byte enables.
-/

set_option autoImplicit false

namespace BitField

variable {n w : ℕ}

def put (x : BitVec n) (lo : ℕ) (v : BitVec w) : BitVec n :=
  x &&& ~~~((BitVec.allOnes w).setWidth n <<< lo) ||| v.setWidth n <<< lo

theorem getLsbD_put (x : BitVec n) (lo : ℕ) (v : BitVec w) (i : ℕ) (hi : i < n) :
    (put x lo v).getLsbD i = if lo ≤ i ∧ i < lo + w then v.getLsbD (i - lo) else x.getLsbD i := by
  have hsub : i - lo < n := by omega
  simp only [put, BitVec.getLsbD_or, BitVec.getLsbD_and, BitVec.getLsbD_not,
    BitVec.getLsbD_shiftLeft, BitVec.getLsbD_setWidth, BitVec.getLsbD_allOnes, hi, hsub,
    decide_true, Bool.true_and]
  by_cases hlo : i < lo
  · have hout : ¬ (lo ≤ i ∧ i < lo + w) := by omega
    simp [hlo, hout]
  · by_cases hhi : i - lo < w
    · have hin : lo ≤ i ∧ i < lo + w := by omega
      simp [hlo, hhi, hin]
    · have hout : ¬ (lo ≤ i ∧ i < lo + w) := by omega
      have hzero : v.getLsbD (i - lo) = false := BitVec.getLsbD_of_ge v _ (by omega)
      simp [hlo, hhi, hout, hzero]

@[simp] theorem getElem_put (x : BitVec n) (lo : ℕ) (v : BitVec w) (i : ℕ) (hi : i < n) :
    (put x lo v)[i] = if lo ≤ i ∧ i < lo + w then v.getLsbD (i - lo) else x[i] := by
  rw [← BitVec.getLsbD_eq_getElem, getLsbD_put _ _ _ _ hi, BitVec.getLsbD_eq_getElem hi]

theorem put_inj (x : BitVec n) {lo : ℕ} (hlo : lo + w ≤ n) {u v : BitVec w} :
    put x lo u = put x lo v ↔ u = v := by
  constructor
  · intro h
    apply BitVec.eq_of_getLsbD_eq
    intro i hi
    have hbit : (put x lo u).getLsbD (lo + i) = (put x lo v).getLsbD (lo + i) := by rw [h]
    rw [getLsbD_put _ _ _ _ (by omega), getLsbD_put _ _ _ _ (by omega), if_pos (by omega),
      if_pos (by omega), Nat.add_sub_cancel_left] at hbit
    exact hbit
  · rintro rfl
    rfl

def writeBytes (be : BitVec 4) (data x : BitVec 32) : BitVec 32 :=
  (List.range 4).foldl
    (fun x i => if be.getLsbD i then put x (8 * i) (data.extractLsb' (8 * i) 8) else x) x

theorem getLsbD_putByte (enable : Bool) (data x : BitVec 32) (k i : ℕ) (hi : i < 32) :
    (if enable then put x (8 * k) (data.extractLsb' (8 * k) 8) else x).getLsbD i =
      if i / 8 = k ∧ enable then data.getLsbD i else x.getLsbD i := by
  cases enable with
  | false => simp
  | true =>
    rw [if_pos rfl, getLsbD_put _ _ _ _ hi]
    by_cases hk : i / 8 = k
    · have hin : 8 * k ≤ i ∧ i < 8 * k + 8 := by omega
      have hbyte : i - 8 * k < 8 := by omega
      have hsum : 8 * k + (i - 8 * k) = i := by omega
      simp [hin, hk, hbyte, hsum]
    · have hout : ¬ (8 * k ≤ i ∧ i < 8 * k + 8) := by omega
      simp [hout, hk]

theorem getLsbD_writeBytes (be : BitVec 4) (data x : BitVec 32) (i : ℕ) (hi : i < 32) :
    (writeBytes be data x).getLsbD i =
      if be.getLsbD (i / 8) then data.getLsbD i else x.getLsbD i := by
  have hbyte : i / 8 = 0 ∨ i / 8 = 1 ∨ i / 8 = 2 ∨ i / 8 = 3 := by omega
  simp only [writeBytes, List.range, List.range.loop, List.foldl_cons, List.foldl_nil,
    getLsbD_putByte _ _ _ _ _ hi]
  rcases hbyte with h | h | h | h <;> simp [h]

theorem writeBytes_twice (be : BitVec 4) (data x : BitVec 32) :
    writeBytes be data (writeBytes be data x) = writeBytes be data x := by
  apply BitVec.eq_of_getLsbD_eq
  intro i hi
  rw [getLsbD_writeBytes _ _ _ _ hi, getLsbD_writeBytes _ _ _ _ hi]
  split <;> rfl

/-! ## Flags -/

theorem or_and_apart (x m f : BitVec n) (h : m &&& f = 0#n) : (x ||| m) &&& f = x &&& f := by
  apply BitVec.eq_of_getLsbD_eq
  intro i _
  have hbit := congrArg (fun b => b.getLsbD i) h
  simp only [BitVec.getLsbD_and, BitVec.getLsbD_or, BitVec.getLsbD_zero] at hbit ⊢
  rw [Bool.and_or_distrib_right, hbit, Bool.or_false]

theorem andNot_and_apart (x m f : BitVec n) (h : m &&& f = 0#n) :
    (x &&& ~~~m) &&& f = x &&& f := by
  apply BitVec.eq_of_getLsbD_eq
  intro i hi
  have hbit := congrArg (fun b => b.getLsbD i) h
  simp only [BitVec.getLsbD_and, BitVec.getLsbD_not, BitVec.getLsbD_zero, hi, decide_true,
    Bool.true_and] at hbit ⊢
  cases hm : m.getLsbD i with
  | false => simp
  | true => simp [(by simpa [hm] using hbit : f.getLsbD i = false)]

end BitField
