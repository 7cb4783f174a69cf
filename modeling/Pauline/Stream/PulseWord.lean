import Pauline.Library.DoWhile
import Pauline.Stream.DeltaCode

/-!
# Pulse words and the conversion table

A sample word holds sixteen bit cells, the first in the top bit. The table
of `prepare_LUT` has an entry for the words with one pulse only; a word with
several pulses misses it.
-/

set_option autoImplicit false

namespace Pauline.PulseWord
open Pauline.DeltaCode

abbrev Word := BitVec 16

def cells (w : Word) : List ℕ := (List.range 16).filter (fun k => w.getMsbD k)

theorem mem_cells (w : Word) (k : ℕ) : k ∈ cells w ↔ k < 16 ∧ w.getMsbD k = true := by
  simp [cells]

theorem cells_eq_nil (w : Word) : cells w = [] ↔ w = 0#16 := by
  constructor
  · intro h
    apply BitVec.eq_of_getMsbD_eq
    intro k hk
    have hn : k ∉ cells w := by simp [h]
    simpa [mem_cells, hk] using hn
  · rintro rfl
    decide

theorem single_toNat (w : Word) (b : ℕ) (h : cells w = [b]) : b < 16 ∧ w.toNat = 2^(15-b) := by
  have hb : b ∈ cells w := by simp [h]
  obtain ⟨hb16, hbit⟩ := (mem_cells w b).mp hb
  have hw : w = BitVec.twoPow 16 (15-b) := by
    apply BitVec.eq_of_getMsbD_eq
    intro k hk
    have hk' : w.getMsbD k = true ↔ k = b := by
      have := mem_cells w k
      simpa [h, hk] using this.symm
    rw [BitVec.getMsbD_twoPow, Bool.eq_iff_iff, hk']
    simp only [Bool.and_eq_true, decide_eq_true_eq]
    omega
  refine ⟨hb16, ?_⟩
  rw [hw, BitVec.toNat_twoPow]
  exact Nat.mod_eq_of_lt (Nat.pow_lt_pow_right (by decide) (by omega))

theorem twoPow_cells : ∀ k < 16, cells (BitVec.ofNat 16 (2^k)) = [15-k] := by decide

def lutLoop (i b a : ℕ) (lut : ℕ → ℕ) : ℕ → ℕ :=
  if _hi : i = 0 then lut
  else lutLoop (i >>> 1) (b+1) (a-1) (Function.update lut i ((b <<< 8) ||| a))
termination_by i
decreasing_by
  rw [Nat.shiftRight_eq_div_pow]
  exact Nat.div_lt_self (Nat.pos_of_ne_zero _hi) (by decide)

def prepareLUT : ℕ → ℕ := lutLoop 0x8000 0 16 (fun _ => 0)

theorem lutLoop_zero (b a : ℕ) (lut : ℕ → ℕ) : lutLoop 0 b a lut = lut := by
  rw [lutLoop, dif_pos rfl]

theorem lutLoop_pow (m b a : ℕ) (lut : ℕ → ℕ) :
    lutLoop (2^m) b a lut = lutLoop (2^m >>> 1) (b+1) (a-1)
      (Function.update lut (2^m) ((b <<< 8) ||| a)) := by
  rw [lutLoop, dif_neg (by positivity)]

theorem pow_shift (m : ℕ) : 2^(m+1) >>> 1 = 2^m := by
  rw [Nat.shiftRight_eq_div_pow, pow_succ]
  omega

theorem lutLoop_other (m b a : ℕ) (lut : ℕ → ℕ) (x : ℕ) (hx : ∀ k ≤ m, x ≠ 2^k) :
    lutLoop (2^m) b a lut x = lut x := by
  induction m generalizing b a lut with
  | zero =>
    rw [lutLoop_pow, show 2^0 >>> 1 = 0 from rfl, lutLoop_zero,
      Function.update_of_ne (hx 0 (by omega))]
  | succ m ih =>
    rw [lutLoop_pow, pow_shift, ih _ _ _ (fun k hk => hx k (by omega)),
      Function.update_of_ne (hx (m+1) (by omega))]

theorem lutLoop_at (m k b a : ℕ) (lut : ℕ → ℕ) (hk : k ≤ m) :
    lutLoop (2^m) b a lut (2^k) = ((b+(m-k)) <<< 8) ||| (a-(m-k)) := by
  induction m generalizing b a lut with
  | zero =>
    obtain rfl : k = 0 := by omega
    rw [lutLoop_pow, show 2^0 >>> 1 = 0 from rfl, lutLoop_zero, Function.update_self]
    rfl
  | succ m ih =>
    rw [lutLoop_pow, pow_shift]
    rcases Nat.lt_or_ge m k with h | h
    · obtain rfl : k = m+1 := by omega
      rw [lutLoop_other _ _ _ _ _ (fun j hj h2 => by
        have := Nat.pow_right_injective (le_refl 2) h2
        omega), Function.update_self]
      simp
    · rw [ih _ _ _ h, show b+1+(m-k) = b+(m+1-k) by omega,
        show a-1-(m-k) = a-(m+1-k) by omega]

/-- The table entry of the word whose only pulse is in cell `b`. -/
theorem prepareLUT_single (w : Word) (b : ℕ) (h : cells w = [b]) :
    prepareLUT w.toNat = (b <<< 8) ||| (16-b) := by
  obtain ⟨hb, hw⟩ := single_toNat w b h
  rw [hw, prepareLUT, show 0x8000 = 2^15 from rfl, lutLoop_at _ _ _ _ _ (by omega),
    show 0+(15-(15-b)) = b by omega, show 16-(15-(15-b)) = 16-b by omega]

theorem prepareLUT_several (w : Word) (h : 1 < (cells w).length) : prepareLUT w.toNat = 0 := by
  rw [prepareLUT, show 0x8000 = 2^15 from rfl]
  apply lutLoop_other
  intro k hk hw
  have hc : cells w = [15-k] := by
    rw [← twoPow_cells k (by omega), ← hw, BitVec.ofNat_toNat, BitVec.setWidth_eq]
  simp [hc] at h

theorem entry_split : ∀ b < 16, (b <<< 8) ||| (16-b) ≠ 0 ∧
    ((b <<< 8) ||| (16-b)) >>> 8 = b ∧ ((b <<< 8) ||| (16-b)) &&& 0xFF = 16-b := by
  decide

/-- The rule both fast converters apply to one sample word: the `bits_delta`
they go on with and the gap they emit, if any. -/
def convertWord (conv_lut : ℕ → ℕ) (bits_delta : ℕ) (tmp_data : Word) : ℕ × Option ℕ :=
  if tmp_data = 0#16 then ((bits_delta+16) % 2^32, none)
  else
    let lutval := conv_lut tmp_data.toNat
    if lutval ≠ 0 then (lutval &&& 0xFF, some ((bits_delta+(lutval >>> 8)) % 2^32))
    else (0, some bits_delta)

theorem convertWord_empty (lut : ℕ → ℕ) (d : ℕ) : convertWord lut d 0#16 = ((d+16) % 2^32, none) := by
  simp [convertWord]

theorem convertWord_single (d : ℕ) (w : Word) (b : ℕ) (h : cells w = [b]) :
    convertWord prepareLUT d w = (16-b, some ((d+b) % 2^32)) := by
  obtain ⟨hne, hhi, hlo⟩ := entry_split b (single_toNat w b h).1
  have hw : w ≠ 0#16 := fun hw => by simp [(cells_eq_nil w).mpr hw] at h
  simp only [convertWord, if_neg hw, prepareLUT_single w b h, hne, ne_eq, not_false_eq_true,
    if_true, hhi, hlo]

/-- A table miss: the gap goes out without the offset of the pulse in its
word, and the sixteen cells of the word are not counted in the next gap. -/
theorem convertWord_several (d : ℕ) (w : Word) (h : 1 < (cells w).length) :
    convertWord prepareLUT d w = (0, some d) := by
  have hw : w ≠ 0#16 := fun hw => by simp [(cells_eq_nil w).mpr hw] at h
  simp only [convertWord, if_neg hw, prepareLUT_several w h, ne_eq, not_true_eq_false, if_false]

theorem convertWord_emits (d : ℕ) (w : Word) :
    (convertWord prepareLUT d w).2.isSome ↔ w ≠ 0#16 := by
  by_cases hw : w = 0#16
  · simp [hw, convertWord_empty]
  · simp only [convertWord, if_neg hw]
    split_ifs <;> simp [hw]

def convertWords (conv_lut : ℕ → ℕ) : ℕ → List Word → ℕ × List ℕ
  | bits_delta, [] => (bits_delta, [])
  | bits_delta, w::ws =>
    let r := convertWord conv_lut bits_delta w
    let t := convertWords conv_lut r.1 ws
    (t.1, r.2.toList ++ t.2)

theorem convertWords_append (lut : ℕ → ℕ) (d : ℕ) (ws vs : List Word) :
    convertWords lut d (ws++vs) =
      ((convertWords lut (convertWords lut d ws).1 vs).1,
        (convertWords lut d ws).2 ++ (convertWords lut (convertWords lut d ws).1 vs).2) := by
  induction ws generalizing d with
  | nil => rfl
  | cons w ws ih => simp [convertWords, ih]

/-- Exactly the words with a pulse emit a gap, one each. -/
theorem convertWords_count (d : ℕ) (ws : List Word) :
    (convertWords prepareLUT d ws).2.length = ws.countP (· ≠ 0#16) := by
  induction ws generalizing d with
  | nil => rfl
  | cons w ws ih =>
    have he := convertWord_emits d w
    simp only [convertWords, List.length_append, ih, List.countP_cons]
    by_cases hw : w = 0#16
    · simp [hw, convertWord_empty]
    · obtain ⟨g, hg⟩ := Option.isSome_iff_exists.mp (he.mpr hw)
      simp [hw, hg, Nat.add_comm]

/-! ## The loop of the fast converters -/

structure FastState where
  tmp_ptr : ℕ
  j : ℕ
  bits_delta : ℕ
  nb_pulses : ℕ
  data_track : List Byte
  reads : List ℕ

def fastBody (conv_lut : ℕ → ℕ) (mem : ℕ → Word) (s : FastState) : FastState :=
  let r := convertWord conv_lut s.bits_delta (mem s.tmp_ptr)
  { tmp_ptr := s.tmp_ptr+2
    j := s.j+2
    bits_delta := r.1
    nb_pulses := s.nb_pulses+r.2.toList.length
    data_track := s.data_track ++ r.2.toList.flatMap encodeDelta
    reads := s.reads ++ [s.tmp_ptr] }

def fastLoop (conv_lut : ℕ → ℕ) (mem : ℕ → Word) (final_track_len : ℕ) : FastState → FastState :=
  DoWhile.loop (fastBody conv_lut mem) (fun s => s.j < final_track_len)
    (fun s => final_track_len-s.j) (fun s h => by simp only [fastBody] at h ⊢; omega)

def strided (ptr : ℕ) : ℕ → List ℕ
  | 0 => []
  | n+1 => ptr :: strided (ptr+2) n

theorem mem_strided (ptr n a : ℕ) : a ∈ strided ptr n ↔ ∃ i < n, a = ptr+2*i := by
  induction n generalizing ptr with
  | zero => simp [strided]
  | succ n ih =>
    simp only [strided, List.mem_cons, ih]
    constructor
    · rintro (rfl | ⟨i, hi, rfl⟩)
      · exact ⟨0, by omega, by omega⟩
      · exact ⟨i+1, by omega, by omega⟩
    · rintro ⟨i, hi, rfl⟩
      cases i with
      | zero => exact Or.inl (by omega)
      | succ i => exact Or.inr ⟨i, by omega, by omega⟩

theorem strided_append (ptr m n : ℕ) :
    strided ptr (m+n) = strided ptr m ++ strided (ptr+2*m) n := by
  induction m generalizing ptr with
  | zero => simp [strided]
  | succ m ih =>
    rw [show m+1+n = (m+n)+1 by omega, strided, ih, strided,
      show ptr+2+2*m = ptr+2*(m+1) by omega]
    rfl

@[simp] theorem strided_length (ptr n : ℕ) : (strided ptr n).length = n := by
  induction n generalizing ptr with
  | zero => rfl
  | succ n ih => simp [strided, ih]

/-- Running the body `n` times converts `n` words two addresses apart. -/
theorem fastBody_iterate (lut : ℕ → ℕ) (mem : ℕ → Word) (n : ℕ) (s : FastState) :
    (fastBody lut mem)^[n] s =
      { tmp_ptr := s.tmp_ptr+2*n
        j := s.j+2*n
        bits_delta := (convertWords lut s.bits_delta ((strided s.tmp_ptr n).map mem)).1
        nb_pulses := s.nb_pulses +
          (convertWords lut s.bits_delta ((strided s.tmp_ptr n).map mem)).2.length
        data_track := s.data_track ++
          (convertWords lut s.bits_delta ((strided s.tmp_ptr n).map mem)).2.flatMap encodeDelta
        reads := s.reads ++ strided s.tmp_ptr n } := by
  induction n generalizing s with
  | zero => simp [strided, convertWords]
  | succ n ih =>
    rw [Function.iterate_succ_apply, ih]
    simp only [fastBody, strided, List.map_cons, convertWords, List.length_append,
      List.flatMap_append, List.append_assoc, List.singleton_append, FastState.mk.injEq, and_true,
      true_and]
    omega

/-- The loop over an even length of at least one word. -/
theorem fastLoop_words (lut : ℕ → ℕ) (mem : ℕ → Word) (n : ℕ) (hn : 0 < n) (s : FastState)
    (hj : s.j = 0) : fastLoop lut mem (2*n) s = (fastBody lut mem)^[n] s := by
  obtain ⟨m, rfl⟩ : ∃ m, n = m+1 := ⟨n-1, by omega⟩
  apply DoWhile.loop_iterate
  · intro i hi
    rw [fastBody_iterate, hj]
    show 0+2*(i+1) < 2*(m+1)
    omega
  · rw [fastBody_iterate, hj]
    show ¬0+2*(m+1) < 2*(m+1)
    omega

end Pauline.PulseWord
