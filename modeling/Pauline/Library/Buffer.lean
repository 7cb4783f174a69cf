import Mathlib.Tactic

/-!
# A buffer written piece by piece

Stores at offsets, read back as slices, and the words of 32 bits a header is
made of.
-/

set_option autoImplicit false

namespace Buffer

section store
variable {β : Type*}

def put (mem : ℕ → β) (off : ℕ) (bs : List β) : ℕ → β :=
  fun i => if h : off ≤ i ∧ i < off+bs.length then bs.get ⟨i-off,by omega⟩ else mem i

def fill (mem : ℕ → β) (lo hi : ℕ) (f : ℕ → β → β) : ℕ → β :=
  fun i => if lo ≤ i ∧ i < hi then f i (mem i) else mem i

def slice (mem : ℕ → β) (off n : ℕ) : List β := (List.range n).map fun i => mem (off+i)

@[simp] theorem slice_length (mem : ℕ → β) (off n : ℕ) : (slice mem off n).length = n := by
  simp [slice]

@[simp] theorem slice_zero (mem : ℕ → β) (off : ℕ) : slice mem off 0 = [] := rfl

theorem slice_add (mem : ℕ → β) (off m n : ℕ) :
    slice mem off (m+n) = slice mem off m ++ slice mem (off+m) n := by
  simp only [slice, List.range_add, List.map_append, List.map_map]
  congr 1
  exact List.map_congr_left fun i _ => by simp [Nat.add_assoc]

theorem slice_succ (mem : ℕ → β) (off n : ℕ) (h : 0 < n) :
    slice mem off n = mem off :: slice mem (off+1) (n-1) := by
  obtain ⟨n, rfl⟩ := Nat.exists_eq_succ_of_ne_zero h.ne'
  rw [Nat.succ_eq_add_one, Nat.add_comm, slice_add, Nat.add_sub_cancel_left]
  rfl

theorem slice_congr (mem mem' : ℕ → β) (off n : ℕ)
    (h : ∀ i, off ≤ i → i < off+n → mem i = mem' i) : slice mem off n = slice mem' off n := by
  refine List.map_congr_left fun i hi => h _ (Nat.le_add_right off i) ?_
  have := List.mem_range.mp hi
  omega

/-- Two stores one behind the other. -/
theorem put_put (mem : ℕ → β) (off : ℕ) (as bs : List β) :
    put (put mem off as) (off+as.length) bs = put mem off (as ++ bs) := by
  funext i
  simp only [put, List.length_append]
  by_cases hfirst : off ≤ i ∧ i < off+as.length
  · rw [dif_neg (by omega), dif_pos hfirst, dif_pos (by omega)]
    simp only [List.get_eq_getElem]
    rw [List.getElem_append_left]
  · by_cases hsecond : off+as.length ≤ i ∧ i < off+as.length+bs.length
    · rw [dif_pos hsecond, dif_pos (by omega)]
      simp only [List.get_eq_getElem]
      rw [List.getElem_append_right (by omega)]
      congr 1
      omega
    · rw [dif_neg hsecond, dif_neg hfirst, dif_neg (by omega)]

theorem put_nil (mem : ℕ → β) (off : ℕ) : put mem off [] = mem := by
  funext i
  exact dif_neg (by simp only [List.length_nil]; omega)

/-- A store is read back, as far as it goes. -/
theorem slice_put_take (mem : ℕ → β) (off n : ℕ) (bs : List β) (hn : n ≤ bs.length) :
    slice (put mem off bs) off n = bs.take n := by
  apply List.ext_get
  · simp [hn]
  · intro i hi _
    rw [slice_length] at hi
    simp [slice, put, show i < bs.length by omega]

theorem slice_put (mem : ℕ → β) (off n : ℕ) (bs : List β) (hn : n = bs.length) :
    slice (put mem off bs) off n = bs := by
  rw [slice_put_take mem off n bs hn.le, List.take_of_length_le hn.ge]

theorem slice_put_apart (mem : ℕ → β) (off o n : ℕ) (bs : List β)
    (h : o+n ≤ off ∨ off+bs.length ≤ o) : slice (put mem off bs) o n = slice mem o n := by
  apply slice_congr
  intro i hlo hhi
  exact dif_neg fun hi => by omega

theorem slice_fill_apart (mem : ℕ → β) (lo hi o n : ℕ) (f : ℕ → β → β)
    (h : o+n ≤ lo ∨ hi ≤ o) : slice (fill mem lo hi f) o n = slice mem o n := by
  apply slice_congr
  intro i hlo hhi
  exact if_neg fun hi => by omega

def Within (mem mem' : ℕ → β) (size : ℕ) : Prop := ∀ i, size ≤ i → mem' i = mem i

theorem Within.refl (mem : ℕ → β) (size : ℕ) : Within mem mem size := fun _ _ => rfl

theorem Within.put (mem mem' : ℕ → β) (size off : ℕ) (bs : List β) (h : Within mem mem' size)
    (hoff : off+bs.length ≤ size) : Within mem (put mem' off bs) size := by
  intro i hi
  rw [Buffer.put, dif_neg (by omega)]
  exact h i hi

theorem Within.fill (mem mem' : ℕ → β) (size lo hi : ℕ) (f : ℕ → β → β)
    (h : Within mem mem' size) (hhi : hi ≤ size) : Within mem (fill mem' lo hi f) size := by
  intro i hi
  rw [Buffer.fill, if_neg (by omega)]
  exact h i hi

/-! Two memories that are the same in an area, and what a store keeps outside of one. -/

def Agrees (mem ref : ℕ → β) (lo hi : ℕ) : Prop := ∀ a, lo ≤ a → a < hi → mem a = ref a

def Kept (mem mem' : ℕ → β) (lo hi : ℕ) : Prop := ∀ a, a < lo ∨ hi ≤ a → mem' a = mem a

theorem Agrees.mono {mem ref : ℕ → β} {lo hi hi' : ℕ} (h : Agrees mem ref lo hi)
    (hle : hi' ≤ hi) : Agrees mem ref lo hi' := fun a ha hlt => h a ha (hlt.trans_le hle)

/-- A store that begins where the memories are the same makes them so up to its end. -/
theorem Agrees.put {mem ref : ℕ → β} {lo hi d : ℕ} {bs : List β} (h : Agrees mem ref lo hi)
    (hd : d ≤ hi) (hbs : ∀ k (hk : k < bs.length), bs.get ⟨k,hk⟩ = ref (d+k)) :
    Agrees (put mem d bs) ref lo (max hi (d+bs.length)) := by
  intro a hlo hhi
  unfold Buffer.put
  split_ifs with hin
  · rw [hbs (a-d) (by omega), Nat.add_sub_cancel' hin.1]
  · exact h a hlo (by omega)

theorem Kept.refl (mem : ℕ → β) (lo hi : ℕ) : Kept mem mem lo hi := fun _ _ => rfl

theorem Kept.trans {mem mem' mem'' : ℕ → β} {lo hi : ℕ} (h : Kept mem mem' lo hi)
    (h' : Kept mem' mem'' lo hi) : Kept mem mem'' lo hi :=
  fun a ha => (h' a ha).trans (h a ha)

theorem Kept.mono {mem mem' : ℕ → β} {lo hi lo' hi' : ℕ} (h : Kept mem mem' lo hi)
    (hlo : lo' ≤ lo) (hhi : hi ≤ hi') : Kept mem mem' lo' hi' := fun a ha => h a (by omega)

theorem Kept.put {mem : ℕ → β} {lo hi d : ℕ} {bs : List β} (hlo : lo ≤ d)
    (hhi : d+bs.length ≤ hi) : Kept mem (put mem d bs) lo hi := by
  intro a ha
  unfold Buffer.put
  rw [dif_neg (by omega)]

theorem Agrees.slice {mem ref : ℕ → β} {lo hi : ℕ} (h : Agrees mem ref lo hi) {n : ℕ}
    (hn : lo+n ≤ hi) : slice mem lo n = (List.range n).map fun i => ref (lo+i) := by
  apply List.map_congr_left
  intro i hi'
  have := List.mem_range.mp hi'
  exact h _ (Nat.le_add_right lo i) (by omega)

end store

/-! ## Big-endian numbers -/

def big : ℕ → ℕ → List (BitVec 8)
  | 0, _ => []
  | k+1, n => BitVec.ofNat 8 (n/2^(8*k)) :: big k n

def bigValue : List (BitVec 8) → ℕ
  | [] => 0
  | b :: bs => b.toNat*2^(8*bs.length) + bigValue bs

@[simp] theorem big_length (k n : ℕ) : (big k n).length = k := by
  induction k with
  | zero => rfl
  | succ k ih => rw [big, List.length_cons, ih]

theorem bigValue_lt (bs : List (BitVec 8)) : bigValue bs < 2^(8*bs.length) := by
  induction bs with
  | nil => decide
  | cons b bs ih =>
    have hb := b.isLt
    have hpow : 2^(8*(b :: bs).length) = 2^8*2^(8*bs.length) := by
      rw [List.length_cons, Nat.mul_succ, Nat.pow_add, Nat.mul_comm]
    calc bigValue (b :: bs) < b.toNat*2^(8*bs.length)+2^(8*bs.length) := Nat.add_lt_add_left ih _
      _ = (b.toNat+1)*2^(8*bs.length) := (Nat.succ_mul _ _).symm
      _ ≤ 2^8*2^(8*bs.length) := Nat.mul_le_mul_right _ hb
      _ = 2^(8*(b :: bs).length) := hpow.symm

theorem big_mod (k n : ℕ) : big k (n % 2^(8*k)) = big k n := by
  have hlow (j m : ℕ) (hj : k ≤ j) : big k (m % 2^(8*j)) = big k m := by
    induction k generalizing j m with
    | zero => rfl
    | succ k ih =>
      rw [big, big, ih j m (by omega)]
      congr 1
      rw [show 2^(8*j) = 2^(8*k)*2^(8*(j-k)) by rw [← Nat.pow_add]; congr 1; omega,
        Nat.mod_mul_right_div_self]
      apply BitVec.eq_of_toNat_eq
      rw [BitVec.toNat_ofNat, BitVec.toNat_ofNat]
      exact Nat.mod_mod_of_dvd _ (Nat.pow_dvd_pow 2 (by omega))
  exact hlow k n le_rfl

/-- The bytes of a number that is written with as many bytes as it was read from. -/
theorem big_bigValue (bs : List (BitVec 8)) : big bs.length (bigValue bs) = bs := by
  induction bs with
  | nil => rfl
  | cons b bs ih =>
    have hlt := bigValue_lt bs
    have htop : (b.toNat*2^(8*bs.length)+bigValue bs)/2^(8*bs.length) = b.toNat := by
      rw [Nat.mul_comm, Nat.mul_add_div (Nat.two_pow_pos _), Nat.div_eq_of_lt hlt, Nat.add_zero]
    have hrest : (b.toNat*2^(8*bs.length)+bigValue bs) % 2^(8*bs.length) = bigValue bs := by
      rw [Nat.mul_comm, Nat.mul_add_mod, Nat.mod_eq_of_lt hlt]
    rw [List.length_cons, big, bigValue, htop, BitVec.ofNat_toNat, BitVec.setWidth_eq, ← big_mod,
      hrest, ih]

theorem bigValue_big (k n : ℕ) (h : n < 2^(8*k)) : bigValue (big k n) = n := by
  induction k generalizing n with
  | zero =>
    rw [Nat.mul_zero, Nat.pow_zero] at h
    exact (Nat.lt_one_iff.mp h).symm
  | succ k ih =>
    have hbyte : n/2^(8*k) < 2^8 := by
      rw [Nat.div_lt_iff_lt_mul (Nat.two_pow_pos _), ← Nat.pow_add]
      rwa [Nat.mul_succ, Nat.add_comm] at h
    rw [big, bigValue, big_length, ← big_mod, ih _ (Nat.mod_lt _ (Nat.two_pow_pos _)),
      BitVec.toNat_ofNat, Nat.mod_eq_of_lt hbyte, Nat.mul_comm]
    exact Nat.div_add_mod n _

/-! ## Little-endian words -/

def le32 (x : ℕ) : List (BitVec 8) :=
  [BitVec.ofNat 8 x,BitVec.ofNat 8 (x/2^8),BitVec.ofNat 8 (x/2^16),BitVec.ofNat 8 (x/2^24)]

def le16 (x : BitVec 16) : List (BitVec 8) :=
  [BitVec.ofNat 8 x.toNat,BitVec.ofNat 8 (x.toNat/2^8)]

def words (xs : List ℕ) : List (BitVec 8) := xs.flatMap le32

def get32 (bs : List (BitVec 8)) : ℕ := (bs.take 4).foldr (fun b n => b.toNat + 2^8*n) 0

@[simp] theorem le32_length (x : ℕ) : (le32 x).length = 4 := rfl

@[simp] theorem words_length (xs : List ℕ) : (words xs).length = 4*xs.length := by
  induction xs with
  | nil => rfl
  | cons x xs ih =>
    simp only [words, List.flatMap_cons, List.length_append, le32_length, List.length_cons] at ih ⊢
    omega

theorem words_cons (x : ℕ) (xs : List ℕ) : words (x :: xs) = le32 x ++ words xs := rfl

theorem get32_le32 (x : ℕ) (rest : List (BitVec 8)) : get32 (le32 x ++ rest) = x % 2^32 := by
  simp only [get32, le32, List.cons_append, List.nil_append, List.take_succ_cons, List.take_zero,
    List.foldr_cons, List.foldr_nil, BitVec.toNat_ofNat]
  omega

/-- The low bytes of two numbers are the same when those of the numbers are. -/
theorem value_mod {a b : List (BitVec 8)} {k : ℕ} (ha : k ≤ a.length) (hb : k ≤ b.length) :
    a.foldr (fun b n => b.toNat + 2^8*n) 0 % 2^(8*k) =
        b.foldr (fun b n => b.toNat + 2^8*n) 0 % 2^(8*k) ↔ a.take k = b.take k := by
  induction k generalizing a b with
  | zero => simp [Nat.mod_one]
  | succ k ih =>
    obtain ⟨x, a, rfl⟩ := List.exists_cons_of_length_pos (by omega : 0 < a.length)
    obtain ⟨y, b, rfl⟩ := List.exists_cons_of_length_pos (by omega : 0 < b.length)
    rw [List.length_cons] at ha hb
    have hlow (z : BitVec 8) (n : ℕ) :
        (z.toNat + 2^8*n) % 2^(8*(k+1)) = z.toNat + 2^8*(n % 2^(8*k)) := by
      have hz := z.isLt
      rw [Nat.mul_succ, Nat.add_comm (8*k), Nat.pow_add, Nat.mod_mul,
        show (z.toNat+2^8*n) % 2^8 = z.toNat by omega, show (z.toNat+2^8*n)/2^8 = n by omega]
    have hx := x.isLt
    have hy := y.isLt
    rw [List.foldr_cons, List.foldr_cons, hlow, hlow, List.take_succ_cons, List.take_succ_cons,
      List.cons.injEq, ← ih (by omega) (by omega), ← BitVec.toNat_inj]
    omega

theorem get32_mod {a b : List (BitVec 8)} {k : ℕ} (hk : k ≤ 4) (ha : 4 ≤ a.length)
    (hb : 4 ≤ b.length) : get32 a % 2^(8*k) = get32 b % 2^(8*k) ↔ a.take k = b.take k := by
  unfold get32
  rw [value_mod (by rw [List.length_take]; omega) (by rw [List.length_take]; omega),
    List.take_take, List.take_take, Nat.min_eq_left hk]

theorem get32_lt (bs : List (BitVec 8)) : get32 bs < 2^(8*4) := by
  have hlt (as : List (BitVec 8)) :
      as.foldr (fun b n => b.toNat + 2^8*n) 0 < 2^(8*as.length) := by
    induction as with
    | nil => decide
    | cons a as ih =>
      have ha := a.isLt
      rw [List.foldr_cons, List.length_cons, Nat.mul_succ, Nat.pow_add, Nat.mul_comm]
      omega
  exact (hlt _).trans_le (Nat.pow_le_pow_right (by decide) (by rw [List.length_take]; omega))

/-- Behind its first words, a text goes on as what stands after them. -/
theorem drop_words (xs : List ℕ) (n : ℕ) (rest : List (BitVec 8)) (h : n = 4*xs.length) :
    (words xs ++ rest).drop n = rest := by
  rw [List.drop_append, h, ← words_length, List.drop_length, Nat.sub_self, List.drop_zero,
    List.nil_append]

theorem get32_words (x : ℕ) (xs : List ℕ) (rest : List (BitVec 8)) :
    get32 (words (x :: xs) ++ rest) = x % 2^32 := by
  rw [words_cons, List.append_assoc, get32_le32]

end Buffer
