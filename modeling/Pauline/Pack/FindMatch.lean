import Mathlib.Data.Nat.Bitwise
import Mathlib.NumberTheory.Padics.PadicVal.Basic
import Pauline.Pack.Compress

/-!
# Matches found

What the search and the table give is a place before the one that is looked at, within
the distance of an offset, with the same four bytes. From there the match is as long
as the bytes are the same.
-/

set_option autoImplicit false

namespace Pauline.Pack
open Buffer Lz4Block

def Same (c : Call) (i j n : ℕ) : Prop := ∀ k < n, c.source[i+k]? = c.source[j+k]?

variable {c : Call} {i j m n : ℕ}

theorem Same.mono (h : Same c i j n) (hle : m ≤ n) : Same c i j m :=
  fun k hk => h k (hk.trans_le hle)

theorem Same.append (h : Same c i j m) (h' : Same c (i+m) (j+m) n) : Same c i j (m+n) := by
  intro k hk
  by_cases hlt : k < m
  · exact h k hlt
  · have := h' (k-m) (by omega)
    rwa [show i+m+(k-m) = i+k by omega, show j+m+(k-m) = j+k by omega] at this

theorem same_take : Same c i j n ↔ (c.source.drop i).take n = (c.source.drop j).take n := by
  constructor
  · intro h
    apply List.ext_getElem?
    intro k
    simp only [List.getElem?_take, List.getElem?_drop]
    split_ifs with hk
    · exact h k hk
    · rfl
  · intro h k hk
    have := congrArg (fun l : List Byte => l[k]?) h
    simpa only [List.getElem?_take, List.getElem?_drop, if_pos hk] using this

/-! ## Words -/

theorem read32_at {p : ℕ} (h : p+4 ≤ c.iend) :
    c.read32 p = some (get32 (c.source.drop p)) := if_pos h

theorem get32_same {k : ℕ} (hk : k ≤ 4) (hi : i+4 ≤ c.iend) (hj : j+4 ≤ c.iend) :
    get32 (c.source.drop i) % 2^(8*k) = get32 (c.source.drop j) % 2^(8*k) ↔ Same c i j k := by
  unfold Call.iend at hi hj
  rw [same_take, get32_mod hk (by rw [List.length_drop]; omega) (by rw [List.length_drop]; omega)]

theorem word_same (hi : i+4 ≤ c.iend) (hj : j+4 ≤ c.iend) :
    get32 (c.source.drop i) = get32 (c.source.drop j) ↔ Same c i j 4 := by
  rw [← get32_same le_rfl hi hj, Nat.mod_eq_of_lt (get32_lt _), Nat.mod_eq_of_lt (get32_lt _)]

/-- The zeros a difference ends with tell how many bytes are the same. -/
theorem nbCommonBytes_same {diff : ℕ} (hi : i+4 ≤ c.iend) (hj : j+4 ≤ c.iend)
    (hdiff : get32 (c.source.drop i) ^^^ get32 (c.source.drop j) = diff) (hne : diff ≠ 0) :
    nbCommonBytes diff < 4 ∧ ∀ k ≤ 4, k ≤ nbCommonBytes diff ↔ Same c i j k := by
  have hsame (k : ℕ) (hk : k ≤ 4) : k ≤ nbCommonBytes diff ↔ Same c i j k := by
    rw [nbCommonBytes, Nat.le_div_iff_mul_le (by decide), Nat.mul_comm,
      ← padicValNat_dvd_iff_le hne, Nat.dvd_iff_mod_eq_zero, ← hdiff, Nat.xor_mod_two_pow,
      Nat.xor_eq_zero_iff, get32_same hk hi hj]
  refine ⟨?_,hsame⟩
  by_contra hge
  have hall := (word_same hi hj).mpr ((hsame 4 le_rfl).mp (by omega))
  rw [hall, Nat.xor_self] at hdiff
  exact hne hdiff.symm

theorem readLE16_at {p : ℕ} (h : p+2 ≤ c.iend) : ∃ a b, c.source[p]? = some a ∧
    c.source[p+1]? = some b ∧ c.readLE16 p = some (a.toNat+2^8*b.toNat) := by
  unfold Call.iend at h
  refine ⟨_,_,List.getElem?_eq_getElem (by omega : p < c.source.length),
    List.getElem?_eq_getElem (by omega : p+1 < c.source.length),?_⟩
  simp [Call.readLE16, List.getElem?_eq_getElem (by omega : p < c.source.length),
    List.getElem?_eq_getElem (by omega : p+1 < c.source.length)]

/-! ## The length of a match -/

theorem Same.byte (h : c.source[i]? = c.source[j]?) : Same c i j 1 := by
  intro k hk
  obtain rfl : k = 0 := Nat.lt_one_iff.mp hk
  exact h

theorem byte_at {p : ℕ} (h : p < c.iend) : ∃ b, c.source[p]? = some b :=
  ⟨_,List.getElem?_eq_getElem h⟩

def Longest (c : Call) (i j lim n : ℕ) : Prop :=
  i+n ≤ lim ∧ Same c i j n ∧ (i+n < lim → c.source[i+n]? ≠ c.source[j+n]?)

theorem Longest.add {lim : ℕ} (h : Same c i j m) (hrest : Longest c (i+m) (j+m) lim n) :
    Longest c i j lim (m+n) := by
  obtain ⟨hle, hsame, hstop⟩ := hrest
  rw [Nat.add_assoc] at hle hstop
  rw [Nat.add_assoc] at hstop
  exact ⟨hle,h.append hsame,hstop⟩

theorem countTail_spec {lim : ℕ} (hlim : lim ≤ c.iend) (hi : i ≤ lim) (hj : j < i)
    (hfew : lim ≤ i+3) : ∃ n, countTail c i j lim = some (i+n) ∧ Longest c i j lim n := by
  -- The last byte that is looked at, when there is one.
  have hlast (i j : ℕ) (hi : i ≤ lim) (hj : j < i)
      (hstop : i+1 < lim → c.source[i+1]? ≠ c.source[j+1]?) : ∃ n,
      (if i < lim then do
        let m ← c.source[j]?
        let r ← c.source[i]?
        pure (if m = r then i+1 else i)
      else pure i) = some (i+n) ∧ Longest c i j lim n := by
    by_cases hlt : i < lim
    · obtain ⟨a, ha⟩ := byte_at (c := c) (p := i) (by omega)
      obtain ⟨b, hb⟩ := byte_at (c := c) (p := j) (by omega)
      by_cases hsame : b = a
      · exact ⟨1,by simp [hlt, ha, hb, hsame],hlt,Same.byte (by rw [ha, hb, hsame]),hstop⟩
      · refine ⟨0,by simp [hlt, ha, hb, hsame],hi,fun k hk => absurd hk (Nat.not_lt_zero k),?_⟩
        intro _ heq
        rw [Nat.add_zero, Nat.add_zero, ha, hb, Option.some.injEq] at heq
        exact hsame heq.symm
    · exact ⟨0,by simp [hlt],hi,fun k hk => absurd hk (Nat.not_lt_zero k),fun h => absurd h hlt⟩
  unfold countTail
  by_cases htwo : i+1 < lim
  · obtain ⟨a0, a1, ha0, ha1, hread⟩ := readLE16_at (c := c) (p := i) (by omega)
    obtain ⟨b0, b1, hb0, hb1, hread'⟩ := readLE16_at (c := c) (p := j) (by omega)
    simp only [if_pos htwo, hread, hread', Option.bind_eq_bind, Option.bind_some, Option.pure_def]
    have h0 := a0.isLt
    have h1 := b0.isLt
    by_cases hsame : b0.toNat+2^8*b1.toNat = a0.toNat+2^8*a1.toNat
    · have hlow : a0 = b0 := BitVec.eq_of_toNat_eq (by omega)
      have hhigh : a1 = b1 := BitVec.eq_of_toNat_eq (by omega)
      have hboth : Same c i j 2 := (Same.byte (by rw [ha0, hb0, hlow])).append
        (Same.byte (by rw [ha1, hb1, hhigh]))
      obtain ⟨n, hn, hlongest⟩ := hlast (i+2) (j+2) (by omega) (by omega) (fun h => by omega)
      refine ⟨2+n,?_,Longest.add hboth hlongest⟩
      rw [if_pos hsame, ← Nat.add_assoc]
      exact hn
    · rw [if_neg hsame]
      by_cases hlow : a0 = b0
      · apply hlast i j hi hj
        intro _ heq
        rw [ha1, hb1, Option.some.injEq] at heq
        exact hsame (by rw [hlow, heq])
      · refine ⟨0,?_,hi,fun k hk => absurd hk (Nat.not_lt_zero k),?_⟩
        · simp [ha0, hb0, Ne.symm hlow]
        · intro _ heq
          rw [Nat.add_zero, Nat.add_zero, ha0, hb0, Option.some.injEq] at heq
          exact hlow heq
  · simp only [if_neg htwo, Option.bind_eq_bind, Option.bind_some, Option.pure_def]
    exact hlast i j hi hj (fun h => by omega)

theorem countLoop_spec {lim : ℕ} (hlim : lim ≤ c.iend) (hi : i ≤ lim) (hj : j < i) :
    ∃ n, countLoop c i j lim = some (i+n) ∧ Longest c i j lim n := by
  induction hk : lim-i using Nat.strong_induction_on generalizing i j with
  | _ k ih =>
    rw [countLoop]
    by_cases hfour : i+3 < lim
    · have hi4 : i+4 ≤ c.iend := by omega
      have hj4 : j+4 ≤ c.iend := by omega
      rw [dif_pos hfour, read32_at hj4, read32_at hi4, Option.bind_some, Option.bind_some]
      by_cases hdiff : get32 (c.source.drop j) ^^^ get32 (c.source.drop i) = 0
      · obtain ⟨n, hn, hlongest⟩ := ih (lim-(i+4)) (by omega) (i := i+4) (j := j+4) (by omega)
          (by omega) rfl
        refine ⟨4+n,?_,Longest.add ((word_same hi4 hj4).mp (Nat.xor_eq_zero_iff.mp hdiff).symm) hlongest⟩
        rw [if_pos hdiff, hn, Nat.add_assoc]
      · obtain ⟨hlt, hsame⟩ := nbCommonBytes_same hi4 hj4 (Nat.xor_comm _ _) hdiff
        refine ⟨_,if_neg hdiff,by omega,(hsame _ hlt.le).mp le_rfl,fun _ heq => ?_⟩
        have := (hsame _ hlt).mpr (((hsame _ hlt.le).mp le_rfl).append (Same.byte heq))
        omega
    · rw [dif_neg hfour]
      exact countTail_spec hlim hi hj (by omega)

/-- The count is that of the bytes one at a time. -/
theorem count_spec (lim : ℕ) (hlim : lim ≤ c.iend) (hi : i ≤ lim) (hj : j < i) :
    ∃ n, count c i j lim = some n ∧ Longest c i j lim n := by
  obtain ⟨n, hn, hlongest⟩ := countLoop_spec hlim hi hj
  refine ⟨n,?_,hlongest⟩
  rw [count, hn, Option.map_some, Nat.add_sub_cancel_left]

theorem catchUp_spec (anchor ip : ℕ) (hanchor : anchor ≤ ip) (hip : ip ≤ c.iend) (hm : m < ip)
    (hsame : Same c ip m n) : ∃ d, catchUp c anchor ip m = some (ip-d,m-d) ∧ d ≤ m ∧
      anchor+d ≤ ip ∧ Same c (ip-d) (m-d) (d+n) := by
  induction m generalizing ip n with
  | zero =>
    rw [catchUp, dif_neg (by omega)]
    exact ⟨0,rfl,le_rfl,hanchor,by rwa [Nat.zero_add]⟩
  | succ m ih =>
    rw [catchUp]
    by_cases hmore : anchor < ip
    · obtain ⟨a, ha⟩ := byte_at (c := c) (p := ip-1) (by omega)
      obtain ⟨b, hb⟩ := byte_at (c := c) (p := m) (by omega)
      rw [dif_pos ⟨hmore,Nat.succ_pos m⟩, Nat.add_sub_cancel, ha, hb, Option.bind_some,
        Option.bind_some]
      by_cases hbyte : a = b
      · have hone : Same c (ip-1) m (1+n) := by
          apply (Same.byte (by rw [ha, hb, hbyte])).append
          rwa [Nat.sub_add_cancel (by omega)]
        obtain ⟨d, hd, hle, hanchor', hall⟩ := ih (ip-1) (by omega) (by omega) (by omega) hone
        refine ⟨d+1,?_,by omega,by omega,?_⟩
        · rw [if_pos hbyte, hd, show ip-1-d = ip-(d+1) by omega, show m-d = m+1-(d+1) by omega]
        · rwa [show ip-(d+1) = ip-1-d by omega, show m+1-(d+1) = m-d by omega, Nat.add_assoc]
      · exact ⟨0,if_neg hbyte,Nat.zero_le _,hanchor,by rwa [Nat.zero_add]⟩
    · rw [dif_neg (by omega)]
      exact ⟨0,rfl,Nat.zero_le _,hanchor,by rwa [Nat.zero_add]⟩

/-! ## The table -/

def Fits (c : Call) (t : TableType) : Prop := t = .byU16 → c.source.length < LZ4_64Klimit

theorem fits_tableType (c : Call) : Fits c (tableType c) := by
  unfold Fits tableType
  split_ifs with hsmall hhigh
  · exact fun _ => hsmall
  · exact fun h => nomatch h
  · exact fun h => nomatch h

def Entry (c : Call) (t : TableType) (lim a : ℕ) : Prop :=
  t = .byPtr ∧ a = 0 ∨ ∃ p < lim, a = c.src+p

def Holds (c : Call) {t : TableType} (table : HashTable t) (lim : ℕ) : Prop :=
  ∀ h, Entry c t lim (getPositionOnHash c table h)

variable {t : TableType} {table : HashTable t} {lim : ℕ}

theorem Holds.mono {lim' : ℕ} (h : Holds c table lim) (hle : lim ≤ lim') : Holds c table lim' :=
  fun k => (h k).imp_right fun ⟨p,hp,heq⟩ => ⟨p,hp.trans_le hle,heq⟩

theorem holds_zero (hlim : 0 < lim) : Holds c (fun _ => 0 : HashTable t) lim := by
  intro h
  cases t with
  | byPtr => exact Or.inl ⟨rfl,rfl⟩
  | byU32 => exact Or.inr ⟨0,hlim,Nat.add_comm _ _⟩
  | byU16 => exact Or.inr ⟨0,hlim,Nat.add_comm _ _⟩

theorem addressOf_entryOf {p : ℕ} (hfits : Fits c t) (hin : p+MFLIMIT ≤ c.iend) :
    addressOf c t (entryOf c t p) = c.src+p := by
  have hsrc := c.src_end
  have hiend : c.iend = c.source.length := rfl
  cases t with
  | byPtr => rfl
  | byU32 => rw [entryOf, addressOf, Nat.mod_eq_of_lt (by omega), Nat.add_comm]
  | byU16 =>
    have hsmall : c.source.length < 2^16+(MFLIMIT-1) := hfits rfl
    rw [entryOf, addressOf, Nat.mod_eq_of_lt (by omega), Nat.add_comm]

theorem Holds.put {p : ℕ} (hfits : Fits c t) (h : Holds c table lim) (k : Fin (2^t.hashLog))
    (hp : p < lim) (hin : p+MFLIMIT ≤ c.iend) :
    Holds c (putPositionOnHash c table k p) lim := by
  intro i
  unfold getPositionOnHash putPositionOnHash
  by_cases hi : i = k
  · rw [hi, Function.update_self, addressOf_entryOf hfits hin]
    exact Or.inr ⟨p,hp,rfl⟩
  · rw [Function.update_of_ne hi]
    exact h i

theorem hashPosition_at {p : ℕ} (h : p+4 ≤ c.iend) : ∃ k, hashPosition c t p = some k :=
  ⟨_,by rw [hashPosition, read32_at h, Option.map_some]⟩

/-! ## The search -/

structure Match (c : Call) (ip m n : ℕ) : Prop where
  before : m < ip
  near : ip ≤ m+LZ4_DISTANCE_MAX
  same : Same c ip m n

theorem sameAt_spec {ip a : ℕ} (hfits : Fits c t) (hin : ip+MFLIMIT ≤ c.iend)
    (ha : Entry c t ip a) : ∃ found, sameAt c t a ip = some found ∧
      (found = true → c.src ≤ a ∧ Match c ip (a-c.src) 4) := by
  have hsrc := c.src_start
  have hdist : LZ4_DISTANCE_MAX = 65535 := rfl
  have hlimit : MFLIMIT = 12 := rfl
  unfold sameAt
  by_cases hfar : tooFar c t a ip
  · exact ⟨false,if_pos hfar,fun h => nomatch h⟩
  · rw [if_neg hfar]
    unfold tooFar at hfar
    obtain ⟨p, hp, rfl⟩ := ha.resolve_left (by
      rintro ⟨rfl, rfl⟩
      exact hfar ⟨by decide,by omega⟩)
    have hnear : ip ≤ p+LZ4_DISTANCE_MAX := by
      by_cases hsmall : t = .byU16
      · have hlen : c.source.length < 2^16+(MFLIMIT-1) := hfits hsmall
        unfold Call.iend at hin
        omega
      · have := not_and.mp hfar hsmall
        omega
    rw [Call.read32At, if_pos (Nat.le_add_right _ _), Nat.add_sub_cancel_left,
      read32_at (by omega), read32_at (by omega)]
    refine ⟨_,rfl,fun hfound => ⟨Nat.le_add_right _ _,hp,hnear,?_⟩⟩
    exact (word_same (by omega) (by omega)).mp (of_decide_eq_true hfound).symm

def SearchEnd (c : Call) {t : TableType} (from' : ℕ) : Option (ℕ × ℕ × HashTable t) → Prop
  | none => True
  | some (ip,m,table) => from' ≤ ip ∧ ip+MFLIMIT ≤ c.iend ∧ Match c ip m 4 ∧
      Holds c table (ip+1)

theorem search_spec (hfits : Fits c t) (hlong : MFLIMIT ≤ c.iend) (s : Search)
    (k : Fin (2^t.hashLog)) (h : Holds c table s.forwardIp) :
    ∃ r, search c table s k = some r ∧ SearchEnd c s.forwardIp r := by
  have hlimit : MFLIMIT = 12 := rfl
  induction hn : c.mflimitPlusOne+1-s.forwardIp using Nat.strong_induction_on
    generalizing s k table with
  | _ n ih =>
    have hpos := s.step_pos
    have hnext : s.next.forwardIp = s.forwardIp+s.step := rfl
    rw [search]
    by_cases hend : c.mflimitPlusOne < s.next.forwardIp
    · exact ⟨none,dif_pos hend,trivial⟩
    · have hlt : s.next.forwardIp ≤ c.iend-MFLIMIT+1 := not_lt.mp hend
      have hin : s.forwardIp+MFLIMIT ≤ c.iend := by omega
      obtain ⟨nextH, hnextH⟩ := hashPosition_at (t := t) (p := s.next.forwardIp) (c := c)
        (by omega)
      obtain ⟨found, hsame, hmatch⟩ := sameAt_spec hfits hin (h k)
      rw [dif_neg hend, hnextH, Option.bind_some, hsame, Option.bind_some]
      have hput := (h.mono (Nat.le_succ s.forwardIp)).put hfits k (Nat.lt_succ_self s.forwardIp) hin
      by_cases hfound : found = true
      · exact ⟨_,if_pos hfound,le_rfl,hin,(hmatch hfound).2,hput⟩
      · rw [if_neg hfound]
        obtain ⟨r, hr, hspec⟩ := ih _ (by unfold Call.mflimitPlusOne at hend hn ⊢; omega) s.next nextH
          (hput.mono (by omega)) rfl
        refine ⟨r,hr,?_⟩
        match r, hspec with
        | none, _ => trivial
        | some (ip,m,table'), ⟨hfrom,hrest⟩ => exact ⟨by omega,hrest⟩

end Pauline.Pack
