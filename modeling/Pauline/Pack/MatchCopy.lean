import Pauline.Pack.Decompress

/-!
# The copies of the decoder

Eight bytes copied from a distance that is a multiple of the offset go on with the
text. Every copy is followed by its end in the text that the block stands for, and
what it leaves behind that is overwritten later.
-/

set_option autoImplicit false

namespace Pauline.Pack
open Buffer Lz4Block

section Copies
variable {c : Call} {mem ref : Mem} {hi d s : ℕ}

theorem copyWithin_agrees {n : ℕ} (hag : Agrees mem ref c.dst hi) (hd : d ≤ hi) (hs : c.dst ≤ s)
    (hsn : s+n ≤ hi) (hapart : s+n ≤ d) (hend : d+n ≤ c.oend)
    (href : ∀ k < n, ref (d+k) = ref (s+k)) :
    ∃ mem', c.copyWithin n mem d s = some mem' ∧ Agrees mem' ref c.dst (max hi (d+n)) ∧
      Kept mem mem' d (d+n) := by
  have hlen := slice_length mem s n
  obtain ⟨mem', hwrite, hag', hkept⟩ := write_agrees (slice mem s n) hag hd (by omega)
    (by omega) (by
      intro k hk
      rw [hlen] at hk
      have hcopied : mem (s+k) = ref (s+k) := hag _ (by omega) (by omega)
      rw [href k hk, ← hcopied]
      simp [slice])
  rw [hlen] at hag' hkept
  exact ⟨mem',(if_pos ⟨⟨hs,by omega⟩,Or.inl hapart⟩).trans hwrite,hag',hkept⟩

theorem copyByte_agrees (hag : Agrees mem ref c.dst hi) (hd : d ≤ hi) (hlo : c.dst ≤ d)
    (hs : c.dst ≤ s) (hsn : s < hi) (hsend : s < c.oend) (hend : d < c.oend)
    (href : ref d = ref s) :
    ∃ mem', c.copyByte mem d s = some mem' ∧ Agrees mem' ref c.dst (max hi (d+1)) ∧
      Kept mem mem' d (d+1) := by
  obtain ⟨mem', hwrite, hag', hkept⟩ := write_agrees [mem s] hag hd hlo hend (by
    intro k hk
    obtain rfl : k = 0 := Nat.lt_one_iff.mp hk
    exact (hag s hs hsn).trans href.symm)
  exact ⟨mem',(if_pos ⟨hs,hsend⟩).trans hwrite,hag',hkept⟩

theorem copyBytes_agrees (cpy : ℕ) (hs : c.dst ≤ s) (hlt : s < d) (hend : cpy ≤ c.oend)
    (hper : ∀ a, s ≤ a → ref (a+(d-s)) = ref a) (hag : Agrees mem ref c.dst d) :
    ∃ mem', copyBytes c mem d s cpy = some mem' ∧ Agrees mem' ref c.dst (max cpy d) ∧
      Kept mem mem' d c.oend := by
  induction hn : cpy-d generalizing mem d s with
  | zero =>
    rw [copyBytes, dif_neg (by omega)]
    exact ⟨mem,rfl,hag.mono (by omega),Kept.refl _ _ _⟩
  | succ n ih =>
    have hbyte : ref d = ref s := by
      have := hper s le_rfl
      rwa [show s+(d-s) = d by omega] at this
    obtain ⟨mem', hcopy, hag', hkept⟩ := copyByte_agrees hag le_rfl (by omega) hs hlt (by omega)
      (by omega) hbyte
    obtain ⟨mem'', hrest, hag'', hkept''⟩ := ih (d := d+1) (s := s+1) (by omega)
      (by omega) (fun a ha => by
        rw [show d+1-(s+1) = d-s by omega]
        exact hper a (by omega)) (hag'.mono (by omega)) (by omega)
    rw [copyBytes, dif_pos (by omega), hcopy, Option.bind_some]
    exact ⟨mem'',hrest,hag''.mono (by omega),
      (hkept.mono le_rfl (by omega)).trans (hkept''.mono (by omega) le_rfl)⟩

end Copies

/-! ## The copy of a match -/

/-- The tables take the place a match is copied from to a distance that is a multiple of
the offset. -/
theorem tables_step : ∀ offset < 8, (dec64table offset ≤ inc32table offset ∧
    4 ≤ offset+4-inc32table offset ∧ inc32table offset ≤ offset+4 ∧
    (offset = 0 ∨ offset ∣ offset+4-inc32table offset)) ∧
    (8 ≤ offset+8-((inc32table offset : ℤ)-dec64table offset).toNat ∧
      (offset = 0 ∨ offset ∣ offset+8-((inc32table offset : ℤ)-dec64table offset).toNat)) := by
  decide

def Repeats (ref : Mem) (start offset : ℕ) : Prop :=
  ∀ dist, Steps offset dist → ∀ a, start ≤ a → ref (a+dist) = ref a

variable {c : Call} {mem ref : Mem} {op offset : ℕ}

theorem copyFirst_agrees (hoff : offset ≤ op-c.dst) (hlo : c.dst ≤ op) (hroom : op+8 ≤ c.oend)
    (hag : Agrees mem ref c.dst (if offset = 0 then op+4 else op))
    (hper : Repeats ref (op-offset) offset) :
    ∃ mem' matchPtr, copyFirst c mem op (op-offset) offset = some (mem',matchPtr) ∧
      Agrees mem' ref c.dst (op+8) ∧ Kept mem mem' op (op+8) ∧ op-offset ≤ matchPtr ∧
      matchPtr ≤ op ∧ Steps offset (op+8-matchPtr) := by
  have hoff' : op-offset+offset = op := by omega
  by_cases hsmall : offset < 8
  · obtain ⟨⟨hdec, hfour, hinc, hstep⟩, height, hstep'⟩ := tables_step offset hsmall
    have hbyte (k : ℕ) : ref (op+k) = ref (op-offset+k) := by
      have := hper offset (Or.inr dvd_rfl) (op-offset+k) (by omega)
      rwa [show op-offset+k+offset = op+k by omega] at this
    obtain ⟨m0, h0, hag0, hk0⟩ := copyByte_agrees (d := op) (s := op-offset) hag
      (by split_ifs <;> omega) hlo (by omega) (by split_ifs <;> omega) (by omega) (by omega)
      (hbyte 0)
    obtain ⟨m1, h1, hag1, hk1⟩ := copyByte_agrees (d := op+1) (s := op-offset+1) hag0
      (by split_ifs <;> omega) (by omega) (by omega) (by split_ifs <;> omega) (by omega) (by omega)
      (hbyte 1)
    obtain ⟨m2, h2, hag2, hk2⟩ := copyByte_agrees (d := op+2) (s := op-offset+2) hag1
      (by split_ifs <;> omega) (by omega) (by omega) (by split_ifs <;> omega) (by omega) (by omega)
      (hbyte 2)
    obtain ⟨m3, h3, hag3, hk3⟩ := copyByte_agrees (d := op+3) (s := op-offset+3) hag2
      (by split_ifs <;> omega) (by omega) (by omega) (by split_ifs <;> omega) (by omega) (by omega)
      (hbyte 3)
    have hag4 : Agrees m3 ref c.dst (op+4) := hag3.mono (by split_ifs <;> omega)
    obtain ⟨m4, h4, hag5, hk4⟩ := copyWithin_agrees (n := 4) (d := op+4)
      (s := op-offset+inc32table offset) hag4
      le_rfl (by omega) (by omega) (by omega) (by omega) (by
        intro k hk
        have := hper _ hstep (op-offset+inc32table offset+k) (by omega)
        rwa [show op-offset+inc32table offset+k+(offset+4-inc32table offset) = op+4+k by omega]
          at this)
    refine ⟨m4, op-offset+((inc32table offset : ℤ)-dec64table offset).toNat, ?_,
      hag5.mono (by omega), ?_, by omega, by omega, ?_⟩
    · simp only [copyFirst, if_pos hsmall, h0, h1, h2, h3, h4, Option.bind_eq_bind,
        Option.bind_some, Option.pure_def, Option.some.injEq, Prod.mk.injEq, true_and]
      omega
    · exact (hk0.mono (by omega) (by omega)).trans ((hk1.mono (by omega) (by omega)).trans
        ((hk2.mono (by omega) (by omega)).trans ((hk3.mono (by omega) (by omega)).trans
          (hk4.mono (by omega) (by omega)))))
    · rwa [show op+8-(op-offset+((inc32table offset : ℤ)-dec64table offset).toNat) =
        offset+8-((inc32table offset : ℤ)-dec64table offset).toNat by omega]
  · rw [if_neg (by omega)] at hag
    obtain ⟨mem', hcopy, hag', hkept⟩ := copyWithin_agrees (n := 8) (d := op) (s := op-offset) hag
      le_rfl (by omega) (by omega) (by omega) hroom (by
        intro k hk
        have := hper offset (Or.inr dvd_rfl) (op-offset+k) (by omega)
        rwa [show op-offset+k+offset = op+k by omega] at this)
    refine ⟨mem', op-offset+8, ?_, hag'.mono (by omega), hkept, by omega, by omega, ?_⟩
    · simp only [copyFirst, if_neg hsmall, hcopy, Option.bind_eq_bind, Option.bind_some,
        Option.pure_def]
    · rw [show op+8-(op-offset+8) = offset by omega]
      exact Or.inr dvd_rfl

theorem wildCopy8_within {lim s start : ℕ} (e : ℕ) (hs : c.dst ≤ s) (hstart : start ≤ s) (hapart : s+8 ≤ op)
    (hlim : lim ≤ c.oend) (hstep : Steps offset (op-s)) (hper : Repeats ref start offset)
    (hag : Agrees mem ref c.dst op) (hd : op+8 ≤ lim) (he : e+7 ≤ lim) :
    ∃ mem', wildCopy8 (c.copyWithin 8) mem op s e = some mem' ∧
      Agrees mem' ref c.dst (max e (op+8)) ∧ Kept mem mem' op lim := by
  refine wildCopy8_agrees _ ?_ hag hd he
  intro m k hlim' hag'
  obtain ⟨mem', hcopy, hag'', hkept⟩ := copyWithin_agrees (n := 8) (d := op+k) (s := s+k) hag'
    le_rfl (by omega) (by omega) (by omega) (by omega) (by
      intro i hi
      have := hper _ hstep (s+k+i) (by omega)
      rwa [show s+k+i+(op-s) = op+k+i by omega] at this)
  exact ⟨mem',hcopy,hag''.mono (by omega),hkept⟩

/-- The rest of a match behind its first eight bytes. The end of the output is kept for
literals. -/
theorem copyRest_agrees {s start length : ℕ} (hs : c.dst ≤ s) (hstart : start ≤ s)
    (hapart : s+8 ≤ op+8) (hroom : op+12 ≤ c.oend) (hlength : 4 ≤ length)
    (hstep : Steps offset (op+8-s)) (hper : Repeats ref start offset)
    (hag : Agrees mem ref c.dst (op+8)) :
    (c.oend < op+length+LASTLITERALS →
      copyRest c mem (op+8) s length (op+length) = some none) ∧
    (op+length+LASTLITERALS ≤ c.oend → ∃ mem',
      copyRest c mem (op+8) s length (op+length) = some (some mem') ∧
        Agrees mem' ref c.dst (op+length) ∧ Kept mem mem' op c.oend) := by
  have hdist (a : ℕ) (ha : s ≤ a) : ref (a+(op+8-s)) = ref a := hper _ hstep a (by omega)
  have hguard : MATCH_SAFEGUARD_DISTANCE = 12 := rfl
  have hlast : LASTLITERALS = 5 := rfl
  have hwild : WILDCOPYLENGTH = 8 := rfl
  constructor
  · intro hend
    rw [copyRest, if_pos (by omega), if_pos hend]
  · intro hend
    by_cases hnear : c.oend < op+length+MATCH_SAFEGUARD_DISTANCE
    · rw [copyRest, if_pos hnear, if_neg (by omega), hwild]
      by_cases hlimit : op+8 < c.oend-7
      · obtain ⟨m1, h1, hag1, hk1⟩ := wildCopy8_within (c.oend-7) hs hstart hapart
          le_rfl hstep hper hag (by omega) (by omega)
        obtain ⟨m2, h2, hag2, hk2⟩ := copyBytes_agrees (c := c) (d := c.oend-7)
          (s := s+(c.oend-7-(op+8))) (op+length) (by omega) (by omega) (by omega) (by
            intro a ha
            rw [show c.oend-7-(s+(c.oend-7-(op+8))) = op+8-s by omega]
            exact hdist a (by omega)) (hag1.mono (by omega))
        refine ⟨m2, ?_, hag2.mono (by omega),
          (hk1.mono (by omega) le_rfl).trans (hk2.mono (by omega) le_rfl)⟩
        simp only [Nat.reduceSub, if_pos hlimit, h1, h2, Option.bind_eq_bind, Option.bind_some,
          Option.pure_def]
      · obtain ⟨m2, h2, hag2, hk2⟩ := copyBytes_agrees (c := c) (d := op+8) (s := s)
          (op+length) hs (by omega) (by omega) hdist hag
        refine ⟨m2, ?_, hag2.mono (by omega), hk2.mono (by omega) le_rfl⟩
        simp only [Nat.reduceSub, if_neg hlimit, h2, Option.bind_eq_bind, Option.bind_some,
          Option.pure_def]
    · rw [copyRest, if_neg hnear]
      obtain ⟨m1, h1, hag1, hk1⟩ := copyWithin_agrees (n := 8) (d := op+8) (s := s) hag le_rfl hs
        (by omega) (by omega) (by omega) (by
          intro k hk
          have := hdist (s+k) (by omega)
          rwa [show s+k+(op+8-s) = op+8+k by omega] at this)
      by_cases hlong : 16 < length
      · have hag1' : Agrees m1 ref c.dst (op+8+8) := hag1.mono (by omega)
        obtain ⟨m2, h2, hag2, hk2⟩ := wildCopy8_within (s := s+8) (op+length)
          (by omega) (by omega) (by omega) le_rfl
          (by rwa [show op+8+8-(s+8) = op+8-s by omega]) hper hag1' (by omega) (by omega)
        refine ⟨m2, ?_, hag2.mono (by omega),
          (hk1.mono (by omega) (by omega)).trans (hk2.mono (by omega) le_rfl)⟩
        simp only [h1, h2, if_pos hlong, Option.bind_eq_bind, Option.bind_some, Option.pure_def]
      · refine ⟨m1, ?_, hag1.mono (by omega), hk1.mono (by omega) (by omega)⟩
        simp only [h1, if_neg hlong, Option.bind_eq_bind, Option.bind_some, Option.pure_def]

end Pauline.Pack
