import Pauline.Pack.FindMatch

/-!
# What the packer writes

Each writer goes on with the bytes of its part of a sequence, and stays within a few
bytes of them. A token is written twice, the second time when the match is known.
-/

set_option autoImplicit false

namespace Pauline.Pack
open Buffer Lz4Block

variable {c : Call} {before mem : Mem} {out : List Byte} {op : ℕ}

/-! ## Stores -/

theorem Written.write (h : Written c before out op mem) (bs : List Byte)
    (hend : op+bs.length ≤ c.oend) :
    ∃ mem', c.write mem op bs = some mem' ∧ Written c before (out ++ bs) (op+bs.length) mem' := by
  have hop := h.op_eq
  unfold Call.oend at hend
  obtain ⟨mem', hwrite, hag, hkept⟩ := write_agrees bs (h.ahead bs) le_rfl (by omega) hend (by
    intro k hk
    rw [hop, textAt_new]
    simp [List.getD_eq_getElem?_getD, hk])
  refine ⟨mem',hwrite,?_,?_,hag.mono (by omega),h.kept.trans (hkept.mono (by omega) hend)⟩
  · rw [List.length_append]
    omega
  · rw [List.length_append]
    omega

theorem Written.first {more : List Byte} (h : Written c before (out ++ more) op mem) :
    Written c before out (c.dst+out.length) mem := by
  have hroom := h.room
  have hop := h.op_eq
  rw [List.length_append] at hroom hop
  refine ⟨rfl,by omega,fun a hlo hhi => ?_,h.kept⟩
  rw [h.text a hlo (by omega), textAt_old hhi hlo]

/-- A byte that has been written is written again. -/
theorem Written.patch {x y : Byte} {more : List Byte}
    (h : Written c before (out ++ x :: more) op mem) :
    mem (c.dst+out.length) = x ∧ ∃ mem', c.write mem (c.dst+out.length) [y] = some mem' ∧
      Written c before (out ++ y :: more) op mem' := by
  have hop := h.op_eq
  have hroom := h.room
  have hoend : c.oend = c.dst+c.outputSize := rfl
  rw [List.length_append, List.length_cons] at hop hroom
  constructor
  · rw [h.text _ (Nat.le_add_right _ _) (by omega)]
    exact textAt_new (k := 0)
  · have hend : c.dst+out.length+[y].length ≤ c.oend := by
      rw [List.length_singleton]
      omega
    have hlen : (out ++ y :: more).length = out.length+(more.length+1) := by
      rw [List.length_append, List.length_cons]
    refine ⟨put mem (c.dst+out.length) [y],if_pos ⟨Nat.le_add_right _ _,hend⟩,by omega,by omega,?_,
      h.kept.trans (Kept.put (Nat.le_add_right _ _) hend)⟩
    intro a hlo hhi
    have hold := h.text a hlo hhi
    unfold put
    simp only [List.length_singleton]
    obtain hlt | rfl | hgt := lt_trichotomy a (c.dst+out.length)
    · rw [dif_neg (by omega), hold, textAt_old hlt hlo, textAt_old hlt hlo]
    · rw [dif_pos (by omega)]
      simp [textAt, List.getD_eq_getElem?_getD]
    · rw [dif_neg (by omega), hold]
      obtain ⟨k, rfl⟩ : ∃ k, a = c.dst+out.length+(k+1) := ⟨a-(c.dst+out.length)-1,by omega⟩
      rw [textAt_new, textAt_new]
      simp [List.getD_eq_getElem?_getD]

/-! ## Lengths -/

theorem writeLength_spec (n : ℕ) (h : Written c before out op mem)
    (hend : op+(n/255+1) ≤ c.oend) :
    ∃ mem', writeLength c mem op n = some (mem',op+(n/255+1)) ∧
      Written c before (out ++ lengthTail n) (op+(n/255+1)) mem' := by
  induction n using Nat.strong_induction_on generalizing out op mem with
  | _ n ih =>
    rw [writeLength]
    obtain hsmall | ⟨m, rfl⟩ : n < 255 ∨ ∃ m, n = m+255 :=
      (Nat.lt_or_ge n 255).imp_right fun h => ⟨n-255,by omega⟩
    · obtain ⟨mem', hwrite, hwritten⟩ := h.write [BitVec.ofNat 8 n]
        (by simp only [List.length_singleton]; omega)
      rw [dif_neg (by omega), hwrite, lengthTail_small hsmall, Nat.div_eq_of_lt hsmall]
      exact ⟨mem',rfl,hwritten⟩
    · rw [Nat.add_div_right _ (by decide)] at hend ⊢
      obtain ⟨mem1, hwrite, hwritten⟩ := h.write [255#8]
        (by simp only [List.length_singleton]; omega)
      obtain ⟨mem2, hrest, hall⟩ := ih m (by omega) hwritten
        (by simp only [List.length_singleton]; omega)
      rw [List.length_singleton, Nat.add_assoc, Nat.add_comm 1] at hrest hall
      rw [dif_pos (by omega), hwrite, Option.bind_some, Nat.add_sub_cancel, lengthTail_add]
      rw [List.append_assoc, List.singleton_append] at hall
      exact ⟨mem2,by simpa only [List.length_singleton] using hrest,hall⟩

theorem writeToken_spec (n : ℕ) (h : Written c before out op mem)
    (hend : op+1+(lengthBytes n).length ≤ c.oend) :
    ∃ mem', writeToken c mem op n = some (mem',op+1+(lengthBytes n).length) ∧
      Written c before (out ++ token n 0 :: lengthBytes n) (op+1+(lengthBytes n).length) mem' := by
  have hmask : RUN_MASK = 15 := rfl
  rw [lengthBytes_length] at hend ⊢
  unfold writeToken lengthBytes
  by_cases hsmall : n < 15
  · rw [if_pos hsmall] at hend
    obtain ⟨mem', hwrite, hwritten⟩ := h.write [BitVec.ofNat 8 (n*2^4)]
      (by simp only [List.length_singleton]; omega)
    have htoken : token n 0 = BitVec.ofNat 8 (n*2^4) := by
      rw [token, min_eq_right hsmall.le, Nat.min_zero, Nat.add_zero, Nat.mul_comm]
      rfl
    rw [if_neg (by omega), if_pos hsmall, if_pos hsmall, hwrite, htoken]
    exact ⟨mem',rfl,hwritten⟩
  · rw [if_neg hsmall] at hend
    obtain ⟨mem1, hwrite, hwritten⟩ := h.write [BitVec.ofNat 8 (RUN_MASK*2^4)]
      (by simp only [List.length_singleton]; omega)
    obtain ⟨mem2, hrest, hall⟩ := writeLength_spec (n-15) hwritten
      (by simp only [List.length_singleton]; omega)
    have htoken : token n 0 = BitVec.ofNat 8 (RUN_MASK*2^4) := by
      rw [token, min_eq_left (by omega)]
      rfl
    rw [if_pos (by omega), if_neg hsmall, if_neg hsmall, hwrite, htoken]
    rw [List.append_assoc, List.singleton_append] at hall
    exact ⟨mem2,hrest,hall⟩

/-- The bytes of 255 are there before they count. -/
theorem matchCodeLoop_spec (n : ℕ)
    (h : Written c before (out ++ List.replicate 4 255#8) (op+4) mem)
    (hend : op+(n/255+5) ≤ c.oend) :
    ∃ mem', matchCodeLoop c mem op n = some (mem',op+(n/255+1)) ∧
      Written c before (out ++ lengthTail n) (op+(n/255+1)) mem' := by
  induction n using Nat.strong_induction_on generalizing out op mem with
  | _ n ih =>
    rw [matchCodeLoop]
    by_cases hlong : 4*255 ≤ n
    · obtain ⟨m, rfl⟩ : ∃ m, n = m+4*255 := ⟨n-4*255,by omega⟩
      have hdiv : (m+4*255)/255 = m/255+4 := Nat.add_mul_div_right m 4 (by decide)
      have hmod : (m+4*255) % 255 = m % 255 := Nat.add_mul_mod_self_right m 4 255
      rw [hdiv] at hend ⊢
      obtain ⟨mem1, hwrite, hwritten⟩ := h.write (List.replicate 4 255#8)
        (by simp only [List.length_replicate]; omega)
      obtain ⟨mem2, hrest, hall⟩ := ih m (by omega) hwritten (by omega)
      rw [dif_pos hlong, hwrite, Option.bind_some, Nat.add_sub_cancel, hrest]
      refine ⟨mem2,by rw [show op+4+(m/255+1) = op+(m/255+4+1) by omega],?_⟩
      rw [show op+(m/255+4+1) = op+4+(m/255+1) by omega, lengthTail, hdiv, hmod, Nat.add_comm _ 4,
        List.replicate_add, List.append_assoc, ← lengthTail, ← List.append_assoc]
      exact hall
    · have hop := h.op_eq
      rw [List.length_append, List.length_replicate] at hop
      have hfour : List.replicate 4 255#8 =
          List.replicate (n/255) 255#8 ++ List.replicate (4-n/255) 255#8 := by
        rw [← List.replicate_add, Nat.add_sub_cancel' (by omega)]
      rw [hfour, ← List.append_assoc] at h
      have hfirst := h.first
      rw [List.length_append, List.length_replicate, show c.dst+(out.length+n/255) = op+n/255 by
        omega] at hfirst
      obtain ⟨mem', hwrite, hwritten⟩ := hfirst.write [BitVec.ofNat 8 (n % 255)]
        (by simp only [List.length_singleton]; omega)
      rw [dif_neg hlong, hwrite]
      refine ⟨mem',rfl,?_⟩
      rw [List.append_assoc] at hwritten
      exact hwritten

theorem token_add (literals n : ℕ) : token literals 0+BitVec.ofNat 8 (min 15 n) = token literals n := by
  apply BitVec.eq_of_toNat_eq
  rw [BitVec.toNat_add, token, token, BitVec.toNat_ofNat, BitVec.toNat_ofNat, BitVec.toNat_ofNat]
  omega

theorem writeMatchCode_spec {literals : ℕ} {rest : List Byte} (n : ℕ)
    (h : Written c before (out ++ token literals 0 :: rest) op mem)
    (hend : op+(lengthBytes n).length+4 ≤ c.oend) :
    ∃ mem', writeMatchCode c mem (c.dst+out.length) op n =
        some (mem',op+(lengthBytes n).length) ∧
      Written c before (out ++ token literals n :: (rest ++ lengthBytes n))
        (op+(lengthBytes n).length) mem' := by
  have hmask : ML_MASK = 15 := rfl
  obtain ⟨hold, mem1, hpatch, hpatched⟩ := h.patch (y := token literals n)
  have hsum := token_add literals n
  rw [lengthBytes_length] at hend ⊢
  unfold writeMatchCode lengthBytes
  rw [hold]
  by_cases hsmall : n < 15
  · rw [min_eq_right hsmall.le] at hsum
    rw [if_neg (by omega), if_pos hsmall, if_pos hsmall, hsum, hpatch, List.append_nil]
    exact ⟨mem1,rfl,hpatched⟩
  · rw [if_neg hsmall] at hend
    rw [min_eq_left (by omega)] at hsum
    obtain ⟨mem2, hwrite, hwritten⟩ := hpatched.write (List.replicate 4 255#8)
      (by simp only [List.length_replicate]; omega)
    obtain ⟨mem3, hrest, hall⟩ := matchCodeLoop_spec (n-15) hwritten (by omega)
    rw [if_pos (by omega), if_neg hsmall, if_neg hsmall, hmask, hsum, hpatch]
    simp only [Option.bind_eq_bind, Option.bind_some, hwrite]
    rw [List.append_assoc, List.cons_append] at hall
    exact ⟨mem3,hrest,hall⟩

end Pauline.Pack
