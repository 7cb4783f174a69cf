import Pauline.Pack.Emit

/-!
# A turn of the packer

A turn adds a sequence to the block, whose text is then the source up to the anchor.
A sequence of 3 bytes and its lengths takes no more than the text it stands for, but
for a byte in 255.
-/

set_option autoImplicit false

namespace Pauline.Pack
open Buffer Lz4Block

variable {c : Call} {before mem : Mem} {out : List Byte} {op : ℕ}

theorem encodeLiterals_spec {anchor ip n : ℕ} (h : Written c before out op mem)
    (hn : ip = anchor+n) (hin : ip+MFLIMIT ≤ c.iend)
    (hend : op+1+(lengthBytes n).length+n+8 ≤ c.oend) :
    ∃ mem', encodeLiterals c mem op anchor ip =
        some (mem',op+1+(lengthBytes n).length+n) ∧
      Written c before (out ++ token n 0 :: (lengthBytes n ++ (c.source.drop anchor).take n))
        (op+1+(lengthBytes n).length+n) mem' := by
  have hlimit : MFLIMIT = 12 := rfl
  obtain ⟨mem1, htoken, hwritten⟩ := writeToken_spec n h (by omega)
  have hop := hwritten.op_eq
  obtain ⟨mem2, hcopy, hag, hkept⟩ := wildCopy8_agrees
    (op+1+(lengthBytes n).length+n+8) (c := c) (s := anchor) (d := op+1+(lengthBytes n).length)
    (e := op+1+(lengthBytes n).length+n) (fun m k hk hag => copyIn_agrees hag (by omega) (by omega)
      (by omega) (by omega)) (hwritten.ahead (c.source.drop anchor)) (by omega) (by omega)
  have hlits := hwritten.literals (n := n) (by omega) hag (by omega) (by omega)
    (hkept.mono le_rfl (by omega))
  refine ⟨mem2,?_,?_⟩
  · rw [encodeLiterals, show ip-anchor = n by omega]
    simp only [htoken, Option.bind_eq_bind, Option.bind_some, hcopy, Option.pure_def]
  · rw [List.append_assoc, List.cons_append] at hlits
    exact hlits

theorem encodeMatch_spec {ip m d literals : ℕ} {lits : List Byte}
    (h : Written c before (out ++ token literals 0 :: lits) op mem) (hmatch : Match c ip m (d+4))
    (hin : ip+d+MFLIMIT ≤ c.iend)
    (hend : ∀ n, ip+(n+4)+LASTLITERALS ≤ c.iend → op+2+(lengthBytes n).length+4 ≤ c.oend) :
    ∃ n mem', encodeMatch c mem (c.dst+out.length) op ip m =
        some (mem',op+2+(lengthBytes n).length,ip+(n+MINMATCH)) ∧
      d ≤ n ∧ ip+(n+4)+LASTLITERALS ≤ c.iend ∧ Match c ip m (n+4) ∧
      Written c before (out ++ token literals n :: (lits ++ (offsetBytes (ip-m) ++ lengthBytes n)))
        (op+2+(lengthBytes n).length) mem' := by
  have hlimit : MFLIMIT = 12 := rfl
  have hlast : LASTLITERALS = 5 := rfl
  have hmin : MINMATCH = 4 := rfl
  have hbefore := hmatch.before
  obtain ⟨n, hcount, hle, hsame, hstop⟩ := count_spec
    (c.iend-LASTLITERALS) (c := c) (i := ip+MINMATCH) (j := m+MINMATCH) (by omega) (by omega) (by omega)
  have hroom := hend n (by omega)
  obtain ⟨mem1, hwrite, hwritten⟩ := h.write (offsetBytes (ip-m))
    (by simp only [offsetBytes, List.length_cons, List.length_nil]; omega)
  have htwo : (offsetBytes (ip-m)).length = 2 := rfl
  rw [List.append_assoc, List.cons_append, htwo] at hwritten
  obtain ⟨mem2, hcode, hall⟩ := writeMatchCode_spec n hwritten hroom
  refine ⟨n,mem2,?_,?_,by omega,⟨hbefore,hmatch.near,?_⟩,?_⟩
  · simp only [encodeMatch, hwrite, hcount, hcode, Option.bind_eq_bind, Option.bind_some,
      Option.pure_def]
  · by_contra hlt
    apply hstop (by omega)
    have := hmatch.same (MINMATCH+n) (by omega)
    rwa [← Nat.add_assoc, ← Nat.add_assoc] at this
  · rw [Nat.add_comm]
    exact (hmatch.same.mono (Nat.le_add_left 4 d)).append hsame
  · rw [List.append_assoc] at hall
    exact hall

/-! ## The block so far -/

structure Packed (c : Call) (before : Mem) (ss : List Sequence) (anchor op : ℕ) (mem : Mem) :
    Prop where
  written : Written c before (encodeAll ss) op mem
  anchor_le : anchor ≤ c.iend
  text : applyAll ss [] = c.source.take anchor
  backward : Backward ss 0
  forward : ∀ q ∈ ss, 0 < q.offset
  bound : (encodeAll ss).length ≤ anchor+anchor/255
  ends : ∀ q, ss.getLast? = some q →
    anchor+5 ≤ c.iend ∧ 12+anchor ≤ c.iend+q.matchLength

theorem packed_start (c : Call) (mem : Mem) : Packed c mem [] 0 c.dst mem where
  written := written_start c mem
  anchor_le := Nat.zero_le _
  text := rfl
  backward := trivial
  forward := fun _ h => nomatch h
  bound := le_rfl
  ends := fun _ h => nomatch h

theorem Packed.sizes {ss : List Sequence} {anchor : ℕ} (h : Packed c before ss anchor op mem) :
    sizes ss = anchor := by
  have hlen := congrArg List.length h.text
  rw [applyAll_length, List.length_nil, Nat.zero_add, List.length_take_of_le h.anchor_le] at hlen
  exact hlen

def sequenceOf (c : Call) (anchor ip m n : ℕ) (hnear : ip ≤ m+LZ4_DISTANCE_MAX) : Sequence where
  literals := (c.source.drop anchor).take (ip-anchor)
  offset := ip-m
  matchLength := n+4
  offset_lt := by
    unfold LZ4_DISTANCE_MAX at hnear
    omega
  four_le := Nat.le_add_left 4 n

/-- A match of the source with itself goes on with the text. -/
theorem sequenceOf_apply {anchor ip m n : ℕ} (hanchor : anchor ≤ ip)
    (hin : ip+(n+4) ≤ c.iend) (hmatch : Match c ip m (n+4)) :
    (sequenceOf c anchor ip m n hmatch.near).apply (c.source.take anchor) =
      c.source.take (ip+(n+4)) := by
  have hbefore := hmatch.before
  rw [Sequence.apply, sequenceOf]
  simp only
  rw [← List.take_add, Nat.add_sub_cancel' hanchor]
  refine backCopy_take (n+4) (by omega) (by omega) hin fun k hk => ?_
  rw [List.getD_eq_getElem?_getD, List.getD_eq_getElem?_getD, hmatch.same k hk,
    show ip+k-(ip-m) = m+k by omega]

theorem Packed.sequence {ss : List Sequence} {anchor ip m n op' : ℕ} {mem' : Mem}
    (h : Packed c before ss anchor op mem) (hanchor : anchor ≤ ip) (hin : ip+MFLIMIT ≤ c.iend)
    (hlast : ip+(n+4)+LASTLITERALS ≤ c.iend) (hmatch : Match c ip m (n+4))
    (hwritten : Written c before
      (encodeAll ss ++ (sequenceOf c anchor ip m n hmatch.near).encode) op' mem') :
    Packed c before (ss ++ [sequenceOf c anchor ip m n hmatch.near]) (ip+(n+4)) op' mem' := by
  have hlimit : MFLIMIT = 12 := rfl
  have hlast' : LASTLITERALS = 5 := rfl
  have hbefore := hmatch.before
  have hbound := h.bound
  have hsizes := h.sizes
  have hlits : ((c.source.drop anchor).take (ip-anchor)).length = ip-anchor := by
    rw [List.length_take, List.length_drop]
    unfold Call.iend at hin
    omega
  have hsingle : encodeAll [sequenceOf c anchor ip m n hmatch.near] =
      (sequenceOf c anchor ip m n hmatch.near).encode := List.append_nil _
  refine ⟨?_,by omega,?_,?_,?_,?_,?_⟩
  · rw [encodeAll_append, hsingle]
    exact hwritten
  · rw [applyAll_append, h.text]
    exact sequenceOf_apply hanchor (by omega) hmatch
  · rw [backward_append, hsizes]
    refine ⟨h.backward,?_,trivial⟩
    simp only [sequenceOf, hlits]
    omega
  · intro q hq
    obtain hold | hnew := List.mem_append.mp hq
    · exact h.forward q hold
    · rw [List.mem_singleton.mp hnew]
      simp only [sequenceOf]
      omega
  · rw [encodeAll_append, hsingle, List.length_append, Sequence.encode_length]
    simp only [sequenceOf, Sequence.tail, List.length_append, hlits, lengthBytes_length, offsetBytes,
      List.length_cons, List.length_nil, Nat.add_sub_cancel]
    split_ifs <;> omega
  · intro q hq
    rw [List.getLast?_concat, Option.some.injEq] at hq
    rw [← hq]
    simp only [sequenceOf]
    omega

/-! ## A turn -/

structure Encoding (c : Call) (before : Mem) {t : TableType} (ss : List Sequence) (s : Encoder t) :
    Prop where
  packed : Packed c before ss s.anchor s.op s.mem
  below : s.anchor < c.mflimitPlusOne
  holds : Holds c s.table (s.anchor+1)
  place : ∀ m, s.place = .nextMatch m → Match c s.anchor m 4

def Stepped (c : Call) (before : Mem) {t : TableType} : Step t → Prop
  | .again s => ∃ ss, Encoding c before ss s
  | .lastLiterals anchor op mem => ∃ ss, Packed c before ss anchor op mem

variable {t : TableType}

theorem afterMatch_spec {ss : List Sequence} {ip : ℕ} (hfits : Fits c t) (hlong : MFLIMIT ≤ c.iend)
    {table : HashTable t} (h : Packed c before ss ip op mem) (hip : 2 ≤ ip)
    (hholds : Holds c table ip) :
    ∃ r, afterMatch c table mem op ip = some r ∧ Stepped c before r := by
  have hlimit : MFLIMIT = 12 := rfl
  have hplus : c.mflimitPlusOne = c.iend-MFLIMIT+1 := rfl
  unfold afterMatch
  by_cases hend : c.mflimitPlusOne ≤ ip
  · exact ⟨_,if_pos hend,ss,h⟩
  · obtain ⟨h0, hh0⟩ := hashPosition_at (c := c) (t := t) (p := ip-2) (by omega)
    obtain ⟨h1, hh1⟩ := hashPosition_at (c := c) (t := t) (p := ip) (by omega)
    obtain ⟨h2, hh2⟩ := hashPosition_at (c := c) (t := t) (p := ip+1) (by omega)
    -- The table is looked at before the place itself is stored.
    have hput := hholds.put hfits h0 (p := ip-2) (by omega) (by omega)
    obtain ⟨found, hsame, hmatch⟩ := sameAt_spec hfits (by omega) (hput h1)
    simp only [if_neg hend, hh0, hh1, hh2, hsame, Option.bind_eq_bind, Option.bind_some,
      Option.pure_def]
    have hput' := (hput.mono (Nat.le_succ ip)).put hfits h1 (Nat.lt_succ_self ip) (by omega)
    by_cases hfound : found = true
    · rw [if_pos hfound]
      refine ⟨_,rfl,ss,h,by simp only; omega,hput',fun m hm => ?_⟩
      cases hm
      exact (hmatch hfound).2
    · rw [if_neg hfound]
      exact ⟨_,rfl,ss,h,by simp only; omega,hput',fun m hm => nomatch hm⟩

/-- From the match on, once the literals have been written. -/
theorem encodeMatch_afterMatch {ss : List Sequence} {anchor ip m d op' : ℕ} {mem' : Mem}
    (hfits : Fits c t) (hcap : c.iend+c.iend/255+16 ≤ c.outputSize) {table : HashTable t}
    (h : Packed c before ss anchor op mem) (hanchor : anchor ≤ ip) (hin : ip+d+MFLIMIT ≤ c.iend)
    (hmatch : Match c ip m (d+4)) (hholds : Holds c table (ip+d+1))
    (hop' : op' = op+1+(lengthBytes (ip-anchor)).length+(ip-anchor))
    (hwritten : Written c before (encodeAll ss ++ token (ip-anchor) 0 ::
      (lengthBytes (ip-anchor) ++ (c.source.drop anchor).take (ip-anchor))) op' mem') :
    ∃ mem2 op2 ip2 r, encodeMatch c mem' op op' ip m = some (mem2,op2,ip2) ∧
      afterMatch c table mem2 op2 ip2 = some r ∧ Stepped c before r := by
  have hlimit : MFLIMIT = 12 := rfl
  have hlast : LASTLITERALS = 5 := rfl
  have hmin : MINMATCH = 4 := rfl
  have hoend : c.oend = c.dst+c.outputSize := rfl
  have hop := h.written.op_eq
  have hbound := h.bound
  obtain ⟨n, mem2, hencode, hdn, hle, hmatch2, hwritten2⟩ := encodeMatch_spec hwritten hmatch hin (by
    intro n hn
    rw [lengthBytes_length] at hop' ⊢
    split_ifs at hop' ⊢ <;> omega)
  have hlits : ((c.source.drop anchor).take (ip-anchor)).length = ip-anchor := by
    rw [List.length_take, List.length_drop]
    unfold Call.iend at hin
    omega
  have hencoded : (sequenceOf c anchor ip m n hmatch2.near).encode = token (ip-anchor) n ::
      ((lengthBytes (ip-anchor) ++ (c.source.drop anchor).take (ip-anchor)) ++
        (offsetBytes (ip-m) ++ lengthBytes n)) := by
    rw [Sequence.encode, Sequence.tail]
    simp only [sequenceOf, hlits, Nat.add_sub_cancel, List.append_assoc]
  rw [← hencoded] at hwritten2
  rw [← hop] at hencode
  obtain ⟨r, hafter, hstepped⟩ := afterMatch_spec hfits (by omega)
    (h.sequence hanchor (by omega) hle hmatch2 hwritten2) (by omega) (hholds.mono (by omega))
  exact ⟨mem2,_,_,r,hencode,hafter,hstepped⟩

theorem encodeTurn_spec {ss : List Sequence} {s : Encoder t} (hfits : Fits c t)
    (hcap : c.iend+c.iend/255+16 ≤ c.outputSize) (hlong : MFLIMIT ≤ c.iend)
    (h : Encoding c before ss s) : ∃ r, encodeTurn c s = some r ∧ Stepped c before r := by
  have hlimit : MFLIMIT = 12 := rfl
  have hoend : c.oend = c.dst+c.outputSize := rfl
  have hop := h.packed.written.op_eq
  have hbound := h.packed.bound
  have hbelow := h.below
  unfold Call.mflimitPlusOne at hbelow
  unfold encodeTurn
  split
  · rename_i forwardH _
    obtain ⟨found, hsearch, hend⟩ := search_spec hfits hlong (Search.start (s.anchor+1)) forwardH
      h.holds
    match found, hend with
    | none, _ =>
      simp only [hsearch, Option.bind_eq_bind, Option.bind_some, Option.pure_def]
      exact ⟨_,rfl,ss,h.packed⟩
    | some (ip,m,table), ⟨hfrom,hin,hmatch,hholds⟩ =>
      have hfrom' : s.anchor+1 ≤ ip := hfrom
      have hbefore := hmatch.before
      obtain ⟨d, hcatch, hd, hback, hsame⟩ := catchUp_spec s.anchor ip (c := c) (by omega)
        (by omega) hbefore hmatch.same
      obtain ⟨mem1, hlits, hwritten⟩ := encodeLiterals_spec h.packed.written
        (show ip-d = s.anchor+(ip-d-s.anchor) by omega) (by omega) (by
          rw [lengthBytes_length]
          split_ifs <;> omega)
      have hnear := hmatch.near
      obtain ⟨mem2, op2, ip2, r, hencode, hafter, hstepped⟩ := encodeMatch_afterMatch hfits hcap
        h.packed (show s.anchor ≤ ip-d by omega) (by omega) ⟨by omega,by omega,hsame⟩
        (hholds.mono (by omega)) rfl hwritten
      simp only [hsearch, hcatch, hlits, hencode, hafter, Option.bind_eq_bind, Option.bind_some]
      exact ⟨r,rfl,hstepped⟩
  · rename_i m hplace
    have hmatch := h.place m hplace
    obtain ⟨mem1, hwrite, hwritten⟩ := h.packed.written.write [0#8]
      (by simp only [List.length_singleton]; omega)
    obtain ⟨mem2, op2, ip2, r, hencode, hafter, hstepped⟩ := encodeMatch_afterMatch (d := 0)
      hfits hcap h.packed le_rfl (by omega) hmatch h.holds
      (show s.op+1 = _ by rw [Nat.sub_self]; rfl) (by rw [Nat.sub_self]; exact hwritten)
    simp only [hwrite, hencode, hafter, Option.bind_eq_bind, Option.bind_some]
    exact ⟨r,rfl,hstepped⟩

end Pauline.Pack
