import Pauline.Pack.DecodeTurn

/-!
# What is unpacked

On any input the decoder stays within its buffers, and what it accepts is a block of
the format, whose text it has put out. It accepts every block that ends by the rules
of the format and fits.
-/

set_option autoImplicit false

namespace Pauline.Pack
open Buffer Lz4Block

variable {c : Call} {before mem : Mem} {out : List Byte} {op : ℕ}

/-! ## A turn on any input -/

def TurnRead (c : Call) (before : Mem) (out : List Byte) (ip : ℕ) : Turn → Prop
  | .again s => ∃ q : Sequence, c.source.drop ip = q.encode ++ c.source.drop s.ip ∧
      s.ip < c.iend ∧ q.offset ≤ out.length+q.literals.length ∧
      Written c before (q.apply out) s.op s.mem
  | .finished s => ∃ matchCode last, c.source.drop ip = encodeLast matchCode last ∧
      Written c before (out ++ last) s.op s.mem
  | .outputError s => Kept before s.mem c.dst c.oend

theorem token_eq {b : Byte} {literals n : ℕ} (hhigh : min 15 literals = b.toNat/16)
    (hlow : min 15 n = b.toNat % 16) : token literals n = b := by
  apply BitVec.eq_of_toNat_eq
  rw [token, BitVec.toNat_ofNat]
  omega

theorem MatchRead.turn {ip ip' length offset : ℕ} {b : Byte} {t : Turn}
    (hoffset : offset < 2^16) (hhigh : min 15 length = b.toNat/16)
    (htoken : c.source.drop ip = b :: (lengthBytes length ++ c.source.drop ip'))
    (hbytes : c.source.drop (ip'+length) = offsetBytes offset ++ c.source.drop (ip'+length+2))
    (hin : ip'+length ≤ c.iend)
    (h : MatchRead c before (out ++ (c.source.drop ip').take length) (b.toNat % 16) offset
      (ip'+length+2) t) : TurnRead c before out ip t := by
  have hlen : ((c.source.drop ip').take length).length = length := by
    rw [List.length_take, List.length_drop]
    unfold Call.iend at hin
    omega
  cases t with
  | again s =>
    obtain ⟨n, hlow, hoff, htail, hip, hwritten⟩ := h
    refine ⟨⟨(c.source.drop ip').take length,offset,n+4,hoffset,Nat.le_add_left 4 n⟩,?_,hip,?_,
      hwritten⟩
    · have hlits : c.source.drop ip' = (c.source.drop ip').take length ++
          c.source.drop (ip'+length) := by
        rw [← List.drop_drop, List.take_append_drop]
      rw [Sequence.encode, Sequence.tail, hlen, Nat.add_sub_cancel, token_eq hhigh hlow, htoken,
        List.cons_append, List.append_assoc, List.append_assoc, List.append_assoc, ← htail,
        ← hbytes, ← hlits]
    · rw [List.length_append, hlen] at hoff
      simpa only [hlen] using hoff
  | finished s => exact h.elim
  | outputError s => exact h

theorem offsetBytes_inj {m n : ℕ} {rest rest' : List Byte} (hm : m < 2^16) (hn : n < 2^16)
    (h : offsetBytes m ++ rest = offsetBytes n ++ rest') : m = n ∧ rest = rest' := by
  simp only [offsetBytes, List.cons_append, List.nil_append, List.cons.injEq] at h
  obtain ⟨hlo, hhi, hrest⟩ := h
  have hlo' := congrArg BitVec.toNat hlo
  have hhi' := congrArg BitVec.toNat hhi
  simp only [BitVec.toNat_ofNat] at hlo' hhi'
  exact ⟨by omega,hrest⟩

theorem drop_append_eq {ip : ℕ} {first rest : List Byte} (h : c.source.drop ip = first ++ rest) :
    c.source.drop (ip+first.length) = rest := by
  rw [← List.drop_drop, h, List.drop_left]

theorem copyMatch_sequence {q : Sequence} {ip offset : ℕ} {rest : List Byte}
    (h : Written c before (out ++ q.literals) (op+q.literals.length) mem)
    (htext : c.source.drop ip = q.tail ++ rest) (hoffset : offset < 2^16)
    (hbytes : c.source.drop ip = offsetBytes offset ++ c.source.drop (ip+2))
    (hrest : 6 ≤ rest.length) (hoff : q.offset ≤ out.length+q.literals.length)
    (hlits : op+q.literals.length+12 ≤ c.oend) (hend : op+q.size+5 ≤ c.oend) :
    offset = q.offset ∧ c.source.drop (ip+2) = lengthBytes (q.matchLength-4) ++ rest ∧
      ∃ mem', copyMatch c (min 15 (q.matchLength-4)) offset ⟨ip+2,op+q.literals.length,mem⟩ =
          some (.again ⟨ip+q.tail.length,op+q.size,mem'⟩) ∧
        Written c before (q.apply out) (op+q.size) mem' := by
  have hmin : MINMATCH = 4 := rfl
  have hlast : LASTLITERALS = 5 := rfl
  have hfour := q.four_le
  have hdst := c.dst_end
  unfold Call.oend at hlits hend
  unfold Sequence.size at hend ⊢
  rw [hbytes, Sequence.tail, List.append_assoc] at htext
  obtain ⟨heq, hlength⟩ := offsetBytes_inj hoffset q.offset_lt htext
  refine ⟨heq,hlength,?_⟩
  rw [heq]
  obtain ⟨-, hdone⟩ := copyMatch_known q.offset h
    (by rw [List.length_append]; exact hoff) hlits
    (readMatchLength_known hlength (by omega) (by omega)) (by omega)
  obtain ⟨mem', hturn, hwritten⟩ := hdone (by unfold Call.oend; omega)
  rw [hmin, Nat.sub_add_cancel hfour, Nat.add_assoc] at hturn hwritten
  refine ⟨mem',?_,hwritten⟩
  rw [hturn, Sequence.tail, List.length_append, offsetBytes, List.length_cons,
    List.length_singleton, Nat.add_assoc]

theorem token_at {ip literals matchCode : ℕ} {rest : List Byte}
    (htext : c.source.drop ip = token literals matchCode :: rest) :
    c.source[ip]? = some (token literals matchCode) ∧ c.source.drop (ip+1) = rest := by
  have hlt : ip < c.source.length := by
    have := congrArg List.length htext
    rw [List.length_drop, List.length_cons] at this
    omega
  rw [drop_byte hlt, List.cons.injEq, List.get_eq_getElem] at htext
  exact ⟨(List.getElem?_eq_getElem hlt).trans (congrArg some htext.1),htext.2⟩

/-- A turn without the shortcut, once it has read the length of its literals. -/
theorem decodeTurn_literals {ip literals matchCode : ℕ} {rest : List Byte}
    (htext : c.source.drop ip = token literals matchCode :: (lengthBytes literals ++ rest))
    (hrest : literals ≤ rest.length) (hout : op+literals < 2^32)
    (hshort : ¬(literals < 15 ∧ ip+1+16 < c.iend ∧ op+32 ≤ c.oend)) :
    decodeTurn c ⟨ip,op,mem⟩ = copyLiterals c (token literals matchCode).toNat literals
      ⟨ip+1+(lengthBytes literals).length,op,mem⟩ := by
  have hmask : RUN_MASK = 15 := rfl
  have hsrc := c.src_end
  have hhigh := token_high literals matchCode
  have hlen := congrArg List.length htext
  rw [List.length_drop, List.length_cons, List.length_append] at hlen
  obtain ⟨hat, hparse⟩ := token_at htext
  simp only [decodeTurn, hat, Option.bind_eq_bind, Option.bind_some]
  rw [if_neg (by omega)]
  by_cases hlong : (token literals matchCode).toNat/16 = RUN_MASK
  · have hbytes : lengthBytes literals = lengthTail (literals-15) := by
      rw [lengthBytes, if_neg (by omega)]
    rw [hbytes] at hparse hlen ⊢
    rw [lengthTail_length] at hlen ⊢
    obtain ⟨error, hread, herror⟩ := readLiteralLength_known hparse (by omega) (by omega)
    have hsum : (RUN_MASK+(literals-15)) % 2^32 = literals := by
      rw [hmask, Nat.add_sub_cancel' (by omega), Nat.mod_eq_of_lt (by omega)]
    rw [if_pos hlong, hlong, hread]
    simp only [Option.bind_some, hsum]
    rw [if_neg]
    rintro (hinit | hover | hover)
    · exact herror hinit
    · omega
    · omega
  · have hbytes : lengthBytes literals = [] := if_pos (by omega)
    rw [if_neg hlong, hbytes, List.length_nil, Nat.add_zero,
      show (token literals matchCode).toNat/16 = literals by omega]

theorem decodeTurn_shortcut {ip literals matchCode : ℕ} {rest : List Byte}
    (htext : c.source.drop ip = token literals matchCode :: rest)
    (hshort : literals < 15 ∧ ip+1+16 < c.iend ∧ op+32 ≤ c.oend) :
    decodeTurn c ⟨ip,op,mem⟩ =
      shortcut c (token literals matchCode).toNat ⟨ip+1,op,mem⟩ := by
  have hmask : RUN_MASK = 15 := rfl
  have hhigh := token_high literals matchCode
  simp only [decodeTurn, (token_at htext).1, Option.bind_eq_bind, Option.bind_some]
  rw [if_pos ⟨by omega,hshort.2⟩]

/-- A turn that reads a sequence with room behind it does what the sequence says. -/
theorem decodeTurn_sequence {q : Sequence} {ip : ℕ} {rest : List Byte}
    (h : Written c before out op mem) (htext : c.source.drop ip = q.encode ++ rest)
    (hrest : 6 ≤ rest.length) (hoff : q.offset ≤ out.length+q.literals.length)
    (hlits : op+q.literals.length+12 ≤ c.oend) (hend : op+q.size+5 ≤ c.oend) :
    ∃ mem', decodeTurn c ⟨ip,op,mem⟩ = some (.again ⟨ip+q.encode.length,op+q.size,mem'⟩) ∧
      Written c before (q.apply out) (op+q.size) mem' := by
  have hmin : MINMATCH = 4 := rfl
  have hfour := q.four_le
  have hdst := c.dst_end
  have hoend : c.oend = c.dst+c.outputSize := rfl
  have hsize : q.size = q.literals.length+q.matchLength := rfl
  have hencode := q.encode_length
  have hhigh := token_high q.literals.length (q.matchLength-4)
  have hlow := token_low q.literals.length (q.matchLength-4)
  have htail : q.tail.length = 2+(lengthBytes (q.matchLength-4)).length := by
    rw [Sequence.tail, List.length_append]
    rfl
  have hlen := congrArg List.length htext
  rw [List.length_drop, List.length_append, hencode] at hlen
  rw [Sequence.encode, List.cons_append, List.append_assoc, List.append_assoc] at htext
  have hparse := (token_at htext).2
  have hliterals := drop_append_eq hparse
  have hmatch := drop_append_eq hliterals
  have htake : (c.source.drop (ip+1+(lengthBytes q.literals.length).length)).take
      q.literals.length = q.literals := by
    rw [hliterals, List.take_left]
  by_cases hshort : q.literals.length < 15 ∧ ip+1+16 < c.iend ∧ op+32 ≤ c.oend
  · have hnone : lengthBytes q.literals.length = [] := if_pos hshort.1
    rw [hnone, List.length_nil, Nat.add_zero] at htake hmatch hencode
    rw [decodeTurn_shortcut htext hshort]
    generalize token q.literals.length (q.matchLength-4) = b at hhigh hlow
    have hsmall : b.toNat/16 = q.literals.length := by omega
    obtain ⟨offset, mem', hoffset, hbytes, hwritten, hturn⟩ := shortcut_copies h
      (by omega : b.toNat/16 < 15) hshort.2.1 hshort.2.2
    rw [hsmall] at hbytes hwritten hturn
    rw [htake] at hwritten hturn
    obtain ⟨heq, -, mem'', hcopy, hmatched⟩ := copyMatch_sequence hwritten hmatch hoffset hbytes
      hrest hoff hlits hend
    obtain hturn | ⟨hlong, -, mem'', hturn, hmatched⟩ := hturn
    · refine ⟨mem'',?_,hmatched⟩
      rw [hturn, hlow, hcopy, hencode, show ip+1+q.literals.length+q.tail.length =
        ip+(1+0+q.literals.length+q.tail.length) by omega]
    · have hnone' : lengthBytes (q.matchLength-4) = [] := if_pos (by omega)
      rw [hnone', List.length_nil] at htail
      rw [show b.toNat % 16 = q.matchLength-4 by omega, hmin, Nat.sub_add_cancel hfour,
        Nat.add_assoc op, ← hsize] at hturn hmatched
      rw [heq] at hmatched
      refine ⟨mem'',?_,hmatched⟩
      rw [hturn, hencode, htail, show ip+1+q.literals.length+2 =
        ip+(1+0+q.literals.length+(2+0)) by omega]
  · rw [decodeTurn_literals htext (by rw [List.length_append]; omega) (by omega) hshort]
    obtain ⟨offset, mem', hturn, hoffset, hbytes, hwritten⟩ := copyLiterals_match
      (token q.literals.length (q.matchLength-4)).toNat q.literals.length
      (ip+1+(lengthBytes q.literals.length).length) h (by unfold Call.iend; omega) hlits
    rw [htake] at hwritten
    obtain ⟨-, -, mem'', hcopy, hmatched⟩ := copyMatch_sequence hwritten hmatch hoffset hbytes hrest
      hoff hlits hend
    refine ⟨mem'',?_,hmatched⟩
    rw [hturn, hlow, hcopy, hencode, show ip+1+(lengthBytes q.literals.length).length+
      q.literals.length+q.tail.length = ip+(1+(lengthBytes q.literals.length).length+
        q.literals.length+q.tail.length) by omega]

theorem decodeTurn_last {ip matchCode : ℕ} {last : List Byte} (h : Written c before out op mem)
    (htext : c.source.drop ip = encodeLast matchCode last) (hend : op+last.length ≤ c.oend) :
    ∃ s, decodeTurn c ⟨ip,op,mem⟩ = some (.finished s) ∧
      Written c before (out ++ last) s.op s.mem := by
  have hdst := c.dst_end
  have hoend : c.oend = c.dst+c.outputSize := rfl
  have hlen := congrArg List.length htext
  rw [List.length_drop, encodeLast, List.length_cons, List.length_append] at hlen
  rw [encodeLast] at htext
  have hlast := drop_append_eq (token_at htext).2
  rw [decodeTurn_literals htext le_rfl (by omega) (by
    rintro ⟨hsmall, hin, -⟩
    rw [lengthBytes, if_pos hsmall, List.length_nil] at hlen
    unfold Call.iend at hin
    omega)]
  obtain ⟨s, hcopy, hwritten⟩ := copyLiterals_last (token last.length matchCode).toNat
    last.length (ip+1+(lengthBytes last.length).length) h
    (by unfold Call.iend; omega) hend
  rw [hlast, List.take_length] at hwritten
  exact ⟨s,hcopy,hwritten⟩

/-! ## The loop -/

theorem decodeLoop_again {s s' : Decoder} (h : decodeTurn c s = some (.again s')) :
    decodeLoop c s = decodeLoop c s' := by
  rw [decodeLoop]
  split <;> simp_all

theorem decodeLoop_finished {s s' : Decoder} (h : decodeTurn c s = some (.finished s')) :
    decodeLoop c s = some ((s'.op : ℤ)-c.dst,s'.mem) := by
  rw [decodeLoop]
  split <;> simp_all

theorem decodeLoop_block (ip : ℕ) {matchCode : ℕ} {ss : List Sequence} {last : List Byte}
    (h : Written c before out op mem)
    (htext : c.source.drop ip = encodeAll ss ++ encodeLast matchCode last)
    (hback : Backward ss out.length) (hends : Block.Ends ⟨ss,last⟩)
    (hfits : op+sizes ss+last.length ≤ c.oend) :
    ∃ mem', decodeLoop c ⟨ip,op,mem⟩ = some ((op+sizes ss+last.length : ℤ)-c.dst,mem') ∧
      Written c before (applyAll ss out ++ last) (op+sizes ss+last.length) mem' := by
  induction ss generalizing ip op mem out with
  | nil =>
    obtain ⟨s, hturn, hwritten⟩ := decodeTurn_last h htext hfits
    have hop := h.op_eq
    have hop' := hwritten.op_eq
    rw [List.length_append] at hop'
    refine ⟨s.mem,?_,?_⟩
    · rw [decodeLoop_finished hturn, show s.op = op+sizes []+last.length by
        simp only [sizes, List.map_nil, List.sum_nil]; omega]
      push_cast
      rfl
    · rwa [show op+sizes []+last.length = s.op by
        simp only [sizes, List.map_nil, List.sum_nil]; omega]
  | cons q ss ih =>
    have hsizes : sizes (q :: ss) = q.size+sizes ss := by rw [sizes, List.map_cons, List.sum_cons]; rfl
    have hfour := q.four_le
    have hsize : q.size = q.literals.length+q.matchLength := rfl
    -- Behind a sequence there are a match, or the end, and five literals.
    have hlast : 5 ≤ last.length := by
      obtain ⟨t, ht⟩ := List.getLast?_isSome.mpr (List.cons_ne_nil q ss) |> Option.isSome_iff_exists.mp
      exact (hends t ht).1
    have hbehind : 12 ≤ q.matchLength+sizes ss+last.length := by
      cases ss with
      | nil =>
        have hmatch : 12 ≤ q.matchLength+last.length := (hends q rfl).2
        omega
      | cons p ss =>
        have hp := p.four_le
        rw [show sizes (p :: ss) = p.literals.length+p.matchLength+sizes ss from List.sum_cons]
        omega
    have hends' : Block.Ends ⟨ss,last⟩ := by
      intro s hs
      apply hends s
      cases ss with
      | nil => cases hs
      | cons p ss => rwa [List.getLast?_cons_cons]
    rw [encodeAll_cons, List.append_assoc] at htext
    obtain ⟨mem1, hturn, hwritten⟩ := decodeTurn_sequence h htext
      (by
        rw [List.length_append, encodeLast, List.length_cons, List.length_append]
        omega) hback.1 (by omega) (by omega)
    obtain ⟨mem2, hloop, hall⟩ := ih _ hwritten (drop_append_eq htext)
      (by rw [Sequence.apply_length]; exact hback.2) hends' (by omega)
    rw [hsizes, ← Nat.add_assoc op]
    refine ⟨mem2,?_,hall⟩
    rw [decodeLoop_again hturn, hloop]
    push_cast
    simp only [Int.add_assoc]

/-! ## The function -/

/-- A block that ends by the rules and fits is unpacked to its text. -/
theorem lz4DecompressSafe_complete (c : Call) (mem : Mem) (b : Block) (matchCode : ℕ)
    (hsource : c.source = b.encode matchCode) (hback : Backward b.sequences 0) (hends : b.Ends)
    (hfits : b.expand.length ≤ c.outputSize) (hsize : 0 < c.outputSize ∨ matchCode = 0) :
    ∃ mem', lz4DecompressSafe c mem = some ((b.expand.length : ℤ),mem') ∧
      Kept mem mem' c.dst c.oend ∧ slice mem' c.dst b.expand.length = b.expand := by
  have hlen := b.expand_length
  have hoend : c.oend = c.dst+c.outputSize := rfl
  unfold lz4DecompressSafe
  by_cases hzero : c.outputSize = 0
  · have hseqs : b.sequences = [] := by
      by_contra hne
      obtain ⟨q, hq⟩ := List.exists_mem_of_ne_nil b.sequences hne
      have hle : q.size ≤ sizes b.sequences :=
        List.single_le_sum (fun _ _ => Nat.zero_le _) q.size (List.mem_map_of_mem hq)
      have hfour := q.four_le
      unfold Sequence.size at hle
      omega
    have hlast : b.last = [] := List.eq_nil_of_length_eq_zero (by omega)
    have hcode : matchCode = 0 := hsize.resolve_left (by omega)
    have hbytes : c.source = [0#8] := by
      rw [hsource, Block.encode, hseqs, hlast, hcode]
      rfl
    have hnone : b.expand = [] := by
      rw [Block.expand, hseqs, hlast]
      rfl
    rw [if_pos hzero, if_pos hbytes, hnone]
    exact ⟨mem,rfl,Kept.refl _ _ _,rfl⟩
  · have hempty : c.source.length ≠ 0 := by
      rw [hsource, Block.encode, List.length_append, encodeLast, List.length_cons]
      omega
    rw [if_neg hzero, if_neg hempty]
    obtain ⟨mem', hloop, hwritten⟩ := decodeLoop_block 0 (written_start c mem) hsource hback
      hends (by omega)
    refine ⟨mem',?_,hwritten.kept,hwritten.slice⟩
    rw [hloop, hlen]
    push_cast
    congr 2
    omega

end Pauline.Pack
