import Pauline.Pack.LengthBytes
import Pauline.Pack.MatchCopy

/-!
# A turn of the decoder

A turn reads a sequence of the block, or its last literals, and puts out their
text.
-/

set_option autoImplicit false

namespace Pauline.Pack
open Buffer Lz4Block

variable {c : Call} {before mem : Mem} {out : List Byte} {op : ℕ}

/-! ## Matches -/

def matchText (c : Call) (offset : ℕ) (out : List Byte) : Mem :=
  fun a => trail offset out (a-c.dst)

theorem matchText_repeats {offset : ℕ} (hoff : offset ≤ out.length) :
    Repeats (matchText c offset out) (c.dst+out.length-offset) offset := by
  intro dist hdist a ha
  unfold matchText
  rw [show a+dist-c.dst = a-c.dst+dist by omega]
  exact trail_steps hoff (by omega) hdist

theorem Written.behind (h : Written c before out op mem) (offset : ℕ) :
    Agrees mem (matchText c offset out) c.dst op := by
  intro a hlo hhi
  have hop := h.op_eq
  rw [matchText, trail_old (by omega)]
  exact h.text a hlo hhi

theorem Written.matched {mem' : Mem} {offset n d : ℕ} (h : Written c before out op mem)
    (hoff : offset ≤ out.length) (hag : Agrees mem' (matchText c offset out) c.dst d)
    (hd : op+n ≤ d) (hend : op+n ≤ c.oend) (hkept : Kept mem mem' op c.oend) :
    Written c before (backCopy offset n out) (op+n) mem' := by
  have hop := h.op_eq
  unfold Call.oend at hend
  refine ⟨?_,?_,?_,h.kept.trans (hkept.mono (by omega) le_rfl)⟩
  · rw [backCopy_length]
    omega
  · rw [backCopy_length]
    omega
  · intro a hlo hhi
    rw [hag a hlo (by omega), textAt, backCopy_getD hoff (by omega), matchText]

/-- From the label `_copy_match` on, when the length is known. -/
theorem copyMatch_known (offset : ℕ) {length n ip ip' : ℕ} (h : Written c before out op mem)
    (hoff : offset ≤ out.length) (hroom : op+12 ≤ c.oend)
    (hread : readMatchLength c length ip = some (n,ip',.ok)) (hwrap : op+(n+MINMATCH) < 2^32) :
    (c.oend < op+(n+MINMATCH)+LASTLITERALS → ∃ s',
      copyMatch c length offset ⟨ip,op,mem⟩ = some (.outputError s') ∧
        Kept before s'.mem c.dst c.oend) ∧
    (op+(n+MINMATCH)+LASTLITERALS ≤ c.oend → ∃ mem',
      copyMatch c length offset ⟨ip,op,mem⟩ = some (.again ⟨ip',op+(n+MINMATCH),mem'⟩) ∧
        Written c before (backCopy offset (n+MINMATCH) out) (op+(n+MINMATCH)) mem') := by
  have hop := h.op_eq
  have hmin : MINMATCH = 4 := rfl
  have hlast : LASTLITERALS = 5 := rfl
  have hwrite : c.write mem op [0#8,0#8,0#8,0#8] = some (put mem op [0#8,0#8,0#8,0#8]) :=
    if_pos ⟨by omega,by simp only [List.length_cons, List.length_nil]; omega⟩
  have hzeros : Kept mem (put mem op [0#8,0#8,0#8,0#8]) op c.oend :=
    Kept.put le_rfl (by simp only [List.length_cons, List.length_nil]; omega)
  -- With the offset 0 the text goes on with zeros.
  have hfirst : Agrees (put mem op [0#8,0#8,0#8,0#8]) (matchText c offset out) c.dst
      (if offset = 0 then op+4 else op) := by
    split_ifs with hzero
    · refine ((h.behind offset).put le_rfl ?_).mono
        (by simp only [List.length_cons, List.length_nil]; omega)
      intro k hk
      rw [matchText, hzero, trail_zero (by omega)]
      match k, hk with
      | 0, _ => rfl
      | 1, _ => rfl
      | 2, _ => rfl
      | 3, _ => rfl
    · intro a hlo hhi
      rw [put, dif_neg (by omega)]
      exact h.behind offset a hlo hhi
  have hper : Repeats (matchText c offset out) (op-offset) offset := by
    rw [hop]
    exact matchText_repeats hoff
  obtain ⟨m1, m, hcopy, hag, hkept, hlo, hhi, hstep⟩ := copyFirst_agrees (by omega) (by omega)
    (by omega) hfirst hper
  obtain ⟨herror, hdone⟩ := copyRest_agrees (s := m) (by omega) hlo (by omega) hroom
    (Nat.le_add_left 4 n) hstep hper hag
  have hall : Kept mem m1 op c.oend := hzeros.trans (hkept.mono le_rfl (by omega))
  have hturn (rest : Option Mem) (hrest : copyRest c m1 (op+8) m (n+MINMATCH) (op+(n+MINMATCH)) =
      some rest) : copyMatch c length offset ⟨ip,op,mem⟩ =
        some (rest.elim (.outputError ⟨ip',op+8,m1⟩)
          fun mem' => .again ⟨ip',op+(n+MINMATCH),mem'⟩) := by
    simp only [copyMatch, if_neg (show ¬op-offset < c.dst by omega), hwrite, hread,
      Option.bind_eq_bind, Option.bind_some, ne_eq, not_true_eq_false, if_false,
      if_neg (show ¬2^32 ≤ op+n by omega), hcopy, Nat.mod_eq_of_lt hwrap, hrest, Option.pure_def]
    cases rest <;> rfl
  constructor
  · intro hend
    exact ⟨_,hturn none (herror hend),h.kept.trans (hall.mono (by omega) le_rfl)⟩
  · intro hend
    obtain ⟨m2, hcopied, hag2, hkept2⟩ := hdone hend
    exact ⟨m2,hturn (some m2) hcopied,
      h.matched hoff hag2 le_rfl (by omega) (hall.trans hkept2)⟩

def MatchRead (c : Call) (before : Mem) (out : List Byte) (length offset ip : ℕ) : Turn → Prop
  | .again s => ∃ n, min 15 n = length ∧ offset ≤ out.length ∧
      c.source.drop ip = lengthBytes n ++ c.source.drop s.ip ∧ s.ip < c.iend ∧
      Written c before (backCopy offset (n+MINMATCH) out) s.op s.mem
  | .finished _ => False
  | .outputError s => Kept before s.mem c.dst c.oend

theorem readLE16_reads (ip : ℕ) (h : ip+2 ≤ c.iend) :
    ∃ offset, c.readLE16 ip = some offset ∧ offset < 2^16 ∧
      c.source.drop ip = offsetBytes offset ++ c.source.drop (ip+2) := by
  have hlo : ip < c.source.length := by unfold Call.iend at h; omega
  have hhi : ip+1 < c.source.length := by unfold Call.iend at h; omega
  have h0 := (c.source.get ⟨ip,hlo⟩).isLt
  have h1 := (c.source.get ⟨ip+1,hhi⟩).isLt
  refine ⟨(c.source.get ⟨ip,hlo⟩).toNat+2^8*(c.source.get ⟨ip+1,hhi⟩).toNat,?_,by omega,?_⟩
  · simp [Call.readLE16, List.getElem?_eq_getElem hlo, List.getElem?_eq_getElem hhi]
  · rw [drop_byte hlo, drop_byte hhi, offsetBytes, List.cons_append, List.cons_append,
      List.nil_append]
    congr 1
    · apply BitVec.eq_of_toNat_eq
      rw [BitVec.toNat_ofNat]
      omega
    · congr 1
      apply BitVec.eq_of_toNat_eq
      rw [BitVec.toNat_ofNat]
      omega

theorem copyLiterals_match (token length ip : ℕ) (h : Written c before out op mem)
    (hin : ip+length+8 ≤ c.iend) (hout : op+length+12 ≤ c.oend) :
    ∃ offset mem', copyLiterals c token length ⟨ip,op,mem⟩ =
        copyMatch c (token % 16) offset ⟨ip+length+2,op+length,mem'⟩ ∧ offset < 2^16 ∧
      c.source.drop (ip+length) = offsetBytes offset ++ c.source.drop (ip+length+2) ∧
      Written c before (out ++ (c.source.drop ip).take length) (op+length) mem' := by
  have hop := h.op_eq
  have hlimit : MFLIMIT = 12 := rfl
  have hlast : LASTLITERALS = 5 := rfl
  obtain ⟨offset, hread, hoff, hbytes⟩ := readLE16_reads (c := c) (ip+length) (by omega)
  obtain ⟨mem', hcopy, hag, hkept⟩ := wildCopy8_agrees (op+length+8) (c := c) (d := op)
    (s := ip) (e := op+length) (fun m k hk hag => copyIn_agrees hag (by omega) (by omega)
      (by omega) (by omega)) (h.ahead (c.source.drop ip)) (by omega) (by omega)
  refine ⟨offset,mem',?_,hoff,hbytes,h.literals (by omega) hag (by omega) (by omega)
    (hkept.mono le_rfl (by omega))⟩
  simp only [copyLiterals, Option.bind_eq_bind, Option.bind_some, hcopy, hread]
  rw [if_neg (by omega)]

theorem copyLiterals_last (token length ip : ℕ) (h : Written c before out op mem)
    (hin : ip+length = c.iend) (hout : op+length ≤ c.oend) :
    ∃ s, copyLiterals c token length ⟨ip,op,mem⟩ = some (.finished s) ∧
      Written c before (out ++ (c.source.drop ip).take length) s.op s.mem := by
  have hop := h.op_eq
  obtain ⟨mem', hcopy, hag, hkept⟩ := copyIn_agrees (c := c) (n := length)
    (h.ahead (c.source.drop ip)) (by omega) le_rfl (by omega) (by omega)
  refine ⟨⟨ip+length,op+length,mem'⟩,?_,h.literals (by omega) hag le_rfl hout
    (hkept.mono le_rfl (by omega))⟩
  simp only [copyLiterals, Option.bind_eq_bind, Option.bind_some, hcopy, Option.pure_def]
  rw [if_pos (by omega), if_neg (by omega)]

/-- The two copies without a look at the lengths. A match from nearby, or one of a greater
length, is copied as any other. -/
theorem shortcut_copies {token ip : ℕ} (h : Written c before out op mem) (htoken : token/16 < 15)
    (hin : ip+16 < c.iend) (hout : op+32 ≤ c.oend) :
    ∃ offset mem', offset < 2^16 ∧
      c.source.drop (ip+token/16) = offsetBytes offset ++ c.source.drop (ip+token/16+2) ∧
      Written c before (out ++ (c.source.drop ip).take (token/16)) (op+token/16) mem' ∧
      (shortcut c token ⟨ip,op,mem⟩ =
          copyMatch c (token % 16) offset ⟨ip+token/16+2,op+token/16,mem'⟩ ∨
        token % 16 ≠ 15 ∧ offset ≤ out.length+token/16 ∧ ∃ mem'',
          shortcut c token ⟨ip,op,mem⟩ = some (.again ⟨ip+token/16+2,
            op+token/16+(token % 16+MINMATCH),mem''⟩) ∧
          Written c before (backCopy offset (token % 16+MINMATCH)
            (out ++ (c.source.drop ip).take (token/16))) (op+token/16+(token % 16+MINMATCH))
            mem'') := by
  have hop := h.op_eq
  have hdst := c.dst_start
  have hiend : c.iend = c.source.length := rfl
  have hmask : ML_MASK = 15 := rfl
  have hmin : MINMATCH = 4 := rfl
  obtain ⟨mem', hcopy, hag, hkept⟩ := copyIn_agrees (c := c) (n := 16)
    (h.ahead (c.source.drop ip)) (by omega) le_rfl (by omega) (by omega)
  obtain ⟨offset, hread, hoff, hbytes⟩ := readLE16_reads (c := c) (ip+token/16) (by omega)
  have hlits := h.literals (n := token/16) (by omega) hag (by omega) (by omega)
    (hkept.mono le_rfl (by omega))
  have hlen : (out ++ (c.source.drop ip).take (token/16)).length = out.length+token/16 := by
    rw [List.length_append, List.length_take, List.length_drop]
    omega
  refine ⟨offset,mem',hoff,hbytes,hlits,?_⟩
  by_cases hfar : token % 16 ≠ ML_MASK ∧ 8 ≤ offset ∧ c.dst ≤ op+token/16-offset
  · have hper : Repeats (matchText c offset (out ++ (c.source.drop ip).take (token/16)))
        (op+token/16-offset) offset := by
      rw [show op+token/16 = c.dst+(out.length+token/16) by omega, ← hlen]
      exact matchText_repeats (by omega)
    have hstep (k n : ℕ) : ∀ i < n, matchText c offset (out ++ (c.source.drop ip).take (token/16))
        (op+token/16+k+i) = matchText c offset (out ++ (c.source.drop ip).take (token/16))
          (op+token/16-offset+k+i) := by
      intro i hi
      have := hper offset (Or.inr dvd_rfl) (op+token/16-offset+k+i) (by omega)
      rwa [show op+token/16-offset+k+i+offset = op+token/16+k+i by omega] at this
    obtain ⟨m1, h1, hag1, hk1⟩ := copyWithin_agrees (n := 8) (d := op+token/16)
      (s := op+token/16-offset) (hlits.behind offset) le_rfl (by omega) (by omega) (by omega)
      (by omega) (hstep 0 8)
    obtain ⟨m2, h2, hag2, hk2⟩ := copyWithin_agrees (n := 8) (d := op+token/16+8)
      (s := op+token/16-offset+8) hag1 (by omega) (by omega) (by omega) (by omega)
      (by omega) (hstep 8 8)
    obtain ⟨m3, h3, hag3, hk3⟩ := copyWithin_agrees (n := 2) (d := op+token/16+16)
      (s := op+token/16-offset+16) hag2 (by omega) (by omega) (by omega) (by omega)
      (by omega) (hstep 16 2)
    refine Or.inr ⟨hfar.1,by omega,m3,?_,hlits.matched (by omega) hag3 (by omega) (by omega)
      ((hk1.mono le_rfl (by omega)).trans ((hk2.mono (by omega) (by omega)).trans
        (hk3.mono (by omega) (by omega))))⟩
    simp only [shortcut, hcopy, hread, h1, h2, h3, if_pos hfar, Option.bind_eq_bind,
      Option.bind_some, Option.pure_def]
  · left
    simp only [shortcut, hcopy, hread, if_neg hfar, Option.bind_eq_bind, Option.bind_some]

end Pauline.Pack
