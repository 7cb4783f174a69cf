import Pauline.Library.Lz4Block

/-!
# The memory of the packer

Its functions write at the addresses of a buffer, often in steps of eight bytes and
beyond what they are asked for, and put the rest right with the next copy. An access
outside of a buffer has no result.
-/

set_option autoImplicit false

namespace Pauline.Pack
open Buffer Lz4Block

def WILDCOPYLENGTH : ℕ := 8
def MINMATCH : ℕ := 4
def LASTLITERALS : ℕ := 5
def MFLIMIT : ℕ := 12
def ML_MASK : ℕ := 15
def RUN_MASK : ℕ := 15

abbrev Mem := ℕ → Byte

/-- A call, with the addresses of its buffers. They stand above the first pages and
below the last ones. -/
structure Call where
  source : List Byte
  src : ℕ
  dst : ℕ
  outputSize : ℕ
  src_start : 2^16 ≤ src
  src_end : src+source.length+64 ≤ 2^32
  dst_start : 2^16 ≤ dst
  dst_end : dst+outputSize+64 ≤ 2^32
  apart : src+source.length ≤ dst ∨ dst+outputSize ≤ src

namespace Call
variable (c : Call)

def iend : ℕ := c.source.length
def oend : ℕ := c.dst+c.outputSize

/-! ## Memory -/

def writable (d n : ℕ) : Prop := c.dst ≤ d ∧ d+n ≤ c.oend

instance (d n : ℕ) : Decidable (c.writable d n) := inferInstanceAs (Decidable (_ ∧ _))

def write (mem : Mem) (d : ℕ) (bs : List Byte) : Option Mem :=
  if c.writable d bs.length then some (put mem d bs) else none

def copyIn (n : ℕ) (mem : Mem) (d ip : ℕ) : Option Mem :=
  if ip+n ≤ c.iend then c.write mem d ((c.source.drop ip).take n) else none

def readLE16 (ip : ℕ) : Option ℕ := do
  let lo ← c.source[ip]?
  let hi ← c.source[ip+1]?
  pure (lo.toNat+2^8*hi.toNat)

end Call

def wildCopy8 (memcpy : Mem → ℕ → ℕ → Option Mem) (mem : Mem) (d s e : ℕ) : Option Mem :=
  (memcpy mem d s).bind fun mem =>
    if _h : d+8 < e then wildCopy8 memcpy mem (d+8) (s+8) e else some mem
termination_by e-d

theorem drop_byte {c : Call} {ip : ℕ} (h : ip < c.source.length) :
    c.source.drop ip = c.source.get ⟨ip,h⟩ :: c.source.drop (ip+1) := by
  rw [List.get_eq_getElem, List.drop_eq_getElem_cons h]

/-! ## Copies -/

section Copies
variable {c : Call} {mem ref : Mem} {hi d s : ℕ}

theorem write_agrees (bs : List Byte) (hag : Agrees mem ref c.dst hi) (hd : d ≤ hi)
    (hlo : c.dst ≤ d) (hhi : d+bs.length ≤ c.oend)
    (hbs : ∀ k (hk : k < bs.length), bs.get ⟨k,hk⟩ = ref (d+k)) :
    ∃ mem', c.write mem d bs = some mem' ∧ Agrees mem' ref c.dst (max hi (d+bs.length)) ∧
      Kept mem mem' d (d+bs.length) :=
  ⟨put mem d bs,if_pos ⟨hlo,hhi⟩,hag.put hd hbs,Kept.put le_rfl le_rfl⟩

/-- A wild copy whose copies of eight bytes go on with a text. -/
theorem wildCopy8_agrees {memcpy : Mem → ℕ → ℕ → Option Mem} (lim : ℕ) {e : ℕ}
    (hstep : ∀ mem k, d+k+8 ≤ lim → Agrees mem ref c.dst (d+k) →
      ∃ mem', memcpy mem (d+k) (s+k) = some mem' ∧ Agrees mem' ref c.dst (d+k+8) ∧
        Kept mem mem' (d+k) (d+k+8))
    (hag : Agrees mem ref c.dst d) (hd : d+8 ≤ lim) (he : e+7 ≤ lim) :
    ∃ mem', wildCopy8 memcpy mem d s e = some mem' ∧ Agrees mem' ref c.dst (max e (d+8)) ∧
      Kept mem mem' d lim := by
  induction hn : e-d using Nat.strong_induction_on generalizing mem d s with
  | _ n ih =>
    obtain ⟨mem', hcopy, hag', hkept⟩ := hstep mem 0 hd hag
    simp only [Nat.add_zero] at hcopy hag' hkept
    rw [wildCopy8, hcopy, Option.bind_some]
    by_cases hmore : d+8 < e
    · rw [dif_pos hmore]
      have hnext : ∀ m k, d+8+k+8 ≤ lim → Agrees m ref c.dst (d+8+k) →
          ∃ m', memcpy m (d+8+k) (s+8+k) = some m' ∧ Agrees m' ref c.dst (d+8+k+8) ∧
            Kept m m' (d+8+k) (d+8+k+8) := by
        intro m k
        rw [Nat.add_assoc d, Nat.add_assoc s]
        exact hstep m (8+k)
      obtain ⟨mem'', hrest, hag'', hkept''⟩ := ih (e-(d+8)) (by omega) hnext hag' (by omega) rfl
      have hfirst : Kept mem mem' d lim := hkept.mono le_rfl (by omega)
      exact ⟨mem'',hrest,hag''.mono (by omega),hfirst.trans (hkept''.mono (by omega) le_rfl)⟩
    · rw [dif_neg hmore]
      exact ⟨mem',rfl,hag'.mono (by omega),hkept.mono le_rfl (by omega)⟩

end Copies

/-! ## What has been put out -/

def textAt (c : Call) (out : List Byte) : Mem := fun a => out.getD (a-c.dst) 0#8

structure Written (c : Call) (before : Mem) (out : List Byte) (op : ℕ) (mem : Mem) : Prop where
  op_eq : op = c.dst+out.length
  room : out.length ≤ c.outputSize
  text : Agrees mem (textAt c out) c.dst op
  kept : Kept before mem c.dst c.oend

variable {c : Call} {before mem : Mem} {out : List Byte} {op : ℕ}

theorem written_start (c : Call) (mem : Mem) : Written c mem [] c.dst mem :=
  ⟨rfl,Nat.zero_le _,fun _ hlo hhi => absurd hhi (Nat.not_lt.mpr hlo),Kept.refl _ _ _⟩

theorem Written.oend (h : Written c before out op mem) : op ≤ c.oend := by
  rw [h.op_eq]
  exact Nat.add_le_add_left h.room c.dst

theorem Written.slice (h : Written c before out op mem) : slice mem c.dst out.length = out := by
  rw [h.text.slice h.op_eq.ge]
  apply List.ext_getElem
  · simp
  · intro i _ hi
    simp [textAt, hi]

/-! ## Literals -/

theorem textAt_old {more : List Byte} {a : ℕ} (ha : a < c.dst+out.length) (hlo : c.dst ≤ a) :
    textAt c (out ++ more) a = textAt c out a := by
  simp only [textAt, List.getD_eq_getElem?_getD]
  rw [List.getElem?_append_left (by omega)]

theorem textAt_new {more : List Byte} {k : ℕ} :
    textAt c (out ++ more) (c.dst+out.length+k) = more.getD k 0#8 := by
  simp only [textAt, List.getD_eq_getElem?_getD]
  rw [List.getElem?_append_right (by omega)]
  congr 2
  omega

theorem Written.ahead (h : Written c before out op mem) (more : List Byte) :
    Agrees mem (textAt c (out ++ more)) c.dst op := by
  intro a hlo hhi
  rw [textAt_old (h.op_eq ▸ hhi) hlo]
  exact h.text a hlo hhi

/-- A copy from the source goes on with its bytes. -/
theorem copyIn_agrees {ip d n start : ℕ}
    (hag : Agrees mem (textAt c (out ++ c.source.drop start)) c.dst d)
    (hd : d = c.dst+out.length+(ip-start)) (hip : start ≤ ip) (hsrc : ip+n ≤ c.iend)
    (hend : d+n ≤ c.oend) :
    ∃ mem', c.copyIn n mem d ip = some mem' ∧
      Agrees mem' (textAt c (out ++ c.source.drop start)) c.dst (d+n) ∧ Kept mem mem' d (d+n) := by
  have hiend : c.iend = c.source.length := rfl
  have hlen : ((c.source.drop ip).take n).length = n := by
    rw [List.length_take, List.length_drop]
    omega
  obtain ⟨mem', hwrite, hag', hkept⟩ := write_agrees ((c.source.drop ip).take n) hag le_rfl
    (by omega) (by omega) (by
      intro k hk
      rw [hlen] at hk
      rw [show d+k = c.dst+out.length+(ip-start+k) by omega, textAt_new]
      simp only [List.get_eq_getElem, List.getElem_take, List.getElem_drop,
        List.getD_eq_getElem?_getD, List.getElem?_drop]
      rw [show start+(ip-start+k) = ip+k by omega, List.getElem?_eq_getElem (by omega)]
      rfl)
  rw [hlen] at hag' hkept
  exact ⟨mem',(if_pos hsrc).trans hwrite,hag'.mono (by omega),hkept⟩

/-- Literals, wherever the copy of them ends. -/
theorem Written.literals {mem' : Mem} {ip n d : ℕ} (h : Written c before out op mem)
    (hsrc : ip+n ≤ c.iend) (hag : Agrees mem' (textAt c (out ++ c.source.drop ip)) c.dst d)
    (hd : op+n ≤ d) (hend : op+n ≤ c.oend) (hkept : Kept mem mem' op c.oend) :
    Written c before (out ++ (c.source.drop ip).take n) (op+n) mem' := by
  have hlen : ((c.source.drop ip).take n).length = n := by
    rw [List.length_take, List.length_drop]
    unfold Call.iend at hsrc
    omega
  have hop := h.op_eq
  unfold Call.oend at hend
  refine ⟨?_,?_,?_,h.kept.trans (hkept.mono (by omega) le_rfl)⟩
  · rw [List.length_append, hlen]
    omega
  · rw [List.length_append, hlen]
    omega
  · intro a hlo hhi
    rw [hag a hlo (by omega)]
    simp only [textAt, List.getD_eq_getElem?_getD]
    by_cases hlt : a-c.dst < out.length
    · rw [List.getElem?_append_left hlt, List.getElem?_append_left hlt]
    · rw [List.getElem?_append_right (by omega), List.getElem?_append_right (by omega),
        List.getElem?_take, if_pos (by omega)]

end Pauline.Pack
