import Pauline.Pack.Memory

/-!
# Unpacking

`LZ4_decompress_safe` as it is compiled for the board, without the fast loop. It
copies eight bytes at a time, often beyond what it is asked for, and puts the rest
right with the next copy. An access outside of a buffer has no result.
-/

set_option autoImplicit false

namespace Pauline.Pack
open Buffer Lz4Block

def MATCH_SAFEGUARD_DISTANCE : ℕ := 2*WILDCOPYLENGTH-MINMATCH

/-! ## Memory -/

namespace Call
variable (c : Call)

def copyWithin (n : ℕ) (mem : Mem) (d s : ℕ) : Option Mem :=
  if c.writable s n ∧ (s+n ≤ d ∨ d+n ≤ s) then c.write mem d (slice mem s n) else none

def copyByte (mem : Mem) (d s : ℕ) : Option Mem :=
  if c.writable s 1 then c.write mem d [mem s] else none

end Call

def copyBytes (c : Call) (mem : Mem) (op matchPtr cpy : ℕ) : Option Mem :=
  if _h : op < cpy then
    (c.copyByte mem op matchPtr).bind fun mem => copyBytes c mem (op+1) (matchPtr+1) cpy
  else some mem
termination_by cpy-op

/-! ## Lengths -/

inductive VariableLengthError where
  | loop_error
  | initial_error
  | ok
  deriving DecidableEq

def variableLengthLoop (c : Call) (before ip length : ℕ) :
    Option (ℕ × ℕ × VariableLengthError) :=
  if h : ip < c.source.length then
    let s := c.source.get ⟨ip,h⟩
    let length := (length+s.toNat) % 2^32
    if c.iend ≤ ip+1+before then some (length,ip+1,.loop_error)
    else if s = 255#8 then variableLengthLoop c before (ip+1) length
    else some (length,ip+1,.ok)
  else none
termination_by c.source.length-ip

def readVariableLength (c : Call) (before : ℕ) (initial_check : Bool) (ip : ℕ) :
    Option (ℕ × ℕ × VariableLengthError) :=
  if initial_check ∧ c.iend ≤ ip+before then some (0,ip,.initial_error)
  else variableLengthLoop c before ip 0

/-! ## The copy of a match -/

def inc32table (offset : ℕ) : ℕ := [0,1,2,1,0,4,4,4].getD offset 0

def dec64table (offset : ℕ) : ℤ := [0,0,0,-1,-4,1,2,3].getD offset 0

/-- The first eight bytes, and where the others come from. From there they can be
copied eight at a time. -/
def copyFirst (c : Call) (mem : Mem) (op matchPtr offset : ℕ) : Option (Mem × ℕ) :=
  if offset < 8 then do
    let mem ← c.copyByte mem op matchPtr
    let mem ← c.copyByte mem (op+1) (matchPtr+1)
    let mem ← c.copyByte mem (op+2) (matchPtr+2)
    let mem ← c.copyByte mem (op+3) (matchPtr+3)
    let matchPtr := matchPtr+inc32table offset
    let mem ← c.copyWithin 4 mem (op+4) matchPtr
    pure (mem,(matchPtr-dec64table offset).toNat)
  else do
    let mem ← c.copyWithin 8 mem op matchPtr
    pure (mem,matchPtr+8)

def copyRest (c : Call) (mem : Mem) (op matchPtr length cpy : ℕ) : Option (Option Mem) :=
  if c.oend < cpy+MATCH_SAFEGUARD_DISTANCE then
    let oCopyLimit := c.oend-(WILDCOPYLENGTH-1)
    if c.oend < cpy+LASTLITERALS then some none
    else if op < oCopyLimit then do
      let mem ← wildCopy8 (c.copyWithin 8) mem op matchPtr oCopyLimit
      let mem ← copyBytes c mem oCopyLimit (matchPtr+(oCopyLimit-op)) cpy
      pure (some mem)
    else do
      let mem ← copyBytes c mem op matchPtr cpy
      pure (some mem)
  else do
    let mem ← c.copyWithin 8 mem op matchPtr
    if 16 < length then do
      let mem ← wildCopy8 (c.copyWithin 8) mem (op+8) (matchPtr+8) cpy
      pure (some mem)
    else pure (some mem)

/-! ## The main loop -/

structure Decoder where
  ip : ℕ
  op : ℕ
  mem : Mem

inductive Turn where
  | again (s : Decoder)
  | finished (s : Decoder)
  | outputError (s : Decoder)

def readMatchLength (c : Call) (length ip : ℕ) : Option (ℕ × ℕ × VariableLengthError) :=
  if length = ML_MASK then do
    let (more,ip,error) ← readVariableLength c (LASTLITERALS-1) false ip
    pure ((length+more) % 2^32,ip,error)
  else some (length,ip,.ok)

def copyMatch (c : Call) (length offset : ℕ) (s : Decoder) : Option Turn :=
  if s.op-offset < c.dst then some (.outputError s)
  else do
    let mem ← c.write s.mem s.op [0#8,0#8,0#8,0#8]
    let (length,ip,error) ← readMatchLength c length s.ip
    if error ≠ .ok then pure (.outputError ⟨ip,s.op,mem⟩)
    else if 2^32 ≤ s.op+length then pure (.outputError ⟨ip,s.op,mem⟩)
    else
      let length := length+MINMATCH
      let cpy := (s.op+length) % 2^32
      let (mem,matchPtr) ← copyFirst c mem s.op (s.op-offset) offset
      let rest ← copyRest c mem (s.op+8) matchPtr length cpy
      match rest with
      | none => pure (.outputError ⟨ip,s.op+8,mem⟩)
      | some mem => pure (.again ⟨ip,cpy,mem⟩)

def shortcut (c : Call) (token : ℕ) (s : Decoder) : Option Turn := do
  let mem ← c.copyIn 16 s.mem s.op s.ip
  let op := s.op+token/16
  let ip := s.ip+token/16
  let length := token % 16
  let offset ← c.readLE16 ip
  let ip := ip+2
  if length ≠ ML_MASK ∧ 8 ≤ offset ∧ c.dst ≤ op-offset then do
    let mem ← c.copyWithin 8 mem op (op-offset)
    let mem ← c.copyWithin 8 mem (op+8) (op-offset+8)
    let mem ← c.copyWithin 2 mem (op+16) (op-offset+16)
    pure (.again ⟨ip,op+(length+MINMATCH),mem⟩)
  else copyMatch c length offset ⟨ip,op,mem⟩

def copyLiterals (c : Call) (token length : ℕ) (s : Decoder) : Option Turn :=
  let cpy := s.op+length
  if c.oend < cpy+MFLIMIT ∨ c.iend < s.ip+length+(2+1+LASTLITERALS) then
    if s.ip+length ≠ c.iend ∨ c.oend < cpy then some (.outputError s)
    else do
      let mem ← c.copyIn length s.mem s.op s.ip
      pure (.finished ⟨s.ip+length,cpy,mem⟩)
  else do
    let mem ← wildCopy8 (c.copyIn 8) s.mem s.op s.ip cpy
    let ip := s.ip+length
    let offset ← c.readLE16 ip
    copyMatch c (token % 16) offset ⟨ip+2,cpy,mem⟩

/-- A turn of the main loop. The end of the input found while a length of literals is
read is not an error yet. -/
def decodeTurn (c : Call) (s : Decoder) : Option Turn := do
  let token ← c.source[s.ip]?
  let token := token.toNat
  let s := { s with ip := s.ip+1 }
  if token/16 ≠ RUN_MASK ∧ s.ip+16 < c.iend ∧ s.op+32 ≤ c.oend then shortcut c token s
  else if token/16 = RUN_MASK then do
    let (more,ip,error) ← readVariableLength c RUN_MASK true s.ip
    let length := (token/16+more) % 2^32
    if error = .initial_error ∨ 2^32 ≤ s.op+length ∨ 2^32 ≤ c.src+ip+length then
      pure (.outputError { s with ip := ip })
    else copyLiterals c token length { s with ip := ip }
  else copyLiterals c token (token/16) s

/-! ## Every turn takes input -/

theorem variableLengthLoop_advances {c : Call} {before ip length more ip' : ℕ}
    {error : VariableLengthError}
    (h : variableLengthLoop c before ip length = some (more,ip',error)) : ip < ip' := by
  fun_induction variableLengthLoop c before ip length with
  | case1 ip length hlt s length' hend =>
    simp only [Option.some.injEq, Prod.mk.injEq] at h
    omega
  | case2 ip length hlt s length' hend hs ih =>
    have := ih h
    omega
  | case3 ip length hlt s length' hend hs =>
    simp only [Option.some.injEq, Prod.mk.injEq] at h
    omega
  | case4 ip length hlt => cases h

theorem readVariableLength_advances {c : Call} {before ip more ip' : ℕ} {initial_check : Bool}
    {error : VariableLengthError}
    (h : readVariableLength c before initial_check ip = some (more,ip',error)) : ip ≤ ip' := by
  unfold readVariableLength at h
  split_ifs at h with hcheck
  · cases h
    exact le_rfl
  · exact (variableLengthLoop_advances h).le

theorem readMatchLength_advances {c : Call} {length ip length' ip' : ℕ}
    {error : VariableLengthError} (h : readMatchLength c length ip = some (length',ip',error)) :
    ip ≤ ip' := by
  unfold readMatchLength at h
  split_ifs at h
  · simp only [Option.bind_eq_bind, Option.bind_eq_some_iff, Prod.exists] at h
    obtain ⟨more, ip'', error, hread, h⟩ := h
    cases h
    exact readVariableLength_advances hread
  · cases h
    exact le_rfl

theorem copyMatch_advances {c : Call} {length offset : ℕ} {s s' : Decoder}
    (h : copyMatch c length offset s = some (.again s')) : s.ip ≤ s'.ip := by
  unfold copyMatch at h
  split_ifs at h
  · cases h
  · simp only [Option.bind_eq_bind, Option.bind_eq_some_iff, Prod.exists] at h
    obtain ⟨mem, -, length', ip, error, hread, h⟩ := h
    have hip := readMatchLength_advances hread
    split_ifs at h
    · cases h
    · cases h
    · simp only [Option.bind_eq_some_iff] at h
      obtain ⟨⟨mem, matchPtr⟩, -, rest, -, h⟩ := h
      cases rest with
      | none => cases h
      | some mem =>
        cases h
        exact hip

theorem shortcut_advances {c : Call} {token : ℕ} {s s' : Decoder}
    (h : shortcut c token s = some (.again s')) : s.ip ≤ s'.ip := by
  simp only [shortcut, Option.bind_eq_bind, Option.bind_eq_some_iff] at h
  obtain ⟨mem, -, offset, -, h⟩ := h
  split_ifs at h
  · simp only [Option.bind_eq_some_iff] at h
    obtain ⟨mem, -, mem, -, mem, -, h⟩ := h
    cases h
    exact (Nat.le_add_right _ _).trans (Nat.le_add_right _ _)
  · have := copyMatch_advances h
    simp only at this
    omega

theorem copyLiterals_advances {c : Call} {token length : ℕ} {s s' : Decoder}
    (h : copyLiterals c token length s = some (.again s')) : s.ip ≤ s'.ip := by
  simp only [copyLiterals, Option.bind_eq_bind] at h
  split_ifs at h
  · cases h
  · simp only [Option.bind_eq_some_iff] at h
    obtain ⟨mem, -, h⟩ := h
    cases h
  · simp only [Option.bind_eq_some_iff] at h
    obtain ⟨mem, -, offset, -, h⟩ := h
    have := copyMatch_advances h
    simp only at this
    omega

theorem decodeTurn_advances {c : Call} {s s' : Decoder} (h : decodeTurn c s = some (.again s')) :
    s.ip < c.source.length ∧ s.ip < s'.ip := by
  simp only [decodeTurn, Option.bind_eq_bind, Option.bind_eq_some_iff] at h
  obtain ⟨token, htoken, h⟩ := h
  refine ⟨(List.getElem?_eq_some_iff.mp htoken).1,?_⟩
  split_ifs at h
  · exact shortcut_advances h
  · simp only [Option.bind_eq_some_iff, Prod.exists] at h
    obtain ⟨more, ip, error, hread, h⟩ := h
    have hip := readVariableLength_advances hread
    split_ifs at h
    · cases h
    · have := copyLiterals_advances h
      simp only at this hip
      omega
  · exact copyLiterals_advances h

/-! ## The function -/

def decodeLoop (c : Call) (s : Decoder) : Option (ℤ × Mem) :=
  match _h : decodeTurn c s with
  | none => none
  | some (.again s') => decodeLoop c s'
  | some (.finished s') => some ((s'.op : ℤ)-c.dst,s'.mem)
  | some (.outputError s') => some (-(s'.ip : ℤ)-1,s'.mem)
termination_by c.source.length-s.ip
decreasing_by
  have := decodeTurn_advances _h
  omega

def lz4DecompressSafe (c : Call) (mem : Mem) : Option (ℤ × Mem) :=
  if c.outputSize = 0 then
    some (if c.source = [0#8] then 0 else -1,mem)
  else if c.source.length = 0 then some (-1,mem)
  else decodeLoop c ⟨0,c.dst,mem⟩

end Pauline.Pack
