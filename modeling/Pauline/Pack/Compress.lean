import Pauline.Pack.Memory
import Pauline.Dump.ChunkBlock
import Mathlib.NumberTheory.Padics.PadicVal.Defs

/-!
# Packing

`LZ4_compress_default` for a buffer of the size `LZ4_compressBound` asks for, as it is
compiled for the board. A table keeps where four bytes with a hash have been seen last.
Two words of one hash need not be the same, so every match is looked at.
-/

set_option autoImplicit false

namespace Pauline.Pack
open Buffer Lz4Block
open Pauline.ChunkBlock (LZ4_MAX_INPUT_SIZE)
open Pauline.DumpChunk (LZ4_compressBound)

def LZ4_minLength : ℕ := MFLIMIT+1
def LZ4_64Klimit : ℕ := 2^16+(MFLIMIT-1)
def LZ4_DISTANCE_MAX : ℕ := 65535
def LZ4_skipTrigger : ℕ := 6
def LZ4_HASHLOG : ℕ := 12

/-! ## The table -/

inductive TableType where
  | byPtr
  | byU32
  | byU16
  deriving DecidableEq

def TableType.hashLog : TableType → ℕ
  | .byU16 => LZ4_HASHLOG+1
  | _ => LZ4_HASHLOG

abbrev HashTable (t : TableType) := Fin (2^t.hashLog) → ℕ

def hash4 (t : TableType) (sequence : ℕ) : Fin (2^t.hashLog) :=
  ⟨sequence*2654435761 % 2^32/2^(MINMATCH*8-t.hashLog),by
    have hlt : sequence*2654435761 % 2^32 < 2^32 := Nat.mod_lt _ (by decide)
    cases t <;> exact Nat.div_lt_of_lt_mul hlt⟩

def Call.read32 (c : Call) (ip : ℕ) : Option ℕ :=
  if ip+4 ≤ c.iend then some (get32 (c.source.drop ip)) else none

def Call.read32At (c : Call) (a : ℕ) : Option ℕ := if c.src ≤ a then c.read32 (a-c.src) else none

def hashPosition (c : Call) (t : TableType) (p : ℕ) : Option (Fin (2^t.hashLog)) :=
  (c.read32 p).map (hash4 t)

def entryOf (c : Call) : TableType → ℕ → ℕ
  | .byPtr, p => c.src+p
  | .byU32, p => p % 2^32
  | .byU16, p => p % 2^16

def addressOf (c : Call) : TableType → ℕ → ℕ
  | .byPtr, e => e
  | .byU32, e => e+c.src
  | .byU16, e => e+c.src

def putPositionOnHash (c : Call) {t : TableType} (table : HashTable t) (h : Fin (2^t.hashLog))
    (p : ℕ) : HashTable t := Function.update table h (entryOf c t p)

def getPositionOnHash (c : Call) {t : TableType} (table : HashTable t) (h : Fin (2^t.hashLog)) :
    ℕ := addressOf c t (table h)

def tooFar (c : Call) (t : TableType) (matchPtr ip : ℕ) : Prop :=
  t ≠ .byU16 ∧ matchPtr+LZ4_DISTANCE_MAX < c.src+ip

instance (c : Call) (t : TableType) (matchPtr ip : ℕ) : Decidable (tooFar c t matchPtr ip) :=
  inferInstanceAs (Decidable (_ ∧ _))

/-! ## Common bytes -/

def nbCommonBytes (val : ℕ) : ℕ := padicValNat 2 val/8

def countTail (c : Call) (pIn pMatch pInLimit : ℕ) : Option ℕ := do
  let (pIn,pMatch) ←
    if pIn+1 < pInLimit then do
      let m ← c.readLE16 pMatch
      let r ← c.readLE16 pIn
      pure (if m = r then (pIn+2,pMatch+2) else (pIn,pMatch))
    else pure (pIn,pMatch)
  if pIn < pInLimit then do
    let m ← c.source[pMatch]?
    let r ← c.source[pIn]?
    pure (if m = r then pIn+1 else pIn)
  else pure pIn

def countLoop (c : Call) (pIn pMatch pInLimit : ℕ) : Option ℕ :=
  if _h : pIn+3 < pInLimit then
    (c.read32 pMatch).bind fun m => (c.read32 pIn).bind fun r =>
      if m ^^^ r = 0 then countLoop c (pIn+4) (pMatch+4) pInLimit
      else some (pIn+nbCommonBytes (m ^^^ r))
  else countTail c pIn pMatch pInLimit
termination_by pInLimit-pIn

def count (c : Call) (pIn pMatch pInLimit : ℕ) : Option ℕ :=
  (countLoop c pIn pMatch pInLimit).map fun e => e-pIn

/-! ## The search for a match -/

structure Search where
  forwardIp : ℕ
  step : ℕ
  searchMatchNb : ℕ
  step_pos : 0 < step
  trigger : 2^LZ4_skipTrigger ≤ searchMatchNb

def Search.next (s : Search) : Search where
  forwardIp := s.forwardIp+s.step
  step := s.searchMatchNb/2^LZ4_skipTrigger
  searchMatchNb := s.searchMatchNb+1
  step_pos := Nat.div_pos s.trigger (by decide)
  trigger := s.trigger.trans (Nat.le_succ _)

def Search.start (ip : ℕ) : Search := ⟨ip,1,2^LZ4_skipTrigger,by decide,le_rfl⟩

def sameAt (c : Call) (t : TableType) (matchPtr ip : ℕ) : Option Bool :=
  if tooFar c t matchPtr ip then some false
  else do
    let m ← c.read32At matchPtr
    let r ← c.read32 ip
    pure (decide (m = r))

def Call.mflimitPlusOne (c : Call) : ℕ := c.iend-MFLIMIT+1

def search (c : Call) {t : TableType} (table : HashTable t) (s : Search)
    (forwardH : Fin (2^t.hashLog)) : Option (Option (ℕ × ℕ × HashTable t)) :=
  if _h : c.mflimitPlusOne < s.next.forwardIp then some none
  else
    let matchPtr := getPositionOnHash c table forwardH
    (hashPosition c t s.next.forwardIp).bind fun nextH =>
      let table := putPositionOnHash c table forwardH s.forwardIp
      (sameAt c t matchPtr s.forwardIp).bind fun found =>
        if found then some (some (s.forwardIp,matchPtr-c.src,table))
        else search c table s.next nextH
termination_by c.mflimitPlusOne+1-s.forwardIp
decreasing_by
  all_goals
    have hpos := s.step_pos
    simp only [Search.next] at _h ⊢
    omega

def catchUp (c : Call) (anchor ip m : ℕ) : Option (ℕ × ℕ) :=
  if _h : anchor < ip ∧ 0 < m then
    (c.source[ip-1]?).bind fun a => (c.source[m-1]?).bind fun b =>
      if a = b then catchUp c anchor (ip-1) (m-1) else some (ip,m)
  else some (ip,m)
termination_by ip

/-! ## What is written -/

def writeLength (c : Call) (mem : Mem) (op len : ℕ) : Option (Mem × ℕ) :=
  if _h : 255 ≤ len then
    (c.write mem op [255#8]).bind fun mem => writeLength c mem (op+1) (len-255)
  else (c.write mem op [BitVec.ofNat 8 len]).map fun mem => (mem,op+1)
termination_by len

def writeToken (c : Call) (mem : Mem) (token litLength : ℕ) : Option (Mem × ℕ) :=
  if RUN_MASK ≤ litLength then do
    let mem ← c.write mem token [BitVec.ofNat 8 (RUN_MASK*2^4)]
    writeLength c mem (token+1) (litLength-RUN_MASK)
  else do
    let mem ← c.write mem token [BitVec.ofNat 8 (litLength*2^4)]
    pure (mem,token+1)

def encodeLiterals (c : Call) (mem : Mem) (token anchor ip : ℕ) : Option (Mem × ℕ) := do
  let litLength := ip-anchor
  let (mem,op) ← writeToken c mem token litLength
  let mem ← wildCopy8 (c.copyIn 8) mem op anchor (op+litLength)
  pure (mem,op+litLength)

def matchCodeLoop (c : Call) (mem : Mem) (op matchCode : ℕ) : Option (Mem × ℕ) :=
  if _h : 4*255 ≤ matchCode then
    (c.write mem (op+4) (List.replicate 4 255#8)).bind fun mem =>
      matchCodeLoop c mem (op+4) (matchCode-4*255)
  else (c.write mem (op+matchCode/255) [BitVec.ofNat 8 (matchCode % 255)]).map fun mem =>
    (mem,op+matchCode/255+1)
termination_by matchCode

def writeMatchCode (c : Call) (mem : Mem) (token op matchCode : ℕ) : Option (Mem × ℕ) :=
  if ML_MASK ≤ matchCode then do
    let mem ← c.write mem token [mem token+BitVec.ofNat 8 ML_MASK]
    let mem ← c.write mem op (List.replicate 4 255#8)
    matchCodeLoop c mem op (matchCode-ML_MASK)
  else do
    let mem ← c.write mem token [mem token+BitVec.ofNat 8 matchCode]
    pure (mem,op)

def encodeMatch (c : Call) (mem : Mem) (token op ip m : ℕ) : Option (Mem × ℕ × ℕ) := do
  let mem ← c.write mem op (offsetBytes (ip-m))
  let matchCode ← count c (ip+MINMATCH) (m+MINMATCH) (c.iend-LASTLITERALS)
  let (mem,op) ← writeMatchCode c mem token (op+2) matchCode
  pure (mem,op,ip+(matchCode+MINMATCH))

/-! ## The main loop -/

/-- A turn begins with the search from the byte after the anchor, or with a match that
has been found at the anchor. -/
inductive Place (t : TableType) where
  | search (forwardH : Fin (2^t.hashLog))
  | nextMatch (m : ℕ)

structure Encoder (t : TableType) where
  anchor : ℕ
  op : ℕ
  mem : Mem
  table : HashTable t
  place : Place t

inductive Step (t : TableType) where
  | again (s : Encoder t)
  | lastLiterals (anchor op : ℕ) (mem : Mem)

def afterMatch (c : Call) {t : TableType} (table : HashTable t) (mem : Mem) (op ip : ℕ) :
    Option (Step t) :=
  if c.mflimitPlusOne ≤ ip then some (.lastLiterals ip op mem)
  else do
    let h ← hashPosition c t (ip-2)
    let table := putPositionOnHash c table h (ip-2)
    let h ← hashPosition c t ip
    let matchPtr := getPositionOnHash c table h
    let table := putPositionOnHash c table h ip
    let found ← sameAt c t matchPtr ip
    if found then pure (.again ⟨ip,op,mem,table,.nextMatch (matchPtr-c.src)⟩)
    else do
      let forwardH ← hashPosition c t (ip+1)
      pure (.again ⟨ip,op,mem,table,.search forwardH⟩)

def encodeTurn (c : Call) {t : TableType} (s : Encoder t) : Option (Step t) :=
  match s.place with
  | .search forwardH => do
    match ← search c s.table (Search.start (s.anchor+1)) forwardH with
    | none => pure (.lastLiterals s.anchor s.op s.mem)
    | some (ip,m,table) =>
      let (ip,m) ← catchUp c s.anchor ip m
      let (mem,op) ← encodeLiterals c s.mem s.op s.anchor ip
      let (mem,op,ip) ← encodeMatch c mem s.op op ip m
      afterMatch c table mem op ip
  | .nextMatch m => do
    let mem ← c.write s.mem s.op [0#8]
    let (mem,op,ip) ← encodeMatch c mem s.op (s.op+1) s.anchor m
    afterMatch c s.table mem op ip

def lastLiterals (c : Call) (mem : Mem) (anchor op : ℕ) : Option (ℤ × Mem) := do
  let lastRun := c.iend-anchor
  let (mem,op) ← writeToken c mem op lastRun
  let mem ← c.copyIn lastRun mem op anchor
  pure (((op+lastRun : ℕ) : ℤ)-c.dst,mem)

/-! ## Every turn takes input -/

theorem search_forward {c : Call} {t : TableType} {table table' : HashTable t} {s : Search}
    {h : Fin (2^t.hashLog)} {ip m : ℕ} (hfound : search c table s h = some (some (ip,m,table'))) :
    s.forwardIp ≤ ip := by
  fun_induction search c table s h with
  | case1 table s h hend => cases hfound
  | case2 table s h hend matchPtr ih =>
    obtain ⟨nextH, -, hrest⟩ := Option.bind_eq_some_iff.mp hfound
    have hnext : s.forwardIp ≤ s.next.forwardIp := Nat.le_add_right _ _
    obtain ⟨found, -, hrest⟩ := Option.bind_eq_some_iff.mp hrest
    split_ifs at hrest with hsame
    · cases hrest
      exact le_rfl
    · exact hnext.trans (ih nextH hrest)

theorem catchUp_anchor {c : Call} {anchor ip m ip' m' : ℕ} (hle : anchor ≤ ip)
    (hcatch : catchUp c anchor ip m = some (ip',m')) : anchor ≤ ip' := by
  fun_induction catchUp c anchor ip m with
  | case1 ip m h ih =>
    obtain ⟨a, -, hrest⟩ := Option.bind_eq_some_iff.mp hcatch
    obtain ⟨b, -, hrest⟩ := Option.bind_eq_some_iff.mp hrest
    split_ifs at hrest with hsame
    · exact ih (by omega) hrest
    · cases hrest
      exact hle
  | case2 ip m h =>
    cases hcatch
    exact hle

theorem encodeMatch_advances {c : Call} {mem mem' : Mem} {token op ip m op' ip' : ℕ}
    (h : encodeMatch c mem token op ip m = some (mem',op',ip')) : ip < ip' := by
  simp only [encodeMatch, Option.bind_eq_bind, Option.bind_eq_some_iff, Prod.exists] at h
  obtain ⟨mem, -, matchCode, -, mem, op, -, h⟩ := h
  cases h
  exact Nat.lt_add_of_pos_right (Nat.succ_pos _)

theorem afterMatch_again {c : Call} {t : TableType} {table : HashTable t} {mem : Mem} {op ip : ℕ}
    {s : Encoder t} (h : afterMatch c table mem op ip = some (.again s)) :
    s.anchor = ip ∧ ip < c.mflimitPlusOne := by
  unfold afterMatch at h
  split_ifs at h with hend
  · cases h
  · simp only [Option.bind_eq_bind, Option.bind_eq_some_iff] at h
    obtain ⟨h0, -, h1, -, found, -, h⟩ := h
    split_ifs at h
    · cases h
      exact ⟨rfl,not_le.mp hend⟩
    · obtain ⟨forwardH, -, h⟩ := Option.bind_eq_some_iff.mp h
      cases h
      exact ⟨rfl,not_le.mp hend⟩

theorem encodeTurn_advances {c : Call} {t : TableType} {s s' : Encoder t}
    (h : encodeTurn c s = some (.again s')) : s.anchor < s'.anchor ∧ s'.anchor < c.mflimitPlusOne := by
  unfold encodeTurn at h
  split at h
  · simp only [Option.bind_eq_bind, Option.bind_eq_some_iff] at h
    obtain ⟨found, hsearch, h⟩ := h
    cases found with
    | none => cases h
    | some found =>
      obtain ⟨ip, m, table⟩ := found
      simp only [Option.bind_eq_some_iff, Prod.exists] at h
      obtain ⟨ip1, m1, hcatch, mem1, op1, -, mem2, op2, ip2, hmatch, h⟩ := h
      have hforward : s.anchor+1 ≤ ip := search_forward hsearch
      have hanchor := catchUp_anchor (by omega) hcatch
      have hadv := encodeMatch_advances hmatch
      have hagain := afterMatch_again h
      omega
  · simp only [Option.bind_eq_bind, Option.bind_eq_some_iff, Prod.exists] at h
    obtain ⟨mem1, -, mem2, op2, ip2, hmatch, h⟩ := h
    have hadv := encodeMatch_advances hmatch
    have hagain := afterMatch_again h
    omega

/-! ## The function -/

def encodeLoop (c : Call) {t : TableType} (s : Encoder t) : Option (ℤ × Mem) :=
  match _h : encodeTurn c s with
  | none => none
  | some (.again s') => encodeLoop c s'
  | some (.lastLiterals anchor op mem) => lastLiterals c mem anchor op
termination_by c.mflimitPlusOne-s.anchor
decreasing_by
  have := encodeTurn_advances _h
  omega

def compressGeneric (c : Call) (t : TableType) (mem : Mem) : Option (ℤ × Mem) :=
  if LZ4_MAX_INPUT_SIZE < c.source.length then some (0,mem)
  else if t = .byU16 ∧ LZ4_64Klimit ≤ c.source.length then some (0,mem)
  else if c.source.length < LZ4_minLength then lastLiterals c mem 0 c.dst
  else do
    let h ← hashPosition c t 0
    let table := putPositionOnHash c (fun _ => 0) h 0
    let forwardH ← hashPosition c t 1
    encodeLoop c ⟨0,c.dst,mem,table,.search forwardH⟩

/-- The table is chosen by the size. A 32 bit process keeps pointers, unless the source
stands in the first 64 kilobytes. -/
def tableType (c : Call) : TableType :=
  if c.source.length < LZ4_64Klimit then .byU16
  else if LZ4_DISTANCE_MAX < c.src then .byPtr
  else .byU32

structure PackCall extends Call where
  bound : LZ4_compressBound source.length ≤ outputSize

def lz4CompressDefault (c : PackCall) (mem : Mem) : Option (ℤ × Mem) :=
  compressGeneric c.toCall (tableType c.toCall) mem

end Pauline.Pack
