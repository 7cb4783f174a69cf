import Pauline.WebSocket.Reader

/-!
# One frame

The length, the key and the payload of a frame, behind its first two bytes. The payload of
a fragment is put behind those before it, into memory that grows. An access outside of the
memory, or to memory that has been given back, has no result.
-/

set_option autoImplicit false

namespace Pauline.WebSocket
open Buffer Utf8

/-! ## Memory -/

structure Chunk where
  room : ℕ
  bytes : Mem

inductive Pointer
  | null
  | chunk (c : Chunk)
  | dangling

structure Host where
  malloc : ℕ → Bool
  /-- The bytes that stand in new memory. -/
  fresh : Mem
  /-- Whether the bytes of a frame can be sent, after others. -/
  send : List (List Byte) → List Byte → Bool

def Chunk.store (c : Chunk) (i : ℕ) (b : Byte) : Option Chunk :=
  if i < c.room then some { c with bytes := put c.bytes i [b] } else none

def realloc (host : Host) (p : Pointer) (size : ℕ) : Option (Option Chunk × Pointer) :=
  match p with
  | .null => some (if host.malloc size then some ⟨size,host.fresh⟩ else none,.null)
  | .chunk c =>
    if size = 0 then some (none,.dangling)
    else if host.malloc size then
      some (some ⟨size,fun i => if i < c.room then c.bytes i else host.fresh i⟩,.chunk c)
    else some (none,.chunk c)
  | .dangling => none

def free : Pointer → Option Unit
  | .dangling => none
  | _ => some ()

def Pointer.read (p : Pointer) (off n : ℕ) : Option (List Byte) :=
  if n = 0 then some []
  else match p with
    | .chunk c => if off+n ≤ c.room then some (slice c.bytes off n) else none
    | _ => none

def CTRL_ROOM : ℕ := 128

/-! ## The length -/

def u64 (b : ℤ) : ℕ := (b % 2^64).toNat

def shifted : List ℤ → ℕ
  | [] => 0
  | b :: bs => (u64 b*2^(8*bs.length) % 2^64) ||| shifted bs

def readLength (frame_length : ℕ) (r : Reader) : ℕ × Reader :=
  if frame_length = 126 then (nextBytes 2 r).map shifted id
  else if frame_length = 127 then (nextBytes 8 r).map shifted id
  else (frame_length,r)

/-! ## The frame -/

def isControlFrame (frame : ℕ) : Bool :=
  frame = WS_FR_OP_CLSE || frame = WS_FR_OP_PING || frame = WS_FR_OP_PONG

structure Read where
  ok : Bool
  reader : Reader
  buf : Pointer
  frame_length : ℕ
  frame_size : ℕ
  msg_idx : ℕ

def copyPayload (masks : Fin 4 → Byte) :
    ℕ → ℕ → Reader → Chunk → ℕ → Option (Bool × Reader × Chunk × ℕ)
  | 0, _, r, msg, msg_idx => some (true,r,msg,msg_idx)
  | n+1, i, r, msg, msg_idx =>
    let (cur_byte,r) := nextByte r
    if cur_byte = -1 then some (false,r,msg,msg_idx)
    else do
      let msg ← msg.store msg_idx (BitVec.ofInt 8 cur_byte ^^^ masks (keyIndex i))
      copyPayload masks n (i+1) r msg (msg_idx+1)

def allocate (host : Host) (grows : Bool) (buf : Pointer) (size : ℕ) :
    Option (Option Chunk × Pointer) :=
  if grows then realloc host buf size
  else match buf with
    | .chunk c => some (some c,buf)
    | _ => none

def readPayload (host : Host) (opcode : ℕ) (is_fin : Bool) (masks : Fin 4 → Byte) (s : Read) :
    Option Read := do
  let (tmp,buf) ← allocate host (!isControlFrame opcode) s.buf
    ((s.msg_idx+s.frame_length+is_fin.toNat) % 2^64)
  match tmp with
  | none => some { s with ok := false, reader := s.reader.fail, buf := buf }
  | some msg =>
    let (ok,r,msg,msg_idx) ← copyPayload masks s.frame_length 0 s.reader msg s.msg_idx
    some { s with ok := ok, reader := r, buf := .chunk msg, msg_idx := msg_idx }

def terminate (host : Host) (opcode : ℕ) (s : Read) : Option Read := do
  let (tmp,buf) ← allocate host (s.frame_length = 0 && !isControlFrame opcode) s.buf
    ((s.msg_idx+1) % 2^64)
  match tmp with
  | none => some { s with ok := false, reader := s.reader.fail, buf := buf }
  | some msg =>
    let msg ← msg.store s.msg_idx 0#8
    some { s with buf := .chunk msg }

def readBody (host : Host) (opcode : ℕ) (is_fin : Bool) (masks : Fin 4 → Byte) (s : Read) :
    Option Read := do
  let s ← if 0 < s.frame_length then readPayload host opcode is_fin masks s else some s
  if s.ok && is_fin && 0 < s.frame_size then terminate host opcode s else some s

def readFrame (host : Host) (opcode : ℕ) (is_fin : Bool) (buf : Pointer)
    (frame_length frame_size msg_idx : ℕ) (r : Reader) : Option Read :=
  let (frame_length,r) := readLength frame_length r
  let frame_size := (frame_size+frame_length) % 2^64
  if MAX_FRAME_LENGTH < frame_size then
    some ⟨false,r.fail,buf,frame_length,frame_size,msg_idx⟩
  else
    let (bs,r) := nextBytes 4 r
    if r.error then some ⟨false,r,buf,frame_length,frame_size,msg_idx⟩
    else readBody host opcode is_fin (fun i => BitVec.ofInt 8 (bs.getD i 0))
      ⟨true,r,buf,frame_length,frame_size,msg_idx⟩

/-! ## What is read of a length -/

theorem u64_byte (b : Byte) : u64 (b.toNat : ℤ) = b.toNat := by
  have := b.isLt
  unfold u64
  omega

theorem shifted_bytes (bs : List Byte) (h : bs.length ≤ 8) :
    shifted (bs.map fun b => (b.toNat : ℤ)) = bigValue bs := by
  induction bs with
  | nil => rfl
  | cons b bs ih =>
    rw [List.length_cons] at h
    have hb := b.isLt
    have hpow : (2^8)*2^(8*bs.length) ≤ 2^64 := by
      rw [← Nat.pow_add]
      exact Nat.pow_le_pow_right (by decide) (by omega)
    have hlt : b.toNat*2^(8*bs.length) < 2^64 :=
      (Nat.mul_lt_mul_of_pos_right hb (Nat.two_pow_pos _)).trans_le hpow
    rw [List.map_cons, shifted, ih (by omega), List.length_map, u64_byte, Nat.mod_eq_of_lt hlt,
      bigValue, Nat.mul_comm, Nat.two_pow_add_eq_or_of_lt (bigValue_lt bs)]

theorem readLength_known {form : Form} {n : ℕ} (hn : n < form.limit) {r : Reader}
    {rest : List Byte} (h : r.unread = form.rest n ++ rest) :
    ∃ r', readLength (form.first n) r = (n,r') ∧ r'.unread = rest ∧ r'.error = r.error := by
  have hbig (k : ℕ) (hk : k ≤ 8) (hn : n < 2^(8*k)) (h : r.unread = big k n ++ rest) :
      ∃ r', nextBytes k r = ((big k n).map fun b => (b.toNat : ℤ),r') ∧ r'.unread = rest ∧
        r'.error = r.error ∧ shifted ((big k n).map fun b => (b.toNat : ℤ)) = n := by
    obtain ⟨r', hbytes, hrest, herror⟩ := nextBytes_full h
    rw [big_length] at hbytes
    refine ⟨r',hbytes,hrest,herror,?_⟩
    rw [shifted_bytes _ (by rwa [big_length]), bigValue_big k n hn]
  cases form with
  | short =>
    have hlt : n < 126 := hn
    refine ⟨r,?_,h,rfl⟩
    show readLength n r = (n,r)
    rw [readLength, if_neg (by omega), if_neg (by omega)]
  | word =>
    obtain ⟨r', hbytes, hrest, herror, hvalue⟩ := hbig 2 (by decide) hn h
    refine ⟨r',?_,hrest,herror⟩
    show readLength 126 r = (n,r')
    rw [readLength, if_pos rfl, hbytes]
    exact Prod.ext hvalue rfl
  | long =>
    obtain ⟨r', hbytes, hrest, herror, hvalue⟩ := hbig 8 (by decide) hn h
    refine ⟨r',?_,hrest,herror⟩
    show readLength 127 r = (n,r')
    rw [readLength, if_neg (by decide), if_pos rfl, hbytes]
    exact Prod.ext hvalue rfl

theorem readLength_error (l : ℕ) {r : Reader} (h : r.error = true) :
    (readLength l r).2.error = true := by
  unfold readLength
  split_ifs
  · rw [Prod.map_snd, id_eq]
    exact nextBytes_error 2 h
  · rw [Prod.map_snd, id_eq]
    exact nextBytes_error 8 h
  · exact h

theorem readLength_room (l : ℕ) (r : Reader) : (readLength l r).2.room ≤ r.room := by
  unfold readLength
  split_ifs
  · rw [Prod.map_snd, id_eq]
    exact nextBytes_room 2 r
  · rw [Prod.map_snd, id_eq]
    exact nextBytes_room 8 r
  · exact le_rfl

/-- A length that is there in one of the forms, or an error. -/
theorem readLength_cases {l : ℕ} (hl : l < 128) (r : Reader) : (readLength l r).2.error = true ∨
    ∃ form n r', n < Form.limit form ∧ l = form.first n ∧ r.unread = form.rest n ++ r'.unread ∧
      r'.error = r.error ∧ readLength l r = (n,r') := by
  have hbig (k : ℕ) (hk : k ≤ 8) : (nextBytes k r).2.error = true ∨
      ∃ n r', n < 2^(8*k) ∧ r.unread = big k n ++ r'.unread ∧ r'.error = r.error ∧
        shifted (nextBytes k r).1 = n ∧ (nextBytes k r).2 = r' := by
    obtain herror | ⟨bs, r', hlen, hunread, herror, hbytes⟩ := nextBytes_cases k r
    · exact Or.inl herror
    · right
      refine ⟨bigValue bs,r',?_,?_,herror,?_,by rw [hbytes]⟩
      · rw [← hlen]
        exact bigValue_lt bs
      · rw [← hlen, big_bigValue, hunread]
      · rw [hbytes, shifted_bytes bs (by omega)]
  by_cases hword : l = 126
  · rw [readLength, if_pos hword]
    obtain herror | ⟨n, r', hn, hunread, herror, hvalue, hrest⟩ := hbig 2 (by decide)
    · left
      rw [Prod.map_snd, id_eq]
      exact herror
    · exact Or.inr ⟨.word,n,r',hn,hword,hunread,herror,Prod.ext
        (by rw [Prod.map_fst, hvalue]) (by rw [Prod.map_snd, id_eq, hrest])⟩
  · by_cases hlong : l = 127
    · rw [readLength, if_neg hword, if_pos hlong]
      obtain herror | ⟨n, r', hn, hunread, herror, hvalue, hrest⟩ := hbig 8 (by decide)
      · left
        rw [Prod.map_snd, id_eq]
        exact herror
      · exact Or.inr ⟨.long,n,r',hn,hlong,hunread,herror,Prod.ext
        (by rw [Prod.map_fst, hvalue]) (by rw [Prod.map_snd, id_eq, hrest])⟩
    · rw [readLength, if_neg hword, if_neg hlong]
      exact Or.inr ⟨.short,l,r,by show l < 126; omega,rfl,rfl,rfl,rfl⟩

/-! ## What is read of a payload -/

variable {masks : Fin 4 → Byte} {r : Reader} {c : Chunk} {i idx n : ℕ}

theorem Chunk.store_fits (h : idx < c.room) (b : Byte) :
    c.store idx b = some ⟨c.room,put c.bytes idx [b]⟩ := if_pos h

theorem copyPayload_full (masks : Fin 4 → Byte) (idx : ℕ) {bs rest : List Byte} (h : r.unread = bs ++ rest)
    (hroom : idx+bs.length ≤ c.room) :
    ∃ r', copyPayload masks bs.length i r c idx =
        some (true,r',⟨c.room,put c.bytes idx (maskFrom masks i bs)⟩,idx+bs.length) ∧
      r'.unread = rest ∧ r'.error = r.error := by
  induction bs generalizing r c i idx with
  | nil =>
    refine ⟨r,?_,h,rfl⟩
    rw [maskFrom, put_nil]
    rfl
  | cons b bs ih =>
    rw [List.length_cons] at hroom
    obtain ⟨r1, hbyte, hunread, herror⟩ := nextByte_cons h
    have hmasked : BitVec.ofInt 8 (b.toNat : ℤ) = b := by
      rw [BitVec.ofInt_natCast, BitVec.ofNat_toNat, BitVec.setWidth_eq]
    obtain ⟨r2, hcopy, hrest, herror'⟩ := ih (idx+1) (i := i+1)
      (c := ⟨c.room,put c.bytes idx [b ^^^ masks (keyIndex i)]⟩) hunread
      (by show idx+1+bs.length ≤ c.room; omega)
    refine ⟨r2,?_,hrest,herror'.trans herror⟩
    rw [List.length_cons, copyPayload, hbyte]
    simp only [hmasked]
    rw [if_neg (by omega), Chunk.store_fits (by omega), Option.bind_eq_bind, Option.bind_some, hcopy]
    rw [show idx+1 = idx+[b ^^^ masks (keyIndex i)].length from rfl, put_put]
    rw [List.length_singleton, Nat.add_assoc, Nat.add_comm 1, List.singleton_append, maskFrom]

theorem copyPayload_short (masks : Fin 4 → Byte) (idx : ℕ) (h : r.unread.length < n) (hroom : idx+n ≤ c.room) :
    ∃ r' c' idx', copyPayload masks n i r c idx = some (false,r',c',idx') ∧ r'.error = true := by
  induction n generalizing r c i idx with
  | zero => exact absurd h (Nat.not_lt_zero _)
  | succ n ih =>
    cases hread : r.unread with
    | nil =>
      obtain ⟨r', hbyte, herror⟩ := nextByte_nil hread
      refine ⟨r',c,idx,?_,herror⟩
      rw [copyPayload, hbyte]
      exact if_pos rfl
    | cons b rest =>
      obtain ⟨r1, hbyte, hunread, -⟩ := nextByte_cons hread
      rw [hread, List.length_cons] at h
      obtain ⟨r', c', idx', hcopy, herror⟩ := ih (idx+1) (i := i+1)
        (c := ⟨c.room,put c.bytes idx [BitVec.ofInt 8 (b.toNat : ℤ) ^^^ masks (keyIndex i)]⟩)
        (by rw [hunread]; omega) (by show idx+1+n ≤ c.room; omega)
      refine ⟨r',c',idx',?_,herror⟩
      rw [copyPayload, hbyte]
      simp only
      rw [if_neg (by omega), Chunk.store_fits (by omega), Option.bind_eq_bind, Option.bind_some, hcopy]

/-- Beyond the memory no byte is put. -/
theorem copyPayload_beyond (masks : Fin 4 → Byte) (idx : ℕ) (hn : 0 < n) (hroom : c.room ≤ idx) :
    copyPayload masks n i r c idx = none ∧ r.unread ≠ [] ∨
      ∃ r', copyPayload masks n i r c idx = some (false,r',c,idx) ∧ r'.error = true ∧
        r.unread = [] := by
  obtain ⟨n, rfl⟩ := Nat.exists_eq_succ_of_ne_zero hn.ne'
  rw [Nat.succ_eq_add_one, copyPayload]
  cases hread : r.unread with
  | nil =>
    right
    obtain ⟨r', hbyte, herror⟩ := nextByte_nil hread
    refine ⟨r',?_,herror,rfl⟩
    rw [hbyte]
    exact if_pos rfl
  | cons b rest =>
    left
    obtain ⟨r1, hbyte, hunread, -⟩ := nextByte_cons hread
    refine ⟨?_,List.cons_ne_nil _ _⟩
    rw [hbyte]
    simp only
    rw [if_neg (by omega), Chunk.store, if_neg (by omega)]
    rfl

theorem copyPayload_room {ok : Bool} {r' : Reader} {c' : Chunk} {idx' : ℕ}
    (h : copyPayload masks n i r c idx = some (ok,r',c',idx')) : r'.room ≤ r.room := by
  induction n generalizing r c i idx with
  | zero =>
    cases h
    exact le_rfl
  | succ n ih =>
    have hbyte := nextByte_room r
    rw [copyPayload] at h
    simp only [Option.bind_eq_bind] at h
    split_ifs at h
    · cases h
      exact hbyte
    · obtain ⟨c1, -, hcopy⟩ := Option.bind_eq_some_iff.mp h
      exact (ih hcopy).trans hbyte

/-! ## The head of a frame -/

theorem key_read (key : Fin 4 → Byte) : (fun i : Fin 4 => BitVec.ofInt 8
    (((List.ofFn key).map fun b => (b.toNat : ℤ)).getD i 0)) = key := by
  funext i
  have hbyte (b : Byte) : BitVec.ofInt 8 (b.toNat : ℤ) = b := by
    rw [BitVec.ofInt_natCast, BitVec.ofNat_toNat, BitVec.setWidth_eq]
  fin_cases i <;> exact hbyte _

variable (host : Host) (opcode : ℕ) (is_fin : Bool) (buf : Pointer) (frame_size msg_idx : ℕ)

theorem readFrame_head (form : Form) (hn : n < form.limit) {key : Fin 4 → Byte} {rest : List Byte}
    (h : r.unread = form.rest n ++ (List.ofFn key ++ rest)) (herror : r.error = false)
    (hsmall : (frame_size+n) % 2^64 ≤ MAX_FRAME_LENGTH) :
    ∃ r', r'.unread = rest ∧ r'.error = false ∧
      readFrame host opcode is_fin buf (form.first n) frame_size msg_idx r =
        readBody host opcode is_fin key ⟨true,r',buf,n,(frame_size+n) % 2^64,msg_idx⟩ := by
  obtain ⟨r1, hlength, hunread, herror1⟩ := readLength_known hn h
  obtain ⟨r2, hkey, hrest, herror2⟩ := nextBytes_full hunread
  have herror' : r2.error = false := herror2.trans (herror1.trans herror)
  rw [List.length_ofFn] at hkey
  refine ⟨r2,hrest,herror',?_⟩
  simp only [readFrame, hlength, hkey, herror', key_read]
  rw [if_neg (by omega), if_neg Bool.false_ne_true]

theorem readFrame_bad {l : ℕ} (hbad : (readLength l r).2.error = true) :
    ∃ s, readFrame host opcode is_fin buf l frame_size msg_idx r = some s ∧ s.ok = false ∧
      s.reader.error = true ∧ s.buf = buf := by
  simp only [readFrame]
  split_ifs with hlarge hkey
  · exact ⟨_,rfl,rfl,rfl,rfl⟩
  · exact ⟨_,rfl,rfl,hkey,rfl⟩
  · exact absurd (nextBytes_error 4 hbad) hkey

/-- The head is there and no message grows too long, or the frame is refused. -/
theorem readFrame_cases {l : ℕ} (hl : l < 128) (herror : r.error = false) :
    (∃ s, readFrame host opcode is_fin buf l frame_size msg_idx r = some s ∧ s.ok = false ∧
      s.reader.error = true ∧ s.buf = buf) ∨
    ∃ form n key r', n < Form.limit form ∧ l = form.first n ∧
      r.unread = form.rest n ++ (List.ofFn key ++ r'.unread) ∧ r'.error = false ∧
      (frame_size+n) % 2^64 ≤ MAX_FRAME_LENGTH ∧
      readFrame host opcode is_fin buf l frame_size msg_idx r =
        readBody host opcode is_fin key ⟨true,r',buf,n,(frame_size+n) % 2^64,msg_idx⟩ := by
  obtain hbad | ⟨form, n, r1, hn, hfirst, hunread, herror1, hlength⟩ := readLength_cases hl r
  · exact Or.inl (readFrame_bad host opcode is_fin buf frame_size msg_idx hbad)
  · by_cases hlarge : MAX_FRAME_LENGTH < (frame_size+n) % 2^64
    · left
      simp only [readFrame, hlength]
      rw [if_pos hlarge]
      exact ⟨_,rfl,rfl,rfl,rfl⟩
    · obtain hbad | ⟨bs, r2, hlen, hrest, herror2, hkey⟩ := nextBytes_cases 4 r1
      · left
        simp only [readFrame, hlength]
        rw [if_neg hlarge, if_pos hbad]
        exact ⟨_,rfl,rfl,hbad,rfl⟩
      · right
        obtain ⟨key, rfl⟩ : ∃ key : Fin 4 → Byte, bs = List.ofFn key :=
          ⟨fun i => bs.get ⟨i,by omega⟩,by
            apply List.ext_get
            · rw [List.length_ofFn, hlen]
            · intro i hi hi'
              rw [List.get_ofFn]
              rfl⟩
        have hhead : r.unread = form.rest n ++ (List.ofFn key ++ r2.unread) := by
          rw [hunread, hrest]
        obtain ⟨r', hrest', herror', hread⟩ := readFrame_head host opcode is_fin buf frame_size
          msg_idx form hn hhead herror (Nat.le_of_not_lt hlarge)
        refine ⟨form,n,key,r',hn,hfirst,?_,herror',Nat.le_of_not_lt hlarge,?_⟩
        · rw [hrest', hhead]
        · rw [hfirst, hread]

/-! ## What is left to read -/

variable {host opcode is_fin buf frame_size msg_idx}

theorem readPayload_room {s t : Read} (h : readPayload host opcode is_fin masks s = some t) :
    t.reader.room ≤ s.reader.room := by
  simp only [readPayload, Option.bind_eq_bind] at h
  obtain ⟨⟨tmp, p⟩, -, h⟩ := Option.bind_eq_some_iff.mp h
  cases tmp with
  | none =>
    cases h
    exact le_rfl
  | some msg =>
    obtain ⟨⟨ok, r', c', idx'⟩, hcopy, h⟩ := Option.bind_eq_some_iff.mp h
    cases h
    exact copyPayload_room hcopy

theorem terminate_room {s t : Read} (h : terminate host opcode s = some t) :
    t.reader.room = s.reader.room := by
  simp only [terminate, Option.bind_eq_bind] at h
  obtain ⟨⟨tmp, p⟩, -, h⟩ := Option.bind_eq_some_iff.mp h
  cases tmp with
  | none =>
    cases h
    rfl
  | some msg =>
    obtain ⟨c', -, h⟩ := Option.bind_eq_some_iff.mp h
    cases h
    rfl

theorem readBody_room {s t : Read} (h : readBody host opcode is_fin masks s = some t) :
    t.reader.room ≤ s.reader.room := by
  have htail (s' : Read) (h : (if s'.ok && is_fin && 0 < s'.frame_size then terminate host opcode s'
      else some s') = some t) : t.reader.room = s'.reader.room := by
    split_ifs at h
    · exact terminate_room h
    · cases h
      rfl
  simp only [readBody, Option.bind_eq_bind] at h
  split_ifs at h
  · obtain ⟨s', hread, h⟩ := Option.bind_eq_some_iff.mp h
    exact (htail s' h).trans_le (readPayload_room hread)
  · exact (htail s h).le

theorem readFrame_room {l : ℕ} {t : Read}
    (h : readFrame host opcode is_fin buf l frame_size msg_idx r = some t) :
    t.reader.room ≤ r.room := by
  have hlength := readLength_room l r
  have hkey := nextBytes_room 4 (readLength l r).2
  simp only [readFrame] at h
  split_ifs at h
  · cases h
    exact hlength
  · cases h
    exact hkey.trans hlength
  · exact (readBody_room h).trans (hkey.trans hlength)

end Pauline.WebSocket
