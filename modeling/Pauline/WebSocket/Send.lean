import Pauline.WebSocket.Control
import Pauline.Library.Clocked

/-!
# What is sent to a client

The thread of the connection answers pings and closes while other threads send messages
to the same client. `send` may take a part of a frame only; the mutex of the client keeps
the frames apart. A client reads the frames one after the other.
-/

set_option autoImplicit false

namespace Pauline.WebSocket
open Buffer Utf8

/-! ## What a client reads -/

def readSent : List Byte → Option (ℕ × List Byte × List Byte)
  | b0 :: b1 :: rest =>
    let k := if b1.toNat = 126 then 2 else if b1.toNat = 127 then 8 else 0
    let n := if k = 0 then b1.toNat else bigValue (rest.take k)
    if k+n ≤ rest.length then some (b0.toNat % 16,(rest.drop k).take n,rest.drop (k+n)) else none
  | _ => none

theorem readSent_shorter {stream msg rest : List Byte} {type : ℕ}
    (h : readSent stream = some (type,msg,rest)) : rest.length < stream.length := by
  match stream, h with
  | b0 :: b1 :: tail, h =>
    simp only [readSent] at h
    split_ifs at h <;> cases h <;> rw [List.length_drop, List.length_cons, List.length_cons] <;> omega

def readAllSent (stream : List Byte) : List (ℕ × List Byte) :=
  match _h : readSent stream with
  | none => []
  | some (type,msg,rest) => (type,msg) :: readAllSent rest
termination_by stream.length
decreasing_by exact readSent_shorter _h

theorem readAllSent_none {stream : List Byte} (h : readSent stream = none) :
    readAllSent stream = [] := by
  rw [readAllSent]
  split
  · rfl
  · rename_i heq
    rw [h] at heq
    cases heq

theorem readAllSent_some {stream msg rest : List Byte} {type : ℕ}
    (h : readSent stream = some (type,msg,rest)) :
    readAllSent stream = (type,msg) :: readAllSent rest := by
  rw [readAllSent]
  split
  · rename_i heq
    rw [h] at heq
    cases heq
  · rename_i heq
    rw [h] at heq
    cases heq
    rfl

/-! ## The head of a frame -/

theorem byte_shift (n k : ℕ) : BitVec.ofNat 8 (n >>> k &&& 255) = BitVec.ofNat 8 (n/2^k) := by
  apply BitVec.eq_of_toNat_eq
  rw [BitVec.toNat_ofNat, BitVec.toNat_ofNat, Nat.shiftRight_eq_div_pow,
    show (255 : ℕ) = 2^8-1 from rfl, Nat.and_two_pow_sub_one_eq_mod, Nat.mod_mod]

theorem frameHead_eq (opcode : Opcode) (n : ℕ) : frameHead opcode.code n =
    BitVec.ofNat 8 (128+opcode.code) :: BitVec.ofNat 8 ((formOf n).first n) :: (formOf n).rest n := by
  have hfin : WS_FIN ||| opcode.code = 128+opcode.code := by cases opcode <;> decide
  have hbyte := byte_shift n 0
  rw [Nat.shiftRight_zero] at hbyte
  rw [frameHead, hfin]
  congr 1
  unfold formOf
  split_ifs with hshort hword
  · rw [show (0x7F : ℕ) = 2^7-1 from rfl, Nat.and_two_pow_sub_one_eq_mod, Nat.mod_eq_of_lt (by omega)]
    rfl
  · rw [byte_shift, hbyte]
    rfl
  · simp only [byte_shift, hbyte]
    rfl

theorem formOf_limit {n : ℕ} (h : n < 2^64) : n < (formOf n).limit := by
  unfold formOf
  split_ifs with hshort hword
  · exact Nat.lt_succ_of_le hshort
  · exact Nat.lt_succ_of_le hword
  · exact h

theorem form_reads {form : Form} {n : ℕ} (h : n < form.limit) : ∃ k,
    (form.rest n).length = k ∧ (BitVec.ofNat 8 (form.first n)).toNat = form.first n ∧
      (if form.first n = 126 then 2 else if form.first n = 127 then 8 else 0) = k ∧
      ∀ rest : List Byte,
        (if k = 0 then form.first n else bigValue ((form.rest n ++ rest).take k)) = n := by
  have hbig (k : ℕ) (hn : n < 2^(8*k)) (rest : List Byte) :
      bigValue ((big k n ++ rest).take k) = n := by
    rw [List.take_left' (big_length k n), bigValue_big k n hn]
  cases form with
  | short =>
    have hlt : n < 126 := h
    refine ⟨0,rfl,?_,?_,fun _ => rfl⟩
    · exact Nat.mod_eq_of_lt (show n < 2^8 by omega)
    · show (if n = 126 then 2 else if n = 127 then 8 else 0) = 0
      rw [if_neg (by omega), if_neg (by omega)]
  | word => exact ⟨2,big_length 2 n,rfl,rfl,hbig 2 h⟩
  | long => exact ⟨8,big_length 8 n,rfl,rfl,hbig 8 h⟩

section Round
variable (opcode : Opcode) {msg : List Byte}

theorem readSent_response (h : msg.length < 2^64) (rest : List Byte) :
    readSent (response opcode.code msg ++ rest) = some (opcode.code,msg,rest) := by
  obtain ⟨k, hlen, hfirst, hk, hn⟩ := form_reads (formOf_limit h)
  have hcode : (BitVec.ofNat 8 (128+opcode.code)).toNat % 16 = opcode.code := by
    cases opcode <;> decide
  rw [response, frameHead_eq, List.cons_append, List.cons_append, List.cons_append, List.cons_append,
    List.append_assoc]
  simp only [readSent]
  rw [hfirst, hk, hn, hcode, if_pos (by simp only [List.length_append, hlen]; omega),
    List.drop_left' hlen, List.take_left' rfl, ← List.drop_drop, List.drop_left' hlen,
    List.drop_left' rfl]

theorem readSent_part (h : msg.length < 2^64) {part rest : List Byte}
    (hpart : part ++ rest = response opcode.code msg) (hrest : rest ≠ []) :
    readSent part = none := by
  obtain ⟨k, hlen, hfirst, hk, hn⟩ := form_reads (formOf_limit h)
  rw [response, frameHead_eq, List.cons_append, List.cons_append] at hpart
  match part, hpart with
  | [], _ => rfl
  | [_], _ => rfl
  | b0 :: b1 :: tail, hpart =>
    rw [List.cons_append, List.cons_append] at hpart
    obtain ⟨-, hbehind⟩ := List.cons.inj hpart
    obtain ⟨hb1, htail⟩ := List.cons.inj hbehind
    have hpos := List.length_pos_iff.mpr hrest
    have htotal := congrArg List.length htail
    rw [List.length_append, List.length_append, hlen] at htotal
    simp only [readSent]
    rw [hb1, hfirst, hk]
    apply if_neg
    intro hle
    have hknown : tail.take k = (tail ++ rest).take k :=
      (List.take_append_of_le_length (by omega)).symm
    rw [hknown, htail, hn] at hle
    omega

end Round

/-! ## The threads of a client -/

inductive Sender
  | idle
  /-- In `pthread_mutex_lock`. -/
  | locking (opcode : Opcode) (msg : List Byte)
  /-- In the loop, with the bytes that are left. -/
  | looping (opcode : Opcode) (msg left : List Byte)

structure Wire (ι : Type) where
  /-- Of `mtx_snd`. -/
  holder : Option ι
  senders : ι → Sender
  bytes : List Byte
  /-- The calls that have returned with all their bytes sent, in their order. -/
  sent : List (Opcode × List Byte)
  /-- A `send` has returned -1. -/
  failed : Bool

inductive SendEvent (ι : Type)
  | call (i : ι) (opcode : Opcode) (msg : List Byte)
  | lock (i : ι)
  /-- `send` takes so many bytes. -/
  | send (i : ι) (r : ℕ)
  | fail (i : ι)
  | unlock (i : ι)

section Threads
variable {ι : Type}

def Wire.start : Wire ι where
  holder := none
  senders _ := .idle
  bytes := []
  sent := []
  failed := false

structure Framed (s : Wire ι) : Prop where
  small : ∀ i opcode msg, s.senders i = .locking opcode msg ∨
    (∃ left, s.senders i = .looping opcode msg left) → msg.length < 2^64
  sent_small : ∀ m ∈ s.sent, m.2.length < 2^64
  alone : ∀ i opcode msg left, s.senders i = .looping opcode msg left → s.holder = some i
  free : s.holder = none → s.failed = false →
    s.bytes = s.sent.flatMap fun m => response m.1.code m.2
  held : ∀ i, s.holder = some i → ∃ opcode msg left, s.senders i = .looping opcode msg left ∧
    (s.failed = false → ∃ part, part ++ left = response opcode.code msg ∧
      s.bytes = (s.sent.flatMap fun m => response m.1.code m.2) ++ part)

theorem start_framed : Framed (Wire.start : Wire ι) where
  small _ _ _ h := by
    obtain h | ⟨left, h⟩ := h <;> cases h
  sent_small m h := absurd h List.not_mem_nil
  alone _ _ _ _ h := by cases h
  free _ _ := rfl
  held _ h := by cases h

variable [DecidableEq ι]

def Wire.put (s : Wire ι) (i : ι) (sender : Sender) : Wire ι :=
  { s with senders := Function.update s.senders i sender }

def Wire.step (e : SendEvent ι) (s : Wire ι) : Wire ι :=
  match e with
  | .call i opcode msg => s.put i (.locking opcode msg)
  | .lock i =>
    match s.senders i with
    | .locking opcode msg =>
      { s.put i (.looping opcode msg (response opcode.code msg)) with holder := some i }
    | _ => s
  | .send i r =>
    match s.senders i with
    | .looping opcode msg left =>
      { s.put i (.looping opcode msg (left.drop r)) with bytes := s.bytes ++ left.take r }
    | _ => s
  | .fail i => { s.put i .idle with holder := none, failed := true }
  | .unlock i =>
    match s.senders i with
    | .looping opcode msg _ => { s.put i .idle with holder := none, sent := s.sent ++ [(opcode,msg)] }
    | _ => s

def CanSend (e : SendEvent ι) (s : Wire ι) : Prop :=
  match e with
  -- `idx_response` is an `int`
  | .call i opcode msg => s.senders i = .idle ∧ (response opcode.code msg).length < 2^31
  | .lock i => s.holder = none ∧ ∃ opcode msg, s.senders i = .locking opcode msg
  | .send i r => ∃ opcode msg left, s.senders i = .looping opcode msg left ∧ left ≠ [] ∧
      r ≤ left.length
  | .fail i => ∃ opcode msg left, s.senders i = .looping opcode msg left ∧ left ≠ []
  | .unlock i => ∃ opcode msg, s.senders i = .looping opcode msg []

variable {s : Wire ι} {i j : ι} {sender : Sender} {opcode : Opcode} {msg left : List Byte}

theorem put_self : (s.put i sender).senders i = sender := Function.update_self _ _ _

theorem put_other (h : j ≠ i) : (s.put i sender).senders j = s.senders j :=
  Function.update_of_ne h _ _

theorem call_framed (hidle : s.senders i = .idle) (hsmall : msg.length < 2^64) (h : Framed s) :
    Framed (s.put i (.locking opcode msg)) where
  small j opcode' msg' hj := by
    by_cases hji : j = i
    · subst hji
      rw [put_self] at hj
      obtain hj | ⟨left, hj⟩ := hj
      · cases hj
        exact hsmall
      · cases hj
    · rw [put_other hji] at hj
      exact h.small j opcode' msg' hj
  sent_small := h.sent_small
  alone j opcode' msg' left hj := by
    by_cases hji : j = i
    · subst hji
      rw [put_self] at hj
      cases hj
    · rw [put_other hji] at hj
      exact h.alone j opcode' msg' left hj
  free := h.free
  held j hj := by
    obtain ⟨opcode', msg', left, hloop, hpart⟩ := h.held j hj
    have hji : j ≠ i := by
      rintro rfl
      rw [hidle] at hloop
      cases hloop
    exact ⟨opcode',msg',left,(put_other hji).trans hloop,hpart⟩

/-- The mutex is free, so no thread is in the loop. -/
theorem lock_framed (hfree : s.holder = none) (hlocking : s.senders i = .locking opcode msg)
    (h : Framed s) : Framed
      { s.put i (.looping opcode msg (response opcode.code msg)) with holder := some i } where
  small j opcode' msg' hj := by
    by_cases hji : j = i
    · subst hji
      rw [put_self] at hj
      obtain hj | ⟨left, hj⟩ := hj <;> cases hj
      exact h.small j opcode msg (Or.inl hlocking)
    · rw [put_other hji] at hj
      exact h.small j opcode' msg' hj
  sent_small := h.sent_small
  alone j opcode' msg' left hj := by
    by_cases hji : j = i
    · rw [hji]
    · rw [put_other hji] at hj
      have hholder := h.alone j opcode' msg' left hj
      rw [hfree] at hholder
      cases hholder
  free hnone := by cases hnone
  held j hj := by
    obtain rfl := Option.some.inj hj
    exact ⟨opcode,msg,response opcode.code msg,put_self,
      fun hok => ⟨[],rfl,(h.free hfree hok).trans (List.append_nil _).symm⟩⟩

/-- Some of the bytes go from the frame to the wire. -/
theorem send_framed (r : ℕ) (hloop : s.senders i = .looping opcode msg left) (h : Framed s) :
    Framed { s.put i (.looping opcode msg (left.drop r)) with bytes := s.bytes ++ left.take r } where
  small j opcode' msg' hj := by
    by_cases hji : j = i
    · subst hji
      rw [put_self] at hj
      obtain hj | ⟨left', hj⟩ := hj <;> cases hj
      exact h.small j opcode msg (Or.inr ⟨left,hloop⟩)
    · rw [put_other hji] at hj
      exact h.small j opcode' msg' hj
  sent_small := h.sent_small
  alone j opcode' msg' left' hj := by
    by_cases hji : j = i
    · rw [hji]
      exact h.alone i opcode msg left hloop
    · rw [put_other hji] at hj
      exact h.alone j opcode' msg' left' hj
  free hnone := by
    have hheld : s.holder = none := hnone
    rw [h.alone i opcode msg left hloop] at hheld
    cases hheld
  held j hj := by
    obtain rfl := Option.some.inj ((h.alone i opcode msg left hloop).symm.trans hj)
    obtain ⟨opcode', msg', left', hloop', hpart⟩ := h.held i hj
    rw [hloop] at hloop'
    cases hloop'
    refine ⟨opcode,msg,left.drop r,put_self,fun hok => ?_⟩
    obtain ⟨part, hframe, hbytes⟩ := hpart hok
    refine ⟨part ++ left.take r,?_,?_⟩
    · rw [List.append_assoc, List.take_append_drop, hframe]
    · show s.bytes ++ left.take r = (s.sent.flatMap fun m => response m.1.code m.2) ++ _
      rw [hbytes, List.append_assoc]

/-- The thread that holds the mutex gives it back. -/
theorem leave_framed {sent : List (Opcode × List Byte)} {failed : Bool}
    (hloop : s.senders i = .looping opcode msg left) (hsent : ∀ m ∈ sent, m.2.length < 2^64)
    (hbytes : failed = false → s.bytes = sent.flatMap fun m => response m.1.code m.2) (h : Framed s) :
    Framed { s.put i .idle with holder := none, sent := sent, failed := failed } where
  small j opcode' msg' hj := by
    by_cases hji : j = i
    · subst hji
      rw [put_self] at hj
      obtain hj | ⟨left', hj⟩ := hj <;> cases hj
    · rw [put_other hji] at hj
      exact h.small j opcode' msg' hj
  sent_small := hsent
  alone j opcode' msg' left' hj := by
    by_cases hji : j = i
    · subst hji
      rw [put_self] at hj
      cases hj
    · rw [put_other hji] at hj
      exact absurd (Option.some.inj ((h.alone j opcode' msg' left' hj).symm.trans
        (h.alone i opcode msg left hloop))) hji
  free _ := hbytes
  held j hj := by cases hj

theorem response_small (h : (response opcode.code msg).length < 2^31) : msg.length < 2^64 := by
  rw [response, List.length_append] at h
  omega

theorem step_framed (e : SendEvent ι) (s : Wire ι) (hcan : CanSend e s) (h : Framed s) :
    Framed (s.step e) := by
  cases e with
  | call i opcode msg => exact call_framed hcan.1 (response_small hcan.2) h
  | lock i =>
    obtain ⟨hfree, opcode, msg, hlocking⟩ := hcan
    simp only [Wire.step, hlocking]
    exact lock_framed hfree hlocking h
  | send i r =>
    obtain ⟨opcode, msg, left, hloop, -⟩ := hcan
    simp only [Wire.step, hloop]
    exact send_framed r hloop h
  | fail i =>
    obtain ⟨opcode, msg, left, hloop, -⟩ := hcan
    exact leave_framed hloop h.sent_small (fun hok => by cases hok) h
  | unlock i =>
    obtain ⟨opcode, msg, hloop⟩ := hcan
    simp only [Wire.step, hloop]
    refine leave_framed hloop ?_ ?_ h
    · intro m hm
      rw [List.mem_append, List.mem_singleton] at hm
      obtain hm | rfl := hm
      · exact h.sent_small m hm
      · exact h.small i opcode msg (Or.inr ⟨[],hloop⟩)
    · intro hok
      obtain ⟨opcode', msg', left', hloop', hpart⟩ := h.held i (h.alone i opcode msg [] hloop)
      rw [hloop] at hloop'
      cases hloop'
      obtain ⟨part, hframe, hbytes⟩ := hpart hok
      rw [List.append_nil] at hframe
      rw [hbytes, hframe, List.flatMap_append, List.flatMap_singleton]

/-! ## What arrives -/

theorem readAllSent_frames {sent : List (Opcode × List Byte)} (h : ∀ m ∈ sent, m.2.length < 2^64)
    {part : List Byte} (hpart : readSent part = none) :
    readAllSent ((sent.flatMap fun m => response m.1.code m.2) ++ part) =
      sent.map fun m => (m.1.code,m.2) := by
  induction sent with
  | nil => exact readAllSent_none hpart
  | cons m sent ih =>
    rw [List.flatMap_cons, List.append_assoc,
      readAllSent_some (readSent_response m.1 (h m List.mem_cons_self) _), List.map_cons,
      ih fun m' hm' => h m' (List.mem_cons_of_mem _ hm')]

/-- However the threads of a client take turns, and whatever parts `send` takes, the client
reads the frames that have been sent, whole and in the order of the calls that have returned.
One call may have sent all its bytes and not returned. -/
theorem sent_frames (hreach : Clocked.Reach Wire.step CanSend Wire.start s)
    (hok : s.failed = false) : ∃ last,
      (last = [] ∨ ∃ i opcode msg, s.senders i = .looping opcode msg [] ∧ last = [(opcode,msg)]) ∧
      readAllSent s.bytes = (s.sent ++ last).map fun m => (m.1.code,m.2) := by
  have h : Framed s := hreach.invariant Framed start_framed step_framed
  cases hholder : s.holder with
  | none =>
    refine ⟨[],Or.inl rfl,?_⟩
    rw [h.free hholder hok, List.append_nil, ← List.append_nil (s.sent.flatMap _)]
    exact readAllSent_frames h.sent_small rfl
  | some i =>
    obtain ⟨opcode, msg, left, hloop, hpart⟩ := h.held i hholder
    obtain ⟨part, hframe, hbytes⟩ := hpart hok
    have hsmall := h.small i opcode msg (Or.inr ⟨left,hloop⟩)
    rw [hbytes]
    by_cases hleft : left = []
    · subst hleft
      refine ⟨[(opcode,msg)],Or.inr ⟨i,opcode,msg,hloop,rfl⟩,?_⟩
      rw [List.append_nil] at hframe
      have hall : (s.sent.flatMap fun m => response m.1.code m.2) ++ part =
          ((s.sent ++ [(opcode,msg)]).flatMap fun m => response m.1.code m.2) ++ [] := by
        rw [hframe, List.flatMap_append, List.flatMap_singleton, List.append_nil]
      rw [hall]
      refine readAllSent_frames (fun m hm => ?_) rfl
      rw [List.mem_append, List.mem_singleton] at hm
      obtain hm | rfl := hm
      · exact h.sent_small m hm
      · exact hsmall
    · refine ⟨[],Or.inl rfl,?_⟩
      rw [List.append_nil]
      exact readAllSent_frames h.sent_small (readSent_part opcode hsmall hframe hleft)

def twoSenders : List (SendEvent Bool) :=
  [.call false .txt [0x68#8,0x69#8],.lock false,.call true .pong [0x3f#8],.send false 3,
    .send false 1,.unlock false,.lock true,.send true 2]

theorem sent_frames_two : ∃ last, (last = [] ∨ ∃ i opcode msg,
      (twoSenders.foldl (fun s e => s.step e) Wire.start).senders i = .looping opcode msg [] ∧
        last = [(opcode,msg)]) ∧
    readAllSent (twoSenders.foldl (fun s e => s.step e) Wire.start).bytes =
      ((twoSenders.foldl (fun s e => s.step e) Wire.start).sent ++ last).map
        fun m => (m.1.code,m.2) := by
  refine sent_frames (Clocked.Reach.along twoSenders Wire.start ?_) rfl
  refine ⟨⟨rfl,by decide⟩,⟨rfl,_,_,rfl⟩,⟨rfl,by decide⟩,?_,?_,⟨_,_,rfl⟩,⟨rfl,_,_,rfl⟩,?_,trivial⟩
  · exact ⟨_,_,_,rfl,List.cons_ne_nil _ _,by decide⟩
  · exact ⟨_,_,_,rfl,List.cons_ne_nil _ _,by decide⟩
  · exact ⟨_,_,_,rfl,List.cons_ne_nil _ _,by decide⟩

end Threads

end Pauline.WebSocket
