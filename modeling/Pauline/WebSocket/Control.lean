import Pauline.WebSocket.Fragment

/-!
# A control frame in a turn

A ping is answered with its payload, a pong may be one of those the server waits for, and
a close ends the connection.
-/

set_option autoImplicit false

namespace Pauline.WebSocket
open Buffer Utf8

variable {host : Host} {s : Assembling} {text payload : List Byte} {opcode l : ℕ}

def controlled (s : Assembling) (r' : Reader) (mem' : Mem) : Assembling :=
  { s with wfd := { s.wfd with reader := r', msg_ctrl := mem' } }

theorem readCtrl_takes (host : Host) (hopcode : isControlFrame opcode = true) (hl : payload.length ≤ 125)
    (hfin : s.is_fin = true) (herror : s.wfd.reader.error = false) {key : Fin 4 → Byte}
    {rest : List Byte}
    (hunread : s.wfd.reader.unread = List.ofFn key ++ (maskFrom key 0 payload ++ rest)) :
    ∃ r' mem', r'.unread = rest ∧ r'.error = false ∧ slice mem' 0 payload.length = payload ∧
      readCtrl host opcode payload.length s =
        some (true,payload.length,controlled s r' mem') := by
  have hmod : (0+payload.length) % 2^64 = payload.length := by omega
  have hmax : MAX_FRAME_LENGTH = 16777216 := by decide
  obtain ⟨r1, hrest1, herror1, hhead⟩ := readFrame_head host opcode s.is_fin
    (.chunk ⟨CTRL_ROOM,s.wfd.msg_ctrl⟩) 0 0 .short (Nat.lt_succ_of_le hl) hunread herror
    (by rw [hmod]; omega)
  rw [hmod] at hhead
  obtain ⟨-, hshort⟩ | ⟨bs, r', mem', hlen, hbs, herror', hslice, hbody⟩ := readBody_ctrl
    host key r1 hopcode hl s.wfd.msg_ctrl
  · rw [hrest1, List.length_append, maskFrom_length] at hshort
    omega
  · obtain ⟨hmask, hrest⟩ := List.append_inj (hrest1.symm.trans hbs) (by rw [maskFrom_length, hlen])
    refine ⟨r',mem',hrest.symm,herror'.trans herror1,?_,?_⟩
    · rw [hslice, ← hmask, maskFrom_maskFrom]
    · have hread := hhead.trans ((congrArg (fun fin => readBody host opcode fin key _) hfin).trans
        hbody)
      rw [readCtrl, show readFrame host opcode s.is_fin (.chunk ⟨CTRL_ROOM,s.wfd.msg_ctrl⟩)
        payload.length 0 0 s.wfd.reader = _ from hread]
      rfl

/-- The payload of a control frame is there, or the frame is refused. -/
theorem readCtrl_cases (host : Host) (hopcode : isControlFrame opcode = true) (hl : l ≤ 125)
    (hfin : s.is_fin = true) (herror : s.wfd.reader.error = false) :
    (∃ size s', readCtrl host opcode l s = some (false,size,s') ∧ s'.wfd.reader.error = true ∧
      s'.msg_data = s.msg_data) ∨
    ∃ key payload r' mem', payload.length = l ∧
      s.wfd.reader.unread = List.ofFn key ++ (maskFrom key 0 payload ++ r'.unread) ∧
      r'.error = false ∧ slice mem' 0 l = payload ∧
      readCtrl host opcode l s = some (true,l,controlled s r' mem') := by
  have hrefused (h : Refused (readFrame host opcode s.is_fin (.chunk ⟨CTRL_ROOM,s.wfd.msg_ctrl⟩) l
      0 0 s.wfd.reader)) : ∃ size s', readCtrl host opcode l s = some (false,size,s') ∧
        s'.wfd.reader.error = true ∧ s'.msg_data = s.msg_data := by
    obtain ⟨t, hread, hok, hbad, -⟩ := h
    rw [readCtrl, hread, Option.bind_eq_bind, Option.bind_some, hok]
    exact ⟨_,_,rfl,hbad,rfl⟩
  obtain ⟨t, hread, hok, hbad, hbuf⟩ | ⟨form, n, key, r1, hn, hfirst, hunread, herror1, hlarge, hhead⟩ :=
    readFrame_cases host opcode s.is_fin (.chunk ⟨CTRL_ROOM,s.wfd.msg_ctrl⟩) 0 0
      (show l < 128 by omega) herror
  · exact Or.inl (hrefused ⟨t,hread,hok,hbad,by rw [hbuf]; exact fun h => by cases h⟩)
  · have hshort : form = .short := by
      cases form with
      | short => rfl
      | word => exact absurd hfirst (by show ¬l = 126; omega)
      | long => exact absurd hfirst (by show ¬l = 127; omega)
    subst hshort
    obtain rfl : l = n := hfirst
    rw [show (0+l) % 2^64 = l by omega] at hhead
    obtain ⟨hbody, -⟩ | ⟨bs, r', mem', hlen, hbs, -⟩ := readBody_ctrl host
      key r1 hopcode hl s.wfd.msg_ctrl
    · left
      apply hrefused
      rw [hhead, hfin]
      exact hbody
    · right
      subst hlen
      have hlen : (maskFrom key 0 bs).length = bs.length := maskFrom_length _ _ _
      have hpayload : s.wfd.reader.unread = List.ofFn key ++
          (maskFrom key 0 (maskFrom key 0 bs) ++ r'.unread) := by
        rw [maskFrom_maskFrom, ← hbs]
        exact hunread
      obtain ⟨r2, mem2, hrest, herror2, hslice, hread⟩ := readCtrl_takes host hopcode
        (hlen.trans_le hl) hfin herror hpayload
      rw [hlen] at hslice hread
      refine ⟨key,maskFrom key 0 bs,r2,mem2,hlen,?_,herror2,hslice,hread⟩
      rw [hrest]
      exact hpayload

/-! ## What a control frame does -/

theorem response_length (type : ℕ) (msg : List Byte) :
    (response type msg).length ≤ msg.length+10 := by
  unfold response frameHead
  rw [List.length_append]
  split_ifs <;> simp only [List.length_cons, List.length_nil] <;> omega

def Sends (host : Host) (client : Client) (type : ℕ) (msg : List Byte) : Prop :=
  host.malloc ((response type msg).length+1) = true ∧
    host.send client.sent (response type msg) = true

theorem wsSendframe_sends {client : Client} {type : ℕ} {msg : List Byte}
    (h : Sends host client type msg) (hsmall : msg.length < 2^30) : ∃ ret, 0 ≤ ret ∧
      wsSendframe host client msg type =
        (ret,{ client with sent := client.sent ++ [response type msg] }) := by
  have hlen := response_length type msg
  have hret (n : ℕ) (hn : n < 2^31) : 0 ≤ (BitVec.ofNat 32 n).toInt := by
    rw [BitVec.toInt_eq_toNat_cond, BitVec.toNat_ofNat]
    split_ifs <;> omega
  refine ⟨_,hret (response type msg).length (by omega),?_⟩
  rw [wsSendframe, if_pos (by rw [h.1, h.2]; rfl)]

theorem wsSendframe_fails {client : Client} {type : ℕ} {msg : List Byte}
    (h : ¬Sends host client type msg) : wsSendframe host client msg type = (-1,client) := by
  rw [wsSendframe, if_neg (by rwa [Bool.and_eq_true])]

structure Passed (s s' : Assembling) (r' : Reader) (sent : List (List Byte)) : Prop where
  reader : s'.wfd.reader = r'
  is_fin : s'.is_fin = false
  sent : s'.wfd.client.sent = s.wfd.client.sent ++ sent
  state : s'.wfd.client.state = s.wfd.client.state
  ready : ∀ before text, Ready s false before text → Ready s' false before text

theorem ready_controlled {r' : Reader} {mem' : Mem} {client : Client} (herror : r'.error = false)
    {before : Option Kind} (h : Ready s false before text) :
    Ready { s with
      wfd := { s.wfd with reader := r', msg_ctrl := mem', client := client }
      is_fin := false } false before text where
  type := h.type
  size := h.size
  idx := h.idx
  small := h.small
  holds := h.holds
  chars := h.chars
  fresh := h.fresh
  error := herror

variable {r' : Reader} {mem' : Mem}

theorem pongFrame_passes (herror : r'.error = false)
    (hread : readCtrl host opcode l s = some (true,l,controlled s r' mem')) :
    ∃ s', pongFrame host opcode l s = some (.tested s') ∧ Passed s s' r' [] := by
  simp only [pongFrame, hread, Option.bind_eq_bind, Option.bind_some, Bool.not_true,
    Bool.false_eq_true, if_false]
  split_ifs
  · exact ⟨_,rfl,rfl,rfl,(List.append_nil _).symm,rfl,fun _ _ => ready_controlled herror⟩
  · exact ⟨_,rfl,rfl,rfl,(List.append_nil _).symm,rfl,fun _ _ => ready_controlled herror⟩
  · exact ⟨_,rfl,rfl,rfl,(List.append_nil _).symm,rfl,fun _ _ => ready_controlled herror⟩

theorem pingFrame_passes (herror : r'.error = false) (hl : l ≤ 125)
    (hslice : slice mem' 0 l = payload)
    (hsends : Sends host s.wfd.client WS_FR_OP_PONG payload)
    (hread : readCtrl host opcode l s = some (true,l,controlled s r' mem')) :
    ∃ s', pingFrame host opcode l s = some (.tested s') ∧
      Passed s s' r' [response WS_FR_OP_PONG payload] := by
  have hlen : payload.length = l := by rw [← hslice, slice_length]
  obtain ⟨ret, hret, hsend⟩ := wsSendframe_sends hsends (by omega)
  simp only [pingFrame, hread, Option.bind_eq_bind, Option.bind_some, Bool.not_true,
    Bool.false_eq_true, if_false, doPong, controlled, hslice, hsend]
  rw [if_neg (show ¬ret < 0 by omega)]
  exact ⟨_,rfl,rfl,rfl,rfl,rfl,fun _ _ => ready_controlled herror⟩

theorem pingFrame_givesUp (hlive : s.msg_data ≠ .dangling)
    (hslice : slice mem' 0 l = payload)
    (hfails : ¬Sends host s.wfd.client WS_FR_OP_PONG payload)
    (hread : readCtrl host opcode l s = some (true,l,controlled s r' mem')) :
    GivesUp (pingFrame host opcode l s) := by
  simp only [pingFrame, hread, Option.bind_eq_bind, Option.bind_some, Bool.not_true,
    Bool.false_eq_true, if_false, doPong, controlled, hslice, wsSendframe_fails hfails]
  rw [if_pos (show (-1 : ℤ) < 0 by decide)]
  exact Or.inr ⟨_,Or.inl rfl,rfl,hlive⟩

def Reason (payload : List Byte) : Prop := 2 < payload.length → Text (payload.drop 2)

theorem slice_drop (mem : Mem) (n k : ℕ) : (slice mem 0 n).drop k = slice mem k (n-k) := by
  by_cases hk : k ≤ n
  · obtain ⟨m, rfl⟩ := Nat.exists_eq_add_of_le hk
    rw [slice_add, List.drop_append_of_le_length (slice_length _ _ _).ge, List.drop_of_length_le
      (slice_length _ _ _).le, List.nil_append, Nat.zero_add, Nat.add_sub_cancel_left]
  · rw [List.drop_of_length_le (by rw [slice_length]; omega), show n-k = 0 by omega, slice_zero]

theorem isUtf8Len_iff (bs : List Byte) : isUtf8Len bs = true ↔ Text bs := by
  rw [← accepted_iff, isUtf8Len, decide_eq_true_eq]

def closing (s : Assembling) (r' : Reader) (mem' : Mem) (size : ℕ) : FrameData :=
  { (controlled s r' mem').wfd with frame_size := size, frame_type := WS_FR_OP_CLSE }

theorem closeFrame_cases (host : Host) (hlive : s.msg_data ≠ .dangling) (hslice : slice mem' 0 l = payload)
    (hread : readCtrl host opcode l s = some (true,l,controlled s r' mem')) :
    (Reason payload → closeFrame host opcode l s = some (.returned 0 (closing s r' mem' l))) ∧
      (¬Reason payload → GivesUp (closeFrame host opcode l s)) := by
  have hlen : payload.length = l := by rw [← hslice, slice_length]
  have hcheck : (2 < l ∧ (!isUtf8Len (slice (controlled s r' mem').wfd.msg_ctrl 2 (l-2))) = true) ↔
      ¬Reason payload := by
    show (2 < l ∧ (!isUtf8Len (slice mem' 2 (l-2))) = true) ↔ _
    rw [← slice_drop, hslice, Reason, hlen, Bool.not_eq_true', ← Bool.not_eq_true, isUtf8Len_iff,
      Classical.not_imp]
  simp only [closeFrame, hread, Option.bind_eq_bind, Option.bind_some, Bool.not_true,
    Bool.false_eq_true, if_false]
  constructor
  · intro hreason
    rw [if_neg fun h => hcheck.mp h hreason]
    cases hdata : s.msg_data with
    | dangling => exact absurd hdata hlive
    | null => simp only [controlled, hdata, free, Option.bind_some]; rfl
    | chunk c => simp only [controlled, hdata, free, Option.bind_some]; rfl
  · intro hnot
    rw [if_pos (hcheck.mpr hnot)]
    exact refuse_givesUp _ hlive

end Pauline.WebSocket
