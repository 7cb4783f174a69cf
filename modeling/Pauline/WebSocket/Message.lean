import Pauline.WebSocket.NextFrame

/-!
# The message of a client

The frames that have come make a part of a message until one of them is the last. A message
is taken whatever the pieces are that its bytes come in, and nothing else is.
-/

set_option autoImplicit false

namespace Pauline.WebSocket
open Buffer Utf8

variable {host : Host} {wfd wfd' : FrameData} {s s' : Assembling} {fs : List Frame} {f : Frame}
variable {before : Option Kind} {kind : Kind} {text : List Byte}

structure Ample (host : Host) : Prop where
  memory : ∀ size, host.malloc size = true
  network : ∀ sent bytes, host.send sent bytes = true

theorem spelled_iff (fin : Bool) (kind : Kind) (text : List Byte) : Spelled fin kind text ↔
    (kind = .txt → if fin then Text text else ∃ more, Text (text ++ more)) := by
  unfold Spelled
  cases fin with
  | true =>
    simp only [if_true]
    rw [accepted_iff]
  | false =>
    simp only [Bool.false_eq_true, if_false]
    rw [rejected_iff]

/-! ## A part of a message -/

structure Reached (wfd : FrameData) (s : Assembling) (fs : List Frame) (before : Option Kind)
    (text : List Byte) : Prop where
  unread : wfd.reader.unread = encodeAll fs ++ s.wfd.reader.unread
  opened : Opened fs before text
  ready : Ready s false before text
  sent : s.wfd.client.sent = wfd.client.sent ++ fs.flatMap answers
  state : s.wfd.client.state = wfd.client.state
  msg : s.wfd.msg = .null

theorem reached_begin (herror : wfd.reader.error = false) : Reached wfd (begin wfd) [] none [] where
  unread := rfl
  opened := ⟨.nothing,Nat.zero_le _,fun h => nomatch h⟩
  ready :=
    { type := rfl
      size := rfl
      idx := rfl
      small := Nat.zero_le _
      holds := rfl
      chars := fun _ _ => ⟨rfl,show UTF8_ACCEPT ≠ UTF8_REJECT by decide⟩
      fresh := fun _ => rfl
      error := herror }
  sent := (List.append_nil _).symm
  state := rfl
  msg := rfl

theorem Reached.aside (h : Reached wfd s fs before text) (haside : f.Aside)
    (hunread : s.wfd.reader.unread = f.encode ++ s'.wfd.reader.unread)
    (hturn : turn host s = some (.tested s'))
    (hsent : s'.wfd.client.sent = s.wfd.client.sent ++ answers f)
    (hstate : s'.wfd.client.state = s.wfd.client.state) (hready : Ready s' false before text) :
    Reached wfd s' (fs ++ [f]) before text where
  unread := by rw [encodeAll_snoc, ← hunread, h.unread]
  opened := ⟨.aside h.opened.begun haside,h.opened.small,h.opened.chars⟩
  ready := hready
  sent := by rw [hsent, h.sent, List.flatMap_append, List.flatMap_singleton, List.append_assoc]
  state := hstate.trans h.state
  msg := (tested_keeps hturn).2.trans h.msg

theorem answers_fragment (hgoes : f.Goes before kind) : answers f = [] := by
  have hctrl := hgoes.fits.2.1
  exact if_neg fun h => by rw [h] at hctrl; cases hctrl

theorem Reached.fragment (h : Reached wfd s fs before text) (hgoes : f.Goes before kind)
    (hfin : f.fin = false) (hunread : s.wfd.reader.unread = f.encode ++ s'.wfd.reader.unread)
    (hsmall : text.length+f.payload.length ≤ MAX_FRAME_LENGTH)
    (hspelled : Spelled f.fin kind (text ++ f.payload))
    (hturn : turn host s = some (.tested s')) (hclient : s'.wfd.client = s.wfd.client)
    (hready : Ready s' f.fin (some kind) (text ++ f.payload)) :
    Reached wfd s' (fs ++ [f]) (some kind) (text ++ f.payload) where
  unread := by rw [encodeAll_snoc, ← hunread, h.unread]
  opened := by
    rw [hfin, spelled_iff] at hspelled
    exact ⟨.more h.opened.begun hgoes hfin,by rwa [List.length_append],
      fun htxt => hspelled (Option.some.inj htxt)⟩
  ready := by rwa [hfin] at hready
  sent := by
    rw [hclient, h.sent, List.flatMap_append, List.flatMap_singleton, answers_fragment hgoes,
      List.append_nil]
  state := by rw [hclient, h.state]
  msg := (tested_keeps hturn).2.trans h.msg

/-! ## What the function returns -/

structure Delivered (wfd wfd' : FrameData) (kind : Kind) (text : List Byte)
    (sent : List (List Byte)) (rest : List Byte) : Prop where
  type : wfd'.frame_type = kind.opcode.code
  size : wfd'.frame_size = text.length
  msg : Holds wfd'.msg true text
  sent : wfd'.client.sent = wfd.client.sent ++ sent
  state : wfd'.client.state = wfd.client.state
  unread : wfd'.reader.unread = rest
  error : wfd'.reader.error = false

structure HungUp (wfd wfd' : FrameData) (payload : List Byte) (sent : List (List Byte))
    (rest : List Byte) : Prop where
  type : wfd'.frame_type = WS_FR_OP_CLSE
  size : wfd'.frame_size = payload.length
  ctrl : slice wfd'.msg_ctrl 0 payload.length = payload
  msg : wfd'.msg = .null
  sent : wfd'.client.sent = wfd.client.sent ++ sent
  state : wfd'.client.state = wfd.client.state
  unread : wfd'.reader.unread = rest
  error : wfd'.reader.error = false

structure Ruinous (host : Host) (unread : List Byte) (fs : List Frame) (text : List Byte)
    (b0 b1 : Byte) (n : ℕ) (key : Fin 4 → Byte) (tail rest : List Byte) : Prop where
  opened : ∃ kind, Opened fs (some kind) text
  stream : unread = encodeAll fs ++ b0 :: b1 :: tail
  reserved : b0.toNat &&& 0x70 = 0
  continues : b0.toNat &&& 0xF = WS_FR_OP_CONT
  wraps : Wraps host (decide (b0.toNat >>> 7 = 1)) text (b1.toNat &&& 0x7F) n key tail rest

inductive Ended (host : Host) (wfd : FrameData) : Option (ℤ × FrameData) → Prop
  | refused (wfd' : FrameData) : Ended host wfd (some (-1,wfd'))
  | message (wfd' : FrameData) (fs : List Frame) (kind : Kind) (text : List Byte) :
      Carries fs kind text → wfd.reader.unread = encodeAll fs ++ wfd'.reader.unread →
      Delivered wfd wfd' kind text (fs.flatMap answers) wfd'.reader.unread →
      Ended host wfd (some (0,wfd'))
  | closed (wfd' : FrameData) (fs : List Frame) (before : Option Kind) (text : List Byte)
      (f : Frame) : Opened fs before text → f.Closes → Reason f.payload →
      wfd.reader.unread = encodeAll fs ++ (f.encode ++ wfd'.reader.unread) →
      HungUp wfd wfd' f.payload (fs.flatMap answers) wfd'.reader.unread →
      Ended host wfd (some (0,wfd'))
  | ruined (fs : List Frame) (text : List Byte) (b0 b1 : Byte) (n : ℕ) (key : Fin 4 → Byte)
      (tail rest : List Byte) : Ruinous host wfd.reader.unread fs text b0 b1 n key tail rest →
      Ended host wfd none

theorem Reached.delivers (h : Reached wfd s fs before text) (hgoes : f.Goes before kind)
    (hfin : f.fin = true) (hunread : s.wfd.reader.unread = f.encode ++ s'.wfd.reader.unread)
    (hsmall : text.length+f.payload.length ≤ MAX_FRAME_LENGTH)
    (hspelled : Spelled f.fin kind (text ++ f.payload)) (hclient : s'.wfd.client = s.wfd.client)
    (hready : Ready s' f.fin (some kind) (text ++ f.payload)) :
    ∃ wfd', finish s' = some (0,wfd') ∧ Carries (fs ++ [f]) kind (text ++ f.payload) ∧
      wfd.reader.unread = encodeAll (fs ++ [f]) ++ wfd'.reader.unread ∧
      Delivered wfd wfd' kind (text ++ f.payload) ((fs ++ [f]).flatMap answers)
        s'.wfd.reader.unread := by
  rw [hfin] at hready
  rw [hfin, spelled_iff] at hspelled
  have hfinish : finish s' = some (0,{ s'.wfd with msg := s'.msg_data }) := by
    rw [finish, hready.error]
    rfl
  refine ⟨_,hfinish,⟨.last h.opened.begun hgoes hfin,by rwa [List.length_append],hspelled⟩,
    by rw [encodeAll_snoc, ← hunread, h.unread],hready.type,hready.size,hready.holds,?_,?_,rfl,
    hready.error⟩
  · rw [List.flatMap_append, List.flatMap_singleton, answers_fragment hgoes, List.append_nil]
    exact (congrArg Client.sent hclient).trans h.sent
  · exact (congrArg Client.state hclient).trans h.state

/-- Every turn goes on with what has come, or the function ends. -/
theorem nextFrame_ended (host : Host) (hstate : wfd.client.state ≠ WS_STATE_CLOSING)
    (h : Reached wfd s fs before text) : Ended host wfd (nextFrameLoop host s) := by
  induction hroom : s.wfd.reader.room using Nat.strong_induction_on generalizing s fs before text with
  | _ room ih =>
    cases turn_outcome host h.ready (by rwa [h.state]) with
    | gaveUp hgives =>
      obtain ⟨wfd', hrefused⟩ := hgives.refused
      rw [hrefused]
      exact .refused wfd'
    | ruined kind b0 b1 n key tail rest hkind hunread hreserved hcode hwraps hruins =>
      rw [hruins.none]
      exact .ruined fs text b0 b1 n key tail rest
        ⟨⟨kind,hkind ▸ h.opened⟩,by rw [h.unread, hunread],hreserved,hcode,hwraps⟩
    | fragment f kind s' hgoes hunread hsmall hspelled hturn hfin hclient hready =>
      cases hlast : f.fin with
      | true =>
        obtain ⟨wfd', hfinish, hcarries, hstream, hdelivered⟩ := h.delivers hgoes hlast hunread hsmall
          hspelled hclient hready
        rw [nextFrameLoop_ends hturn (hfin.trans hlast), hfinish]
        rw [← hdelivered.unread] at hdelivered
        exact .message wfd' _ kind _ hcarries hstream hdelivered
      | false =>
        rw [nextFrameLoop_goes hturn (hfin.trans hlast) hready.error]
        exact ih _ (hroom ▸ (tested_keeps hturn).1) (h.fragment hgoes hlast hunread hsmall hspelled hturn
          hclient hready) rfl
    | aside f s' haside hunread hturn hfin hsent hsame hready =>
      rw [nextFrameLoop_goes hturn hfin hready.error]
      exact ih _ (hroom ▸ (tested_keeps hturn).1) (h.aside haside hunread hturn hsent hsame hready) rfl
    | closed f wfd' hcloses hunread hreason hturn hclosed =>
      rw [nextFrameLoop_returns hturn]
      refine .closed wfd' fs before text f h.opened hcloses hreason (by rw [h.unread, hunread])
        ⟨hclosed.type,hclosed.size,hclosed.ctrl,hclosed.msg.trans h.msg,?_,?_,rfl,hclosed.error⟩
      · rw [hclosed.client, h.sent]
      · rw [hclosed.client, h.state]

/-! ## What a client sends -/

theorem Ample.sends (hample : Ample host) (client : Client) (type : ℕ) (msg : List Byte) :
    Sends host client type msg := ⟨hample.memory _,hample.network _ _⟩

/-- The part of a message before a fragment of it. -/
theorem opened_before (hbegun : Begun fs before text) (hgoes : f.Goes before kind)
    (hsmall : (text ++ f.payload).length ≤ MAX_FRAME_LENGTH)
    (hchars : kind = .txt → ∃ more, Text (text ++ f.payload ++ more)) : Opened fs before text where
  begun := hbegun
  small := by
    rw [List.length_append] at hsmall
    omega
  chars htxt := by
    obtain ⟨hnone, -⟩ | ⟨hkind, -⟩ := hgoes
    · rw [hnone] at htxt
      cases htxt
    · obtain ⟨more, hmore⟩ := hchars (Option.some.inj (hkind.symm.trans htxt))
      exact ⟨f.payload ++ more,by rwa [← List.append_assoc]⟩

/-- Every part of a message is reached. -/
theorem opened_reached (hample : Ample host) (hstate : wfd.client.state ≠ WS_STATE_CLOSING)
    (herror : wfd.reader.error = false) (h : Opened fs before text) {rest : List Byte}
    (hunread : wfd.reader.unread = encodeAll fs ++ rest) :
    ∃ s, nextFrame host wfd = nextFrameLoop host s ∧ Reached wfd s fs before text ∧
      s.wfd.reader.unread = rest := by
  obtain ⟨hbegun, hsmall, hchars⟩ := h
  induction hbegun generalizing rest with
  | nothing => exact ⟨begin wfd,rfl,reached_begin herror,hunread⟩
  | aside hbegun haside ih =>
    rw [encodeAll_snoc] at hunread
    obtain ⟨s, hloop, hreached, hrest⟩ := ih hunread hsmall hchars
    obtain ⟨s', hturn, hrest', hfin, hsent, hsame, hready⟩ := turn_aside hreached.ready
      (by rwa [hreached.state]) haside hrest fun _ => hample.sends _ _ _
    rw [← hrest'] at hrest
    exact ⟨s',hloop.trans (nextFrameLoop_goes hturn hfin hready.error),
      hreached.aside haside hrest hturn hsent hsame hready,hrest'⟩
  | more hbegun hgoes hfin ih =>
    have hchars' := fun htxt => hchars (congrArg some htxt)
    obtain ⟨-, hsmall', hbefore⟩ := opened_before hbegun hgoes hsmall hchars'
    rw [encodeAll_snoc] at hunread
    obtain ⟨s, hloop, hreached, hrest⟩ := ih hunread hsmall' hbefore
    rw [List.length_append] at hsmall
    have hspelled := (spelled_iff false _ _).mpr hchars'
    rw [← hfin] at hspelled
    obtain ⟨s', hturn, hrest', hfin', hclient, hready⟩ := turn_fragment hample.memory hreached.ready
      (by rwa [hreached.state]) hgoes hrest hsmall hspelled
    rw [← hrest'] at hrest
    exact ⟨s',hloop.trans (nextFrameLoop_goes hturn (hfin'.trans hfin) hready.error),
      hreached.fragment hgoes hfin hrest hsmall hspelled hturn hclient hready,hrest'⟩

theorem carries_delivered (hample : Ample host) (hstate : wfd.client.state ≠ WS_STATE_CLOSING)
    (herror : wfd.reader.error = false) (h : Carries fs kind text) {rest : List Byte}
    (hunread : wfd.reader.unread = encodeAll fs ++ rest) :
    ∃ wfd', nextFrame host wfd = some (0,wfd') ∧
      Delivered wfd wfd' kind text (fs.flatMap answers) rest := by
  obtain ⟨hcomplete, hsmall, hchars⟩ := h
  cases hcomplete with
  | last hbegun hgoes hfin =>
    have hopened := opened_before hbegun hgoes hsmall
      fun htxt => ⟨[],by rw [List.append_nil]; exact hchars htxt⟩
    rw [encodeAll_snoc] at hunread
    obtain ⟨s, hloop, hreached, hrest⟩ := opened_reached hample hstate herror hopened hunread
    rw [List.length_append] at hsmall
    have hspelled := (spelled_iff true _ _).mpr hchars
    rw [← hfin] at hspelled
    obtain ⟨s', hturn, hrest', hfin', hclient, hready⟩ := turn_fragment hample.memory hreached.ready
      (by rwa [hreached.state]) hgoes hrest hsmall hspelled
    rw [← hrest'] at hrest
    obtain ⟨wfd', hfinish, -, -, hdelivered⟩ := hreached.delivers hgoes hfin hrest hsmall hspelled
      hclient hready
    rw [hrest'] at hdelivered
    exact ⟨wfd',by rw [hloop, nextFrameLoop_ends hturn (hfin'.trans hfin), hfinish],hdelivered⟩

theorem closes_hungUp (hample : Ample host) (hstate : wfd.client.state ≠ WS_STATE_CLOSING)
    (herror : wfd.reader.error = false) (hopened : Opened fs before text) (hcloses : f.Closes)
    (hreason : Reason f.payload) {rest : List Byte}
    (hunread : wfd.reader.unread = encodeAll fs ++ (f.encode ++ rest)) :
    ∃ wfd', nextFrame host wfd = some (0,wfd') ∧
      HungUp wfd wfd' f.payload (fs.flatMap answers) rest := by
  obtain ⟨s, hloop, hreached, hrest⟩ := opened_reached hample hstate herror hopened hunread
  obtain ⟨wfd', hturn, hclosed⟩ := turn_close host hreached.ready (by rwa [hreached.state]) hcloses
    hrest hreason
  refine ⟨wfd',by rw [hloop, nextFrameLoop_returns hturn],hclosed.type,hclosed.size,hclosed.ctrl,
    hclosed.msg.trans hreached.msg,?_,?_,hclosed.unread,hclosed.error⟩
  · rw [hclosed.client, hreached.sent]
  · rw [hclosed.client, hreached.state]

theorem ruinous_none (hample : Ample host) (hstate : wfd.client.state ≠ WS_STATE_CLOSING)
    (herror : wfd.reader.error = false) {b0 b1 : Byte} {n : ℕ} {key : Fin 4 → Byte}
    {tail rest : List Byte} (h : Ruinous host wfd.reader.unread fs text b0 b1 n key tail rest) :
    nextFrame host wfd = none := by
  obtain ⟨⟨kind, hopened⟩, hstream, hreserved, hcode, hwraps⟩ := h
  obtain ⟨s, hloop, hreached, hrest⟩ := opened_reached hample hstate herror hopened hstream
  rw [hloop]
  exact (turn_ruins hreached.ready (by rwa [hreached.state]) hreserved hcode hrest hwraps).none

/-! ## What the function is for -/

theorem holds_inj {p : Pointer} {fin : Bool} {text text' : List Byte} (h : Holds p fin text)
    (h' : Holds p fin text') : text = text' := by
  cases p with
  | null => exact Eq.trans (show text = [] from h) (show text' = [] from h').symm
  | chunk c => exact (List.append_left_inj _).mp (h.2.symm.trans h'.2)
  | dangling => exact h.elim

theorem kind_code_inj {kind kind' : Kind} (h : (kind.opcode.code : ℤ) = kind'.opcode.code) :
    kind = kind' := by
  have hopcode := Opcode.code_inj (Int.ofNat_inj.mp h)
  cases kind <;> cases kind' <;> first | rfl | cases hopcode

theorem typed_delivered {wfd' : FrameData} {kind : Kind}
    (hstate : wfd.client.state ≠ WS_STATE_CLOSING) (herror : wfd.reader.error = false)
    (hnext : nextFrame host wfd = some (0,wfd')) (htype : wfd'.frame_type = kind.opcode.code) :
    ∃ fs text, Carries fs kind text ∧ wfd.reader.unread = encodeAll fs ++ wfd'.reader.unread ∧
      Delivered wfd wfd' kind text (fs.flatMap answers) wfd'.reader.unread := by
  have hended := nextFrame_ended host hstate (reached_begin herror)
  rw [show nextFrameLoop host (begin wfd) = _ from hnext] at hended
  cases hended with
  | message _ fs kind' text hcarries hunread hfound =>
    obtain rfl := kind_code_inj (htype.symm.trans hfound.type)
    exact ⟨fs,text,hcarries,hunread,hfound⟩
  | closed _ fs before text' f hopened hcloses hreason hunread hfound =>
    have hclse := htype.symm.trans hfound.type
    cases kind <;> exact absurd hclse (by decide)

/-- The messages that the function takes are those of the bytes in front of the client, and
where it returns 0 with the type of a message it has taken one. -/
theorem nextFrame_message (hample : Ample host) (hstate : wfd.client.state ≠ WS_STATE_CLOSING)
    (herror : wfd.reader.error = false) (kind : Kind) :
    (∀ text rest sent,
      (∃ wfd', nextFrame host wfd = some (0,wfd') ∧ Delivered wfd wfd' kind text sent rest) ↔
        ∃ fs, Carries fs kind text ∧ wfd.reader.unread = encodeAll fs ++ rest ∧
          sent = fs.flatMap answers) ∧
      ∀ wfd', nextFrame host wfd = some (0,wfd') → wfd'.frame_type = kind.opcode.code →
        ∃ text rest sent, Delivered wfd wfd' kind text sent rest := by
  refine ⟨fun text rest sent => ⟨?_,?_⟩,?_⟩
  · rintro ⟨wfd', hnext, hdelivered⟩
    obtain ⟨fs, text', hcarries, hunread, hfound⟩ :=
      typed_delivered hstate herror hnext hdelivered.type
    obtain rfl := holds_inj hdelivered.msg hfound.msg
    rw [hdelivered.unread] at hunread
    exact ⟨fs,hcarries,hunread,List.append_cancel_left (hdelivered.sent.symm.trans hfound.sent)⟩
  · rintro ⟨fs, hcarries, hunread, rfl⟩
    exact carries_delivered hample hstate herror hcarries hunread
  · intro wfd' hnext htype
    obtain ⟨fs, text, -, -, hfound⟩ := typed_delivered hstate herror hnext htype
    exact ⟨text,_,_,hfound⟩

def ampleHost : Host := ⟨fun _ => true,fun _ => 0#8,fun _ _ => true⟩

theorem ampleHost_ample : Ample ampleHost := ⟨fun _ => rfl,fun _ _ => rfl⟩

def helpKey (i : Fin 4) : Byte := BitVec.ofNat 8 (i.val+7)

def he : Frame := ⟨false,.txt,true,.short,helpKey,[0x68#8,0x65#8],by decide⟩

def between : Frame := ⟨true,.ping,true,.short,helpKey,[0x3f#8],by decide⟩

def lp : Frame := ⟨true,.cont,true,.short,helpKey,[0x6c#8,0x70#8],by decide⟩

def bye : Frame := ⟨true,.clse,true,.short,helpKey,[0x03#8,0xe8#8],by decide⟩

theorem he_begun : Begun [he] (some .txt) he.payload :=
  Begun.more (f := he) .nothing (Or.inl ⟨rfl,rfl⟩) rfl

def help : List Byte := [0x68#8,0x65#8,0x6c#8,0x70#8]

theorem help_carries : Carries [he,between,lp] .txt help where
  complete :=
    have hbetween : Begun ([he] ++ [between]) (some .txt) he.payload :=
      .aside he_begun ⟨Or.inl rfl,rfl,rfl⟩
    Complete.last (f := lp) hbetween (Or.inr ⟨rfl,rfl⟩) rfl
  small := by decide
  chars _ := ⟨['h','e','l','p'],by decide⟩

def clientOf (arrivals : List (List Byte)) : FrameData where
  reader := ⟨fun _ => 0#8,4,4,false,arrivals,Nat.le_refl 4,by decide⟩
  msg := .null
  msg_ctrl _ := 0#8
  frame_type := -1
  frame_size := 0
  client := ⟨WS_STATE_OPEN,-1,-1,[]⟩

def helpPieces : List (List Byte) :=
  let bytes := encodeAll [he,between,lp] ++ bye.encode
  [bytes.take 3,bytes.drop 3]

theorem help_unread : (clientOf helpPieces).reader.unread =
    encodeAll [he,between,lp] ++ (encodeAll [] ++ (bye.encode ++ [])) := by decide +kernel

theorem nextFrame_message_help : ∃ wfd', nextFrame ampleHost (clientOf helpPieces) = some (0,wfd') ∧
    Delivered (clientOf helpPieces) wfd' .txt help [response WS_FR_OP_PONG between.payload]
      bye.encode :=
  ((nextFrame_message ampleHost_ample (show WS_STATE_OPEN ≠ WS_STATE_CLOSING by decide) rfl _).1
    _ _ _).mpr ⟨[he,between,lp],help_carries,help_unread,rfl⟩

/-- The memory of the server is safe from every client but one that sends such a length. -/
theorem nextFrame_none_iff (hample : Ample host) (hstate : wfd.client.state ≠ WS_STATE_CLOSING)
    (herror : wfd.reader.error = false) : nextFrame host wfd = none ↔
      ∃ fs text b0 b1 n key tail rest, Ruinous host wfd.reader.unread fs text b0 b1 n key tail rest := by
  constructor
  · intro hnone
    have hended := nextFrame_ended host hstate (reached_begin herror)
    rw [show nextFrameLoop host (begin wfd) = _ from hnone] at hended
    cases hended with
    | ruined fs text b0 b1 n key tail rest hruinous => exact ⟨fs,text,b0,b1,n,key,tail,rest,hruinous⟩
  · rintro ⟨fs, text, b0, b1, n, key, tail, rest, hruinous⟩
    exact ruinous_none hample hstate herror hruinous

def wrappingTail : List Byte := big 8 (2^64-1) ++ (List.ofFn helpKey ++ [0x6c#8])

def wrappingPieces : List (List Byte) := [encodeAll [he] ++ 0x00#8 :: 0xff#8 :: wrappingTail]

theorem nextFrame_none_wraps : nextFrame ampleHost (clientOf wrappingPieces) = none :=
  (nextFrame_none_iff ampleHost_ample (show WS_STATE_OPEN ≠ WS_STATE_CLOSING by decide) rfl).mpr
    ⟨[he],he.payload,0x00#8,0xff#8,2^64-1,helpKey,wrappingTail,[0x6c#8],
      { opened := ⟨.txt,he_begun,by decide,fun _ => ⟨[],['h','e'],by decide⟩⟩
        stream := by decide +kernel
        reserved := rfl
        continues := rfl
        wraps := ⟨rfl,by decide,by decide,rfl,Or.inr ⟨rfl,List.cons_ne_nil _ _⟩⟩ }⟩

end Pauline.WebSocket
