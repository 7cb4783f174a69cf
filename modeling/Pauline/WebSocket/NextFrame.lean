import Pauline.WebSocket.Outcome

/-!
# One message

The turns are taken until a message is complete, or the client closes, or something is
wrong. Which message it is depends on the bytes alone, not on the pieces they come in.
-/

set_option autoImplicit false

namespace Pauline.WebSocket
open Buffer Utf8

variable {host : Host} {s s' : Assembling} {opcode l : ℕ}

/-! ## The loop ends -/

structure Kept (wfd wfd' : FrameData) : Prop where
  room : wfd'.reader.room ≤ wfd.reader.room
  msg : wfd'.msg = wfd.msg
  state : wfd'.client.state = wfd.client.state

def Turn.wfd : Turn → FrameData
  | .returned _ wfd => wfd
  | .broke s => s.wfd
  | .tested s => s.wfd

variable {t : Turn}

theorem wsSendframe_state (client : Client) (msg : List Byte) (type : ℕ) :
    (wsSendframe host client msg type).2.state = client.state := by
  unfold wsSendframe
  split_ifs <;> rfl

theorem doClose_keeps (host : Host) (wfd : FrameData) (close_code : Option ℕ) :
    Kept wfd (doClose host wfd close_code).2 := by
  have hsend (cc : ℕ) : Kept wfd (sendClose host wfd cc).2 :=
    ⟨le_rfl,rfl,wsSendframe_state _ _ _⟩
  unfold doClose
  cases close_code with
  | some cc => exact hsend cc
  | none =>
    simp only
    split_ifs <;> first | exact hsend _ | exact ⟨le_rfl,rfl,wsSendframe_state _ _ _⟩

theorem doPong_keeps (host : Host) (wfd : FrameData) (size : ℕ) : Kept wfd (doPong host wfd size).2 := by
  unfold doPong
  simp only
  split_ifs
  · exact ⟨le_rfl,rfl,wsSendframe_state _ _ _⟩
  · exact ⟨le_rfl,rfl,wsSendframe_state _ _ _⟩

theorem checkFragment_keeps (host : Host) (text : List Byte) : Kept s.wfd (checkFragment host s text).wfd := by
  have hclose := doClose_keeps host s.refuse.wfd (some WS_CLSE_INVUTF8)
  have hdrop : Kept s.wfd (doClose host s.refuse.wfd (some WS_CLSE_INVUTF8)).2 :=
    ⟨hclose.room,hclose.msg,hclose.state⟩
  unfold checkFragment
  simp only
  split_ifs
  · exact hdrop
  · exact ⟨le_rfl,rfl,rfl⟩
  · exact hdrop
  · exact ⟨le_rfl,rfl,rfl⟩

theorem dataFrame_keeps (h : dataFrame host opcode l s = some t) : Kept s.wfd t.wfd := by
  simp only [dataFrame, Option.bind_eq_bind] at h
  obtain ⟨r, hread, h⟩ := Option.bind_eq_some_iff.mp h
  have hle := readFrame_room hread
  split_ifs at h
  · cases h
    exact ⟨hle,rfl,rfl⟩
  · obtain ⟨text, -, h⟩ := Option.bind_eq_some_iff.mp h
    cases h
    have hkept := checkFragment_keeps host (s := { s with
      wfd := { s.wfd with reader := r.reader, frame_size := r.frame_size }
      msg_data := r.buf
      msg_idx_data := r.msg_idx }) text
    exact ⟨hkept.room.trans hle,hkept.msg,hkept.state⟩
  · cases h
    exact ⟨hle,rfl,rfl⟩

theorem readCtrl_keeps {ok : Bool} {size : ℕ} (h : readCtrl host opcode l s = some (ok,size,s')) :
    Kept s.wfd s'.wfd := by
  simp only [readCtrl, Option.bind_eq_bind] at h
  obtain ⟨r, hread, h⟩ := Option.bind_eq_some_iff.mp h
  cases h
  exact ⟨readFrame_room hread,rfl,rfl⟩

theorem pongFrame_keeps (h : pongFrame host opcode l s = some t) : Kept s.wfd t.wfd := by
  simp only [pongFrame, Option.bind_eq_bind] at h
  obtain ⟨⟨ok, size, s'⟩, hread, h⟩ := Option.bind_eq_some_iff.mp h
  have hkept := readCtrl_keeps hread
  split_ifs at h
  · cases h
    exact hkept
  · cases h
    exact ⟨hkept.room,hkept.msg,hkept.state⟩
  · cases h
    exact ⟨hkept.room,hkept.msg,hkept.state⟩
  · cases h
    exact ⟨hkept.room,hkept.msg,hkept.state⟩

theorem pingFrame_keeps (h : pingFrame host opcode l s = some t) : Kept s.wfd t.wfd := by
  simp only [pingFrame, Option.bind_eq_bind] at h
  obtain ⟨⟨ok, size, s'⟩, hread, h⟩ := Option.bind_eq_some_iff.mp h
  have hkept := readCtrl_keeps hread
  have hpong := doPong_keeps host s'.wfd size
  have hboth : Kept s.wfd (doPong host s'.wfd size).2 :=
    ⟨hpong.room.trans hkept.room,hpong.msg.trans hkept.msg,hpong.state.trans hkept.state⟩
  split_ifs at h
  · cases h
    exact hkept
  · cases h
    exact hboth
  · cases h
    exact ⟨hboth.room,hboth.msg,hboth.state⟩

theorem closeFrame_keeps (h : closeFrame host opcode l s = some t) : Kept s.wfd t.wfd := by
  simp only [closeFrame, Option.bind_eq_bind] at h
  obtain ⟨⟨ok, size, s'⟩, hread, h⟩ := Option.bind_eq_some_iff.mp h
  have hkept := readCtrl_keeps hread
  split_ifs at h
  · cases h
    exact hkept
  · cases h
    exact ⟨hkept.room,hkept.msg,hkept.state⟩
  · obtain ⟨-, -, h⟩ := Option.bind_eq_some_iff.mp h
    cases h
    exact ⟨hkept.room,hkept.msg,hkept.state⟩

theorem frameBody_keeps (h : frameBody host opcode l s = some t) : Kept s.wfd t.wfd := by
  unfold frameBody at h
  split_ifs at h
  · cases h
    exact ⟨le_rfl,rfl,rfl⟩
  · exact dataFrame_keeps h
  · exact pongFrame_keeps h
  · exact pingFrame_keeps h
  · exact closeFrame_keeps h

theorem knownFrame_keeps (h : knownFrame host opcode s = some t) : Kept s.wfd t.wfd := by
  by_cases hclosing : s.wfd.client.state = WS_STATE_CLOSING ∧ opcode ≠ WS_FR_OP_CLSE
  · rw [knownFrame, if_pos hclosing] at h
    cases h
    exact ⟨le_rfl,rfl,rfl⟩
  · rw [knownFrame, if_neg hclosing] at h
    have hkept := frameBody_keeps h
    exact ⟨hkept.room.trans (nextByte_room s.wfd.reader),hkept.msg,hkept.state⟩

/-- A turn reads a byte or gives up. -/
theorem turn_keeps (h : turn host s = some t) : Kept s.wfd t.wfd ∧
    ((∃ wfd, t = .returned (-1) wfd) ∨ t.wfd.reader.room < s.wfd.reader.room) := by
  have hle := nextByte_room s.wfd.reader
  have hfirst := nextByte_room_lt (r := s.wfd.reader)
  simp only [turn] at h
  split_ifs at h with hbyte
  · cases h
    exact ⟨⟨hle,rfl,rfl⟩,Or.inl ⟨_,rfl⟩⟩
  · cases h
    exact ⟨⟨hle,rfl,rfl⟩,Or.inr (hfirst hbyte)⟩
  · cases h
    exact ⟨⟨hle,rfl,rfl⟩,Or.inr (hfirst hbyte)⟩
  · have hkept := knownFrame_keeps h
    exact ⟨⟨hkept.room.trans hle,hkept.msg,hkept.state⟩,Or.inr (hkept.room.trans_lt (hfirst hbyte))⟩
  · cases h
    exact ⟨⟨hle,rfl,rfl⟩,Or.inr (hfirst hbyte)⟩

theorem tested_keeps (h : turn host s = some (.tested s')) :
    s'.wfd.reader.room < s.wfd.reader.room ∧ s'.wfd.msg = s.wfd.msg := by
  obtain ⟨hkept, ⟨wfd, h⟩ | hlt⟩ := turn_keeps h
  · cases h
  · exact ⟨hlt,hkept.msg⟩

/-! ## The function -/

def finish (s : Assembling) : Option (ℤ × FrameData) :=
  if s.wfd.reader.error then do
    free s.msg_data
    some (-1,{ s.wfd with msg := .null })
  else some (0,{ s.wfd with msg := s.msg_data })

def nextFrameLoop (host : Host) (s : Assembling) : Option (ℤ × FrameData) :=
  match _h : turn host s with
  | none => none
  | some (.returned value wfd) => some (value,wfd)
  | some (.broke s') => finish s'
  | some (.tested s') =>
    if !s'.is_fin && !s'.wfd.reader.error then nextFrameLoop host s' else finish s'
termination_by s.wfd.reader.room
decreasing_by exact (tested_keeps _h).1

def begin (wfd : FrameData) : Assembling where
  wfd := { wfd with frame_size := 0, frame_type := -1, msg := .null }
  msg_data := .null
  msg_idx_data := 0
  utf8_state := UTF8_ACCEPT
  is_fin := false

def nextFrame (host : Host) (wfd : FrameData) : Option (ℤ × FrameData) :=
  nextFrameLoop host (begin wfd)

theorem nextFrameLoop_goes (h : turn host s = some (.tested s')) (hfin : s'.is_fin = false)
    (herror : s'.wfd.reader.error = false) :
    nextFrameLoop host s = nextFrameLoop host s' := by
  rw [nextFrameLoop]
  split <;> rename_i hturn <;> rw [h] at hturn
  · cases hturn
  · cases hturn
  · cases hturn
  · cases hturn
    rw [hfin, herror]
    rfl

theorem nextFrameLoop_ends (h : turn host s = some (.tested s')) (hfin : s'.is_fin = true) :
    nextFrameLoop host s = finish s' := by
  rw [nextFrameLoop]
  split <;> rename_i hturn <;> rw [h] at hturn
  · cases hturn
  · cases hturn
  · cases hturn
  · cases hturn
    rw [hfin]
    rfl

theorem nextFrameLoop_returns {value : ℤ} {wfd : FrameData}
    (h : turn host s = some (.returned value wfd)) : nextFrameLoop host s = some (value,wfd) := by
  rw [nextFrameLoop]
  split <;> rename_i hturn <;> rw [h] at hturn
  · cases hturn
  · cases hturn
    rfl
  · cases hturn
  · cases hturn

theorem finish_refused (herror : s.wfd.reader.error = true) (hlive : s.msg_data ≠ .dangling) :
    ∃ wfd, finish s = some (-1,wfd) := by
  unfold finish
  rw [if_pos herror]
  cases hdata : s.msg_data with
  | null => exact ⟨_,rfl⟩
  | chunk c => exact ⟨_,rfl⟩
  | dangling => exact absurd hdata hlive

theorem GivesUp.refused (h : GivesUp (turn host s)) :
    ∃ wfd, nextFrameLoop host s = some (-1,wfd) := by
  obtain ⟨wfd, hturn⟩ | ⟨s', hturn | hturn, herror, hlive⟩ := h
  · exact ⟨wfd,nextFrameLoop_returns hturn⟩
  · obtain ⟨wfd, hfinish⟩ := finish_refused herror hlive
    refine ⟨wfd,?_⟩
    rw [nextFrameLoop]
    split <;> rename_i hturn' <;> rw [hturn] at hturn' <;> cases hturn'
    exact hfinish
  · obtain ⟨wfd, hfinish⟩ := finish_refused herror hlive
    refine ⟨wfd,?_⟩
    rw [nextFrameLoop]
    split <;> rename_i hturn' <;> rw [hturn] at hturn' <;> cases hturn'
    rw [herror, Bool.not_true, Bool.and_false]
    exact hfinish

theorem Ruins.none (h : Ruins (turn host s)) : nextFrameLoop host s = none := by
  obtain hturn | ⟨s', hturn, herror, hdangling⟩ := h
  · rw [nextFrameLoop]
    split <;> rename_i hturn' <;> rw [hturn] at hturn' <;> cases hturn'
  · rw [nextFrameLoop]
    split <;> rename_i hturn' <;> rw [hturn] at hturn' <;> cases hturn'
    rw [finish, if_pos herror, hdangling]
    rfl

theorem finish_keeps {value : ℤ} {wfd : FrameData} (h : finish s = some (value,wfd)) :
    wfd.reader.room = s.wfd.reader.room ∧ wfd.client = s.wfd.client := by
  unfold finish at h
  split_ifs at h
  · obtain ⟨-, -, h⟩ := Option.bind_eq_some_iff.mp h
    cases h
    exact ⟨rfl,rfl⟩
  · cases h
    exact ⟨rfl,rfl⟩

theorem nextFrameLoop_keeps {value : ℤ} {wfd : FrameData}
    (h : nextFrameLoop host s = some (value,wfd)) : wfd.client.state = s.wfd.client.state ∧
      (value = -1 ∨ wfd.reader.room < s.wfd.reader.room) := by
  induction hroom : s.wfd.reader.room using Nat.strong_induction_on generalizing s with
  | _ room ih =>
    rw [nextFrameLoop] at h
    split at h
    · cases h
    · rename_i hturn
      cases h
      obtain ⟨hkept, ⟨wfd', heq⟩ | hlt⟩ := turn_keeps hturn
      · cases heq
        exact ⟨hkept.state,Or.inl rfl⟩
      · exact ⟨hkept.state,Or.inr (hroom ▸ hlt)⟩
    · rename_i s' hturn
      obtain ⟨hsame, hclient⟩ := finish_keeps h
      obtain ⟨hkept, ⟨wfd', heq⟩ | hlt⟩ := turn_keeps hturn
      · cases heq
      · exact ⟨(congrArg Client.state hclient).trans hkept.state,
          Or.inr (hsame.trans_lt (hroom ▸ hlt))⟩
    · rename_i s' hturn
      have hlt := hroom ▸ (tested_keeps hturn).1
      have hkept := (turn_keeps hturn).1
      split_ifs at h
      · obtain ⟨hstate, hread⟩ := ih _ hlt h rfl
        exact ⟨hstate.trans hkept.state,hread.imp_right fun hle => hle.trans hlt⟩
      · obtain ⟨hsame, hclient⟩ := finish_keeps h
        exact ⟨(congrArg Client.state hclient).trans hkept.state,Or.inr (hsame.trans_lt hlt)⟩

/-- A call that succeeds has read a byte. -/
theorem nextFrame_room {value : ℤ} {wfd wfd' : FrameData} (h : nextFrame host wfd = some (value,wfd'))
    (hvalue : 0 ≤ value) : wfd'.reader.room < wfd.reader.room := by
  obtain ⟨-, hfail | hlt⟩ := nextFrameLoop_keeps h
  · omega
  · exact hlt

theorem nextFrame_state {value : ℤ} {wfd wfd' : FrameData}
    (h : nextFrame host wfd = some (value,wfd')) : wfd'.client.state = wfd.client.state :=
  (nextFrameLoop_keeps h).1

end Pauline.WebSocket
