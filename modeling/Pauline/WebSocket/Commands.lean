import Pauline.WebSocket.Session
import Pauline.Server.Messages

/-!
# The commands of a client

The callback of the command port puts each message into the queue of commands. It reads a
message as a C string, so it is cut at its first zero, and an empty message is not there at
all.
-/

set_option autoImplicit false

namespace Pauline.WebSocket
open Buffer Utf8 Messages

variable {host : Host} {wfd : FrameData}

/-! ## The calls of a callback -/

theorem Ending.Left.inj {wfd' : FrameData} {ending ending' : Ending}
    (hstate : wfd.client.state ≠ WS_STATE_CLOSING) (h : ending.Left wfd wfd')
    (h' : ending'.Left wfd wfd') : ending = ending' := by
  cases ending with
  | closed sent =>
    cases ending' with
    | closed sent' => exact congrArg _ (List.append_cancel_left (h.2.symm.trans h'.2))
    | broken => exact absurd (Eq.trans (Eq.symm h') h.1) hstate
    | ruined => exact h'.elim
  | broken =>
    cases ending' with
    | closed sent' => exact absurd (Eq.trans (Eq.symm h) h'.1) hstate
    | broken => rfl
    | ruined => exact h'.elim
  | ruined => exact h.elim

def record (calls : List (Option (List Byte) × ℕ × ℤ)) (msg : Option (List Byte)) (size : ℕ)
    (type : ℤ) : Option (List (Option (List Byte) × ℕ × ℤ)) := some (calls ++ [(msg,size,type)])

def callOf (m : Kind × List Byte) : Option (List Byte) × ℕ × ℤ :=
  (handed m.2,m.2.length,m.1.opcode.code)

theorem hear_record (calls : List (Option (List Byte) × ℕ × ℤ)) (ms : List (Kind × List Byte)) :
    hear record calls ms = some (calls ++ ms.map callOf) := by
  induction ms generalizing calls with
  | nil => exact congrArg some (List.append_nil _).symm
  | cons m ms ih =>
    rw [List.map_cons, List.append_cons]
    exact ih _

/-- The calls, and what is left of the connection, are what the client has said. -/
theorem serve_calls (hample : Ample host) (herror : wfd.reader.error = false)
    (hstate : wfd.client.state ≠ WS_STATE_CLOSING)
    (calls : List (Option (List Byte) × ℕ × ℤ)) (ending : Ending) :
    (∃ wfd', ending.Left wfd wfd' ∧ serve host record [] wfd = some (calls,wfd')) ↔
      ending ≠ .ruined ∧ ∃ ms, Session host wfd.reader.unread ms ending ∧ calls = ms.map callOf := by
  constructor
  · rintro ⟨wfd', hleft, hserve⟩
    refine ⟨fun h => by rw [h] at hleft; exact hleft,?_⟩
    obtain ⟨ms, ending', hsession⟩ := session_exists host wfd.reader.unread
    obtain ⟨-, hnone⟩ | ⟨wfd'', hleft', hheard⟩ := serve_session hample record hsession rfl herror hstate
    · rw [hnone] at hserve
      cases hserve
    · rw [hheard, hear_record] at hserve
      cases hserve
      obtain rfl := hleft.inj hstate hleft'
      exact ⟨ms,hsession,rfl⟩
  · rintro ⟨hnot, ms, hsession, rfl⟩
    obtain ⟨hruined, -⟩ | ⟨wfd', hleft, hheard⟩ := serve_session hample record hsession rfl herror hstate
    · exact absurd hruined hnot
    · exact ⟨wfd',hleft,by rw [hheard, hear_record]; rfl⟩

theorem bye_session : Session ampleHost (encodeAll [] ++ (bye.encode ++ [])) []
    (.closed [response WS_FR_OP_CLSE bye.payload]) := by
  have hreply : closeReply bye.payload = bye.payload := by decide
  have hopened : Opened [] none [] := ⟨.nothing,Nat.zero_le _,fun h => nomatch h⟩
  rw [← hreply]
  exact .closed hopened ⟨rfl,rfl,rfl⟩ fun h => absurd h (by decide)

theorem help_session : Session ampleHost (clientOf helpPieces).reader.unread [(.txt,help)]
    (.closed [response WS_FR_OP_PONG between.payload,response WS_FR_OP_CLSE bye.payload]) := by
  rw [help_unread]
  exact .message help_carries bye_session

theorem serve_calls_help : ∃ wfd', (Ending.closed [response WS_FR_OP_PONG between.payload,
      response WS_FR_OP_CLSE bye.payload]).Left (clientOf helpPieces) wfd' ∧
    serve ampleHost record [] (clientOf helpPieces) = some ([(some (help ++ [0#8]),4,1)],wfd') :=
  (serve_calls ampleHost_ample rfl (show WS_STATE_OPEN ≠ WS_STATE_CLOSING by decide) _ _).mpr
    ⟨(fun h => nomatch h),[(.txt,help)],help_session,rfl⟩

/-! ## The queue -/

def charOf (b : Byte) : Char := Char.ofNat b.toNat

def charsOf (text : List Byte) : List Char := text.map charOf

def msgPushInMsg (b : MsgBuffer) (msg : Option (List Byte)) (_size : ℕ) (_type : ℤ) :
    Option MsgBuffer :=
  msg.map fun msg => b.putMsg (charsOf msg)

theorem charsOf_zero (text : List Byte) : charsOf (text ++ [0#8]) = charsOf text ++ [nul] := by
  rw [charsOf, List.map_append]
  rfl

theorem cString_zero (text : List Char) : cString (text ++ [nul]) = cString text := by
  induction text with
  | nil => rfl
  | cons c text ih =>
    unfold cString at ih ⊢
    rw [List.cons_append, List.takeWhile_cons, List.takeWhile_cons, ih]

theorem putMsg_zero (b : MsgBuffer) (text : List Char) : b.putMsg (text ++ [nul]) = b.putMsg text := by
  unfold MsgBuffer.putMsg strncpy
  rw [cString_zero]

/-- The messages go into the queue in their order, up to the first empty one. -/
theorem hear_msgPushInMsg (b : MsgBuffer) (ms : List (Kind × List Byte)) :
    hear msgPushInMsg b ms = if ∃ m ∈ ms, m.2 = [] then none
      else some (ms.foldl (fun b m => b.putMsg (charsOf m.2)) b) := by
  induction ms generalizing b with
  | nil => rfl
  | cons m ms ih =>
    have hcons : hear msgPushInMsg b (m :: ms) = (msgPushInMsg b (handed m.2) m.2.length
      m.1.opcode.code).bind fun b => hear msgPushInMsg b ms := rfl
    rw [hcons]
    by_cases hempty : m.2 = []
    · rw [if_pos ⟨m,List.mem_cons_self,hempty⟩, handed, if_pos hempty]
      rfl
    · have hstep : msgPushInMsg b (handed m.2) m.2.length m.1.opcode.code =
          some (b.putMsg (charsOf m.2)) := by
        rw [handed, if_neg hempty, msgPushInMsg, Option.map_some, charsOf_zero, putMsg_zero]
      rw [hstep, Option.bind_some, ih, List.foldl_cons]
      have hiff : (∃ m' ∈ m :: ms, m'.2 = []) ↔ ∃ m' ∈ ms, m'.2 = [] := by
        rw [List.exists_mem_cons_iff]
        exact or_iff_right hempty
      exact (if_congr hiff rfl rfl).symm

/-- What the server takes from a client, and what a client can do to its memory. -/
theorem serve_commands (hample : Ample host) (herror : wfd.reader.error = false)
    (hstate : wfd.client.state ≠ WS_STATE_CLOSING) (b : MsgBuffer) :
    (∃ ms ending, Session host wfd.reader.unread ms ending) ∧
      ∀ ms ending, Session host wfd.reader.unread ms ending →
        (serve host msgPushInMsg b wfd = none ↔ ending = .ruined ∨ ∃ m ∈ ms, m.2 = []) ∧
        ∀ b' wfd', serve host msgPushInMsg b wfd = some (b',wfd') →
          b' = ms.foldl (fun b m => b.putMsg (charsOf m.2)) b ∧ ending.Left wfd wfd' := by
  refine ⟨session_exists host wfd.reader.unread,fun ms ending hsession => ?_⟩
  obtain ⟨hruined, hnone⟩ | ⟨wfd', hleft, hheard⟩ :=
    serve_session hample msgPushInMsg hsession rfl herror hstate
  · rw [hnone]
    exact ⟨⟨fun _ => Or.inl hruined,fun _ => rfl⟩,fun _ _ h => by cases h⟩
  · have hnot : ending ≠ .ruined := fun h => by rw [h] at hleft; exact hleft
    rw [hheard, hear_msgPushInMsg]
    split_ifs with hempty
    · exact ⟨⟨fun _ => Or.inr hempty,fun _ => rfl⟩,fun _ _ h => by cases h⟩
    · refine ⟨⟨fun h => (by cases h),fun h => absurd (h.resolve_left hnot) hempty⟩,fun b' wfd'' h => ?_⟩
      cases h
      exact ⟨rfl,hleft⟩

def nothing : Frame := ⟨true,.txt,true,.short,helpKey,[],by decide⟩

theorem nothing_carries : Carries [nothing] .txt [] where
  complete := Complete.last (f := nothing) .nothing (Or.inl ⟨rfl,rfl⟩) rfl
  small := Nat.zero_le _
  chars _ := Text.nil

def nothingPieces : List (List Byte) := [nothing.encode ++ bye.encode]

theorem nothing_unread : (clientOf nothingPieces).reader.unread =
    encodeAll [nothing] ++ (encodeAll [] ++ (bye.encode ++ [])) := by decide +kernel

theorem nothing_session : Session ampleHost (clientOf nothingPieces).reader.unread [(.txt,[])]
    (.closed [response WS_FR_OP_CLSE bye.payload]) := by
  rw [nothing_unread]
  exact .message nothing_carries bye_session

def noMessages : MsgBuffer := ⟨true,0,0,fun _ => [],⟨false,false⟩⟩

theorem serve_commands_nothing :
    serve ampleHost msgPushInMsg noMessages (clientOf nothingPieces) = none ∧
      ∃ wfd', serve ampleHost msgPushInMsg noMessages (clientOf helpPieces) =
        some (noMessages.putMsg ['h','e','l','p'],wfd') := by
  have hopen : WS_STATE_OPEN ≠ WS_STATE_CLOSING := by decide
  constructor
  · exact ((serve_commands ampleHost_ample rfl hopen _).2 _ _ nothing_session).1.mpr
      (Or.inr ⟨_,List.mem_singleton_self _,rfl⟩)
  · have herror : (clientOf helpPieces).reader.error = false := rfl
    obtain ⟨hnone, hsome⟩ :=
      (serve_commands ampleHost_ample herror hopen noMessages).2 _ _ help_session
    cases hserve : serve ampleHost msgPushInMsg noMessages (clientOf helpPieces) with
    | none =>
      obtain hruined | ⟨m, hm, hempty⟩ := hnone.mp hserve
      · cases hruined
      · obtain rfl := List.mem_singleton.mp hm
        cases hempty
    | some r =>
      obtain ⟨b, wfd'⟩ := r
      obtain ⟨rfl, -⟩ := hsome b wfd' hserve
      exact ⟨wfd',rfl⟩

end Pauline.WebSocket
