import Pauline.WebSocket.Message

/-!
# A connection

One message of a client after the other is handed on until the client closes, or something
is wrong. A close is answered once.
-/

set_option autoImplicit false

namespace Pauline.WebSocket
open Buffer Utf8

def Pointer.object : Pointer → Option (List Byte)
  | .chunk c => some (slice c.bytes 0 c.room)
  | _ => none

def hangUp (host : Host) (wfd : FrameData) : FrameData :=
  if wfd.client.state ≠ WS_STATE_CLOSING then
    (doClose host { wfd with client := { wfd.client with state := WS_STATE_CLOSING } } none).2
  else wfd

def serve {σ : Type} (host : Host) (onmessage : σ → Option (List Byte) → ℕ → ℤ → Option σ) (q : σ)
    (wfd : FrameData) : Option (σ × FrameData) :=
  match _h : nextFrame host wfd with
  | none => none
  | some (ret,wfd') =>
    if _hret : 0 ≤ ret then
      if (wfd'.frame_type = WS_FR_OP_TXT ∨ wfd'.frame_type = WS_FR_OP_BIN) ∧
          !wfd'.reader.error then do
        let q ← onmessage q wfd'.msg.object wfd'.frame_size wfd'.frame_type
        free wfd'.msg
        serve host onmessage q wfd'
      else if wfd'.frame_type = WS_FR_OP_CLSE ∧ !wfd'.reader.error then do
        let wfd' := hangUp host wfd'
        free wfd'.msg
        some (q,wfd')
      else do
        free wfd'.msg
        serve host onmessage q wfd'
    else some (q,wfd')
termination_by wfd.reader.room
decreasing_by all_goals exact nextFrame_room _h _hret

/-! ## What a client says -/

inductive Ending
  /-- The client has closed, and these frames have been sent. -/
  | closed (sent : List (List Byte))
  | broken
  | ruined

def Ending.after (sent : List (List Byte)) : Ending → Ending
  | .closed more => .closed (sent ++ more)
  | .broken => .broken
  | .ruined => .ruined

def Closable (code : ℕ) : Prop :=
  1000 ≤ code ∧ code ≤ 1003 ∨ 1007 ≤ code ∧ code ≤ 1011 ∨ 3000 ≤ code ∧ code ≤ 4999

instance (code : ℕ) : Decidable (Closable code) := inferInstanceAs (Decidable (_ ∨ _))

def closeReply (payload : List Byte) : List Byte :=
  match payload with
  | [_] => big 2 WS_CLSE_PROTERR
  | [hi,lo] => if Closable (hi.toNat*256+lo.toNat) then payload else big 2 WS_CLSE_PROTERR
  | _ => payload

inductive Session (host : Host) : List Byte → List (Kind × List Byte) → Ending → Prop
  | message {fs : List Frame} {kind : Kind} {text rest : List Byte}
      {ms : List (Kind × List Byte)} {ending : Ending} :
      Carries fs kind text → Session host rest ms ending →
      Session host (encodeAll fs ++ rest) ((kind,text) :: ms) (ending.after (fs.flatMap answers))
  | closed {fs : List Frame} {before : Option Kind} {text rest : List Byte} {f : Frame} :
      Opened fs before text → f.Closes → Reason f.payload →
      Session host (encodeAll fs ++ (f.encode ++ rest)) []
        (.closed (fs.flatMap answers ++ [response WS_FR_OP_CLSE (closeReply f.payload)]))
  | ruined {unread text tail rest : List Byte} {fs : List Frame} {b0 b1 : Byte} {n : ℕ}
      {key : Fin 4 → Byte} : Ruinous host unread fs text b0 b1 n key tail rest →
      Session host unread [] .ruined
  | broken {unread : List Byte} :
      (∀ fs kind text rest, Carries fs kind text → unread ≠ encodeAll fs ++ rest) →
      (∀ (fs : List Frame) (before : Option Kind) (text : List Byte) (f : Frame) (rest : List Byte),
        Opened fs before text → f.Closes → Reason f.payload →
        unread ≠ encodeAll fs ++ (f.encode ++ rest)) →
      (∀ fs text b0 b1 n key tail rest, ¬Ruinous host unread fs text b0 b1 n key tail rest) →
      Session host unread [] .broken

/-! ## The answer to a close -/

variable {host : Host} {wfd wfd' : FrameData}

theorem wsSendframe_ample (hample : Ample host) (client : Client) (msg : List Byte) (type : ℕ) :
    ∃ ret, wsSendframe host client msg type =
      (ret,{ client with sent := client.sent ++ [response type msg] }) := by
  rw [wsSendframe, if_pos (by rw [hample.memory, hample.network]; rfl)]
  exact ⟨_,rfl⟩

theorem code_of_bytes (hi lo : Byte) : hi.toNat*256 ||| lo.toNat = hi.toNat*256+lo.toNat := by
  have hlo := lo.isLt
  rw [show hi.toNat*256 = 2^8*hi.toNat by omega, ← Nat.two_pow_add_eq_or_of_lt hlo]

theorem closable_iff (code : ℕ) : ¬Closable code ↔
    (code < 1000 ∨ 1003 < code) ∧ (code < 1007 ∨ 1011 < code) ∧ (code < 3000 ∨ 4999 < code) := by
  unfold Closable
  omega

theorem sendClose_client (hample : Ample host) (wfd : FrameData) (cc : ℕ) :
    (sendClose host wfd cc).2.client =
      { wfd.client with sent := wfd.client.sent ++ [response WS_FR_OP_CLSE
        [BitVec.ofNat 8 (cc/256),BitVec.ofNat 8 (cc % 256)]] } := by
  obtain ⟨ret, hsend⟩ := wsSendframe_ample hample wfd.client
    (slice (put wfd.msg_ctrl 0 [BitVec.ofNat 8 (cc/256),BitVec.ofNat 8 (cc % 256)]) 0 2) WS_FR_OP_CLSE
  have hslice : slice (put wfd.msg_ctrl 0 [BitVec.ofNat 8 (cc/256),BitVec.ofNat 8 (cc % 256)]) 0 2 =
      [BitVec.ofNat 8 (cc/256),BitVec.ofNat 8 (cc % 256)] := slice_put _ _ _ _ rfl
  rw [hslice] at hsend
  simp only [sendClose, hslice, hsend]

theorem doClose_client (hample : Ample host) (wfd : FrameData) {payload : List Byte}
    (hsize : wfd.frame_size = payload.length) (hctrl : slice wfd.msg_ctrl 0 payload.length = payload) :
    (doClose host wfd none).2.client = { wfd.client with
      sent := wfd.client.sent ++ [response WS_FR_OP_CLSE (closeReply payload)] } := by
  have hproterr : [BitVec.ofNat 8 (WS_CLSE_PROTERR/256),BitVec.ofNat 8 (WS_CLSE_PROTERR % 256)] =
      big 2 WS_CLSE_PROTERR := by decide
  have hrefuses := sendClose_client hample wfd WS_CLSE_PROTERR
  rw [hproterr] at hrefuses
  obtain ⟨ret, hecho⟩ := wsSendframe_ample hample wfd.client payload WS_FR_OP_CLSE
  simp only [doClose]
  rw [hsize, hctrl, hecho]
  match payload, hctrl with
  | [], _ => rfl
  | [b], hctrl =>
    have hcode : (wfd.msg_ctrl 0).toNat < 1000 := (wfd.msg_ctrl 0).isLt.trans (by decide)
    rw [show [b].length = 1 from rfl, if_neg (by decide), if_pos rfl, if_pos (by omega)]
    exact hrefuses
  | [hi,lo], hctrl =>
    obtain ⟨rfl, rfl⟩ : wfd.msg_ctrl 0 = hi ∧ wfd.msg_ctrl 1 = lo := by
      have hbytes : [wfd.msg_ctrl 0,wfd.msg_ctrl 1] = [hi,lo] := hctrl
      exact ⟨(List.cons.inj hbytes).1,(List.cons.inj (List.cons.inj hbytes).2).1⟩
    rw [show [wfd.msg_ctrl 0,wfd.msg_ctrl 1].length = 2 from rfl, if_neg (by decide),
      if_neg (show ¬(2 : ℕ) = 1 by decide), code_of_bytes]
    simp only [← closable_iff, closeReply]
    by_cases hclosable : Closable ((wfd.msg_ctrl 0).toNat*256+(wfd.msg_ctrl 1).toNat)
    · rw [if_neg (not_not.mpr hclosable), if_pos hclosable]
    · rw [if_pos hclosable, if_neg hclosable]
      exact hrefuses
  | b :: c :: d :: bs, _ =>
    rw [if_pos (Or.inr (by simp only [List.length_cons]; omega))]
    rfl

theorem hangUp_closes (hample : Ample host) {payload rest : List Byte} {sent : List (List Byte)}
    (hstate : wfd.client.state ≠ WS_STATE_CLOSING) (h : HungUp wfd wfd' payload sent rest) :
    (hangUp host wfd').msg = .null ∧ (hangUp host wfd').client.state = WS_STATE_CLOSING ∧
      (hangUp host wfd').client.sent =
        wfd.client.sent ++ (sent ++ [response WS_FR_OP_CLSE (closeReply payload)]) := by
  have hclient := doClose_client hample
    { wfd' with client := { wfd'.client with state := WS_STATE_CLOSING } } h.size h.ctrl
  rw [hangUp, if_pos (by rwa [h.state])]
  refine ⟨(doClose_keeps host _ none).msg.trans h.msg,by rw [hclient],?_⟩
  rw [hclient, h.sent, List.append_assoc]

/-! ## One call of the loop -/

section Loop
variable {σ : Type} {onmessage : σ → Option (List Byte) → ℕ → ℤ → Option σ} {q : σ}
variable {kind : Kind} {text payload rest : List Byte} {sent : List (List Byte)}

def handed (text : List Byte) : Option (List Byte) :=
  if text = [] then none else some (text ++ [0#8])

theorem Holds.handed {p : Pointer} (h : Holds p true text) :
    p.object = handed text ∧ free p = some () := by
  unfold WebSocket.handed
  cases p with
  | null => exact ⟨(if_pos h).symm,rfl⟩
  | chunk c =>
    rw [if_neg h.1]
    exact ⟨congrArg some h.2,rfl⟩
  | dangling => exact h.elim

theorem serve_message (hnext : nextFrame host wfd = some (0,wfd'))
    (h : Delivered wfd wfd' kind text sent rest) : serve host onmessage q wfd =
      (onmessage q (handed text) text.length kind.opcode.code).bind
        fun q => serve host onmessage q wfd' := by
  obtain ⟨hobject, hfree⟩ := h.msg.handed
  have htype : wfd'.frame_type = WS_FR_OP_TXT ∨ wfd'.frame_type = WS_FR_OP_BIN := by
    rw [h.type]
    cases kind
    · exact Or.inl rfl
    · exact Or.inr rfl
  rw [serve]
  split <;> rename_i heq <;> rw [hnext] at heq <;> cases heq
  rw [dif_pos le_rfl, if_pos ⟨htype,by rw [h.error]; rfl⟩, hobject, hfree, h.size, h.type]
  rfl

theorem serve_closed (hnext : nextFrame host wfd = some (0,wfd'))
    (h : HungUp wfd wfd' payload sent rest) (hmsg : (hangUp host wfd').msg = .null) :
    serve host onmessage q wfd = some (q,hangUp host wfd') := by
  have htype : ¬(wfd'.frame_type = WS_FR_OP_TXT ∨ wfd'.frame_type = WS_FR_OP_BIN) := by
    rw [h.type]
    decide
  rw [serve]
  split <;> rename_i heq <;> rw [hnext] at heq <;> cases heq
  rw [dif_pos le_rfl, if_neg fun hor => htype hor.1, if_pos ⟨h.type,by rw [h.error]; rfl⟩]
  simp only [hmsg]
  rfl

theorem serve_refused (hnext : nextFrame host wfd = some (-1,wfd')) :
    serve host onmessage q wfd = some (q,wfd') := by
  rw [serve]
  split <;> rename_i heq <;> rw [hnext] at heq <;> cases heq
  exact dif_neg (by decide)

theorem serve_ruined (hnext : nextFrame host wfd = none) : serve host onmessage q wfd = none := by
  rw [serve]
  split
  · rfl
  · rename_i heq
    rw [hnext] at heq
    cases heq

/-! ## A whole connection -/

def hear (onmessage : σ → Option (List Byte) → ℕ → ℤ → Option σ) (q : σ)
    (ms : List (Kind × List Byte)) : Option σ :=
  ms.foldlM (fun q m => onmessage q (handed m.2) m.2.length m.1.opcode.code) q

def Ending.Left (wfd wfd' : FrameData) : Ending → Prop
  | .closed sent => wfd'.client.state = WS_STATE_CLOSING ∧
      wfd'.client.sent = wfd.client.sent ++ sent
  | .broken => wfd'.client.state = wfd.client.state
  | .ruined => False

theorem Ending.Left.after {wfd'' : FrameData} {ending : Ending}
    (hsent : wfd'.client.sent = wfd.client.sent ++ sent)
    (hstate : wfd'.client.state = wfd.client.state) (h : ending.Left wfd' wfd'') :
    (ending.after sent).Left wfd wfd'' := by
  cases ending with
  | closed more => exact ⟨h.1,by rw [h.2, hsent, List.append_assoc]⟩
  | broken => exact Eq.trans h hstate
  | ruined => exact h

/-- What a client says is what the callback is called for. -/
theorem serve_session (hample : Ample host)
    (onmessage : σ → Option (List Byte) → ℕ → ℤ → Option σ) {unread : List Byte}
    {ms : List (Kind × List Byte)} {ending : Ending} (hsession : Session host unread ms ending)
    (hunread : wfd.reader.unread = unread) (herror : wfd.reader.error = false)
    (hstate : wfd.client.state ≠ WS_STATE_CLOSING) :
    (ending = .ruined ∧ ∀ q, serve host onmessage q wfd = none) ∨
      ∃ wfd', ending.Left wfd wfd' ∧
        ∀ q, serve host onmessage q wfd = (hear onmessage q ms).map fun q => (q,wfd') := by
  induction hsession generalizing wfd with
  | message hcarries hsession ih =>
    obtain ⟨wfd', hnext, hdelivered⟩ := carries_delivered hample hstate herror hcarries hunread
    obtain ⟨rfl, hnone⟩ | ⟨wfd'', hleft, hserve⟩ := ih hdelivered.unread hdelivered.error
      (by rwa [hdelivered.state])
    · refine Or.inl ⟨rfl,fun q => ?_⟩
      rw [serve_message hnext hdelivered]
      exact Option.bind_eq_none_iff.mpr fun q' _ => hnone q'
    · refine Or.inr ⟨wfd'',hleft.after hdelivered.sent hdelivered.state,fun q => ?_⟩
      rw [serve_message hnext hdelivered, hear, List.foldlM_cons, Option.bind_eq_bind,
        Option.map_bind]
      exact congrArg _ (funext hserve)
  | closed hopened hcloses hreason =>
    obtain ⟨wfd', hnext, hhung⟩ := closes_hungUp hample hstate herror hopened hcloses hreason hunread
    obtain ⟨hmsg, hclosing, hsent⟩ := hangUp_closes hample hstate hhung
    exact Or.inr ⟨_,⟨hclosing,hsent⟩,fun q => serve_closed hnext hhung hmsg⟩
  | ruined hruinous =>
    rw [← hunread] at hruinous
    exact Or.inl ⟨rfl,fun q => serve_ruined (ruinous_none hample hstate herror hruinous)⟩
  | broken hmessage hclose hruin =>
    right
    have hended := nextFrame_ended host hstate (reached_begin herror)
    cases hresult : nextFrame host wfd with
    | none =>
      rw [show nextFrameLoop host (begin wfd) = _ from hresult] at hended
      cases hended with
      | ruined fs text b0 b1 n key tail rest hruinous =>
        rw [hunread] at hruinous
        exact absurd hruinous (hruin _ _ _ _ _ _ _ _)
    | some result =>
      rw [show nextFrameLoop host (begin wfd) = _ from hresult] at hended
      cases hended with
      | refused wfd' => exact ⟨wfd',nextFrame_state hresult,fun q => serve_refused hresult⟩
      | message wfd' fs kind text hcarries hstream hfound =>
        rw [hunread] at hstream
        exact absurd hstream (hmessage fs kind text _ hcarries)
      | closed wfd' fs before text f hopened hcloses hreason hstream hfound =>
        rw [hunread] at hstream
        exact absurd hstream (hclose fs before text f _ hopened hcloses hreason)

/-- Everything that a client can send says something. -/
theorem session_exists (host : Host) (unread : List Byte) : ∃ ms ending, Session host unread ms ending := by
  induction hlen : unread.length using Nat.strong_induction_on generalizing unread with
  | _ n ih =>
    by_cases hmessage : ∀ fs kind text rest, Carries fs kind text → unread ≠ encodeAll fs ++ rest
    · by_cases hclose : ∀ (fs : List Frame) (before : Option Kind) (text : List Byte) (f : Frame)
          (rest : List Byte), Opened fs before text → f.Closes → Reason f.payload →
            unread ≠ encodeAll fs ++ (f.encode ++ rest)
      · by_cases hruin : ∀ fs text b0 b1 n key tail rest,
            ¬Ruinous host unread fs text b0 b1 n key tail rest
        · exact ⟨_,_,.broken hmessage hclose hruin⟩
        · push Not at hruin
          obtain ⟨fs, text, b0, b1, n, key, tail, rest, hruinous⟩ := hruin
          exact ⟨_,_,.ruined hruinous⟩
      · push Not at hclose
        obtain ⟨fs, before, text, f, rest, hopened, hcloses, hreason, rfl⟩ := hclose
        exact ⟨_,_,.closed hopened hcloses hreason⟩
    · push Not at hmessage
      obtain ⟨fs, kind, text, rest, hcarries, rfl⟩ := hmessage
      have hpos : 0 < (encodeAll fs).length := by
        obtain ⟨hcomplete, -, -⟩ := hcarries
        cases hcomplete with
        | @last fs _ _ f =>
          rw [← List.append_nil (encodeAll (fs ++ [f])), encodeAll_snoc, List.length_append,
            List.append_nil, Frame.encode, List.length_cons]
          omega
      rw [List.length_append] at hlen
      obtain ⟨ms, ending, hsession⟩ := ih rest.length (by omega) rest rfl
      exact ⟨_,_,.message hcarries hsession⟩

end Loop

end Pauline.WebSocket
