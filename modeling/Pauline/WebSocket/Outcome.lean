import Pauline.WebSocket.Control

/-!
# What a turn can do

It takes one whole frame that may come now, or gives up. With a length that is too long for
the sum of the lengths it goes beyond the memory of the message.
-/

set_option autoImplicit false

namespace Pauline.WebSocket
open Buffer Utf8

variable {host : Host} {s : Assembling} {b0 b1 : Byte} {tail : List Byte}
variable {is_fin : Bool} {kind : Kind} {text payload : List Byte} {l : ℕ}

theorem opcode_of_known {code : ℕ} (hlt : code < 16)
    (h : (isData code || isControlFrame code) = true) : ∃ opcode : Opcode, code = opcode.code := by
  have hall : ∀ code < 16, (isData code || isControlFrame code) = true →
      code = Opcode.cont.code ∨ code = Opcode.txt.code ∨ code = Opcode.bin.code ∨
        code = Opcode.clse.code ∨ code = Opcode.ping.code ∨ code = Opcode.pong.code := by decide
  obtain h | h | h | h | h | h := hall code hlt h
  · exact ⟨_,h⟩
  · exact ⟨_,h⟩
  · exact ⟨_,h⟩
  · exact ⟨_,h⟩
  · exact ⟨_,h⟩
  · exact ⟨_,h⟩

def Opcode.Fits (opcode : Opcode) (before : Option Kind) : Prop :=
  match opcode with
  | .cont => before ≠ none
  | .txt | .bin => before = none
  | .clse | .ping | .pong => True

theorem unexpected_iff (opcode : Opcode) (before : Option Kind) :
    unexpected (typeOf before) opcode.code ↔ ¬opcode.Fits before := by
  have hcont : ¬WS_FR_OP_CONT ≠ WS_FR_OP_CONT := by decide
  cases before with
  | none => cases opcode <;> simp [unexpected, Opcode.Fits, typeOf, Opcode.code,
      isControlFrame, WS_FR_OP_CONT, WS_FR_OP_TXT, WS_FR_OP_BIN, WS_FR_OP_CLSE, WS_FR_OP_PING,
      WS_FR_OP_PONG]
  | some kind => cases kind <;> cases opcode <;> simp [unexpected, Opcode.Fits, typeOf,
      Kind.opcode, Opcode.code, isControlFrame, WS_FR_OP_CONT, WS_FR_OP_TXT, WS_FR_OP_BIN,
      WS_FR_OP_CLSE, WS_FR_OP_PING, WS_FR_OP_PONG]

variable {before : Option Kind}

theorem expected_of_fits (opcode : Opcode) (hready : Ready s false before text)
    (hstate : s.wfd.client.state ≠ WS_STATE_CLOSING) (hreserved : b0.toNat &&& 0x70 = 0)
    (hcode : b0.toNat &&& 0xF = opcode.code) (hfits : opcode.Fits before) : Expected s b0 where
  reserved := hreserved
  order := by
    rw [hcode, hready.type, unexpected_iff, not_not]
    exact hfits
  known := by
    rw [hcode]
    cases opcode <;> rfl
  closing h := hstate h.1

theorem ready_headed {opcode : Opcode} {r : Reader} (fin : Bool) (hready : Ready s false before text)
    (herror : r.error = false) {after : Option Kind}
    (hafter : isControlFrame opcode.code = true ∧ after = before ∨
      (before = none ∧ ∃ kind, after = some kind ∧ opcode = kind.opcode) ∨
      opcode = .cont ∧ after = before) :
    Ready (headed s fin opcode.code r) false after text where
  type := by
    obtain ⟨hctrl, rfl⟩ | ⟨-, kind, rfl, rfl⟩ | ⟨rfl, rfl⟩ := hafter
    · rw [← hready.type]
      exact if_neg fun h => by simp [hctrl] at h
    · cases kind <;> rfl
    · rw [← hready.type]
      rfl
  size := hready.size
  idx := hready.idx
  small := hready.small
  holds := hready.holds
  chars _ hne := by
    obtain ⟨-, rfl⟩ | ⟨rfl, -⟩ | ⟨-, rfl⟩ := hafter
    · exact hready.chars rfl hne
    · exact hready.chars rfl (by decide)
    · exact hready.chars rfl hne
  fresh hnone := by
    obtain ⟨-, rfl⟩ | ⟨-, kind, rfl, -⟩ | ⟨-, rfl⟩ := hafter
    · exact hready.fresh hnone
    · cases hnone
    · exact hready.fresh hnone
  error := herror

theorem Frame.Goes.fits {f : Frame} (h : f.Goes before kind) : f.opcode.Fits before ∧
    isControlFrame f.opcode.code = false ∧ isData f.opcode.code = true ∧
      ((before = none ∧ ∃ kind', some kind = some kind' ∧ f.opcode = kind'.opcode) ∨
        f.opcode = .cont ∧ some kind = before) := by
  obtain ⟨rfl, hopcode⟩ | ⟨rfl, hopcode⟩ := h
  · rw [hopcode]
    cases kind
    · exact ⟨rfl,rfl,rfl,Or.inl ⟨rfl,.txt,rfl,rfl⟩⟩
    · exact ⟨rfl,rfl,rfl,Or.inl ⟨rfl,.bin,rfl,rfl⟩⟩
  · rw [hopcode]
    exact ⟨Option.some_ne_none _,rfl,rfl,Or.inr ⟨rfl,rfl⟩⟩

theorem encode_append (f : Frame) (rest : List Byte) : f.encode ++ rest =
    f.head0 :: f.head1 :: (f.form.rest f.payload.length ++ (List.ofFn f.key ++
      (maskFrom f.key 0 f.payload ++ rest))) := by
  rw [Frame.encode, List.cons_append, List.cons_append, List.append_assoc, List.append_assoc]

theorem turn_encoded (host : Host) {f : Frame} {rest : List Byte} (hready : Ready s false before text)
    (hstate : s.wfd.client.state ≠ WS_STATE_CLOSING) (hfits : f.opcode.Fits before)
    (hunread : s.wfd.reader.unread = f.encode ++ rest) :
    ∃ r, r.unread = f.form.rest f.payload.length ++ (List.ofFn f.key ++
        (maskFrom f.key 0 f.payload ++ rest)) ∧ r.error = false ∧
      turn host s = frameBody host f.opcode.code (f.form.first f.payload.length)
        (headed s f.fin f.opcode.code r) := by
  obtain ⟨-, hfin, hcode, hreserved⟩ := head0_bits f
  obtain ⟨r, hrest, herror, hturn⟩ := turn_head host (hunread.trans (encode_append f rest))
    (expected_of_fits f.opcode hready hstate hreserved hcode hfits)
  rw [hfin, hcode, head1_length] at hturn
  exact ⟨r,hrest,herror.trans hready.error,hturn⟩

theorem turn_fragment (hample : ∀ size, host.malloc size = true)
    (hready : Ready s false before text) (hstate : s.wfd.client.state ≠ WS_STATE_CLOSING)
    {f : Frame} {rest : List Byte} (hgoes : f.Goes before kind)
    (hunread : s.wfd.reader.unread = f.encode ++ rest)
    (hsmall : text.length+f.payload.length ≤ MAX_FRAME_LENGTH)
    (hspelled : Spelled f.fin kind (text ++ f.payload)) :
    ∃ s', turn host s = some (.tested s') ∧ s'.wfd.reader.unread = rest ∧ s'.is_fin = f.fin ∧
      s'.wfd.client = s.wfd.client ∧ Ready s' f.fin (some kind) (text ++ f.payload) := by
  obtain ⟨hfits, hctrl, hdata, hafter⟩ := hgoes.fits
  obtain ⟨r, hrest, herror, hturn⟩ := turn_encoded host hready hstate hfits hunread
  obtain ⟨s', r', htested, hunread', htaken⟩ := dataFrame_takes host
    (s := headed s f.fin f.opcode.code r) hample hctrl (ready_headed f.fin hready herror
      (Or.inr hafter)) f.fits hrest hsmall hspelled
  refine ⟨s',?_,by rw [htaken.reader, hunread'],htaken.is_fin,htaken.client,htaken.ready⟩
  rw [hturn, frameBody, if_neg (by rw [hctrl]; exact fun h => Bool.false_ne_true h.1),
    if_pos hdata, htested]

def answers (f : Frame) : List (List Byte) :=
  if f.opcode = .ping then [response WS_FR_OP_PONG f.payload] else []

theorem frameBody_ctrl (host : Host) (hfin : s.is_fin = true) (hl : l ≤ 125) :
    frameBody host Opcode.pong.code l s = pongFrame host Opcode.pong.code l s ∧
      frameBody host Opcode.ping.code l s = pingFrame host Opcode.ping.code l s ∧
      frameBody host Opcode.clse.code l s = closeFrame host Opcode.clse.code l s := by
  have hshort (opcode : ℕ) : ¬(isControlFrame opcode = true ∧ ((!s.is_fin) = true ∨ 125 < l)) := by
    rintro ⟨-, h | h⟩
    · rw [hfin] at h
      cases h
    · omega
  unfold frameBody
  rw [if_neg (hshort _), if_neg (hshort _), if_neg (hshort _)]
  exact ⟨rfl,rfl,rfl⟩

theorem turn_aside (hready : Ready s false before text)
    (hstate : s.wfd.client.state ≠ WS_STATE_CLOSING) {f : Frame} {rest : List Byte}
    (haside : f.Aside) (hunread : s.wfd.reader.unread = f.encode ++ rest)
    (hsends : f.opcode = .ping → Sends host s.wfd.client WS_FR_OP_PONG f.payload) :
    ∃ s', turn host s = some (.tested s') ∧ s'.wfd.reader.unread = rest ∧ s'.is_fin = false ∧
      s'.wfd.client.sent = s.wfd.client.sent ++ answers f ∧
      s'.wfd.client.state = s.wfd.client.state ∧ Ready s' false before text := by
  obtain ⟨hopcode, hfin, hform⟩ := haside
  have hctrl : isControlFrame f.opcode.code = true := by
    obtain h | h := hopcode <;> rw [h] <;> rfl
  have hfits : f.opcode.Fits before := by
    obtain h | h := hopcode <;> rw [h] <;> trivial
  have hlen : f.payload.length ≤ 125 := by
    have := f.fits
    rw [hform] at this
    exact Nat.le_of_lt_succ this
  obtain ⟨r, hrest, herror, hturn⟩ := turn_encoded host hready hstate hfits hunread
  have hready' := ready_headed f.fin hready herror (Or.inl ⟨hctrl,rfl⟩)
  rw [hform] at hrest hturn
  rw [show Form.short.first f.payload.length = f.payload.length from rfl] at hturn
  obtain ⟨r', mem', hunread', herror', hslice, hread⟩ := readCtrl_takes host
    (s := headed s f.fin f.opcode.code r) hctrl hlen hfin herror hrest
  obtain ⟨hpong, hping, -⟩ := frameBody_ctrl host
    (s := headed s f.fin f.opcode.code r) (l := f.payload.length) hfin hlen
  unfold answers
  obtain h | h := hopcode
  · rw [h] at hturn hread hready' hping ⊢
    obtain ⟨s', htested, hpassed⟩ := pingFrame_passes
      (s := headed s f.fin Opcode.ping.code r) herror' hlen hslice (hsends h) hread
    exact ⟨s',by rw [hturn, hping, htested],by rw [hpassed.reader, hunread'],hpassed.is_fin,
      hpassed.sent,hpassed.state,hpassed.ready _ _ hready'⟩
  · rw [h] at hturn hread hready' hpong ⊢
    obtain ⟨s', htested, hpassed⟩ := pongFrame_passes herror' hread
    exact ⟨s',by rw [hturn, hpong, htested],by rw [hpassed.reader, hunread'],hpassed.is_fin,
      hpassed.sent,hpassed.state,hpassed.ready _ _ hready'⟩

structure Closed (wfd wfd' : FrameData) (payload rest : List Byte) : Prop where
  type : wfd'.frame_type = WS_FR_OP_CLSE
  size : wfd'.frame_size = payload.length
  ctrl : slice wfd'.msg_ctrl 0 payload.length = payload
  client : wfd'.client = wfd.client
  msg : wfd'.msg = wfd.msg
  unread : wfd'.reader.unread = rest
  error : wfd'.reader.error = false

theorem turn_close (host : Host) (hready : Ready s false before text)
    (hstate : s.wfd.client.state ≠ WS_STATE_CLOSING) {f : Frame} {rest : List Byte}
    (hcloses : f.Closes) (hunread : s.wfd.reader.unread = f.encode ++ rest)
    (hreason : Reason f.payload) :
    ∃ wfd', turn host s = some (.returned 0 wfd') ∧ Closed s.wfd wfd' f.payload rest := by
  obtain ⟨hopcode, hfin, hform⟩ := hcloses
  have hlen : f.payload.length ≤ 125 := by
    have := f.fits
    rw [hform] at this
    exact Nat.le_of_lt_succ this
  obtain ⟨r, hrest, herror, hturn⟩ := turn_encoded host hready hstate
    (by rw [hopcode]; trivial) hunread
  rw [hform] at hrest hturn
  rw [hopcode, show Form.short.first f.payload.length = f.payload.length from rfl] at hturn
  obtain ⟨r', mem', hunread', herror', hslice, hread⟩ := readCtrl_takes host
    (s := headed s f.fin Opcode.clse.code r) (show isControlFrame Opcode.clse.code = true from rfl)
    hlen hfin herror hrest
  obtain ⟨-, -, hclose⟩ := frameBody_ctrl host
    (s := headed s f.fin Opcode.clse.code r) (l := f.payload.length) hfin hlen
  obtain ⟨hcloses, -⟩ := closeFrame_cases host (s := headed s f.fin Opcode.clse.code r)
    hready.holds.live hslice hread
  refine ⟨closing (headed s f.fin Opcode.clse.code r) r' mem' f.payload.length,?_,rfl,rfl,hslice,rfl,
    rfl,hunread',herror'⟩
  rw [hturn, hclose, hcloses hreason]

/-- A continuation whose length makes the sum of the lengths small again. -/
theorem turn_ruins (hready : Ready s false (some kind) text)
    (hstate : s.wfd.client.state ≠ WS_STATE_CLOSING) (hreserved : b0.toNat &&& 0x70 = 0)
    (hcode : b0.toNat &&& 0xF = WS_FR_OP_CONT) (hunread : s.wfd.reader.unread = b0 :: b1 :: tail)
    {n : ℕ} {key : Fin 4 → Byte} {rest : List Byte}
    (hwraps : Wraps host (decide (b0.toNat >>> 7 = 1)) text (b1.toNat &&& 0x7F) n key tail rest) :
    Ruins (turn host s) := by
  obtain ⟨r, hrest, herror, hturn⟩ := turn_head host hunread
    (expected_of_fits .cont hready hstate hreserved hcode (Option.some_ne_none kind))
  rw [hcode] at hturn
  rw [hturn, frameBody, if_neg fun h => absurd h.1 (by decide), if_pos (by decide)]
  rw [← hrest] at hwraps
  exact dataFrame_ruins (s := headed s _ Opcode.cont.code r) rfl
    (ready_headed _ hready (herror.trans hready.error) (Or.inr (Or.inr ⟨rfl,rfl⟩))) hwraps

/-! ## Every turn -/

theorem encode_of_bits (form : Form) (key : Fin 4 → Byte) {opcode : Opcode}
    (hfits : payload.length < form.limit) (hreserved : b0.toNat &&& 0x70 = 0)
    (hcode : b0.toNat &&& 0xF = opcode.code) (hl : b1.toNat &&& 0x7F = form.first payload.length) :
    ∃ f : Frame, f.fin = decide (b0.toNat >>> 7 = 1) ∧ f.opcode = opcode ∧ f.form = form ∧
      f.payload = payload ∧ ∀ rest, f.encode ++ rest = b0 :: b1 :: (form.rest payload.length ++
        (List.ofFn key ++ (maskFrom key 0 payload ++ rest))) := by
  let f : Frame := ⟨decide (b0.toNat >>> 7 = 1),opcode,decide (128 ≤ b1.toNat),form,key,payload,hfits⟩
  have hfirst : b0 = f.head0 := eq_ofNat ((bits_head0 b0 hreserved).trans (by rw [hcode]))
  have hsecond : b1 = f.head1 := eq_ofNat ((bits_head1 b1).2.trans (by rw [hl]))
  refine ⟨f,rfl,rfl,rfl,rfl,fun rest => ?_⟩
  rw [encode_append, ← hfirst, ← hsecond]

theorem Opcode.Fits.goes {opcode : Opcode} (hfits : opcode.Fits before)
    (hctrl : isControlFrame opcode.code = false) : ∃ kind, ∀ f : Frame, f.opcode = opcode →
      f.Goes before kind := by
  cases opcode with
  | cont =>
    cases before with
    | none => exact absurd rfl hfits
    | some kind => exact ⟨kind,fun f h => Or.inr ⟨rfl,h⟩⟩
  | txt => exact ⟨.txt,fun f h => Or.inl ⟨hfits,h⟩⟩
  | bin => exact ⟨.bin,fun f h => Or.inl ⟨hfits,h⟩⟩
  | clse => cases hctrl
  | ping => cases hctrl
  | pong => cases hctrl

/-- A turn gives up, or uses memory that is not there, or takes a fragment, passes a ping or a
pong, or ends with the connection. -/
inductive Outcome (host : Host) (s : Assembling) (before : Option Kind) (text : List Byte) : Prop
  | gaveUp : GivesUp (turn host s) → Outcome host s before text
  | ruined (kind : Kind) (b0 b1 : Byte) (n : ℕ) (key : Fin 4 → Byte) (tail rest : List Byte) :
      before = some kind → s.wfd.reader.unread = b0 :: b1 :: tail → b0.toNat &&& 0x70 = 0 →
      b0.toNat &&& 0xF = WS_FR_OP_CONT →
      Wraps host (decide (b0.toNat >>> 7 = 1)) text (b1.toNat &&& 0x7F) n key tail rest →
      Ruins (turn host s) → Outcome host s before text
  | fragment (f : Frame) (kind : Kind) (s' : Assembling) : f.Goes before kind →
      s.wfd.reader.unread = f.encode ++ s'.wfd.reader.unread →
      text.length+f.payload.length ≤ MAX_FRAME_LENGTH → Spelled f.fin kind (text ++ f.payload) →
      turn host s = some (.tested s') → s'.is_fin = f.fin → s'.wfd.client = s.wfd.client →
      Ready s' f.fin (some kind) (text ++ f.payload) → Outcome host s before text
  | aside (f : Frame) (s' : Assembling) : f.Aside →
      s.wfd.reader.unread = f.encode ++ s'.wfd.reader.unread → turn host s = some (.tested s') →
      s'.is_fin = false → s'.wfd.client.sent = s.wfd.client.sent ++ answers f →
      s'.wfd.client.state = s.wfd.client.state → Ready s' false before text →
      Outcome host s before text
  | closed (f : Frame) (wfd' : FrameData) : f.Closes →
      s.wfd.reader.unread = f.encode ++ wfd'.reader.unread → Reason f.payload →
      turn host s = some (.returned 0 wfd') →
      Closed s.wfd wfd' f.payload wfd'.reader.unread → Outcome host s before text

/-- A turn that begins with the first two bytes of a fragment. -/
theorem data_outcome (hready : Ready s false before text) {r : Reader} (herror : r.error = false)
    {opcode : Opcode} (hunread : s.wfd.reader.unread = b0 :: b1 :: r.unread)
    (hreserved : b0.toNat &&& 0x70 = 0) (hcode : b0.toNat &&& 0xF = opcode.code)
    (hfits : opcode.Fits before) (hctrl : isControlFrame opcode.code = false)
    (hturn : turn host s = frameBody host opcode.code (b1.toNat &&& 0x7F)
      (headed s (decide (b0.toNat >>> 7 = 1)) opcode.code r)) : Outcome host s before text := by
  obtain ⟨kind, hgoes⟩ := hfits.goes hctrl
  let f0 : Frame := ⟨false,opcode,false,.short,fun _ => 0#8,[],by decide⟩
  obtain ⟨-, -, hdata, hafter⟩ := (hgoes f0 rfl).fits
  have hready' := ready_headed (decide (b0.toNat >>> 7 = 1)) hready herror (Or.inr hafter)
  have hbody : turn host s = dataFrame host opcode.code (b1.toNat &&& 0x7F)
      (headed s (decide (b0.toNat >>> 7 = 1)) opcode.code r) := by
    rw [hturn, frameBody, if_neg (by rw [hctrl]; exact fun h => Bool.false_ne_true h.1),
      if_pos hdata]
  obtain hgives | ⟨hruins, n, key, rest, hwraps⟩ | ⟨form, key, payload, s', r', hlimit, hl, hrest,
      hsmall, hspelled, htested, htaken⟩ := dataFrame_cases host (bits_head1 b1).1 hctrl hready'
  · exact .gaveUp (by rwa [hbody])
  · -- before the sum is too long there is text, so this is a continuation
    have hmax : MAX_FRAME_LENGTH < 2^32 := by decide
    have hne : before ≠ none := by
      intro hnone
      have hwrap := hwraps.wrap
      have hlimit := hwraps.limit
      rw [hready.fresh hnone, List.length_nil] at hwrap
      omega
    obtain ⟨hnone, -⟩ | ⟨hcont, hkind⟩ := hafter
    · exact absurd hnone hne
    · exact .ruined kind b0 b1 n key r.unread rest hkind.symm hunread hreserved
        (by rw [hcode, show opcode = .cont from hcont]; rfl) hwraps (by rwa [hbody])
  · obtain ⟨f, hfin, hopcode, hform, rfl, hencode⟩ := encode_of_bits form key hlimit hreserved
      hcode hl
    refine .fragment f kind s' (hgoes f hopcode) ?_ hsmall (by rw [hfin]; exact hspelled)
      (hbody.trans htested) (htaken.is_fin.trans hfin.symm) htaken.client
      (by rw [hfin]; exact htaken.ready)
    rw [hencode, htaken.reader, hunread]
    exact congrArg _ (congrArg _ hrest)

theorem frameBody_short {opcode : Opcode} {size : ℕ} {s' : Assembling}
    (hctrl : isControlFrame opcode.code = true) (hfin : s.is_fin = true) (hl : l ≤ 125)
    (hread : readCtrl host opcode.code l s = some (false,size,s'))
    (hbad : s'.wfd.reader.error = true) (hlive : s'.msg_data ≠ .dangling) :
    GivesUp (frameBody host opcode.code l s) := by
  obtain ⟨hpong, hping, hclose⟩ := frameBody_ctrl host hfin hl
  refine Or.inr ⟨s',Or.inl ?_,hbad,hlive⟩
  cases opcode with
  | cont => cases hctrl
  | txt => cases hctrl
  | bin => cases hctrl
  | clse =>
    rw [hclose, closeFrame, hread]
    rfl
  | ping =>
    rw [hping, pingFrame, hread]
    rfl
  | pong =>
    rw [hpong, pongFrame, hread]
    rfl

/-- A turn that has a whole control frame in front of it. -/
theorem framed_outcome (hready : Ready s false before text)
    (hstate : s.wfd.client.state ≠ WS_STATE_CLOSING) {f : Frame} {rest : List Byte}
    (hctrl : isControlFrame f.opcode.code = true) (hfin : f.fin = true) (hform : f.form = .short)
    (hframe : s.wfd.reader.unread = f.encode ++ rest)
    (hmisread : f.opcode = .clse → ¬Reason f.payload → GivesUp (turn host s))
    (hunsent : f.opcode = .ping → ¬Sends host s.wfd.client WS_FR_OP_PONG f.payload →
      GivesUp (turn host s)) : Outcome host s before text := by
  have haside (h : f.opcode = .ping ∨ f.opcode = .pong) (hsends : f.opcode = .ping →
      Sends host s.wfd.client WS_FR_OP_PONG f.payload) : Outcome host s before text := by
    obtain ⟨s', htested, hrest', hfin', hsent, hsame, hready'⟩ := turn_aside hready hstate
      ⟨h,hfin,hform⟩ hframe hsends
    exact .aside f s' ⟨h,hfin,hform⟩ (by rw [hrest', hframe]) htested hfin' hsent hsame hready'
  cases hopcode : f.opcode with
  | cont => rw [hopcode] at hctrl; cases hctrl
  | txt => rw [hopcode] at hctrl; cases hctrl
  | bin => rw [hopcode] at hctrl; cases hctrl
  | clse =>
    by_cases hreason : Reason f.payload
    · obtain ⟨wfd', hreturned, hclosed⟩ := turn_close host hready hstate ⟨hopcode,hfin,hform⟩ hframe
        hreason
      refine .closed f wfd' ⟨hopcode,hfin,hform⟩ ?_ hreason hreturned ?_
      · rw [hclosed.unread, hframe]
      · rw [hclosed.unread]
        exact hclosed
    · exact .gaveUp (hmisread hopcode hreason)
  | ping =>
    by_cases hsends : Sends host s.wfd.client WS_FR_OP_PONG f.payload
    · exact haside (Or.inl hopcode) fun _ => hsends
    · exact .gaveUp (hunsent hopcode hsends)
  | pong => exact haside (Or.inr hopcode) fun h => by cases hopcode.symm.trans h

/-- A turn that begins with the first two bytes of a control frame. -/
theorem ctrl_outcome (hready : Ready s false before text)
    (hstate : s.wfd.client.state ≠ WS_STATE_CLOSING) {r : Reader} (herror : r.error = false)
    {opcode : Opcode} (hunread : s.wfd.reader.unread = b0 :: b1 :: r.unread)
    (hreserved : b0.toNat &&& 0x70 = 0) (hcode : b0.toNat &&& 0xF = opcode.code)
    (hctrl : isControlFrame opcode.code = true)
    (hturn : turn host s = frameBody host opcode.code (b1.toNat &&& 0x7F)
      (headed s (decide (b0.toNat >>> 7 = 1)) opcode.code r)) : Outcome host s before text := by
  have hlive := hready.holds.live
  by_cases hlong : (!decide (b0.toNat >>> 7 = 1)) = true ∨ 125 < b1.toNat &&& 0x7F
  · apply Outcome.gaveUp
    rw [hturn, frameBody, if_pos ⟨hctrl,hlong⟩]
    exact refuse_givesUp _ hlive
  · rw [not_or, Bool.not_eq_true', Bool.not_eq_false] at hlong
    obtain ⟨hfin, hl⟩ := hlong
    have hl : b1.toNat &&& 0x7F ≤ 125 := Nat.le_of_not_lt hl
    obtain ⟨-, hping, hclose⟩ := frameBody_ctrl host
      (s := headed s (decide (b0.toNat >>> 7 = 1)) opcode.code r) hfin hl
    obtain ⟨size, s', hread, hbad, hsame⟩ | ⟨key, payload, r', mem', hlen, hrest, herror', hslice, hread⟩ :=
      readCtrl_cases host (s := headed s (decide (b0.toNat >>> 7 = 1)) opcode.code r)
        hctrl hl hfin herror
    · apply Outcome.gaveUp
      rw [hturn]
      exact frameBody_short hctrl hfin hl hread hbad (by rwa [hsame])
    · obtain ⟨f, hfin', hopcode, hform, rfl, hencode⟩ := encode_of_bits .short key
        (show payload.length < 126 by omega) hreserved hcode hlen.symm
      have hframe : s.wfd.reader.unread = f.encode ++ r'.unread := by
        rw [hencode, hunread]
        exact congrArg _ (congrArg _ hrest)
      refine framed_outcome hready hstate (by rwa [hopcode]) (hfin'.trans hfin) hform hframe ?_ ?_
      · intro hclse hreason
        obtain rfl := hopcode.symm.trans hclse
        rw [hturn, hclose]
        exact (closeFrame_cases host (s := headed s _ _ r) hlive hslice hread).2 hreason
      · intro hpinged hsends
        obtain rfl := hopcode.symm.trans hpinged
        rw [hturn, hping]
        exact pingFrame_givesUp (s := headed s _ _ r) hlive hslice hsends hread

theorem turn_outcome (host : Host) (hready : Ready s false before text)
    (hstate : s.wfd.client.state ≠ WS_STATE_CLOSING) : Outcome host s before text := by
  obtain hgives | ⟨b0, b1, r, hunread, hexp, herror, hturn⟩ := turn_cases host hready.error
    hready.holds.live
  · exact .gaveUp hgives
  · have hlt : b0.toNat &&& 0xF < 2^4 := Nat.and_lt_two_pow _ (by decide)
    obtain ⟨opcode, hcode⟩ := opcode_of_known hlt hexp.known
    have hfits : opcode.Fits before := by
      have horder := hexp.order
      rwa [hcode, hready.type, unexpected_iff, not_not] at horder
    rw [hcode] at hturn
    cases hctrl : isControlFrame opcode.code with
    | true => exact ctrl_outcome hready hstate herror hunread hexp.reserved hcode hctrl hturn
    | false => exact data_outcome hready herror hunread hexp.reserved hcode hfits hctrl hturn

end Pauline.WebSocket
