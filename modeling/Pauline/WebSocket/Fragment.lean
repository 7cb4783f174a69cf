import Pauline.WebSocket.Payload
import Pauline.WebSocket.Turn

/-!
# A turn of the loop

A turn takes one whole frame or refuses the connection. What is kept between two turns is
the message as far as it has come.
-/

set_option autoImplicit false

namespace Pauline.WebSocket
open Buffer Utf8

def typeOf : Option Kind → ℤ
  | none => -1
  | some kind => kind.opcode.code

structure Ready (s : Assembling) (is_fin : Bool) (before : Option Kind) (text : List Byte) :
    Prop where
  type : s.wfd.frame_type = typeOf before
  size : s.wfd.frame_size = text.length
  idx : s.msg_idx_data = text.length
  small : text.length ≤ MAX_FRAME_LENGTH
  holds : Holds s.msg_data is_fin text
  chars : is_fin = false → before ≠ some .bin →
    s.utf8_state = isUtf8LenState text UTF8_ACCEPT ∧ s.utf8_state ≠ UTF8_REJECT
  fresh : before = none → text = []
  error : s.wfd.reader.error = false

def GivesUp (t : Option Turn) : Prop :=
  (∃ wfd, t = some (.returned (-1) wfd)) ∨
    ∃ s, (t = some (.broke s) ∨ t = some (.tested s)) ∧ s.wfd.reader.error = true ∧
      s.msg_data ≠ .dangling

def Ruins (t : Option Turn) : Prop :=
  t = none ∨ ∃ s, t = some (.broke s) ∧ s.wfd.reader.error = true ∧ s.msg_data = .dangling

/-! ## The first two bytes -/

theorem head0_bits (f : Frame) : f.head0.toNat = f.fin.toNat*128+f.opcode.code ∧
    (decide (f.head0.toNat >>> 7 = 1)) = f.fin ∧ f.head0.toNat &&& 0xF = f.opcode.code ∧
    f.head0.toNat &&& 0x70 = 0 := by
  unfold Frame.head0
  cases f.fin <;> cases f.opcode <;> decide

theorem bits_head0 (b : Byte) (h : b.toNat &&& 0x70 = 0) :
    b.toNat = (decide (b.toNat >>> 7 = 1)).toNat*128+(b.toNat &&& 0xF) := by
  revert b
  decide

theorem bits_head1 (b : Byte) : b.toNat &&& 0x7F < 128 ∧
    b.toNat = (decide (128 ≤ b.toNat)).toNat*128+(b.toNat &&& 0x7F) := by
  revert b
  decide

theorem head1_length (f : Frame) : f.head1.toNat &&& 0x7F = f.form.first f.payload.length := by
  have hlt := Form.first_lt f.fits
  have hmasked : f.masked.toNat ≤ 1 := Bool.toNat_le _
  rw [Frame.head1, BitVec.toNat_ofNat, show (0x7F : ℕ) = 2^7-1 from rfl,
    Nat.and_two_pow_sub_one_eq_mod]
  omega

def headed (s : Assembling) (is_fin : Bool) (opcode : ℕ) (reader : Reader) : Assembling :=
  { s with
    is_fin := is_fin
    wfd := { s.wfd with
      frame_type := if opcode ≠ WS_FR_OP_CONT ∧ !isControlFrame opcode then (opcode : ℤ)
        else s.wfd.frame_type
      reader := reader } }

variable {host : Host} {s : Assembling} {b0 b1 : Byte} {tail : List Byte}

structure Expected (s : Assembling) (b0 : Byte) : Prop where
  reserved : b0.toNat &&& 0x70 = 0
  order : ¬unexpected s.wfd.frame_type (b0.toNat &&& 0xF)
  known : (isData (b0.toNat &&& 0xF) || isControlFrame (b0.toNat &&& 0xF)) = true
  closing : ¬(s.wfd.client.state = WS_STATE_CLOSING ∧ b0.toNat &&& 0xF ≠ WS_FR_OP_CLSE)

theorem turn_first {r : Reader} (hbyte : nextByte s.wfd.reader = ((b0.toNat : ℤ),r))
    (hexp : Expected s b0) : turn host s = frameBody host (b0.toNat &&& 0xF)
      ((BitVec.ofInt 8 (nextByte r).1).toNat &&& 0x7F)
      (headed s (decide (b0.toNat >>> 7 = 1)) (b0.toNat &&& 0xF) (nextByte r).2) := by
  simp only [turn, hbyte, Int.toNat_natCast]
  rw [if_neg (by omega), if_neg (by rw [hexp.reserved]; decide), if_neg hexp.order,
    if_pos hexp.known, knownFrame, if_neg hexp.closing]
  rfl

theorem turn_head (host : Host) (hunread : s.wfd.reader.unread = b0 :: b1 :: tail) (hexp : Expected s b0) :
    ∃ r, r.unread = tail ∧ r.error = s.wfd.reader.error ∧
      turn host s = frameBody host (b0.toNat &&& 0xF) (b1.toNat &&& 0x7F)
        (headed s (decide (b0.toNat >>> 7 = 1)) (b0.toNat &&& 0xF) r) := by
  obtain ⟨r1, hbyte, hunread1, herror1⟩ := nextByte_cons hunread
  obtain ⟨r2, hbyte2, hunread2, herror2⟩ := nextByte_cons hunread1
  refine ⟨r2,hunread2,herror2.trans herror1,?_⟩
  rw [turn_first hbyte hexp, hbyte2, BitVec.ofInt_natCast, BitVec.ofNat_toNat, BitVec.setWidth_eq]

theorem refuse_givesUp (s : Assembling) (hlive : s.msg_data ≠ .dangling) :
    GivesUp (some (.broke s.refuse)) := Or.inr ⟨_,Or.inl rfl,rfl,hlive⟩

theorem frameBody_bad {opcode : ℕ} (herror : s.wfd.reader.error = true)
    (hlive : s.msg_data ≠ .dangling) (hknown : (isData opcode || isControlFrame opcode) = true) :
    GivesUp (frameBody host opcode 127 s) := by
  unfold frameBody
  by_cases hctrl : isControlFrame opcode
  · rw [if_pos ⟨hctrl,Or.inr (by decide)⟩]
    exact refuse_givesUp s hlive
  · rw [if_neg fun h => hctrl h.1, if_pos (by
      rw [Bool.or_eq_true] at hknown
      exact hknown.resolve_right hctrl)]
    obtain ⟨t, hread, hok, hbad, hbuf⟩ := readFrame_bad host opcode s.is_fin s.msg_data
      s.wfd.frame_size s.msg_idx_data (readLength_error 127 herror)
    refine Or.inr ⟨{ s with
      wfd := { s.wfd with reader := t.reader, frame_size := t.frame_size }
      msg_data := t.buf
      msg_idx_data := t.msg_idx },Or.inl ?_,hbad,by rwa [hbuf]⟩
    simp only [dataFrame, hread, hok, Option.bind_eq_bind, Option.bind_some, Bool.not_false,
      if_true]

theorem turn_unexpected {r : Reader} (hbyte : nextByte s.wfd.reader = ((b0.toNat : ℤ),r))
    (hlive : s.msg_data ≠ .dangling) (hnot : ¬Expected s b0) : GivesUp (turn host s) := by
  simp only [turn, hbyte, Int.toNat_natCast]
  rw [if_neg (by omega)]
  by_cases hreserved : b0.toNat &&& 0x70 = 0
  · rw [if_neg (by rw [hreserved]; decide)]
    by_cases horder : unexpected s.wfd.frame_type (b0.toNat &&& 0xF)
    · rw [if_pos horder]
      exact refuse_givesUp _ hlive
    · rw [if_neg horder]
      by_cases hknown : (isData (b0.toNat &&& 0xF) || isControlFrame (b0.toNat &&& 0xF)) = true
      · rw [if_pos hknown, knownFrame, if_pos (by
          by_contra hclosing
          exact hnot ⟨hreserved,horder,hknown,hclosing⟩)]
        exact refuse_givesUp _ hlive
      · rw [if_neg hknown]
        exact Or.inr ⟨_,Or.inr rfl,rfl,hlive⟩
  · rw [if_pos hreserved]
    exact refuse_givesUp _ hlive

/-- Two bytes are read of a frame that the server goes on with, or it gives up. -/
theorem turn_cases (host : Host) (herror : s.wfd.reader.error = false)
    (hlive : s.msg_data ≠ .dangling) : GivesUp (turn host s) ∨
      ∃ b0 b1 r, s.wfd.reader.unread = b0 :: b1 :: r.unread ∧ Expected s b0 ∧ r.error = false ∧
        turn host s = frameBody host (b0.toNat &&& 0xF) (b1.toNat &&& 0x7F)
          (headed s (decide (b0.toNat >>> 7 = 1)) (b0.toNat &&& 0xF) r) := by
  cases hread : s.wfd.reader.unread with
  | nil =>
    left
    obtain ⟨r, hbyte, -⟩ := nextByte_nil hread
    refine Or.inl ⟨{ s.wfd with reader := r },?_⟩
    simp only [turn, hbyte, if_true]
  | cons b0 rest =>
    obtain ⟨r1, hbyte, hrest, herror1⟩ := nextByte_cons hread
    by_cases hexp : Expected s b0
    · cases hrest' : rest with
      | nil =>
        left
        obtain ⟨r2, hbyte2, herror2⟩ := nextByte_nil (hrest.trans hrest')
        rw [turn_first hbyte hexp, hbyte2,
          show (BitVec.ofInt 8 (-1)).toNat &&& 0x7F = 127 by decide]
        exact frameBody_bad herror2 hlive hexp.known
      | cons b1 tail =>
        right
        obtain ⟨r, hunread, herror', hturn⟩ := turn_head host
          (hread.trans (congrArg _ hrest')) hexp
        exact ⟨b0,b1,r,by rw [hunread],hexp,herror'.trans herror,hturn⟩
    · exact Or.inl (turn_unexpected hbyte hlive hexp)

/-! ## A fragment -/

variable {is_fin : Bool} {kind : Kind} {text payload : List Byte} {opcode l : ℕ}

theorem Holds.read {p : Pointer} (h : Holds p is_fin (text ++ payload)) :
    p.read text.length payload.length = some payload := by
  unfold Pointer.read
  by_cases hempty : payload.length = 0
  · rw [if_pos hempty, List.length_eq_zero_iff.mp hempty]
  · rw [if_neg hempty]
    cases p with
    | null =>
      have hnil : text ++ payload = [] := h
      exact absurd (congrArg List.length (List.append_eq_nil_iff.mp hnil).2) hempty
    | dangling => exact h.elim
    | chunk c =>
      have hroom := h.chunk_room
      have hall := h.2
      rw [List.length_append] at hroom
      rw [hroom, Nat.add_assoc, slice_add, slice_add] at hall
      obtain ⟨-, hrest⟩ := List.append_inj (hall.trans (List.append_assoc _ _ _))
        (slice_length _ _ _)
      obtain ⟨hpayload, -⟩ := List.append_inj hrest (slice_length _ _ _)
      rw [Nat.zero_add] at hpayload
      show (if text.length+payload.length ≤ c.room then _ else _) = _
      rw [if_pos (by omega), hpayload]

def Spelled (is_fin : Bool) (kind : Kind) (text : List Byte) : Prop :=
  kind = .txt → if is_fin then isUtf8LenState text UTF8_ACCEPT = UTF8_ACCEPT
    else isUtf8LenState text UTF8_ACCEPT ≠ UTF8_REJECT

structure Taken (s s' : Assembling) (r' : Reader) (kind : Kind) (text : List Byte) : Prop where
  reader : s'.wfd.reader = r'
  is_fin : s'.is_fin = s.is_fin
  client : s'.wfd.client = s.wfd.client
  ready : Ready s' s.is_fin (some kind) text

theorem doClose_reader (wfd : FrameData) (close_code : Option ℕ) :
    (doClose host wfd close_code).2.reader = wfd.reader := by
  unfold doClose
  cases close_code with
  | some cc => rfl
  | none =>
    simp only
    split_ifs <;> rfl

theorem checkFragment_spelled {t : Assembling}
    (hstate : t.utf8_state = isUtf8LenState text UTF8_ACCEPT)
    (h : Spelled t.is_fin .txt (text ++ payload)) : checkFragment host t payload =
      if t.is_fin then t
      else { t with utf8_state := isUtf8LenState (text ++ payload) UTF8_ACCEPT } := by
  have hspelled := h rfl
  unfold checkFragment
  rw [hstate, ← isUtf8LenState_append]
  split_ifs at hspelled with hfin
  · simp only [hfin, if_true]
    exact if_neg (not_not.mpr hspelled)
  · simp only [hfin, Bool.false_eq_true, if_false]
    exact if_neg hspelled

theorem checkFragment_misspelled (host : Host) {t : Assembling}
    (hstate : t.utf8_state = isUtf8LenState text UTF8_ACCEPT)
    (h : ¬Spelled t.is_fin .txt (text ++ payload)) :
    (checkFragment host t payload).wfd.reader.error = true ∧
      (checkFragment host t payload).msg_data = t.msg_data := by
  have hclose : (doClose host t.refuse.wfd (some WS_CLSE_INVUTF8)).2.reader.error = true := by
    rw [doClose_reader]
    rfl
  unfold Spelled at h
  unfold checkFragment
  rw [hstate, ← isUtf8LenState_append]
  cases hfin : t.is_fin with
  | true =>
    simp only [hfin, if_true] at h ⊢
    rw [if_pos fun hok => h fun _ => hok]
    exact ⟨hclose,rfl⟩
  | false =>
    simp only [hfin, Bool.false_eq_true, if_false] at h ⊢
    rw [if_pos (not_not.mp fun hok => h fun _ => hok)]
    exact ⟨hclose,rfl⟩

def joined (s : Assembling) (r' : Reader) (buf' : Pointer) (size : ℕ) : Assembling :=
  { s with
    wfd := { s.wfd with reader := r', frame_size := size }
    msg_data := buf'
    msg_idx_data := size }

section Joined

variable {r' : Reader} {buf' : Pointer}

theorem joined_ready (hready : Ready s false (some kind) text)
    (hsmall : text.length+payload.length ≤ MAX_FRAME_LENGTH) (herror : r'.error = false)
    (hholds : Holds buf' s.is_fin (text ++ payload)) (utf8_state : ℕ)
    (hchars : s.is_fin = false → kind ≠ .bin →
      utf8_state = isUtf8LenState (text ++ payload) UTF8_ACCEPT ∧ utf8_state ≠ UTF8_REJECT) :
    Ready { joined s r' buf' (text.length+payload.length) with utf8_state := utf8_state }
      s.is_fin (some kind) (text ++ payload) := by
  have hlen : (text ++ payload).length = text.length+payload.length := List.length_append
  exact {
    type := hready.type
    size := hlen.symm
    idx := hlen.symm
    small := hlen.trans_le hsmall
    holds := hholds
    chars := fun hfin hne => hchars hfin fun h => hne (congrArg some h)
    fresh := fun h => nomatch h
    error := herror }

/-- The payload of a binary message is taken as it is. -/
theorem dataFrame_binary (hready : Ready s false (some .bin) text)
    (hread : readFrame host opcode s.is_fin s.msg_data l s.wfd.frame_size s.msg_idx_data
      s.wfd.reader = some ⟨true,r',buf',payload.length,text.length+payload.length,
        text.length+payload.length⟩) :
    dataFrame host opcode l s =
      some (.tested (joined s r' buf' (text.length+payload.length))) := by
  have htype : s.wfd.frame_type ≠ WS_FR_OP_TXT := by
    rw [hready.type]
    decide
  simp only [dataFrame, hread, Option.bind_eq_bind, Option.bind_some, Bool.not_true,
    Bool.false_eq_true, if_false]
  exact if_neg htype

/-- The payload of a text message is checked. -/
theorem dataFrame_text (hready : Ready s false (some .txt) text)
    (hholds : Holds buf' s.is_fin (text ++ payload))
    (hread : readFrame host opcode s.is_fin s.msg_data l s.wfd.frame_size s.msg_idx_data
      s.wfd.reader = some ⟨true,r',buf',payload.length,text.length+payload.length,
        text.length+payload.length⟩) :
    dataFrame host opcode l s = some (.tested (checkFragment host
      (joined s r' buf' (text.length+payload.length)) payload)) := by
  simp only [dataFrame, hread, Option.bind_eq_bind, Option.bind_some, Bool.not_true,
    Bool.false_eq_true, if_false, Nat.add_sub_cancel_right, hholds.read]
  exact if_pos hready.type

/-- A fragment whose payload has joined the message is taken when its text may stand there. -/
theorem dataFrame_joined (payload : List Byte) (hready : Ready s false (some kind) text)
    (hsmall : text.length+payload.length ≤ MAX_FRAME_LENGTH) (herror : r'.error = false)
    (hholds : Holds buf' s.is_fin (text ++ payload))
    (hread : readFrame host opcode s.is_fin s.msg_data l s.wfd.frame_size s.msg_idx_data
      s.wfd.reader = some ⟨true,r',buf',payload.length,text.length+payload.length,
        text.length+payload.length⟩) :
    (Spelled s.is_fin kind (text ++ payload) → ∃ s',
      dataFrame host opcode l s = some (.tested s') ∧ Taken s s' r' kind (text ++ payload)) ∧
    (¬Spelled s.is_fin kind (text ++ payload) → GivesUp (dataFrame host opcode l s)) := by
  have hready' := joined_ready hready hsmall herror hholds
  cases kind with
  | bin =>
    rw [dataFrame_binary hready hread]
    refine ⟨fun _ => ⟨_,rfl,rfl,rfl,rfl,hready' s.utf8_state fun _ h => absurd rfl h⟩,?_⟩
    intro hnot
    exact absurd (fun h => Kind.noConfusion h) hnot
  | txt =>
    obtain ⟨hstate, hok⟩ := hready.chars rfl (by decide)
    rw [dataFrame_text hready hholds hread]
    constructor
    · intro hspelled
      rw [checkFragment_spelled (t := joined s r' buf' (text.length+payload.length)) hstate hspelled]
      have hsame : (joined s r' buf' (text.length+payload.length)).is_fin = s.is_fin := rfl
      rw [hsame]
      by_cases hfin : s.is_fin = true
      · rw [if_pos hfin]
        exact ⟨_,rfl,rfl,rfl,rfl,hready' s.utf8_state fun h => absurd hfin (h ▸ Bool.false_ne_true)⟩
      · rw [if_neg hfin]
        have hspelled' := hspelled rfl
        rw [if_neg hfin] at hspelled'
        exact ⟨_,rfl,rfl,rfl,rfl,hready' _ fun _ _ => ⟨rfl,hspelled'⟩⟩
    · intro hnot
      obtain ⟨hbad, hbuf⟩ := checkFragment_misspelled host
        (t := joined s r' buf' (text.length+payload.length)) hstate hnot
      refine Or.inr ⟨_,Or.inr rfl,hbad,?_⟩
      rw [hbuf]
      exact hholds.live

end Joined

theorem dataFrame_refused (h : Refused (readFrame host opcode s.is_fin s.msg_data l
    s.wfd.frame_size s.msg_idx_data s.wfd.reader)) : GivesUp (dataFrame host opcode l s) := by
  obtain ⟨t, hread, hok, hbad, hlive⟩ := h
  refine Or.inr ⟨{ s with
    wfd := { s.wfd with reader := t.reader, frame_size := t.frame_size }
    msg_data := t.buf
    msg_idx_data := t.msg_idx },Or.inl ?_,hbad,hlive⟩
  simp only [dataFrame, hread, hok, Option.bind_eq_bind, Option.bind_some, Bool.not_false, if_true]

theorem dataFrame_corrupts (h : Corrupts (readFrame host opcode s.is_fin s.msg_data l
    s.wfd.frame_size s.msg_idx_data s.wfd.reader)) : Ruins (dataFrame host opcode l s) := by
  obtain hnone | ⟨t, hread, hok, hbad, hdangling⟩ := h
  · left
    simp only [dataFrame, hnone, Option.bind_eq_bind, Option.bind_none]
  · refine Or.inr ⟨{ s with
      wfd := { s.wfd with reader := t.reader, frame_size := t.frame_size }
      msg_data := t.buf
      msg_idx_data := t.msg_idx },?_,hbad,hdangling⟩
    simp only [dataFrame, hread, hok, Option.bind_eq_bind, Option.bind_some, Bool.not_false,
      if_true]

theorem dataFrame_takes (host : Host) (hample : ∀ size, host.malloc size = true)
    (hopcode : isControlFrame opcode = false) (hready : Ready s false (some kind) text)
    {form : Form} (hfits : payload.length < form.limit) {key : Fin 4 → Byte} {rest : List Byte}
    (hunread : s.wfd.reader.unread = form.rest payload.length ++ (List.ofFn key ++
      (maskFrom key 0 payload ++ rest)))
    (hsmall : text.length+payload.length ≤ MAX_FRAME_LENGTH)
    (hspelled : Spelled s.is_fin kind (text ++ payload)) :
    ∃ s' r', dataFrame host opcode (form.first payload.length) s = some (.tested s') ∧
      r'.unread = rest ∧ Taken s s' r' kind (text ++ payload) := by
  have hmax : MAX_FRAME_LENGTH < 2^32 := by decide
  have hmod : (s.wfd.frame_size+payload.length) % 2^64 = text.length+payload.length := by
    rw [hready.size]
    exact Nat.mod_eq_of_lt (by omega)
  obtain ⟨r1, hrest1, herror1, hhead⟩ := readFrame_head host opcode s.is_fin s.msg_data
    s.wfd.frame_size s.msg_idx_data form hfits hunread hready.error (by rwa [hmod])
  rw [hmod, hready.idx] at hhead
  obtain ⟨-, hshort | ⟨size, hmalloc⟩⟩ | ⟨bs, r2, buf', hlen, hjoined⟩ :=
    readBody_fragment host s.is_fin key r1 hopcode hready.holds hsmall
  · rw [hrest1, List.length_append, maskFrom_length] at hshort
    omega
  · rw [hample size] at hmalloc
    cases hmalloc
  · obtain ⟨hbs, hrest⟩ := List.append_inj (hrest1.symm.trans hjoined.unread)
      (by rw [maskFrom_length, hlen])
    have hpayload : maskFrom key 0 bs = payload := by rw [← hbs, maskFrom_maskFrom]
    have hread := hhead.trans (hlen ▸ hjoined.read)
    have hholds := hjoined.holds
    rw [hpayload] at hholds
    obtain ⟨htakes, -⟩ := dataFrame_joined payload hready hsmall (hjoined.error.trans herror1) hholds
      (by rw [hready.idx, hread])
    obtain ⟨s', hturn, htaken⟩ := htakes hspelled
    exact ⟨s',r2,hturn,hrest.symm,htaken⟩

structure Wraps (host : Host) (is_fin : Bool) (text : List Byte) (l n : ℕ) (key : Fin 4 → Byte)
    (unread rest : List Byte) : Prop where
  long : l = 127
  limit : n < 2^64
  wrap : 2^64 ≤ text.length+n
  head : unread = big 8 n ++ (List.ofFn key ++ rest)
  overruns : Overruns host is_fin text n rest

theorem wraps_small {n : ℕ} (htext : text.length ≤ MAX_FRAME_LENGTH) (hn : n < 2^64)
    (hwrap : 2^64 ≤ text.length+n) : (text.length+n) % 2^64 ≤ MAX_FRAME_LENGTH := by
  have hmax : MAX_FRAME_LENGTH < 2^32 := by decide
  rw [Nat.mod_eq_sub_mod hwrap, Nat.mod_eq_of_lt (by omega)]
  omega

theorem dataFrame_ruins (hopcode : isControlFrame opcode = false)
    (hready : Ready s false (some kind) text) {n : ℕ} {key : Fin 4 → Byte} {rest : List Byte}
    (hwraps : Wraps host s.is_fin text l n key s.wfd.reader.unread rest) :
    Ruins (dataFrame host opcode l s) := by
  apply dataFrame_corrupts
  obtain ⟨rfl, hn, hwrap, hunread, hover⟩ := hwraps
  obtain ⟨r1, hrest1, -, hhead⟩ := readFrame_head host opcode s.is_fin s.msg_data
    s.wfd.frame_size s.msg_idx_data .long hn hunread hready.error
    (by rw [hready.size]; exact wraps_small hready.small hn hwrap)
  rw [hready.idx] at hhead
  rw [hready.idx]
  obtain ⟨-, hnot⟩ | ⟨hcorrupts, -⟩ := readBody_wraps host s.is_fin key r1 hopcode
    hready.holds hready.small hn hwrap
    ((s.wfd.frame_size+n) % 2^64)
  · rw [hrest1] at hnot
    exact absurd hover hnot
  · rw [← hhead] at hcorrupts
    exact hcorrupts

/-- The length makes the sum of the lengths small again. -/
theorem dataFrame_wraps {form : Form} {n : ℕ} {key : Fin 4 → Byte} {r1 : Reader}
    (hopcode : isControlFrame opcode = false) (hready : Ready s false (some kind) text)
    (hn : n < form.limit) (hwrap : 2^64 ≤ text.length+n) (hfirst : l = form.first n)
    (hunread : s.wfd.reader.unread = form.rest n ++ (List.ofFn key ++ r1.unread))
    (hhead : readFrame host opcode s.is_fin s.msg_data l s.wfd.frame_size s.msg_idx_data
      s.wfd.reader = readBody host opcode s.is_fin key
        ⟨true,r1,s.msg_data,n,(s.wfd.frame_size+n) % 2^64,s.msg_idx_data⟩) :
    GivesUp (dataFrame host opcode l s) ∨
    (Ruins (dataFrame host opcode l s) ∧ ∃ n key rest,
      Wraps host s.is_fin text l n key s.wfd.reader.unread rest) := by
  have hmax : MAX_FRAME_LENGTH < 2^32 := by decide
  have hsmall := hready.small
  cases form with
  | short => exact absurd hn (by show ¬n < 126; omega)
  | word => exact absurd hn (by show ¬n < 2^16; omega)
  | long =>
    obtain ⟨hrefused, -⟩ | ⟨hcorrupts, hover⟩ := readBody_wraps host s.is_fin key r1 hopcode
      hready.holds hsmall hn hwrap ((s.wfd.frame_size+n) % 2^64)
    · left
      rw [← hready.idx, ← hhead] at hrefused
      exact dataFrame_refused hrefused
    · right
      rw [← hready.idx, ← hhead] at hcorrupts
      exact ⟨dataFrame_corrupts hcorrupts,n,key,r1.unread,hfirst,hn,hwrap,hunread,hover⟩

/-- The payload does not go beyond `MAX_FRAME_LENGTH`. -/
theorem dataFrame_fits {form : Form} {n : ℕ} {key : Fin 4 → Byte} {r1 : Reader}
    (hopcode : isControlFrame opcode = false) (hready : Ready s false (some kind) text)
    (hn : n < form.limit) (hlarge : text.length+n ≤ MAX_FRAME_LENGTH) (hfirst : l = form.first n)
    (hunread : s.wfd.reader.unread = form.rest n ++ (List.ofFn key ++ r1.unread))
    (herror1 : r1.error = false)
    (hhead : readFrame host opcode s.is_fin s.msg_data l s.wfd.frame_size s.msg_idx_data
      s.wfd.reader = readBody host opcode s.is_fin key
        ⟨true,r1,s.msg_data,n,(s.wfd.frame_size+n) % 2^64,s.msg_idx_data⟩) :
    GivesUp (dataFrame host opcode l s) ∨
    ∃ form key payload s' r', payload.length < Form.limit form ∧ l = form.first payload.length ∧
      s.wfd.reader.unread = form.rest payload.length ++ (List.ofFn key ++
        (maskFrom key 0 payload ++ r'.unread)) ∧
      text.length+payload.length ≤ MAX_FRAME_LENGTH ∧ Spelled s.is_fin kind (text ++ payload) ∧
      dataFrame host opcode l s = some (.tested s') ∧ Taken s s' r' kind (text ++ payload) := by
  have hmax : MAX_FRAME_LENGTH < 2^32 := by decide
  have hmod : (s.wfd.frame_size+n) % 2^64 = text.length+n := by
    rw [hready.size]
    exact Nat.mod_eq_of_lt (by omega)
  rw [hmod, hready.idx] at hhead
  obtain ⟨hrefused, -⟩ | ⟨bs, r2, buf', hlen, hjoined⟩ := readBody_fragment host
    s.is_fin key r1 hopcode hready.holds hlarge
  · left
    rw [← hhead, ← hready.idx] at hrefused
    exact dataFrame_refused hrefused
  · subst hlen
    have hpayload : (maskFrom key 0 bs).length = bs.length := maskFrom_length _ _ _
    obtain ⟨htakes, hgives⟩ := dataFrame_joined (maskFrom key 0 bs) hready
      (by rw [hpayload]; exact hlarge) (hjoined.error.trans herror1) hjoined.holds
      (by rw [hready.idx, hhead, hjoined.read, hpayload])
    by_cases hspelled : Spelled s.is_fin kind (text ++ maskFrom key 0 bs)
    · right
      obtain ⟨s', hturn, htaken⟩ := htakes hspelled
      refine ⟨form,key,maskFrom key 0 bs,s',r2,by rwa [hpayload],by rwa [hpayload],?_,
        by rwa [hpayload],hspelled,hturn,htaken⟩
      rw [hpayload, maskFrom_maskFrom, ← hjoined.unread]
      exact hunread
    · exact Or.inl (hgives hspelled)

theorem dataFrame_cases (host : Host) (hl : l < 128) (hopcode : isControlFrame opcode = false)
    (hready : Ready s false (some kind) text) :
    GivesUp (dataFrame host opcode l s) ∨
    (Ruins (dataFrame host opcode l s) ∧ ∃ n key rest,
      Wraps host s.is_fin text l n key s.wfd.reader.unread rest) ∨
    ∃ form key payload s' r', payload.length < Form.limit form ∧ l = form.first payload.length ∧
      s.wfd.reader.unread = form.rest payload.length ++ (List.ofFn key ++
        (maskFrom key 0 payload ++ r'.unread)) ∧
      text.length+payload.length ≤ MAX_FRAME_LENGTH ∧ Spelled s.is_fin kind (text ++ payload) ∧
      dataFrame host opcode l s = some (.tested s') ∧ Taken s s' r' kind (text ++ payload) := by
  obtain ⟨t, hread, hok, hbad, hbuf⟩ | ⟨form, n, key, r1, hn, hfirst, hunread, herror1, hlarge, hhead⟩ :=
    readFrame_cases host opcode s.is_fin s.msg_data s.wfd.frame_size s.msg_idx_data hl hready.error
  · left
    exact dataFrame_refused ⟨t,hread,hok,hbad,by rw [hbuf]; exact hready.holds.live⟩
  · rw [hready.size] at hlarge
    by_cases hwrap : 2^64 ≤ text.length+n
    · obtain hgives | hruins := dataFrame_wraps hopcode hready hn hwrap hfirst hunread hhead
      · exact Or.inl hgives
      · exact Or.inr (Or.inl hruins)
    · rw [Nat.mod_eq_of_lt (by omega)] at hlarge
      obtain hgives | htakes := dataFrame_fits hopcode hready hn hlarge hfirst hunread herror1 hhead
      · exact Or.inl hgives
      · exact Or.inr (Or.inr htakes)

end Pauline.WebSocket
