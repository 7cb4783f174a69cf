import Pauline.WebSocket.ReadFrame
import Pauline.WebSocket.Utf8

/-!
# One message

Frames are read until a message is complete, or the client closes, or something is wrong.
Pings are answered on the way.
-/

set_option autoImplicit false

namespace Pauline.WebSocket
open Buffer Utf8

def WS_CLSE_PROTERR : ℕ := 1002
def WS_CLSE_INVUTF8 : ℕ := 1007

def WS_STATE_OPEN : ℤ := 1
def WS_STATE_CLOSING : ℤ := 2

structure Client where
  state : ℤ
  last_pong_id : ℤ
  current_ping_id : ℤ
  sent : List (List Byte)

structure FrameData where
  reader : Reader
  msg : Pointer
  msg_ctrl : Mem
  frame_type : ℤ
  frame_size : ℕ
  client : Client

/-! ## What is sent -/

def frameHead (type length : ℕ) : List Byte :=
  BitVec.ofNat 8 (WS_FIN ||| type) ::
    (if length ≤ 125 then [BitVec.ofNat 8 (length &&& 0x7F)]
    else if length ≤ 65535 then
      [BitVec.ofNat 8 126,BitVec.ofNat 8 (length >>> 8 &&& 255),BitVec.ofNat 8 (length &&& 255)]
    else
      [BitVec.ofNat 8 127,BitVec.ofNat 8 (length >>> 56 &&& 255),
        BitVec.ofNat 8 (length >>> 48 &&& 255),BitVec.ofNat 8 (length >>> 40 &&& 255),
        BitVec.ofNat 8 (length >>> 32 &&& 255),BitVec.ofNat 8 (length >>> 24 &&& 255),
        BitVec.ofNat 8 (length >>> 16 &&& 255),BitVec.ofNat 8 (length >>> 8 &&& 255),
        BitVec.ofNat 8 (length &&& 255)])

def response (type : ℕ) (msg : List Byte) : List Byte := frameHead type msg.length ++ msg

def wsSendframe (host : Host) (client : Client) (msg : List Byte) (type : ℕ) : ℤ × Client :=
  if host.malloc ((response type msg).length+1) && host.send client.sent (response type msg) then
    ((BitVec.ofNat 32 (response type msg).length).toInt,
      { client with sent := client.sent ++ [response type msg] })
  else (-1,client)

def sendClose (host : Host) (wfd : FrameData) (cc : ℕ) : ℤ × FrameData :=
  let msg_ctrl := put wfd.msg_ctrl 0 [BitVec.ofNat 8 (cc/256),BitVec.ofNat 8 (cc % 256)]
  let (ret,client) := wsSendframe host wfd.client (slice msg_ctrl 0 2) WS_FR_OP_CLSE
  (if ret < 0 then -1 else 0,{ wfd with msg_ctrl := msg_ctrl, client := client })

def doClose (host : Host) (wfd : FrameData) (close_code : Option ℕ) : ℤ × FrameData :=
  match close_code with
  | some cc => sendClose host wfd cc
  | none =>
    let echo :=
      let (ret,client) := wsSendframe host wfd.client (slice wfd.msg_ctrl 0 wfd.frame_size)
        WS_FR_OP_CLSE
      (if ret < 0 then -1 else 0,{ wfd with client := client })
    if wfd.frame_size = 0 ∨ 2 < wfd.frame_size then echo
    else
      let cc := if wfd.frame_size = 1 then (wfd.msg_ctrl 0).toNat
        else (wfd.msg_ctrl 0).toNat*256 ||| (wfd.msg_ctrl 1).toNat
      if (cc < 1000 ∨ 1003 < cc) ∧ (cc < 1007 ∨ 1011 < cc) ∧ (cc < 3000 ∨ 4999 < cc) then
        sendClose host wfd WS_CLSE_PROTERR
      else echo

def doPong (host : Host) (wfd : FrameData) (frame_size : ℕ) : ℤ × FrameData :=
  let (ret,client) := wsSendframe host wfd.client (slice wfd.msg_ctrl 0 frame_size) WS_FR_OP_PONG
  if ret < 0 then (-1,{ wfd with client := client, reader := wfd.reader.fail })
  else (0,{ wfd with client := client })

def pongMsgToInt32 (msg : Mem) : ℤ := (msg 0 ++ msg 1 ++ msg 2 ++ msg 3).toInt

/-! ## A frame of a message -/

structure Assembling where
  wfd : FrameData
  msg_data : Pointer
  msg_idx_data : ℕ
  utf8_state : ℕ
  is_fin : Bool

def Assembling.refuse (s : Assembling) : Assembling :=
  { s with wfd := { s.wfd with reader := s.wfd.reader.fail } }

inductive Turn
  | returned (value : ℤ) (wfd : FrameData)
  | broke (s : Assembling)
  /-- At the test of the loop. -/
  | tested (s : Assembling)

def checkFragment (host : Host) (s : Assembling) (text : List Byte) : Assembling :=
  let utf8_state := isUtf8LenState text s.utf8_state
  let drop := { s.refuse with
    wfd := (doClose host s.refuse.wfd (some WS_CLSE_INVUTF8)).2 }
  if s.is_fin then
    if utf8_state ≠ UTF8_ACCEPT then drop else s
  else
    if utf8_state = UTF8_REJECT then { drop with utf8_state := utf8_state }
    else { s with utf8_state := utf8_state }

def dataFrame (host : Host) (opcode frame_length : ℕ) (s : Assembling) : Option Turn := do
  let r ← readFrame host opcode s.is_fin s.msg_data frame_length s.wfd.frame_size s.msg_idx_data
    s.wfd.reader
  let s := { s with
    wfd := { s.wfd with reader := r.reader, frame_size := r.frame_size }
    msg_data := r.buf
    msg_idx_data := r.msg_idx }
  if !r.ok then some (.broke s)
  else if s.wfd.frame_type = WS_FR_OP_TXT then
    let text ← r.buf.read (r.msg_idx-r.frame_length) r.frame_length
    some (.tested (checkFragment host s text))
  else some (.tested s)

def readCtrl (host : Host) (opcode frame_length : ℕ) (s : Assembling) :
    Option (Bool × ℕ × Assembling) := do
  let r ← readFrame host opcode s.is_fin (.chunk ⟨CTRL_ROOM,s.wfd.msg_ctrl⟩) frame_length 0 0
    s.wfd.reader
  let msg_ctrl := match r.buf with
    | .chunk c => c.bytes
    | _ => s.wfd.msg_ctrl
  some (r.ok,r.frame_size,
    { s with wfd := { s.wfd with reader := r.reader, msg_ctrl := msg_ctrl } })

def pongFrame (host : Host) (opcode frame_length : ℕ) (s : Assembling) : Option Turn := do
  let (ok,frame_size,s) ← readCtrl host opcode frame_length s
  if !ok then some (.broke s)
  else
    let s := { s with is_fin := false }
    if frame_size ≠ 4 then some (.tested s)
    else
      let pong_id := pongMsgToInt32 s.wfd.msg_ctrl
      if pong_id < 0 ∨ s.wfd.client.current_ping_id < pong_id then some (.tested s)
      else some (.tested { s with
        wfd := { s.wfd with client := { s.wfd.client with last_pong_id := pong_id } } })

def pingFrame (host : Host) (opcode frame_length : ℕ) (s : Assembling) : Option Turn := do
  let (ok,frame_size,s) ← readCtrl host opcode frame_length s
  if !ok then some (.broke s)
  else
    let (ret,wfd) := doPong host s.wfd frame_size
    if ret < 0 then some (.broke { s with wfd := wfd })
    else some (.tested { s with wfd := wfd, is_fin := false })

def closeFrame (host : Host) (opcode frame_length : ℕ) (s : Assembling) : Option Turn := do
  let (ok,frame_size,s) ← readCtrl host opcode frame_length s
  if !ok then some (.broke s)
  else if 2 < frame_size ∧ !isUtf8Len (slice s.wfd.msg_ctrl 2 (frame_size-2)) then
    some (.broke s.refuse)
  else do
    free s.msg_data
    some (.returned 0 { s.wfd with frame_size := frame_size, frame_type := WS_FR_OP_CLSE })

def isData (opcode : ℕ) : Bool :=
  opcode = WS_FR_OP_TXT || opcode = WS_FR_OP_BIN || opcode = WS_FR_OP_CONT

def unexpected (frame_type : ℤ) (opcode : ℕ) : Prop :=
  (frame_type = -1 ∧ opcode = WS_FR_OP_CONT) ∨
    (frame_type ≠ -1 ∧ !isControlFrame opcode ∧ opcode ≠ WS_FR_OP_CONT)

instance (frame_type : ℤ) (opcode : ℕ) : Decidable (unexpected frame_type opcode) :=
  inferInstanceAs (Decidable (_ ∨ _))

def frameBody (host : Host) (opcode frame_length : ℕ) (s : Assembling) : Option Turn :=
  if isControlFrame opcode ∧ (!s.is_fin ∨ 125 < frame_length) then some (.broke s.refuse)
  else if isData opcode then dataFrame host opcode frame_length s
  else if opcode = WS_FR_OP_PONG then pongFrame host opcode frame_length s
  else if opcode = WS_FR_OP_PING then pingFrame host opcode frame_length s
  else closeFrame host opcode frame_length s

def knownFrame (host : Host) (opcode : ℕ) (s : Assembling) : Option Turn :=
  if s.wfd.client.state = WS_STATE_CLOSING ∧ opcode ≠ WS_FR_OP_CLSE then some (.broke s.refuse)
  else
    let frame_type : ℤ :=
      if opcode ≠ WS_FR_OP_CONT ∧ !isControlFrame opcode then opcode else s.wfd.frame_type
    let (mask,reader) := nextByte s.wfd.reader
    frameBody host opcode ((BitVec.ofInt 8 mask).toNat &&& 0x7F)
      { s with wfd := { s.wfd with frame_type := frame_type, reader := reader } }

def turn (host : Host) (s : Assembling) : Option Turn :=
  let (cur_byte,reader) := nextByte s.wfd.reader
  if cur_byte = -1 then some (.returned (-1) { s.wfd with reader := reader })
  else
    let is_fin := cur_byte.toNat >>> 7 = 1
    let opcode := cur_byte.toNat &&& 0xF
    let s := { s with is_fin := is_fin, wfd := { s.wfd with reader := reader } }
    if cur_byte.toNat &&& 0x70 ≠ 0 then some (.broke s.refuse)
    else if unexpected s.wfd.frame_type opcode then some (.broke s.refuse)
    else if isData opcode || isControlFrame opcode then knownFrame host opcode s
    else
      let s := s.refuse
      some (.tested { s with wfd := { s.wfd with frame_type := opcode } })

end Pauline.WebSocket
