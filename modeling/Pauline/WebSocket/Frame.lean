import Pauline.Library.Buffer
import Pauline.Library.Utf8

/-!
# Frames

What a client and the server write to each other. A message of a client is cut into
fragments, and pings and pongs may stand between them.
-/

set_option autoImplicit false

namespace Pauline.WebSocket
open Buffer Utf8

def MESSAGE_LENGTH : ℕ := 2048
def MAX_FRAME_LENGTH : ℕ := 16*1024*1024

def WS_FR_OP_CONT : ℕ := 0
def WS_FR_OP_TXT : ℕ := 1
def WS_FR_OP_BIN : ℕ := 2
def WS_FR_OP_CLSE : ℕ := 8
def WS_FR_OP_PING : ℕ := 0x9
def WS_FR_OP_PONG : ℕ := 0xA

inductive Opcode
  | cont | txt | bin | clse | ping | pong
deriving DecidableEq

namespace Opcode

def code : Opcode → ℕ
  | cont => WS_FR_OP_CONT
  | txt => WS_FR_OP_TXT
  | bin => WS_FR_OP_BIN
  | clse => WS_FR_OP_CLSE
  | ping => WS_FR_OP_PING
  | pong => WS_FR_OP_PONG

theorem code_inj {opcode opcode' : Opcode} (h : opcode.code = opcode'.code) : opcode = opcode' := by
  cases opcode <;> cases opcode' <;> first | rfl | exact absurd h (by decide)

end Opcode

inductive Form
  | short | word | long
deriving DecidableEq

namespace Form

def limit : Form → ℕ
  | short => 126
  | word => 2^16
  | long => 2^64

def first (n : ℕ) : Form → ℕ
  | short => n
  | word => 126
  | long => 127

def rest (n : ℕ) : Form → List Byte
  | short => []
  | word => big 2 n
  | long => big 8 n

theorem first_lt {form : Form} {n : ℕ} (h : n < form.limit) : form.first n < 128 := by
  cases form with
  | short => exact Nat.lt_of_lt_of_le h (by decide)
  | word => show 126 < 128; decide
  | long => show 127 < 128; decide

end Form

def keyIndex (i : ℕ) : Fin 4 := ⟨i % 4,Nat.mod_lt i (Nat.zero_lt_succ 3)⟩

def maskFrom (key : Fin 4 → Byte) (i : ℕ) : List Byte → List Byte
  | [] => []
  | b :: bs => (b ^^^ key (keyIndex i)) :: maskFrom key (i+1) bs

@[simp] theorem maskFrom_length (key : Fin 4 → Byte) (i : ℕ) (bs : List Byte) :
    (maskFrom key i bs).length = bs.length := by
  induction bs generalizing i with
  | nil => rfl
  | cons b bs ih => rw [maskFrom, List.length_cons, List.length_cons, ih]

theorem maskFrom_maskFrom (key : Fin 4 → Byte) (i : ℕ) (bs : List Byte) :
    maskFrom key i (maskFrom key i bs) = bs := by
  induction bs generalizing i with
  | nil => rfl
  | cons b bs ih =>
    rw [maskFrom, maskFrom, ih, BitVec.xor_assoc, BitVec.xor_self, BitVec.xor_zero]

structure Frame where
  fin : Bool
  opcode : Opcode
  /-- The server reads a key whether this is set or not. -/
  masked : Bool
  form : Form
  key : Fin 4 → Byte
  payload : List Byte
  fits : payload.length < form.limit

namespace Frame

def head0 (f : Frame) : Byte := BitVec.ofNat 8 (f.fin.toNat*128+f.opcode.code)

def head1 (f : Frame) : Byte := BitVec.ofNat 8 (f.masked.toNat*128+f.form.first f.payload.length)

def encode (f : Frame) : List Byte :=
  f.head0 :: f.head1 :: (f.form.rest f.payload.length ++ (List.ofFn f.key ++
    maskFrom f.key 0 f.payload))

def Aside (f : Frame) : Prop :=
  (f.opcode = .ping ∨ f.opcode = .pong) ∧ f.fin = true ∧ f.form = .short

def Closes (f : Frame) : Prop := f.opcode = .clse ∧ f.fin = true ∧ f.form = .short

end Frame

def encodeAll (fs : List Frame) : List Byte := fs.flatMap Frame.encode

/-! ## Messages -/

inductive Kind
  | txt | bin
deriving DecidableEq

def Kind.opcode : Kind → Opcode
  | txt => .txt
  | bin => .bin

def Frame.Goes (f : Frame) (before : Option Kind) (kind : Kind) : Prop :=
  before = none ∧ f.opcode = kind.opcode ∨ before = some kind ∧ f.opcode = .cont

inductive Begun : List Frame → Option Kind → List Byte → Prop
  | nothing : Begun [] none []
  | aside {fs : List Frame} {before : Option Kind} {text : List Byte} {f : Frame} :
      Begun fs before text → f.Aside → Begun (fs ++ [f]) before text
  | more {fs : List Frame} {before : Option Kind} {text : List Byte} {f : Frame} {kind : Kind} :
      Begun fs before text → f.Goes before kind → f.fin = false →
        Begun (fs ++ [f]) (some kind) (text ++ f.payload)

structure Opened (fs : List Frame) (before : Option Kind) (text : List Byte) : Prop where
  begun : Begun fs before text
  small : text.length ≤ MAX_FRAME_LENGTH
  chars : before = some .txt → ∃ more, Text (text ++ more)

inductive Complete : List Frame → Kind → List Byte → Prop
  | last {fs : List Frame} {before : Option Kind} {text : List Byte} {f : Frame} {kind : Kind} :
      Begun fs before text → f.Goes before kind → f.fin = true →
        Complete (fs ++ [f]) kind (text ++ f.payload)

structure Carries (fs : List Frame) (kind : Kind) (text : List Byte) : Prop where
  complete : Complete fs kind text
  small : text.length ≤ MAX_FRAME_LENGTH
  chars : kind = .txt → Text text

theorem encodeAll_snoc (fs : List Frame) (f : Frame) (rest : List Byte) :
    encodeAll (fs ++ [f]) ++ rest = encodeAll fs ++ (f.encode ++ rest) := by
  rw [encodeAll, List.flatMap_append, List.flatMap_singleton, List.append_assoc]
  rfl

/-! ## What the server writes -/

def WS_FIN : ℕ := 128

def formOf (n : ℕ) : Form := if n ≤ 125 then .short else if n ≤ 65535 then .word else .long

end Pauline.WebSocket
