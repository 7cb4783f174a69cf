import Pauline.Library.CircularBuffer
import Mathlib.Tactic

/-!
# The message buffers

The messages of the server stand in buffers of 64 texts: one of the commands
the clients send, and for each client one of the texts printed for it.
-/

set_option autoImplicit false

namespace Pauline.Messages

def maxNbClients : ℕ := 64
def maxNbMessages : ℕ := 64
def maxMessagesSize : ℕ := 512

def nul : Char := Char.ofNat 0

def cString (mem : List Char) : List Char := mem.takeWhile (· ≠ nul)

def strncpy (size : ℕ) (msg : List Char) : List Char :=
  (cString msg).take size ++ List.replicate (size - (cString msg).length) nul

structure WaitEvent where
  signalled : Bool
  cancelled : Bool
deriving DecidableEq

structure MsgBuffer where
  enabled : Bool
  in_index : ℕ
  out_index : ℕ
  messages : ℕ → List Char
  event : WaitEvent

def nextIndex (i : ℕ) : ℕ := (i + 1) &&& (maxNbMessages - 1)

def MsgBuffer.putMsg (msg : List Char) (b : MsgBuffer) : MsgBuffer :=
  { b with
    messages := Function.update b.messages (b.in_index &&& (maxNbMessages - 1))
      (strncpy (maxMessagesSize - 1) msg ++ [nul])
    in_index := nextIndex b.in_index
    out_index := if nextIndex b.in_index = b.out_index then nextIndex b.out_index else b.out_index }

def MsgBuffer.copyMsg (b : MsgBuffer) (outbuf : List Char) : List Char :=
  strncpy (maxMessagesSize - 1) (b.messages b.out_index) ++ outbuf.drop (maxMessagesSize - 1)

def MsgBuffer.dropMsg (b : MsgBuffer) : MsgBuffer := { b with out_index := nextIndex b.out_index }

/-! ## As a circular buffer -/

def MsgBuffer.ring (b : MsgBuffer) : CircularBuffer (List Char) maxNbMessages :=
  ⟨b.messages,b.in_index,b.out_index⟩

def MsgBuffer.pending (b : MsgBuffer) : List (List Char) := b.ring.contents

def entry (msg : List Char) : List Char := strncpy (maxMessagesSize - 1) msg ++ [nul]

theorem mask_eq_mod (i : ℕ) : i &&& (maxNbMessages - 1) = i % maxNbMessages :=
  Nat.and_two_pow_sub_one_eq_mod i 6

theorem nextIndex_eq (i : ℕ) : nextIndex i = (i + 1) % maxNbMessages := mask_eq_mod _

theorem ring_putMsg (msg : List Char) (b : MsgBuffer) (h : b.ring.Valid) :
    (b.putMsg msg).ring = b.ring.push (entry msg) := by
  have hin : b.in_index % maxNbMessages = b.in_index := Nat.mod_eq_of_lt h.inIndex_lt
  simp only [MsgBuffer.ring, MsgBuffer.putMsg, CircularBuffer.push, nextIndex_eq, mask_eq_mod, hin]
  rfl

theorem ring_dropMsg (b : MsgBuffer) : b.dropMsg.ring = b.ring.pop := by
  simp only [MsgBuffer.ring, MsgBuffer.dropMsg, CircularBuffer.pop, nextIndex_eq]

theorem pending_putMsg (msg : List Char) (b : MsgBuffer) (h : b.ring.Valid) :
    (b.putMsg msg).pending = boundedPush (maxNbMessages - 1) (entry msg) b.pending := by
  rw [MsgBuffer.pending, ring_putMsg msg b h, CircularBuffer.push_contents h _ (by decide)]
  rfl

/-- The message copied out is the one dropped. -/
theorem pending_dropMsg (b : MsgBuffer) (h : b.ring.Valid) (hne : b.out_index ≠ b.in_index) :
    b.pending = b.messages b.out_index :: b.dropMsg.pending := by
  rw [MsgBuffer.pending, CircularBuffer.contents_pop h (decide_eq_false hne), ← ring_dropMsg]
  rfl

theorem pending_eq_nil_iff (b : MsgBuffer) (h : b.ring.Valid) :
    b.pending = [] ↔ b.out_index = b.in_index := by
  rw [MsgBuffer.pending, ← CircularBuffer.isEmpty_iff h]
  exact decide_eq_true_iff

/-! ## As texts -/

theorem strncpy_length (size : ℕ) (msg : List Char) : (strncpy size msg).length = size := by
  simp only [strncpy, List.length_append, List.length_take, List.length_replicate]
  omega

theorem nul_notMem_cString (mem : List Char) : nul ∉ cString mem := by
  intro h
  have hc := List.all_eq_true.mp (List.all_takeWhile (p := (· ≠ nul)) (l := mem)) nul h
  exact absurd rfl (of_decide_eq_true hc)

theorem cString_eq_self {text : List Char} (h : nul ∉ text) : cString text = text := by
  induction text with
  | nil => rfl
  | cons c text ih =>
    rw [List.mem_cons, not_or] at h
    have hc : decide (c ≠ nul) = true := decide_eq_true (Ne.symm h.1)
    exact (List.takeWhile_cons_of_pos (p := (· ≠ nul)) hc).trans (congrArg _ (ih h.2))

theorem cString_append_nul (text rest : List Char) (h : nul ∉ text) :
    cString (text ++ nul :: rest) = text := by
  induction text with
  | nil => simp [cString]
  | cons c text ih =>
    rw [List.mem_cons, not_or] at h
    simp only [cString, List.cons_append, List.takeWhile_cons, ne_eq, Ne.symm h.1,
      not_false_eq_true, decide_true, if_true, List.cons.injEq, true_and]
    exact ih h.2

/-- What has been copied reads as the first characters of the text. -/
theorem cString_strncpy (size : ℕ) (msg rest : List Char) :
    cString (strncpy size msg ++ nul :: rest) = (cString msg).take size := by
  have hnul : nul ∉ (cString msg).take size := fun h => nul_notMem_cString msg (List.mem_of_mem_take h)
  rw [strncpy, List.append_assoc]
  cases hpad : size - (cString msg).length with
  | zero => exact cString_append_nul _ _ hnul
  | succ k =>
    rw [List.replicate_succ, List.cons_append]
    exact cString_append_nul _ _ hnul

theorem strncpy_entry (msg : List Char) :
    strncpy (maxMessagesSize - 1) (entry msg) = strncpy (maxMessagesSize - 1) msg := by
  have hread : cString (entry msg) = (cString msg).take (maxMessagesSize - 1) :=
    cString_strncpy _ msg []
  rw [strncpy, hread, List.take_take, Nat.min_self, List.length_take, strncpy]
  congr 2
  omega

end Pauline.Messages
