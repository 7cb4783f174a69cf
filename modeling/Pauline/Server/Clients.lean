import Pauline.Server.Messages

/-!
# The table of the clients

A client has a place of the table while it is connected: a buffer of the
messages printed for it, and the handle it is found by.
-/

set_option autoImplicit false

namespace Pauline.Clients
open Pauline.Messages

/-- What a client is known by: its connection number with bit 31 set, or the
address of its record in the websocket server, which is below that bit. -/
inductive Handle
  | cmd (connection : ℕ)
  | web (client : ℕ)
deriving DecidableEq

structure MsgCtx where
  clients_out_buffer : ℤ → MsgBuffer
  handles : ℤ → Handle
  in_buffer : MsgBuffer
  in_event : WaitEvent
  /-- An index was used that no place has. -/
  outside : Bool

def InTable (i : ℤ) : Prop := 0 ≤ i ∧ i < maxNbClients

instance (i : ℤ) : Decidable (InTable i) := inferInstanceAs (Decidable (_ ∧ _))

def firstPlace (stop : ℤ → Bool) : Option ℤ :=
  ((List.range maxNbClients).map Nat.cast).find? stop

namespace MsgCtx

def touch (i : ℤ) (c : MsgCtx) : MsgCtx := { c with outside := c.outside || !decide (InTable i) }

def modify (i : ℤ) (f : MsgBuffer → MsgBuffer) (c : MsgCtx) : MsgCtx :=
  { c with
    clients_out_buffer := Function.update c.clients_out_buffer i (f (c.clients_out_buffer i)) }

def handle_to_index (handle : Handle) (c : MsgCtx) : ℤ :=
  match firstPlace fun i => (c.clients_out_buffer i).enabled && c.handles i = handle with
  | some i => i
  | none => -1

def blank : ℕ → List Char := fun _ => List.replicate maxMessagesSize nul

def freePlace (c : MsgCtx) : Option ℤ := firstPlace fun i => !(c.clients_out_buffer i).enabled

def occupy (i : ℤ) (handle : Handle) (c : MsgCtx) : MsgCtx :=
  { c with
    handles := Function.update c.handles i handle
    clients_out_buffer :=
      Function.update c.clients_out_buffer i ⟨true,0,0,blank,⟨false,false⟩⟩ }

def add_client (handle : Handle) (c : MsgCtx) : ℤ × MsgCtx :=
  match c.freePlace with
  | some i => (i,c.occupy i handle)
  | none => (-1,c.touch maxNbClients)

def remove_client (client_id : ℤ) (c : MsgCtx) : MsgCtx :=
  if client_id > maxNbClients - 1 then c
  else if (c.clients_out_buffer client_id).enabled then
    (c.touch client_id).modify client_id fun b =>
      { b with out_index := 0, in_index := 0, messages := blank, enabled := false }
  else c.touch client_id

def msg_print (msg : List Char) (c : MsgCtx) : MsgCtx :=
  { c with
    clients_out_buffer := fun i =>
      let b := c.clients_out_buffer i
      if InTable i ∧ b.enabled then
        { b.putMsg msg with event := { b.event with signalled := true } }
      else b }

def cancel (b : MsgBuffer) : MsgBuffer :=
  { b with in_index := 0, out_index := 0, event := { b.event with cancelled := true } }

def exitwait (client_id : ℤ) (c : MsgCtx) : MsgCtx :=
  if client_id < 0 then c
  else
    (c.touch client_id).modify client_id cancel

def msg_push_in_msg (client_id : ℤ) (msg : List Char) (c : MsgCtx) : MsgCtx :=
  if client_id > maxNbClients - 1 then c
  else if (c.clients_out_buffer client_id).enabled then
    { c.touch client_id with
      in_buffer := c.in_buffer.putMsg msg
      in_event := { c.in_event with signalled := true } }
  else c.touch client_id

def init : MsgCtx where
  clients_out_buffer _ := ⟨false,0,0,blank,⟨false,false⟩⟩
  handles _ := .web 0
  in_buffer := ⟨false,0,0,blank,⟨false,false⟩⟩
  in_event := ⟨false,false⟩
  outside := false

end MsgCtx

/-! ## The places -/

theorem firstPlace_some {stop : ℤ → Bool} {i : ℤ} (h : firstPlace stop = some i) :
    InTable i ∧ stop i = true := by
  refine ⟨?_,List.find?_some h⟩
  obtain ⟨k, hk, rfl⟩ := List.mem_map.mp (List.mem_of_find?_eq_some h)
  rw [List.mem_range] at hk
  exact ⟨by omega,by exact_mod_cast hk⟩

theorem firstPlace_none {stop : ℤ → Bool} (h : firstPlace stop = none) {i : ℤ} (hi : InTable i) :
    stop i = false := by
  rw [firstPlace, List.find?_eq_none] at h
  have hmem : i ∈ (List.range maxNbClients).map (Nat.cast : ℕ → ℤ) := by
    obtain ⟨hpos, hlt⟩ := hi
    obtain ⟨k, rfl⟩ := Int.eq_ofNat_of_zero_le hpos
    exact List.mem_map.mpr ⟨k,List.mem_range.mpr (by exact_mod_cast hlt),rfl⟩
  exact eq_false_of_ne_true (h i hmem)

structure Holding (buffers : ℤ → MsgBuffer) (handles : ℤ → Handle) (i : ℤ) (handle : Handle) :
    Prop where
  inTable : InTable i
  enabled : (buffers i).enabled = true
  handle : handles i = handle

section Holding
variable {buffers : ℤ → MsgBuffer} {handles : ℤ → Handle} {i j : ℤ} {b : MsgBuffer} {other : Handle}

theorem holding_congr {buffers' : ℤ → MsgBuffer}
    (henabled : ∀ i, (buffers' i).enabled = (buffers i).enabled) :
    Holding buffers' handles j other ↔ Holding buffers handles j other :=
  ⟨fun h => ⟨h.inTable,(henabled j).symm.trans h.enabled,h.handle⟩,
    fun h => ⟨h.inTable,(henabled j).trans h.enabled,h.handle⟩⟩

theorem holding_update (hb : b.enabled = (buffers i).enabled) :
    Holding (Function.update buffers i b) handles j other ↔ Holding buffers handles j other := by
  apply holding_congr
  intro k
  rw [Function.update_apply]
  split_ifs with hk
  · rw [hb, hk]
  · rfl

/-- The new client has its place, and the others keep theirs. -/
theorem holding_occupy (hi : InTable i) (hb : b.enabled = true) (handle : Handle) :
    Holding (Function.update buffers i b) (Function.update handles i handle) j other ↔
      (if j = i then other = handle else Holding buffers handles j other) := by
  split_ifs with hj
  · subst hj
    constructor
    · intro hold
      have hhandle := hold.handle
      rw [Function.update_self] at hhandle
      exact hhandle.symm
    · intro hother
      exact ⟨hi,by rw [Function.update_self, hb],by rw [Function.update_self, hother]⟩
  · constructor
    · rintro ⟨htable, henabled, hhandle⟩
      rw [Function.update_of_ne hj] at henabled hhandle
      exact ⟨htable,henabled,hhandle⟩
    · rintro ⟨htable, henabled, hhandle⟩
      rw [← Function.update_of_ne hj b buffers] at henabled
      rw [← Function.update_of_ne hj handle handles] at hhandle
      exact ⟨htable,henabled,hhandle⟩

theorem holding_remove (hb : b.enabled = false) :
    Holding (Function.update buffers i b) handles j other ↔
      j ≠ i ∧ Holding buffers handles j other := by
  constructor
  · rintro ⟨htable, henabled, hhandle⟩
    have hne : j ≠ i := by
      rintro rfl
      rw [Function.update_self, hb] at henabled
      exact Bool.noConfusion henabled
    rw [Function.update_of_ne hne] at henabled
    exact ⟨hne,htable,henabled,hhandle⟩
  · rintro ⟨hne, htable, henabled, hhandle⟩
    rw [← Function.update_of_ne hne b buffers] at henabled
    exact ⟨htable,henabled,hhandle⟩

end Holding

namespace MsgCtx
variable {c : MsgCtx}

abbrev Holds (c : MsgCtx) (i : ℤ) (handle : Handle) : Prop :=
  Holding c.clients_out_buffer c.handles i handle

def Known (handle : Handle) (c : MsgCtx) : Prop := ∃ i, c.Holds i handle

theorem handle_to_index_holds {handle : Handle} (h : c.Known handle) :
    c.Holds (c.handle_to_index handle) handle := by
  unfold handle_to_index
  split
  next i hi =>
    obtain ⟨htable, hstop⟩ := firstPlace_some hi
    rw [Bool.and_eq_true, decide_eq_true_eq] at hstop
    exact ⟨htable,hstop.1,hstop.2⟩
  next hnone =>
    obtain ⟨i, hi⟩ := h
    have hstop := firstPlace_none hnone hi.inTable
    rw [hi.enabled, hi.handle, decide_eq_true rfl] at hstop
    exact Bool.noConfusion hstop

theorem handle_to_index_unknown {handle : Handle} (h : ¬c.Known handle) :
    c.handle_to_index handle = -1 := by
  unfold handle_to_index
  split
  next i hi =>
    obtain ⟨htable, hstop⟩ := firstPlace_some hi
    rw [Bool.and_eq_true, decide_eq_true_eq] at hstop
    exact absurd ⟨i,htable,hstop.1,hstop.2⟩ h
  next => rfl

theorem known_iff {handle : Handle} : c.Known handle ↔ InTable (c.handle_to_index handle) := by
  refine ⟨fun h => (handle_to_index_holds h).inTable,fun h => ?_⟩
  by_contra hunknown
  rw [handle_to_index_unknown hunknown] at h
  exact absurd h.1 (by decide)

instance (handle : Handle) : Decidable (c.Known handle) := decidable_of_iff _ known_iff.symm

theorem freePlace_some {i : ℤ} (h : c.freePlace = some i) :
    InTable i ∧ (c.clients_out_buffer i).enabled = false := by
  obtain ⟨htable, hstop⟩ := firstPlace_some h
  exact ⟨htable,by simpa using hstop⟩

theorem freePlace_none (h : c.freePlace = none) {i : ℤ} (hi : InTable i) :
    (c.clients_out_buffer i).enabled = true := by
  have hstop := firstPlace_none h hi
  simpa using hstop

theorem touch_inTable {i : ℤ} (h : InTable i) : c.touch i = c := by
  rw [touch, decide_eq_true h, Bool.not_true, Bool.or_false]

theorem holds_modify {i : ℤ} {f : MsgBuffer → MsgBuffer}
    (hf : ∀ b, (f b).enabled = b.enabled) {j : ℤ} {handle : Handle} :
    (c.modify i f).Holds j handle ↔ c.Holds j handle := holding_update (hf _)

theorem add_client_free {i : ℤ} (h : c.freePlace = some i) (handle : Handle) :
    c.add_client handle = (i,c.occupy i handle) := by
  rw [add_client, h]

theorem add_client_full (h : c.freePlace = none) (handle : Handle) :
    c.add_client handle = (-1,c.touch maxNbClients) := by
  rw [add_client, h]

theorem holds_occupy {i : ℤ} (h : InTable i) (handle : Handle) {j : ℤ} {other : Handle} :
    (c.occupy i handle).Holds j other ↔ (if j = i then other = handle else c.Holds j other) :=
  holding_occupy h rfl handle

theorem known_occupy {i : ℤ} (hi : c.freePlace = some i) (handle : Handle) :
    (c.occupy i handle).Known handle ∧
      ∀ other, c.Known other → (c.occupy i handle).Known other := by
  obtain ⟨htable, hfree⟩ := freePlace_some hi
  refine ⟨⟨i,(holds_occupy htable handle).mpr (by rw [if_pos rfl])⟩,?_⟩
  rintro other ⟨j, hj⟩
  have hne : j ≠ i := by
    rintro rfl
    exact absurd (hj.enabled.symm.trans hfree) (by decide)
  exact ⟨j,(holds_occupy htable handle).mpr (by rw [if_neg hne]; exact hj)⟩

theorem exitwait_of_inTable {i : ℤ} (h : InTable i) : c.exitwait i = c.modify i cancel := by
  rw [exitwait, if_neg (not_lt.mpr h.1), touch_inTable h]

theorem remove_client_of_holds {i : ℤ} {handle : Handle} (h : c.Holds i handle) :
    c.remove_client i = c.modify i fun b =>
      { b with out_index := 0, in_index := 0, messages := blank, enabled := false } := by
  have hle : ¬i > maxNbClients - 1 := by
    have := h.inTable.2
    omega
  rw [remove_client, if_neg hle, if_pos h.enabled, touch_inTable h.inTable]

/-- What is left of a client that has been told to leave and removed. -/
theorem close_of_holds {i : ℤ} {handle : Handle} (h : c.Holds i handle) :
    (c.exitwait i).remove_client i = c.modify i fun b =>
      { b with
        out_index := 0, in_index := 0, messages := blank, enabled := false
        event := { b.event with cancelled := true } } := by
  have hexit := exitwait_of_inTable (c := c) h.inTable
  have hold : (c.exitwait i).Holds i handle := by
    rw [hexit]
    exact (holds_modify (f := cancel) fun _ => rfl).mpr h
  rw [remove_client_of_holds hold, hexit]
  simp only [modify, cancel, Function.update_self, Function.update_idem]

theorem holds_close {i : ℤ} {handle : Handle} (h : c.Holds i handle) {j : ℤ} {other : Handle} :
    ((c.exitwait i).remove_client i).Holds j other ↔ j ≠ i ∧ c.Holds j other := by
  rw [close_of_holds h]
  exact holding_remove rfl

theorem push_of_holds {i : ℤ} {handle : Handle} (h : c.Holds i handle) (msg : List Char) :
    c.msg_push_in_msg i msg =
      { c with
        in_buffer := c.in_buffer.putMsg msg
        in_event := { c.in_event with signalled := true } } := by
  have hle : ¬i > maxNbClients - 1 := by
    have := h.inTable.2
    omega
  rw [msg_push_in_msg, if_neg hle, if_pos h.enabled, touch_inTable h.inTable]

theorem holds_msg_print {msg : List Char} {j : ℤ} {handle : Handle} :
    (c.msg_print msg).Holds j handle ↔ c.Holds j handle := by
  apply holding_congr
  intro i
  simp only [msg_print]
  split_ifs <;> rfl

theorem touch_outside {i : ℤ} (h : ¬InTable i) : (c.touch i).outside = true := by
  rw [touch, decide_eq_false h, Bool.not_false, Bool.or_true]

end MsgCtx

end Pauline.Clients
