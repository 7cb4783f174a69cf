import Mathlib.Logic.Relation
import Pauline.Library.Clocked
import Pauline.Server.Clients

/-!
# The connections

Clients connect to the command port, the data port and the websocket port. Each
handler is one step. A transmit thread takes a step from one wait to the next.
-/

set_option autoImplicit false

namespace Pauline.Connections
open Pauline.Messages Pauline.Clients

def maxConnection : ℕ := 128

def maxClients : ℕ := 8

inductive Place
  /-- Before the call of `handle_to_index`. -/
  | calling
  /-- In `msg_out_wait`, before the indices are compared. -/
  | looking (client_id : ℤ)
  /-- In `waitEvent`. -/
  | waiting (client_id : ℤ)
  | ended
deriving DecidableEq

structure TxThread where
  handle : Handle
  place : Place
deriving DecidableEq

structure Server where
  ctx : MsgCtx
  /-- The entry is not NULL. -/
  threadparams_cmd : ℕ → Bool
  threadparams_data : ℕ → Bool
  /-- The connection thread runs. -/
  cmd_thread : ℕ → Bool
  data_thread : ℕ → Bool
  /-- The websocket client is between `onopen` and `onclose`. -/
  web : ℕ → Bool
  tx : List TxThread
  /-- An entry that is NULL was used. -/
  null : Bool
  /-- What was printed since the client connected. -/
  printed : Handle → List (List Char)
  /-- What was sent to it since then. -/
  sent : Handle → List (List Char)
  /-- Fewer than 64 messages were pending at any time since then. -/
  fits : Handle → Bool

inductive Event
  | acceptCmd
  | acceptData
  | onopen (client : ℕ)
  | recvCmd (n : ℕ) (line : List Char)
  | recvData (n : ℕ)
  /-- The connection is closed, or a line has ended it. -/
  | closeCmd (n : ℕ)
  | closeData (n : ℕ)
  | onmessage (client : ℕ) (msg : List Char)
  | onclose (client : ℕ)
  | print (msg : List Char)
  | tx (t : ℕ)

namespace Server

def connected (s : Server) : Handle → Bool
  | .cmd n => s.cmd_thread n
  | .web client => s.web client

def freeEntry (threadparams : ℕ → Bool) : Option ℕ :=
  (List.range maxConnection).find? fun n => !threadparams n

def forget (handle : Handle) (s : Server) : Server :=
  { s with
    printed := Function.update s.printed handle []
    sent := Function.update s.sent handle []
    fits := Function.update s.fits handle true }

def start (handle : Handle) (s : Server) : Server := { s with tx := s.tx ++ [⟨handle,.calling⟩] }

def useCmd (n : ℕ) (s : Server) : Server := { s with null := s.null || !s.threadparams_cmd n }

def useData (n : ℕ) (s : Server) : Server := { s with null := s.null || !s.threadparams_data n }

def acceptCmd (s : Server) : Server :=
  match freeEntry s.threadparams_cmd with
  | none => s
  | some n =>
    let s := { s with threadparams_cmd := Function.update s.threadparams_cmd n true }.useData n
    start (.cmd n) (forget (.cmd n)
      { s with
        ctx := (s.ctx.add_client (.cmd n)).2
        cmd_thread := Function.update s.cmd_thread n true })

/-- The thread of a data connection starts a transmit thread of the command
connection of this number. -/
def acceptData (s : Server) : Server :=
  match freeEntry s.threadparams_data with
  | none => s
  | some n =>
    start (.cmd n)
      { s with
        threadparams_data := Function.update s.threadparams_data n true
        data_thread := Function.update s.data_thread n true }

def onopen (client : ℕ) (s : Server) : Server :=
  let added := s.ctx.add_client (.web client)
  let s := forget (.web client)
    { s with ctx := added.2, web := Function.update s.web client true }
  if 0 ≤ added.1 then start (.web client) s else s

def recvCmd (n : ℕ) (line : List Char) (s : Server) : Server :=
  let s := s.useCmd n
  { s with ctx := s.ctx.msg_push_in_msg (s.ctx.handle_to_index (.cmd n)) line }

def closeCmd (n : ℕ) (s : Server) : Server :=
  let s := s.useCmd n
  { s with
    ctx := s.ctx.exitwait (s.ctx.handle_to_index (.cmd n))
    threadparams_cmd := Function.update s.threadparams_cmd n false
    cmd_thread := Function.update s.cmd_thread n false }

def closeData (n : ℕ) (s : Server) : Server :=
  let s := s.useData n
  { s with
    threadparams_data := Function.update s.threadparams_data n false
    data_thread := Function.update s.data_thread n false }

def onmessage (client : ℕ) (msg : List Char) (s : Server) : Server :=
  { s with ctx := s.ctx.msg_push_in_msg (s.ctx.handle_to_index (.web client)) msg }

def onclose (client : ℕ) (s : Server) : Server :=
  let index := s.ctx.handle_to_index (.web client)
  { s with
    ctx := (s.ctx.exitwait index).remove_client index
    web := Function.update s.web client false }

def print (msg : List Char) (s : Server) : Server :=
  { s with
    ctx := s.ctx.msg_print msg
    printed := fun h => if s.connected h then s.printed h ++ [msg] else s.printed h
    fits := fun h =>
      if s.connected h then
        s.fits h && decide ((s.printed h).length + 1 - (s.sent h).length < maxNbMessages)
      else s.fits h }

def send (handle : Handle) (msg : List Char) (s : Server) : Server :=
  let s := match handle with
    | .cmd n => s.useCmd n
    | .web _ => s
  { s with sent := Function.update s.sent handle (s.sent handle ++ [msg]) }

def move (t : ℕ) (place : Place) (s : Server) : Server :=
  { s with tx := s.tx.modify t fun th => { th with place := place } }

def look (t : ℕ) (handle : Handle) (client_id : ℤ) (s : Server) : Server :=
  let b := s.ctx.clients_out_buffer client_id
  let s := { s with ctx := s.ctx.touch client_id }
  if b.out_index = b.in_index then s.move t (.waiting client_id)
  else
    send handle (strncpy (maxMessagesSize - 1) (b.messages b.out_index))
      ({ s with ctx := s.ctx.modify client_id MsgBuffer.dropMsg }.move t .calling)

def consume (b : MsgBuffer) : MsgBuffer := { b with event := { b.event with signalled := false } }

def wait (t : ℕ) (client_id : ℤ) (s : Server) : Server :=
  let event := (s.ctx.clients_out_buffer client_id).event
  let s := { s with ctx := s.ctx.touch client_id }
  if !event.signalled && !event.cancelled then s
  else
    { s with ctx := s.ctx.modify client_id consume }.move t
      (if event.cancelled then .ended else .looking client_id)

/-- `msg_out_wait` is called with the index of the handle, and uses it at once
unless it is too large. -/
def call (t : ℕ) (handle : Handle) (s : Server) : Server :=
  let client_id := s.ctx.handle_to_index handle
  if client_id > maxNbClients - 1 then s.move t .ended
  else { s with ctx := s.ctx.touch client_id }.move t (.looking client_id)

def stepTx (t : ℕ) (s : Server) : Server :=
  match s.tx[t]? with
  | none => s
  | some th =>
    match th.place with
    | .calling => s.call t th.handle
    | .looking client_id => s.look t th.handle client_id
    | .waiting client_id => s.wait t client_id
    | .ended => s

def step (e : Event) (s : Server) : Server :=
  match e with
  | .acceptCmd => s.acceptCmd
  | .acceptData => s.acceptData
  | .onopen client => s.onopen client
  | .recvCmd n line => s.recvCmd n line
  | .recvData n => s.useData n
  | .closeCmd n => s.closeCmd n
  | .closeData n => s.closeData n
  | .onmessage client msg => s.onmessage client msg
  | .onclose client => s.onclose client
  | .print msg => s.print msg
  | .tx t => s.stepTx t

def Can (e : Event) (s : Server) : Prop :=
  match e with
  | .onopen client => client < maxClients ∧ s.web client = false
  | .recvCmd n _ => s.cmd_thread n = true
  | .recvData n => s.data_thread n = true
  | .closeCmd n => s.cmd_thread n = true
  | .closeData n => s.data_thread n = true
  | .onmessage client _ => s.web client = true
  | .onclose client => s.web client = true
  | _ => True

instance : (e : Event) → (s : Server) → Decidable (Can e s)
  | .acceptCmd, _ => inferInstanceAs (Decidable True)
  | .acceptData, _ => inferInstanceAs (Decidable True)
  | .onopen client, s => inferInstanceAs (Decidable (client < maxClients ∧ s.web client = false))
  | .recvCmd n _, s => inferInstanceAs (Decidable (s.cmd_thread n = true))
  | .recvData n, s => inferInstanceAs (Decidable (s.data_thread n = true))
  | .closeCmd n, s => inferInstanceAs (Decidable (s.cmd_thread n = true))
  | .closeData n, s => inferInstanceAs (Decidable (s.data_thread n = true))
  | .onmessage client _, s => inferInstanceAs (Decidable (s.web client = true))
  | .onclose client, s => inferInstanceAs (Decidable (s.web client = true))
  | .print _, _ => inferInstanceAs (Decidable True)
  | .tx _, _ => inferInstanceAs (Decidable True)

def init : Server where
  ctx := MsgCtx.init
  threadparams_cmd _ := false
  threadparams_data _ := false
  cmd_thread _ := false
  data_thread _ := false
  web _ := false
  tx := []
  null := false
  printed _ := []
  sent _ := []
  fits _ := true

def run (events : List Event) : Server := events.foldl (fun s e => s.step e) init

end Server

theorem update_true {f : ℕ → Bool} {n m : ℕ} :
    Function.update f n true m = true ↔ m = n ∨ f m = true := by
  rw [Function.update_apply]
  split_ifs with h <;> simp [h]

theorem update_false {f : ℕ → Bool} {n m : ℕ} :
    Function.update f n false m = true ↔ m ≠ n ∧ f m = true := by
  rw [Function.update_apply]
  split_ifs with h <;> simp [h]

theorem mem_start {s : Server} {handle : Handle} {th : TxThread} :
    th ∈ (s.start handle).tx ↔ th ∈ s.tx ∨ th = ⟨handle,.calling⟩ := by
  rw [Server.start, List.mem_append, List.mem_singleton]

/-- A thread that has moved is at its new place; the others stay. -/
theorem mem_move {s : Server} {t : ℕ} {place : Place} {th : TxThread}
    (h : th ∈ (s.move t place).tx) : th ∈ s.tx ∨ th.place = place := by
  obtain ⟨k, hk⟩ := List.mem_iff_getElem?.mp h
  rw [Server.move, List.getElem?_modify] at hk
  split_ifs at hk with ht
  · cases hth : s.tx[k]? with
    | none => simp [hth] at hk
    | some th' =>
      rw [hth, Option.map_eq_map, Option.map_some, Option.some.injEq] at hk
      exact Or.inr (hk ▸ rfl)
  · exact Or.inl (List.mem_of_getElem? (by simpa using hk))

end Pauline.Connections
