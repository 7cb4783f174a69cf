import Pauline.Library.Clocked
import Pauline.Server.Messages

/-!
# The command queue

Clients put commands into one buffer and the script thread takes them out. The
buffer has a mutex and the event that wakes the script thread has another: a
step is what a thread does while it holds one of them, or between them.
-/

set_option autoImplicit false

namespace Pauline.InputQueue
open Pauline.Messages

inductive Producer
  | idle
  /-- It has pushed, and `sendEvent` has not set `signalled` yet. -/
  | pushed
  /-- `sendEvent` has set `signalled`, and `pthread_cond_signal` is to come. -/
  | signalling
deriving DecidableEq

inductive Consumer
  | entry
  /-- The buffer was empty, and `waitEvent` has not looked at the event yet. -/
  | waiting
  /-- In `pthread_cond_wait`. -/
  | blocked
  | woken
  /-- `waitEvent` has returned. -/
  | leaving
deriving DecidableEq

structure Server (ι : Type) where
  in_buffer : MsgBuffer
  in_event : WaitEvent
  producers : ι → Producer
  consumer : Consumer
  recvbuf : List Char
  pushed : List (List Char)
  /-- What the calls of `msg_in_wait` have returned. -/
  results : List (Option (List Char))

inductive Event (ι : Type)
  /-- The mutex of the buffer, held by a call that has found its client enabled or not. -/
  | push (i : ι) (enabled : Bool) (msg : List Char)
  | send (i : ι)
  | signal (i : ι)
  /-- The first time `msg_in_wait` holds the mutex of the buffer. -/
  | look
  /-- `waitEvent` tests the event, and waits or returns. -/
  | test
  /-- `pthread_cond_wait` may return without a signal. -/
  | wake
  /-- The second time. -/
  | lookAgain

section Model
variable {ι : Type} [DecidableEq ι]

def Server.receive (s : Server ι) : Server ι :=
  { s with
    recvbuf := s.in_buffer.copyMsg s.recvbuf
    results := s.results ++ [some ((s.in_buffer.copyMsg s.recvbuf).take (maxMessagesSize - 1))]
    in_buffer := s.in_buffer.dropMsg
    consumer := .entry }

def Server.step (e : Event ι) (s : Server ι) : Server ι :=
  match e with
  | .push i enabled msg =>
    if enabled then
      { s with
        in_buffer := s.in_buffer.putMsg msg
        producers := Function.update s.producers i .pushed
        pushed := s.pushed ++ [msg] }
    else s
  | .send i =>
    { s with
      in_event := { s.in_event with signalled := true }
      producers := Function.update s.producers i .signalling }
  | .signal i =>
    { s with
      consumer := if s.consumer = .blocked then .woken else s.consumer
      producers := Function.update s.producers i .idle }
  | .look =>
    if s.in_buffer.out_index = s.in_buffer.in_index then { s with consumer := .waiting }
    else s.receive
  | .test =>
    if !s.in_event.signalled && !s.in_event.cancelled then { s with consumer := .blocked }
    else
      { s with
        in_event := { s.in_event with signalled := false }
        consumer := .leaving }
  | .wake => { s with consumer := .woken }
  | .lookAgain =>
    if s.in_buffer.out_index ≠ s.in_buffer.in_index then s.receive
    else { s with results := s.results ++ [none], consumer := .entry }

def Can (e : Event ι) (s : Server ι) : Prop :=
  match e with
  | .push i _ _ => s.producers i = .idle
  | .send i => s.producers i = .pushed
  | .signal i => s.producers i = .signalling
  | .look => s.consumer = .entry
  | .test => s.consumer = .waiting ∨ s.consumer = .woken
  | .wake => s.consumer = .blocked
  | .lookAgain => s.consumer = .leaving

def Server.init (recvbuf : List Char) : Server ι where
  in_buffer := ⟨false,0,0,fun _ => List.replicate maxMessagesSize nul,⟨false,false⟩⟩
  in_event := ⟨false,false⟩
  producers _ := .idle
  consumer := .entry
  recvbuf := recvbuf
  pushed := []
  results := []

instance : (e : Event ι) → (s : Server ι) → Decidable (Can e s)
  | .push i _ _, s => inferInstanceAs (Decidable (s.producers i = .idle))
  | .send i, s => inferInstanceAs (Decidable (s.producers i = .pushed))
  | .signal i, s => inferInstanceAs (Decidable (s.producers i = .signalling))
  | .look, s => inferInstanceAs (Decidable (s.consumer = .entry))
  | .test, s => inferInstanceAs (Decidable (s.consumer = .waiting ∨ s.consumer = .woken))
  | .wake, s => inferInstanceAs (Decidable (s.consumer = .blocked))
  | .lookAgain, s => inferInstanceAs (Decidable (s.consumer = .leaving))

/-! ## The queue -/

def firstBytes (msg : List Char) : List Char := strncpy (maxMessagesSize - 1) msg

/-- What a step is for the bounded queue of messages: a push of an enabled client
pushes, and `msg_in_wait` pops where it returns. -/
def Event.act (e : Event ι) (q : BoundedFifo (List Char)) : BoundedFifo (List Char) :=
  match e with
  | .push _ true msg => q.push (maxNbMessages - 1) (firstBytes msg)
  | .look => if q.queue = [] then q else q.pop
  | .lookAgain => q.pop
  | _ => q

def Server.fifo (s : Server ι) : BoundedFifo (List Char) where
  pushed := s.pushed.map firstBytes
  queue := s.in_buffer.pending.map (List.take (maxMessagesSize - 1))
  popped := s.results

theorem take_entry (msg : List Char) :
    (entry msg).take (maxMessagesSize - 1) = firstBytes msg := by
  rw [entry, List.take_append_of_le_length (strncpy_length _ msg).ge,
    List.take_of_length_le (strncpy_length _ msg).le]
  rfl

def Written (place : List Char) : Prop := ∃ msg, place = entry msg

structure Valid (s : Server ι) : Prop where
  ring : s.in_buffer.ring.Valid
  written : ∀ place ∈ s.in_buffer.pending, Written place

theorem take_copyMsg {b : MsgBuffer} (h : Written (b.messages b.out_index)) (outbuf : List Char) :
    (b.copyMsg outbuf).take (maxMessagesSize - 1) =
      (b.messages b.out_index).take (maxMessagesSize - 1) := by
  obtain ⟨msg, hmsg⟩ := h
  rw [MsgBuffer.copyMsg, List.take_append_of_le_length (strncpy_length _ _).ge,
    List.take_of_length_le (strncpy_length _ _).le, hmsg, strncpy_entry, take_entry]
  rfl

variable {s : Server ι}

omit [DecidableEq ι] in
theorem receive_valid (h : Valid s) (hne : s.in_buffer.out_index ≠ s.in_buffer.in_index) :
    Valid s.receive where
  ring := by
    change s.in_buffer.dropMsg.ring.Valid
    rw [ring_dropMsg]
    exact CircularBuffer.pop_valid h.ring
  written place hplace := h.written place (by
    rw [pending_dropMsg _ h.ring hne]
    exact List.mem_cons_of_mem _ hplace)

theorem push_valid {msg : List Char} (h : Valid s) {i : ι} :
    Valid (s.step (.push i true msg)) where
  ring := by
    change (s.in_buffer.putMsg msg).ring.Valid
    rw [ring_putMsg msg _ h.ring]
    exact CircularBuffer.push_valid h.ring _
  written place hplace := by
    change place ∈ (s.in_buffer.putMsg msg).pending at hplace
    rw [pending_putMsg msg _ h.ring] at hplace
    have hmem := (boundedPush_sublist _ _ _).subset hplace
    rw [List.mem_append, List.mem_singleton] at hmem
    obtain hold | rfl := hmem
    · exact h.written place hold
    · exact ⟨msg, rfl⟩

theorem step_valid (e : Event ι) (h : Valid s) : Valid (s.step e) := by
  cases e with
  | push i enabled msg =>
    cases enabled with
    | true => exact push_valid h
    | false => exact h
  | look =>
    by_cases he : s.in_buffer.out_index = s.in_buffer.in_index
    · rw [Server.step, if_pos he]
      exact ⟨h.ring,h.written⟩
    · rw [Server.step, if_neg he]
      exact receive_valid h he
  | lookAgain =>
    by_cases he : s.in_buffer.out_index = s.in_buffer.in_index
    · rw [Server.step, if_neg (not_not.mpr he)]
      exact ⟨h.ring,h.written⟩
    · rw [Server.step, if_pos he]
      exact receive_valid h he
  | test =>
    rw [Server.step]
    split
    · exact ⟨h.ring,h.written⟩
    · exact ⟨h.ring,h.written⟩
  | _ => exact ⟨h.ring,h.written⟩

omit [DecidableEq ι] in
theorem fifo_queue_nil_iff (h : Valid s) :
    s.fifo.queue = [] ↔ s.in_buffer.out_index = s.in_buffer.in_index := by
  rw [← pending_eq_nil_iff _ h.ring]
  exact List.map_eq_nil_iff

omit [DecidableEq ι] in
theorem receive_fifo (h : Valid s) (hne : s.in_buffer.out_index ≠ s.in_buffer.in_index) :
    s.receive.fifo = s.fifo.pop := by
  have hpending := pending_dropMsg _ h.ring hne
  have hwritten : Written (s.in_buffer.messages s.in_buffer.out_index) :=
    h.written _ (by rw [hpending]; exact List.mem_cons_self)
  have htake := take_copyMsg hwritten s.recvbuf
  have hqueue : s.fifo.queue = (s.in_buffer.copyMsg s.recvbuf).take (maxMessagesSize - 1) ::
      s.in_buffer.dropMsg.pending.map (List.take (maxMessagesSize - 1)) := by
    rw [htake]
    exact congrArg (List.map _) hpending
  rw [BoundedFifo.pop, hqueue]
  rfl

theorem push_fifo {msg : List Char} (h : Valid s) {i : ι} :
    (s.step (.push i true msg)).fifo = s.fifo.push (maxNbMessages - 1) (firstBytes msg) := by
  have hpushed : (s.pushed ++ [msg]).map firstBytes = s.fifo.pushed ++ [firstBytes msg] :=
    List.map_append
  change BoundedFifo.mk _ ((s.in_buffer.putMsg msg).pending.map _) _ = _
  rw [pending_putMsg msg _ h.ring, map_boundedPush, take_entry, BoundedFifo.push, ← hpushed]
  rfl

/-- Every step does to the buffer what it is for the queue. -/
theorem step_fifo (e : Event ι) (h : Valid s) : (s.step e).fifo = e.act s.fifo := by
  cases e with
  | push i enabled msg =>
    cases enabled with
    | true => exact push_fifo h
    | false => rfl
  | look =>
    by_cases he : s.in_buffer.out_index = s.in_buffer.in_index
    · rw [Server.step, if_pos he, Event.act, if_pos ((fifo_queue_nil_iff h).mpr he)]
      rfl
    · rw [Server.step, if_neg he, Event.act, if_neg (mt (fifo_queue_nil_iff h).mp he)]
      exact receive_fifo h he
  | lookAgain =>
    by_cases he : s.in_buffer.out_index = s.in_buffer.in_index
    · have hnil := (fifo_queue_nil_iff h).mpr he
      rw [Server.step, if_neg (not_not.mpr he), Event.act, BoundedFifo.pop, hnil]
      exact congrArg (BoundedFifo.mk _ · _) hnil
    · rw [Server.step, if_pos he]
      exact receive_fifo h he
  | test =>
    rw [Server.step]
    split
    · rfl
    · rfl
  | _ => rfl

omit [DecidableEq ι] in
theorem act_ordered (e : Event ι) {q : BoundedFifo (List Char)} (h : q.Ordered) :
    (e.act q).Ordered := by
  cases e with
  | push i enabled msg =>
    cases enabled with
    | true => exact h.push _
    | false => exact h
  | look =>
    rw [Event.act]
    split
    · exact h
    · exact h.pop
  | lookAgain => exact h.pop
  | _ => exact h

omit [DecidableEq ι] in
theorem init_valid (recvbuf : List Char) : Valid (Server.init recvbuf : Server ι) where
  ring := ⟨Nat.zero_lt_succ _,Nat.zero_lt_succ _⟩
  written place hplace := absurd hplace (by
    simp [Server.init, MsgBuffer.pending, MsgBuffer.ring, CircularBuffer.contents,
      CircularBuffer.count])

omit [DecidableEq ι] in
theorem init_fifo (recvbuf : List Char) :
    (Server.init recvbuf : Server ι).fifo = BoundedFifo.empty := by
  simp [Server.init, Server.fifo, MsgBuffer.pending, MsgBuffer.ring, CircularBuffer.contents,
    CircularBuffer.count, BoundedFifo.empty]

theorem run_valid {recvbuf : List Char} (hrun : Clocked.Reach Server.step Can (Server.init recvbuf) s) :
    Valid s :=
  hrun.invariant Valid (init_valid recvbuf) fun e _ _ h => step_valid e h

def Server.run (s : Server ι) (es : List (Event ι)) : Server ι := es.foldl (fun s e => s.step e) s

theorem run_fifo (es : List (Event ι)) (h : Valid s) (ho : s.fifo.Ordered) :
    Valid (s.run es) ∧ (s.run es).fifo = es.foldl (fun q e => e.act q) s.fifo ∧
      (s.run es).fifo.Ordered := by
  induction es generalizing s with
  | nil => exact ⟨h,rfl,ho⟩
  | cons e es ih =>
    have hstep := step_fifo e h
    have hnext := ih (step_valid e h) (by rw [hstep]; exact act_ordered e ho)
    rw [hstep] at hnext
    exact hnext

/-- In every order of the steps the buffer, what has been pushed into it and what
`msg_in_wait` has returned are at each moment those of a queue of 63 messages, of
the first 511 characters each, that has been given the same pushes and pops. -/
theorem queue_refines (recvbuf : List Char) (es : List (Event ι)) :
    let s := (Server.init recvbuf).run es
    s.fifo = es.foldl (fun q e => e.act q) BoundedFifo.empty ∧
      (s.results.reduceOption ++ s.fifo.queue).Sublist (s.pushed.map firstBytes) ∧
      s.in_buffer.in_index < maxNbMessages ∧ s.in_buffer.out_index < maxNbMessages := by
  have hempty : (Server.init recvbuf : Server ι).fifo.Ordered := by
    rw [init_fifo]
    exact BoundedFifo.empty_ordered
  obtain ⟨hvalid, hfifo, hordered⟩ := run_fifo es (init_valid recvbuf) hempty
  rw [init_fifo] at hfifo
  exact ⟨hfifo,hordered,hvalid.ring.inIndex_lt,hvalid.ring.outIndex_lt⟩

/-! ## The event -/

/-- A message that has been pushed has set the event, or its producer is to set
it; and a consumer that waits though the event is set is about to be woken. -/
structure Awake (s : Server ι) : Prop where
  announced : s.consumer = .waiting ∨ s.consumer = .blocked ∨ s.consumer = .woken →
    s.in_buffer.out_index ≠ s.in_buffer.in_index →
    s.in_event.signalled = true ∨ ∃ i, s.producers i = .pushed
  woken : s.consumer = .blocked → s.in_event.signalled = true →
    ∃ i, s.producers i = .signalling

/-- A producer stays where it is while another one moves. -/
theorem other_producer {i : ι} {before after : Producer} (hi : s.producers i = before)
    {place : Producer} (hne : place ≠ before) (h : ∃ k, s.producers k = place) :
    ∃ k, Function.update s.producers i after k = place := by
  obtain ⟨k, hk⟩ := h
  refine ⟨k, ?_⟩
  have hik : k ≠ i := by
    rintro rfl
    exact hne (hk.symm.trans hi)
  rw [Function.update_of_ne hik]
  exact hk

omit [DecidableEq ι] in
theorem receive_awake : Awake s.receive where
  announced h := by
    obtain h | h | h := h <;> cases h
  woken h := nomatch h

theorem step_awake (e : Event ι) (he : Can e s) (h : Awake s) : Awake (s.step e) := by
  cases e with
  | push i enabled msg =>
    cases enabled with
    | false => exact h
    | true =>
      constructor
      · exact fun _ _ => Or.inr ⟨i, Function.update_self ..⟩
      · exact fun hb hs => other_producer he (by decide) (h.woken hb hs)
  | send i =>
    constructor
    · exact fun _ _ => Or.inl rfl
    · exact fun _ _ => ⟨i, Function.update_self ..⟩
  | signal i =>
    have hconsumer : (s.step (.signal i)).consumer =
        if s.consumer = .blocked then .woken else s.consumer := rfl
    constructor
    · intro hc hne
      have hbefore : s.consumer = .waiting ∨ s.consumer = .blocked ∨ s.consumer = .woken := by
        rw [hconsumer] at hc
        split_ifs at hc with hb
        · exact Or.inr (Or.inl hb)
        · exact hc
      obtain hs | hp := h.announced hbefore hne
      · exact Or.inl hs
      · exact Or.inr (other_producer he (by decide) hp)
    · intro hb
      rw [hconsumer] at hb
      split_ifs at hb with hblocked
      exact absurd hb hblocked
  | look =>
    by_cases hempty : s.in_buffer.out_index = s.in_buffer.in_index
    · rw [Server.step, if_pos hempty]
      exact ⟨fun _ hne => absurd hempty hne,fun hb => nomatch hb⟩
    · rw [Server.step, if_neg hempty]
      exact receive_awake
  | test =>
    have hbefore : s.consumer = .waiting ∨ s.consumer = .blocked ∨ s.consumer = .woken := by
      obtain hw | hw := he
      · exact Or.inl hw
      · exact Or.inr (Or.inr hw)
    rw [Server.step]
    split
    next hoff =>
      rw [Bool.and_eq_true, Bool.not_eq_true', Bool.not_eq_true'] at hoff
      constructor
      · exact fun _ hne => h.announced hbefore hne
      · exact fun _ hs => absurd (hoff.1.symm.trans hs) Bool.false_ne_true
    next =>
      constructor
      · rintro (hc | hc | hc) <;> cases hc
      · exact fun hb => nomatch hb
  | wake =>
    constructor
    · exact fun _ hne => h.announced (Or.inr (Or.inl he)) hne
    · exact fun hb => nomatch hb
  | lookAgain =>
    by_cases hempty : s.in_buffer.out_index = s.in_buffer.in_index
    · rw [Server.step, if_neg (not_not.mpr hempty)]
      exact ⟨fun _ hne => absurd hempty hne,fun hb => nomatch hb⟩
    · rw [Server.step, if_pos hempty]
      exact receive_awake

/-- While no producer is between its push and the end of its `sendEvent`, a
consumer that waits has nothing to wait for. -/
theorem no_lost_wakeup (recvbuf : List Char)
    (hrun : Clocked.Reach Server.step Can (Server.init recvbuf) s)
    (hblocked : s.consumer = .blocked) (hidle : ∀ i, s.producers i = .idle) :
    s.in_event.signalled = false ∧ s.in_buffer.pending = [] := by
  have hawake : Awake s := hrun.invariant Awake
    ⟨fun _ hne => absurd rfl hne,fun hb => nomatch hb⟩ fun e _ he h => step_awake e he h
  have hsignalled : s.in_event.signalled = false := by
    by_contra hs
    obtain ⟨i, hi⟩ := hawake.woken hblocked (Bool.not_eq_false _ ▸ hs)
    rw [hidle i] at hi
    cases hi
  refine ⟨hsignalled, (pending_eq_nil_iff _ (run_valid hrun).ring).mpr ?_⟩
  by_contra hne
  obtain hs | ⟨i, hi⟩ := hawake.announced (Or.inr (Or.inl hblocked)) hne
  · exact absurd (hsignalled.symm.trans hs) Bool.false_ne_true
  · rw [hidle i] at hi
    cases hi

def twoCommands : List (Event (Fin 2)) :=
  [.look,.test,.push 0 true "help".toList,.push 1 true "reset".toList,.send 1,.signal 1,.test,
    .send 0,.lookAgain,.signal 0,.look]

/-- The event is still set after both commands, and the script thread looks once
more before it waits. -/
def untilWaiting : List (Event (Fin 2)) := twoCommands ++ [.look,.test,.lookAgain,.look,.test]

def drained : Server (Fin 2) := (Server.init []).run untilWaiting

theorem no_lost_wakeup_drained :
    drained.in_event.signalled = false ∧ drained.in_buffer.pending = [] :=
  have hrun : Clocked.Reach Server.step Can (Server.init []) drained :=
    Clocked.Reach.along untilWaiting _ (by decide +kernel)
  no_lost_wakeup [] hrun (by decide +kernel) (by decide +kernel)

end Model

end Pauline.InputQueue
