import Mathlib.Data.Finset.Card
import Pauline.Server.Connections

/-!
# The life of a client

From the time it connects a client has a place of its own, and its transmit
threads send it what is printed.
-/

set_option autoImplicit false

namespace Pauline.Lifecycle
open Pauline.Messages Pauline.Clients Pauline.Connections

/-! ## What is asked -/

def copied (msg : List Char) : List Char := strncpy (maxMessagesSize - 1) msg

structure Served (handle : Handle) (s : Server) : Prop where
  /-- The index of its handle is a place of its own. -/
  place : s.ctx.Holds (s.ctx.handle_to_index handle) handle
  only : ∀ i, s.ctx.Holds i handle → i = s.ctx.handle_to_index handle
  alone : ∀ other, s.connected other = true →
    s.ctx.handle_to_index other = s.ctx.handle_to_index handle → other = handle
  /-- What it was sent is what was printed first. -/
  inOrder : s.fits handle = true → s.sent handle <+: (s.printed handle).map copied
  /-- A transmit thread that goes on sends it the rest. -/
  delivered : s.fits handle = true → ∃ t n,
    ((Server.stepTx t)^[n] s).sent handle = (s.printed handle).map copied

structure AllServed (s : Server) : Prop where
  served : ∀ handle, s.connected handle = true → Served handle s
  free : ∀ i, InTable i → (s.ctx.clients_out_buffer i).enabled = true →
    s.connected (s.ctx.handles i) = true

def clients (s : Server) : Finset Handle :=
  ((Finset.range maxConnection).filter (s.cmd_thread · = true)).image Handle.cmd ∪
    ((Finset.range maxClients).filter (s.web · = true)).image Handle.web

def Few (e : Event) (s : Server) : Prop :=
  match e with
  | .acceptCmd => (clients s).card < maxNbClients
  | .onopen _ => (clients s).card < maxNbClients
  | _ => True

def Unwatched (handle : Handle) (s : Server) : Prop :=
  ∀ i, s.ctx.freePlace = some i →
    ∀ th ∈ s.tx, th.place = .looking i ∨ th.place = .waiting i → th.handle = handle

/-- No command connection is closed; a place is given to a client when the threads
of the one before have left it; and a thread asks for the index of a handle that is
in the table. -/
def Orderly (e : Event) (s : Server) : Prop :=
  match e with
  | .acceptCmd => ∀ n, Server.freeEntry s.threadparams_cmd = some n →
      s.threadparams_data n = true ∧ Unwatched (.cmd n) s
  | .onopen client => Unwatched (.web client) s
  | .closeCmd _ => False
  | .tx t => ∀ th, s.tx[t]? = some th → th.place = .calling → s.ctx.Known th.handle
  | _ => True

instance (handle : Handle) (s : Server) : Decidable (Unwatched handle s) :=
  inferInstanceAs (Decidable (∀ i ∈ s.ctx.freePlace, ∀ th ∈ s.tx,
    th.place = .looking i ∨ th.place = .waiting i → th.handle = handle))

instance : (e : Event) → (s : Server) → Decidable (Orderly e s)
  | .acceptCmd, s =>
    inferInstanceAs (Decidable (∀ n ∈ Server.freeEntry s.threadparams_cmd,
      s.threadparams_data n = true ∧ Unwatched (.cmd n) s))
  | .acceptData, _ => inferInstanceAs (Decidable True)
  | .onopen client, s => inferInstanceAs (Decidable (Unwatched (.web client) s))
  | .recvCmd _ _, _ => inferInstanceAs (Decidable True)
  | .recvData _, _ => inferInstanceAs (Decidable True)
  | .closeCmd _, _ => inferInstanceAs (Decidable False)
  | .closeData _, _ => inferInstanceAs (Decidable True)
  | .onmessage _ _, _ => inferInstanceAs (Decidable True)
  | .onclose _, _ => inferInstanceAs (Decidable True)
  | .print _, _ => inferInstanceAs (Decidable True)
  | .tx t, s =>
    inferInstanceAs (Decidable (∀ th ∈ s.tx[t]?, th.place = .calling → s.ctx.Known th.handle))

instance : (e : Event) → (s : Server) → Decidable (Few e s)
  | .acceptCmd, s => inferInstanceAs (Decidable ((clients s).card < maxNbClients))
  | .acceptData, _ => inferInstanceAs (Decidable True)
  | .onopen _, s => inferInstanceAs (Decidable ((clients s).card < maxNbClients))
  | .recvCmd _ _, _ => inferInstanceAs (Decidable True)
  | .recvData _, _ => inferInstanceAs (Decidable True)
  | .closeCmd _, _ => inferInstanceAs (Decidable True)
  | .closeData _, _ => inferInstanceAs (Decidable True)
  | .onmessage _ _, _ => inferInstanceAs (Decidable True)
  | .onclose _, _ => inferInstanceAs (Decidable True)
  | .print _, _ => inferInstanceAs (Decidable True)
  | .tx _, _ => inferInstanceAs (Decidable True)

/-! ## What the clients see -/

structure View where
  buffers : ℤ → MsgBuffer
  handles : ℤ → Handle
  connected : Handle → Bool
  tx : List TxThread
  printed : Handle → List (List Char)
  sent : Handle → List (List Char)
  fits : Handle → Bool

def view (s : Server) : View where
  buffers := s.ctx.clients_out_buffer
  handles := s.ctx.handles
  connected := s.connected
  tx := s.tx
  printed := s.printed
  sent := s.sent
  fits := s.fits

namespace View

abbrev Holds (v : View) (i : ℤ) (handle : Handle) : Prop := Holding v.buffers v.handles i handle

structure Filled (b : MsgBuffer) (printed sent : List (List Char)) (fits : Bool) : Prop where
  ring : b.ring.Valid
  pending : fits = true → sent ++ b.pending.map copied = printed.map copied

def At (i : ℤ) (handle : Handle) (th : TxThread) : Prop :=
  th.handle = handle ∧
    (th.place = .calling ∨ th.place = .looking i ∨ th.place = .waiting i)

def Going (i : ℤ) (handle : Handle) (th : TxThread) : Prop :=
  th.handle = handle ∧ (th.place = .calling ∨ th.place = .looking i)

structure Kept (v : View) : Prop where
  known : ∀ handle, v.connected handle = true → ∃ i, v.Holds i handle
  taken : ∀ i handle, v.Holds i handle → v.connected handle = true
  only : ∀ i j handle, v.Holds i handle → v.Holds j handle → i = j
  live : ∀ i handle, v.Holds i handle → (v.buffers i).event.cancelled = false
  empty : ∀ i, InTable i → (v.buffers i).enabled = false →
    (v.buffers i).out_index = (v.buffers i).in_index
  place : ∀ th ∈ v.tx, ∀ i, th.place = .looking i ∨ th.place = .waiting i →
    InTable i ∧ ((v.buffers i).enabled = true → v.handles i = th.handle)
  thread : ∀ i handle, v.Holds i handle → ∃ th ∈ v.tx, At i handle th
  awake : ∀ i handle, v.Holds i handle → (v.buffers i).out_index ≠ (v.buffers i).in_index →
    (v.buffers i).event.signalled = true ∨ ∃ th ∈ v.tx, Going i handle th
  filled : ∀ i handle, v.Holds i handle →
    Filled (v.buffers i) (v.printed handle) (v.sent handle) (v.fits handle)

theorem filled_blank : Filled ⟨true,0,0,MsgCtx.blank,⟨false,false⟩⟩ [] [] true where
  ring := ⟨by decide,by decide⟩
  pending _ := rfl

theorem filled_putMsg {b : MsgBuffer} {printed sent : List (List Char)} {fits : Bool}
    (h : Filled b printed sent fits) (msg : List Char) (event : WaitEvent) :
    Filled { b.putMsg msg with event := event } (printed ++ [msg]) sent
      (fits && decide (printed.length + 1 - sent.length < maxNbMessages)) where
  ring := by
    change (b.putMsg msg).ring.Valid
    rw [ring_putMsg msg b h.ring]
    exact CircularBuffer.push_valid h.ring _
  pending hfits := by
    rw [Bool.and_eq_true, decide_eq_true_eq] at hfits
    have hpending := h.pending hfits.1
    have hlength := congrArg List.length hpending
    rw [List.length_append, List.length_map, List.length_map] at hlength
    have hroom : b.pending.length < maxNbMessages - 1 := by
      have := hfits.2
      omega
    change sent ++ (b.putMsg msg).pending.map copied = _
    rw [pending_putMsg msg b h.ring, boundedPush, if_pos hroom, List.map_append, ← List.append_assoc,
      hpending, List.map_append]
    simp only [List.map_cons, List.map_nil, copied, strncpy_entry]

theorem filled_dropMsg {b : MsgBuffer} {printed sent : List (List Char)} {fits : Bool}
    (h : Filled b printed sent fits) (hne : b.out_index ≠ b.in_index) :
    Filled b.dropMsg printed (sent ++ [copied (b.messages b.out_index)]) fits where
  ring := by
    rw [ring_dropMsg]
    exact CircularBuffer.pop_valid h.ring
  pending hfits := by
    rw [← h.pending hfits, pending_dropMsg b h.ring hne, List.map_cons, List.append_assoc,
      List.singleton_append]

/-! ## A client comes and goes -/

def join (i : ℤ) (handle : Handle) (v : View) : View where
  buffers := Function.update v.buffers i ⟨true,0,0,MsgCtx.blank,⟨false,false⟩⟩
  handles := Function.update v.handles i handle
  connected x := decide (x = handle) || v.connected x
  tx := v.tx ++ [⟨handle,.calling⟩]
  printed := Function.update v.printed handle []
  sent := Function.update v.sent handle []
  fits := Function.update v.fits handle true

section Join
variable {v : View} (h : Kept v) {i : ℤ} {handle : Handle} (hi : InTable i)
  (hnew : v.connected handle = false) (hfree : (v.buffers i).enabled = false)
include h hi hnew hfree

theorem join_holds {j : ℤ} {other : Handle} : (v.join i handle).Holds j other ↔
    j = i ∧ other = handle ∨ j ≠ i ∧ other ≠ handle ∧ v.Holds j other := by
  have hjoin : (v.join i handle).Holds j other ↔
      if j = i then other = handle else v.Holds j other := holding_occupy hi rfl handle
  have hother : v.Holds j other → j ≠ i ∧ other ≠ handle := by
    intro hold
    constructor
    · rintro rfl
      exact absurd (hfree.symm.trans hold.enabled) (by decide)
    · rintro rfl
      exact absurd (hnew.symm.trans (h.taken j _ hold)) (by decide)
  rw [hjoin]
  split_ifs with hj
  · tauto
  · tauto

theorem kept_join (hwatch : ∀ th ∈ v.tx, th.place = .looking i ∨ th.place = .waiting i →
      th.handle = handle) : Kept (v.join i handle) where
  known other hother := by
    by_cases he : other = handle
    · exact ⟨i,(join_holds h hi hnew hfree).mpr (Or.inl ⟨rfl,he⟩)⟩
    · have hconnected : v.connected other = true := by
        simpa only [join, he, decide_false, Bool.false_or] using hother
      obtain ⟨j, hj⟩ := h.known other hconnected
      have hne : j ≠ i := by
        rintro rfl
        exact absurd (hfree.symm.trans hj.enabled) (by decide)
      exact ⟨j,(join_holds h hi hnew hfree).mpr (Or.inr ⟨hne,he,hj⟩)⟩
  taken j other hj := by
    obtain ⟨rfl, rfl⟩ | ⟨-, -, hj⟩ := (join_holds h hi hnew hfree).mp hj
    · simp only [join, decide_true, Bool.true_or]
    · simp only [join, h.taken j other hj, Bool.or_true]
  only j k other hj hk := by
    obtain ⟨rfl, rfl⟩ | ⟨-, hne, hj⟩ := (join_holds h hi hnew hfree).mp hj
    · obtain ⟨rfl, -⟩ | ⟨-, hne, -⟩ := (join_holds h hi hnew hfree).mp hk
      · rfl
      · exact absurd rfl hne
    · obtain ⟨-, he⟩ | ⟨-, -, hk⟩ := (join_holds h hi hnew hfree).mp hk
      · exact absurd he hne
      · exact h.only j k other hj hk
  live j other hj := by
    obtain ⟨rfl, rfl⟩ | ⟨hne, -, hj⟩ := (join_holds h hi hnew hfree).mp hj
    · simp only [join, Function.update_self]
    · simp only [join, Function.update_of_ne hne, h.live j other hj]
  empty j hj henabled := by
    by_cases hji : j = i
    · subst hji
      simp only [join, Function.update_self]
    · simp only [join, Function.update_of_ne hji] at henabled ⊢
      exact h.empty j hj henabled
  place th hth j hj := by
    obtain hth | hth := List.mem_append.mp hth
    · have hnow := hwatch th hth
      refine ⟨(h.place th hth j hj).1,?_⟩
      by_cases hji : j = i
      · subst hji
        simp only [join, Function.update_self]
        exact fun _ => (hnow hj).symm
      · simp only [join, Function.update_of_ne hji]
        exact (h.place th hth j hj).2
    · rw [List.mem_singleton] at hth
      subst hth
      obtain hj | hj := hj <;> cases hj
  thread j other hj := by
    obtain ⟨rfl, rfl⟩ | ⟨-, -, hj⟩ := (join_holds h hi hnew hfree).mp hj
    · exact ⟨⟨other,.calling⟩,List.mem_append_right _ List.mem_cons_self,rfl,Or.inl rfl⟩
    · obtain ⟨th, hth, hat⟩ := h.thread j other hj
      exact ⟨th,List.mem_append_left _ hth,hat⟩
  awake j other hj hpending := by
    obtain ⟨rfl, rfl⟩ | ⟨hne, -, hj⟩ := (join_holds h hi hnew hfree).mp hj
    · simp only [join, Function.update_self] at hpending
      exact absurd rfl hpending
    · simp only [join, Function.update_of_ne hne] at hpending ⊢
      obtain hsignalled | ⟨th, hth, hgo⟩ := h.awake j other hj hpending
      · exact Or.inl hsignalled
      · exact Or.inr ⟨th,List.mem_append_left _ hth,hgo⟩
  filled j other hj := by
    obtain ⟨rfl, rfl⟩ | ⟨hne, hother, hj⟩ := (join_holds h hi hnew hfree).mp hj
    · simp only [join, Function.update_self]
      exact filled_blank
    · simp only [join, Function.update_of_ne hne, Function.update_of_ne hother]
      exact h.filled j other hj

end Join

/-- One more thread that asks for the place of a client. -/
theorem kept_start {v : View} (h : Kept v) (handle : Handle) :
    Kept { v with tx := v.tx ++ [⟨handle,.calling⟩] } where
  known := h.known
  taken := h.taken
  only := h.only
  live := h.live
  empty := h.empty
  place th hth i hi := by
    obtain hth | hth := List.mem_append.mp hth
    · exact h.place th hth i hi
    · rw [List.mem_singleton] at hth
      subst hth
      obtain hi | hi := hi <;> cases hi
  thread i other hi := by
    obtain ⟨th, hth, hat⟩ := h.thread i other hi
    exact ⟨th,List.mem_append_left _ hth,hat⟩
  awake i other hi hne := by
    obtain hsignalled | ⟨th, hth, hgo⟩ := h.awake i other hi hne
    · exact Or.inl hsignalled
    · exact Or.inr ⟨th,List.mem_append_left _ hth,hgo⟩
  filled := h.filled

def leave (i : ℤ) (handle : Handle) (v : View) : View :=
  { v with
    buffers := Function.update v.buffers i
      { v.buffers i with
        out_index := 0, in_index := 0, messages := MsgCtx.blank, enabled := false
        event := { (v.buffers i).event with cancelled := true } }
    connected := fun x => !decide (x = handle) && v.connected x }

theorem kept_leave {v : View} (h : Kept v) {i : ℤ} {handle : Handle} (hi : v.Holds i handle) :
    Kept (v.leave i handle) := by
  have holds : ∀ {j other}, (v.leave i handle).Holds j other ↔ j ≠ i ∧ v.Holds j other :=
    holding_remove rfl
  have hother : ∀ {j other}, j ≠ i → v.Holds j other → other ≠ handle := by
    rintro j other hne hj rfl
    exact hne (h.only j i other hj hi)
  have hbuffer : ∀ {j}, j ≠ i → (v.leave i handle).buffers j = v.buffers j :=
    fun hne => Function.update_of_ne hne ..
  constructor
  · intro other hconnected
    simp only [leave, Bool.and_eq_true, Bool.not_eq_true', decide_eq_false_iff_not] at hconnected
    obtain ⟨j, hj⟩ := h.known other hconnected.2
    refine ⟨j,holds.mpr ⟨?_,hj⟩⟩
    rintro rfl
    exact hconnected.1 (hj.handle.symm.trans hi.handle)
  · intro j other hj
    obtain ⟨hne, hj⟩ := holds.mp hj
    simp only [leave, hother hne hj, h.taken j other hj, decide_false, Bool.not_false,
      Bool.true_and]
  · exact fun j k other hj hk => h.only j k other (holds.mp hj).2 (holds.mp hk).2
  · intro j other hj
    obtain ⟨hne, hj⟩ := holds.mp hj
    rw [hbuffer hne]
    exact h.live j other hj
  · intro j hj henabled
    by_cases hji : j = i
    · subst hji
      simp only [leave, Function.update_self]
    · rw [hbuffer hji] at henabled ⊢
      exact h.empty j hj henabled
  · intro th hth j hj
    refine ⟨(h.place th hth j hj).1,fun henabled => ?_⟩
    by_cases hji : j = i
    · subst hji
      simp only [leave, Function.update_self] at henabled
      exact Bool.noConfusion henabled
    · rw [hbuffer hji] at henabled
      exact (h.place th hth j hj).2 henabled
  · exact fun j other hj => h.thread j other (holds.mp hj).2
  · intro j other hj
    obtain ⟨hne, hj⟩ := holds.mp hj
    rw [hbuffer hne]
    exact h.awake j other hj
  · intro j other hj
    obtain ⟨hne, hj⟩ := holds.mp hj
    rw [hbuffer hne]
    exact h.filled j other hj

def print (msg : List Char) (v : View) : View :=
  { v with
    buffers := fun i =>
      if InTable i ∧ (v.buffers i).enabled then
        { (v.buffers i).putMsg msg with
          event := { (v.buffers i).event with signalled := true } }
      else v.buffers i
    printed := fun x => if v.connected x then v.printed x ++ [msg] else v.printed x
    fits := fun x =>
      if v.connected x then
        v.fits x && decide ((v.printed x).length + 1 - (v.sent x).length < maxNbMessages)
      else v.fits x }

theorem kept_print {v : View} (h : Kept v) (msg : List Char) : Kept (v.print msg) := by
  have holds : ∀ {j other}, (v.print msg).Holds j other ↔ v.Holds j other := by
    intro j other
    apply holding_congr
    intro i
    simp only [print]
    split_ifs <;> rfl
  have hbuffer : ∀ {j other}, v.Holds j other → (v.print msg).buffers j =
      { (v.buffers j).putMsg msg with
        event := { (v.buffers j).event with signalled := true } } :=
    fun hj => if_pos ⟨hj.inTable,hj.enabled⟩
  have hrest : ∀ {j}, (v.buffers j).enabled = false → (v.print msg).buffers j = v.buffers j :=
    fun hj => if_neg fun hc => absurd (hj.symm.trans hc.2) (by decide)
  have henabled : ∀ {j}, ((v.print msg).buffers j).enabled = (v.buffers j).enabled := by
    intro j
    simp only [print]
    split_ifs <;> rfl
  constructor
  · intro other hother
    obtain ⟨i, hi⟩ := h.known other hother
    exact ⟨i,holds.mpr hi⟩
  · exact fun i other hi => h.taken i other (holds.mp hi)
  · exact fun i j other hi hj => h.only i j other (holds.mp hi) (holds.mp hj)
  · intro i other hi
    rw [hbuffer (holds.mp hi)]
    exact h.live i other (holds.mp hi)
  · intro i hi hoff
    rw [henabled] at hoff
    rw [hrest hoff]
    exact h.empty i hi hoff
  · intro th hth i hi
    rw [henabled]
    exact h.place th hth i hi
  · exact fun i other hi => h.thread i other (holds.mp hi)
  · intro i other hi _
    rw [hbuffer (holds.mp hi)]
    exact Or.inl rfl
  · intro i other hi
    have hconnected := h.taken i other (holds.mp hi)
    rw [hbuffer (holds.mp hi)]
    simp only [print, hconnected, if_true]
    exact filled_putMsg (h.filled i other (holds.mp hi)) msg _

/-! ## A thread goes on -/

def move (t : ℕ) (place : Place) (v : View) : View :=
  { v with tx := v.tx.modify t fun th => { th with place := place } }

section Move
variable {v : View} {t : ℕ} {th : TxThread} (hth : v.tx[t]? = some th) (place : Place)
include hth

theorem move_mem : (⟨th.handle,place⟩ : TxThread) ∈ (v.move t place).tx := by
  apply List.mem_of_getElem? (i := t)
  rw [move, List.getElem?_modify_eq, hth]
  rfl

theorem mem_of_move {other : TxThread} (h : other ∈ (v.move t place).tx) :
    other ∈ v.tx ∨ other = ⟨th.handle,place⟩ := by
  obtain ⟨k, hk⟩ := List.mem_iff_getElem?.mp h
  rw [move, List.getElem?_modify] at hk
  split_ifs at hk with ht
  · subst ht
    rw [hth, Option.map_eq_map, Option.map_some, Option.some.injEq] at hk
    exact Or.inr hk.symm
  · exact Or.inl (List.mem_of_getElem? (by simpa using hk))

/-- The other threads are where they were. -/
theorem move_of_mem {other : TxThread} (h : other ∈ v.tx) :
    other = th ∨ other ∈ (v.move t place).tx := by
  obtain ⟨k, hk⟩ := List.mem_iff_getElem?.mp h
  by_cases ht : t = k
  · subst ht
    rw [hth, Option.some.injEq] at hk
    exact Or.inl hk.symm
  · apply Or.inr
    apply List.mem_of_getElem? (i := k)
    change (v.tx.modify t _)[k]? = _
    simp only [List.getElem?_modify, hk, ht, if_false]
    rfl

theorem kept_move (h : Kept v)
    (hplace : ∀ i, place = .looking i ∨ place = .waiting i →
      InTable i ∧ ((v.buffers i).enabled = true → v.handles i = th.handle))
    (hat : ∀ i handle, v.Holds i handle → At i handle th → At i handle ⟨th.handle,place⟩)
    (hgoing : ∀ i handle, v.Holds i handle → (v.buffers i).out_index ≠ (v.buffers i).in_index →
      Going i handle th → Going i handle ⟨th.handle,place⟩) :
    Kept (v.move t place) where
  known := h.known
  taken := h.taken
  only := h.only
  live := h.live
  empty := h.empty
  place other hother i hi := by
    obtain hother | rfl := mem_of_move hth place hother
    · exact h.place other hother i hi
    · exact hplace i hi
  thread i handle hi := by
    obtain ⟨other, hother, hotherAt⟩ := h.thread i handle hi
    obtain rfl | hmem := move_of_mem hth place hother
    · exact ⟨_,move_mem hth place,hat i handle hi hotherAt⟩
    · exact ⟨other,hmem,hotherAt⟩
  awake i handle hi hne := by
    obtain hsignalled | ⟨other, hother, hgo⟩ := h.awake i handle hi hne
    · exact Or.inl hsignalled
    · obtain rfl | hmem := move_of_mem hth place hother
      · exact Or.inr ⟨_,move_mem hth place,hgoing i handle hi hne hgo⟩
      · exact Or.inr ⟨other,hmem,hgo⟩
  filled := h.filled

end Move

def drop (i : ℤ) (handle : Handle) (v : View) : View :=
  { v with
    buffers := Function.update v.buffers i (v.buffers i).dropMsg
    sent := Function.update v.sent handle
      (v.sent handle ++ [copied ((v.buffers i).messages (v.buffers i).out_index)]) }

theorem kept_drop {v : View} (h : Kept v) {i : ℤ} {handle : Handle} (hi : v.Holds i handle)
    (hne : (v.buffers i).out_index ≠ (v.buffers i).in_index) : Kept (v.drop i handle) := by
  have holds : ∀ {j other}, (v.drop i handle).Holds j other ↔ v.Holds j other :=
    holding_update rfl
  have hbuffer : ∀ {j}, j ≠ i → (v.drop i handle).buffers j = v.buffers j :=
    fun hne => Function.update_of_ne hne ..
  have hself : (v.drop i handle).buffers i = (v.buffers i).dropMsg := Function.update_self ..
  have hsame : ∀ j, ((v.drop i handle).buffers j).enabled = (v.buffers j).enabled ∧
      ((v.drop i handle).buffers j).event = (v.buffers j).event := by
    intro j
    by_cases hj : j = i
    · rw [hj, hself]
      exact ⟨rfl,rfl⟩
    · rw [hbuffer hj]
      exact ⟨rfl,rfl⟩
  constructor
  · intro other hother
    obtain ⟨j, hj⟩ := h.known other hother
    exact ⟨j,holds.mpr hj⟩
  · exact fun j other hj => h.taken j other (holds.mp hj)
  · exact fun j k other hj hk => h.only j k other (holds.mp hj) (holds.mp hk)
  · intro j other hj
    rw [(hsame j).2]
    exact h.live j other (holds.mp hj)
  · intro j hj hoff
    rw [(hsame j).1] at hoff
    have hji : j ≠ i := by
      rintro rfl
      exact absurd (hoff.symm.trans hi.enabled) (by decide)
    rw [hbuffer hji]
    exact h.empty j hj hoff
  · intro th hth j hj
    rw [(hsame j).1]
    exact h.place th hth j hj
  · exact fun j other hj => h.thread j other (holds.mp hj)
  · intro j other hj hpending
    rw [(hsame j).2]
    by_cases hji : j = i
    · subst hji
      exact h.awake j other (holds.mp hj) hne
    · rw [hbuffer hji] at hpending
      exact h.awake j other (holds.mp hj) hpending
  · intro j other hj
    have hold := holds.mp hj
    by_cases hji : j = i
    · subst hji
      obtain rfl : other = handle := hold.handle.symm.trans hi.handle
      rw [hself]
      simp only [drop, Function.update_self]
      exact filled_dropMsg (h.filled j other hold) hne
    · have hother : other ≠ handle := by
        rintro rfl
        exact hji (h.only j i other hold hi)
      rw [hbuffer hji]
      simp only [drop, Function.update_of_ne hother]
      exact h.filled j other hold

def consume (i : ℤ) (v : View) : View :=
  { v with buffers := Function.update v.buffers i (Server.consume (v.buffers i)) }

theorem kept_consume {v : View} (h : Kept v) {i : ℤ}
    (hgoing : ∀ handle, v.Holds i handle → ∃ th ∈ v.tx, Going i handle th) :
    Kept (v.consume i) := by
  have holds : ∀ {j other}, (v.consume i).Holds j other ↔ v.Holds j other := holding_update rfl
  have hbuffer : ∀ {j}, j ≠ i → (v.consume i).buffers j = v.buffers j :=
    fun hne => Function.update_of_ne hne ..
  have hself : (v.consume i).buffers i = Server.consume (v.buffers i) := Function.update_self ..
  constructor
  · intro other hother
    obtain ⟨j, hj⟩ := h.known other hother
    exact ⟨j,holds.mpr hj⟩
  · exact fun j other hj => h.taken j other (holds.mp hj)
  · exact fun j k other hj hk => h.only j k other (holds.mp hj) (holds.mp hk)
  · intro j other hj
    have hlive := h.live j other (holds.mp hj)
    by_cases hji : j = i
    · rw [hji, hself]
      exact hji ▸ hlive
    · rw [hbuffer hji]
      exact hlive
  · intro j hj
    by_cases hji : j = i
    · rw [hji, hself]
      exact hji ▸ h.empty j hj
    · rw [hbuffer hji]
      exact h.empty j hj
  · intro th hth j hj
    have hplace := h.place th hth j hj
    by_cases hji : j = i
    · rw [hji, hself]
      exact hji ▸ hplace
    · rw [hbuffer hji]
      exact hplace
  · exact fun j other hj => h.thread j other (holds.mp hj)
  · intro j other hj
    have hold := holds.mp hj
    by_cases hji : j = i
    · subst hji
      exact fun _ => Or.inr (hgoing other hold)
    · rw [hbuffer hji]
      exact h.awake j other hold
  · intro j other hj
    have hfilled := h.filled j other (holds.mp hj)
    by_cases hji : j = i
    · subst hji
      rw [hself]
      exact ⟨hfilled.ring,hfilled.pending⟩
    · rw [hbuffer hji]
      exact hfilled

end View

/-! ## Every run -/

structure Kept (s : Server) : Prop where
  view : (view s).Kept
  cmd : ∀ n, s.cmd_thread n = true → n < maxConnection ∧ s.threadparams_cmd n = true
  web : ∀ client, s.web client = true → client < maxClients

theorem freeEntry_some {threadparams : ℕ → Bool} {n : ℕ}
    (h : Server.freeEntry threadparams = some n) : n < maxConnection ∧ threadparams n = false := by
  have hmem := List.mem_of_find?_eq_some h
  have hfree := List.find?_some h
  rw [List.mem_range] at hmem
  exact ⟨hmem,by simpa using hfree⟩

section Steps
variable {s : Server} (h : Kept s)
include h

theorem connected_mem {handle : Handle} (hc : s.connected handle = true) : handle ∈ clients s := by
  rw [clients, Finset.mem_union]
  cases handle with
  | cmd n =>
    apply Or.inl
    exact Finset.mem_image_of_mem _ (Finset.mem_filter.mpr ⟨Finset.mem_range.mpr (h.cmd n hc).1,hc⟩)
  | web client =>
    apply Or.inr
    exact Finset.mem_image_of_mem _ (Finset.mem_filter.mpr ⟨Finset.mem_range.mpr (h.web client hc),hc⟩)

/-- While fewer than 64 clients are connected a place is free. -/
theorem exists_freePlace (hfew : (clients s).card < maxNbClients) :
    ∃ i, s.ctx.freePlace = some i := by
  by_contra hfull
  have hnone : s.ctx.freePlace = none :=
    Option.eq_none_iff_forall_ne_some.mpr fun i hi => hfull ⟨i,hi⟩
  have hholds : ∀ k < maxNbClients, s.ctx.Holds k (s.ctx.handles k) := fun k hk =>
    have htable : InTable k := ⟨by omega,by exact_mod_cast hk⟩
    ⟨htable,MsgCtx.freePlace_none hnone htable,rfl⟩
  have hle : (Finset.range maxNbClients).card ≤ (clients s).card := by
    apply Finset.card_le_card_of_injOn (fun k : ℕ => s.ctx.handles k)
    · intro k hk
      rw [Finset.coe_range, Set.mem_Iio] at hk
      exact connected_mem h (h.view.taken k _ (hholds k hk))
    · intro k hk l hl he
      rw [Finset.coe_range, Set.mem_Iio] at hk hl
      have hkl := hholds l hl
      rw [← show s.ctx.handles k = s.ctx.handles l from he] at hkl
      exact_mod_cast h.view.only k l _ (hholds k hk) hkl
  rw [Finset.card_range] at hle
  omega

theorem kept_acceptData : Kept s.acceptData := by
  unfold Server.acceptData
  split
  next => exact h
  next n hn => exact ⟨View.kept_start h.view (.cmd n),h.cmd,h.web⟩

theorem kept_acceptCmd (hfew : (clients s).card < maxNbClients)
    (horderly : Orderly .acceptCmd s) : Kept s.acceptCmd := by
  unfold Server.acceptCmd
  split
  next => exact h
  next n hn =>
    obtain ⟨hlt, hentry⟩ := freeEntry_some hn
    obtain ⟨i, hi⟩ := exists_freePlace h hfew
    have hctx : (s.ctx.add_client (.cmd n)).2 = s.ctx.occupy i (.cmd n) := by
      rw [MsgCtx.add_client_free hi]
    have hnew : (view s).connected (.cmd n) = false := by
      by_contra hc
      have hthread := h.cmd n (eq_true_of_ne_false hc)
      exact absurd (hentry.symm.trans hthread.2) (by decide)
    have hjoin := View.kept_join h.view (MsgCtx.freePlace_some hi).1 hnew
      (MsgCtx.freePlace_some hi).2 ((horderly n hn).2 i hi)
    constructor
    · have hconnected : (fun x => decide (x = .cmd n) || s.connected x) =
          (Server.connected { s with cmd_thread := Function.update s.cmd_thread n true }) := by
        funext x
        cases x with
        | cmd m => by_cases hm : m = n <;> simp [Server.connected, hm]
        | web client => simp [Server.connected]
      rw [View.join, show (view s).connected = s.connected from rfl, hconnected] at hjoin
      dsimp only [Server.useData]
      rw [hctx]
      exact hjoin
    · intro m hm
      obtain rfl | hm := update_true.mp hm
      · exact ⟨hlt,Function.update_self ..⟩
      · exact ⟨(h.cmd m hm).1,update_true.mpr (Or.inr (h.cmd m hm).2)⟩
    · exact h.web

theorem kept_onopen {client : ℕ} (hcan : Server.Can (.onopen client) s)
    (hfew : (clients s).card < maxNbClients) (horderly : Orderly (.onopen client) s) :
    Kept (s.onopen client) := by
  obtain ⟨i, hi⟩ := exists_freePlace h hfew
  have hnew : (view s).connected (.web client) = false := hcan.2
  have hjoin := View.kept_join h.view (MsgCtx.freePlace_some hi).1 hnew
    (MsgCtx.freePlace_some hi).2 (horderly i hi)
  have hconnected : (fun x => decide (x = .web client) || s.connected x) =
      (Server.connected { s with web := Function.update s.web client true }) := by
    funext x
    cases x with
    | cmd m => simp [Server.connected]
    | web other =>
      by_cases hm : other = client <;> simp [Server.connected, hm]
  rw [View.join, show (view s).connected = s.connected from rfl, hconnected] at hjoin
  rw [Server.onopen, MsgCtx.add_client_free hi, if_pos (MsgCtx.freePlace_some hi).1.1]
  constructor
  · exact hjoin
  · exact h.cmd
  · intro other hother
    obtain rfl | hother := update_true.mp hother
    · exact hcan.1
    · exact h.web other hother

theorem known_of_connected (handle : Handle) (hc : s.connected handle = true) :
    s.ctx.Known handle := h.view.known handle hc

theorem kept_push (handle : Handle) (hc : s.connected handle = true) (msg : List Char) :
    Kept { s with ctx := s.ctx.msg_push_in_msg (s.ctx.handle_to_index handle) msg } := by
  rw [MsgCtx.push_of_holds (MsgCtx.handle_to_index_holds (known_of_connected h _ hc))]
  exact ⟨h.view,h.cmd,h.web⟩

theorem kept_onclose {client : ℕ} (hcan : s.web client = true) : Kept (s.onclose client) := by
  have hplace := MsgCtx.handle_to_index_holds (known_of_connected h (.web client) hcan)
  have hleave := View.kept_leave h.view hplace
  have hconnected : (fun x => !decide (x = .web client) && s.connected x) =
      (Server.connected { s with web := Function.update s.web client false }) := by
    funext x
    cases x with
    | cmd m => simp [Server.connected]
    | web other =>
      by_cases hm : other = client <;> simp [Server.connected, hm]
  rw [View.leave, show (view s).connected = s.connected from rfl, hconnected] at hleave
  rw [Server.onclose, MsgCtx.close_of_holds hplace]
  constructor
  · exact hleave
  · exact h.cmd
  · intro other hother
    exact h.web other (update_false.mp hother).2

theorem kept_print (msg : List Char) : Kept (s.print msg) :=
  ⟨View.kept_print h.view msg,h.cmd,h.web⟩

/-- The state but for what the clients see. -/
theorem kept_of_view {t : Server} (hview : (view t).Kept)
    (hcmd : t.cmd_thread = s.cmd_thread) (hparams : t.threadparams_cmd = s.threadparams_cmd)
    (hweb : t.web = s.web) : Kept t where
  view := hview
  cmd := by
    rw [hcmd, hparams]
    exact h.cmd
  web := by
    rw [hweb]
    exact h.web

section Thread
variable {t : ℕ} {th : TxThread} (hth : s.tx[t]? = some th)
include hth

theorem kept_call (hknown : s.ctx.Known th.handle) :
    Kept (s.call t th.handle) := by
  have hi := MsgCtx.handle_to_index_holds hknown
  have hle : ¬s.ctx.handle_to_index th.handle > maxNbClients - 1 := by
    have := hi.inTable.2
    omega
  rw [Server.call, if_neg hle, MsgCtx.touch_inTable hi.inTable]
  refine kept_of_view h ?_ rfl rfl rfl
  apply View.kept_move (v := view s) hth (.looking (s.ctx.handle_to_index th.handle)) h.view
  · rintro i (hj | hj) <;> cases hj
    exact ⟨hi.inTable,fun _ => hi.handle⟩
  · rintro i handle hold ⟨rfl, -⟩
    rw [h.view.only i _ _ hold hi]
    exact ⟨rfl,Or.inr (Or.inl rfl)⟩
  · rintro i handle hold - ⟨rfl, -⟩
    rw [h.view.only i _ _ hold hi]
    exact ⟨rfl,Or.inr rfl⟩

theorem kept_look {i : ℤ} (hplace : th.place = .looking i) :
    Kept (s.look t th.handle i) := by
  obtain ⟨htable, hhandle⟩ := h.view.place th (List.mem_of_getElem? hth) i (Or.inl hplace)
  have hat : ∀ j handle, View.At j handle th → j = i := by
    rintro j handle ⟨-, hj | hj | hj⟩
    · exact absurd (hplace.symm.trans hj) Place.noConfusion
    · exact (Place.looking.inj (hplace.symm.trans hj)).symm
    · exact absurd (hplace.symm.trans hj) Place.noConfusion
  have hgoing : ∀ j handle, View.Going j handle th → j = i := by
    rintro j handle ⟨he, hj | hj⟩
    · exact hat j handle ⟨he,Or.inl hj⟩
    · exact hat j handle ⟨he,Or.inr (Or.inl hj)⟩
  unfold Server.look
  dsimp only
  rw [MsgCtx.touch_inTable htable]
  split_ifs with hempty
  · refine kept_of_view h ?_ rfl rfl rfl
    apply View.kept_move (v := view s) hth (.waiting i) h.view
    · rintro j (hj | hj) <;> cases hj
      exact ⟨htable,hhandle⟩
    · intro j handle _ hj
      rw [hat j handle hj]
      exact ⟨hj.1,Or.inr (Or.inr rfl)⟩
    · intro j handle _ hne hj
      rw [hgoing j handle hj] at hne
      exact absurd hempty hne
  · have henabled : (s.ctx.clients_out_buffer i).enabled = true := by
      by_contra hoff
      exact hempty (h.view.empty i htable (eq_false_of_ne_true hoff))
    have hold : (view s).Holds i th.handle := ⟨htable,henabled,hhandle henabled⟩
    have hdrop := View.kept_drop h.view hold hempty
    have hmove : (((view s).drop i th.handle).move t .calling).Kept := by
      apply View.kept_move (v := (view s).drop i th.handle) hth .calling hdrop
      · rintro j (hj | hj) <;> cases hj
      · exact fun j handle _ hj => ⟨hj.1,Or.inl rfl⟩
      · exact fun j handle _ _ hj => ⟨hj.1,Or.inl rfl⟩
    cases hhandle' : th.handle with
    | cmd n =>
      rw [hhandle'] at hmove
      exact kept_of_view h hmove rfl rfl rfl
    | web client =>
      rw [hhandle'] at hmove
      exact kept_of_view h hmove rfl rfl rfl

theorem kept_wait {i : ℤ} (hplace : th.place = .waiting i) : Kept (s.wait t i) := by
  obtain ⟨htable, hhandle⟩ := h.view.place th (List.mem_of_getElem? hth) i (Or.inr hplace)
  have hat : ∀ j handle, View.At j handle th → j = i := by
    rintro j handle ⟨-, hj | hj | hj⟩
    · exact absurd (hplace.symm.trans hj) Place.noConfusion
    · exact absurd (hplace.symm.trans hj) Place.noConfusion
    · exact (Place.waiting.inj (hplace.symm.trans hj)).symm
  have hgoing : ∀ j handle, ¬View.Going j handle th := by
    rintro j handle ⟨-, hj | hj⟩
    · exact absurd (hplace.symm.trans hj) Place.noConfusion
    · exact absurd (hplace.symm.trans hj) Place.noConfusion
  unfold Server.wait
  dsimp only
  rw [MsgCtx.touch_inTable htable]
  split_ifs with hwait hcancelled
  · exact h
  · -- A place with a client is not cancelled: the thread leaves one that is free.
    have hfree : ∀ handle, ¬(view s).Holds i handle := fun handle hold =>
      absurd (hcancelled.symm.trans (h.view.live i handle hold)) (by decide)
    have hmove : ((view s).move t .ended).Kept := by
      apply View.kept_move (v := view s) hth .ended h.view
      · rintro j (hj | hj) <;> cases hj
      · intro j handle hold hj
        rw [hat j handle hj] at hold
        exact absurd hold (hfree handle)
      · exact fun j handle _ _ hj => absurd hj (hgoing j handle)
    have hconsume := View.kept_consume hmove (i := i) fun handle hold => absurd hold (hfree handle)
    exact kept_of_view h hconsume rfl rfl rfl
  · have hmove : ((view s).move t (.looking i)).Kept := by
      apply View.kept_move (v := view s) hth (.looking i) h.view
      · rintro j (hj | hj) <;> cases hj
        exact ⟨htable,hhandle⟩
      · intro j handle _ hj
        rw [hat j handle hj]
        exact ⟨hj.1,Or.inr (Or.inl rfl)⟩
      · exact fun j handle _ _ hj => absurd hj (hgoing j handle)
    have hconsume := View.kept_consume hmove (i := i) fun handle hold => by
      have he : th.handle = handle := (hhandle hold.enabled).symm.trans hold.handle
      exact ⟨_,View.move_mem (v := view s) hth (.looking i),he,Or.inr rfl⟩
    exact kept_of_view h hconsume rfl rfl rfl

end Thread

theorem kept_tx (t : ℕ) (horderly : Orderly (.tx t) s) : Kept (s.stepTx t) := by
  unfold Server.stepTx
  split
  next => exact h
  next th hth =>
    cases hplace : th.place with
    | calling => exact kept_call h hth (horderly th hth hplace)
    | looking i => exact kept_look h hth hplace
    | waiting i => exact kept_wait h hth hplace
    | ended => exact h

theorem kept_step (e : Event) (hcan : Server.Can e s) (hfew : Few e s) (horderly : Orderly e s) :
    Kept (s.step e) := by
  cases e with
  | acceptCmd => exact kept_acceptCmd h hfew horderly
  | acceptData => exact kept_acceptData h
  | onopen client => exact kept_onopen h hcan hfew horderly
  | recvCmd n line =>
    have hpush := kept_push h (.cmd n) hcan line
    exact ⟨hpush.view,hpush.cmd,hpush.web⟩
  | recvData n => exact ⟨h.view,h.cmd,h.web⟩
  | closeCmd n => exact absurd horderly not_false
  | closeData n => exact ⟨h.view,h.cmd,h.web⟩
  | onmessage client msg => exact kept_push h (.web client) hcan msg
  | onclose client => exact kept_onclose h hcan
  | print msg => exact kept_print h msg
  | tx t => exact kept_tx h t horderly

end Steps

theorem kept_init : Kept Server.init where
  view := by
    have hfree : ∀ i handle, ¬(view Server.init).Holds i handle :=
      fun _ _ hold => Bool.noConfusion hold.enabled
    constructor
    · intro handle hc
      cases handle <;> exact Bool.noConfusion hc
    · exact fun i handle hold => absurd hold (hfree i handle)
    · exact fun i _ handle hold => absurd hold (hfree i handle)
    · exact fun i handle hold => absurd hold (hfree i handle)
    · exact fun _ _ _ => rfl
    · exact fun th hth => absurd hth List.not_mem_nil
    · exact fun i handle hold => absurd hold (hfree i handle)
    · exact fun i handle hold => absurd hold (hfree i handle)
    · exact fun i handle hold => absurd hold (hfree i handle)
  cmd _ hc := Bool.noConfusion hc
  web _ hc := Bool.noConfusion hc

/-! ## What a transmit thread delivers -/

theorem send_frame (handle : Handle) (msg : List Char) (s : Server) :
    (s.send handle msg).ctx = s.ctx ∧ (s.send handle msg).tx = s.tx ∧
      (s.send handle msg).printed = s.printed ∧ (s.send handle msg).fits = s.fits := by
  cases handle <;> exact ⟨rfl,rfl,rfl,rfl⟩

structure Sending (i : ℤ) (handle : Handle) (t : ℕ) (s : Server) : Prop where
  kept : Kept s
  holds : (view s).Holds i handle
  fits : s.fits handle = true
  thread : ∃ th, s.tx[t]? = some th ∧ View.Going i handle th

section Sending
variable {s : Server} {i : ℤ} {handle : Handle} {t : ℕ}

theorem tx_move {th : TxThread} (hth : s.tx[t]? = some th) (place : Place) :
    (s.move t place).tx[t]? = some ⟨th.handle,place⟩ := by
  rw [Server.move, List.getElem?_modify_eq, hth]
  rfl

theorem step_calling (h : Sending i handle t s) {th : TxThread} (hth : s.tx[t]? = some th)
    (hhandle : th.handle = handle) (hplace : th.place = .calling) :
    s.stepTx t = s.move t (.looking i) ∧ Sending i handle t (s.stepTx t) := by
  subst hhandle
  have hknown : s.ctx.Known th.handle := ⟨i,h.holds⟩
  have hindex := h.kept.view.only _ _ _ (MsgCtx.handle_to_index_holds hknown) h.holds
  have hle : ¬i > maxNbClients - 1 := by
    have := h.holds.inTable.2
    omega
  have hstep : s.stepTx t = s.move t (.looking i) := by
    rw [Server.stepTx, hth]
    simp only [hplace]
    rw [Server.call, hindex, if_neg hle, MsgCtx.touch_inTable h.holds.inTable]
  have hkept : Kept (s.stepTx t) := kept_tx h.kept t fun other hother _ => by
    rw [hth, Option.some.injEq] at hother
    exact hother ▸ hknown
  refine ⟨hstep,hkept,?_,?_,?_⟩
  · rw [hstep]
    exact h.holds
  · rw [hstep]
    exact h.fits
  · rw [hstep]
    exact ⟨_,tx_move hth _,rfl,Or.inr rfl⟩

theorem step_looking (h : Sending i handle t s) {th : TxThread} (hth : s.tx[t]? = some th)
    (hhandle : th.handle = handle) (hplace : th.place = .looking i)
    (hne : (s.ctx.clients_out_buffer i).out_index ≠ (s.ctx.clients_out_buffer i).in_index) :
    (s.stepTx t).ctx.clients_out_buffer i = (s.ctx.clients_out_buffer i).dropMsg ∧
      (s.stepTx t).printed = s.printed ∧ Sending i handle t (s.stepTx t) := by
  subst hhandle
  have hkept : Kept (s.stepTx t) := kept_tx h.kept t fun other hother hcalling => by
    rw [hth, Option.some.injEq] at hother
    rw [← hother] at hcalling
    exact absurd (hplace.symm.trans hcalling) Place.noConfusion
  have hstep : s.stepTx t = Server.send th.handle
      (copied ((s.ctx.clients_out_buffer i).messages (s.ctx.clients_out_buffer i).out_index))
      ({ s with ctx := s.ctx.modify i MsgBuffer.dropMsg }.move t .calling) := by
    rw [Server.stepTx, hth]
    simp only [hplace]
    rw [Server.look, if_neg hne, MsgCtx.touch_inTable h.holds.inTable]
    rfl
  obtain ⟨hctx, htx, hprinted, hfits⟩ := send_frame th.handle
    (copied ((s.ctx.clients_out_buffer i).messages (s.ctx.clients_out_buffer i).out_index))
    ({ s with ctx := s.ctx.modify i MsgBuffer.dropMsg }.move t .calling)
  rw [← hstep] at hctx htx hprinted hfits
  refine ⟨?_,hprinted,hkept,?_,?_,?_⟩
  · rw [hctx]
    exact Function.update_self ..
  · rw [View.Holds, view, hctx]
    exact (MsgCtx.holds_modify (f := MsgBuffer.dropMsg) fun _ => rfl).mpr h.holds
  · rw [hfits]
    exact h.fits
  · rw [htx]
    exact ⟨_,tx_move hth _,rfl,Or.inl rfl⟩

/-- Step by step the thread sends all that waits for its client. -/
theorem sending_delivers (h : Sending i handle t s) :
    ∃ n, ((Server.stepTx t)^[n] s).sent handle = (s.printed handle).map copied := by
  generalize hlength : (s.ctx.clients_out_buffer i).pending.length = k
  induction k generalizing s with
  | zero =>
    have hpending := (h.kept.view.filled i handle h.holds).pending h.fits
    have hnil : (s.ctx.clients_out_buffer i).pending = [] := List.eq_nil_of_length_eq_zero hlength
    refine ⟨0,?_⟩
    rw [Function.iterate_zero_apply, ← show _ = (s.printed handle).map copied from hpending,
      show ((view s).buffers i).pending = [] from hnil, List.map_nil, List.append_nil]
    rfl
  | succ k ih =>
    have hfilled := h.kept.view.filled i handle h.holds
    have hne : (s.ctx.clients_out_buffer i).out_index ≠ (s.ctx.clients_out_buffer i).in_index := by
      intro he
      have hnil := (pending_eq_nil_iff _ hfilled.ring).mpr he
      rw [show (s.ctx.clients_out_buffer i).pending = [] from hnil] at hlength
      cases hlength
    -- From before the comparison of the indices.
    have hlooking : ∀ u, Sending i handle t u → u.ctx = s.ctx → u.printed = s.printed →
        (∃ th, u.tx[t]? = some th ∧ th.handle = handle ∧ th.place = .looking i) →
        ∃ n, ((Server.stepTx t)^[n] u).sent handle = (s.printed handle).map copied := by
      rintro u hu hctx hprinted ⟨th, hth, hhandle, hplace⟩
      obtain ⟨hbuffer, hprinted', hnext⟩ :=
        step_looking hu hth hhandle hplace (by rw [hctx]; exact hne)
      have hdrop : ((u.stepTx t).ctx.clients_out_buffer i).pending.length = k := by
        have hpending := congrArg List.length (pending_dropMsg _ hfilled.ring hne)
        rw [List.length_cons] at hpending
        rw [hbuffer, hctx]
        exact Nat.add_right_cancel (hpending.symm.trans hlength)
      obtain ⟨n, hn⟩ := ih hnext hdrop
      rw [hprinted', hprinted] at hn
      exact ⟨n+1,hn⟩
    obtain ⟨th, hth, hhandle, hplace⟩ := h.thread
    obtain hplace | hplace := hplace
    · obtain ⟨hstep, hnext⟩ := step_calling h hth hhandle hplace
      have hmoved : ∃ th, (s.stepTx t).tx[t]? = some th ∧ th.handle = handle ∧
          th.place = .looking i := by
        rw [hstep]
        exact ⟨_,tx_move hth _,hhandle,rfl⟩
      obtain ⟨n, hn⟩ := hlooking _ hnext (by rw [hstep]; rfl) (by rw [hstep]; rfl) hmoved
      exact ⟨n+1,hn⟩
    · exact hlooking s h rfl rfl ⟨th,hth,hhandle,hplace⟩

/-- A thread that waits at a place with a signal is woken. -/
theorem wake (h : Kept s) (hold : (view s).Holds i handle) (hfits : s.fits handle = true)
    (hsignalled : (s.ctx.clients_out_buffer i).event.signalled = true) {th : TxThread}
    (hth : s.tx[t]? = some th) (hhandle : th.handle = handle) (hplace : th.place = .waiting i) :
    (s.stepTx t).printed = s.printed ∧ Sending i handle t (s.stepTx t) := by
  have hlive : (s.ctx.clients_out_buffer i).event.cancelled = false := h.view.live i handle hold
  have hstep : s.stepTx t =
      { s with ctx := s.ctx.modify i Server.consume }.move t (.looking i) := by
    rw [Server.stepTx, hth]
    simp only [hplace]
    rw [Server.wait, hsignalled, hlive, MsgCtx.touch_inTable hold.inTable]
    rfl
  have hkept : Kept (s.stepTx t) := kept_tx h t fun other hother hcalling => by
    rw [hth, Option.some.injEq] at hother
    rw [← hother] at hcalling
    exact absurd (hplace.symm.trans hcalling) Place.noConfusion
  rw [hstep] at hkept ⊢
  refine ⟨rfl,hkept,?_,hfits,?_⟩
  · exact (MsgCtx.holds_modify (f := Server.consume) fun _ => rfl).mpr hold
  · exact ⟨_,tx_move (s := { s with ctx := s.ctx.modify i Server.consume }) hth _,hhandle,Or.inr rfl⟩

end Sending

theorem delivers {s : Server} (h : Kept s) {i : ℤ} {handle : Handle}
    (hold : (view s).Holds i handle) (hfits : s.fits handle = true) :
    ∃ t n, ((Server.stepTx t)^[n] s).sent handle = (s.printed handle).map copied := by
  by_cases hgoing : ∃ th ∈ s.tx, View.Going i handle th
  · obtain ⟨th, hth, hgo⟩ := hgoing
    obtain ⟨t, ht⟩ := List.mem_iff_getElem?.mp hth
    exact ⟨t,sending_delivers ⟨h,hold,hfits,th,ht,hgo⟩⟩
  · obtain ⟨th, hth, hhandle, hplace⟩ := h.view.thread i handle hold
    obtain ⟨t, ht⟩ := List.mem_iff_getElem?.mp hth
    have hwaiting : th.place = .waiting i := by
      obtain hp | hp | hp := hplace
      · exact absurd ⟨th,hth,hhandle,Or.inl hp⟩ hgoing
      · exact absurd ⟨th,hth,hhandle,Or.inr hp⟩ hgoing
      · exact hp
    have hfilled := h.view.filled i handle hold
    by_cases hempty : (s.ctx.clients_out_buffer i).out_index = (s.ctx.clients_out_buffer i).in_index
    · have hnil := (pending_eq_nil_iff _ hfilled.ring).mpr hempty
      have hpending := hfilled.pending hfits
      rw [hnil, List.map_nil, List.append_nil] at hpending
      exact ⟨t,0,hpending⟩
    · have hsignalled : (s.ctx.clients_out_buffer i).event.signalled = true := by
        obtain hs | hgo := h.view.awake i handle hold hempty
        · exact hs
        · exact absurd hgo hgoing
      obtain ⟨hprinted, hsending⟩ := wake h hold hfits hsignalled ht hhandle hwaiting
      obtain ⟨n, hn⟩ := sending_delivers hsending
      rw [hprinted] at hn
      exact ⟨t,n+1,hn⟩

theorem allServed_of_kept {s : Server} (h : Kept s) : AllServed s where
  served handle hc := by
    have hplace := MsgCtx.handle_to_index_holds (known_of_connected h handle hc)
    constructor
    · exact hplace
    · exact fun i hi => h.view.only i _ handle hi hplace
    · intro other hother he
      have hotherPlace := MsgCtx.handle_to_index_holds (known_of_connected h other hother)
      rw [he] at hotherPlace
      exact hotherPlace.handle.symm.trans hplace.handle
    · intro hfits
      exact ⟨_,(h.view.filled _ handle hplace).pending hfits⟩
    · exact delivers h hplace
  free i hi henabled := h.view.taken i _ ⟨hi,henabled,rfl⟩

/-- In every state of an orderly run each client has a place of its own and is
sent what is printed, and all other places are free. -/
theorem orderly_served {s : Server}
    (hrun : Clocked.Reach Server.step (fun e s => Server.Can e s ∧ Few e s ∧ Orderly e s)
      Server.init s) : AllServed s := by
  apply allServed_of_kept
  apply hrun.invariant Kept kept_init
  exact fun e s he h => kept_step h e he.1 he.2.1 he.2.2

def visits : List Event :=
  [.acceptData,.acceptCmd,.tx 0,.onopen 0,.tx 2,.print "OK".toList,.tx 2,.tx 0,.tx 2,.tx 2,
    .onclose 0,.tx 2,.onopen 1,.print "OK".toList,.tx 3]

theorem orderly_served_visits : AllServed (Server.run visits) :=
  orderly_served (Clocked.Reach.along visits Server.init (by decide +kernel))

def reconnect : List Event := [.acceptData,.acceptCmd,.closeCmd 0,.acceptCmd]

/-- The second client has two places. -/
theorem reconnect_not_served :
    Clocked.Allows Server.step (fun e s => Server.Can e s ∧ Few e s) reconnect Server.init ∧
      ¬AllServed (Server.run reconnect) := by
  refine ⟨by decide +kernel,fun h => ?_⟩
  have hserved := h.served (.cmd 0) (by decide +kernel)
  have hfirst := hserved.only 0 ⟨by decide,by decide +kernel,by decide +kernel⟩
  have hsecond := hserved.only 1 ⟨by decide,by decide +kernel,by decide +kernel⟩
  exact absurd (hfirst.trans hsecond.symm) (by decide)

end Pauline.Lifecycle
