import Pauline.Server.Connections

/-!
# The indices of the tables

Which runs use only places of the client table, and only entries of the
connection tables that are there.
-/

set_option autoImplicit false

namespace Pauline.IndexSafety
open Pauline.Messages Pauline.Clients Pauline.Connections

def Safe (s : Server) : Prop := s.ctx.outside = false ∧ s.null = false

def Ready (th : TxThread) (s : Server) : Prop :=
  match th.place, th.handle with
  | .calling, handle => s.ctx.Known handle
  | .looking i, .cmd n =>
    (s.ctx.clients_out_buffer i).out_index ≠ (s.ctx.clients_out_buffer i).in_index →
      s.threadparams_cmd n = true
  | _, _ => True

def Careful (e : Event) (s : Server) : Prop :=
  match e with
  | .acceptCmd => ∀ n, Server.freeEntry s.threadparams_cmd = some n →
      s.threadparams_data n = true ∧ s.ctx.freePlace ≠ none
  | .onopen _ => s.ctx.freePlace ≠ none
  | .tx t => ∀ th, s.tx[t]? = some th → Ready th s
  | _ => True

structure Sound (s : Server) : Prop where
  web : ∀ client, s.web client = true → s.ctx.Known (.web client)
  cmd : ∀ n, s.cmd_thread n = true → s.threadparams_cmd n = true ∧ s.ctx.Known (.cmd n)
  data : ∀ n, s.data_thread n = true → s.threadparams_data n = true
  tx : ∀ th ∈ s.tx, ∀ i, th.place = .looking i ∨ th.place = .waiting i → InTable i

structure Stepped (s t : Server) (careful : Prop) : Prop where
  safe : Safe t ↔ Safe s ∧ careful
  sound : careful → Sound t

section Steps
variable {s : Server} (h : Sound s)
include h

theorem tx_start (handle : Handle) : ∀ th ∈ (s.start handle).tx, ∀ i,
    th.place = .looking i ∨ th.place = .waiting i → InTable i := by
  intro th hth i hi
  obtain hth | rfl := mem_start.mp hth
  · exact h.tx th hth i hi
  · obtain hi | hi := hi <;> cases hi

theorem tx_move (t : ℕ) {place : Place}
    (hplace : ∀ i, place = .looking i ∨ place = .waiting i → InTable i) :
    ∀ th ∈ (s.move t place).tx, ∀ i, th.place = .looking i ∨ th.place = .waiting i → InTable i := by
  intro th hth i hi
  obtain hth | rfl := mem_move hth
  · exact h.tx th hth i hi
  · exact hplace i hi

/-- Only what is in the client table has changed, and every client is still there. -/
theorem sound_ctx {c : MsgCtx} (hknown : ∀ handle, s.ctx.Known handle → c.Known handle) :
    Sound { s with ctx := c } where
  web client hclient := hknown _ (h.web client hclient)
  cmd n hn := ⟨(h.cmd n hn).1,hknown _ (h.cmd n hn).2⟩
  data := h.data
  tx := h.tx

theorem stepped_acceptData : Stepped s s.acceptData True := by
  unfold Server.acceptData
  split
  next => exact ⟨(and_iff_left trivial).symm,fun _ => h⟩
  next n hn =>
    refine ⟨(and_iff_left trivial).symm,fun _ => ⟨h.web,h.cmd,?_,tx_start h _⟩⟩
    intro m hm
    obtain rfl | hm := update_true.mp hm
    · exact Function.update_self ..
    · exact update_true.mpr (Or.inr (h.data m hm))

theorem stepped_acceptCmd : Stepped s s.acceptCmd (Careful .acceptCmd s) := by
  unfold Server.acceptCmd
  split
  next hn =>
    have hcareful : Careful .acceptCmd s := fun n hsome => by
      rw [hn] at hsome
      cases hsome
    exact ⟨(and_iff_left hcareful).symm,fun _ => h⟩
  next n hn =>
    have hcareful : Careful .acceptCmd s ↔
        s.threadparams_data n = true ∧ s.ctx.freePlace ≠ none :=
      ⟨fun hc => hc n hn,fun hc m hm => by
        rw [hn, Option.some.injEq] at hm
        exact hm ▸ hc⟩
    rw [hcareful]
    cases hfree : s.ctx.freePlace with
    | none =>
      have hunsafe : (s.ctx.add_client (.cmd n)).2.outside = true := by
        rw [MsgCtx.add_client_full hfree]
        exact MsgCtx.touch_outside (by decide)
      constructor
      · exact iff_of_false (fun hsafe => absurd (hsafe.1.symm.trans hunsafe) (by decide))
          fun hc => hc.2.2 rfl
      · exact fun hc => absurd rfl hc.2
    | some i =>
      obtain ⟨hnew, hold⟩ := MsgCtx.known_occupy hfree (.cmd n)
      have hctx : (s.ctx.add_client (.cmd n)).2 = s.ctx.occupy i (.cmd n) := by
        rw [MsgCtx.add_client_free hfree]
      dsimp only [Server.forget, Server.useData]
      rw [hctx]
      constructor
      · simp only [Safe, Server.start, Bool.or_eq_false_iff, Bool.not_eq_false', ne_eq,
          reduceCtorEq, not_false_eq_true, and_true]
        exact (and_assoc).symm
      · refine fun _ => ⟨fun client hclient => hold _ (h.web client hclient),?_,h.data,tx_start h _⟩
        intro m hm
        obtain rfl | hm := update_true.mp hm
        · exact ⟨Function.update_self ..,hnew⟩
        · exact ⟨update_true.mpr (Or.inr (h.cmd m hm).1),hold _ (h.cmd m hm).2⟩

theorem stepped_onopen (client : ℕ) :
    Stepped s (s.onopen client) (Careful (.onopen client) s) := by
  unfold Server.onopen
  change Stepped _ _ (s.ctx.freePlace ≠ none)
  cases hfree : s.ctx.freePlace with
  | none =>
    have hadded := MsgCtx.add_client_full hfree (.web client)
    rw [hadded, if_neg (show ¬(0 : ℤ) ≤ -1 by decide)]
    have hunsafe : (s.ctx.touch maxNbClients).outside = true := MsgCtx.touch_outside (by decide)
    constructor
    · exact iff_of_false (fun hsafe => absurd (hsafe.1.symm.trans hunsafe) (by decide))
        fun hc => hc.2 rfl
    · exact fun hc => absurd rfl hc
  | some i =>
    obtain ⟨hnew, hold⟩ := MsgCtx.known_occupy hfree (.web client)
    rw [MsgCtx.add_client_free hfree, if_pos (MsgCtx.freePlace_some hfree).1.1]
    constructor
    · exact (and_iff_left (Option.some_ne_none i)).symm
    · refine fun _ => ⟨?_,fun n hn => ⟨(h.cmd n hn).1,hold _ (h.cmd n hn).2⟩,h.data,tx_start h _⟩
      intro other hother
      obtain rfl | hother := update_true.mp hother
      · exact hnew
      · exact hold _ (h.web other hother)

theorem useCmd_of_running {n : ℕ} (hn : s.cmd_thread n = true) : s.useCmd n = s := by
  rw [Server.useCmd, (h.cmd n hn).1, Bool.not_true, Bool.or_false]

theorem useData_of_running {n : ℕ} (hn : s.data_thread n = true) : s.useData n = s := by
  rw [Server.useData, h.data n hn, Bool.not_true, Bool.or_false]

/-- A message of a client that is in the table. -/
theorem stepped_push {handle : Handle} (hknown : s.ctx.Known handle) (msg : List Char) :
    Stepped s { s with ctx := s.ctx.msg_push_in_msg (s.ctx.handle_to_index handle) msg } True := by
  rw [MsgCtx.push_of_holds (MsgCtx.handle_to_index_holds hknown)]
  refine ⟨(and_iff_left trivial).symm,fun _ => sound_ctx h fun other hother => ?_⟩
  obtain ⟨i, hi⟩ := hother
  exact ⟨i,hi.inTable,hi.enabled,hi.handle⟩

theorem stepped_recvCmd {n : ℕ} (hn : s.cmd_thread n = true) (line : List Char) :
    Stepped s (s.recvCmd n line) True := by
  rw [Server.recvCmd, useCmd_of_running h hn]
  exact stepped_push h (h.cmd n hn).2 line

theorem stepped_closeCmd {n : ℕ} (hn : s.cmd_thread n = true) :
    Stepped s (s.closeCmd n) True := by
  have hplace := MsgCtx.handle_to_index_holds (h.cmd n hn).2
  have hknown : ∀ other, s.ctx.Known other →
      (s.ctx.modify (s.ctx.handle_to_index (.cmd n)) MsgCtx.cancel).Known other :=
    fun other ⟨i, hi⟩ => ⟨i,(MsgCtx.holds_modify (f := MsgCtx.cancel) fun _ => rfl).mpr hi⟩
  rw [Server.closeCmd, useCmd_of_running h hn, MsgCtx.exitwait_of_inTable hplace.inTable]
  refine ⟨(and_iff_left trivial).symm,fun _ => ⟨?_,?_,h.data,h.tx⟩⟩
  · exact fun client hclient => hknown _ (h.web client hclient)
  · intro m hm
    obtain ⟨hne, hm⟩ := update_false.mp hm
    exact ⟨update_false.mpr ⟨hne,(h.cmd m hm).1⟩,hknown _ (h.cmd m hm).2⟩

theorem stepped_closeData {n : ℕ} (hn : s.data_thread n = true) :
    Stepped s (s.closeData n) True := by
  rw [Server.closeData, useData_of_running h hn]
  refine ⟨(and_iff_left trivial).symm,fun _ => ⟨h.web,h.cmd,?_,h.tx⟩⟩
  intro m hm
  obtain ⟨hne, hm⟩ := update_false.mp hm
  exact update_false.mpr ⟨hne,h.data m hm⟩

theorem stepped_onclose {client : ℕ} (hclient : s.web client = true) :
    Stepped s (s.onclose client) True := by
  have hplace := MsgCtx.handle_to_index_holds (h.web client hclient)
  have hknown : ∀ other, other ≠ .web client → s.ctx.Known other →
      ((s.ctx.exitwait (s.ctx.handle_to_index (.web client))).remove_client
        (s.ctx.handle_to_index (.web client))).Known other := by
    rintro other hne ⟨i, hi⟩
    refine ⟨i,(MsgCtx.holds_close hplace).mpr ⟨?_,hi⟩⟩
    rintro rfl
    exact hne (hi.handle.symm.trans hplace.handle)
  rw [Server.onclose]
  refine ⟨?_,fun _ => ⟨?_,?_,h.data,h.tx⟩⟩
  · rw [MsgCtx.close_of_holds hplace]
    exact (and_iff_left trivial).symm
  · intro other hother
    obtain ⟨hne, hother⟩ := update_false.mp hother
    exact hknown _ (fun he => hne (Handle.web.inj he)) (h.web other hother)
  · exact fun n hn => ⟨(h.cmd n hn).1,hknown _ Handle.noConfusion (h.cmd n hn).2⟩

theorem stepped_print (msg : List Char) : Stepped s (s.print msg) True := by
  refine ⟨(and_iff_left trivial).symm,fun _ => ?_⟩
  have hknown : ∀ other, s.ctx.Known other → (s.ctx.msg_print msg).Known other :=
    fun other ⟨i, hi⟩ => ⟨i,MsgCtx.holds_msg_print.mpr hi⟩
  exact ⟨fun client hclient => hknown _ (h.web client hclient),
    fun n hn => ⟨(h.cmd n hn).1,hknown _ (h.cmd n hn).2⟩,h.data,h.tx⟩

theorem stepped_move (t : ℕ) {c : MsgCtx} (houtside : c.outside = s.ctx.outside)
    (hknown : ∀ handle, s.ctx.Known handle → c.Known handle) (place : Place)
    (hplace : ∀ i, place = .looking i ∨ place = .waiting i → InTable i) :
    Stepped s (Server.move t place { s with ctx := c }) True where
  safe := by
    rw [Safe, Server.move, houtside]
    exact (and_iff_left trivial).symm
  sound _ :=
    have hctx := sound_ctx h hknown
    ⟨hctx.web,hctx.cmd,hctx.data,tx_move hctx t hplace⟩

theorem stepped_call (t : ℕ) (handle : Handle) :
    Stepped s (s.call t handle) (s.ctx.Known handle) := by
  unfold Server.call
  by_cases hknown : s.ctx.Known handle
  · have htable := (MsgCtx.handle_to_index_holds hknown).inTable
    have hle : ¬s.ctx.handle_to_index handle > maxNbClients - 1 := by
      have := htable.2
      omega
    rw [if_neg hle, MsgCtx.touch_inTable htable]
    have hmove := stepped_move h t (c := s.ctx) rfl (fun _ h => h)
      (.looking (s.ctx.handle_to_index handle)) (by
        rintro i (hi | hi) <;> cases hi
        exact htable)
    exact ⟨by simpa only [hknown] using hmove.safe,fun _ => hmove.sound trivial⟩
  · rw [MsgCtx.handle_to_index_unknown hknown,
      if_neg (show ¬(-1 : ℤ) > maxNbClients - 1 by decide)]
    have hunsafe : (s.ctx.touch (-1)).outside = true := MsgCtx.touch_outside (by decide)
    exact ⟨iff_of_false (fun hsafe => absurd (hsafe.1.symm.trans hunsafe) (by decide))
      fun hc => hknown hc.2,fun hc => absurd hc hknown⟩

theorem stepped_look (t : ℕ) {th : TxThread} {i : ℤ} (hi : InTable i) (hth : th.place = .looking i) :
    Stepped s (s.look t th.handle i) (Ready th s) := by
  unfold Server.look
  dsimp only
  rw [MsgCtx.touch_inTable hi]
  split_ifs with hempty
  · have hready : Ready th s := by
      unfold Ready
      rw [hth]
      cases th.handle with
      | cmd n => exact fun hne => absurd hempty hne
      | web => trivial
    have hmove := stepped_move h t (c := s.ctx) rfl (fun _ h => h) (.waiting i) (by
        rintro j (hj | hj) <;> cases hj
        exact hi)
    exact ⟨by simpa only [hready] using hmove.safe,fun _ => hmove.sound trivial⟩
  · have hmove := stepped_move h t (c := s.ctx.modify i MsgBuffer.dropMsg) rfl
      (fun _ ⟨j, hj⟩ => ⟨j,(MsgCtx.holds_modify (f := MsgBuffer.dropMsg) fun _ => rfl).mpr hj⟩)
      Place.calling (by rintro j (hj | hj) <;> cases hj)
    have hsound := hmove.sound trivial
    have hsent : ∀ sent null, Sound { Server.move t .calling { s with
        ctx := s.ctx.modify i MsgBuffer.dropMsg } with sent := sent, null := null } :=
      fun _ _ => ⟨hsound.web,hsound.cmd,hsound.data,hsound.tx⟩
    unfold Ready Server.send
    rw [hth]
    cases th.handle with
    | cmd n =>
      refine ⟨?_,fun _ => hsent _ _⟩
      simp only [Safe, Server.useCmd, Server.move, Bool.or_eq_false_iff, Bool.not_eq_false',
        MsgCtx.modify, ne_eq, hempty, not_false_eq_true, true_imp_iff]
      exact (and_assoc).symm
    | web client => exact ⟨(and_iff_left trivial).symm,fun _ => hsent _ _⟩

theorem stepped_wait (t : ℕ) {i : ℤ} (hi : InTable i) : Stepped s (s.wait t i) True := by
  unfold Server.wait
  dsimp only
  rw [MsgCtx.touch_inTable hi]
  split_ifs
  · exact ⟨(and_iff_left trivial).symm,fun _ => h⟩
  all_goals
    apply stepped_move h t
    · rfl
    · exact fun _ ⟨j, hj⟩ =>
        ⟨j,(MsgCtx.holds_modify (f := Server.consume) fun _ => rfl).mpr hj⟩
    · rintro j (hj | hj) <;> cases hj <;> exact hi

theorem stepped_tx (t : ℕ) : Stepped s (s.stepTx t) (Careful (.tx t) s) := by
  unfold Server.stepTx
  split
  next hnone =>
    have hcareful : Careful (.tx t) s := fun th hth => by
      rw [hnone] at hth
      cases hth
    exact ⟨(and_iff_left hcareful).symm,fun _ => h⟩
  next th hth =>
    have hcareful : Careful (.tx t) s ↔ Ready th s :=
      ⟨fun hc => hc th hth,fun hready other hother => by
        rw [hth, Option.some.injEq] at hother
        exact hother ▸ hready⟩
    rw [hcareful]
    have hplace := h.tx th (List.mem_of_getElem? hth)
    cases hp : th.place with
    | calling =>
      have hready : Ready th s ↔ s.ctx.Known th.handle := by rw [Ready, hp]
      rw [hready]
      exact stepped_call h t th.handle
    | looking i => exact stepped_look h t (hplace i (Or.inl hp)) hp
    | waiting i =>
      have hready : Ready th s := by
        unfold Ready
        rw [hp]
        trivial
      have hwait := stepped_wait h t (hplace i (Or.inr hp))
      exact ⟨by simpa only [hready] using hwait.safe,fun _ => hwait.sound trivial⟩
    | ended =>
      have hready : Ready th s := by
        unfold Ready
        rw [hp]
        trivial
      exact ⟨(and_iff_left hready).symm,fun _ => h⟩

theorem stepped (e : Event) (he : Server.Can e s) : Stepped s (s.step e) (Careful e s) := by
  cases e with
  | acceptCmd => exact stepped_acceptCmd h
  | acceptData => exact stepped_acceptData h
  | onopen client => exact stepped_onopen h client
  | recvCmd n line => exact stepped_recvCmd h he line
  | recvData n =>
    rw [Server.step, useData_of_running h he]
    exact ⟨(and_iff_left trivial).symm,fun _ => h⟩
  | closeCmd n => exact stepped_closeCmd h he
  | closeData n => exact stepped_closeData h he
  | onmessage client msg => exact stepped_push h (h.web client he) msg
  | onclose client => exact stepped_onclose h he
  | print msg => exact stepped_print h msg
  | tx t => exact stepped_tx h t

end Steps

/-! ## What has happened stays -/

section Outside
variable {c : MsgCtx} (h : c.outside = true)
include h

theorem outside_touch (i : ℤ) : (c.touch i).outside = true := by
  rw [MsgCtx.touch, h, Bool.true_or]

theorem outside_add_client (handle : Handle) : (c.add_client handle).2.outside = true := by
  unfold MsgCtx.add_client
  split
  · exact h
  · exact outside_touch h _

theorem outside_remove_client (i : ℤ) : (c.remove_client i).outside = true := by
  unfold MsgCtx.remove_client
  split_ifs
  · exact h
  · exact outside_touch h i
  · exact outside_touch h i

theorem outside_exitwait (i : ℤ) : (c.exitwait i).outside = true := by
  unfold MsgCtx.exitwait
  split_ifs
  · exact h
  · exact outside_touch h i

theorem outside_msg_push_in_msg (i : ℤ) (msg : List Char) :
    (c.msg_push_in_msg i msg).outside = true := by
  unfold MsgCtx.msg_push_in_msg
  split_ifs
  · exact h
  · exact outside_touch h i
  · exact outside_touch h i

end Outside

theorem outside_step {s : Server} (h : s.ctx.outside = true) (e : Event) :
    (s.step e).ctx.outside = true := by
  cases e with
  | acceptCmd =>
    rw [Server.step, Server.acceptCmd]
    split
    · exact h
    · exact outside_add_client h _
  | acceptData =>
    rw [Server.step, Server.acceptData]
    split <;> exact h
  | onopen client =>
    rw [Server.step, Server.onopen]
    split_ifs <;> exact outside_add_client h _
  | recvCmd n line => exact outside_msg_push_in_msg h _ line
  | closeCmd n => exact outside_exitwait h _
  | onmessage client msg => exact outside_msg_push_in_msg h _ msg
  | onclose client => exact outside_remove_client (outside_exitwait h _) _
  | tx t =>
    rw [Server.step, Server.stepTx]
    split
    · exact h
    · split
      · unfold Server.call
        dsimp only
        split_ifs
        · exact h
        · exact outside_touch h _
      · unfold Server.look Server.send
        dsimp only
        split_ifs
        · exact outside_touch h _
        · split <;> exact outside_touch h _
      · unfold Server.wait
        dsimp only
        split_ifs <;> exact outside_touch h _
      · exact h
  | _ => exact h

theorem null_step {s : Server} (h : s.null = true) (e : Event) : (s.step e).null = true := by
  have hor : ∀ b, (s.null || b) = true := fun b => by rw [h, Bool.true_or]
  cases e with
  | acceptCmd =>
    rw [Server.step, Server.acceptCmd]
    split
    · exact h
    · exact hor _
  | acceptData =>
    rw [Server.step, Server.acceptData]
    split <;> exact h
  | onopen client =>
    rw [Server.step, Server.onopen]
    split_ifs <;> exact h
  | recvCmd n line => exact hor _
  | recvData n => exact hor _
  | closeCmd n => exact hor _
  | closeData n => exact hor _
  | tx t =>
    rw [Server.step, Server.stepTx]
    split
    · exact h
    · split
      · unfold Server.call
        dsimp only
        split_ifs <;> exact h
      · unfold Server.look Server.send
        dsimp only
        split_ifs
        · exact h
        · split
          · exact hor _
          · exact h
      · unfold Server.wait
        dsimp only
        split_ifs <;> exact h
      · exact h
  | _ => exact h

theorem safe_of_step {s : Server} {e : Event} (h : Safe (s.step e)) : Safe s :=
  ⟨eq_false_of_ne_true fun ho => absurd (h.1.symm.trans (outside_step ho e)) (by decide),
    eq_false_of_ne_true fun hn => absurd (h.2.symm.trans (null_step hn e)) (by decide)⟩

theorem safe_of_run (events : List Event) {s : Server}
    (h : Safe (events.foldl (fun s e => s.step e) s)) : Safe s := by
  induction events generalizing s with
  | nil => exact h
  | cons e events ih => exact safe_of_step (ih h)

theorem safe_run_iff (events : List Event) {s : Server} (hsound : Sound s) (hsafe : Safe s)
    (hcan : Clocked.Allows Server.step Server.Can events s) :
    Safe (events.foldl (fun s e => s.step e) s) ↔
      Clocked.Allows Server.step Careful events s := by
  induction events generalizing s with
  | nil => exact iff_of_true hsafe trivial
  | cons e events ih =>
    obtain ⟨he, hrest⟩ := hcan
    have hstep := stepped hsound e he
    rw [List.foldl_cons, Clocked.Allows]
    by_cases hcareful : Careful e s
    · rw [and_iff_right hcareful]
      exact ih (hstep.sound hcareful) (hstep.safe.mpr ⟨hsafe,hcareful⟩) hrest
    · exact iff_of_false (fun h => hcareful (hstep.safe.mp (safe_of_run events h)).2)
        fun h => hcareful h.1

/-- A run uses only places of the table and entries that are there, if and only
if each of its steps is careful. -/
theorem index_safe_iff (events : List Event)
    (hcan : Clocked.Allows Server.step Server.Can events Server.init) :
    Safe (Server.run events) ↔ Clocked.Allows Server.step Careful events Server.init :=
  safe_run_iff events ⟨fun _ h => Bool.noConfusion h,fun _ h => Bool.noConfusion h,
    fun _ h => Bool.noConfusion h,fun _ h => absurd h List.not_mem_nil⟩ ⟨rfl,rfl⟩ hcan

def visits : List Event :=
  [.acceptData,.acceptCmd,.tx 0,.tx 1,.onopen 0,.tx 2,.recvCmd 0 "help".toList,
    .print "OK".toList,.tx 1,.tx 2,.tx 2,.onclose 0,.closeCmd 0,.tx 2,.tx 0,.closeData 0]

theorem index_safe_iff_visits :
    Safe (Server.run visits) ↔ Clocked.Allows Server.step Careful visits Server.init :=
  index_safe_iff visits (by decide)

/-- The first command connection, and no data connection. -/
theorem no_data_connection :
    Clocked.Allows Server.step Server.Can [.acceptCmd] Server.init ∧
      ¬Safe (Server.run [.acceptCmd]) := by
  refine ⟨by decide,fun h => ?_⟩
  exact absurd h.2 (by decide)

end Pauline.IndexSafety
