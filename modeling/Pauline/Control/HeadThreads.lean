import Pauline.Control.MoveHead

/-!
# Two threads that move the head

The script thread and the dump thread both call `floppy_ctrl_move_head`. The
part of a call that holds the mutex is one step, the wait for the busy bit
behind it is not: the other thread may give its command in the meantime.
-/

set_option autoImplicit false

namespace Pauline.HeadStepper

inductive Thread where
  | script
  | dump
deriving DecidableEq

structure Call where
  mode : InterfaceMode
  dir : Bool
  trk : BitVec 32

def Call.word (c : Call) : Option (BitVec 32) :=
  match headCommand c.mode c.dir c.trk with
  | .headmove w => some w
  | .appleMac _ => none

/-- Where a thread is in its call. The busy bit cannot be read before the
second clock behind the mutex. -/
inductive Phase where
  | outside
  | unlocked
  | polling
  | returned
deriving DecidableEq

def Phase.next : Phase → Phase
  | .unlocked => .polling
  | p => p

structure Callers where
  sys : System
  phase : Thread → Phase
  /-- The threads that have been in, the last one first. -/
  order : List Thread
  /-- The moves the machine has begun, the last one first: its direction and the
  steps done. -/
  moves : List (Bool × ℕ)

def record (s n : Stepper) (moves : List (Bool × ℕ)) : List (Bool × ℕ) :=
  match s.state_stepper_register, n.state_stepper_register, moves with
  | .wait_cmd, .pre_move_head, moves => (n.floppy_ctrl_dir_q,0)::moves
  | .pre_move_head, .move_head, (inward,steps)::moves => (inward,steps+1)::moves
  | _, _, moves => moves

inductive Event where
  | clock
  | enter (t : Thread)
  | poll (t : Thread)

def Callers.clocked (c : Callers) (sys : System) : Callers :=
  { c with
    sys := sys
    phase := fun t => (c.phase t).next
    moves := record c.sys.stepper sys.stepper c.moves }

def Callers.locked (calls : Thread → Call) (c : Callers) (t : Thread) : System :=
  match (calls t).word with
  | some w => clockWrite w c.sys
  | none => clock c.sys

def Callers.step (calls : Thread → Call) (e : Event) (c : Callers) : Callers :=
  match e with
  | .clock => c.clocked (clock c.sys)
  | .enter t =>
    let n := c.clocked (c.locked calls t)
    { n with phase := Function.update n.phase t .unlocked, order := t::c.order }
  | .poll t =>
    if c.sys.stepper.head_moving then c
    else { c with phase := Function.update c.phase t .returned }

def Callers.Enabled (e : Event) (c : Callers) : Prop :=
  match e with
  | .clock => True
  | .enter t => c.phase t = .outside
  | .poll t => c.phase t = .polling

instance (e : Event) (c : Callers) : Decidable (c.Enabled e) := by
  unfold Callers.Enabled
  cases e <;> infer_instance

def Callers.start (sys : System) : Callers := ⟨sys,fun _ => .outside,[],[]⟩

def Callers.run (calls : Thread → Call) (events : List Event) (c : Callers) : Callers :=
  events.foldl (fun c e => c.step calls e) c

/-! ## What the calls ask for -/

/-- The steps of a call, `trk & 0x1FF` of them. The Macintosh interface has no
use for the stepper. -/
def Call.move (c : Call) : Option (Bool × ℕ) :=
  match c.mode with
  | .generic | .apple_ii => some (c.dir,countOf c.trk)
  | .apple_macintosh => none

def Head.after (h : Head) : List (Bool × ℕ) → Head
  | [] => h
  | (inward,steps)::moves => (Head.step inward)^[steps] (h.after moves)

def InTurn (calls : Thread → Call) (start : Head) (c : Callers) : Prop :=
  c.moves = c.order.filterMap (fun t => (calls t).move) ∧ c.sys.head = start.after c.moves

def System.Free (s : System) : Prop :=
  s.ctrl_head_move_cmd = false ∧
    (s.stepper.state_stepper_register = .wait_cmd ∨
      s.stepper.state_stepper_register = .move_head ∧
        s.stepper.stepper_tick_cnt = s.ctrl_steprate_reg ∧
        s.stepper.track_pos_cnt = s.ctrl_track_reg)

instance (s : System) : Decidable s.Free := inferInstanceAs (Decidable (_ ∧ _))

def Timed (calls : Thread → Call) (e : Event) (c : Callers) : Prop :=
  match e with
  | .enter t => (calls t).word.isSome → c.sys.Free
  | _ => True

def Spaced (calls : Thread → Call) (events : List Event) (s : System) : Prop :=
  (∀ t, (calls t).word.isSome → countOf (calls t).trk ≠ 0) ∧
    Clocked.Allows (Callers.step calls) (Timed calls) events (Callers.start s)

def Callers.words (calls : Thread → Call) (c : Callers) : List (BitVec 32) :=
  c.order.filterMap fun t => (calls t).word

def moveFor (w : BitVec 32) : Bool × ℕ := (w.getLsbD 17,stepsOf (w.extractLsb' 0 10))

theorem word_cmd {c : Call} {w : BitVec 32} (h : c.word = some w) : w.getLsbD 16 = true := by
  unfold Call.word headCommand at h
  cases hm : c.mode with
  | apple_macintosh => simp [hm] at h
  | _ =>
    simp only [hm, Option.some.injEq] at h
    rw [← h]
    exact headmoveWord_cmd _ _

/-- The steps of the call are those the machine makes, if there is one. -/
theorem move_eq_iff (c : Call) :
    c.move = c.word.map moveFor ↔ (c.word.isSome → countOf c.trk ≠ 0) := by
  have hsteps : moveFor (headmoveWord c.dir c.trk) = (c.dir,stepCount c.trk) := by
    rw [moveFor, headmoveWord_dir, headmoveWord_steps]
  have hcount : countOf c.trk = stepCount c.trk ↔ countOf c.trk ≠ 0 := by
    unfold stepCount
    split <;> omega
  unfold Call.move Call.word headCommand
  cases hm : c.mode <;> simp [hsteps, hcount]

theorem move_isSome (c : Call) : c.move.isSome = c.word.isSome := by
  unfold Call.move Call.word headCommand
  cases c.mode <;> rfl

theorem moves_length (calls : Thread → Call) (ts : List Thread) :
    (ts.filterMap fun t => (calls t).move).length =
      (ts.filterMap fun t => (calls t).word).length := by
  simp only [List.length_filterMap_eq_countP, move_isSome]

theorem filterMap_eq_iff {α β : Type*} (f g : α → Option β)
    (hsome : ∀ a, (f a).isSome = (g a).isSome) (as : List α) :
    as.filterMap f = as.filterMap g ↔ ∀ a ∈ as, f a = g a := by
  induction as with
  | nil => simp
  | cons a as ih =>
    rw [List.forall_mem_cons, ← ih]
    have ha := hsome a
    cases hf : f a with
    | none =>
      have hg : g a = none := by simpa [hf] using ha.symm
      simp [hf, hg]
    | some b =>
      obtain ⟨b', hg⟩ : ∃ b', g a = some b' := by
        simpa [hf, Option.isSome_iff_exists] using ha.symm
      simp [hf, hg]

/-- The moves asked for are those the machine makes of the words. -/
theorem moves_eq_iff (calls : Thread → Call) (ts : List Thread) :
    ts.filterMap (fun t => (calls t).move) =
        (ts.filterMap fun t => (calls t).word).map moveFor ↔
      ∀ t ∈ ts, (calls t).word.isSome → countOf (calls t).trk ≠ 0 := by
  rw [List.map_filterMap, filterMap_eq_iff]
  · simp only [move_eq_iff]
  · intro t
    simp [move_isSome]

/-! ## Commands that are in time -/

variable {calls : Thread → Call} {h₀ : Head} {c : Callers}

structure Callers.Resting (calls : Thread → Call) (h₀ : Head) (c : Callers) : Prop where
  idle : Idle c.sys
  moves : c.moves = (c.words calls).map moveFor
  head : c.sys.head = h₀.after ((c.words calls).map moveFor)

structure Callers.Ordered (calls : Thread → Call) (h₀ : Head) (c : Callers) (t : Thread)
    (w : BitVec 32) (ws : List (BitVec 32)) : Prop where
  words : c.words calls = w::ws
  cmd : w.getLsbD 16 = true
  raised : Raised w c.sys
  moves : c.moves = ws.map moveFor
  head : c.sys.head = h₀.after (ws.map moveFor)
  phase : c.phase t = .unlocked

structure Callers.Busy (calls : Thread → Call) (h₀ : Head) (c : Callers) (t : Thread)
    (w : BitVec 32) (ws : List (BitVec 32)) (m : Move) (j : ℕ) : Prop where
  words : c.words calls = w::ws
  same : (m.inward,stepsOf m.count) = moveFor w
  start : m.start = h₀.after (ws.map moveFor)
  moving : c.sys.stepper.head_moving = true
  stage : m.Before j c.sys ∨ m.After j c.sys ∨ m.Done c.sys ∧ j = stepsOf m.count
  moves : c.moves = (m.inward,j)::ws.map moveFor
  phase : c.phase t = .polling

inductive Callers.Served (calls : Thread → Call) (h₀ : Head) (c : Callers) : Prop where
  | resting (h : c.Resting calls h₀)
  | ordered (t : Thread) (w : BitVec 32) (ws : List (BitVec 32)) (h : c.Ordered calls h₀ t w ws)
  | busy (t : Thread) (w : BitVec 32) (ws : List (BitVec 32)) (m : Move) (j : ℕ)
    (h : c.Busy calls h₀ t w ws m j)

@[simp] theorem words_clocked (calls : Thread → Call) (c : Callers) (sys : System) :
    (c.clocked sys).words calls = c.words calls := rfl

theorem Callers.Resting.clocked (h : c.Resting calls h₀) :
    (c.clocked (clock c.sys)).Resting calls h₀ := by
  obtain ⟨hidle, hhead⟩ := h.idle.clock
  exact
    { idle := hidle
      moves := by
        rw [words_clocked, ← h.moves]
        simp only [Callers.clocked, record, h.idle.state, hidle.state]
      head := hhead.trans h.head }

theorem Callers.Ordered.clocked {t : Thread} {w : BitVec 32} {ws : List (BitVec 32)}
    (h : c.Ordered calls h₀ t w ws) :
    (c.clocked (clock c.sys)).Busy calls h₀ t w ws h.raised.move 0 := by
  have hstart := h.raised.starts h.cmd
  exact
    { words := h.words
      same := rfl
      start := h.head
      moving := hstart.moving
      stage := Or.inl hstart
      moves := by
        have hdir := hstart.dir
        simp only [Callers.clocked, record, h.raised.state, hstart.state, hdir, h.moves]
      phase := by simp [Callers.clocked, h.phase, Phase.next] }

/-- The machine only leaves a move when it has made all of its steps. -/
theorem Move.After.last {m : Move} {s : System} {j : ℕ} (h : m.After j s)
    (hs : (HeadStepper.clock s).stepper.state_stepper_register = .wait_cmd) : j = stepsOf m.count := by
  have hT : s.stepper.stepper_tick_cnt = s.input.step_rate := by
    by_contra hT
    have hedge := edge_move_waits s.input s.stepper h.state hT
    simp [HeadStepper.clock, hedge, h.state] at hs
  have hedge := edge_move_ends s.input s.stepper h.state hT
  have hcnt : s.stepper.track_pos_cnt = s.input.track_pos_cmd := by
    by_contra hcnt
    simp [HeadStepper.clock, hedge, hcnt] at hs
  have hcount : s.input.track_pos_cmd = m.count := h.count
  rw [h.cnt, hcount] at hcnt
  exact (count_eq_iff _ _ h.done_pos h.done_le).mp hcnt

theorem head_after_move {m : Move} {w : BitVec 32} {ws : List (BitVec 32)}
    (hsame : (m.inward,stepsOf m.count) = moveFor w)
    (hstart : m.start = h₀.after (ws.map moveFor)) :
    m.headAfter (stepsOf m.count) = h₀.after ((w::ws).map moveFor) := by
  rw [List.map_cons, ← hsame, Head.after, ← hstart]
  rfl

theorem Callers.Busy.clocked {t : Thread} {w : BitVec 32} {ws : List (BitVec 32)} {m : Move}
    {j : ℕ} (h : c.Busy calls h₀ t w ws m j) :
    (∃ j', (c.clocked (clock c.sys)).Busy calls h₀ t w ws m j') ∨
      (c.clocked (clock c.sys)).Resting calls h₀ := by
  have hphase : (c.clocked (clock c.sys)).phase t = .polling := by
    simp [Callers.clocked, h.phase, Phase.next]
  have hgoes : ∀ j', (clock c.sys).stepper.head_moving = true →
      (m.Before j' (clock c.sys) ∨ m.After j' (clock c.sys) ∨
        m.Done (clock c.sys) ∧ j' = stepsOf m.count) →
      record c.sys.stepper (clock c.sys).stepper c.moves = (m.inward,j')::ws.map moveFor →
      ∃ j', (c.clocked (clock c.sys)).Busy calls h₀ t w ws m j' := by
    intro j' hmoving hstage hmoves
    exact ⟨j',h.words,h.same,h.start,hmoving,hstage,hmoves,hphase⟩
  obtain hb | ha | ⟨hd, hj⟩ := h.stage
  · obtain ⟨hn, -⟩ | hn := hb.clock
    · apply Or.inl
      apply hgoes j hn.moving (Or.inl hn)
      simp only [record, hb.state, hn.state, h.moves]
    · apply Or.inl
      apply hgoes (j+1) hn.moving (Or.inr (Or.inl hn))
      simp only [record, hb.state, hn.state, h.moves]
  · obtain ⟨hn, -⟩ | hn | ⟨hmoving, hn⟩ := ha.clock
    · apply Or.inl
      apply hgoes j hn.moving (Or.inr (Or.inl hn))
      simp only [record, ha.state, hn.state, h.moves]
    · apply Or.inl
      apply hgoes j hn.moving (Or.inl hn)
      simp only [record, ha.state, hn.state, h.moves]
    · apply Or.inl
      apply hgoes j hmoving (Or.inr (Or.inr ⟨hn,ha.last hn.state⟩))
      simp only [record, ha.state, hn.state, h.moves]
  · obtain ⟨hidle, hhead⟩ := hd.clock
    apply Or.inr
    exact
      { idle := hidle
        moves := by
          rw [words_clocked, h.words, List.map_cons, ← h.same, ← hj]
          simp only [Callers.clocked, record, hd.state, hidle.state, h.moves]
        head := by
          rw [words_clocked, h.words]
          exact hhead.trans (head_after_move h.same h.start) }

theorem Callers.Served.clocked (h : c.Served calls h₀) :
    (c.clocked (clock c.sys)).Served calls h₀ := by
  cases h with
  | resting h => exact .resting h.clocked
  | ordered t w ws h => exact .busy t w ws _ 0 h.clocked
  | busy t w ws m j h =>
    obtain ⟨j', h⟩ | h := h.clocked
    · exact .busy t w ws m j' h
    · exact .resting h

/-- A thread that is not waiting for its own command goes on. -/
theorem Callers.Served.moveOn {n : Callers} (h : c.Served calls h₀) (hsys : n.sys = c.sys)
    (hmoves : n.moves = c.moves) (hwords : n.words calls = c.words calls)
    (hunlocked : ∀ t, c.phase t = .unlocked → n.phase t = .unlocked)
    (hpolling : c.sys.stepper.head_moving = true → ∀ t, c.phase t = .polling →
      n.phase t = .polling) : n.Served calls h₀ := by
  cases h with
  | resting h =>
    apply Callers.Served.resting
    exact ⟨hsys ▸ h.idle,by rw [hmoves, hwords, h.moves],by rw [hsys, hwords, h.head]⟩
  | ordered t w ws h =>
    apply Callers.Served.ordered t w ws
    exact ⟨hwords.trans h.words,h.cmd,hsys ▸ h.raised,hmoves.trans h.moves,by rw [hsys, h.head],
      hunlocked t h.phase⟩
  | busy t w ws m j h =>
    apply Callers.Served.busy t w ws m j
    exact ⟨hwords.trans h.words,h.same,h.start,hsys ▸ h.moving,hsys ▸ h.stage,
      hmoves.trans h.moves,hpolling h.moving t h.phase⟩

theorem Callers.Served.free (h : c.Served calls h₀) (hfree : c.sys.Free) :
    (clock c.sys).stepper.state_stepper_register = .wait_cmd ∧
      (clock c.sys).stepper.track_pos.toNat ≤ 900 ∧
      (clock c.sys).head = h₀.after ((c.words calls).map moveFor) ∧
      record c.sys.stepper (clock c.sys).stepper c.moves = (c.words calls).map moveFor := by
  obtain ⟨hcmd, hfree⟩ := hfree
  cases h with
  | resting h =>
    have hrest := h.clocked
    exact ⟨hrest.idle.state,hrest.idle.pos_le,hrest.head,hrest.moves⟩
  | ordered t w ws h =>
    have hup : c.sys.ctrl_head_move_cmd = true := h.raised.cmd.trans h.cmd
    exact absurd hup (by simp [hcmd])
  | busy t w ws m j h =>
    suffices hdone : (clock c.sys).stepper.state_stepper_register = .wait_cmd ∧
        (clock c.sys).head = m.headAfter (stepsOf m.count) ∧
        record c.sys.stepper (clock c.sys).stepper c.moves =
          (m.inward,stepsOf m.count)::ws.map moveFor by
      obtain ⟨hstate, hhead, hrecord⟩ := hdone
      have hpos := congrArg Head.track_pos hhead
      refine ⟨hstate,le_of_eq_of_le hpos (m.headAfter_le _),?_,?_⟩
      · rw [hhead, h.words]
        exact head_after_move h.same h.start
      · rw [hrecord, h.words, h.same, List.map_cons]
    obtain hb | ha | ⟨hd, hj⟩ := h.stage
    · exact absurd hfree (by simp [hb.state])
    · obtain ⟨-, hT, hcnt⟩ := hfree.resolve_left (by simp [ha.state])
      have hedge := edge_move_ends c.sys.input c.sys.stepper ha.state hT
      have hstate : (clock c.sys).stepper.state_stepper_register = .wait_cmd := by
        have hcnt' : c.sys.stepper.track_pos_cnt = c.sys.input.track_pos_cmd := hcnt
        simp [clock, hedge, hcnt']
      have hlast := ha.last hstate
      obtain ⟨hn, -⟩ | hn | ⟨-, hn⟩ := ha.clock
      · exact absurd hstate (by simp [hn.state])
      · exact absurd hstate (by simp [hn.state])
      · refine ⟨hstate,hn.head,?_⟩
        simp only [record, ha.state, hstate, h.moves, hlast]
    · obtain ⟨hidle, hhead⟩ := hd.clock
      refine ⟨hidle.state,hhead,?_⟩
      simp only [record, hd.state, hidle.state, h.moves, hj]

theorem Callers.Served.step (h : c.Served calls h₀) (e : Event) (hcan : Callers.Enabled e c)
    (htimed : Timed calls e c) : (Callers.step calls e c).Served calls h₀ := by
  cases e with
  | clock => exact h.clocked
  | enter t =>
    have hout : ∀ u p, p ≠ Phase.outside → (c.clocked (clock c.sys)).phase u = p → u ≠ t := by
      rintro u p hp hu rfl
      have hthread : c.phase u = .outside := hcan
      simp only [Callers.clocked, hthread, Phase.next] at hu
      exact hp hu.symm
    cases hw : (calls t).word with
    | none =>
      have hlocked : c.locked calls t = clock c.sys := by simp [Callers.locked, hw]
      apply h.clocked.moveOn
      · exact hlocked
      · simp only [Callers.step, Callers.clocked, hlocked]
      · simp [Callers.step, Callers.words, Callers.clocked, hw]
      · intro u hu
        have hne := hout u .unlocked (by decide) hu
        simpa [Callers.step, hne, hlocked] using hu
      · intro _ u hu
        have hne := hout u .polling (by decide) hu
        simpa [Callers.step, hne, hlocked] using hu
    | some w =>
      have hlocked : c.locked calls t = clockWrite w c.sys := by simp [Callers.locked, hw]
      have hfree : c.sys.Free := htimed (by simp [hw])
      obtain ⟨hstate, hpos, hhead, hrecord⟩ := h.free hfree
      apply Callers.Served.ordered t w (c.words calls)
      exact
        { words := by simp [Callers.step, Callers.words, Callers.clocked, hw]
          cmd := word_cmd hw
          raised := by
            have hraised := raised_of_clock w hfree.1 hstate hpos
            simpa only [Callers.step, Callers.clocked, hlocked] using hraised
          moves := by
            simp only [Callers.step, Callers.clocked, hlocked]
            exact hrecord
          head := by
            simp only [Callers.step, Callers.clocked, hlocked]
            exact hhead
          phase := by simp [Callers.step] }
  | poll t =>
    have hthread : c.phase t = .polling := hcan
    cases hmoving : c.sys.stepper.head_moving with
    | true =>
      have hstep : Callers.step calls (.poll t) c = c := by simp [Callers.step, hmoving]
      rw [hstep]
      exact h
    | false =>
      have hstep : Callers.step calls (.poll t) c =
          { c with phase := Function.update c.phase t .returned } := by
        simp [Callers.step, hmoving]
      rw [hstep]
      refine h.moveOn rfl rfl rfl ?_ ?_
      · intro u hu
        have hne : u ≠ t := by
          rintro rfl
          exact absurd (hthread.symm.trans hu) (by decide)
        simpa [hne] using hu
      · intro hbusy
        exact absurd hbusy (by simp [hmoving])

theorem run_served (events : List Event) (hs : c.Served calls h₀)
    (hcan : Clocked.Allows (Callers.step calls) Callers.Enabled events c)
    (htimed : Clocked.Allows (Callers.step calls) (Timed calls) events c) :
    (c.run calls events).Served calls h₀ := by
  apply Clocked.Allows.invariant _ _ events c (hcan.and events c htimed) hs
  intro e n hn hserved
  exact hserved.step e hn.1 hn.2

/-- With both threads back from their calls nothing is left to do. -/
theorem Callers.Served.ended (h : c.Served calls h₀) (hback : ∀ t, c.phase t = .returned) :
    c.Resting calls h₀ := by
  cases h with
  | resting h => exact h
  | ordered t w ws h => exact absurd (h.phase.symm.trans (hback t)) (by decide)
  | busy t w ws m j h => exact absurd (h.phase.symm.trans (hback t)) (by decide)

/-! ## Commands that are not -/

def System.Pending (s : System) : Prop :=
  s.ctrl_head_move_cmd = true ∧ s.stepper.state_stepper_register = .wait_cmd ∧
    s.stepper.move_head_cmd_q = false

instance (s : System) : Decidable s.Pending := inferInstanceAs (Decidable (_ ∧ _))

def Callers.taken (c : Callers) : ℕ := c.moves.length + if c.sys.Pending then 1 else 0

theorem record_length_start (s n : Stepper) (moves : List (Bool × ℕ))
    (hs : s.state_stepper_register = .wait_cmd) (hn : n.state_stepper_register = .pre_move_head) :
    (record s n moves).length = moves.length + 1 := by
  simp [record, hs, hn]

theorem record_length_same (s n : Stepper) (moves : List (Bool × ℕ))
    (h : s.state_stepper_register = .wait_cmd → n.state_stepper_register = .wait_cmd) :
    (record s n moves).length = moves.length := by
  unfold record
  split
  · rename_i hs hn
    exact absurd (h hs) (by simp [hn])
  · rfl
  · rfl

theorem clock_record_length (s : System) (moves : List (Bool × ℕ)) :
    (record s.stepper (clock s).stepper moves).length =
      moves.length + if s.Pending then 1 else 0 := by
  by_cases hp : s.Pending
  · obtain ⟨hcmd, hstate, hseen⟩ := hp
    have hedge := edge_wait_start s.input s.stepper hstate hseen hcmd
    rw [if_pos ⟨hcmd,hstate,hseen⟩]
    exact record_length_start _ _ moves hstate (by simp [clock, hedge])
  · rw [if_neg hp]
    apply record_length_same
    intro hstate
    by_contra hleft
    apply hp
    cases hcmd : s.ctrl_head_move_cmd with
    | false =>
      have hedge := edge_wait_idle s.input s.stepper hstate hcmd
      exact absurd (by simp [clock, hedge, hstate]) hleft
    | true =>
      cases hseen : s.stepper.move_head_cmd_q with
      | false => exact ⟨hcmd,hstate,hseen⟩
      | true =>
        have hedge : (edge s.input s.stepper).state_stepper_register = .wait_cmd := by
          simp [edge, trackCounter, hstate, hseen]
        exact absurd hedge hleft

theorem clock_not_pending (s : System) : ¬ (clock s).Pending :=
  fun h => absurd h.1 (by simp [clock])

theorem taken_clocked (c : Callers) : (c.clocked (clock c.sys)).taken = c.taken := by
  have hlength := clock_record_length c.sys c.moves
  simp only [Callers.taken, Callers.clocked, hlength, clock_not_pending, if_false, Nat.add_zero]

theorem free_of_pending (w : BitVec 32) (s : System) (h : (clockWrite w s).Pending) : s.Free := by
  obtain ⟨-, hstate, hseen⟩ := h
  have hcmd : s.ctrl_head_move_cmd = false := (edge_seen s.input s.stepper).symm.trans hseen
  have hnext : (edge s.input s.stepper).state_stepper_register = .wait_cmd := hstate
  refine ⟨hcmd,?_⟩
  cases hs : s.stepper.state_stepper_register with
  | wait_cmd => exact Or.inl rfl
  | pre_move_head =>
    by_cases hT : s.stepper.stepper_tick_cnt = s.input.step_rate >>> 1
    · exact absurd hnext (by simp [edge_pre_steps s.input s.stepper hs hT])
    · exact absurd hnext (by simp [edge_pre_waits s.input s.stepper hs hT, hs])
  | move_head =>
    by_cases hT : s.stepper.stepper_tick_cnt = s.input.step_rate
    · by_cases hcnt : s.stepper.track_pos_cnt = s.input.track_pos_cmd
      · exact Or.inr ⟨rfl,hT,hcnt⟩
      · exact absurd hnext (by simp [edge_move_ends s.input s.stepper hs hT, hcnt])
    · exact absurd hnext (by simp [edge_move_waits s.input s.stepper hs hT, hs])

theorem taken_clockWrite (c : Callers) (w : BitVec 32) :
    (c.clocked (clockWrite w c.sys)).taken =
      c.taken + if (clockWrite w c.sys).Pending then 1 else 0 := by
  have hlength : (record c.sys.stepper (clockWrite w c.sys).stepper c.moves).length = c.taken :=
    clock_record_length c.sys c.moves
  rw [← hlength]
  rfl

/-- Never more commands are taken than given; `spare` of them are lost. -/
theorem taken_step (spare : ℕ) (e : Event) (h : c.taken + spare ≤ (c.words calls).length) :
    (Callers.step calls e c).taken + spare ≤ ((Callers.step calls e c).words calls).length := by
  cases e with
  | clock =>
    have hsame := taken_clocked c
    simpa only [Callers.step, hsame, words_clocked] using h
  | enter t =>
    cases hw : (calls t).word with
    | none =>
      have hlocked : c.locked calls t = clock c.sys := by simp [Callers.locked, hw]
      have hwords : (Callers.step calls (.enter t) c).words calls = c.words calls := by
        simp [Callers.step, Callers.words, Callers.clocked, hw]
      have htaken : (Callers.step calls (.enter t) c).taken = c.taken := by
        simp only [Callers.step, hlocked]
        exact taken_clocked c
      rw [hwords, htaken]
      exact h
    | some w =>
      have hlocked : c.locked calls t = clockWrite w c.sys := by simp [Callers.locked, hw]
      have hwords : (Callers.step calls (.enter t) c).words calls = w::c.words calls := by
        simp [Callers.step, Callers.words, Callers.clocked, hw]
      have htaken : (Callers.step calls (.enter t) c).taken =
          c.taken + if (clockWrite w c.sys).Pending then 1 else 0 := by
        simp only [Callers.step, hlocked]
        exact taken_clockWrite c w
      rw [hwords, htaken, List.length_cons]
      split <;> omega
  | poll t =>
    simp only [Callers.step]
    split <;> exact h

theorem taken_untimed (e : Event) (h : c.taken ≤ (c.words calls).length)
    (hnot : ¬ Timed calls e c) :
    (Callers.step calls e c).taken + 1 ≤ ((Callers.step calls e c).words calls).length := by
  cases e with
  | clock => exact absurd trivial hnot
  | poll t => exact absurd trivial hnot
  | enter t =>
    obtain ⟨hsome, hbusy⟩ : (calls t).word.isSome ∧ ¬ c.sys.Free := by
      simpa [Timed] using hnot
    obtain ⟨w, hw⟩ := Option.isSome_iff_exists.mp hsome
    have hlocked : c.locked calls t = clockWrite w c.sys := by simp [Callers.locked, hw]
    have hwords : (Callers.step calls (.enter t) c).words calls = w::c.words calls := by
      simp [Callers.step, Callers.words, Callers.clocked, hw]
    have hlost : ¬ (clockWrite w c.sys).Pending := fun hp => hbusy (free_of_pending w c.sys hp)
    have htaken : (Callers.step calls (.enter t) c).taken = c.taken := by
      have hwrite := taken_clockWrite c w
      rw [if_neg hlost, Nat.add_zero] at hwrite
      simp only [Callers.step, hlocked]
      exact hwrite
    rw [hwords, htaken, List.length_cons]
    omega

/-! ## The two calls -/

structure Callers.Once (c : Callers) : Prop where
  nodup : c.order.Nodup
  mem_iff : ∀ t, t ∈ c.order ↔ c.phase t ≠ .outside

theorem Phase.next_outside_iff (p : Phase) : p.next ≠ .outside ↔ p ≠ .outside := by
  cases p <;> decide

theorem Callers.Once.step (h : c.Once) (e : Event) (hcan : Callers.Enabled e c) :
    (Callers.step calls e c).Once := by
  cases e with
  | clock => exact ⟨h.nodup,fun t => (h.mem_iff t).trans (Phase.next_outside_iff _).symm⟩
  | enter t =>
    have hthread : c.phase t = .outside := hcan
    have hnew : t ∉ c.order := fun ht => (h.mem_iff t).mp ht hthread
    constructor
    · exact List.nodup_cons.mpr ⟨hnew,h.nodup⟩
    · intro u
      by_cases hu : u = t
      · simp [Callers.step, hu]
      · simp [Callers.step, Callers.clocked, hu, h.mem_iff, Phase.next_outside_iff]
  | poll t =>
    have hthread : c.phase t = .polling := hcan
    simp only [Callers.step]
    split
    · exact h
    · refine ⟨h.nodup,fun u => ?_⟩
      by_cases hu : u = t
      · simp [hu, h.mem_iff, hthread]
      · simp [hu, h.mem_iff]

theorem Callers.Once.both (h : c.Once) (hback : ∀ t, c.phase t = .returned) :
    c.order.Perm [.script,.dump] := by
  apply (List.perm_ext_iff_of_nodup h.nodup (by decide)).mpr
  intro t
  have hmem : t ∈ c.order := (h.mem_iff t).mpr (by simp [hback t])
  cases t <;> simp [hmem]

variable (calls) in
theorem start_taken (s : System) :
    (Callers.start s).taken ≤ ((Callers.start s).words calls).length ↔ ¬ s.Pending := by
  by_cases hp : s.Pending <;> simp [Callers.start, Callers.taken, Callers.words, hp]

theorem Idle.not_pending {s : System} (h : Idle s) : ¬ s.Pending :=
  fun hp => absurd hp.1 (by simp [h.cmd])

variable (calls) in
theorem run_loses (events : List Event) {s : System} (hs : Idle s)
    (hcan : Clocked.Allows (Callers.step calls) Callers.Enabled events (Callers.start s))
    (hnot : ¬ Clocked.Allows (Callers.step calls) (Timed calls) events (Callers.start s)) :
    ((Callers.start s).run calls events).taken + 1 ≤
      (((Callers.start s).run calls events).words calls).length := by
  apply Clocked.Allows.breaks (fun c : Callers => c.taken + 0 ≤ (c.words calls).length)
    (fun c => c.taken + 1 ≤ (c.words calls).length) _ _ _ events (Callers.start s) hcan
  · exact (start_taken calls s).mpr hs.not_pending
  · exact hnot
  · intro e c _ h
    exact taken_step 0 e h
  · intro e c _ h
    exact taken_untimed e h
  · intro e c _ h
    exact taken_step 1 e h

/-- In every run of the two calls from rest to their return both threads have
been in once, and the machine makes the steps of the first command and then those
of the second if and only if each has a step to make and finds the machine free. -/
theorem move_head_inTurn_iff (calls : Thread → Call) (s : System) (hs : Idle s)
    (events : List Event)
    (hcan : Clocked.Allows (Callers.step calls) Callers.Enabled events (Callers.start s))
    (hback : ∀ t, ((Callers.start s).run calls events).phase t = .returned) :
    ((Callers.start s).run calls events).order.Perm [.script,.dump] ∧
      (InTurn calls s.head ((Callers.start s).run calls events) ↔ Spaced calls events s) := by
  have honce : ((Callers.start s).run calls events).Once := by
    apply Clocked.Allows.invariant Callers.Once _ events (Callers.start s) hcan
    · exact ⟨List.nodup_nil,by simp [Callers.start]⟩
    · intro e c he hc
      exact hc.step e he
  have hmem : ∀ t, t ∈ ((Callers.start s).run calls events).order := by
    intro t
    apply (honce.mem_iff t).mpr
    simp [hback t]
  refine ⟨honce.both hback,?_⟩
  have hrests : Clocked.Allows (Callers.step calls) (Timed calls) events (Callers.start s) →
      ((Callers.start s).run calls events).Resting calls s.head := by
    intro htimed
    have hstart : (Callers.start s).Served calls s.head := .resting ⟨hs,rfl,rfl⟩
    exact (run_served events hstart hcan htimed).ended hback
  have hloses := run_loses calls events hs hcan
  generalize (Callers.start s).run calls events = r at honce hmem hrests hloses
  have hasked : r.order.filterMap (fun t => (calls t).move) = (r.words calls).map moveFor ↔
      ∀ t, (calls t).word.isSome → countOf (calls t).trk ≠ 0 := by
    apply (moves_eq_iff calls r.order).trans
    exact ⟨fun h t => h t (hmem t),fun h t _ => h t⟩
  constructor
  · intro hturn
    have htimed : Clocked.Allows (Callers.step calls) (Timed calls) events (Callers.start s) := by
      by_contra hnot
      have hlost := hloses hnot
      have hlength := congrArg List.length hturn.1
      rw [moves_length] at hlength
      unfold Callers.taken Callers.words at hlost
      omega
    refine ⟨hasked.mp ?_,htimed⟩
    rw [← hturn.1]
    exact (hrests htimed).moves
  · intro hspaced
    have hrest := hrests hspaced.2
    have hmoves : r.moves = r.order.filterMap (fun t => (calls t).move) :=
      hrest.moves.trans (hasked.mpr hspaced.1).symm
    exact ⟨hmoves,hrest.head.trans (by rw [hrest.moves])⟩

def quick : System := { restingAt 40 with ctrl_steprate_reg := 0 }

theorem quick_idle : Idle quick := by
  have h := restingAt_idle 40 (by decide)
  exact ⟨h.cmd,h.state,h.rst,h.moving,h.pos_le⟩

def outAndBack : Thread → Call
  | .script => ⟨.generic,false,3⟩
  | .dump => ⟨.generic,true,2⟩

/-- The dump thread gives its command when so many clocks have passed since that
of the script. -/
def dumpBehind (clocks : ℕ) : List Event :=
  [.enter .script] ++ List.replicate clocks .clock ++ [.enter .dump] ++
    List.replicate 8 .clock ++ [.poll .script,.poll .dump]

theorem move_head_inTurn_iff_behind :
    ((Callers.start quick).run outAndBack (dumpBehind 7)).order.Perm [.script,.dump] ∧
      (InTurn outAndBack quick.head ((Callers.start quick).run outAndBack (dumpBehind 7)) ↔
        Spaced outAndBack (dumpBehind 7) quick) :=
  move_head_inTurn_iff outAndBack quick quick_idle (dumpBehind 7) (by decide +kernel)
    (fun t => by cases t <;> decide +kernel)

/-- After one step of the script's command the one of the dump ends it at the
second: neither is carried out, and none of the steps is inwards. -/
theorem commands_merged :
    ∃ (calls : Thread → Call) (s : System) (events : List Event), Idle s ∧
      Clocked.Allows (Callers.step calls) Callers.Enabled events (Callers.start s) ∧
      (∀ t, ((Callers.start s).run calls events).phase t = .returned) ∧
      ((Callers.start s).run calls events).order = [.dump,.script] ∧
      [.dump,.script].filterMap (fun t => (calls t).move) = [(true,2),(false,3)] ∧
      ((Callers.start s).run calls events).sys.pulses = [false,false] ∧
      ¬ InTurn calls s.head ((Callers.start s).run calls events) := by
  have horder : ((Callers.start quick).run outAndBack (dumpBehind 2)).order = [.dump,.script] := by
    decide +kernel
  have hmoves : ((Callers.start quick).run outAndBack (dumpBehind 2)).moves = [(false,2)] := by
    decide +kernel
  refine ⟨outAndBack,quick,dumpBehind 2,quick_idle,by decide +kernel,
    fun t => by cases t <;> decide +kernel,horder,by decide +kernel,by decide +kernel,?_⟩
  intro hturn
  have hasked := hturn.1
  rw [horder, hmoves] at hasked
  exact absurd hasked (by decide +kernel)

end Pauline.HeadStepper
