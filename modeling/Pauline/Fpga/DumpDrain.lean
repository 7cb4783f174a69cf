import Pauline.Fpga.DumpPace

/-!
# When a word of a dump is in memory

A word is captured at the tick that ends the third word after it. With channel
4 alone on the bus it is in memory a fixed time after that tick, and a chunk
handed over later than this is complete.
-/

set_option autoImplicit false

namespace Pauline.DumpPath
open Pauline.DmaMaster Pauline.FloppyDumper

variable {pop push : DumpFifo} {buffer_size base : LWord}

namespace Timed

def unseen (n : ℕ) (s : Timed pop push) : ℕ :=
  match s.master.state_master_register with
  | .wait_write_ws | .wait_write => 0
  | .wait_write2 => if s.written.length+2 ≤ n ∧ push.empty s.pushFifo = true then 1 else 0
  | _ => if !s.master.filos_out_allempty then 0 else if !push.empty s.pushFifo then 1 else 2

/-- Of the first `n` words, captured by clock `since`, those that are not written
are in the push fifo or behind it, and grow fewer with the time. -/
structure Draining (n since : ℕ) (s : Timed pop push) : Prop where
  entered : n+s.arrivingBack.length ≤ s.captured.length
  left : 16*(11910-s.supply+13*((n : ℤ)-s.written.length)+s.unseen n)-
    13*s.dumper.fiforeadcnt.toNat+13*((s.now : ℤ)-since) ≤ 190634

section Step
variable {i : PollInput} {s : Timed pop push} {n since : ℕ}

theorem unseen_le (s : Timed pop push) : s.unseen n ≤ 2 := by
  unfold unseen
  cases s.master.state_master_register
  case wait_write_ws => exact Nat.zero_le 2
  case wait_write => exact Nat.zero_le 2
  all_goals
    simp only
    split_ifs <;> decide

/-- The words that are not written, but for the one on its way to the bus, are in the push fifo. -/
theorem held_of_entered (h : Paced buffer_size base s) (he : n+s.arrivingBack.length ≤ s.captured.length) :
    n ≤ s.written.length+s.inDma.length+push.level s.pushFifo := by
  have hcaptured := captured_eq h
  rw [Dump.underway, List.length_append, List.length_append, List.length_map] at hcaptured
  unfold SyncFifo.level
  omega

theorem shown_next (hpush : push.Settles) (hr : i.dump.bus.reset_drives 4 = false)
    (hrq : s.master.push_fifo_out_rq 4 = false) (hheld : 0 < push.level s.pushFifo) :
    push.empty (s.step i).pushFifo = false := by
  have hne := List.ne_nil_of_length_pos hheld
  have hkept : push.contents (s.step i).pushFifo ≠ [] := push_kept (s := s.toDump) hr hrq hne
  have hstep : (s.step i).pushFifo = push.step false s.dumper.read_fifo_wr
      s.dumper.read_fifo_data (s.master.push_fifo_out_rq 4) s.pushFifo := by
    rw [← hr]
    rfl
  rw [hstep] at hkept ⊢
  exact hpush _ _ _ _ hne hkept

theorem not_asked (h : Paced buffer_size base s)
    (hm : s.master.state_master_register ≠ .wait_write_ws) :
    s.master.push_fifo_out_rq 4 = false := by
  rw [Bool.eq_false_iff]
  exact fun hrq => hm (h.requests.mp hrq).2

theorem inDma_le (s : Dump pop push) : s.inDma.length ≤ 1 := by
  unfold Dump.inDma
  split_ifs
  · cases s.master.state_master_register <;> simp
  · exact Nat.zero_le 1

theorem unseen_step (hpush : push.Settles) (ha : Alone buffer_size base i s)
    (h : Paced buffer_size base s) (he : n+s.arrivingBack.length ≤ s.captured.length)
    (hleft : (s.step i).written.length < n) :
    (s.step i).unseen n+(if s.master.state_master_register = .idle ∧
      s.master.fifos_in_allfull = true ∧ s.master.filos_out_allempty = true then 1 else 0) ≤
        s.unseen n := by
  have hheld := held_of_entered h he
  have hwritten := written_length_step (s := s) (i := i)
  rw [writes_calm h.toCalm h.toCarried] at hwritten
  have hshown := shown_next (s := s) hpush ha.released
  have hstate := state_step ha h.toCalm
  have hempty := allempty_step ha
  have hseen := h.seen
  unfold unseen
  rw [hstate, hempty]
  cases hm : s.master.state_master_register with
  | wait_write_ws => simp [nextState, hm]
  | wait_write =>
    -- one word is on its way, and the next one waits
    have hdma := inDma_le s.toDump
    have hrq := not_asked h (by simp [hm])
    simp only [nextState, hm, reduceCtorEq, false_and, if_false, Nat.add_zero, Nat.le_zero]
    rw [if_neg]
    rintro ⟨htwo, hemp⟩
    rw [hshown hrq (by omega)] at hemp
    cases hemp
  | wait_write2 =>
    have hdma := inDma_le s.toDump
    have hrq := not_asked h (by simp [hm])
    cases hwait : i.dump.bus.avm_m1_waitrequest with
    | true =>
      simp only [nextState, hm, if_true, reduceCtorEq, false_and, if_false, Nat.add_zero]
      rw [if_neg]
      · exact Nat.zero_le _
      · rintro ⟨htwo, hemp⟩
        rw [hshown hrq (by omega)] at hemp
        cases hemp
    | false =>
      simp only [hm, hwait, decide_true, Bool.not_false, Bool.and_true, if_true] at hwritten
      rw [hshown hrq (by omega)]
      simp only [nextState, hm, Bool.false_eq_true, reduceCtorEq, false_and, if_false, Nat.add_zero]
      have htwo : s.written.length+2 ≤ n := by omega
      cases push.empty s.pushFifo <;> simp [htwo]
  | _ =>
    have hdma : s.inDma = [] := by simp [Dump.inDma, hm]
    have hrq := not_asked h (by simp [hm])
    rw [hdma, List.length_nil] at hheld
    have hpos : 0 < push.level s.pushFifo := by omega
    rw [hshown hrq hpos]
    have hnext := fun hc => hseen hc (List.ne_nil_of_length_pos hpos)
    cases hf : s.master.fifos_in_allfull <;> cases hae : s.master.filos_out_allempty <;>
      cases hemp : push.empty s.pushFifo <;> simp_all [nextState]

theorem captured_arriving : (s.step i).captured.length =
    s.captured.length+(s.step i).arrivingBack.length := by
  have hpairs := congrArg List.length (capturedPairs_step (i := i.dump) (s := s.toDump))
  simp only [Dump.capturedPairs, List.length_append, List.length_map] at hpairs
  exact hpairs

theorem draining_step (hpush : push.Settles) (ha : Alone buffer_size base i s)
    (h : Paced buffer_size base s) (hd : Draining n since s)
    (hleft : (s.step i).written.length < n) : Draining n since (s.step i) := by
  have hcaptured := captured_arriving (i := i) (s := s)
  constructor
  case entered =>
    have := hd.entered
    omega
  case left =>
    have hunseen := unseen_step hpush ha h hd.entered hleft
    have hwritten := written_length_step (s := s) (i := i)
    have hsupply := supply_step ha h
    -- sixteen ticks use up thirteen clocks more than they take
    have hdemand : 48*(if (s.step i).dumper.write_fifo_rq then 1 else 0)+
        3*(s.step i).dumper.fiforeadcnt.toNat ≤ 3*s.dumper.fiforeadcnt.toNat+3 := by
      rcases demand_step ha.released h with ⟨-, hrq, hle⟩ | ⟨-, -, hrq, h15, h0⟩
      · rw [hrq, if_neg Bool.false_ne_true]
        omega
      · rw [hrq, h15, h0]
        decide
    have hnow : (s.step i).now = s.now+1 := rfl
    have hold := hd.left
    rcases turn_step ha h.toCalm h.toCarried with ⟨hturn, hw⟩ | ⟨hm, hf, hae, hr, hwr, ht, hw⟩ |
      ⟨hm, hr, hwr, ht, hw⟩
    · rw [hw, if_neg Bool.false_ne_true] at hwritten
      split_ifs at hsupply hturn hunseen hdemand <;> omega
    · have hread : s.reading = 0 ∧ s.writing = 0 := by simp [reading, writing, hm]
      rw [hw, if_neg Bool.false_ne_true] at hwritten
      rw [ht, if_neg Bool.false_ne_true] at hsupply
      rw [if_pos ⟨hm, hf, hae⟩] at hunseen
      split_ifs at hsupply hdemand <;> omega
    · have hread : s.reading = 0 := by simp [reading, hm]
      have hwriting := writing_le h
      rw [hw, if_pos rfl] at hwritten
      rw [ht, if_neg Bool.false_ne_true] at hsupply
      split_ifs at hsupply hunseen hdemand <;> omega

end Step

structure Drained (n since : ℕ) (s : Timed pop push) : Prop where
  later : since < s.now
  left : s.written.length < n →
    s.now = since+1 ∧ n ≤ s.captured.length ∨ Draining n since s

section Run
variable {i : PollInput} {s : Timed pop push} {n since : ℕ}

theorem captured_of_ticks (h : Paced buffer_size base s) (hn : n ≤ dataWords buffer_size)
    (hticks : 16*(n+3) ≤ s.samples.length) : n ≤ s.captured.length := by
  have hpaired := h.le_paired
  rw [captured_length h.toPiped]
  omega

theorem draining_start (h : Paced buffer_size base (s.step i)) (hnow : s.now = since+1)
    (hn : n ≤ s.captured.length) : Draining n since (s.step i) := by
  have hcaptured := captured_arriving (i := i) (s := s)
  have hnext : (s.step i).now = s.now+1 := rfl
  have hcovered := h.covered
  have hunseen := unseen_le (n := n) (s.step i)
  rw [hnext, if_neg (Nat.succ_ne_zero _)] at hcovered
  constructor <;> omega

theorem drained_step (hpush : push.Settles) (ha : Alone buffer_size base i s)
    (h : Paced buffer_size base s) (h' : Paced buffer_size base (s.step i))
    (hd : Drained n since s) : Drained n since (s.step i) where
  later := Nat.lt_succ_of_lt hd.later
  left := by
    intro hleft
    right
    have hwritten := written_length_step (s := s) (i := i)
    rcases hd.left (by omega) with ⟨hnow, hn⟩ | hdraining
    · exact draining_start h' hnow hn
    · exact draining_step hpush ha h hdraining hleft

def AllDrained (buffer_size : LWord) (s : Timed pop push) : Prop :=
  ∀ n since, n ≤ dataWords buffer_size → s.ticked[16*n+47]? = some since → Drained n since s

theorem allDrained_step (hpush : push.Settles) (ha : Alone buffer_size base i s)
    (h : Paced buffer_size base s) (h' : Paced buffer_size base (s.step i))
    (hd : AllDrained buffer_size s) : AllDrained buffer_size (s.step i) := by
  intro n since hn hsince
  have hticked : (s.step i).ticked =
    s.ticked ++ if tickInput i.dump.capture s.now then [s.now] else [] := rfl
  by_cases hlt : 16*n+47 < s.ticked.length
  · rw [hticked, List.getElem?_append_left hlt] at hsince
    exact drained_step hpush ha h h' (hd n since hn hsince)
  · obtain ⟨hindex, hvalue⟩ := List.getElem?_eq_some_iff.mp hsince
    have hnow : since = s.now := by
      rw [hticked, List.getElem?_append_right (by omega)] at hsince
      split_ifs at hsince with ht
      · have hmem := List.mem_of_getElem? hsince
        exact List.mem_singleton.mp hmem
      · cases hsince
    have hcount := h'.ticked
    constructor
    case later => exact hnow ▸ Nat.lt_succ_self _
    case left => exact fun _ => Or.inl ⟨hnow ▸ rfl, captured_of_ticks h' hn (by omega)⟩

/-- The words captured at a clock are written 14700 clocks later. -/
theorem written_of_drained (h : Paced buffer_size base s) (hd : Drained n since s)
    (hlate : since+14700 ≤ s.now) : n ≤ s.written.length := by
  by_contra hc
  rcases hd.left (by omega) with ⟨hnow, -⟩ | hdraining
  · omega
  · have hleft := hdraining.left
    have hsupply := supply_le h
    have hcount : s.dumper.fiforeadcnt.toNat < 16 := by
      rw [h.count]
      exact Nat.mod_lt _ (by decide)
    omega

structure Started (buffer_size base : LWord) (s : Timed pop push) : Prop where
  released : Released buffer_size base s.toDump
  calm : Calm s.master
  not_done : s.master.done_q 4 = false
  first : s.last_dump_offset = 0
  now : s.now = 0
  ticked : s.ticked = []

theorem started_counted (h : Started buffer_size base s) : Counted buffer_size base s := by
  obtain ⟨i, d, hd⟩ := h.released.dumper
  obtain ⟨-, hpopped, hsamples, -⟩ := h.released.log
  have hrequested : s.requested = 0 := by simp [Dump.requested, hpopped, hd, onReset]
  have hlatched : s.latched = 0 := by simp [Dump.latched, hrequested]
  have hpaired : s.paired = 0 := by simp [Dump.paired, hlatched]
  constructor
  case toPolled =>
    constructor
    case toOnDump => exact released_onDump h.released
    case done => simp [h.not_done]
    case whole => simp [h.first]
    case behind => simp [h.first]
  case clock => simp [hd, onReset, h.now]
  case ticked => simp [h.ticked, hsamples]
  case requested_le => omega
  case latched_le => omega
  case paired_le => omega

theorem started_paced (h : Started buffer_size base s) : Paced buffer_size base s := by
  obtain ⟨i, d, hd⟩ := h.released.dumper
  obtain ⟨-, -, hsamples, hcaptured, hlost, hwritten⟩ := h.released.log
  have hdrive := h.calm.drive
  have hidle : s.master.state_master_register ≠ .wait_write_ws ∧
      s.master.state_master_register ≠ .wait_write ∧
      s.master.state_master_register ≠ .wait_write2 := by
    have hnot := h.released.not_writing
    refine ⟨?_, ?_, ?_⟩ <;> intro hm <;> exact hnot ⟨hdrive (by simp [hm]), by simp [hm]⟩
  have hwriting : s.writing = 0 := by
    unfold writing
    cases hm : s.master.state_master_register <;> simp_all
  have hpop : pop.level s.popFifo = 0 := by simp [SyncFifo.level, h.released.pop_empty]
  have hpush : push.level s.pushFifo = 0 := by simp [SyncFifo.level, h.released.push_empty]
  have hfresh : s.master.filos_out_allempty = true := by
    rw [← Bool.not_eq_false]
    exact fun he => h.released.no_write_due he (h.calm.next_write he)
  constructor
  case toCounted => exact started_counted h
  case toCalm => exact h.calm
  case waited => exact fun hm => absurd hm hidle.2.2
  case pop_shown => omega
  case push_shown => omega
  case held => omega
  case seen => exact fun he => by rw [hfresh] at he; cases he
  case fresh => exact fun _ => hfresh
  case full =>
    rintro (⟨hpos, -⟩ | hpos)
    · rw [h.now] at hpos
      exact absurd hpos (lt_irrefl 0)
    · rw [hwriting] at hpos
      exact absurd hpos (lt_irrefl 0)
  case covered =>
    simp only [hcaptured, hwritten, h.now, supply, hd, onReset]
    simp
    omega
  case le_requested => simp [hsamples]
  case le_latched => simp [hsamples]
  case le_paired => simp [hsamples]
  case lost => exact hlost
  case finished => simp [h.released.log.1]

variable {t : Timed pop push} (hsize : buffer_size.toNat = 4*(dataWords buffer_size+1))
  (h : Started buffer_size base s)
include hsize h

theorem run_counted
    (hrun : Clocked.Reach step (fun i _ => Programmed buffer_size base i.dump) s t) :
    Counted buffer_size base t :=
  hrun.invariant (Counted buffer_size base) (started_counted h) fun _ _ hp => counted_step hsize hp

theorem run_drained (hpop : pop.Settles) (hpush : push.Settles)
    (hrun : Clocked.Reach step (Alone buffer_size base) s t) :
    Paced buffer_size base t ∧ AllDrained buffer_size t := by
  refine hrun.invariant (fun t => Paced buffer_size base t ∧ AllDrained buffer_size t) ?_ ?_
  · refine ⟨started_paced h, ?_⟩
    intro n since _ hsince
    rw [h.ticked] at hsince
    cases hsince
  · rintro i s ha ⟨hp, hd⟩
    have hp' := paced_step hsize hpop hpush ha hp
    exact ⟨hp', allDrained_step hpush ha hp hp' hd⟩

end Run

end Timed

section Steady

abbrev listFifo : DumpFifo := SyncFifo.ofList FifoWord 4096 3968

/-- Only the dump channel is enabled, for a buffer of 6256 bytes, and the slave
takes every write at once. The index pulse is there from the start, or it does not come. -/
def steadyDump (trigger reset : Bool) : DumpInput where
  bus :=
    { avm_m1_readdata := 0
      avm_m1_waitrequest := false
      avm_m1_readdatavalid := false
      images_base_address := fun _ => 0x30000000
      images_track_size := fun _ => 6256
      drv_cur_track_base_address := fun _ => 0
      enable_drives := fun d => d == 4
      continuous_mode := fun _ => false
      pop_fifo_almostfull := fun _ => false
      push_fifo_empty := fun _ => true
      push_fifo_out_data := fun _ => 0
      push_fifo_out_address := fun _ => 0
      reset_drives := fun _ => reset }
  capture :=
    { reset_state := reset
      stop := false
      fast_capture_sig := false
      slow_capture_bus := 0
      sample_rate_divisor := false
      enable_dump := true
      start_write := false
      index_trigger_signal := trigger
      ignore_index_trigger := false
      pop_fifo_empty := true
      write_fifo_data := default }

def poweredUp : DumpCore listFifo listFifo where
  master := Master.reset
  dumper := default
  popFifo := ([], default)
  pushFifo := ([], default)

def released : Timed listFifo listFifo :=
  (DumpSession.mk (poweredUp.step (steadyDump false true)).start 0).start

def pollSteady (trigger : Bool) : PollInput := ⟨steadyDump trigger false, false, false⟩

theorem released_started : Timed.Started 6256 0x30000000 released where
  released := reset_released rfl rfl rfl reset_quiet
  calm := ⟨fun h => absurd rfl h, fun _ => rfl, fun h => absurd h (by decide)⟩
  not_done := rfl
  first := rfl
  now := rfl
  ticked := rfl

theorem steady_alone (trigger : Bool) (s : Timed listFifo listFifo) :
    Timed.Alone 6256 0x30000000 (pollSteady trigger) s where
  size := rfl
  base := rfl
  not_continuous := rfl
  released := rfl
  enabled := rfl
  others := by
    intro d hd he
    exact absurd (beq_iff_eq.mp he) hd
  waits := fun _ hwait => absurd hwait Bool.false_ne_true

theorem steady_run (trigger : Bool) (n : ℕ) : ∃ t,
    Clocked.Reach Timed.step (Timed.Alone 6256 0x30000000) released t ∧ t.now = n ∧
      t.last_dump_offset = 0 ∧ t.ticked = if trigger then List.range n else [] := by
  induction n with
  | zero => exact ⟨released, Clocked.Reach.refl _, rfl, rfl, by cases trigger <;> rfl⟩
  | succ n ih =>
    obtain ⟨t, hrun, hnow, hlast, hticked⟩ := ih
    refine ⟨t.step (pollSteady trigger), hrun.tick _ (steady_alone trigger t), ?_, ?_, ?_⟩
    · exact congrArg Nat.succ hnow
    · exact hlast
    · change t.ticked ++ _ = _
      rw [hticked, hnow]
      cases trigger with
      | true => simp [tickInput, pollSteady, steadyDump, List.range_succ]
      | false => simp [tickInput, pollSteady, steadyDump]

theorem steady_hands {t : Timed listFifo listFifo} (h : Timed.Paced 6256 0x30000000 t)
    (hlast : t.last_dump_offset = 0) (hgiven : 1563 < t.given) :
    t.hands 6256 = true ∧ t.chunkEnd 6256 = 6252 := by
  have hwords : dataWords 6256 = 1563 := by decide
  have hdone := h.finished (by omega)
  have hchunk : Capture.chunkSize (BitVec.toNat (6256 : LWord)) 0 = 6252 := by decide
  rw [DumpSession.hands, DumpSession.waitEnds, DumpSession.chunkEnd, hdone, hlast, hchunk]
  exact ⟨by simp, rfl⟩

theorem untriggered_supply (n : ℕ) (hn : n ≤ 11000) : ∃ t,
    Clocked.Reach Timed.step (Timed.Alone 6256 0x30000000) released t ∧ t.now = n ∧
      t.last_dump_offset = 0 ∧ t.ticked = [] ∧ (n : ℤ) ≤ t.supply ∧
      (n = 0 → t.master.fifos_in_allfull = false) := by
  induction n with
  | zero =>
    exact ⟨released, Clocked.Reach.refl _, rfl, rfl, rfl, by decide, fun _ => rfl⟩
  | succ n ih =>
    obtain ⟨t, hrun, hnow, hlast, hticked, hsupply, hfirst⟩ := ih (by omega)
    have ha := steady_alone false t
    have hnext := hrun.tick _ ha
    have hsize : (6256 : LWord).toNat = 4*(dataWords 6256+1) := by decide
    have hp := (Timed.run_drained hsize released_started SyncFifo.ofList_settles
      SyncFifo.ofList_settles hrun).1
    have hp' := (Timed.run_drained hsize released_started SyncFifo.ofList_settles
      SyncFifo.ofList_settles hnext).1
    have hticked' : (t.step (pollSteady false)).ticked = [] := by
      change t.ticked ++ _ = _
      simp [hticked, tickInput, pollSteady, steadyDump]
    refine ⟨t.step (pollSteady false), hnext, congrArg Nat.succ hnow, hlast, hticked', ?_,
      fun hz => absurd hz (Nat.succ_ne_zero n)⟩
    have hcount := hp.count
    have hcount' := hp'.count
    rw [← hp.ticked, hticked, List.length_nil] at hcount
    rw [← hp'.ticked, hticked', List.length_nil] at hcount'
    have hgain := Timed.supply_step ha hp
    have hrq : (t.step (pollSteady false)).dumper.write_fifo_rq = false := by
      rcases Timed.demand_step ha.released hp with ⟨-, hrq, -⟩ | ⟨-, -, -, h15, -⟩
      · exact hrq
      · omega
    rw [hrq, if_neg Bool.false_ne_true] at hgain
    rcases Timed.turn_step ha hp.toCalm hp.toCarried with ⟨hturn, -⟩ | ⟨hm, hf, -, hr, hwr, ht, -⟩ |
      ⟨hm, hr, hwr, ht, -⟩
    · split_ifs at hgain hturn <;> omega
    · have hread : t.reading = 0 ∧ t.writing = 0 := by simp [Timed.reading, Timed.writing, hm]
      have hpos : 0 < n := by
        refine Nat.pos_of_ne_zero fun hz => ?_
        rw [hfirst hz] at hf
        cases hf
      have hfull := hp.full (Or.inl ⟨by omega, hf⟩)
      rw [ht, if_neg Bool.false_ne_true] at hgain
      omega
    · have hfull := hp.full (Or.inr (by simp [Timed.writing, hm]))
      have hread : t.reading = 0 := by simp [Timed.reading, hm]
      have hwriting := Timed.writing_le hp
      rw [ht, if_neg Bool.false_ne_true] at hgain
      omega

end Steady

/-- The words handed over go to consecutive addresses from the start of the
buffer on, the last word of the buffer left out; memory gets them in that
order, and each holds samples later than those of the word before. -/
theorem dump_written_in_order (hmod : buffer_size.toNat % 4 = 0) (hmin : 8 ≤ buffer_size.toNat)
    {s t : Dump pop push} (h : Released buffer_size base s)
    (hrun : Clocked.Reach Dump.step (fun i _ => Programmed buffer_size base i) s t)
    (hlost : t.lost = []) :
    ∃ n, 4*n+4 ≤ buffer_size.toNat ∧
      t.captured.map (·.word.address) =
        (List.range n).map (fun k => base + BitVec.ofNat 32 (4*k)) ∧
      t.written <+: t.captured.map (fun c => (c.word.address, c.word.data)) ∧
      (∀ c ∈ t.captured, Holds t.samples c) ∧
      t.captured.Pairwise fun a b => a.tick+16 ≤ b.tick := by
  have hsize := size_eq hmod hmin
  have hon := run_onDump hsize h hrun
  refine ⟨min (t.paired-1) (dataWords buffer_size), by omega, ?_,
    (hlost ▸ hon.delivery).delivered_isPrefix, hon.words, hon.later⟩
  rw [hon.addresses]
  refine List.map_congr_left ?_
  intro k hk
  have := List.mem_range.mp hk
  rw [item, Nat.min_eq_left (by omega)]

/-- All data words of a buffer of 6256 bytes are captured and written. -/
theorem dump_written_in_order_all : ∃ t : Dump listFifo listFifo, t.written.length = 1563 ∧
    ∃ n, 4*n+4 ≤ (6256 : LWord).toNat ∧
      t.captured.map (·.word.address) =
        (List.range n).map (fun k => 0x30000000 + BitVec.ofNat 32 (4*k)) ∧
      t.written <+: t.captured.map (fun c => (c.word.address, c.word.data)) ∧
      (∀ c ∈ t.captured, Holds t.samples c) ∧
      t.captured.Pairwise fun a b => a.tick+16 ≤ b.tick := by
  obtain ⟨t, hrun, hnow, -, hticked⟩ := steady_run true 39756
  have hsize : (6256 : LWord).toNat = 4*(dataWords 6256+1) := by decide
  have hwords : dataWords 6256 = 1563 := by decide
  obtain ⟨hp, hd⟩ := Timed.run_drained hsize released_started SyncFifo.ofList_settles
    SyncFifo.ofList_settles hrun
  have hsince : t.ticked[16*1563+47]? = some 25055 := by
    rw [hticked, if_pos rfl, List.getElem?_range (by norm_num)]
  have hwritten := Timed.written_of_drained hp (hd 1563 25055 (by omega) hsince) (by omega)
  have hcaptured := Timed.captured_eq hp
  have hlength := captured_length hp.toPiped
  have hdump : Clocked.Reach Dump.step (fun i _ => Programmed 6256 0x30000000 i) released.toDump
      t.toDump :=
    hrun.project PollInput.dump (fun s => s.toDump) (fun _ _ => rfl) fun _ _ ha => ha.toProgrammed
  exact ⟨t.toDump, by omega, dump_written_in_order (by decide) (by decide) released_started.released
    hdump hp.lost⟩

/-- In every run a chunk is in memory only after the tick that ends the third
word behind it. Where channel 4 has the bus to itself it is in memory 14700
clocks after that tick. -/
theorem chunk_in_memory (hmod : buffer_size.toNat % 4 = 0) (hmin : 8 ≤ buffer_size.toNat)
    (hpop : pop.Settles) (hpush : push.Settles) {s t : Timed pop push}
    (h : Timed.Started buffer_size base s)
    (hrun : Clocked.Reach Timed.step (fun i _ => Programmed buffer_size base i.dump) s t)
    (hh : t.hands buffer_size = true) :
    (InMemory base t.written t.last_dump_offset (t.chunkEnd buffer_size) →
      4*t.chunkEnd buffer_size+48 ≤ t.ticked.length) ∧
    (Clocked.Reach Timed.step (Timed.Alone buffer_size base) s t →
      (∃ since, t.ticked[4*t.chunkEnd buffer_size+47]? = some since ∧ since+14700 ≤ t.now) →
      InMemory base t.written t.last_dump_offset (t.chunkEnd buffer_size)) := by
  have hsize := size_eq hmod hmin
  have hc := Timed.run_counted hsize h hrun
  obtain ⟨h4, hle⟩ := DumpSession.chunkEnd_given hsize hc.toPolled hh
  have hpos := DumpSession.chunkEnd_pos hh
  obtain ⟨n, hn⟩ := Nat.dvd_of_mod_eq_zero h4
  rw [hn] at hpos hle ⊢
  constructor
  · intro hin
    have hcaptured := captured_of_inMemory hsize hc.toOnDump hpos hc.whole (by omega) hin
    have hlength := captured_length hc.toPiped
    have hpaired := hc.paired_le
    have hticked := hc.ticked
    omega
  · rintro halone ⟨since, hsince, hlate⟩
    obtain ⟨hp, hd⟩ := Timed.run_drained hsize h hpop hpush halone
    rw [show 4*(4*n)+47 = 16*n+47 by omega] at hsince
    have hdrained := hd n since (by omega) hsince
    exact inMemory_of_written hp.toOnDump hp.lost (Timed.written_of_drained hp hdrained hlate)

/-- The done bit stands, a chunk is handed over, and nothing has been captured
yet: the trigger has not come. -/
theorem done_before_capture : ∃ t : Timed listFifo listFifo,
    Clocked.Reach Timed.step (Timed.Alone 6256 0x30000000) released t ∧
    t.hands 6256 = true ∧ t.written = [] ∧
    ¬ InMemory 0x30000000 t.written t.last_dump_offset (t.chunkEnd 6256) := by
  obtain ⟨t, hrun, hnow, hlast, hticked, hsupply, -⟩ := untriggered_supply 4800 (by decide)
  have hsize : (6256 : LWord).toNat = 4*(dataWords 6256+1) := by decide
  have hp := (Timed.run_drained hsize released_started SyncFifo.ofList_settles
    SyncFifo.ofList_settles hrun).1
  have hgiven : 1563 < t.given := by
    have hfilled := Timed.filled_eq hp.toGenerated
    have hreading := Timed.reading_le t
    have hwriting := Timed.writing_le hp
    unfold Timed.supply at hsupply
    split_ifs at hsupply <;> omega
  obtain ⟨hhands, hend⟩ := steady_hands hp hlast hgiven
  have hnone : t.written = [] := by
    have hlength := captured_length hp.toPiped
    have hpaired := hp.paired_le
    have hcaptured := Timed.captured_eq hp
    rw [← hp.ticked, hticked] at hpaired
    apply List.eq_nil_of_length_eq_zero
    simp only [List.length_nil] at hpaired
    omega
  refine ⟨t, hrun, hhands, hnone, ?_⟩
  intro hall
  rw [hnone, hlast, hend] at hall
  cases hall 0 (Nat.le_refl 0) (by decide)

theorem chunk_in_memory_all : ∃ t : Timed listFifo listFifo, t.hands 6256 = true ∧
    4*t.chunkEnd 6256+48 ≤ t.ticked.length ∧
    InMemory 0x30000000 t.written t.last_dump_offset (t.chunkEnd 6256) := by
  obtain ⟨t, hrun, hnow, hlast, hticked⟩ := steady_run true 39756
  have hsize : (6256 : LWord).toNat = 4*(dataWords 6256+1) := by decide
  have hp := (Timed.run_drained hsize released_started SyncFifo.ofList_settles
    SyncFifo.ofList_settles hrun).1
  have hgiven : 1563 < t.given := by
    have hpopped := hp.popped_le
    have hrequested := hp.le_requested
    rw [← hp.ticked, hticked, if_pos rfl, List.length_range] at hrequested
    unfold Dump.requested at hrequested
    split_ifs at hrequested <;> omega
  obtain ⟨hhands, hend⟩ := steady_hands hp hlast hgiven
  have hlaw := chunk_in_memory (by decide) (by decide) SyncFifo.ofList_settles
    SyncFifo.ofList_settles released_started (hrun.mono fun _ _ ha => ha.toProgrammed) hhands
  have hin := hlaw.2 hrun ⟨25055, by
    rw [hend, hticked, if_pos rfl, List.getElem?_range (by norm_num)], by omega⟩
  exact ⟨t, hhands, hlaw.1 hin, hin⟩

end Pauline.DumpPath
