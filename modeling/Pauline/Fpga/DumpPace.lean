import Pauline.Fpga.DumpPoll

/-!
# How fast a dump goes on

The clocks of a dump are counted from its release. With channel 4 alone on the
bus the master gives an address every three clocks until the pop fifo is full,
and writes in between; a word is captured every sixteen ticks at most.
-/

set_option autoImplicit false

namespace Pauline.DumpPath
open Pauline.DmaMaster Pauline.FloppyDumper

variable {pop push : DumpFifo} {buffer_size base : LWord}

def tickInput (i : DumperInput) (now : ℕ) : Bool :=
  (decide (now % 2 = 1) || !i.sample_rate_divisor) && i.enable_dump && !i.stop &&
    (i.index_trigger_signal || i.ignore_index_trigger)

structure Timed (pop push : DumpFifo) extends DumpSession pop push where
  now : ℕ
  ticked : List ℕ
  stalled : ℕ

def DumpSession.start (s : DumpSession pop push) : Timed pop push :=
  { s with now := 0, ticked := [], stalled := 0 }

namespace Timed

def step (i : PollInput) (s : Timed pop push) : Timed pop push where
  toDumpSession := s.toDumpSession.step i
  now := s.now+1
  ticked := s.ticked ++ if tickInput i.dump.capture s.now then [s.now] else []
  stalled := if s.master.avm_m1_write && i.dump.bus.avm_m1_waitrequest then s.stalled+1 else 0

structure Alone (buffer_size base : LWord) (i : PollInput) (s : Timed pop push) : Prop
    extends Programmed buffer_size base i.dump where
  enabled : i.dump.bus.enable_drives 4 = true
  others : ∀ d ≠ 4, i.dump.bus.enable_drives d = true →
    i.dump.bus.pop_fifo_almostfull d = true ∧ i.dump.bus.push_fifo_empty d = true
  waits : s.master.avm_m1_write = true → i.dump.bus.avm_m1_waitrequest = true → s.stalled < 9

end Timed

structure Calm (m : Master) : Prop where
  drive : m.state_master_register ≠ .idle → m.drive_index = 4
  next_read : m.fifos_in_allfull = false → m.fifos_in_almostfull_index = 4
  next_write : m.filos_out_allempty = false → m.fifos_out_empty_index = 4

theorem firstOf_only {p : Channel → Bool} (h : ∀ d ≠ 4, p d = false) :
    firstOf p = (if p 4 then 4 else 0, !p 4) := by
  rw [firstOf, h 0 (by decide), h 1 (by decide), h 2 (by decide), h 3 (by decide)]
  cases p 4 <;> rfl

def nextState (waitrequest : Bool) (m : Master) : MasterState :=
  match m.state_master_register with
  | .idle =>
    if !m.fifos_in_allfull then .wait_read
    else if !m.filos_out_allempty then .wait_write_ws
    else .idle
  | .wait_write_ws => .wait_write
  | .wait_write => .wait_write2
  | .wait_write2 => if waitrequest then .wait_write2 else .idle
  | .wait_read => .wait_read2
  | .wait_read2 => .idle

namespace Timed

section Master
variable {i : PollInput} {s : Timed pop push} (ha : Alone buffer_size base i s)
include ha

theorem wants_alone : firstOf (wantsWords (s.busInput i.dump) s.master) =
    (if !pop.almost_full s.popFifo then 4 else 0, pop.almost_full s.popFifo) := by
  rw [firstOf_only]
  · simp [wantsWords, DumpCore.busInput, ha.enabled]
  · intro d hd
    cases he : i.dump.bus.enable_drives d with
    | false => simp [wantsWords, DumpCore.busInput, he]
    | true => simp [wantsWords, DumpCore.busInput, hd, (ha.others d hd he).1]

theorem has_alone : firstOf (hasWord (s.busInput i.dump) s.master) =
    (if !push.empty s.pushFifo then 4 else 0, push.empty s.pushFifo) := by
  rw [firstOf_only]
  · simp [hasWord, DumpCore.busInput, ha.enabled, ha.released]
  · intro d hd
    cases he : i.dump.bus.enable_drives d with
    | false => simp [hasWord, DumpCore.busInput, he]
    | true => simp [hasWord, DumpCore.busInput, hd, (ha.others d hd he).2]

theorem allfull_step : (s.step i).master.fifos_in_allfull = pop.almost_full s.popFifo :=
  congrArg Prod.snd (wants_alone ha)

theorem allempty_step : (s.step i).master.filos_out_allempty = push.empty s.pushFifo :=
  congrArg Prod.snd (has_alone ha)

theorem anyEnabled_alone : anyEnabled (s.busInput i.dump) = true := by
  simp [anyEnabled, DumpCore.busInput, ha.enabled]

theorem state_step (h : Calm s.master) : (s.step i).master.state_master_register =
    nextState i.dump.bus.avm_m1_waitrequest s.master := by
  refine (step_bus (s.busInput i.dump) s.master).state_master_register.trans ?_
  have hany := anyEnabled_alone ha
  have hdrive := h.drive
  have hreset : (s.busInput i.dump).reset_drives 4 = false := ha.released
  cases hm : s.master.state_master_register with
  | idle =>
    cases hf : s.master.fifos_in_allfull <;> cases he : s.master.filos_out_allempty <;>
      simp [nextState, hm, startsRead, startsWrite, hany, hf, he]
  | wait_read => simp [nextState, hm, hdrive (by simp [hm]), hreset]
  | wait_read2 => simp [nextState, hm, hdrive (by simp [hm]), hreset, takes]
  | wait_write2 =>
    rw [show (s.busInput i.dump).avm_m1_waitrequest = i.dump.bus.avm_m1_waitrequest from rfl]
    cases i.dump.bus.avm_m1_waitrequest <;> simp [nextState, hm]
  | _ => simp [nextState, hm]

theorem calm_step (h : Calm s.master) : Calm (s.step i).master where
  drive := by
    have hb := (step_bus (s.busInput i.dump) s.master).drive_index
    rw [state_step ha h]
    intro hne
    refine hb.trans ?_
    cases hm : s.master.state_master_register with
    | idle =>
      cases hf : s.master.fifos_in_allfull with
      | false => simp [startsRead, anyEnabled_alone ha, hf, h.next_read hf]
      | true =>
        cases he : s.master.filos_out_allempty with
        | false => simp [startsRead, startsWrite, anyEnabled_alone ha, hf, he, h.next_write he]
        | true => simp [nextState, hm, hf, he] at hne
    | _ => exact h.drive (by simp [hm])
  next_read := by
    intro hf
    rw [allfull_step ha] at hf
    refine (congrArg Prod.fst (wants_alone ha)).trans ?_
    simp [hf]
  next_write := by
    intro he
    rw [allempty_step ha] at he
    refine (congrArg Prod.fst (has_alone ha)).trans ?_
    simp [he]

omit ha in
theorem takes_calm (h : Calm s.master) : takes (s.busInput i.dump) s.master 4 =
    decide (s.master.state_master_register = .wait_read2) := by
  have hdrive := h.drive
  by_cases hm : s.master.state_master_register = .wait_read2
  · simp [takes, hm, hdrive (by simp [hm])]
  · simp [takes, hm]

omit ha in
theorem writes_calm (h : Calm s.master) (hc : Carried s.toDump) : s.writes i.dump =
    (decide (s.master.state_master_register = .wait_write2) &&
      !i.dump.bus.avm_m1_waitrequest) := by
  have hdrive := h.drive
  by_cases hm : s.master.state_master_register = .wait_write2
  · have hd := hdrive (by simp [hm])
    simp [DumpCore.writes, hm, hd, (hc.writes hd).mpr hm]
  · by_cases hd : s.master.drive_index = 4
    · have hw : s.master.avm_m1_write = false := by
        rw [Bool.eq_false_iff]
        exact fun hc' => hm ((hc.writes hd).mp hc')
      simp [DumpCore.writes, hm, hw]
    · simp [DumpCore.writes, hm, hd]

end Master

def reading (s : Timed pop push) : ℕ :=
  match s.master.state_master_register with
  | .wait_read => 1
  | .wait_read2 => 2
  | _ => 0

def writing (s : Timed pop push) : ℕ :=
  match s.master.state_master_register with
  | .wait_write_ws => 1
  | .wait_write => 2
  | .wait_write2 => 3+s.stalled
  | _ => 0

def filled (s : Timed pop push) : ℕ := pop.level s.popFifo+s.arrivals.length

/-- The clocks the master has spent on channel 4, less those that the ticks have
used up again: an address takes three clocks, and sixteen ticks take an address
and a write of thirteen clocks. -/
def supply (s : Timed pop push) : ℤ :=
  3*s.filled+s.reading+s.writing-3*(if s.dumper.write_fifo_rq then 1 else 0)-
    s.dumper.fiforeadcnt.toNat

/-- What the ticks bound in every run: an address is asked for at the end of a
word at most, and moves on at the end of a word only. -/
structure Counted (buffer_size base : LWord) (s : Timed pop push) : Prop
    extends DumpSession.Polled buffer_size base s.toDumpSession where
  clock : s.dumper.clock_div = decide (s.now % 2 = 1)
  ticked : s.ticked.length = s.samples.length
  requested_le : s.requested ≤ s.samples.length/16
  latched_le : s.latched ≤ s.samples.length/16-1
  paired_le : s.paired ≤ s.samples.length/16-2

structure Paced (buffer_size base : LWord) (s : Timed pop push) : Prop
    extends Counted buffer_size base s, Calm s.master where
  waited : s.master.state_master_register = .wait_write2 → s.stalled ≤ 9
  pop_shown : 2 ≤ pop.level s.popFifo → pop.empty s.popFifo = false
  push_shown : 2 ≤ push.level s.pushFifo → push.empty s.pushFifo = false
  held : s.master.filos_out_allempty = true → push.level s.pushFifo ≤ 2
  seen : s.master.filos_out_allempty = false → push.contents s.pushFifo ≠ [] →
    push.empty s.pushFifo = false
  fresh : s.now = 0 → s.master.filos_out_allempty = true
  full : 0 < s.now ∧ s.master.fifos_in_allfull = true ∨ 0 < s.writing → 11880 ≤ s.supply
  covered : 13*(s.captured.length : ℤ) ≤ 13*s.written.length+s.supply+if s.now = 0 then 0 else 1
  le_requested : s.samples.length/16 ≤ s.requested
  le_latched : s.samples.length/16-1 ≤ s.latched
  le_paired : s.samples.length/16-2 ≤ s.paired
  lost : s.lost = []
  finished : dataWords buffer_size < s.given → s.master.done_q 4 = true

section Clock
variable {i : PollInput} {s : Timed pop push}

/-- The clocks spent in the main process: three for an address, and one more at
every clock but where it rests or a write ends. -/
theorem turn_step (ha : Alone buffer_size base i s) (h : Calm s.master) (hc : Carried s.toDump) :
    (s.step i).reading+(s.step i).writing+
      3*(if takes (s.busInput i.dump) s.master 4 then 1 else 0) = s.reading+s.writing+1 ∧
        s.writes i.dump = false ∨
    s.master.state_master_register = .idle ∧ s.master.fifos_in_allfull = true ∧
      s.master.filos_out_allempty = true ∧ (s.step i).reading = 0 ∧ (s.step i).writing = 0 ∧
      takes (s.busInput i.dump) s.master 4 = false ∧ s.writes i.dump = false ∨
    s.master.state_master_register = .wait_write2 ∧ (s.step i).reading = 0 ∧
      (s.step i).writing = 0 ∧ takes (s.busInput i.dump) s.master 4 = false ∧
      s.writes i.dump = true := by
  have hstate := state_step ha h
  have hstalled : (s.step i).stalled =
    if s.master.avm_m1_write && i.dump.bus.avm_m1_waitrequest then s.stalled+1 else 0 := rfl
  rw [takes_calm h, writes_calm h hc]
  simp only [reading, writing, hstate, hstalled]
  cases hm : s.master.state_master_register with
  | idle =>
    cases hf : s.master.fifos_in_allfull <;> cases he : s.master.filos_out_allempty <;>
      simp [nextState, hm, hf, he]
  | wait_write =>
    have hw : s.master.avm_m1_write = false := by
      rw [Bool.eq_false_iff]
      intro hw
      exact absurd ((hc.writes (h.drive (by simp [hm]))).mp hw) (by simp [hm])
    simp [nextState, hm, hw]
  | wait_write2 =>
    have hw := (hc.writes (h.drive (by simp [hm]))).mpr hm
    cases hwait : i.dump.bus.avm_m1_waitrequest with
    | true =>
      left
      simp [nextState, hm, hw]
      omega
    | false => simp [nextState, hm]
  | _ => simp [nextState, hm]

theorem reading_le (s : Timed pop push) : s.reading ≤ 2 ∧ (0 < s.writing → s.reading = 0) := by
  unfold reading writing
  cases s.master.state_master_register <;> simp

theorem writing_le (h : Paced buffer_size base s) : s.writing ≤ 12 := by
  have hwaited := h.waited
  unfold writing
  cases hm : s.master.state_master_register <;> simp
  have := hwaited hm
  omega

theorem filled_eq (h : Generated buffer_size base s.toDump) : s.filled+s.popped = s.given := by
  have hqueue := congrArg List.length h.queue
  have hle := h.popped_le
  simp only [List.length_map, List.length_append, List.length_range'] at hqueue
  unfold filled SyncFifo.level
  omega

theorem captured_eq (h : Paced buffer_size base s) :
    s.captured.length = s.written.length+s.underway.length := by
  have hlength := h.delivery.length_eq
  rw [h.lost, show s.capturedPairs.length = s.captured.length from List.length_map _] at hlength
  exact hlength.symm

theorem ticks_counted (h : Counted buffer_size base s) :
    ticks (s.captureInput i.dump) s.dumper = tickInput i.dump.capture s.now := by
  rw [ticks, h.clock, h.write_enabled, Bool.or_false]
  rfl

theorem words_step (h : Counted buffer_size base s) : (s.step i).samples.length/16 =
    s.samples.length/16+if wordEnds (s.captureInput i.dump) s.dumper then 1 else 0 := by
  have hlength : (s.step i).samples.length = _ := samples_step_length (i := i.dump) (s := s.toDump)
  have hcount := h.count
  cases hw : wordEnds (s.captureInput i.dump) s.dumper with
  | true =>
    have h15 : (15 : BitVec 6).toNat = 15 := rfl
    rw [wordEnds_count hw] at hcount
    rw [wordEnds_ticks hw, if_pos rfl] at hlength
    rw [if_pos rfl]
    omega
  | false =>
    cases ht : ticks (s.captureInput i.dump) s.dumper with
    | false =>
      rw [hlength, ht]
      rfl
    | true =>
      have hne : s.dumper.fiforeadcnt ≠ 15 := fun he => by simp [wordEnds, ht, he] at hw
      have hlt : s.dumper.fiforeadcnt.toNat ≠ 15 := fun he => hne (BitVec.eq_of_toNat_eq he)
      rw [ht, if_pos rfl] at hlength
      rw [if_neg Bool.false_ne_true]
      omega

theorem counted_step (hsize : buffer_size.toNat = 4*(dataWords buffer_size+1))
    (hp : Programmed buffer_size base i.dump) (h : Counted buffer_size base s) :
    Counted buffer_size base (s.step i) := by
  have hrequested : (s.step i).requested = _ := requested_step (s := s.toDump) hp.released
  have hlatched : (s.step i).latched = _ := latched_step (s := s.toDump) hp.released
  have hpaired : (s.step i).paired = _ := paired_step (s := s.toDump) hp.released
  have hwords := words_step (i := i) h
  have hr := h.requested_le
  have hl := h.latched_le
  have hq := h.paired_le
  constructor
  case toPolled => exact DumpSession.polled_step hsize hp h.toPolled
  case clock =>
    refine (step_clock_div (i := s.captureInput i.dump) hp.released).trans ?_
    rw [h.clock]
    change (!decide (s.now % 2 = 1)) = decide ((s.now+1) % 2 = 1)
    rw [← decide_not, decide_eq_decide]
    omega
  case ticked =>
    have hlength : (s.step i).samples.length = _ :=
      samples_step_length (i := i.dump) (s := s.toDump)
    rw [hlength, ticks_counted h, ← h.ticked]
    change (s.ticked ++ _).length = _
    rw [List.length_append]
    split_ifs <;> rfl
  case requested_le =>
    rw [hrequested, hwords]
    by_cases hw : wordEnds (s.captureInput i.dump) s.dumper = true
    · rw [if_pos hw]
      split_ifs <;> omega
    · rw [if_neg hw, if_neg fun hc => hw hc.1]
      exact hr
  case latched_le =>
    rw [hlatched, hwords]
    split_ifs <;> omega
  case paired_le =>
    rw [hpaired, hwords]
    split_ifs <;> omega

/-- The pop fifo never runs dry. -/
theorem pop_not_empty (h : Paced buffer_size base s)
    (hw : wordEnds (s.captureInput i.dump) s.dumper = true) : pop.empty s.popFifo = false := by
  have hrq := (popped_of_wordEnds h.toPiped hw).1
  have hsupply : s.supply = 3*s.filled+s.reading+s.writing-15 := by
    rw [supply, hrq, wordEnds_count hw]
    simp
  have hcovered := h.covered
  have hcaptured := captured_eq h
  have hfull := h.full
  have hreading := reading_le s
  have hwriting := writing_le h
  have harrivals := arrivals_length s.toDump
  have hlevel : 4 ≤ s.filled := by
    by_cases hz : 0 < s.writing
    · have := hfull (Or.inr hz)
      omega
    · split_ifs at hcovered <;> omega
  apply h.pop_shown
  unfold filled at hlevel
  split_ifs at harrivals <;> omega

theorem demand_step (hr : i.dump.bus.reset_drives 4 = false) (h : Paced buffer_size base s) :
    wordEnds (s.captureInput i.dump) s.dumper = false ∧
      (s.step i).dumper.write_fifo_rq = false ∧
      (s.step i).dumper.fiforeadcnt.toNat ≤ s.dumper.fiforeadcnt.toNat+1 ∨
    wordEnds (s.captureInput i.dump) s.dumper = true ∧ s.dumper.write_fifo_rq = false ∧
      (s.step i).dumper.write_fifo_rq = true ∧ s.dumper.fiforeadcnt.toNat = 15 ∧
      (s.step i).dumper.fiforeadcnt.toNat = 0 := by
  have hrq : (s.step i).dumper.write_fifo_rq = _ :=
    step_write_fifo_rq (i := s.captureInput i.dump) (s := s.dumper) hr
  have hcount : (s.step i).dumper.fiforeadcnt = _ :=
    step_fiforeadcnt (i := s.captureInput i.dump) (s := s.dumper) hr
  cases hw : wordEnds (s.captureInput i.dump) s.dumper with
  | true =>
    right
    rw [hrq, hcount, hw, captureInput_empty, pop_not_empty h hw, wordEnds_count hw]
    exact ⟨rfl, (popped_of_wordEnds h.toPiped hw).1, rfl, rfl, rfl⟩
  | false =>
    left
    rw [hrq, hcount, hw, Bool.false_and, if_neg Bool.false_ne_true]
    have hlt : s.dumper.fiforeadcnt.toNat < 16 := by
      rw [h.count]
      exact Nat.mod_lt _ (by decide)
    refine ⟨rfl, rfl, ?_⟩
    split_ifs
    · have : (s.dumper.fiforeadcnt+1).toNat = s.dumper.fiforeadcnt.toNat+1 := by bv_omega
      omega
    · omega

theorem filled_step (hr : i.dump.bus.reset_drives 4 = false) (h : Paced buffer_size base s) :
    (s.step i).filled+(if s.dumper.write_fifo_rq then 1 else 0) =
      s.filled+if takes (s.busInput i.dump) s.master 4 then 1 else 0 := by
  have hcontents := congrArg List.length (pop_contents_step (i := i.dump) hr h.toRoom)
  have harrivals := arrivals_step_length (i := i.dump) (s := s.toDump)
  have hasked := h.asked
  change (pop.contents (s.step i).popFifo).length = _ at hcontents
  change (s.step i).arrivals.length = _ at harrivals
  rw [List.length_append] at hcontents
  unfold filled SyncFifo.level
  rw [harrivals, hcontents]
  cases hrq : s.dumper.write_fifo_rq with
  | false => simp
  | true =>
    have := List.length_pos_of_ne_nil (hasked hrq).2.1
    simp only [if_true, List.length_tail]
    omega

/-- A clock is gained but where the master rests or a write ends. -/
theorem supply_step (ha : Alone buffer_size base i s) (h : Paced buffer_size base s) :
    (s.step i).supply+3*(if (s.step i).dumper.write_fifo_rq then 1 else 0)+
        (s.step i).dumper.fiforeadcnt.toNat+(s.reading+s.writing) =
      s.supply+s.dumper.fiforeadcnt.toNat+((s.step i).reading+(s.step i).writing)+
        3*(if takes (s.busInput i.dump) s.master 4 then 1 else 0) := by
  have hfilled := filled_step ha.released h
  unfold supply
  split_ifs at hfilled ⊢ <;> omega

theorem writing_step (ha : Alone buffer_size base i s) (h : Calm s.master)
    (hpos : 0 < (s.step i).writing) : 0 < s.writing ∨
      s.master.fifos_in_allfull = true ∧ s.master.filos_out_allempty = false := by
  have hstate := state_step ha h
  unfold writing at hpos ⊢
  rw [hstate] at hpos
  cases hm : s.master.state_master_register with
  | idle =>
    cases hf : s.master.fifos_in_allfull <;> cases he : s.master.filos_out_allempty <;>
      simp [nextState, hm, hf, he] at hpos ⊢
  | wait_read => simp [nextState, hm] at hpos
  | wait_read2 => simp [nextState, hm] at hpos
  | _ => simp

theorem supply_le (h : Paced buffer_size base s) : s.supply ≤ 11924 := by
  have hroom := h.room
  have hreading := (reading_le s).1
  have hwriting := writing_le h
  unfold supply filled
  split_ifs <;> omega

theorem underway_le (h : Paced buffer_size base s) : s.underway.length ≤ 917 := by
  have hcaptured := captured_eq h
  have hcovered := h.covered
  have hsupply := supply_le h
  split_ifs at hcovered <;> omega

theorem full_step (ha : Alone buffer_size base i s) (h : Paced buffer_size base s)
    (hfull : (s.step i).master.fifos_in_allfull = true ∨ 0 < (s.step i).writing) :
    11880 ≤ (s.step i).supply := by
  have hdemand := demand_step ha.released h
  have hcount : s.dumper.fiforeadcnt.toNat < 16 := by
    rw [h.count]
    exact Nat.mod_lt _ (by decide)
  by_cases hf : (s.step i).master.fifos_in_allfull = true
  · -- the flag is up where the pop fifo is almost full one clock before
    have hfilled := filled_step ha.released h
    rw [allfull_step ha, SyncFifo.almost_full, decide_eq_true_eq] at hf
    have hle : pop.level s.popFifo ≤ s.filled := Nat.le_add_right _ _
    unfold supply
    split_ifs at hfilled ⊢ <;> omega
  · have hpos := hfull.resolve_left hf
    have hturn := turn_step ha h.toCalm h.toCarried
    have hsupply := supply_step ha h
    have hold : 11880 ≤ s.supply := by
      apply h.full
      obtain hw | ⟨haf, hae⟩ := writing_step ha h.toCalm hpos
      · exact Or.inr hw
      · left
        refine ⟨Nat.pos_of_ne_zero fun hz => ?_, haf⟩
        rw [h.fresh hz] at hae
        cases hae
    split_ifs at hsupply <;> rcases hdemand with ⟨-, hrq, hd⟩ | ⟨-, -, hrq, hd⟩ <;>
      simp_all <;> omega

theorem captured_length_step (hr : i.dump.bus.reset_drives 4 = false) :
    (s.step i).captured.length = s.captured.length+
      if pushes (s.captureInput i.dump) s.dumper then 1 else 0 := by
  have hcaptured : (s.step i).captured = _ := captured_step (s := s.toDump) hr
  rw [hcaptured, List.length_append]
  split_ifs <;> rfl

theorem written_length_step : (s.step i).written.length =
    s.written.length+if s.writes i.dump then 1 else 0 := by
  change (s.written ++ _).length = _
  rw [List.length_append]
  split_ifs <;> rfl

/-- The words captured are covered by the clocks spent. -/
theorem covered_step (ha : Alone buffer_size base i s) (h : Paced buffer_size base s) :
    13*((s.step i).captured.length : ℤ) ≤ 13*(s.step i).written.length+(s.step i).supply+1 := by
  have hcaptured := captured_length_step (s := s) ha.released
  have hwritten := written_length_step (s := s) (i := i)
  have hsupply := supply_step ha h
  have hcovered := h.covered
  have hpush : pushes (s.captureInput i.dump) s.dumper = true →
      wordEnds (s.captureInput i.dump) s.dumper = true := by
    intro hpush
    exact ((pushes_iff h.toPiped).mp hpush).1
  have hdemand : (s.step i).captured.length = s.captured.length ∧
      3*(if (s.step i).dumper.write_fifo_rq then 1 else 0)+
        (s.step i).dumper.fiforeadcnt.toNat ≤ s.dumper.fiforeadcnt.toNat+1 ∨
      (s.step i).captured.length ≤ s.captured.length+1 ∧
        3*(if (s.step i).dumper.write_fifo_rq then 1 else 0)+
          (s.step i).dumper.fiforeadcnt.toNat+12 = s.dumper.fiforeadcnt.toNat := by
    rcases demand_step ha.released h with ⟨hw, hrq, hle⟩ | ⟨-, -, hrq, h15, h0⟩
    · left
      rw [hcaptured, if_neg (fun hc => by rw [hpush hc] at hw; cases hw), hrq]
      simpa using hle
    · right
      rw [hcaptured, hrq, h15, h0, if_pos rfl]
      split_ifs <;> omega
  rcases turn_step ha h.toCalm h.toCarried with ⟨hturn, hw⟩ | ⟨hm, hf, he, hr, hwr, ht, hw⟩ |
    ⟨hm, hr, hwr, ht, hw⟩
  · rw [hw, if_neg Bool.false_ne_true] at hwritten
    split_ifs at hcovered hsupply hturn hdemand <;> omega
  · -- the master rests: the run has just begun, or almost nothing is left to write
    have hread : s.reading = 0 ∧ s.writing = 0 := by simp [reading, writing, hm]
    rw [hw, if_neg Bool.false_ne_true] at hwritten
    rw [ht, if_neg Bool.false_ne_true] at hsupply
    by_cases hz : s.now = 0
    · rw [if_pos hz] at hcovered
      split_ifs at hsupply hdemand <;> omega
    · have hfull := h.full (Or.inl ⟨Nat.pos_of_ne_zero hz, hf⟩)
      have hunder : s.underway.length ≤ 3 := by
        have hheld := h.held he
        have hone : s.arrivingBack.length ≤ 1 := by
          unfold Dump.arrivingBack
          split_ifs <;> simp
        have hnone : s.inDma = [] := by simp [Dump.inDma, hm]
        unfold SyncFifo.level at hheld
        rw [Dump.underway, hnone, List.nil_append, List.length_append, List.length_map]
        omega
      have hcount := captured_eq h
      split_ifs at hsupply hdemand <;> omega
  · have hread : s.reading = 0 := by simp [reading, hm]
    have hwriting := writing_le h
    rw [hw, if_pos rfl] at hwritten
    rw [ht, if_neg Bool.false_ne_true] at hsupply
    split_ifs at hcovered hsupply hdemand <;> omega

theorem pushFifo_step (hr : i.dump.bus.reset_drives 4 = false) : (s.step i).pushFifo = push.step false
    s.dumper.read_fifo_wr s.dumper.read_fifo_data (s.master.push_fifo_out_rq 4) s.pushFifo := by
  rw [← hr]
  rfl

theorem popFifo_step (hr : i.dump.bus.reset_drives 4 = false) : (s.step i).popFifo = pop.step false
    (s.master.pop_fifo_in_wr 4) s.arriving s.dumper.write_fifo_rq s.popFifo := by
  rw [← hr]
  rfl

/-- The fifo shows that it is empty one clock late. -/
theorem held_step (ha : Alone buffer_size base i s) (h : Paced buffer_size base s)
    (hempty : (s.step i).master.filos_out_allempty = true) :
    push.level (s.step i).pushFifo ≤ 2 := by
  rw [allempty_step ha] at hempty
  rw [pushFifo_step ha.released]
  have hle := push.level_step_le false s.dumper.read_fifo_wr s.dumper.read_fifo_data
    (s.master.push_fifo_out_rq 4) s.pushFifo
  have hold : push.level s.pushFifo < 2 := by
    by_contra hc
    rw [h.push_shown (by omega)] at hempty
    cases hempty
  split_ifs at hle <;> omega

theorem requested_paced (ha : Alone buffer_size base i s) (h : Paced buffer_size base s) :
    (s.step i).samples.length/16 ≤ (s.step i).requested := by
  have hrequested : (s.step i).requested = _ := requested_step (s := s.toDump) ha.released
  have hle := h.le_requested
  rw [hrequested, words_step (i := i) h.toCounted]
  by_cases hw : wordEnds (s.captureInput i.dump) s.dumper = true
  · rw [if_pos hw, if_pos ⟨hw, pop_not_empty h hw⟩]
    omega
  · rw [if_neg hw]
    omega

theorem nothing_lost (h : Paced buffer_size base s) : (s.step i).lost = [] := by
  have hunder := underway_le h
  have hlevel : push.level s.pushFifo ≤ 917 := by
    refine le_trans ?_ hunder
    simp only [Dump.underway, List.length_append, List.length_map, SyncFifo.level]
    omega
  have hfull : s.pushOverflow = false := by
    rw [DumpCore.pushOverflow, decide_eq_false (by omega), Bool.and_false]
  change s.lost ++ (if s.pushOverflow then _ else _) = []
  rw [h.lost, hfull]
  rfl

theorem paced_step (hsize : buffer_size.toNat = 4*(dataWords buffer_size+1)) (hpop : pop.Settles)
    (hpush : push.Settles) (ha : Alone buffer_size base i s) (h : Paced buffer_size base s) :
    Paced buffer_size base (s.step i) := by
  have hr := ha.released
  have hwords := words_step (i := i) h.toCounted
  have hlatched : (s.step i).latched = _ := latched_step (s := s.toDump) hr
  have hpaired : (s.step i).paired = _ := paired_step (s := s.toDump) hr
  constructor
  case toCounted => exact counted_step hsize ha.toProgrammed h.toCounted
  case toCalm => exact calm_step ha h.toCalm
  case waited =>
    intro _
    change (if s.master.avm_m1_write && i.dump.bus.avm_m1_waitrequest then s.stalled+1 else 0) ≤ 9
    split_ifs with hw
    · rw [Bool.and_eq_true] at hw
      exact ha.waits hw.1 hw.2
    · omega
  case pop_shown =>
    rw [popFifo_step hr]
    exact hpop.shown _ _ _ _ _
  case push_shown =>
    rw [pushFifo_step hr]
    exact hpush.shown _ _ _ _ _
  case held => exact held_step ha h
  case seen =>
    rw [allempty_step ha, pushFifo_step hr]
    intro hempty hne
    exact hpush _ _ _ _ (push.empty_sound _ hempty) hne
  case fresh => exact fun hz => absurd hz (Nat.succ_ne_zero _)
  case full => exact fun hfull => full_step ha h (hfull.imp_left And.right)
  case covered => exact covered_step ha h
  case le_requested => exact requested_paced ha h
  case le_latched =>
    have := h.le_requested
    have := h.le_latched
    rw [hlatched, hwords]
    split_ifs <;> omega
  case le_paired =>
    have := h.le_latched
    have := h.le_paired
    rw [hpaired, hwords]
    split_ifs <;> omega
  case lost => exact nothing_lost h
  case finished => exact DumpSession.done_step hsize ha.toProgrammed ha.enabled h.toGenerated h.finished

end Clock

end Timed

end Pauline.DumpPath
