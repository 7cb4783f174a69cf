import Pauline.Fpga.DumpAddress

/-!
# The pipeline of the dumper

An address is requested where one word ends, latched where the next one does,
and used where the one after ends. A word without a request moves the latches
all the same, and its place in the pipeline is marked as not valid.
-/

set_option autoImplicit false

namespace Pauline.DumpPath
open Pauline.DmaMaster Pauline.FloppyDumper

variable {pop push : DumpFifo} {buffer_size base : LWord}

def Dump.requested (s : Dump pop push) : ℕ :=
  s.popped + if s.dumper.write_fifo_rq then 1 else 0

def Dump.latched (s : Dump pop push) : ℕ :=
  s.requested - if s.dumper.pop_fifo_data_valid_q1 then 1 else 0

def Dump.paired (s : Dump pop push) : ℕ :=
  s.latched - if s.dumper.pop_fifo_data_valid_q2 then 1 else 0

section Counters
variable {i : DumpInput} {s : Dump pop push} (hr : i.bus.reset_drives 4 = false)
include hr

theorem requested_step : (s.step i).requested = s.requested +
    if wordEnds (s.captureInput i) s.dumper = true ∧ pop.empty s.popFifo = false then 1 else 0 := by
  rw [Dump.requested, Dump.requested, step_dumper, step_write_fifo_rq hr, captureInput_empty]
  simp only [Dump.step]
  cases s.dumper.write_fifo_rq <;> cases wordEnds (s.captureInput i) s.dumper <;>
    cases pop.empty s.popFifo <;> rfl

theorem latched_step : (s.step i).latched =
    if wordEnds (s.captureInput i) s.dumper then s.requested else s.latched := by
  rw [Dump.latched, requested_step hr, step_dumper]
  cases hw : wordEnds (s.captureInput i) s.dumper with
  | true =>
    rw [(step_wordEnd hr hw).1, captureInput_empty]
    cases pop.empty s.popFifo <;> simp
  | false =>
    rw [(step_held hr hw).1]
    simp [Dump.latched]

theorem paired_step : (s.step i).paired =
    if wordEnds (s.captureInput i) s.dumper then s.latched else s.paired := by
  rw [Dump.paired, latched_step hr, step_dumper]
  cases hw : wordEnds (s.captureInput i) s.dumper with
  | true =>
    rw [(step_wordEnd hr hw).2.1]
    rfl
  | false =>
    rw [(step_held hr hw).2.1]
    rfl

end Counters

structure Piped (buffer_size base : LWord) (s : Dump pop push) : Prop where
  write_enabled : s.dumper.write_enabled = false
  count : s.dumper.fiforeadcnt.toNat = s.samples.length % 16
  flagged : s.dumper.fiforeadcnt ≠ 0 → s.dumper.write_flag = true
  asked : s.dumper.write_fifo_rq = true →
    s.dumper.fiforeadcnt = 0 ∧ pop.contents s.popFifo ≠ [] ∧
      s.dumper.pop_fifo_data_valid_q1 = true
  valid_q1 : s.dumper.pop_fifo_data_valid_q1 = true → 0 < s.requested
  valid_q2 : s.dumper.pop_fifo_data_valid_q2 = true → 0 < s.latched
  pre_charged : s.dumper.pre_charged_state = decide (0 < s.requested)
  pre_charged_q1 : s.dumper.pre_charged_state_q1 = decide (0 < s.latched)
  pre_charged_q2 : s.dumper.pre_charged_state_q2 = decide (0 < s.paired)
  stage_q1 : 0 < s.latched →
    (s.dumper.out_address_q1, s.dumper.out_status_q1) = item buffer_size base (s.latched-1)
  stage_q2 : 0 < s.paired →
    (s.dumper.out_address_q2, s.dumper.out_status_q2) = item buffer_size base (s.paired-1)
  started : 0 < s.requested → 16 ≤ s.samples.length
  addresses : s.captured.map (·.word.address) =
    (List.range (min (s.paired-1) (dataWords buffer_size))).map
      fun k => (item buffer_size base k).1

section Pipeline
variable {i : DumpInput} {s : Dump pop push}

theorem wordEnds_count {c : DumperInput} {d : Dumper} (h : wordEnds c d = true) :
    d.fiforeadcnt = 15 := by
  simp only [wordEnds, Bool.and_eq_true, decide_eq_true_eq] at h
  exact h.2

theorem wordEnds_ticks {c : DumperInput} {d : Dumper} (h : wordEnds c d = true) :
    ticks c d = true := (Bool.and_eq_true_iff.mp h).1

theorem samples_step_length : (s.step i).samples.length =
    s.samples.length + if ticks (s.captureInput i) s.dumper then 1 else 0 := by
  simp only [Dump.step, List.length_append]
  split_ifs <;> rfl

theorem count_step (hr : i.bus.reset_drives 4 = false) (h : Piped buffer_size base s) :
    (s.step i).dumper.fiforeadcnt.toNat = (s.step i).samples.length % 16 := by
  have hcount := h.count
  rw [samples_step_length, step_dumper, step_fiforeadcnt hr]
  by_cases hw : wordEnds (s.captureInput i) s.dumper = true
  · rw [if_pos hw, if_pos (wordEnds_ticks hw)]
    rw [wordEnds_count hw] at hcount
    have h15 : (15 : BitVec 6).toNat = 15 := rfl
    have h0 : (0 : BitVec 6).toNat = 0 := rfl
    omega
  · rw [if_neg hw]
    split_ifs with ht
    · have hne : s.dumper.fiforeadcnt ≠ 15 := fun he => hw (by simp [wordEnds, ht, he])
      bv_omega
    · exact hcount

theorem popped_of_wordEnds (h : Piped buffer_size base s)
    (hw : wordEnds (s.captureInput i) s.dumper = true) :
    s.dumper.write_fifo_rq = false ∧ s.requested = s.popped := by
  have hrq : s.dumper.write_fifo_rq = false := by
    by_contra hc
    have hzero := (h.asked (by simpa using hc)).1
    rw [wordEnds_count hw] at hzero
    exact absurd hzero (by decide)
  exact ⟨hrq, by simp [Dump.requested, hrq]⟩

theorem pushes_iff (h : Piped buffer_size base s) :
    pushes (s.captureInput i) s.dumper = true ↔
      wordEnds (s.captureInput i) s.dumper = true ∧ s.dumper.pop_fifo_data_valid_q2 = true ∧
        0 < s.paired ∧ s.paired-1 < dataWords buffer_size := by
  by_cases hw : wordEnds (s.captureInput i) s.dumper = true
  · have hflag := h.flagged (by rw [wordEnds_count hw]; decide)
    by_cases hp : 0 < s.paired
    · have hstatus := congrArg Prod.snd (h.stage_q2 hp)
      simp only [item] at hstatus
      simp only [pushes, hw, hflag, h.pre_charged_q2, hp, hstatus]
      split_ifs with hlt <;> simp [hlt]
    · simp [pushes, h.pre_charged_q2, hp]
  · simp [pushes, hw]

theorem captured_step (hr : i.bus.reset_drives 4 = false) : (s.step i).captured = s.captured ++
    if pushes (s.captureInput i) s.dumper then
      [⟨⟨i.capture.slow_capture_bus ++ s.dumper.in_shifter_side0, s.dumper.out_address_q2, 0⟩,
        s.samples.length⟩] else [] := by
  simp only [Dump.step, DumpCore.step, step_read_fifo_wr (i := s.captureInput i) (s := s.dumper) hr]
  split_ifs with hp
  · have hw : wordEnds (s.captureInput i) s.dumper = true := by
      simp only [pushes, Bool.and_eq_true] at hp
      exact hp.1.1.1.1
    obtain ⟨-, -, -, -, -, -, -, -, -, hdata⟩ := step_wordEnd (s := s.dumper) hr hw
    rw [hdata]
    rfl
  · rfl

/-- A word handed over carries the address of the next data word. -/
theorem addresses_step (hr : i.bus.reset_drives 4 = false) (h : Piped buffer_size base s) :
    (s.step i).captured.map (·.word.address) =
      (List.range (min ((s.step i).paired-1) (dataWords buffer_size))).map
        fun k => (item buffer_size base k).1 := by
  rw [captured_step hr, paired_step hr, List.map_append, h.addresses]
  by_cases hp : pushes (s.captureInput i) s.dumper = true
  · obtain ⟨hw, hv, hpos, hlt⟩ := (pushes_iff h).mp hp
    have hlatched := h.valid_q2 hv
    have hpaired : s.paired = s.latched-1 := by simp [Dump.paired, hv]
    have hstage := congrArg Prod.fst (h.stage_q2 hpos)
    rw [if_pos hp, if_pos hw, ← hpaired, Nat.min_eq_left (by omega), Nat.min_eq_left (by omega)]
    rw [show s.paired = s.paired-1+1 by omega, List.range_succ, List.map_append]
    simp only [List.map_cons, List.map_nil, Nat.add_sub_cancel]
    exact congrArg (fun a => _ ++ [a]) hstage
  · rw [if_neg hp, List.map_nil, List.append_nil]
    split_ifs with hw
    · -- no word: nothing was paired, or it is past the data words
      have hsame : min (s.paired-1) (dataWords buffer_size) =
          min (s.latched-1) (dataWords buffer_size) := by
        by_cases hv : s.dumper.pop_fifo_data_valid_q2 = true
        · have hpaired : s.paired = s.latched-1 := by simp [Dump.paired, hv]
          have hnot : ¬(0 < s.paired ∧ s.paired-1 < dataWords buffer_size) :=
            fun hc => hp ((pushes_iff h).mpr ⟨hw, hv, hc⟩)
          omega
        · simp [Dump.paired, hv]
      rw [hsame]
    · rfl

theorem asked_step (hp : Programmed buffer_size base i) (hg : Room s)
    (h : Piped buffer_size base s) (hrq : (s.step i).dumper.write_fifo_rq = true) :
    (s.step i).dumper.fiforeadcnt = 0 ∧ pop.contents (s.step i).popFifo ≠ [] ∧
      (s.step i).dumper.pop_fifo_data_valid_q1 = true := by
  rw [step_dumper, step_write_fifo_rq hp.released, Bool.and_eq_true, Bool.not_eq_true'] at hrq
  obtain ⟨hw, hempty⟩ := hrq
  refine ⟨?_, ?_, ?_⟩
  · rw [step_dumper, step_fiforeadcnt hp.released, if_pos hw]
  · rw [pop_contents_step hp.released hg, (popped_of_wordEnds h hw).1]
    have hne := pop.empty_sound s.popFifo hempty
    simp [hne]
  · rw [step_dumper, (step_wordEnd hp.released hw).1, hempty]
    rfl

/-- What a step leaves in the pipeline where no word ends. -/
theorem piped_held (hp : Programmed buffer_size base i) (hg : Room s)
    (h : Piped buffer_size base s) (hw : wordEnds (s.captureInput i) s.dumper = false) :
    Piped buffer_size base (s.step i) := by
  obtain ⟨hv1, hv2, hp0, hp1, hp2, ha1, ha2, hs1, hs2, -⟩ :=
    step_held (s := s.dumper) hp.released hw
  have hrequested : (s.step i).requested = s.requested := by
    simp [requested_step hp.released, hw]
  have hlatched : (s.step i).latched = s.latched := by simp [latched_step hp.released, hw]
  have hpaired : (s.step i).paired = s.paired := by simp [paired_step hp.released, hw]
  constructor
  case write_enabled => exact (step_write_enabled hp.released).trans h.write_enabled
  case count => exact count_step hp.released h
  case flagged =>
    rw [step_dumper, step_fiforeadcnt hp.released, step_write_flag hp.released h.write_enabled, hw]
    by_cases ht : ticks (s.captureInput i) s.dumper = true
    · simp [ht]
    · simpa [ht] using h.flagged
  case asked => exact asked_step hp hg h
  case valid_q1 => rw [step_dumper, hv1, hrequested]; exact h.valid_q1
  case valid_q2 => rw [step_dumper, hv2, hlatched]; exact h.valid_q2
  case pre_charged => rw [step_dumper, hp0, hrequested]; exact h.pre_charged
  case pre_charged_q1 => rw [step_dumper, hp1, hlatched]; exact h.pre_charged_q1
  case pre_charged_q2 => rw [step_dumper, hp2, hpaired]; exact h.pre_charged_q2
  case stage_q1 => rw [step_dumper, ha1, hs1, hlatched]; exact h.stage_q1
  case stage_q2 => rw [step_dumper, ha2, hs2, hpaired]; exact h.stage_q2
  case started =>
    intro hpos
    have := h.started (hrequested ▸ hpos)
    rw [samples_step_length]
    omega
  case addresses => exact addresses_step hp.released h

/-- Where a word ends every stage takes what the stage before it held. -/
theorem piped_wordEnd (hp : Programmed buffer_size base i) (hg : Generated buffer_size base s)
    (h : Piped buffer_size base s) (hw : wordEnds (s.captureInput i) s.dumper = true) :
    Piped buffer_size base (s.step i) := by
  obtain ⟨hv1, hv2, hp0, hp1, hp2, ha1, ha2, hs1, hs2, -⟩ :=
    step_wordEnd (s := s.dumper) hp.released hw
  have hpopped := (popped_of_wordEnds h hw).2
  have hrequested := requested_step hp.released (s := s)
  have hlatched : (s.step i).latched = s.requested := by simp [latched_step hp.released, hw]
  have hpaired : (s.step i).paired = s.latched := by simp [paired_step hp.released, hw]
  constructor
  case write_enabled => exact (step_write_enabled hp.released).trans h.write_enabled
  case count => exact count_step hp.released h
  case flagged =>
    intro hne
    rw [step_dumper, step_fiforeadcnt hp.released, if_pos hw] at hne
    exact absurd rfl hne
  case asked => exact asked_step hp hg.toRoom h
  case valid_q1 =>
    intro hv
    rw [step_dumper, hv1, captureInput_empty, Bool.not_eq_true'] at hv
    simp [hrequested, hw, hv]
  case valid_q2 =>
    rw [step_dumper, hv2, hlatched]
    exact h.valid_q1
  case pre_charged =>
    rw [step_dumper, hp0, captureInput_empty, hrequested, hw, h.pre_charged]
    cases pop.empty s.popFifo <;> simp
  case pre_charged_q1 => rw [step_dumper, hp1, hlatched]; exact h.pre_charged
  case pre_charged_q2 => rw [step_dumper, hp2, hpaired]; exact h.pre_charged_q1
  case stage_q1 =>
    rw [step_dumper, ha1, hs1, hlatched, hpopped]
    exact hg.shown
  case stage_q2 => rw [step_dumper, ha2, hs2, hpaired]; exact h.stage_q1
  case started =>
    intro _
    -- the tick that ends a word is at least the sixteenth
    have hcount := h.count
    have h15 : (15 : BitVec 6).toNat = 15 := rfl
    rw [wordEnds_count hw] at hcount
    rw [samples_step_length, if_pos (wordEnds_ticks hw)]
    omega
  case addresses => exact addresses_step hp.released h

theorem piped_step (hp : Programmed buffer_size base i) (hg : Generated buffer_size base s)
    (h : Piped buffer_size base s) : Piped buffer_size base (s.step i) := by
  cases hw : wordEnds (s.captureInput i) s.dumper with
  | true => exact piped_wordEnd hp hg h hw
  | false => exact piped_held hp hg.toRoom h hw

end Pipeline

end Pauline.DumpPath
