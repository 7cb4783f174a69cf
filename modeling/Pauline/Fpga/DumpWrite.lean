import Pauline.Fpga.DumpReturn

/-!
# What a dump writes

From the release of the channel on, the words that reach memory are the first
data words of the buffer in order, each with the samples taken up to its tick.
-/

set_option autoImplicit false

namespace Pauline.DumpPath
open Pauline.DmaMaster Pauline.FloppyDumper

variable {pop push : DumpFifo} {buffer_size base : LWord}

/-- The word of tick `n` holds the sixteen samples before that tick, the latest
in bit 0, and above them the slow bus at the tick. -/
structure Holds (samples : List (Bool × BitVec 16)) (c : Captured) : Prop where
  after : 16 ≤ c.tick
  slow : samples[c.tick]?.map Prod.snd = some (c.word.data.extractLsb' 16 16)
  fast : ∀ j < 16, samples[c.tick-1-j]?.map Prod.fst = some (c.word.data.getLsbD j)

structure Sampled (s : Dump pop push) : Prop where
  shifter : ∀ j < 16, j < s.samples.length →
    s.samples[s.samples.length-1-j]?.map Prod.fst = some (s.dumper.in_shifter_side0.getLsbD j)
  ticks : ∀ c ∈ s.captured, c.tick % 16 = 15 ∧ c.tick < s.samples.length
  words : ∀ c ∈ s.captured, Holds s.samples c
  later : s.captured.Pairwise fun a b => a.tick+16 ≤ b.tick

/-- What a word holds stays what was sampled. -/
theorem Holds.append {samples : List (Bool × BitVec 16)} {c : Captured} (h : Holds samples c)
    (hlt : c.tick < samples.length) (more : List (Bool × BitVec 16)) :
    Holds (samples ++ more) c where
  after := h.after
  slow := by
    rw [List.getElem?_append_left hlt]
    exact h.slow
  fast := by
    intro j hj
    rw [List.getElem?_append_left (by omega)]
    exact h.fast j hj

section Step
variable {i : DumpInput} {s : Dump pop push}

theorem samples_step : (s.step i).samples = s.samples ++
    if ticks (s.captureInput i) s.dumper then
      [(sample (s.captureInput i) s.dumper, i.capture.slow_capture_bus)] else [] := rfl

theorem shifter_step (hr : i.bus.reset_drives 4 = false) (h : Sampled s) :
    ∀ j < 16, j < (s.step i).samples.length →
      (s.step i).samples[(s.step i).samples.length-1-j]?.map Prod.fst =
        some ((s.step i).dumper.in_shifter_side0.getLsbD j) := by
  intro j hj hlt
  rw [step_dumper, step_in_shifter hr]
  rw [samples_step] at hlt ⊢
  split_ifs at hlt ⊢ with ht
  · rw [shiftIn_getLsbD _ _ j hj]
    cases j with
    | zero => simp
    | succ j =>
      have hlt' : j < s.samples.length := by
        simp only [List.length_append, List.length_singleton] at hlt
        omega
      rw [List.length_append, List.length_singleton, List.getElem?_append_left (by omega),
        show s.samples.length+1-1-(j+1) = s.samples.length-1-j by omega]
      exact h.shifter j (by omega) hlt'
  · simp only [List.append_nil] at hlt ⊢
    exact h.shifter j hj hlt

/-- The word handed over holds what the shifter held. -/
theorem pushed_holds (hp : Piped buffer_size base s)
    (h : Sampled s) (hpush : pushes (s.captureInput i) s.dumper = true) :
    Holds (s.step i).samples
      ⟨⟨i.capture.slow_capture_bus ++ s.dumper.in_shifter_side0, s.dumper.out_address_q2, 0⟩,
        s.samples.length⟩ := by
  obtain ⟨hw, -, hpos, -⟩ := (pushes_iff hp).mp hpush
  have hstarted : 16 ≤ s.samples.length :=
    hp.started (lt_of_lt_of_le hpos ((Nat.sub_le _ _).trans (Nat.sub_le _ _)))
  rw [samples_step, if_pos (wordEnds_ticks hw)]
  constructor
  · exact hstarted
  · rw [List.getElem?_concat_length]
    exact congrArg some BitVec.extractLsb'_append_eq_left.symm
  · intro j hj
    have hbit : (i.capture.slow_capture_bus ++ s.dumper.in_shifter_side0).getLsbD j =
        s.dumper.in_shifter_side0.getLsbD j := by
      rw [BitVec.getLsbD_append, if_pos hj]
    rw [List.getElem?_append_left (by simp; omega), hbit]
    exact h.shifter j hj (by omega)

theorem sampled_step (hr : i.bus.reset_drives 4 = false) (hp : Piped buffer_size base s)
    (h : Sampled s) : Sampled (s.step i) := by
  have hlength := samples_step_length (i := i) (s := s)
  refine ⟨shifter_step hr h, ?_, ?_, ?_⟩ <;> rw [captured_step hr]
  · intro c hc
    rcases List.mem_append.mp hc with hc | hc
    · have := h.ticks c hc
      omega
    · split_ifs at hc with hpush
      · have hw := ((pushes_iff hp).mp hpush).1
        have hcount := hp.count
        have h15 : (15 : BitVec 6).toNat = 15 := rfl
        rw [wordEnds_count hw] at hcount
        rw [if_pos (wordEnds_ticks hw)] at hlength
        rw [List.mem_singleton.mp hc]
        simp only
        omega
      · simp at hc
  · intro c hc
    rcases List.mem_append.mp hc with hc | hc
    · rw [samples_step]
      exact (h.words c hc).append (h.ticks c hc).2 _
    · split_ifs at hc with hpush
      · rw [List.mem_singleton.mp hc]
        exact pushed_holds hp h hpush
      · simp at hc
  · split_ifs with hpush
    · refine List.pairwise_append.mpr ⟨h.later, List.pairwise_singleton _ _, ?_⟩
      intro a ha b hb
      rw [List.mem_singleton.mp hb]
      -- both words end at the sixteenth tick
      have hcount := hp.count
      have h15 : (15 : BitVec 6).toNat = 15 := rfl
      rw [wordEnds_count ((pushes_iff hp).mp hpush).1] at hcount
      have := h.ticks a ha
      simp only
      omega
    · rw [List.append_nil]
      exact h.later

end Step

structure OnDump (buffer_size base : LWord) (s : Dump pop push) : Prop
    extends Generated buffer_size base s, Piped buffer_size base s, Carried s, Sampled s

theorem onDump_step (hsize : buffer_size.toNat = 4*(dataWords buffer_size+1)) {i : DumpInput}
    {s : Dump pop push} (hp : Programmed buffer_size base i) (h : OnDump buffer_size base s) :
    OnDump buffer_size base (s.step i) where
  toGenerated := generated_step hsize h.toGenerated hp fun hrq => (h.asked hrq).2.1
  toPiped := piped_step hp h.toGenerated h.toPiped
  toCarried := carried_step hp.released h.toCarried
  toSampled := sampled_step hp.released h.toPiped h.toSampled

theorem released_generated {s : Dump pop push} (h : Released buffer_size base s) :
    Generated buffer_size base s := by
  obtain ⟨hgiven, hpopped, -⟩ := h.log
  have harr : s.arrivals = [] := by simp [Dump.arrivals, h.no_word]
  have hcome : s.coming ≤ 1 := by
    unfold Dump.coming
    split_ifs <;> decide
  constructor
  case toRoom =>
    constructor <;> simp [SyncFifo.level, h.pop_empty, harr]
    omega
  case stop => exact h.stop
  case offset => simp [h.offset, hgiven]
  case address => simp [h.address, hgiven, item]
  case popped_le => omega
  case queue => simp [h.pop_empty, harr, hgiven, hpopped]
  case shown => omega

theorem released_piped {s : Dump pop push} (h : Released buffer_size base s) :
    Piped buffer_size base s := by
  obtain ⟨-, hpopped, hsamples, hcaptured, -⟩ := h.log
  obtain ⟨i, d, hd⟩ := h.dumper
  have hrequested : s.requested = 0 := by simp [Dump.requested, hpopped, hd, onReset]
  have hlatched : s.latched = 0 := by simp [Dump.latched, hrequested]
  have hpaired : s.paired = 0 := by simp [Dump.paired, hlatched]
  constructor <;>
    simp [hrequested, hlatched, hpaired, hsamples, hcaptured, hd, onReset]

theorem released_carried {s : Dump pop push} (h : Released buffer_size base s) : Carried s := by
  obtain ⟨-, -, -, hcaptured, hlost, hwritten⟩ := h.log
  obtain ⟨i, d, hd⟩ := h.dumper
  have hnot := h.not_writing
  simp only [Writing, not_and, not_or] at hnot
  have hdma : s.inDma = [] := by
    unfold Dump.inDma
    split_ifs with hd
    · obtain ⟨-, hwait, hwait2⟩ := hnot hd
      cases hm : s.master.state_master_register <;> simp_all
    · rfl
  have hback : s.arrivingBack = [] := by simp [Dump.arrivingBack, hd, onReset]
  constructor
  case writes =>
    intro hd
    exact ⟨fun hc => absurd hd (h.no_write hc), fun hc => absurd hc (hnot hd).2.2⟩
  case requests =>
    rw [h.no_request]
    exact ⟨fun hc => absurd hc Bool.false_ne_true, fun hc => absurd hc.2 (hnot hc.1).1⟩
  case requested => simp [h.no_request]
  case due => exact fun _ hempty hx => absurd hx (h.no_write_due hempty)
  case delivery =>
    simpa [Dump.capturedPairs, Dump.underway, hcaptured, hwritten, hdma, h.push_empty, hback, hlost]
      using Delivery.nil

theorem released_onDump {s : Dump pop push} (h : Released buffer_size base s) :
    OnDump buffer_size base s where
  toGenerated := released_generated h
  toPiped := released_piped h
  toCarried := released_carried h
  toSampled := by
    obtain ⟨-, -, hsamples, hcaptured, -⟩ := h.log
    constructor <;> simp [hsamples, hcaptured]

/-- Every run from the release of the channel. -/
theorem run_onDump (hsize : buffer_size.toNat = 4*(dataWords buffer_size+1))
    {s t : Dump pop push} (h : Released buffer_size base s)
    (hrun : Clocked.Reach Dump.step (fun i _ => Programmed buffer_size base i) s t) :
    OnDump buffer_size base t :=
  hrun.invariant (OnDump buffer_size base) (released_onDump h) fun _ _ hp => onDump_step hsize hp

theorem size_eq (hmod : buffer_size.toNat % 4 = 0) (hmin : 8 ≤ buffer_size.toNat) :
    buffer_size.toNat = 4*(dataWords buffer_size+1) := by
  unfold dataWords
  omega

end Pauline.DumpPath
