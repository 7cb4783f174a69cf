import Pauline.Library.Clocked
import Pauline.Fpga.DmaMaster

/-!
# Read commands and their words

The bus keeps what the slave has accepted and not yet returned. The master does
not: it counts words down and takes every valid one for its current burst.
-/

set_option autoImplicit false

namespace Pauline.AvalonRead
open Pauline.DmaMaster

structure Command where
  channel : Channel
  address : LWord
  words : BitVec 8

structure Beat where
  command : ℕ
  channel : Channel
  burst : LWord
  word : LWord

def Command.beats (c : Command) (number : ℕ) : List Beat :=
  (List.range c.words.toNat).map fun k => ⟨number, c.channel, c.address, c.address+4*BitVec.ofNat 32 k⟩

structure Bus where
  master : Master
  outstanding : List Beat
  commands : List Command
  bursts : ℕ

def Bus.reset : Bus := ⟨Master.reset, [], [], 0⟩

def Bus.command (s : Bus) : Command :=
  ⟨s.master.drive_index, s.master.busaddress, s.master.avm_m1_burstcount⟩

def accepts (i : Input) (s : Bus) : Bool := s.master.avm_m1_read && !i.avm_m1_waitrequest

def entersBurst (i : Input) (s : Bus) : Bool :=
  s.master.state_master_register = .wait_read && s.master.drive_index != 4 &&
    (step i s.master).state_master_register = .wait_read2

def Bus.step (i : Input) (s : Bus) : Bus where
  master := DmaMaster.step i s.master
  outstanding :=
    (if i.avm_m1_readdatavalid then s.outstanding.tail else s.outstanding) ++
      if accepts i s then s.command.beats s.commands.length else []
  commands := if accepts i s then s.commands ++ [s.command] else s.commands
  bursts := if entersBurst i s then s.bursts+1 else s.bursts

structure Legal (i : Input) (s : Bus) : Prop where
  in_order : i.avm_m1_readdatavalid = true → s.outstanding ≠ []

structure Consistent (s : Bus) : Prop where
  counted : s.commands.length = s.bursts
  attributed : ∀ b ∈ s.outstanding, s.master.state_master_register = .wait_read2 ∧
    b.command+1 = s.bursts ∧ b.channel = s.master.drive_index ∧ b.burst = s.master.busaddress

/-- The clocks at which the protocol is kept. The read line is high once more
after a command was accepted, or withdrawn by a reset: the slave must not accept
it there. A channel must not be reset in the clock its command is accepted, and
a burst must not be left while words are owed. -/
structure Keeps (i : Input) (s : Bus) : Prop where
  not_again : s.master.state_master_register ≠ .wait_read → accepts i s = false
  not_dropped : s.master.state_master_register = .wait_read → accepts i s = true →
    i.reset_drives s.master.drive_index = false
  not_left : s.master.state_master_register = .wait_read2 →
    i.reset_drives s.master.drive_index = true ∨
      i.avm_m1_readdatavalid = true ∧ s.master.done_q s.master.drive_index = true →
    s.outstanding.length ≤ if i.avm_m1_readdatavalid then 1 else 0

/-- The size register is not written so that a command that goes on waiting
would be for another number of words. -/
def Steady (i : Input) (s : Bus) : Prop :=
  s.master.state_master_register = .wait_read → s.master.drive_index ≠ 4 →
  i.reset_drives s.master.drive_index = false → accepts i s = false →
  burstLast (s.master.address_offsets s.master.drive_index)
      (stopAddress (i.images_track_size s.master.drive_index)) =
    burstLast (s.master.address_offsets s.master.drive_index)
      (s.master.dma_stop_address s.master.drive_index)

def Presented (s : Bus) : Prop :=
  s.master.state_master_register = .wait_read → s.master.avm_m1_read = true →
    s.master.busaddress = s.master.drv_cur_track_address s.master.drive_index ∧
    s.master.burst_count = burstLast (s.master.address_offsets s.master.drive_index)
      (s.master.dma_stop_address s.master.drive_index) ∧
    s.master.avm_m1_burstcount = s.master.burst_count+1

structure Orderly (s : Bus) : Prop extends Consistent s where
  raised : s.master.state_master_register = .wait_read →
    s.master.avm_m1_read = (s.master.read_wrrq_delay && s.master.drive_index != 4)
  presented : Presented s
  lowered : s.master.avm_m1_read = true → s.master.state_master_register = .wait_read ∨
    s.master.state_master_register = .wait_read2 ∨ s.master.state_master_register = .idle
  dumper : s.master.state_master_register = .wait_read2 → s.master.drive_index = 4 →
    s.master.avm_m1_read = false ∧ s.outstanding = []
  owed : s.master.state_master_register = .wait_read2 → s.master.drive_index ≠ 4 →
    s.outstanding.length = (s.master.burst_count+1).toNat

theorem Command.beats_length (c : Command) (number : ℕ) :
    (c.beats number).length = c.words.toNat := by
  simp [Command.beats]

theorem reset_orderly : Orderly Bus.reset where
  counted := rfl
  attributed := by simp [Bus.reset]
  raised := by simp [Bus.reset, Master.reset]
  presented := by simp [Presented, Bus.reset, Master.reset]
  lowered := by simp [Bus.reset, Master.reset]
  dumper := by simp [Bus.reset, Master.reset]
  owed := by simp [Bus.reset, Master.reset]

section Step
variable {i : Input} {s : Bus}

theorem Consistent.quiet (h : Consistent s)
    (hs : s.master.state_master_register ≠ .wait_read2) : s.outstanding = [] := by
  apply List.eq_nil_iff_forall_not_mem.mpr
  intro b hb
  exact hs (h.attributed b hb).1

theorem Legal.silent (h : Legal i s) (hs : s.outstanding = []) :
    i.avm_m1_readdatavalid = false := by
  by_contra hv
  exact h.in_order (by simpa using hv) hs

theorem not_consistent_of_extra (h : Consistent s) (ha : accepts i s = true)
    (hb : entersBurst i s = false) : ¬Consistent (s.step i) := by
  intro h'
  have hc := h'.counted
  simp only [Bus.step, ha, hb, if_true, List.length_append, List.length_singleton] at hc
  have := h.counted
  simp at hc
  omega

theorem entersBurst_only (hs : s.master.state_master_register ≠ .wait_read) :
    entersBurst i s = false := by
  simp [entersBurst, hs]

theorem keeps_iff_quiet (h : Orderly s) (hl : Legal i s)
    (h1 : s.master.state_master_register ≠ .wait_read)
    (h2 : s.master.state_master_register ≠ .wait_read2) : Consistent (s.step i) ↔ Keeps i s := by
  have hq := h.quiet h2
  have hv := hl.silent hq
  cases ha : accepts i s with
  | true =>
    have hbad := not_consistent_of_extra h.toConsistent ha (entersBurst_only h1)
    refine ⟨fun hc => absurd hc hbad, fun hk => ?_⟩
    rw [hk.not_again h1] at ha
    exact absurd ha Bool.false_ne_true
  | false =>
    refine ⟨fun _ => ⟨fun _ => ha, fun hr => absurd hr h1, fun hr => absurd hr h2⟩, fun _ => ?_⟩
    constructor
    · simp [Bus.step, ha, entersBurst_only h1, h.counted]
    · simp [Bus.step, ha, hv, hq]

theorem entersBurst_iff (h : Orderly s) (h1 : s.master.state_master_register = .wait_read) :
    entersBurst i s = (accepts i s && !i.reset_drives s.master.drive_index) := by
  have hr := h.raised h1
  have hb := (step_bus i s.master).state_master_register
  rw [h1] at hb
  by_cases h4 : s.master.drive_index = 4
  · simp [entersBurst, accepts, hr, h4]
  · simp only [entersBurst, accepts, hr, hb, h1]
    cases i.reset_drives s.master.drive_index <;> cases s.master.read_wrrq_delay <;>
      cases i.avm_m1_waitrequest <;> simp [h4]

theorem keeps_iff_waiting (h : Orderly s) (hl : Legal i s)
    (h1 : s.master.state_master_register = .wait_read) : Consistent (s.step i) ↔ Keeps i s := by
  have hq := h.quiet (by rw [h1]; decide)
  have hv := hl.silent hq
  have hb := entersBurst_iff (i := i) h h1
  cases ha : accepts i s with
  | true =>
    cases hr : i.reset_drives s.master.drive_index with
    | true =>
      rw [ha, hr] at hb
      have hbad := not_consistent_of_extra h.toConsistent ha hb
      refine ⟨fun hc => absurd hc hbad, fun hk => ?_⟩
      rw [hk.not_dropped h1 ha] at hr
      exact absurd hr Bool.false_ne_true
    | false =>
      rw [ha, hr] at hb
      refine ⟨fun _ => ⟨fun hn => absurd h1 hn, fun _ _ => hr, fun h2 => ?_⟩, fun _ => ?_⟩
      · rw [h1] at h2
        exact absurd h2 (by decide)
      have hread : s.master.avm_m1_read = true := by
        simp only [accepts, Bool.and_eq_true] at ha
        exact ha.1
      have hnext : (DmaMaster.step i s.master).state_master_register = .wait_read2 := by
        simp only [entersBurst] at hb
        simp_all
      have hdrive := (step_bus i s.master).drive_index
      have haddr := (step_bus i s.master).busaddress
      rw [h1] at hdrive haddr
      constructor
      · simp [Bus.step, ha, hb, h.counted]
      · intro b hmem
        simp only [Bus.step, ha, hb, hv, hq, Command.beats, Bus.command, List.nil_append, if_true,
          Bool.false_eq_true, if_false, List.mem_map] at hmem ⊢
        obtain ⟨k, -, rfl⟩ := hmem
        exact ⟨hnext, by simp [h.counted], hdrive.symm, by rw [haddr, (h.presented h1 hread).1]⟩
  | false =>
    rw [ha] at hb
    refine ⟨fun _ => ⟨fun hn => absurd h1 hn, fun _ hc => ?_, fun h2 => ?_⟩, fun _ => ?_⟩
    · rw [ha] at hc
      exact absurd hc Bool.false_ne_true
    · rw [h1] at h2
      exact absurd h2 (by decide)
    · constructor
      · simpa [Bus.step, ha, hb] using h.counted
      · simp [Bus.step, ha, hv, hq]

theorem reading_next (h2 : s.master.state_master_register = .wait_read2)
    (h4 : s.master.drive_index ≠ 4) :
    (DmaMaster.step i s.master).state_master_register =
      if i.reset_drives s.master.drive_index ∨ i.avm_m1_readdatavalid ∧
        (s.master.burst_count = 0 ∨ s.master.done_q s.master.drive_index) then .idle
      else .wait_read2 := by
  have hb := (step_bus i s.master).state_master_register
  rw [h2] at hb
  rw [hb]
  cases i.reset_drives s.master.drive_index <;> simp [takes, h2, h4]

theorem owed_last (h : Orderly s)
    (h2 : s.master.state_master_register = .wait_read2) (h4 : s.master.drive_index ≠ 4)
    (hz : s.master.burst_count = 0) : s.outstanding.length = 1 := by
  rw [h.owed h2 h4, hz]
  rfl

theorem outstanding_reading (ha : accepts i s = false) : (s.step i).outstanding =
    if i.avm_m1_readdatavalid then s.outstanding.tail else s.outstanding := by
  simp [Bus.step, ha]

/-- While a burst is read and no command is accepted, the bursts match the words owed
as long as the master stays or nothing is owed. -/
theorem consistent_iff_stays (h : Orderly s) (h2 : s.master.state_master_register = .wait_read2)
    (ha : accepts i s = false) : Consistent (s.step i) ↔ (s.step i).outstanding = [] ∨
      (DmaMaster.step i s.master).state_master_register = .wait_read2 := by
  have hb : entersBurst i s = false := entersBurst_only (by rw [h2]; decide)
  have hdrive := (step_bus i s.master).drive_index
  have haddr := (step_bus i s.master).busaddress
  rw [h2] at hdrive haddr
  have hsub : ∀ b ∈ (s.step i).outstanding, b ∈ s.outstanding := by
    intro b hmem
    rw [outstanding_reading ha] at hmem
    split_ifs at hmem
    · exact List.mem_of_mem_tail hmem
    · exact hmem
  constructor
  · intro hc
    by_cases hne : (s.step i).outstanding = []
    · exact Or.inl hne
    · obtain ⟨b, hmem⟩ := List.exists_mem_of_ne_nil _ hne
      exact Or.inr (hc.attributed b hmem).1
  · intro hstay
    constructor
    · simpa [Bus.step, ha, hb] using h.counted
    · intro b hmem
      obtain ⟨-, hnum, hch, hbu⟩ := h.attributed b (hsub b hmem)
      rcases hstay with hnil | hstay
      · rw [hnil] at hmem
        exact absurd hmem List.not_mem_nil
      · refine ⟨hstay, by simpa [Bus.step, hb] using hnum, ?_, ?_⟩
        · rw [hch]
          exact hdrive.symm
        · rw [hbu]
          exact haddr.symm

theorem keeps_iff_not_left (h2 : s.master.state_master_register = .wait_read2)
    (ha : accepts i s = false) : Keeps i s ↔ (i.reset_drives s.master.drive_index = true ∨
      i.avm_m1_readdatavalid = true ∧ s.master.done_q s.master.drive_index = true →
      s.outstanding.length ≤ if i.avm_m1_readdatavalid then 1 else 0) := by
  refine ⟨fun hk => hk.not_left h2, fun hk => ⟨fun _ => ha, fun h1 => ?_, fun _ => hk⟩⟩
  rw [h2] at h1
  exact absurd h1 (by decide)

theorem keeps_iff_reading (h : Orderly s) (h2 : s.master.state_master_register = .wait_read2) :
    Consistent (s.step i) ↔ Keeps i s := by
  cases ha : accepts i s with
  | true =>
    have hb : entersBurst i s = false := entersBurst_only (by rw [h2]; decide)
    have hbad := not_consistent_of_extra h.toConsistent ha hb
    refine ⟨fun hc => absurd hc hbad, fun hk => ?_⟩
    rw [hk.not_again (by rw [h2]; decide)] at ha
    exact absurd ha Bool.false_ne_true
  | false =>
    have hlen : (s.step i).outstanding = [] ↔
        s.outstanding.length ≤ if i.avm_m1_readdatavalid then 1 else 0 := by
      rw [outstanding_reading ha]
      cases s.outstanding <;> cases i.avm_m1_readdatavalid <;> simp
    rw [consistent_iff_stays h h2 ha, hlen, keeps_iff_not_left h2 ha]
    by_cases h4 : s.master.drive_index = 4
    · simp [(h.dumper h2 h4).2]
    · rw [reading_next h2 h4]
      -- a burst that has counted down to its end owes one word
      have hone := owed_last h h2 h4
      cases i.reset_drives s.master.drive_index <;> cases i.avm_m1_readdatavalid <;>
        by_cases hz : s.master.burst_count = 0 <;>
        cases s.master.done_q s.master.drive_index <;> simp_all

theorem keeps_iff (h : Orderly s) (hl : Legal i s) : Consistent (s.step i) ↔ Keeps i s := by
  by_cases h1 : s.master.state_master_register = .wait_read
  · exact keeps_iff_waiting h hl h1
  · by_cases h2 : s.master.state_master_register = .wait_read2
    · exact keeps_iff_reading h h2
    · exact keeps_iff_quiet h hl h1 h2

/-- A clock that ends in the first read state began in it or left idle. -/
theorem waiting_before (h1 : (DmaMaster.step i s.master).state_master_register = .wait_read) :
    s.master.state_master_register = .idle ∨ s.master.state_master_register = .wait_read ∧
      i.reset_drives s.master.drive_index = false := by
  have hb := (step_bus i s.master).state_master_register
  rw [h1] at hb
  cases hs : s.master.state_master_register <;> rw [hs] at hb <;> simp only at hb
  case idle => exact Or.inl rfl
  case wait_read =>
    cases hr : i.reset_drives s.master.drive_index with
    | false => exact Or.inr ⟨rfl, rfl⟩
    | true => simp [hr] at hb
  all_goals first | cases hb | split_ifs at hb

/-- A clock that ends in the second read state began in one of the two. -/
theorem reading_before (h2 : (DmaMaster.step i s.master).state_master_register = .wait_read2) :
    (DmaMaster.step i s.master).drive_index = s.master.drive_index ∧
    (s.master.state_master_register = .wait_read ∨
      s.master.state_master_register = .wait_read2 ∧ s.master.drive_index ≠ 4) := by
  have hb := (step_bus i s.master).state_master_register
  have hd := (step_bus i s.master).drive_index
  rw [h2] at hb
  cases hs : s.master.state_master_register <;> rw [hs] at hb hd <;> simp only at hb hd
  case wait_read => exact ⟨hd, Or.inl rfl⟩
  case wait_read2 =>
    refine ⟨hd, Or.inr ⟨rfl, fun h4 => ?_⟩⟩
    simp [takes, hs, h4] at hb
  all_goals first | cases hb | split_ifs at hb

structure Waited (i : Input) (s t : Bus) : Prop where
  drive_index : t.master.drive_index = s.master.drive_index
  read : t.master.avm_m1_read = (s.master.drive_index != 4)
  busaddress : t.master.busaddress = s.master.drv_cur_track_address s.master.drive_index
  burst_count : t.master.burst_count = burstLast (s.master.address_offsets s.master.drive_index)
    (s.master.dma_stop_address s.master.drive_index)
  burstcount : t.master.avm_m1_burstcount = t.master.burst_count+1
  stop : t.master.dma_stop_address s.master.drive_index =
    stopAddress (i.images_track_size s.master.drive_index)
  address : i.reset_drives s.master.drive_index = false →
    t.master.drv_cur_track_address s.master.drive_index =
      s.master.drv_cur_track_address s.master.drive_index
  offset : i.reset_drives s.master.drive_index = false →
    t.master.address_offsets s.master.drive_index = s.master.address_offsets s.master.drive_index

theorem waited (hs : s.master.state_master_register = .wait_read) : Waited i s (s.step i) := by
  have hb := step_bus i s.master
  have hc := step_channel i s.master s.master.drive_index
  have hnot : takes i s.master s.master.drive_index = false := by simp [takes, hs]
  have hread := hb.avm_m1_read
  have hdrive := hb.drive_index
  have haddr := hb.busaddress
  have hlast := hb.burst_count
  have hcount := hb.avm_m1_burstcount
  rw [hs] at hread hdrive haddr hlast hcount
  refine ⟨hdrive,hread,haddr,hlast,?_,hc.dma_stop_address,fun hreset => ?_,fun hreset => ?_⟩
  · change (DmaMaster.step i s.master).avm_m1_burstcount = (DmaMaster.step i s.master).burst_count+1
    rw [hlast, hcount]
  · simpa [hreset, hnot, Bus.step] using hc.drv_cur_track_address
  · simpa [hreset, hnot, Bus.step] using hc.address_offsets

theorem waits_iff (h : Orderly s) (hs : s.master.state_master_register = .wait_read)
    (h4 : s.master.drive_index ≠ 4) :
    (s.step i).master.state_master_register = .wait_read ↔
      i.reset_drives s.master.drive_index = false ∧ accepts i s = false := by
  have hnext := (step_bus i s.master).state_master_register
  rw [hs] at hnext
  change (DmaMaster.step i s.master).state_master_register = _ ↔ _
  rw [hnext]
  cases i.reset_drives s.master.drive_index <;> cases hd : s.master.read_wrrq_delay <;>
    cases hw : i.avm_m1_waitrequest <;> simp [accepts, h.raised hs, h4, hd, hw]

/-- A command that is put on the bus, or goes on waiting there, stays the one
whose words will be counted exactly where its length is left alone. -/
theorem presented_iff (h : Orderly s) : Presented (s.step i) ↔ Steady i s := by
  by_cases hs : s.master.state_master_register = .wait_read
  · have hw : Waited i s (s.step i) := waited hs
    by_cases h4 : s.master.drive_index = 4
    · have hlow : (s.step i).master.avm_m1_read = false := by simp [hw.read, h4]
      exact ⟨fun _ _ hne => absurd h4 hne,fun _ _ hr => absurd (hlow.symm.trans hr) Bool.noConfusion⟩
    · have hhigh : (s.step i).master.avm_m1_read = true := by simp [hw.read, h4]
      constructor
      · intro hp _ _ hreset ha
        have hlength := (hp ((waits_iff h hs h4).mpr ⟨hreset,ha⟩) hhigh).2.1
        rw [hw.drive_index, hw.burst_count, hw.offset hreset, hw.stop] at hlength
        exact hlength.symm
      · intro hsteady hwaits _
        obtain ⟨hreset, ha⟩ := (waits_iff h hs h4).mp hwaits
        rw [hw.drive_index, hw.address hreset, hw.offset hreset, hw.stop]
        exact ⟨hw.busaddress,hw.burst_count.trans (hsteady hs h4 hreset ha).symm,hw.burstcount⟩
  · refine ⟨fun _ hw => absurd hw hs,fun _ _ hr => ?_⟩
    have hread := (step_bus i s.master).avm_m1_read
    change (DmaMaster.step i s.master).avm_m1_read = true at hr
    simp [hread, hs] at hr

theorem dumper_step (h : Orderly s) (h2 : (s.step i).master.state_master_register = .wait_read2)
    (h4 : (s.step i).master.drive_index = 4) :
    (s.step i).master.avm_m1_read = false ∧ (s.step i).outstanding = [] := by
  obtain ⟨hdrive, hs⟩ := reading_before h2
  change (DmaMaster.step i s.master).drive_index = 4 at h4
  rw [hdrive] at h4
  rcases hs with hs | ⟨-, hne⟩
  · have hread := (step_bus i s.master).avm_m1_read
    have hq := h.quiet (by rw [hs]; decide)
    have ha : accepts i s = false := by simp [accepts, h.raised hs, h4]
    refine ⟨?_, ?_⟩
    · change (DmaMaster.step i s.master).avm_m1_read = false
      simp [hread, h4]
    · simp [Bus.step, ha, hq]
  · exact absurd h4 hne

theorem owed_accepted (h : Orderly s) (hl : Legal i s)
    (hs : s.master.state_master_register = .wait_read) (h4 : s.master.drive_index ≠ 4)
    (h2 : (s.step i).master.state_master_register = .wait_read2) :
    (s.step i).outstanding.length = ((s.step i).master.burst_count+1).toNat := by
  have hlast := (step_bus i s.master).burst_count
  change _ = ((DmaMaster.step i s.master).burst_count+1).toNat
  have hq := h.quiet (by rw [hs]; decide)
  have hv := hl.silent hq
  have hb := entersBurst_iff (i := i) h hs
  have ha : accepts i s = true := by
    have : entersBurst i s = true := by
      change (DmaMaster.step i s.master).state_master_register = .wait_read2 at h2
      simp [entersBurst, hs, h4, h2]
    rw [this] at hb
    simp_all
  have hread : s.master.avm_m1_read = true := by
    simp only [accepts, Bool.and_eq_true] at ha
    exact ha.1
  obtain ⟨-, hbc, hcount⟩ := h.presented hs hread
  rw [hs] at hlast
  simp only at hlast
  rw [hlast, ← hbc, ← hcount]
  simp [Bus.step, ha, hv, hq, Command.beats_length, Bus.command]

theorem owed_counted (h : Orderly s) (hl : Legal i s) (hk : Keeps i s)
    (hs : s.master.state_master_register = .wait_read2) (h4 : s.master.drive_index ≠ 4) :
    (s.step i).outstanding.length = ((s.step i).master.burst_count+1).toNat := by
  have hlast := (step_bus i s.master).burst_count
  change _ = ((DmaMaster.step i s.master).burst_count+1).toNat
  have ha := hk.not_again (by rw [hs]; decide)
  have howed := h.owed hs h4
  rw [hs] at hlast
  simp only at hlast
  cases hv : i.avm_m1_readdatavalid with
  | false =>
    have hnot : takes i s.master s.master.drive_index = false := by simp [takes, hv, h4]
    simpa [Bus.step, ha, hv, hlast, hnot] using howed
  | true =>
    have htake : takes i s.master s.master.drive_index = true := by simp [takes, hv, hs]
    have hne := hl.in_order hv
    have hpos := List.length_pos_of_ne_nil hne
    simp only [Bus.step, ha, hv, hlast, htake, if_true, Bool.false_eq_true, if_false,
      List.append_nil, List.length_tail, BitVec.sub_add_cancel, howed]
    rw [howed] at hpos
    bv_omega

theorem lowered_step (hr : (s.step i).master.avm_m1_read = true) :
    (s.step i).master.state_master_register = .wait_read ∨
      (s.step i).master.state_master_register = .wait_read2 ∨
      (s.step i).master.state_master_register = .idle := by
  have hread := (step_bus i s.master).avm_m1_read
  have hs : s.master.state_master_register = .wait_read := by
    change (DmaMaster.step i s.master).avm_m1_read = true at hr
    simp_all
  change (DmaMaster.step i s.master).state_master_register = _ ∨ _
  have hb := (step_bus i s.master).state_master_register
  rw [hs] at hb
  simp only at hb
  split_ifs at hb
  · exact Or.inr (Or.inr hb)
  · exact Or.inr (Or.inl hb)
  · exact Or.inl hb

theorem orderly_step (h : Orderly s) (hl : Legal i s) (hk : Keeps i s) (hsteady : Steady i s) :
    Orderly (s.step i) where
  toConsistent := (keeps_iff h hl).mpr hk
  raised h1 := by
    have hb := step_bus i s.master
    have hread := hb.avm_m1_read
    have hdelay := hb.read_wrrq_delay
    have hdrive := hb.drive_index
    change (DmaMaster.step i s.master).avm_m1_read = _
    rcases waiting_before h1 with hs | ⟨hs, -⟩ <;> rw [hs] at hread hdelay hdrive
    · simp [Bus.step, hread, hdelay]
    · simp only [Bus.step, hread, hdelay, hdrive]
      simp
  presented := (presented_iff h).mpr hsteady
  lowered := lowered_step
  dumper h2 h4 := dumper_step h h2 h4
  owed h2 h4 := by
    obtain ⟨hdrive, hs⟩ := reading_before h2
    change (DmaMaster.step i s.master).drive_index ≠ 4 at h4
    rw [hdrive] at h4
    rcases hs with hs | ⟨hs, -⟩
    · exact owed_accepted h hl hs h4 h2
    · exact owed_counted h hl hk hs h4

def Stable (s : Bus) : Prop :=
  s.master.avm_m1_read = true → ∀ i : Input,
    (s.step i).master.busaddress = s.master.busaddress ∧
    (s.step i).master.avm_m1_burstcount = s.master.avm_m1_burstcount

theorem stable_of_presented (h : Presented s)
    (hlow : s.master.avm_m1_read = true → s.master.state_master_register = .wait_read ∨ s.master.state_master_register = .wait_read2 ∨ s.master.state_master_register = .idle)
    : Stable s := by
  intro hr i
  have haddr := (step_bus i s.master).busaddress
  have hcount := (step_bus i s.master).avm_m1_burstcount
  rcases hlow hr with hs | hs | hs <;> rw [hs] at haddr hcount
  · obtain ⟨hcur, hbc, hbcount⟩ := h hs hr
    exact ⟨haddr.trans hcur.symm, by rw [hbcount, hbc]; exact hcount⟩
  · exact ⟨haddr, hcount⟩
  · exact ⟨haddr, hcount⟩

/-- Where the size register changes the length of a waiting command, the command
on the bus changes with the next edge. -/
theorem stable_iff (h : Orderly s) : Stable (s.step i) ↔ Steady i s := by
  refine ⟨fun hstable => ?_,
    fun hsteady => stable_of_presented ((presented_iff h).mpr hsteady) lowered_step⟩
  intro hs h4 hreset ha
  have hw : Waited i s (s.step i) := waited hs
  have hwaits := (waits_iff h hs h4).mpr ⟨hreset,ha⟩
  have hlength := (hstable (by simp [hw.read, h4]) i).2
  rw [hw.burstcount, (waited hwaits).burstcount, add_left_inj, (waited hwaits).burst_count,
    hw.burst_count, hw.drive_index, hw.offset hreset, hw.stop] at hlength
  exact hlength

end Step

structure Consumed (i : Input) (s : Bus) (b : Beat) : Prop where
  taken : takes i s.master b.channel = true
  current : b.command+1 = s.bursts
  burst : b.burst = s.master.busaddress

theorem consumed_head {i : Input} {s : Bus} (h : Orderly s) (hv : i.avm_m1_readdatavalid = true) (b : Beat)
    (hb : b ∈ s.outstanding) : Consumed i s b := by
  obtain ⟨hs, hnum, hch, hbu⟩ := h.attributed b hb
  exact ⟨by simp [takes, hs, hch, hv], hnum, hbu⟩

/-- As long as the protocol is kept and no size register is written under a
waiting command, commands and bursts are matched, a waiting command is stable and
every word returned is consumed by its burst. The first clock that breaks the one
ends the match, the first one that breaks the other changes a command on the bus. -/
theorem reads_matched (s : Bus)
    (h : Clocked.Reach Bus.step (fun i s => Legal i s ∧ Keeps i s ∧ Steady i s) Bus.reset s) :
    Consistent s ∧ Stable s ∧ ∀ i, Legal i s →
      (i.avm_m1_readdatavalid = true → ∃ b rest, s.outstanding = b::rest ∧ Consumed i s b) ∧
      (Consistent (s.step i) ↔ Keeps i s) ∧ (Stable (s.step i) ↔ Steady i s) := by
  have ho : Orderly s := h.invariant Orderly reset_orderly
    (fun i s hi hs => orderly_step hs hi.1 hi.2.1 hi.2.2)
  refine ⟨ho.toConsistent,stable_of_presented ho.presented ho.lowered,fun i hl => ?_⟩
  refine ⟨fun hv => ?_,keeps_iff ho hl,stable_iff ho⟩
  obtain ⟨b, rest, hout⟩ := List.exists_cons_of_ne_nil (hl.in_order hv)
  exact ⟨b, rest, hout, consumed_head ho hv b (by simp [hout])⟩

def soleInput (avm_m1_waitrequest avm_m1_readdatavalid : Bool) : Input where
  avm_m1_readdata := 0
  avm_m1_waitrequest := avm_m1_waitrequest
  avm_m1_readdatavalid := avm_m1_readdatavalid
  images_base_address _ := 0
  images_track_size _ := 520
  drv_cur_track_base_address _ := 0
  enable_drives d := d = 0
  continuous_mode _ := true
  pop_fifo_almostfull _ := false
  push_fifo_empty _ := true
  push_fifo_out_data _ := 0
  push_fifo_out_address _ := 0
  reset_drives _ := false

instance (i : Input) (s : Bus) : Decidable (Steady i s) :=
  inferInstanceAs (Decidable (_ → _ → _ → _ → _ = _))

instance (i : Input) (s : Bus) : Decidable (Legal i s) :=
  decidable_of_iff (i.avm_m1_readdatavalid = true → s.outstanding.isEmpty = false)
    ⟨fun h => ⟨fun hv => by simpa using h hv⟩,fun h hv => by simpa using h.in_order hv⟩

instance (i : Input) (s : Bus) : Decidable (Keeps i s) :=
  decidable_of_iff
    ((s.master.state_master_register ≠ .wait_read → accepts i s = false) ∧
      (s.master.state_master_register = .wait_read → accepts i s = true →
        i.reset_drives s.master.drive_index = false) ∧
      (s.master.state_master_register = .wait_read2 →
        i.reset_drives s.master.drive_index = true ∨
          i.avm_m1_readdatavalid = true ∧ s.master.done_q s.master.drive_index = true →
        s.outstanding.length ≤ if i.avm_m1_readdatavalid then 1 else 0))
    ⟨fun h => ⟨h.1,h.2.1,h.2.2⟩,fun h => ⟨h.not_again,h.not_dropped,h.not_left⟩⟩

/-- The first command waits for two clocks; after it is accepted the slave waits
once, and returns its first words with a gap between them. -/
def firstBurst : List Input :=
  [soleInput true false,soleInput true false,soleInput true false,soleInput true false,
    soleInput true false,soleInput false false,soleInput true false,soleInput false true,
    soleInput false false,soleInput false true]

def inBurst : Bus := firstBurst.foldl (fun s i => s.step i) Bus.reset

theorem reads_matched_inBurst :
    (inBurst.commands.length = 1 ∧ inBurst.bursts = 1 ∧ inBurst.outstanding.length = 126) ∧
    Consistent inBurst ∧ ∃ b rest, inBurst.outstanding = b::rest ∧
      Consumed (soleInput false true) inBurst b := by
  have h := reads_matched inBurst (Clocked.Reach.along firstBurst _ (by decide +kernel))
  exact ⟨by decide +kernel,h.1,(h.2.2 (soleInput false true) (by decide +kernel)).1 rfl⟩

/-- A slave that never waits accepts the first command twice. -/
theorem read_accepted_twice : ∃ s,
    Clocked.Reach Bus.step (fun i s => Legal i s ∧ Steady i s) Bus.reset s ∧
    s.commands.length = 2 ∧ s.bursts = 1 :=
  ⟨(List.replicate 5 (soleInput false false)).foldl (fun s i => s.step i) Bus.reset,
    Clocked.Reach.along _ _ (by decide +kernel),by decide +kernel,by decide +kernel⟩

end Pauline.AvalonRead
