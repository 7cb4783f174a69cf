import Pauline.Fpga.AvalonRead
import Pauline.Fpga.LoneChannel

/-!
# Feeding a track

The words of a track in continuous mode, as they go to the pop fifo of a drive:
the label is the master's own address, the data is what the slave read.
-/

set_option autoImplicit false

namespace Pauline.TrackFeed
open Pauline.DmaMaster Pauline.AvalonRead

structure FeedInput extends Input where
  memory : LWord → LWord

structure Pushed where
  address : LWord
  data : LWord
  memory : LWord → LWord

structure Feed where
  bus : Bus
  pushed : Channel → List Pushed

def Feed.reset : Feed := ⟨Bus.reset, fun _ => []⟩

def Feed.step (i : FeedInput) (s : Feed) : Feed where
  bus := s.bus.step i.toInput
  pushed d :=
    (if i.reset_drives d then [] else s.pushed d) ++
      if (s.bus.step i.toInput).master.pop_fifo_in_wr d then
        [⟨(s.bus.step i.toInput).master.pop_fifo_in_address d,
          (s.bus.step i.toInput).master.pop_fifo_in_data d, i.memory⟩]
      else []

/-- The slave reads the word it owes, accepts each command once, no burst is left
while its words come in, and no size register is written under a waiting command.
The track of channel `d` stays where it is. -/
structure Allowed (size : LWord) (d : Channel) (base : LWord)
    (i : FeedInput) (s : Feed) : Prop where
  legal : Legal i.toInput s.bus
  keeps : Keeps i.toInput s.bus
  steady : Steady i.toInput s.bus
  size : i.images_track_size d = size
  read : ∀ b rest, s.bus.outstanding = b::rest → i.avm_m1_readdatavalid = true →
    i.avm_m1_readdata = i.memory b.word
  unbroken : s.bus.master.state_master_register = .wait_read2 →
    i.reset_drives s.bus.master.drive_index = false
  image : i.images_base_address d = base
  track : i.drv_cur_track_base_address d = base
  continuous : i.continuous_mode d = true

def Started (size : LWord) (d : Channel) (base : LWord) (s : Feed) : Prop :=
  ∃ i : FeedInput, Allowed size d base i Feed.reset ∧ i.reset_drives d = true ∧
    s = Feed.reset.step i

structure BurstInside (base : LWord) (size : ℕ) (c : Command) : Prop where
  some_word : 1 ≤ c.words.toNat
  at_most : c.words.toNat ≤ 128
  inside : (c.address-base).toNat + 4*c.words.toNat ≤ size

structure Fed (d : Channel) (base : LWord) (size : ℕ) (s : Feed) : Prop where
  labelled : ∀ k p, (s.pushed d)[k]? = some p →
    p.address = base + BitVec.ofNat 32 (4*(k % (size/4))) ∧ p.data = p.memory p.address
  bursts : ∀ c ∈ s.bus.commands, c.channel = d → BurstInside base size c

section Arithmetic

theorem burstField_toNat (stop : LWord) : (burstField stop).toNat = (stop-512).toNat/4 % 256 := by
  simp [burstField, BitVec.extractLsb'_toNat, Nat.shiftRight_eq_div_pow]

theorem burstLast_toNat (size o : LWord) (h : 516 < size.toNat) :
    (burstLast o (stopAddress size)).toNat =
      if o.toNat < size.toNat-516 then 127 else (size.toNat-516)/4 % 256 := by
  have hs := stopAddress_toNat size (by omega)
  have hd : (stopAddress size-512).toNat = size.toNat-516 := by bv_omega
  have hlt : o < stopAddress size-512 ↔ o.toNat < size.toNat-516 := by rw [BitVec.lt_def, hd]
  by_cases ho : o < stopAddress size-512
  · rw [burstLast, if_pos ho, if_pos (hlt.mp ho)]
    rfl
  · rw [burstLast, if_neg ho, if_neg (fun h => ho (hlt.mpr h)), burstField_toNat, hd]

/-- The offsets a burst starts at: whole bursts, and the single words that end
a track of this kind. -/
def BurstStart (size o : ℕ) : Prop := o % 512 = 0 ∨ (size-516) % 1024 = 0 ∧ size-516 ≤ o

/-- A burst from such an offset ends inside the track, and the next one starts
at such an offset or at the start of the track. -/
theorem burst_fits (size o n : ℕ) (h4 : size % 4 = 0) (h : 516 < size)
    (hgood : (size-516) % 1024 < 512) (ho : o % 4 = 0) (hin : o+4 ≤ size)
    (hstart : BurstStart size o) (hn : n = (if o < size-516 then 127 else (size-516)/4 % 256) + 1)
    : 1 ≤ n ∧ n ≤ 128 ∧ o+4*n ≤ size ∧ (o+4*n = size ∨ BurstStart size (o+4*n)) := by
  unfold BurstStart at *
  split_ifs at hn with hlt <;> omega

theorem burst_too_long (size : ℕ) (hbad : ¬(size-516) % 1024 < 512) :
    128 ≤ (size-516)/4 % 256 := by
  omega

end Arithmetic

def InBurst (d : Channel) (s : Feed) : Prop :=
  s.bus.master.state_master_register = .wait_read2 ∧ s.bus.master.drive_index = d

structure OnTrack (size : LWord) (d : Channel) (base : LWord)
    (s : Feed) : Prop extends Fed d base size.toNat s where
  orderly : Orderly s.bus
  address : s.bus.master.drv_cur_track_address d = base + s.bus.master.address_offsets d
  aligned : (s.bus.master.address_offsets d).toNat % 4 = 0
  inside : (s.bus.master.address_offsets d).toNat+4 ≤ size.toNat
  position : (s.pushed d).length % (size.toNat/4) =
    (s.bus.master.address_offsets d).toNat/4
  not_done : s.bus.master.done_q d = false
  starting : ¬InBurst d s →
    BurstStart size.toNat (s.bus.master.address_offsets d).toNat
  settled : s.bus.master.dma_stop_address d = stopAddress size
  ending : InBurst d s →
    (s.bus.master.address_offsets d).toNat + 4*(s.bus.master.burst_count.toNat+1) ≤
      size.toNat ∧
    ((s.bus.master.address_offsets d).toNat + 4*(s.bus.master.burst_count.toNat+1) =
        size.toNat ∨
      BurstStart size.toNat
        ((s.bus.master.address_offsets d).toNat + 4*(s.bus.master.burst_count.toNat+1)))
  words : InBurst d s → ∀ k b, s.bus.outstanding[k]? = some b →
    b.word = s.bus.master.drv_cur_track_address d + 4*BitVec.ofNat 32 k

section Step
variable {size : LWord} {d : Channel} {base : LWord} {i : FeedInput}
  {s : Feed}

theorem step_pushed (hd : d ≠ 4) : (s.step i).pushed d =
    (if i.reset_drives d then [] else s.pushed d) ++
      if takes i.toInput s.bus.master d then
        [⟨s.bus.master.drv_cur_track_address d, i.avm_m1_readdata, i.memory⟩]
      else [] := by
  have hc := step_channel i.toInput s.bus.master d
  simp only [Feed.step, Bus.step, hc.pop_fifo_in_wr, hc.pop_fifo_in_address, hc.pop_fifo_in_data]
  cases takes i.toInput s.bus.master d <;> simp [hd]

theorem not_takes_of_reset (hi : Allowed size d base i s)
    (hr : i.reset_drives d = true) : takes i.toInput s.bus.master d = false := by
  by_contra ht
  simp only [takes, Bool.not_eq_false, Bool.and_eq_true, decide_eq_true_eq] at ht
  have := hi.unbroken ht.1.1
  rw [ht.1.2, hr] at this
  exact absurd this (by decide)

theorem takes_iff (hd : d ≠ 4) : takes i.toInput s.bus.master d = true ↔
    InBurst d s ∧ i.avm_m1_readdatavalid = true := by
  simp [takes, InBurst, hd]

/-- The word taken is the one at the channel's address. -/
theorem word_read (h : OnTrack size d base s) (hi : Allowed size d base i s)
    (hb : InBurst d s) (hv : i.avm_m1_readdatavalid = true) :
    i.avm_m1_readdata = i.memory (s.bus.master.drv_cur_track_address d) := by
  obtain ⟨b, rest, hout⟩ := List.exists_cons_of_ne_nil (hi.legal.in_order hv)
  rw [hi.read b rest hout hv]
  congr 1
  simpa using h.words hb 0 b (by simp [hout])

theorem labelled_step (h : OnTrack size d base s) (hi : Allowed size d base i s) (hd : d ≠ 4)
    (k : ℕ) (p : Pushed) (hp : ((s.step i).pushed d)[k]? = some p) :
    p.address = base + BitVec.ofNat 32 (4*(k % (size.toNat/4))) ∧ p.data = p.memory p.address := by
  rw [step_pushed hd] at hp
  cases hr : i.reset_drives d with
  | true => simp [hr, not_takes_of_reset hi hr] at hp
  | false =>
    simp only [hr, Bool.false_eq_true, if_false] at hp
    by_cases hk : k < (s.pushed d).length
    · rw [List.getElem?_append_left hk] at hp
      exact h.labelled k p hp
    · rw [List.getElem?_append_right (by omega)] at hp
      cases ht : takes i.toInput s.bus.master d with
      | false => simp [ht] at hp
      | true =>
        have hlen : k = (s.pushed d).length := by
          have := (List.getElem?_eq_some_iff.mp hp).1
          simp only [ht, if_true, List.length_singleton] at this
          omega
        obtain ⟨hb, hv⟩ := (takes_iff hd).mp ht
        simp only [ht, if_true, hlen, Nat.sub_self, List.getElem?_cons_zero,
          Option.some.injEq] at hp
        subst hp
        refine ⟨?_, word_read h hi hb hv⟩
        rw [hlen, h.position, h.address, Nat.mul_div_cancel' (Nat.dvd_of_mod_eq_zero h.aligned)]
        simp

/-- The command the slave accepts is the next burst of the track. -/
theorem bursts_step (h : OnTrack size d base s)
    (hi : Allowed size d base i s) (h4 : size.toNat % 4 = 0)
    (hsize : 516 < size.toNat)
    (hgood : (size.toNat-516) % 1024 < 512) :
    ∀ c ∈ (s.step i).bus.commands, c.channel = d →
      BurstInside base size.toNat c := by
  intro c hc hch
  simp only [Feed.step, Bus.step] at hc
  cases ha : accepts i.toInput s.bus with
  | false =>
    simp only [ha, Bool.false_eq_true, if_false] at hc
    exact h.bursts c hc hch
  | true =>
    simp only [ha, if_true, List.mem_append, List.mem_singleton] at hc
    rcases hc with hc | rfl
    · exact h.bursts c hc hch
    have hs : s.bus.master.state_master_register = .wait_read := by
      by_contra hs
      rw [hi.keeps.not_again hs] at ha
      exact absurd ha Bool.false_ne_true
    have hread : s.bus.master.avm_m1_read = true := by
      simp only [accepts, Bool.and_eq_true] at ha
      exact ha.1
    obtain ⟨hcur, hbc, hcount⟩ := h.orderly.presented hs hread
    simp only [Bus.command] at hch
    rw [hch] at hcur hbc
    rw [h.settled] at hbc
    have hlast := burstLast_toNat size (s.bus.master.address_offsets d) hsize
    rw [← hbc] at hlast
    have hstart := h.starting (by simp [InBurst, hs])
    obtain ⟨h1, h2, h3, -⟩ := burst_fits size.toNat
      (s.bus.master.address_offsets d).toNat (s.bus.master.burst_count.toNat+1) h4 hsize hgood
      h.aligned h.inside hstart (by rw [hlast])
    have hwords : s.bus.master.avm_m1_burstcount.toNat = s.bus.master.burst_count.toNat+1 := by
      rw [hcount]
      bv_omega
    refine ⟨?_, ?_, ?_⟩ <;> simp only [Bus.command]
    · omega
    · omega
    · rw [hcur, h.address, hwords, add_sub_cancel_left]
      exact h3

theorem atEnd_iff (h : OnTrack size d base s) (hsize : 516 < size.toNat) :
    atEnd s.bus.master d = true ↔ (s.bus.master.address_offsets d).toNat+4 = size.toNat := by
  have hs := stopAddress_toNat size (by omega)
  have hin := h.inside
  simp only [atEnd, h.settled, ge_iff_le, BitVec.le_def, hs, decide_eq_true_eq]
  omega

theorem nextOffset_toNat (h : OnTrack size d base s)
    (hi : Allowed size d base i s) (hsize : 516 < size.toNat) :
    (nextOffset i.toInput s.bus.master d).toNat =
      if (s.bus.master.address_offsets d).toNat+4 = size.toNat then 0
      else (s.bus.master.address_offsets d).toNat+4 := by
  have hin := h.inside
  have hlt := size.isLt
  by_cases he : (s.bus.master.address_offsets d).toNat+4 = size.toNat
  · rw [nextOffset, if_pos ((atEnd_iff h hsize).mpr he), if_pos hi.continuous, if_pos he]
    rfl
  · rw [nextOffset, if_neg (fun ha => he ((atEnd_iff h hsize).mp ha)), if_neg he,
      BitVec.toNat_add]
    exact Nat.mod_eq_of_lt (show _ + 4 < 2^32 by omega)

theorem nextAddress_base (h : OnTrack size d base s) (hi : Allowed size d base i s) :
    nextAddress i.toInput s.bus.master d = base + nextOffset i.toInput s.bus.master d := by
  unfold nextAddress nextOffset
  split_ifs with he hcont
  · rw [hi.track]
    simp
  · exact absurd hi.continuous hcont
  · rw [h.address, BitVec.add_assoc]

theorem inBurst_before (hi : Allowed size d base i s) (hb : InBurst d (s.step i)) :
    s.bus.master.drive_index = d ∧ i.reset_drives d = false ∧
      (s.bus.master.state_master_register = .wait_read ∨ InBurst d s) := by
  obtain ⟨h2, hd⟩ := hb
  change (DmaMaster.step i.toInput s.bus.master).state_master_register = .wait_read2 at h2
  change (DmaMaster.step i.toInput s.bus.master).drive_index = d at hd
  obtain ⟨hdrive, hs⟩ := reading_before h2
  rw [hdrive] at hd
  rcases hs with hs | ⟨hs, -⟩
  · refine ⟨hd, ?_, Or.inl hs⟩
    by_contra hr
    have hstate := (step_bus i.toInput s.bus.master).state_master_register
    rw [h2, hs, hd] at hstate
    rw [Bool.not_eq_false] at hr
    simp [hr] at hstate
  · exact ⟨hd, hd ▸ hi.unbroken hs, Or.inr ⟨hs, hd⟩⟩

/-- A burst of the channel goes on unless its last word is taken. -/
theorem inBurst_after (h : OnTrack size d base s) (hi : Allowed size d base i s) (hd : d ≠ 4)
    (hb : InBurst d s) :
    InBurst d (s.step i) ↔ ¬(i.avm_m1_readdatavalid = true ∧ s.bus.master.burst_count = 0) := by
  obtain ⟨h2, hdrive⟩ := hb
  have hr := hi.unbroken h2
  have hnext := reading_next (i := i.toInput) h2 (by rw [hdrive]; exact hd)
  have hdrive' := (step_bus i.toInput s.bus.master).drive_index
  rw [h2] at hdrive'
  change (DmaMaster.step i.toInput s.bus.master).state_master_register = .wait_read2 ∧
    (DmaMaster.step i.toInput s.bus.master).drive_index = d ↔ _
  rw [hnext, hdrive', hr, hdrive, h.not_done]
  simp

theorem burst_begins (h : OnTrack size d base s) (hi : Allowed size d base i s) (hd : d ≠ 4)
    (hs : s.bus.master.state_master_register = .wait_read) (hb : InBurst d (s.step i)) :
    accepts i.toInput s.bus = true ∧ s.bus.master.avm_m1_read = true := by
  obtain ⟨hdrive, hr, -⟩ := inBurst_before hi hb
  have hent : entersBurst i.toInput s.bus = true := by
    have h2 := hb.1
    change (DmaMaster.step i.toInput s.bus.master).state_master_register = .wait_read2 at h2
    simp [entersBurst, hs, hdrive, hd, h2]
  rw [entersBurst_iff h.orderly hs, Bool.and_eq_true] at hent
  refine ⟨hent.1, ?_⟩
  have ha := hent.1
  simp only [accepts, Bool.and_eq_true] at ha
  exact ha.1

theorem ending_step (h : OnTrack size d base s)
    (hi : Allowed size d base i s) (hd : d ≠ 4)
    (h4 : size.toNat % 4 = 0) (hsize : 516 < size.toNat)
    (hgood : (size.toNat-516) % 1024 < 512) (hb : InBurst d (s.step i)) :
    ((s.step i).bus.master.address_offsets d).toNat +
        4*((s.step i).bus.master.burst_count.toNat+1) ≤ size.toNat ∧
    (((s.step i).bus.master.address_offsets d).toNat +
        4*((s.step i).bus.master.burst_count.toNat+1) = size.toNat ∨
      BurstStart size.toNat
        (((s.step i).bus.master.address_offsets d).toNat +
          4*((s.step i).bus.master.burst_count.toNat+1))) := by
  obtain ⟨hdrive, hr, hs⟩ := inBurst_before hi hb
  have hoff := (step_channel i.toInput s.bus.master d).address_offsets
  have hcount := (step_bus i.toInput s.bus.master).burst_count
  rw [hr] at hoff
  simp only [Feed.step, Bus.step, hoff, Bool.false_eq_true, if_false]
  rcases hs with hs | hs
  · rw [hs] at hcount
    have ht : takes i.toInput s.bus.master d = false := by simp [takes, hs]
    simp only [hdrive, h.settled] at hcount
    rw [hcount, ht, burstLast_toNat _ _ hsize]
    exact (burst_fits _ _ _ h4 hsize hgood h.aligned h.inside
      (h.starting (by simp [InBurst, hs])) rfl).2.2
  · have hend := h.ending hs
    rw [hs.1] at hcount
    simp only [hdrive] at hcount
    rw [hcount]
    cases hv : i.avm_m1_readdatavalid with
    | false =>
      have ht : takes i.toInput s.bus.master d = false := by simp [takes, hv, hd]
      simpa [ht] using hend
    | true =>
      have ht : takes i.toInput s.bus.master d = true := (takes_iff hd).mpr ⟨hs, hv⟩
      have hne : s.bus.master.burst_count ≠ 0 := fun hz =>
        (inBurst_after h hi hd hs).mp hb ⟨hv, hz⟩
      have hpred : (s.bus.master.burst_count-1).toNat+1 = s.bus.master.burst_count.toNat := by
        bv_omega
      have hpos : 0 < s.bus.master.burst_count.toNat := by omega
      rw [if_pos ht, if_pos ht, nextOffset_toNat h hi hsize, if_neg (by omega), hpred]
      rw [show (s.bus.master.address_offsets d).toNat+4+4*s.bus.master.burst_count.toNat =
        (s.bus.master.address_offsets d).toNat+4*(s.bus.master.burst_count.toNat+1) by omega]
      exact hend

theorem starting_step (h : OnTrack size d base s) (hi : Allowed size d base i s) (hd : d ≠ 4)
    (hsize : 516 < size.toNat) (hb : ¬InBurst d (s.step i)) :
    BurstStart size.toNat ((s.step i).bus.master.address_offsets d).toNat := by
  have hoff := (step_channel i.toInput s.bus.master d).address_offsets
  simp only [Feed.step, Bus.step, hoff]
  cases hr : i.reset_drives d with
  | true => exact Or.inl rfl
  | false =>
    by_cases hs : InBurst d s
    · obtain ⟨hv, hz⟩ := not_not.mp (fun hn => hb ((inBurst_after h hi hd hs).mpr hn))
      have hend := h.ending hs
      rw [if_neg Bool.false_ne_true, if_pos ((takes_iff hd).mpr ⟨hs, hv⟩),
        nextOffset_toNat h hi hsize]
      simp only [hz] at hend
      split_ifs with he
      · exact Or.inl rfl
      · exact hend.2.resolve_left he
    · have ht : takes i.toInput s.bus.master d = false := by
        rw [← Bool.not_eq_true, takes_iff hd]
        exact fun hn => hs hn.1
      simpa [ht] using h.starting hs

theorem words_step (h : OnTrack size d base s) (hi : Allowed size d base i s) (hd : d ≠ 4)
    (hsize : 516 < size.toNat) (hb : InBurst d (s.step i)) (k : ℕ) (b : Beat)
    (hk : (s.step i).bus.outstanding[k]? = some b) :
    b.word = (s.step i).bus.master.drv_cur_track_address d + 4*BitVec.ofNat 32 k := by
  obtain ⟨hdrive, hr, hs⟩ := inBurst_before hi hb
  have hcur := (step_channel i.toInput s.bus.master d).drv_cur_track_address
  rw [hr] at hcur
  simp only [Feed.step, Bus.step, hcur, Bool.false_eq_true, if_false] at hk ⊢
  rcases hs with hs | hs
  · obtain ⟨ha, hread⟩ := burst_begins h hi hd hs hb
    have hq := h.orderly.quiet (by rw [hs]; decide)
    have hv := hi.legal.silent hq
    have ht : takes i.toInput s.bus.master d = false := by simp [takes, hs]
    simp only [hv, ha, hq, Bool.false_eq_true, if_false, if_true, List.nil_append,
      Command.beats, Bus.command, List.getElem?_map, Option.map_eq_some_iff] at hk
    obtain ⟨j, hj, rfl⟩ := hk
    obtain ⟨hlt, hj⟩ := List.getElem?_eq_some_iff.mp hj
    rw [List.getElem_range] at hj
    rw [ht, ← hj]
    simp only [Bool.false_eq_true, if_false, (h.orderly.presented hs hread).1, hdrive]
  · have ha := hi.keeps.not_again (by rw [hs.1]; decide)
    rw [ha] at hk
    simp only [Bool.false_eq_true, if_false, List.append_nil] at hk
    cases hv : i.avm_m1_readdatavalid with
    | false =>
      have ht : takes i.toInput s.bus.master d = false := by simp [takes, hv, hd]
      simp only [hv, Bool.false_eq_true, if_false] at hk
      simpa [ht] using h.words hs k b hk
    | true =>
      have ht : takes i.toInput s.bus.master d = true := (takes_iff hd).mpr ⟨hs, hv⟩
      have hne : s.bus.master.burst_count ≠ 0 := fun hz =>
        (inBurst_after h hi hd hs).mp hb ⟨hv, hz⟩
      have hend := h.ending hs
      have hnot : atEnd s.bus.master d = false := by
        rw [← Bool.not_eq_true, atEnd_iff h hsize]
        have : 0 < s.bus.master.burst_count.toNat := by bv_omega
        omega
      simp only [hv, if_true, List.getElem?_tail] at hk
      rw [ht, h.words hs (k+1) b hk, nextAddress, hnot, BitVec.ofNat_add,
        show BitVec.ofNat 32 1 = 1 from rfl]
      simp only [Bool.false_eq_true, if_false, if_true]
      ring

theorem offset_step (h : OnTrack size d base s)
    (hi : Allowed size d base i s)
    (hsize : 516 < size.toNat) :
    ((s.step i).bus.master.address_offsets d).toNat =
      if i.reset_drives d then 0
      else if takes i.toInput s.bus.master d then
        if (s.bus.master.address_offsets d).toNat+4 = size.toNat then 0
        else (s.bus.master.address_offsets d).toNat+4
      else (s.bus.master.address_offsets d).toNat := by
  have hoff := (step_channel i.toInput s.bus.master d).address_offsets
  simp only [Feed.step, Bus.step, hoff, ← nextOffset_toNat h hi hsize]
  split_ifs <;> rfl

theorem position_step (h : OnTrack size d base s)
    (hi : Allowed size d base i s) (hd : d ≠ 4)
    (h4 : size.toNat % 4 = 0) (hsize : 516 < size.toNat) :
    ((s.step i).pushed d).length % (size.toNat/4) =
      ((s.step i).bus.master.address_offsets d).toNat/4 := by
  rw [offset_step h hi hsize, step_pushed hd]
  cases hr : i.reset_drives d with
  | true => simp [not_takes_of_reset hi hr]
  | false =>
    have hp := h.position
    have ha := h.aligned
    have hin := h.inside
    cases ht : takes i.toInput s.bus.master d with
    | false => simpa using hp
    | true =>
      simp only [Bool.false_eq_true, if_false, if_true, List.length_append,
        List.length_singleton]
      rw [Nat.add_mod, hp]
      split_ifs with he
      · have hone : 1 % (size.toNat/4) = 1 := Nat.mod_eq_of_lt (by omega)
        rw [hone, show (s.bus.master.address_offsets d).toNat/4+1 =
          size.toNat/4 by omega, Nat.mod_self]
      · have hone : 1 % (size.toNat/4) = 1 := Nat.mod_eq_of_lt (by omega)
        rw [hone, Nat.mod_eq_of_lt (by omega)]
        omega

theorem address_step (h : OnTrack size d base s)
    (hi : Allowed size d base i s) :
    (s.step i).bus.master.drv_cur_track_address d =
      base + (s.step i).bus.master.address_offsets d := by
  have hc := step_channel i.toInput s.bus.master d
  simp only [Feed.step, Bus.step, hc.drv_cur_track_address, hc.address_offsets, hi.image,
    nextAddress_base h hi, h.address]
  split_ifs <;> simp

theorem onTrack_step (h : OnTrack size d base s) (hi : Allowed size d base i s) (hd : d ≠ 4)
    (h4 : size.toNat % 4 = 0) (hsize : 516 < size.toNat) (hgood : (size.toNat-516) % 1024 < 512) :
    OnTrack size d base (s.step i) where
  labelled := labelled_step h hi hd
  bursts := bursts_step h hi h4 hsize hgood
  orderly := orderly_step h.orderly hi.legal hi.keeps hi.steady
  address := address_step h hi
  aligned := by
    have ha := h.aligned
    rw [offset_step h hi hsize]
    split_ifs <;> omega
  inside := by
    have hin := h.inside
    have ha := h.aligned
    rw [offset_step h hi hsize]
    split_ifs <;> omega
  position := position_step h hi hd h4 hsize
  not_done := by
    change (DmaMaster.step i.toInput s.bus.master).done_q d = false
    rw [(step_channel i.toInput s.bus.master d).done_q, hi.continuous, h.not_done]
    simp
  starting := starting_step h hi hd hsize
  settled := by
    rw [← hi.size]
    exact (step_channel i.toInput s.bus.master d).dma_stop_address
  ending := ending_step h hi hd h4 hsize hgood
  words := words_step h hi hd hsize

end Step

theorem started_onTrack {size : LWord} {d : Channel} {base : LWord}
    {s : Feed} (h : Started size d base s) (hd : d ≠ 4)
    (hsize : 516 < size.toNat) : OnTrack size d base s := by
  obtain ⟨i, hi, hr, rfl⟩ := h
  have hc := step_channel i.toInput Master.reset d
  have ht : takes i.toInput Master.reset d = false := by simp [takes, Master.reset]
  have hnot : ¬InBurst d (Feed.reset.step i) := by
    intro hin
    have hbefore := (reading_before (s := Bus.reset) hin.1).2
    simp [Bus.reset, Master.reset] at hbefore
  have hoff : (Feed.reset.step i).bus.master.address_offsets d = 0 := by
    change (DmaMaster.step i.toInput Master.reset).address_offsets d = 0
    rw [hc.address_offsets, if_pos hr]
  have hpush : (Feed.reset.step i).pushed d = [] := by
    rw [step_pushed hd]
    simp [hr, Feed.reset, Bus.reset, ht]
  have hcmd : (Feed.reset.step i).bus.commands = [] := by
    simp [Feed.step, Bus.step, Feed.reset, Bus.reset, accepts, Master.reset]
  exact
    { labelled := by simp [hpush]
      bursts := by simp [hcmd]
      orderly := orderly_step reset_orderly hi.legal hi.keeps hi.steady
      address := by
        change (DmaMaster.step i.toInput Master.reset).drv_cur_track_address d = _
        rw [hoff, hc.drv_cur_track_address, if_pos hr, hi.image]
        simp
      aligned := by simp [hoff]
      inside := by
        rw [hoff]
        change 0+4 ≤ _
        omega
      position := by simp [hpush, hoff]
      not_done := by
        change (DmaMaster.step i.toInput Master.reset).done_q d = false
        rw [hc.done_q, ht]
        simp [Master.reset]
      starting := fun _ => Or.inl (by simp [hoff])
      settled := by
        rw [← hi.size]
        exact hc.dma_stop_address
      ending := fun hin => absurd hin hnot
      words := fun hin => absurd hin hnot }

/-- Channel `d` alone, with a slave that accepts at once and returns a word at
every clock it owes one. -/
def promptInput (size : LWord) (d : Channel) (base : LWord)
    (reset : Bool) (s : Feed) : FeedInput where
  avm_m1_readdata := 0
  avm_m1_waitrequest := s.bus.master.state_master_register ≠ .wait_read
  avm_m1_readdatavalid := !s.bus.outstanding.isEmpty
  images_base_address _ := base
  images_track_size _ := size
  drv_cur_track_base_address _ := base
  enable_drives e := e = d
  continuous_mode _ := true
  pop_fifo_almostfull _ := false
  push_fifo_empty _ := true
  push_fifo_out_data _ := 0
  push_fifo_out_address _ := 0
  reset_drives _ := reset
  memory _ := 0

section Prompt
variable {size : LWord} {d : Channel} (base : LWord) {s : Feed}

theorem prompt_alone : LoneChannel.Alone d size (promptInput size d base false s).toInput :=
  ⟨rfl, fun _ => rfl, rfl, rfl⟩

theorem prompt_allowed (reset : Bool)
    (hs : s.bus.master.state_master_register = .wait_read2 → reset = false ∧ s.bus.master.done_q s.bus.master.drive_index = false)
    (hr : s.bus.master.state_master_register = .wait_read → reset = false ∧ s.bus.master.dma_stop_address s.bus.master.drive_index = stopAddress size)
    : Allowed size d base (promptInput size d base reset s) s where
  legal := ⟨fun h => by simpa [promptInput] using h⟩
  keeps :=
    { not_again := fun h => by simp [accepts, promptInput, h]
      not_dropped := fun h _ => (hr h).1
      not_left := fun h hc => by
        obtain ⟨h1, h2⟩ := hs h
        simp [promptInput, h1, h2] at hc }
  steady h _ _ _ := congrArg _ (hr h).2.symm
  size := rfl
  read _ _ _ _ := rfl
  unbroken h := (hs h).1
  image := rfl
  track := rfl
  continuous := rfl

theorem prompt_tick (ho : Orderly s.bus)
    (hs : s.bus.master.state_master_register = .wait_read2 →
      s.bus.master.done_q s.bus.master.drive_index = false)
    (hr : s.bus.master.state_master_register = .wait_read →
      s.bus.master.dma_stop_address s.bus.master.drive_index = stopAddress size) :
    Clocked.Reach Feed.step (Allowed size d base) s
      (s.step (promptInput size d base false s)) ∧
    Orderly (s.step (promptInput size d base false s)).bus := by
  have ha : Allowed size d base (promptInput size d base false s) s :=
    prompt_allowed base false (fun h => ⟨rfl, hs h⟩) (fun h => ⟨rfl, hr h⟩)
  exact ⟨(Clocked.Reach.refl s).tick _ ha, orderly_step ho ha.legal ha.keeps ha.steady⟩

theorem prompt_accepts {o : LWord} (hd : d ≠ 4) (ho : Orderly s.bus)
    (h : LoneChannel.Waiting d size o true s.bus.master) :
    ∃ t, Clocked.Reach Feed.step (Allowed size d base) s t ∧
      Orderly t.bus ∧
      LoneChannel.Reading d size o
        (burstLast o (stopAddress size)) t.bus.master ∧
      ∃ c ∈ t.bus.commands, c.channel = d ∧
        c.words = burstLast o (stopAddress size) + 1 := by
  have hwait : (promptInput size d base false s).avm_m1_waitrequest = false := by
    simp [promptInput, h.state]
  have hread : s.bus.master.avm_m1_read = true := by
    rw [ho.raised h.state, h.delay, h.drive]
    simp [hd]
  have hc := LoneChannel.command_accepted h (prompt_alone base (s := s)) hwait
  obtain ⟨ht, hto⟩ := prompt_tick (d := d) base ho (by simp [h.state])
    (fun _ => h.drive ▸ h.stop)
  refine ⟨_, ht, hto, hc, s.bus.command, ?_, h.drive, ?_⟩
  · have ha : accepts (promptInput size d base false s).toInput s.bus = true := by
      simp [accepts, hread, hwait]
    simp [Feed.step, Bus.step, ha]
  · obtain ⟨-, hbc, hcount⟩ := ho.presented h.state hread
    rw [Bus.command, hcount, hbc, h.drive, h.offset, h.stop]

theorem prompt_asks {o : LWord} (hd : d ≠ 4) (ho : Orderly s.bus)
    (h : LoneChannel.Waiting d size o false s.bus.master) :
    ∃ t, Clocked.Reach Feed.step (Allowed size d base) s t ∧
      Orderly t.bus ∧
      LoneChannel.Waiting d size o true t.bus.master := by
  obtain ⟨ht, hto⟩ := prompt_tick (d := d) base ho (by simp [h.state])
    (fun _ => h.drive ▸ h.stop)
  exact ⟨_, ht, hto, LoneChannel.command_asked h (prompt_alone base) hd (Or.inl rfl)⟩

theorem rest_reads {o : LWord} (hd : d ≠ 4) (ho : Orderly s.bus)
    (h : LoneChannel.AtRest d size o s.bus.master) :
    ∃ t, Clocked.Reach Feed.step (Allowed size d base) s t ∧
      Orderly t.bus ∧
      LoneChannel.Reading d size o
        (burstLast o (stopAddress size)) t.bus.master ∧
      ∃ c ∈ t.bus.commands, c.channel = d ∧
        c.words = burstLast o (stopAddress size) + 1 := by
  obtain ⟨r1, o1⟩ := prompt_tick (d := d) base ho (by simp [h.state])
    (by simp [h.state])
  obtain ⟨t, r2, o2, w2⟩ := prompt_asks base hd o1
    (LoneChannel.rest_goes_on h (prompt_alone base))
  obtain ⟨u, r3, o3, hr, hc⟩ := prompt_accepts base hd o2 w2
  exact ⟨u, (r1.trans r2).trans r3, o3, hr, hc⟩

theorem prompt_valid {o : LWord} (hd : d ≠ 4) (k : ℕ) (hk : k < 128) (ho : Orderly s.bus)
    (h : LoneChannel.Reading d size o (BitVec.ofNat 8 k) s.bus.master) :
    (promptInput size d base false s).avm_m1_readdatavalid = true := by
  have howed := ho.owed h.state (by rw [h.drive]; exact hd)
  rw [h.count] at howed
  have hpos : 0 < s.bus.outstanding.length := by
    rw [howed]
    bv_omega
  simpa [promptInput] using List.ne_nil_of_length_pos hpos

theorem followingOffset_ofNat {size : LWord} (hsize : 516 < size.toNat) {o : ℕ}
    (ho : o+4 ≤ size.toNat) : LoneChannel.followingOffset size (BitVec.ofNat 32 o) =
      BitVec.ofNat 32 (if o+4 = size.toNat then 0 else o+4) := by
  have hlt := size.isLt
  have hend : BitVec.ofNat 32 o ≥ stopAddress size ↔ o+4 = size.toNat := by
    rw [ge_iff_le, BitVec.le_def, stopAddress_toNat size (by omega), BitVec.toNat_ofNat,
      Nat.mod_eq_of_lt (by omega)]
    omega
  by_cases he : o+4 = size.toNat
  · rw [LoneChannel.followingOffset, if_pos (hend.mpr he), if_pos he]
    rfl
  · rw [LoneChannel.followingOffset, if_neg (fun h => he (hend.mp h)), if_neg he, BitVec.ofNat_add]
    rfl

/-- The words of a burst that stays before the end of the track. -/
theorem burst_reads (hd : d ≠ 4) (hsize : 516 < size.toNat) (k : ℕ) (hk : k < 128)
    (o : ℕ) (hin : o+4*(k+1)+4 ≤ size.toNat)
    (ho : Orderly s.bus)
    (h : LoneChannel.Reading d size (BitVec.ofNat 32 o) (BitVec.ofNat 8 k)
      s.bus.master) :
    ∃ t, Clocked.Reach Feed.step (Allowed size d base) s t ∧
      Orderly t.bus ∧
      LoneChannel.AtRest d size (BitVec.ofNat 32 (o+4*(k+1))) t.bus.master := by
  induction k generalizing o s with
  | zero =>
    have hv := prompt_valid base hd 0 hk ho h
    obtain ⟨ht, hto⟩ := prompt_tick (d := d) base ho (fun _ => h.drive ▸ h.not_done)
      (by simp [h.state])
    have hend := LoneChannel.burst_ends h (prompt_alone base) hv rfl
    rw [followingOffset_ofNat hsize (by omega), if_neg (by omega)] at hend
    exact ⟨_, ht, hto, hend⟩
  | succ k ih =>
    have hv := prompt_valid base hd (k+1) hk ho h
    obtain ⟨ht, hto⟩ := prompt_tick (d := d) base ho (fun _ => h.drive ▸ h.not_done)
      (by simp [h.state])
    have hnext := LoneChannel.word_taken h (prompt_alone base) hd hv (by
      intro hz
      have hk0 : (k+1) % 2^8 = 0 := (BitVec.toNat_ofNat (k+1) 8).symm.trans (congrArg _ hz)
      omega)
    rw [followingOffset_ofNat hsize (by omega), if_neg (by omega), show BitVec.ofNat 8 (k+1)-1 = BitVec.ofNat 8 k by
      rw [BitVec.ofNat_add]
      exact BitVec.add_sub_cancel _ _] at hnext
    obtain ⟨t, hreach, horder, hrest⟩ := ih (by omega) (o+4) (by omega) hto hnext
    rw [show o+4+4*(k+1) = o+4*(k+1+1) by omega] at hrest
    exact ⟨t, ht.trans hreach, horder, hrest⟩

theorem rest_next (hd : d ≠ 4) (hsize : 516 < size.toNat) (o : ℕ)
    (hin : o < size.toNat-516) (ho : Orderly s.bus)
    (h : LoneChannel.AtRest d size (BitVec.ofNat 32 o) s.bus.master) :
    ∃ t, Clocked.Reach Feed.step (Allowed size d base) s t ∧
      Orderly t.bus ∧
      LoneChannel.AtRest d size (BitVec.ofNat 32 (o+512)) t.bus.master := by
  have hlt := size.isLt
  obtain ⟨t, ht, hto, hr, -⟩ := rest_reads base hd ho h
  have hlast : burstLast (BitVec.ofNat 32 o) (stopAddress size) =
      BitVec.ofNat 8 127 := by
    apply BitVec.eq_of_toNat_eq
    rw [burstLast_toNat _ _ hsize, BitVec.toNat_ofNat, Nat.mod_eq_of_lt (by omega), if_pos hin]
    rfl
  rw [hlast] at hr
  obtain ⟨u, hu, huo, hrest⟩ := burst_reads base hd hsize 127 (by omega) o (by omega)
    hto hr
  exact ⟨u, ht.trans hu, huo, hrest⟩

/-- The first clock puts the channel at rest at the start of its track. -/
theorem prompt_started :
    ∃ s, Started size d base s ∧ Orderly s.bus ∧
      LoneChannel.AtRest d size (BitVec.ofNat 32 0) s.bus.master := by
  have ha : Allowed size d base
      (promptInput size d base true Feed.reset) Feed.reset :=
    prompt_allowed base true (by simp [Feed.reset, Bus.reset, Master.reset])
      (by simp [Feed.reset, Bus.reset, Master.reset])
  have hc := step_channel (promptInput size d base true Feed.reset).toInput
    Master.reset d
  have hb := step_bus (promptInput size d base true Feed.reset).toInput Master.reset
  refine ⟨_, ⟨_, ha, rfl, rfl⟩, orderly_step reset_orderly ha.legal ha.keeps ha.steady,
    ⟨?_, ?_, ?_⟩, ?_, ?_⟩
  · exact hc.dma_stop_address
  · exact hc.address_offsets
  · exact hc.done_q.trans (by simp [takes, Master.reset])
  · exact hb.state_master_register.trans (by simp [Master.reset, startsRead, startsWrite])
  · change (firstOf _).1 = d ∧ (firstOf _).2 = false
    rw [LoneChannel.chosen_alone (d := d) rfl (fun _ => rfl) rfl]
    exact ⟨rfl, rfl⟩

theorem last_burst_outside (hd : d ≠ 4) (hsize : 516 < size.toNat)
    (hbad : ¬(size.toNat-516) % 1024 < 512) :
    ∃ s t, Started size d base s ∧
      Clocked.Reach Feed.step (Allowed size d base) s t ∧
      ∃ c ∈ t.bus.commands, c.channel = d ∧
        ¬BurstInside base size.toNat c := by
  have hlt := size.isLt
  -- the first burst that is not one of 128 words starts after `m` of them
  obtain ⟨m, hlow, hhigh⟩ : ∃ m, size.toNat-516 ≤ 512*m ∧
      512*(m-1) < size.toNat-516 :=
    ⟨(size.toNat-516+511)/512, by omega, by omega⟩
  obtain ⟨s, hs, ho, hrest⟩ : ∃ s, Started size d base s ∧
      Orderly s.bus ∧
      LoneChannel.AtRest d size (BitVec.ofNat 32 0) s.bus.master :=
    prompt_started base
  obtain ⟨t, ht, hto, htrest, -⟩ := @Clocked.Reach.countdown _ _ Feed.step
    (Allowed size d base)
    (fun k s => Orderly s.bus ∧
      LoneChannel.AtRest d size (BitVec.ofNat 32 (512*(m-k))) s.bus.master ∧
      k ≤ m)
    (fun k s ⟨ho, hr, hk⟩ => by
      obtain ⟨t, ht, hto, htr⟩ := rest_next base hd hsize (512*(m-(k+1)))
        (by omega) ho hr
      rw [show 512*(m-(k+1))+512 = 512*(m-k) by omega] at htr
      exact ⟨t, ht, hto, htr, by omega⟩)
    m s ⟨ho, by rw [Nat.sub_self]; exact hrest, le_rfl⟩
  obtain ⟨u, hu, -, -, c, hc, hch, hwords⟩ := rest_reads base hd hto htrest
  refine ⟨s, u, hs, ht.trans hu, c, hc, hch, fun hin => ?_⟩
  have hlast := burstLast_toNat size (BitVec.ofNat 32 (512*(m-0))) hsize
  rw [BitVec.toNat_ofNat, Nat.mod_eq_of_lt (by omega), if_neg (by omega)] at hlast
  have hlong := burst_too_long size.toNat hbad
  have h1 := hin.some_word
  have h2 := hin.at_most
  rw [hwords] at h1 h2
  bv_omega

end Prompt

/-- Every word of a track is fed under its own address, in bursts of at most
128 words inside the track, exactly when bit 9 of the size less 516 is clear.
Otherwise the last burst of the track is too long. -/
theorem track_fed_iff (size : LWord) (d : Channel) (base : LWord)
    (hd : d ≠ 4) (h4 : size.toNat % 4 = 0)
    (hsize : 516 < size.toNat) :
    (∀ s t, Started size d base s →
      Clocked.Reach Feed.step (Allowed size d base) s t →
      Fed d base size.toNat t) ↔
    (size.toNat-516) % 1024 < 512 := by
  constructor
  · intro hall
    by_contra hbad
    obtain ⟨s, t, hs, ht, c, hc, hch, hout⟩ := last_burst_outside base hd hsize hbad
    exact hout ((hall s t hs ht).bursts c hc hch)
  · intro hgood s t hs ht
    exact (ht.invariant (OnTrack size d base) (started_onTrack hs hd hsize)
      (fun i s hi h => onTrack_step h hi hd h4 hsize hgood)).toFed

theorem track_fed_iff_short :
    (∀ s t, Started 520 0 0 s →
      Clocked.Reach Feed.step (Allowed 520 0 0) s t → Fed 0 0 520 t) ↔
    (520-516) % 1024 < 512 :=
  track_fed_iff 520 0 0 (by decide) (by decide) (by decide)

/-- A track of 625000 bytes, whose last burst has 218 words where 90 are left. -/
theorem usual_track_not_fed : ∃ s t, Started 625000 0 (900*1024*1024) s ∧
    Clocked.Reach Feed.step (Allowed 625000 0 (900*1024*1024)) s t ∧
    ¬Fed 0 (900*1024*1024) 625000 t := by
  obtain ⟨s, t, hs, ht, c, hc, hch, hout⟩ :
      ∃ s t, Started 625000 0 (900*1024*1024) s ∧
        Clocked.Reach Feed.step (Allowed 625000 0 (900*1024*1024)) s t ∧
        ∃ c ∈ t.bus.commands, c.channel = 0 ∧ ¬BurstInside (900*1024*1024) 625000 c :=
    last_burst_outside _ (by decide) (by decide) (by decide)
  exact ⟨s, t, hs, ht, fun h => hout (h.bursts c hc hch)⟩

end Pauline.TrackFeed
