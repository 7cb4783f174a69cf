import Pauline.Fpga.DmaMaster

/-!
# A channel alone

One drive is enabled, in continuous mode and not reset. Its bursts follow one
another, and each clock of a burst is known from the one before.
-/

set_option autoImplicit false

namespace Pauline.LoneChannel
open Pauline.DmaMaster

structure Alone (d : Channel) (images_track_size : LWord) (i : Input) : Prop where
  size : i.images_track_size d = images_track_size
  enabled : ∀ e, i.enable_drives e = decide (e = d)
  continuous : i.continuous_mode d = true
  no_reset : i.reset_drives d = false

structure Track (d : Channel) (images_track_size offset : LWord) (m : Master) : Prop where
  stop : m.dma_stop_address d = stopAddress images_track_size
  offset : m.address_offsets d = offset
  not_done : m.done_q d = false

structure AtRest (d : Channel) (images_track_size offset : LWord) (m : Master) : Prop
    extends Track d images_track_size offset m where
  state : m.state_master_register = .idle
  chosen : m.fifos_in_almostfull_index = d ∧ m.fifos_in_allfull = false

structure Waiting (d : Channel) (images_track_size offset : LWord) (asked : Bool) (m : Master) :
    Prop extends Track d images_track_size offset m where
  state : m.state_master_register = .wait_read
  drive : m.drive_index = d
  delay : m.read_wrrq_delay = asked

structure Reading (d : Channel) (images_track_size offset : LWord) (n : BitVec 8) (m : Master) :
    Prop extends Track d images_track_size offset m where
  state : m.state_master_register = .wait_read2
  drive : m.drive_index = d
  count : m.burst_count = n

def followingOffset (images_track_size offset : LWord) : LWord :=
  if offset ≥ stopAddress images_track_size then 0 else offset+4

section Clocks
variable {d : Channel} {size o : LWord} {i : Input} {m : Master}

theorem track_kept (h : Track d size o m) (hi : Alone d size i)
    (ht : takes i m d = false) : Track d size o (step i m) := by
  have hc := step_channel i m d
  constructor
  · rw [hc.dma_stop_address, hi.size]
  · rw [hc.address_offsets, hi.no_reset, ht, h.offset]
    rfl
  · rw [hc.done_q, ht, h.not_done]
    simp

theorem chosen_alone (hd : m.done_q d = false) (hi : ∀ e, i.enable_drives e = decide (e = d))
    (hf : i.pop_fifo_almostfull d = false) : firstOf (wantsWords i m) = (d, false) := by
  have hw : ∀ e, wantsWords i m e = decide (e = d) := by
    intro e
    by_cases he : e = d
    · subst he
      simp [wantsWords, hf, hi, hd]
    · simp [wantsWords, hi, he]
  simp only [firstOf, hw, decide_eq_true_eq]
  fin_cases d <;> decide

theorem anyEnabled_alone (hi : Alone d size i) : anyEnabled i = true := by
  simp only [anyEnabled, hi.enabled]
  fin_cases d <;> decide

theorem rest_goes_on (h : AtRest d size o m) (hi : Alone d size i) :
    Waiting d size o false (step i m) := by
  have hs : startsRead i m = true := by simp [startsRead, anyEnabled_alone hi, h.chosen]
  have hb := step_bus i m
  refine ⟨track_kept h.toTrack hi (by simp [takes, h.state]), ?_, ?_, ?_⟩
  · simp [hb.state_master_register, h.state, hs]
  · simp [hb.drive_index, h.state, hs, h.chosen]
  · simp [hb.read_wrrq_delay, h.state]

theorem command_asked {asked : Bool} (h : Waiting d size o asked m) (hi : Alone d size i)
    (h4 : d ≠ 4) (hw : asked = false ∨ i.avm_m1_waitrequest = true) :
    Waiting d size o true (step i m) := by
  have hb := step_bus i m
  refine ⟨track_kept h.toTrack hi (by simp [takes, h.state]), ?_, ?_, ?_⟩
  · rw [hb.state_master_register, h.state]
    rcases hw with rfl | hw
    · simp [h.drive, hi.no_reset, h.delay, h4]
    · simp [h.drive, hi.no_reset, hw, h4]
  · simp [hb.drive_index, h.state, h.drive]
  · simp [hb.read_wrrq_delay, h.state]

theorem command_accepted (h : Waiting d size o true m) (hi : Alone d size i)
    (hw : i.avm_m1_waitrequest = false) :
    Reading d size o (burstLast o (stopAddress size)) (step i m) := by
  have hb := step_bus i m
  refine ⟨track_kept h.toTrack hi (by simp [takes, h.state]), ?_, ?_, ?_⟩
  · simp [hb.state_master_register, h.state, h.drive, hi.no_reset, h.delay, hw]
  · simp [hb.drive_index, h.state, h.drive]
  · simp [hb.burst_count, h.state, h.drive, h.offset, h.stop]

theorem track_taken {n : BitVec 8} (h : Reading d size o n m) (hi : Alone d size i)
    (hv : i.avm_m1_readdatavalid = true) :
    Track d size (followingOffset size o) (step i m) := by
  have hc := step_channel i m d
  have ht : takes i m d = true := by simp [takes, h.state, h.drive, hv]
  constructor
  · rw [hc.dma_stop_address, hi.size]
  · simp only [hc.address_offsets, hi.no_reset, ht, nextOffset, atEnd, h.offset, h.stop,
      hi.continuous, followingOffset]
    simp
  · simp [hc.done_q, hi.continuous, h.not_done]

/-- A word of the burst that others follow. -/
theorem word_taken {n : BitVec 8} (h : Reading d size o n m) (hi : Alone d size i) (h4 : d ≠ 4)
    (hv : i.avm_m1_readdatavalid = true) (hn : n ≠ 0) :
    Reading d size (followingOffset size o) (n-1) (step i m) := by
  have hb := step_bus i m
  have ht : takes i m d = true := by simp [takes, h.state, h.drive, hv]
  refine ⟨track_taken h hi hv, ?_, ?_, ?_⟩
  · simpa [hb.state_master_register, h.state, h.drive, hi.no_reset, h.count, h.not_done, h4]
      using fun _ => hn
  · simp [hb.drive_index, h.state, h.drive]
  · simp [hb.burst_count, h.state, h.drive, ht, h.count]

/-- The last word of the burst. -/
theorem burst_ends (h : Reading d size o 0 m) (hi : Alone d size i)
    (hv : i.avm_m1_readdatavalid = true) (hf : i.pop_fifo_almostfull d = false) :
    AtRest d size (followingOffset size o) (step i m) := by
  have hb := step_bus i m
  have ht : takes i m d = true := by simp [takes, h.state, h.drive, hv]
  have hw := chosen_alone h.not_done hi.enabled hf
  refine ⟨track_taken h hi hv, ?_, ?_⟩
  · simp [hb.state_master_register, h.state, h.drive, hi.no_reset, h.count, ht]
  · change (firstOf (wantsWords i m)).1 = d ∧ (firstOf (wantsWords i m)).2 = false
    rw [hw]
    exact ⟨rfl, rfl⟩

end Clocks

end Pauline.LoneChannel
