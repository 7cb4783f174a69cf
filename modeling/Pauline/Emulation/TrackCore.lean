import Mathlib.Tactic
import Pauline.Library.Clocked

/-!
# The track counter

The position of the emulated head and, beside it, the offset of its track. The
two registers are stepped by branches of their own; the offset stays that of the
position.
-/

set_option autoImplicit false

namespace Pauline.TrackWindow

structure Pins where
  drive_select : Bool
  step : Bool
  dir : Bool
  double_step_mode : Bool
  updown_mode : Bool
  ackheadmove : Bool
  clear_cnt : Bool

structure TrackCore where
  step_sig : Bool
  dir_sig : Bool
  internal_step : Bool
  double_step_ff : Bool
  delayed_dir_sig : Bool
  trackposition : BitVec 8
  tracks_base : BitVec 32
  track00signal : Bool
  headMoved : Bool
  drive_head_step : Bool
  step_sound : Bool

def TrackCore.onReset (s : TrackCore) : TrackCore :=
  { s with
    internal_step := false
    double_step_ff := false
    delayed_dir_sig := false
    trackposition := 0
    tracks_base := 0
    track00signal := true
    drive_head_step := false
    step_sound := false }

/-- One activation of the process `internal_step_gen`. The step it looks at
is the one of the activation before. -/
def internalStepGen (p : Pins) (s : TrackCore) : TrackCore :=
  { s with
    dir_sig := p.dir
    step_sig := if p.updown_mode then p.step || p.dir else p.step
    delayed_dir_sig := p.dir
    internal_step :=
      p.drive_select && s.step_sig && (!p.double_step_mode || s.double_step_ff)
    double_step_ff :=
      if p.drive_select && s.step_sig && p.double_step_mode then !s.double_step_ff
      else s.double_step_ff }

structure Settings where
  tracks_size : BitVec 32
  max_tracks_pos : BitVec 8

def Settings.onStep (g : Settings) (s n : TrackCore) : TrackCore :=
  if s.delayed_dir_sig then
    if s.trackposition < g.max_tracks_pos then
      { n with
        trackposition := s.trackposition + 1
        tracks_base := s.tracks_base + g.tracks_size
        step_sound := true }
    else n
  else
    { n with
      step_sound := s.trackposition ≠ 0
      trackposition := if s.trackposition ≠ 0 then s.trackposition - 1 else s.trackposition
      tracks_base :=
        if s.trackposition ≠ 1 ∧ s.trackposition ≠ 0 then s.tracks_base - g.tracks_size
        else 0 }

def Settings.trackCounter (g : Settings) (p : Pins) (s : TrackCore) : TrackCore :=
  let n := { s with
    drive_head_step := s.internal_step
    step_sound := false
    headMoved := s.internal_step || (s.headMoved && !p.ackheadmove)
    track00signal := s.trackposition = 0 }
  let n := if s.internal_step then g.onStep s n else n
  if p.clear_cnt then { n with trackposition := 0, tracks_base := 0, track00signal := true }
  else n

/-! ## One clock edge -/

def Settings.movesIn (g : Settings) (p : Pins) (s : TrackCore) : Bool :=
  s.internal_step && s.delayed_dir_sig && !p.clear_cnt && s.trackposition < g.max_tracks_pos

def movesOut (p : Pins) (s : TrackCore) : Bool :=
  s.internal_step && !s.delayed_dir_sig && !p.clear_cnt && s.trackposition ≠ 0

/-- What a clock edge does to the counter and to the offset. -/
theorem Settings.trackCounter_cases (g : Settings) (p : Pins) (s : TrackCore) :
    (p.clear_cnt = true ∧ (g.trackCounter p s).trackposition = 0 ∧
      (g.trackCounter p s).tracks_base = 0) ∨
    (g.movesIn p s = true ∧ (g.trackCounter p s).trackposition = s.trackposition + 1 ∧
      (g.trackCounter p s).tracks_base = s.tracks_base + g.tracks_size) ∨
    (movesOut p s = true ∧ (g.trackCounter p s).trackposition = s.trackposition - 1 ∧
      (g.trackCounter p s).tracks_base =
        if s.trackposition = 1 then 0 else s.tracks_base - g.tracks_size) ∨
    (g.movesIn p s = false ∧ (g.trackCounter p s).trackposition = s.trackposition ∧
      ((g.trackCounter p s).tracks_base = s.tracks_base ∨
        s.trackposition = 0 ∧ (g.trackCounter p s).tracks_base = 0)) := by
  cases hc : p.clear_cnt with
  | true => exact Or.inl ⟨rfl,by simp [Settings.trackCounter, hc],by simp [Settings.trackCounter, hc]⟩
  | false =>
    refine Or.inr ?_
    cases hi : s.internal_step with
    | false =>
      refine Or.inr (Or.inr ⟨by simp [Settings.movesIn, hi],?_,Or.inl ?_⟩)
      · simp [Settings.trackCounter, hc, hi]
      · simp [Settings.trackCounter, hc, hi]
    | true =>
      cases hd : s.delayed_dir_sig with
      | true =>
        by_cases hlt : s.trackposition < g.max_tracks_pos
        · refine Or.inl ⟨by simp [Settings.movesIn, hi, hd, hc, hlt],?_,?_⟩
          · simp [Settings.trackCounter, Settings.onStep, hc, hi, hd, hlt]
          · simp [Settings.trackCounter, Settings.onStep, hc, hi, hd, hlt]
        · refine Or.inr (Or.inr ⟨by simp [Settings.movesIn, hlt],?_,Or.inl ?_⟩)
          · simp [Settings.trackCounter, Settings.onStep, hc, hi, hd, hlt]
          · simp [Settings.trackCounter, Settings.onStep, hc, hi, hd, hlt]
      | false =>
        refine Or.inr ?_
        by_cases hz : s.trackposition = 0#8
        · refine Or.inr ⟨by simp [Settings.movesIn, hd],?_,Or.inr ⟨hz,?_⟩⟩
          · simp [Settings.trackCounter, Settings.onStep, hc, hi, hd, hz]
          · simp [Settings.trackCounter, Settings.onStep, hc, hi, hd, hz]
        · refine Or.inl ⟨by simp [movesOut, hi, hd, hc, hz],?_,?_⟩
          · simp [Settings.trackCounter, Settings.onStep, hc, hi, hd, hz]
          · by_cases hone : s.trackposition = 1#8
            · simp [Settings.trackCounter, Settings.onStep, hc, hi, hd, hone]
            · simp [Settings.trackCounter, Settings.onStep, hc, hi, hd, hz, hone]

theorem Settings.movesIn_toNat (g : Settings) (p : Pins) (s : TrackCore)
    (h : g.movesIn p s = true) :
    (s.trackposition + 1).toNat = s.trackposition.toNat + 1 := by
  simp only [Settings.movesIn, Bool.and_eq_true, decide_eq_true_eq] at h
  have hlt : s.trackposition.toNat < g.max_tracks_pos.toNat := h.2
  have hmax := g.max_tracks_pos.isLt
  have hone : (1 : BitVec 8).toNat = 1 := rfl
  rw [BitVec.toNat_add, hone]
  omega

theorem movesOut_toNat (p : Pins) (s : TrackCore) (h : movesOut p s = true) :
    (s.trackposition - 1).toNat + 1 = s.trackposition.toNat := by
  simp only [movesOut, Bool.and_eq_true, decide_eq_true_eq] at h
  have hlt := s.trackposition.isLt
  have hpos : s.trackposition.toNat ≠ 0 := fun h0 => h.2 (BitVec.eq_of_toNat_eq (by simpa using h0))
  have hone : (1 : BitVec 8).toNat = 1 := rfl
  rw [BitVec.toNat_sub, hone]
  omega

def Settings.Offset (g : Settings) (s : TrackCore) : Prop :=
  s.tracks_base = BitVec.ofNat 32 (s.trackposition.toNat * g.tracks_size.toNat)

theorem Settings.Offset.trackCounter {g : Settings} {s : TrackCore} (h : g.Offset s) (p : Pins) :
    g.Offset (g.trackCounter p s) := by
  unfold Settings.Offset at h ⊢
  obtain ⟨-, hp, hb⟩ | ⟨hm, hp, hb⟩ | ⟨hm, hp, hb⟩ | ⟨-, hp, hb⟩ := g.trackCounter_cases p s
  · simp [hp, hb]
  · rw [hp, hb, g.movesIn_toNat p s hm, h, Nat.succ_mul, BitVec.ofNat_add, BitVec.ofNat_toNat,
      BitVec.setWidth_eq]
  · have hpos := movesOut_toNat p s hm
    rw [hp, hb]
    split
    next hone => simp [hone]
    next hone =>
      rw [h, ← hpos, Nat.succ_mul, BitVec.ofNat_add, BitVec.ofNat_toNat, BitVec.setWidth_eq,
        BitVec.add_sub_cancel]
  · rw [hp]
    obtain hb | ⟨hz, hb⟩ := hb
    · rw [hb, h]
    · simp [hz, hb]

structure Settings.OnTrack (g : Settings) (s : TrackCore) : Prop where
  offset : g.Offset s
  within : s.trackposition ≤ g.max_tracks_pos

theorem Settings.onReset_onTrack (g : Settings) (s : TrackCore) : g.OnTrack s.onReset :=
  ⟨by simp [Settings.Offset, TrackCore.onReset],BitVec.le_def.mpr (Nat.zero_le _)⟩

theorem Settings.OnTrack.trackCounter {g : Settings} {s : TrackCore} (h : g.OnTrack s)
    (p : Pins) : g.OnTrack (g.trackCounter p s) := by
  refine ⟨h.offset.trackCounter p,?_⟩
  have hwithin : s.trackposition.toNat ≤ g.max_tracks_pos.toNat := h.within
  obtain ⟨-, hp, -⟩ | ⟨hm, hp, -⟩ | ⟨hm, hp, -⟩ | ⟨-, hp, -⟩ := g.trackCounter_cases p s
  · rw [hp]
    exact BitVec.le_def.mpr (Nat.zero_le _)
  · have hpos := g.movesIn_toNat p s hm
    simp only [Settings.movesIn, Bool.and_eq_true, decide_eq_true_eq] at hm
    have hlt : s.trackposition.toNat < g.max_tracks_pos.toNat := hm.2
    rw [hp, BitVec.le_def, hpos]
    omega
  · have hpos := movesOut_toNat p s hm
    rw [hp, BitVec.le_def]
    omega
  · rw [hp]
    exact h.within

theorem Settings.trackCounter_track00signal (g : Settings) (p : Pins) (s : TrackCore) :
    (g.trackCounter p s).track00signal = (decide (s.trackposition = 0) || p.clear_cnt) := by
  unfold Settings.trackCounter Settings.onStep
  cases p.clear_cnt with
  | true => simp
  | false =>
    simp only [Bool.false_eq_true, if_false, Bool.or_false]
    split_ifs <;> rfl

/-! ## Runs -/

inductive Signal where
  | activation (p : Pins)
  | clock (p : Pins)

def Settings.event (g : Settings) : Signal → TrackCore → TrackCore
  | .activation p, s => internalStepGen p s
  | .clock p, s => g.trackCounter p s

theorem Settings.OnTrack.event {g : Settings} {s : TrackCore} (h : g.OnTrack s) (e : Signal) :
    g.OnTrack (g.event e s) := by
  cases e with
  | activation p => exact ⟨h.offset,h.within⟩
  | clock p => exact h.trackCounter p

/-- After the reset, whatever the pins have done, the offset is that of the
position, the position is one of the drive's, and the next clock edge signals
track 0 exactly on it or when the counter is cleared. -/
theorem head_position (g : Settings) (s : TrackCore) (events : List Signal) (p : Pins) :
    let t := events.foldl (fun t e => g.event e t) s.onReset
    t.tracks_base.toNat = t.trackposition.toNat * g.tracks_size.toNat % 2^32 ∧
      t.trackposition ≤ g.max_tracks_pos ∧
      ((g.trackCounter p t).track00signal = true ↔ t.trackposition = 0 ∨ p.clear_cnt = true) := by
  intro t
  have hrun : Clocked.Reach g.event (fun _ _ => True) s.onReset t :=
    Clocked.Reach.run events (fun _ _ _ => trivial) s.onReset
  have ht : g.OnTrack t := hrun.invariant g.OnTrack (g.onReset_onTrack s) fun e _ _ h => h.event e
  refine ⟨?_,ht.within,?_⟩
  · have hoffset : t.tracks_base =
        BitVec.ofNat 32 (t.trackposition.toNat * g.tracks_size.toNat) := ht.offset
    rw [hoffset, BitVec.toNat_ofNat]
  · rw [g.trackCounter_track00signal, Bool.or_eq_true, decide_eq_true_eq]

end Pauline.TrackWindow
