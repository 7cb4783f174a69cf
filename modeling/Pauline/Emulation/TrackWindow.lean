import Mathlib.Order.Interval.Set.Basic
import Mathlib.Tactic
import Pauline.Library.Clocked
import Pauline.Emulation.TrackCore

/-!
# The track window of the emulated head

The image of a drive is `track_size * max_track` bytes of memory. The head
selects the track whose bytes are read and written: a counter of the tracks
and, beside it, the offset of the current one.
-/

set_option autoImplicit false

namespace Pauline.TrackWindow

/-- The arguments of `alloc_image`. It writes them to the registers of the
drive, and maps and clears `track_size * max_track` bytes, an `int` product,
which the memory must have. -/
structure Image where
  base : ℕ
  track_size : ℕ
  max_track : ℕ
  product : track_size * max_track < 2^31
  mapped : base + track_size * max_track ≤ 2^32
deriving DecidableEq

def Image.bytes (img : Image) : Set ℕ :=
  Set.Ico img.base (img.base + img.track_size * img.max_track)

def Image.image_base_address (img : Image) : BitVec 32 := BitVec.ofNat 32 img.base

def Image.tracks_size (img : Image) : BitVec 32 := BitVec.ofNat 32 img.track_size

def Image.max_tracks_pos (img : Image) : BitVec 8 := BitVec.ofNat 8 img.max_track

def Image.settings (img : Image) : Settings := ⟨img.tracks_size,img.max_tracks_pos⟩

def trackCounter (img : Image) (p : Pins) (s : TrackCore) : TrackCore :=
  img.settings.trackCounter p s

def curTracksBase (img : Image) (s : TrackCore) : BitVec 32 :=
  img.image_base_address + s.tracks_base

def window (img : Image) (s : TrackCore) : Set ℕ :=
  Set.Ico (curTracksBase img s).toNat ((curTracksBase img s).toNat + img.track_size)

def Inside (img : Image) (s : TrackCore) : Prop := window img s ⊆ img.bytes

/-! ## The counter and the offset -/

def Placed (img : Image) (s : TrackCore) : Prop :=
  s.tracks_base = BitVec.ofNat 32 (s.trackposition.toNat * img.track_size)

theorem onReset_placed (img : Image) (s : TrackCore) : Placed img s.onReset := by
  simp [Placed, TrackCore.onReset]

def movesIn (img : Image) (p : Pins) (s : TrackCore) : Bool := img.settings.movesIn p s

theorem trackCounter_cases (img : Image) (p : Pins) (s : TrackCore) :
    (p.clear_cnt = true ∧ (trackCounter img p s).trackposition = 0 ∧
      (trackCounter img p s).tracks_base = 0) ∨
    (movesIn img p s = true ∧ (trackCounter img p s).trackposition = s.trackposition + 1 ∧
      (trackCounter img p s).tracks_base = s.tracks_base + img.tracks_size) ∨
    (movesOut p s = true ∧ (trackCounter img p s).trackposition = s.trackposition - 1 ∧
      (trackCounter img p s).tracks_base =
        if s.trackposition = 1 then 0 else s.tracks_base - img.tracks_size) ∨
    (movesIn img p s = false ∧ (trackCounter img p s).trackposition = s.trackposition ∧
      ((trackCounter img p s).tracks_base = s.tracks_base ∨
        s.trackposition = 0 ∧ (trackCounter img p s).tracks_base = 0)) :=
  img.settings.trackCounter_cases p s

theorem movesIn_toNat (img : Image) (p : Pins) (s : TrackCore) (h : movesIn img p s = true) :
    (s.trackposition + 1).toNat = s.trackposition.toNat + 1 :=
  img.settings.movesIn_toNat p s h

theorem placed_iff (img : Image) (s : TrackCore) : Placed img s ↔ img.settings.Offset s := by
  have hsize : BitVec.ofNat 32 (s.trackposition.toNat * img.tracks_size.toNat) =
      BitVec.ofNat 32 (s.trackposition.toNat * img.track_size) := by
    apply BitVec.eq_of_toNat_eq
    rw [Image.tracks_size]
    simp only [BitVec.toNat_ofNat, Nat.mul_mod_mod]
  rw [Placed, ← hsize]
  rfl

theorem trackCounter_placed (img : Image) (p : Pins) (s : TrackCore) (h : Placed img s) :
    Placed img (trackCounter img p s) := by
  rw [placed_iff] at h ⊢
  exact h.trackCounter p

theorem curTracksBase_toNat (img : Image) (s : TrackCore) (h : Placed img s) :
    (curTracksBase img s).toNat =
      (img.base + s.trackposition.toNat * img.track_size) % 2^32 := by
  rw [curTracksBase, h, Image.image_base_address, ← BitVec.ofNat_add, BitVec.toNat_ofNat]

/-- The selected track lies in the image if and only if the image has it. -/
theorem inside_iff (img : Image) (s : TrackCore) (h : Placed img s)
    (hle : s.trackposition.toNat ≤ img.max_track) :
    Inside img s ↔ img.track_size = 0 ∨ s.trackposition.toNat < img.max_track := by
  have hcur := curTracksBase_toNat img s h
  have hmapped := img.mapped
  have hproduct := img.product
  unfold Inside window Image.bytes
  generalize (curTracksBase img s).toNat = cur at hcur ⊢
  generalize s.trackposition.toNat = pos at hle hcur ⊢
  constructor
  · intro hin
    by_contra! hout
    have hpos : pos = img.max_track := by omega
    rw [hpos, mul_comm] at hcur
    have hmem := hin (Set.left_mem_Ico.mpr (by omega : cur < cur + img.track_size))
    rw [Set.mem_Ico] at hmem
    omega
  · rintro (hzero | hlt)
    · rw [hzero, Nat.add_zero, Set.Ico_self]
      exact Set.empty_subset _
    · have hfit : pos * img.track_size + img.track_size ≤ img.track_size * img.max_track := by
        calc pos * img.track_size + img.track_size
            = img.track_size * (pos + 1) := by ring
          _ ≤ img.track_size * img.max_track := Nat.mul_le_mul_left _ hlt
      obtain hzero | hsize := Nat.eq_zero_or_pos img.track_size
      · simp [hzero]
      · have hwhole : cur = img.base + pos * img.track_size := by
          rw [hcur, Nat.mod_eq_of_lt (by omega)]
        exact Set.Ico_subset_Ico (by omega) (by omega)

/-! ## Runs -/

/-- What may come next: an activation of the unclocked process, a clock edge
or a call of `alloc_image`. -/
inductive Event where
  | activation (p : Pins)
  | edge (p : Pins)
  | alloc (img : Image)

structure Drive where
  image : Image
  core : TrackCore

def step : Event → Drive → Drive
  | .activation p, d => { d with core := internalStepGen p d.core }
  | .edge p, d => { d with core := trackCounter d.image p d.core }
  | .alloc img, d => { d with image := img }

def allocated (img : Image) (s : TrackCore) : Drive := ⟨img,s.onReset⟩

def HasTrack (img : Image) : Prop := img.track_size = 0 ∨ 0 < img.max_track

/-- The head is not stepped in from the last track of the image, and an image
is programmed while the head is on track 0, or with tracks of the same size and
enough of them. -/
def Meets : Event → Drive → Prop
  | .activation _, _ => True
  | .edge p, d =>
    movesIn d.image p d.core = true → d.image.track_size ≠ 0 →
      d.core.trackposition.toNat + 1 ≠ d.image.max_track
  | .alloc img, d => HasTrack img ∧
    (d.core.trackposition = 0 ∨
      img.track_size = d.image.track_size ∧ d.core.trackposition.toNat < img.max_track)

def OnTrack (d : Drive) : Prop :=
  Placed d.image d.core ∧ HasTrack d.image ∧
    (d.image.track_size = 0 ∨ d.core.trackposition.toNat < d.image.max_track)

theorem OnTrack.inside {d : Drive} (h : OnTrack d) : Inside d.image d.core := by
  obtain ⟨hp, hhas, hlt⟩ := h
  obtain hzero | hlt := hlt
  · simp [Inside, window, hzero]
  · exact (inside_iff _ _ hp (by omega)).mpr (Or.inr hlt)

theorem allocated_onTrack (img : Image) (s : TrackCore) (h : HasTrack img) :
    OnTrack (allocated img s) :=
  ⟨onReset_placed img s,h,h⟩

theorem edge_position (img : Image) (p : Pins) (s : TrackCore) :
    (movesIn img p s = true ∧
      (trackCounter img p s).trackposition.toNat = s.trackposition.toNat + 1) ∨
    (movesIn img p s = false ∧
      (trackCounter img p s).trackposition.toNat ≤ s.trackposition.toNat) := by
  obtain ⟨hc, hp, -⟩ | ⟨hm, hp, -⟩ | ⟨hm, hp, -⟩ | ⟨hm, hp, -⟩ := trackCounter_cases img p s
  · exact Or.inr ⟨by simp [movesIn, Settings.movesIn, hc],by simp [hp]⟩
  · exact Or.inl ⟨hm,by rw [hp, movesIn_toNat img p s hm]⟩
  · refine Or.inr ⟨?_,?_⟩
    · simp only [movesOut, Bool.and_eq_true, Bool.not_eq_true'] at hm
      simp [movesIn, Settings.movesIn, hm.1.1.2]
    · rw [hp]
      exact Nat.le_of_succ_le (movesOut_toNat p s hm).le
  · exact Or.inr ⟨hm,by rw [hp]⟩

theorem step_onTrack (e : Event) (d : Drive) (h : OnTrack d) (he : Meets e d) :
    OnTrack (step e d) := by
  obtain ⟨hp, hhas, hlt⟩ := h
  cases e with
  | activation p => exact ⟨hp,hhas,hlt⟩
  | edge p =>
    refine ⟨trackCounter_placed _ p _ hp,hhas,?_⟩
    obtain hzero | hlt := hlt
    · exact Or.inl hzero
    · by_cases hsize : d.image.track_size = 0
      · exact Or.inl hsize
      · refine Or.inr ?_
        obtain ⟨hm, hpos⟩ | ⟨-, hpos⟩ := edge_position d.image p d.core
        · have hlast := he hm hsize
          simp only [step, hpos]
          omega
        · exact lt_of_le_of_lt hpos hlt
  | alloc img =>
    obtain ⟨hhas', hzero | ⟨hsize, hlt'⟩⟩ := he
    · refine ⟨?_,hhas',?_⟩
      · have hbase : d.core.tracks_base = 0 := by simpa [Placed, hzero] using hp
        simp [step, Placed, hzero, hbase]
      · simpa [step, HasTrack, hzero] using hhas'
    · refine ⟨?_,hhas',Or.inr hlt'⟩
      simpa [step, Placed, hsize] using hp

/-- In every run whose calls of `alloc_image` and whose steps meet the
condition the selected track is inside the image, and whatever `trackcore` does
next leaves it there only if it meets the condition too. -/
theorem window_inside_iff (img : Image) (s : TrackCore) (d : Drive) (himg : HasTrack img)
    (hrun : Clocked.Reach step Meets (allocated img s) d) :
    Inside d.image d.core ∧
      (∀ p, Inside d.image (internalStepGen p d.core)) ∧
      ∀ p, Inside d.image (trackCounter d.image p d.core) ↔ Meets (.edge p) d := by
  have hd : OnTrack d :=
    hrun.invariant OnTrack (allocated_onTrack img s himg) fun e d he h => step_onTrack e d h he
  refine ⟨hd.inside,fun p => (step_onTrack (.activation p) d hd trivial).inside,fun p => ?_⟩
  constructor
  · intro hin hm hsize hlast
    obtain ⟨-, hpos⟩ | ⟨hno, -⟩ := edge_position d.image p d.core
    · rw [inside_iff _ _ (trackCounter_placed _ p _ hd.1) (by omega)] at hin
      omega
    · simp [hm] at hno
  · intro he
    exact (step_onTrack (.edge p) d hd he).inside

def loaded : Image := ⟨600*1024*1024,50000,82,by decide,by decide⟩

def idle : Pins := ⟨true,false,true,false,false,false,false⟩

def stepping : Pins := { idle with step := true }

def poweredUp : TrackCore := ⟨false,false,false,false,false,0,0,true,false,false,false⟩

def pulse : List Event :=
  [.activation stepping,.activation stepping,.edge stepping,.activation idle,.activation idle]

def afterPulses (n : ℕ) : Drive :=
  (List.replicate n pulse).flatten.foldl (fun d e => step e d) (allocated loaded poweredUp)

def firstStep : List Event := [.activation stepping,.activation stepping,.edge stepping]

def onTrack1 : Drive := firstStep.foldl (fun d e => step e d) (allocated loaded poweredUp)

theorem window_inside_iff_onTrack1 :
    Inside onTrack1.image onTrack1.core ∧
      (∀ p, Inside onTrack1.image (internalStepGen p onTrack1.core)) ∧
      ∀ p, Inside onTrack1.image (trackCounter onTrack1.image p onTrack1.core) ↔
        Meets (.edge p) onTrack1 :=
  window_inside_iff loaded poweredUp onTrack1 (Or.inr (by decide)) <| by
    have hfirst : Clocked.Reach step Meets (allocated loaded poweredUp)
        (step (.activation stepping) (allocated loaded poweredUp)) :=
      (Clocked.Reach.refl _).tick _ trivial
    have hsecond := hfirst.tick (.activation stepping) trivial
    exact hsecond.tick (.edge stepping) fun _ _ => by decide

/-- 82 step pulses take the head one track beyond the 82 tracks of the image. -/
theorem window_outside :
    ∃ d, Clocked.Reach step (fun e _ => ∀ img, e ≠ .alloc img) (allocated loaded poweredUp) d ∧
      d.image = loaded ∧ HasTrack d.image ∧ ¬ Inside d.image d.core := by
  have himage : (afterPulses 82).image = loaded := by decide +kernel
  refine ⟨afterPulses 82,Clocked.Reach.run _ ?_ _,himage,?_,?_⟩
  · intro e he _ img
    obtain ⟨l, hl, he⟩ := List.mem_flatten.mp he
    rw [List.eq_of_mem_replicate hl] at he
    simp only [pulse, List.mem_cons, List.not_mem_nil, or_false] at he
    rcases he with rfl | rfl | rfl | rfl | rfl <;> simp
  · rw [himage]
    exact Or.inr (by decide)
  · intro hin
    have hcur : (curTracksBase loaded (afterPulses 82).core).toNat =
        600*1024*1024 + 50000 * 82 := by decide +kernel
    rw [himage] at hin
    have hmem := hin (Set.left_mem_Ico.mpr (Nat.lt_add_of_pos_right (by decide)))
    rw [hcur] at hmem
    exact absurd hmem.2 (by decide)

end Pauline.TrackWindow
