import Pauline.Control.Rig

/-!
# The track loop of a dump

`readdisk` looks for track 0, steps to the first track and reads track after
track, each into a file that bears its number.
-/

set_option autoImplicit false

namespace Pauline.HeadStepper

structure DumpParams where
  start_track : ℤ
  max_track : ℤ
  start_side : ℤ
  max_side : ℤ
  doublestep : Bool

structure Drive where
  max_steps : ℤ
  current_head_position : ℤ

section Loops
variable {m : Type → Type} [Monad m]

/-- The loop over the sides, with the sides still to come. False if it is left
for the end of the dump. -/
def sideLoop (readSide : ℤ → m Bool) : ℕ → ℤ → m Bool
  | 0, _ => pure true
  | n+1, j => do
    let go ← readSide j
    if go then sideLoop readSide n (j+1) else pure false

def trackLoop (readSides : ℤ → m Bool) (nextTrack : ℤ → m Unit) : ℕ → ℤ → m Unit
  | 0, _ => pure ()
  | n+1, i => do
    let go ← readSides i
    if go then
      nextTrack i
      trackLoop readSides nextTrack n (i+1)
    else pure ()

variable {σ : Type}

theorem sideLoop_run (readSide : ℤ → StateT σ m Bool) (n : ℕ) (j : ℤ) (s : σ) :
    (sideLoop readSide (n+1) j).run s = (readSide j).run s >>= fun r =>
      if r.1 then (sideLoop readSide n (j+1)).run r.2 else pure (false,r.2) := by
  rw [sideLoop, StateT.run_bind]
  refine bind_congr fun r => ?_
  split <;> rfl

theorem trackLoop_run (readSides : ℤ → StateT σ m Bool) (nextTrack : ℤ → StateT σ m Unit)
    (n : ℕ) (i : ℤ) (s : σ) :
    (trackLoop readSides nextTrack (n+1) i).run s = (readSides i).run s >>= fun r =>
      if r.1 then (nextTrack i).run r.2 >>= fun r =>
        (trackLoop readSides nextTrack n (i+1)).run r.2
      else pure ((),r.2) := by
  rw [trackLoop, StateT.run_bind]
  refine bind_congr fun r => ?_
  split
  · exact StateT.run_bind ..
  · rfl

end Loops

/-- How the reading of one side of a track comes to its end: `stop_process` is
set before it, the chunks of the whole side are written, or one of them could
not be had. -/
inductive Outcome where
  | stopped
  | read
  | failed

structure Capture where
  track : ℤ
  side : ℤ
  cylinder : ℕ
  /-- The line `floppy_ctrl_side` has set. -/
  side1 : Bool

structure Reader where
  rig : Rig
  captures : List Capture

def Reader.capture (track side : ℤ) (r : Reader) : Reader :=
  { r with captures := r.captures ++ [⟨track,side,r.rig.head.cylinder,side ≠ 0⟩] }

def Reader.readSide (outcome : ℤ → ℤ → Outcome) (i j : ℤ) (r : Reader) : Bool × Reader :=
  match outcome i j with
  | .stopped => (false,r)
  | .read => (true,r.capture i j)
  | .failed => (false,r.capture i j)

def readSides (outcome : ℤ → ℤ → Outcome) (i : ℤ) (n : ℕ) (j : ℤ) (r : Reader) : Bool × Reader :=
  (sideLoop (m := StateM Reader) (Reader.readSide outcome i) n j).run r

def iterations (first last : ℤ) : ℕ := (last + 1 - first).toNat

def nextTrack (p : DumpParams) (r : Rig) : Rig := r.moveHead true (if p.doublestep then 2 else 1)

def Reader.nextTrack (p : DumpParams) (last i : ℤ) (r : Reader) : Reader :=
  if i < last then { r with rig := HeadStepper.nextTrack p r.rig } else r

def readTracks (p : DumpParams) (outcome : ℤ → ℤ → Outcome) (last : ℤ) (n : ℕ) (i : ℤ)
    (r : Reader) : Reader :=
  ((trackLoop (m := StateM Reader)
    (fun i => readSides outcome i (iterations p.start_side p.max_side) p.start_side)
    (fun i r => ((),r.nextTrack p last i)) n i).run r).2

/-- The search for track 0 and the steps to the first track; none if track 0
was not found. Without a start track the head stays where it is. -/
def seek (p : DumpParams) (r : Rig) : Option (Rig × ℤ × ℤ) :=
  if p.start_track ≠ -1 then
    let (i, r) := r.seekTrack00 160
    if i ≥ 160 then none else some (r.stepsIn p.start_track.toNat,p.start_track,p.max_track)
  else
    let start := if p.doublestep then r.position.tdiv 2 else r.position
    some (r,start,start)

def clampTrack (drive_max_steps track : ℤ) : ℤ :=
  if track > drive_max_steps then drive_max_steps else track

def readdisk (p : DumpParams) (drive_max_steps : ℤ) (outcome : ℤ → ℤ → Outcome) (r : Rig) :
    Reader :=
  match seek p r with
  | none => ⟨(r.seekTrack00 160).2,[]⟩
  | some (r, first, last) =>
    let last := clampTrack drive_max_steps last
    readTracks p outcome last (iterations first last) first ⟨r,[]⟩

/-! ## The captures of the loops -/

theorem readSides_succ (outcome : ℤ → ℤ → Outcome) (i : ℤ) (n : ℕ) (j : ℤ) (r : Reader) :
    readSides outcome i (n+1) j r =
      match outcome i j with
      | .stopped => (false,r)
      | .read => readSides outcome i n (j+1) (r.capture i j)
      | .failed => (false,r.capture i j) := by
  unfold readSides
  rw [sideLoop_run]
  have hside : StateT.run (m := Id) (Reader.readSide outcome i j) r =
      Reader.readSide outcome i j r := rfl
  rw [hside, Reader.readSide]
  cases outcome i j <;> rfl

theorem readTracks_succ (p : DumpParams) (outcome : ℤ → ℤ → Outcome) (last : ℤ) (n : ℕ) (i : ℤ)
    (r : Reader) :
    readTracks p outcome last (n+1) i r =
      match readSides outcome i (iterations p.start_side p.max_side) p.start_side r with
      | (true, r) => readTracks p outcome last n (i+1) (r.nextTrack p last i)
      | (false, r) => r := by
  unfold readTracks
  rw [trackLoop_run]
  have hsides : StateT.run (m := Id) (readSides outcome i (iterations p.start_side p.max_side)
    p.start_side) r = readSides outcome i (iterations p.start_side p.max_side) p.start_side r := rfl
  rw [hsides]
  generalize readSides outcome i (iterations p.start_side p.max_side) p.start_side r = res
  obtain ⟨go, r'⟩ := res
  cases go <;> rfl

theorem readSides_rig (outcome : ℤ → ℤ → Outcome) (i : ℤ) (n : ℕ) (j : ℤ) (r : Reader) :
    (readSides outcome i n j r).2.rig = r.rig := by
  induction n generalizing j r with
  | zero => rfl
  | succ n ih =>
    rw [readSides_succ]
    split
    · rfl
    · exact ih _ _
    · rfl

theorem readSides_mem (outcome : ℤ → ℤ → Outcome) (i : ℤ) (n : ℕ) (j : ℤ) (r : Reader)
    (c : Capture) (hc : c ∈ (readSides outcome i n j r).2.captures) :
    c ∈ r.captures ∨ ∃ k < n, c = ⟨i,j+k,r.rig.head.cylinder,j + (k : ℤ) ≠ 0⟩ := by
  induction n generalizing j r with
  | zero => exact Or.inl hc
  | succ n ih =>
    rw [readSides_succ] at hc
    have hone : ∀ c ∈ (r.capture i j).captures,
        c ∈ r.captures ∨ c = ⟨i,j,r.rig.head.cylinder,j ≠ 0⟩ := fun c hc => by
      simpa [Reader.capture] using hc
    split at hc
    · exact Or.inl hc
    · obtain hc | ⟨k, hk, rfl⟩ := ih (j+1) _ hc
      · obtain hc | rfl := hone c hc
        · exact Or.inl hc
        · exact Or.inr ⟨0,Nat.succ_pos n,by simp⟩
      · refine Or.inr ⟨k+1,by omega,?_⟩
        simp [Reader.capture, add_assoc, add_comm (k : ℤ)]
    · obtain hc | rfl := hone c hc
      · exact Or.inl hc
      · exact Or.inr ⟨0,Nat.succ_pos n,by simp⟩

theorem readSides_all (i : ℤ) (n : ℕ) (j : ℤ) (r : Reader) :
    readSides (fun _ _ => .read) i n j r =
      (true,⟨r.rig,r.captures ++
        (List.range n).map fun k => ⟨i,j+k,r.rig.head.cylinder,j + (k : ℤ) ≠ 0⟩⟩) := by
  induction n generalizing j r with
  | zero =>
    have hnone : readSides (fun _ _ => .read) i 0 j r = (true,r) := rfl
    rw [hnone, List.range_zero, List.map_nil, List.append_nil]
  | succ n ih =>
    rw [readSides_succ, ih, List.range_succ_eq_map]
    simp [Reader.capture, add_comm, Function.comp_def]
    omega

theorem nextTrack_captures (p : DumpParams) (last i : ℤ) (r : Reader) :
    (r.nextTrack p last i).captures = r.captures := by
  unfold Reader.nextTrack
  split_ifs <;> rfl

def stepsPerTrack (p : DumpParams) : ℕ := if p.doublestep then 2 else 1

theorem stepCount_track (p : DumpParams) :
    stepCount (if p.doublestep then 2 else 1) = stepsPerTrack p := by
  unfold stepsPerTrack
  split <;> rfl

theorem nextTrack_head (p : DumpParams) (r : Rig) :
    (nextTrack p r).head = (Head.step true)^[stepsPerTrack p] r.head := by
  rw [nextTrack, moveHead_head, stepCount_track]

def captureOf (p : DumpParams) (first : ℤ) (h : Head) (m k : ℕ) : Capture where
  track := first + m
  side := p.start_side + k
  cylinder := ((Head.step true)^[stepsPerTrack p * m] h).cylinder
  side1 := p.start_side + (k : ℤ) ≠ 0

theorem captureOf_next (p : DumpParams) (first : ℤ) (r : Rig) (m k : ℕ) :
    captureOf p (first+1) (nextTrack p r).head m k = captureOf p first r.head (m+1) k := by
  simp only [captureOf, nextTrack_head, ← Function.iterate_add_apply, Capture.mk.injEq, and_true,
    true_and]
  refine ⟨by push_cast; ring,?_⟩
  rw [show stepsPerTrack p * m + stepsPerTrack p = stepsPerTrack p * (m+1) from rfl]

/-- A capture of the loop over the tracks: the head has made the steps of the
tracks before. -/
theorem readTracks_mem (p : DumpParams) (outcome : ℤ → ℤ → Outcome) (last : ℤ) (n : ℕ)
    (i : ℤ) (hn : n = iterations i last) (r : Reader) (c : Capture)
    (hc : c ∈ (readTracks p outcome last n i r).captures) :
    c ∈ r.captures ∨
      ∃ m < n, ∃ k < iterations p.start_side p.max_side, c = captureOf p i r.rig.head m k := by
  induction n generalizing i r with
  | zero => exact Or.inl hc
  | succ n ih =>
    have hside : ∀ c ∈ (readSides outcome i (iterations p.start_side p.max_side)
        p.start_side r).2.captures, c ∈ r.captures ∨
        ∃ m < n+1, ∃ k < iterations p.start_side p.max_side,
          c = captureOf p i r.rig.head m k := by
      intro c hc
      obtain hc | ⟨k, hk, rfl⟩ := readSides_mem _ _ _ _ _ c hc
      · exact Or.inl hc
      · exact Or.inr ⟨0,Nat.succ_pos n,k,hk,by simp [captureOf]⟩
    have hrig := readSides_rig outcome i (iterations p.start_side p.max_side) p.start_side r
    rw [readTracks_succ] at hc
    generalize readSides outcome i (iterations p.start_side p.max_side) p.start_side r = res
      at hc hside hrig
    obtain ⟨go, r'⟩ := res
    cases go with
    | false => exact hside c hc
    | true =>
      simp only at hc
      have hn' : n = iterations (i+1) last := by
        unfold iterations at hn ⊢
        omega
      obtain hc | ⟨m, hm, k, hk, rfl⟩ := ih (i+1) hn' _ hc
      · exact hside c (by rwa [nextTrack_captures] at hc)
      · have hlast : i < last := by
          unfold iterations at hn'
          omega
        refine Or.inr ⟨m+1,by omega,k,hk,?_⟩
        rw [Reader.nextTrack, if_pos hlast, captureOf_next, ← hrig]

theorem readTracks_all (p : DumpParams) (last : ℤ) (n : ℕ) (i : ℤ) (hn : n = iterations i last)
    (r : Reader) :
    (∀ c ∈ r.captures, c ∈ (readTracks p (fun _ _ => .read) last n i r).captures) ∧
      ∀ m < n, ∀ k < iterations p.start_side p.max_side,
        captureOf p i r.rig.head m k ∈ (readTracks p (fun _ _ => .read) last n i r).captures := by
  induction n generalizing i r with
  | zero => exact ⟨fun c hc => hc,fun m hm => absurd hm (Nat.not_lt_zero m)⟩
  | succ n ih =>
    have hn' : n = iterations (i+1) last := by
      unfold iterations at hn ⊢
      omega
    rw [readTracks_succ, readSides_all]
    simp only
    obtain ⟨hkeep, hall⟩ := ih (i+1) hn' _
    refine ⟨fun c hc => hkeep c ?_,fun m hm k hk => ?_⟩
    · simp [nextTrack_captures, hc]
    · cases m with
      | zero =>
        refine hkeep _ ?_
        have hmem : captureOf p i r.rig.head 0 k ∈
            (List.range (iterations p.start_side p.max_side)).map fun k : ℕ =>
              (⟨i,p.start_side+k,r.rig.head.cylinder,p.start_side + (k : ℤ) ≠ 0⟩ : Capture) :=
          List.mem_map.mpr ⟨k,List.mem_range.mpr hk,by simp [captureOf]⟩
        rw [nextTrack_captures]
        exact List.mem_append_right _ hmem
      | succ m =>
        have hlast : i < last := by
          unfold iterations at hn'
          omega
        have hnext := hall m (by omega) k hk
        simpa only [Reader.nextTrack, if_pos hlast, captureOf_next] using hnext

/-! ## The right cylinder in the right file -/

def SideSelected (side : ℤ) (side1 : Bool) : Prop :=
  side = 0 ∧ side1 = false ∨ side = 1 ∧ side1 = true

def Capture.Right (doublestep : Bool) (c : Capture) : Prop :=
  (c.cylinder : ℤ) = (if doublestep then 2 * c.track else c.track) ∧ SideSelected c.side c.side1

/-- The first track of the loop: without a start track the one of the software's
position. -/
def firstTrack (p : DumpParams) (r : Rig) : ℤ :=
  if p.start_track ≠ -1 then p.start_track
  else if p.doublestep then r.position.tdiv 2 else r.position

def lastTrack (p : DumpParams) (drive_max_steps : ℤ) (r : Rig) : ℤ :=
  clampTrack drive_max_steps (if p.start_track ≠ -1 then p.max_track else firstTrack p r)

def counterAtTrack00 (r : Rig) : ℕ := if r.head.cylinder = 0 then r.head.track_pos else 0

def Reads (p : DumpParams) (drive_max_steps : ℤ) (r : Rig) : Prop :=
  (p.start_track ≠ -1 → r.head.cylinder < 160) ∧
    firstTrack p r ≤ lastTrack p drive_max_steps r ∧ p.start_side ≤ p.max_side

/-- Nothing is read, or the sides are 0 and 1, a double step dump starts at track
0, no track is below 0, and the counter of the stepper has room for the last
track; without a start track, the position is that of the head. -/
def DumpMeets (p : DumpParams) (drive_max_steps : ℤ) (r : Rig) : Prop :=
  Reads p drive_max_steps r →
    (0 ≤ p.start_side ∧ p.max_side ≤ 1) ∧
    if p.start_track ≠ -1 then
      0 ≤ p.start_track ∧ (p.doublestep = true → p.start_track = 0) ∧
        counterAtTrack00 r + stepsPerTrack p * lastTrack p drive_max_steps r ≤ 900
    else
      (r.head.cylinder : ℤ) = if p.doublestep then 2 * firstTrack p r else firstTrack p r

def headAtFirst (p : DumpParams) (r : Rig) : Head :=
  if p.start_track ≠ -1 then
    (Head.step true)^[p.start_track.toNat] (r.seekTrack00 160).2.head
  else r.head

theorem readdisk_mem (p : DumpParams) (drive_max_steps : ℤ) (outcome : ℤ → ℤ → Outcome) (r : Rig)
    (c : Capture) (hc : c ∈ (readdisk p drive_max_steps outcome r).captures) :
    (p.start_track ≠ -1 → r.head.cylinder < 160) ∧
      ∃ m < iterations (firstTrack p r) (lastTrack p drive_max_steps r),
        ∃ k < iterations p.start_side p.max_side,
          c = captureOf p (firstTrack p r) (headAtFirst p r) m k := by
  unfold readdisk seek at hc
  unfold lastTrack headAtFirst firstTrack
  by_cases hstart : p.start_track ≠ -1
  · have hfound := (seekTrack00_cylinder 160 r).1
    simp only [if_pos hstart] at hc ⊢
    by_cases hlost : (r.seekTrack00 160).1 ≥ 160
    · simp [hlost] at hc
    · rw [if_neg hlost] at hc
      obtain hc | hc := readTracks_mem p outcome _ _ _ rfl _ c hc
      · simp at hc
      · refine ⟨fun _ => by omega,?_⟩
        simpa only [stepsIn_head] using hc
  · simp only [if_neg hstart] at hc ⊢
    obtain hc | hc := readTracks_mem p outcome _ _ _ rfl _ c hc
    · simp at hc
    · exact ⟨fun h => absurd h hstart,hc⟩

theorem readdisk_all (p : DumpParams) (drive_max_steps : ℤ) (r : Rig)
    (hfound : p.start_track ≠ -1 → r.head.cylinder < 160) (m k : ℕ)
    (hm : m < iterations (firstTrack p r) (lastTrack p drive_max_steps r))
    (hk : k < iterations p.start_side p.max_side) :
    captureOf p (firstTrack p r) (headAtFirst p r) m k ∈
      (readdisk p drive_max_steps (fun _ _ => .read) r).captures := by
  unfold readdisk seek
  unfold lastTrack headAtFirst firstTrack at *
  by_cases hstart : p.start_track ≠ -1
  · have hsteps := (seekTrack00_cylinder 160 r).1
    have hlost : ¬ (r.seekTrack00 160).1 ≥ 160 := by
      have hcyl := hfound hstart
      omega
    simp only [if_pos hstart] at hm ⊢
    rw [if_neg hlost]
    have hall := (readTracks_all p _ _ _ rfl ⟨(r.seekTrack00 160).2.stepsIn p.start_track.toNat,[]⟩).2
      m hm k hk
    simpa only [stepsIn_head] using hall
  · simp only [if_neg hstart] at hm ⊢
    exact (readTracks_all p _ _ _ rfl ⟨r,[]⟩).2 m hm k hk

theorem seekTrack00_found (r : Rig) (h : r.head.cylinder < 160) :
    (r.seekTrack00 160).2.head.cylinder = 0 ∧
      (r.seekTrack00 160).2.head.track_pos = counterAtTrack00 r := by
  refine ⟨?_,seekTrack00_track_pos 160 r (by omega)⟩
  rw [(seekTrack00_cylinder 160 r).2]
  omega

theorem captureOf_cylinder (p : DumpParams) (r : Rig) (hstart : p.start_track ≠ -1)
    (hcyl : r.head.cylinder < 160) (first : ℤ) (m k : ℕ) :
    (captureOf p first (headAtFirst p r) m k).cylinder =
      pulseCount true (stepsPerTrack p * m + p.start_track.toNat) (r.seekTrack00 160).2.head := by
  obtain ⟨hzero, -⟩ := seekTrack00_found r hcyl
  simp only [captureOf, headAtFirst, if_pos hstart, ← Function.iterate_add_apply]
  rw [step_inward_cylinder _ _ (r.seekTrack00 160).2.counter_le, hzero, Nat.zero_add]

theorem sideSelected_iff (side : ℤ) :
    SideSelected side (side ≠ 0) ↔ side = 0 ∨ side = 1 := by
  unfold SideSelected
  simp only [decide_eq_false_iff_not, decide_eq_true_eq]
  omega

theorem sides_iff (p : DumpParams) (h : p.start_side ≤ p.max_side) :
    (∀ k < iterations p.start_side p.max_side,
      SideSelected (p.start_side + k) (p.start_side + (k : ℤ) ≠ 0)) ↔
      0 ≤ p.start_side ∧ p.max_side ≤ 1 := by
  simp only [sideSelected_iff]
  unfold iterations
  constructor
  · intro hall
    have hfirst := hall 0 (by omega)
    have hlast := hall (p.max_side - p.start_side).toNat (by omega)
    omega
  · intro hrange k hk
    omega

theorem single_steps_iff (start last : ℤ) (h : Head) (hle : h.track_pos ≤ 900)
    (hlast : start ≤ last) :
    (∀ m < iterations start last, (pulseCount true (1 * m + start.toNat) h : ℤ) = start + m) ↔
      0 ≤ start ∧ h.track_pos + last ≤ 900 := by
  constructor
  · intro hall
    have hfirst := hall 0 (by unfold iterations; omega)
    have hend := hall (last - start).toNat (by unfold iterations; omega)
    have hpos : 0 ≤ start := by omega
    have hsum : 1 * (last - start).toNat + start.toNat = last.toNat := by omega
    rw [hsum] at hend
    have hroom := (pulseCount_eq_iff last.toNat h hle).mp (by omega)
    omega
  · rintro ⟨hpos, hroom⟩ m hm
    unfold iterations at hm
    rw [(pulseCount_eq_iff (1 * m + start.toNat) h hle).mpr (by omega)]
    omega

/-- After a search, two cylinders a track, but one for each track before the
first. -/
theorem double_steps_iff (start last : ℤ) (h : Head) (hle : h.track_pos ≤ 900)
    (hlast : start ≤ last) :
    (∀ m < iterations start last,
      (pulseCount true (2 * m + start.toNat) h : ℤ) = 2 * (start + m)) ↔
      start = 0 ∧ h.track_pos + 2 * last ≤ 900 := by
  constructor
  · intro hall
    have hfirst := hall 0 (by unfold iterations; omega)
    have hbound := pulseCount_le (2 * 0 + start.toNat) h
    have hzero : start = 0 := by omega
    have hend := hall last.toNat (by unfold iterations; omega)
    have hsum : 2 * last.toNat + start.toNat = 2 * last.toNat := by omega
    rw [hsum] at hend
    have hroom := (pulseCount_eq_iff (2 * last.toNat) h hle).mp (by omega)
    omega
  · rintro ⟨rfl, hroom⟩ m hm
    unfold iterations at hm
    rw [(pulseCount_eq_iff (2 * m + (0 : ℤ).toNat) h hle).mpr (by omega)]
    omega

theorem tracks_iff (p : DumpParams) (drive_max_steps : ℤ) (r : Rig)
    (hreads : Reads p drive_max_steps r) (k : ℕ) :
    (∀ m < iterations (firstTrack p r) (lastTrack p drive_max_steps r),
      ((captureOf p (firstTrack p r) (headAtFirst p r) m k).cylinder : ℤ) =
        if p.doublestep then 2 * (firstTrack p r + m) else firstTrack p r + m) ↔
      if p.start_track ≠ -1 then
        0 ≤ p.start_track ∧ (p.doublestep = true → p.start_track = 0) ∧
          counterAtTrack00 r + stepsPerTrack p * lastTrack p drive_max_steps r ≤ 900
      else
        (r.head.cylinder : ℤ) = if p.doublestep then 2 * firstTrack p r else firstTrack p r := by
  obtain ⟨hfound, hfirst, -⟩ := hreads
  by_cases hstart : p.start_track ≠ -1
  · have hcyl := hfound hstart
    have htrack : firstTrack p r = p.start_track := if_pos hstart
    have hle := (r.seekTrack00 160).2.counter_le
    rw [if_pos hstart, ← (seekTrack00_found r hcyl).2]
    simp only [captureOf_cylinder p r hstart hcyl, htrack] at hfirst ⊢
    cases hd : p.doublestep with
    | false =>
      have hsteps : stepsPerTrack p = 1 := by simp [stepsPerTrack, hd]
      rw [hsteps]
      simpa using single_steps_iff _ _ _ hle hfirst
    | true =>
      have hsteps : stepsPerTrack p = 2 := by simp [stepsPerTrack, hd]
      rw [hsteps]
      have hdouble := double_steps_iff _ _ _ hle hfirst
      simp only [if_true, Nat.cast_ofNat, forall_const]
      refine hdouble.trans ⟨fun h => ⟨h.1.ge,h.1,h.2⟩,fun h => h.2⟩
  · have hlast : lastTrack p drive_max_steps r = firstTrack p r := by
      unfold lastTrack clampTrack at hfirst ⊢
      simp only [if_neg hstart] at hfirst ⊢
      split at hfirst
      next hless => omega
      next hless => rw [if_neg hless]
    have hone : iterations (firstTrack p r) (lastTrack p drive_max_steps r) = 1 := by
      rw [hlast, iterations]
      omega
    rw [if_neg hstart, hone]
    constructor
    · intro hall
      simpa [captureOf, headAtFirst, hstart] using hall 0 (by omega)
    · intro hpos m hm
      obtain rfl : m = 0 := by omega
      simpa [captureOf, headAtFirst, hstart] using hpos

/-- Everything a dump captures, whether it is stopped or not, is read on the
cylinder and on the side its file is named after, if and only if the condition
holds. -/
theorem captures_right_iff (p : DumpParams) (drive_max_steps : ℤ) (r : Rig) :
    (∀ outcome, ∀ c ∈ (readdisk p drive_max_steps outcome r).captures, c.Right p.doublestep) ↔
      DumpMeets p drive_max_steps r := by
  constructor
  · intro hall hreads
    have htracks := tracks_iff p drive_max_steps r hreads 0
    obtain ⟨hfound, hfirst, hside⟩ := hreads
    have hmem : ∀ m < iterations (firstTrack p r) (lastTrack p drive_max_steps r),
        ∀ k < iterations p.start_side p.max_side,
          (captureOf p (firstTrack p r) (headAtFirst p r) m k).Right p.doublestep :=
      fun m hm k hk => hall _ _ (readdisk_all p drive_max_steps r hfound m k hm hk)
    refine ⟨(sides_iff p hside).mp fun k hk => ?_,htracks.mp fun m hm => ?_⟩
    · exact (hmem 0 (by unfold iterations; omega) k hk).2
    · exact (hmem m hm 0 (by unfold iterations; omega)).1
  · intro hmeets outcome c hc
    obtain ⟨hfound, m, hm, k, hk, rfl⟩ := readdisk_mem p drive_max_steps outcome r c hc
    have hreads : Reads p drive_max_steps r := by
      refine ⟨hfound,?_,?_⟩
      · unfold iterations at hm
        omega
      · unfold iterations at hk
        omega
    obtain ⟨hsides, htracks⟩ := hmeets hreads
    refine ⟨?_,?_⟩
    · exact (tracks_iff p drive_max_steps r hreads k).mpr htracks m hm
    · exact (sides_iff p hreads.2.2).mpr hsides k hk

def calibrated : Rig := ⟨⟨0,0,[]⟩,0,0,by decide⟩

/-- Track 10 of a double step dump that starts there is read on cylinder 10. -/
theorem doublestep_start_misread :
    ∃ c ∈ (readdisk ⟨10,12,0,0,true⟩ 82 (fun _ _ => .read) calibrated).captures,
      c.track = 10 ∧ c.cylinder = 10 ∧ ¬ c.Right true := by
  refine ⟨_,readdisk_all ⟨10,12,0,0,true⟩ 82 calibrated (fun _ => by decide) 0 0 (by decide)
    (by decide),rfl,rfl,fun hright => ?_⟩
  exact absurd hright.1 (by decide)

end Pauline.HeadStepper
