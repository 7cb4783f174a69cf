import Pauline.Control.ReadDisk

/-!
# The travel of the head

The commands that move the head of a drive, and the innermost cylinder each of
them takes it to. `drive_max_steps` is the limit they are given.
-/

set_option autoImplicit false

namespace Pauline.HeadStepper

def Rig.zeroAtTrack00 (r : Rig) : Rig := if r.atTrack00 then { r with position := 0 } else r

def curTrack (doublestep : Bool) (r : Rig) : ℤ :=
  if doublestep then r.position.tdiv 2 else r.position

def headstep (drive_max_steps : ℤ) (track : BitVec 32) (doublestep : Bool) (r : Rig) : Rig :=
  if curTrack doublestep r ≥ drive_max_steps ∧ track.toInt > 0 then r
  else
    let dir := !track.slt 0
    let track := if track.slt 0 then -track else track
    let r := r.moveHead dir track
    let r := if doublestep then r.moveHead dir track else r
    r.zeroAtTrack00

def movehead (drive_max_steps : ℤ) (track : ℤ) (doublestep : Bool) (r : Rig) : Rig :=
  let cur_track := curTrack doublestep r
  let track := clampTrack drive_max_steps track
  let (track, dir) := if cur_track < track then (track - cur_track,true) else (cur_track - track,false)
  let track := if doublestep then track * 2 else track
  (fun r => (Rig.moveHead dir 1 r).zeroAtTrack00)^[track.toNat] r

def recalibrate (r : Rig) : Rig :=
  let (i, r) := r.seekTrack00 100
  if i ≥ 100 then r
  else
    let r := Rig.stepsIn 4 { r with position := 0 }
    if r.atTrack00 then r
    else
      let (i, r) := r.seekTrack00 5
      if i ≥ 5 then r else { r with position := 0 }

/-- The commands, and what the commands for other drives do to this one: they
share the counter of the stepper. -/
inductive Command where
  | headstep (track : BitVec 32) (doublestep : Bool)
  | movehead (track : ℤ) (doublestep : Bool)
  | recalibrate
  | dump (spy : Bool) (p : DumpParams) (outcome : ℤ → ℤ → Outcome)
  | otherDrive (track_pos : Fin 901)

def execute (drive_max_steps : ℤ) : Command → Rig → Rig
  | .headstep track doublestep, r => headstep drive_max_steps track doublestep r
  | .movehead track doublestep, r => movehead drive_max_steps track doublestep r
  | .recalibrate, r => recalibrate r
  | .dump spy p outcome, r => if spy then r else (readdisk p drive_max_steps outcome r).rig
  | .otherDrive track_pos, r =>
    { r with
      head := { r.head with track_pos := track_pos }
      counter_le := Nat.le_of_lt_succ track_pos.isLt }

/-! ## How far in -/

def reach (n : ℕ) (h : Head) : ℕ := h.cylinder + pulseCount true n h

theorem reach_eq (n : ℕ) (r : Rig) :
    reach n r.head = ((Head.step true)^[n] r.head).cylinder :=
  (step_inward_cylinder n r.head r.counter_le).symm

theorem reach_mono {n k : ℕ} (hnk : n ≤ k) (h : Head) : reach n h ≤ reach k h :=
  Nat.add_le_add_left (pulseCount_mono hnk h) _

theorem reach_le (n : ℕ) (h : Head) : reach n h ≤ h.cylinder + n :=
  Nat.add_le_add_left (pulseCount_le n h) _

theorem reach_add (n k : ℕ) (r r' : Rig) (h : r'.head = (Head.step true)^[k] r.head) :
    reach n r'.head = reach (n + k) r.head := by
  rw [reach_eq, reach_eq, h, Function.iterate_add_apply]

def Tracked (r : Rig) : Prop := r.head.cylinder ≤ r.highest

theorem moveHead_tracked (dir : Bool) (trk : BitVec 32) (r : Rig) : Tracked (r.moveHead dir trk) :=
  le_max_right _ _

theorem moveHead_in_highest (trk : BitVec 32) (r : Rig) :
    (r.moveHead true trk).highest = max r.highest (reach (stepCount trk) r.head) := by
  rw [reach_eq]
  rfl

theorem moveHead_out_highest (trk : BitVec 32) (r : Rig) (h : Tracked r) :
    (r.moveHead false trk).highest = r.highest := by
  have hcyl : ((Head.step false)^[stepCount trk] r.head).cylinder = r.head.cylinder - stepCount trk :=
    (step_outward _ _).2
  unfold Tracked at h
  simp only [Rig.moveHead, hcyl]
  omega

theorem stepsIn_tracked (n : ℕ) (r : Rig) (h : Tracked r) : Tracked (r.stepsIn n) := by
  cases n with
  | zero => exact h
  | succ n =>
    rw [Rig.stepsIn, Function.iterate_succ_apply']
    exact moveHead_tracked _ _ _

theorem stepsIn_highest (n : ℕ) (r : Rig) (h : Tracked r) :
    (r.stepsIn n).highest = max r.highest (reach n r.head) := by
  induction n with
  | zero =>
    have hzero : reach 0 r.head = r.head.cylinder := by rw [reach_eq, Function.iterate_zero, id]
    rw [hzero, max_eq_left h]
    rfl
  | succ n ih =>
    have hnext : r.stepsIn (n+1) = (r.stepsIn n).moveHead true 1 :=
      Function.iterate_succ_apply' _ _ _
    rw [hnext, moveHead_in_highest, ih, stepCount_one, reach_add 1 n r _ (stepsIn_head n r),
      max_assoc, Nat.add_comm 1 n, max_eq_right (reach_mono (Nat.le_succ n) r.head)]

theorem seekTrack00_highest (limit : ℕ) (r : Rig) (h : Tracked r) :
    Tracked (r.seekTrack00 limit).2 ∧ (r.seekTrack00 limit).2.highest = r.highest := by
  induction limit generalizing r with
  | zero => exact ⟨h,rfl⟩
  | succ limit ih =>
    rw [Rig.seekTrack00]
    split
    · exact ⟨h,rfl⟩
    · obtain ⟨ht, hhigh⟩ := ih (r.moveHead false 1) (moveHead_tracked _ _ _)
      exact ⟨ht,hhigh.trans (moveHead_out_highest 1 r h)⟩

@[simp] theorem zeroAtTrack00_head (r : Rig) : r.zeroAtTrack00.head = r.head := by
  unfold Rig.zeroAtTrack00
  split <;> rfl

@[simp] theorem zeroAtTrack00_highest (r : Rig) : r.zeroAtTrack00.highest = r.highest := by
  unfold Rig.zeroAtTrack00
  split <;> rfl

theorem reach_zero (r : Rig) : reach 0 r.head = r.head.cylinder := by
  rw [reach_eq, Function.iterate_zero, id]

/-- The innermost cylinder of a command that is not stopped; 0 for one that
does not step inwards. -/
def peak (drive_max_steps : ℤ) : Command → Rig → ℕ
  | .headstep track doublestep, r =>
    if curTrack doublestep r ≥ drive_max_steps ∧ track.toInt > 0 ∨ track.slt 0 then 0
    else reach ((if doublestep then 2 else 1) * stepCount track) r.head
  | .movehead track doublestep, r =>
    let way := clampTrack drive_max_steps track - curTrack doublestep r
    if 0 < way then reach (if doublestep then way * 2 else way).toNat r.head else 0
  | .recalibrate, r =>
    if r.head.cylinder < 100 then reach 4 (r.seekTrack00 100).2.head else 0
  | .dump spy p _, r =>
    if spy ∨ p.start_track = -1 ∨ 160 ≤ r.head.cylinder then 0
    else
      let tracks := iterations p.start_track (clampTrack drive_max_steps p.max_track)
      reach (stepsPerTrack p * (tracks - 1) + p.start_track.toNat) (r.seekTrack00 160).2.head
  | .otherDrive _, _ => 0

theorem headstep_highest (drive_max_steps : ℤ) (track : BitVec 32) (doublestep : Bool) (r : Rig)
    (h : Tracked r) :
    Tracked (headstep drive_max_steps track doublestep r) ∧
      (headstep drive_max_steps track doublestep r).highest =
        max r.highest (peak drive_max_steps (.headstep track doublestep) r) := by
  unfold headstep peak
  by_cases hrefused : curTrack doublestep r ≥ drive_max_steps ∧ track.toInt > 0
  · simp [hrefused, h]
  · have htracked : ∀ (dir : Bool) (trk : BitVec 32) (r : Rig),
        Tracked (r.moveHead dir trk).zeroAtTrack00 := fun dir trk r => by
      simpa [Tracked] using moveHead_tracked dir trk r
    cases hneg : track.slt 0#32 with
    | true =>
      have hout := moveHead_out_highest (-track) r h
      have hout' := moveHead_out_highest (-track) (r.moveHead false (-track))
        (moveHead_tracked _ _ _)
      cases doublestep <;> simp [hrefused, hneg, hout, hout', htracked]
    | false =>
      have hin := moveHead_in_highest track r
      have hin' := moveHead_in_highest track (r.moveHead true track)
      have hadd := reach_add (stepCount track) (stepCount track) r (r.moveHead true track) rfl
      have hle : reach (stepCount track) r.head ≤ reach (2 * stepCount track) r.head :=
        reach_mono (by omega) _
      rw [hin, hadd, ← two_mul, max_assoc, max_eq_right hle] at hin'
      cases doublestep <;> simp [hrefused, hneg, hin, hin', htracked]

/-- Steps one by one, with the sensor read after each. -/
theorem singleSteps_highest (dir : Bool) (n : ℕ) (r : Rig) (h : Tracked r) :
    let r' := (fun r => (Rig.moveHead dir 1 r).zeroAtTrack00)^[n] r
    Tracked r' ∧ r'.head = (Head.step dir)^[n] r.head ∧
      r'.highest = if dir then max r.highest (reach n r.head) else r.highest := by
  induction n with
  | zero => cases dir <;> simp [reach_zero, max_eq_left (show r.head.cylinder ≤ _ from h), h]
  | succ n ih =>
    obtain ⟨ht, hhead, hhigh⟩ := ih
    simp only [Function.iterate_succ_apply'] at *
    generalize (fun r => (Rig.moveHead dir 1 r).zeroAtTrack00)^[n] r = r' at *
    refine ⟨by simpa [Tracked] using moveHead_tracked dir 1 r',?_,?_⟩
    · rw [zeroAtTrack00_head, moveHead_head, stepCount_one, ← hhead]
      rfl
    · cases dir with
      | true =>
        simp only [if_true] at hhigh ⊢
        rw [zeroAtTrack00_highest, moveHead_in_highest, stepCount_one, hhigh,
          reach_add 1 n r r' hhead, max_assoc, Nat.add_comm 1 n,
          max_eq_right (reach_mono (Nat.le_succ n) r.head)]
      | false =>
        simpa using (moveHead_out_highest 1 r' ht).trans hhigh

theorem movehead_highest (drive_max_steps track : ℤ) (doublestep : Bool) (r : Rig)
    (h : Tracked r) :
    Tracked (movehead drive_max_steps track doublestep r) ∧
      (movehead drive_max_steps track doublestep r).highest =
        max r.highest (peak drive_max_steps (.movehead track doublestep) r) := by
  simp only [movehead, peak]
  generalize curTrack doublestep r = cur
  generalize clampTrack drive_max_steps track = t
  by_cases hin : cur < t
  · obtain ⟨ht, -, hhigh⟩ := singleSteps_highest true
      (if doublestep then (t - cur) * 2 else t - cur).toNat r h
    have hway : 0 < t - cur := by omega
    simp only [if_pos hin, if_pos hway]
    exact ⟨ht,hhigh⟩
  · obtain ⟨ht, -, hhigh⟩ := singleSteps_highest false
      (if doublestep then (cur - t) * 2 else cur - t).toNat r h
    have hway : ¬ 0 < t - cur := by omega
    simp only [if_neg hin, if_neg hway, Nat.max_zero]
    exact ⟨ht,hhigh⟩

theorem recalibrate_highest (drive_max_steps : ℤ) (r : Rig) (h : Tracked r) :
    Tracked (recalibrate r) ∧
      (recalibrate r).highest = max r.highest (peak drive_max_steps .recalibrate r) := by
  obtain ⟨hi, -⟩ := seekTrack00_cylinder 100 r
  obtain ⟨ht, hhigh⟩ := seekTrack00_highest 100 r h
  simp only [recalibrate, peak]
  generalize hseek : r.seekTrack00 100 = seek at *
  obtain ⟨i, r0⟩ := seek
  simp only at hi ht hhigh ⊢
  by_cases hlost : i ≥ 100
  · have hfar : ¬ r.head.cylinder < 100 := by omega
    simp [hlost, hfar, ht, hhigh]
  · have hnear : r.head.cylinder < 100 := by omega
    have hin := stepsIn_highest 4 { r0 with position := 0 } ht
    have htin := stepsIn_tracked 4 { r0 with position := 0 } ht
    generalize Rig.stepsIn 4 { r0 with position := 0 } = r1 at hin htin ⊢
    obtain ⟨ht5, hhigh5⟩ := seekTrack00_highest 5 r1 htin
    have hend : r1.highest = max r.highest (reach 4 r0.head) := by rw [hin, ← hhigh]
    rw [if_neg hlost, if_pos hnear]
    split
    · exact ⟨htin,hend⟩
    · split
      · exact ⟨ht5,hhigh5.trans hend⟩
      · exact ⟨ht5,hhigh5.trans hend⟩

/-- The loop over the tracks takes the head no further in than all its steps do,
and so far if it is not stopped. -/
theorem readTracks_highest (p : DumpParams) (outcome : ℤ → ℤ → Outcome) (last : ℤ) (n : ℕ)
    (i : ℤ) (hn : n = iterations i last) (r : Reader) (h : Tracked r.rig) :
    Tracked (readTracks p outcome last n i r).rig ∧
      (readTracks p outcome last n i r).rig.highest ≤
        max r.rig.highest (reach (stepsPerTrack p * (n - 1)) r.rig.head) ∧
      ((∀ track side, outcome track side = .read) →
        (readTracks p outcome last n i r).rig.highest =
          max r.rig.highest (reach (stepsPerTrack p * (n - 1)) r.rig.head)) := by
  induction n generalizing i r with
  | zero =>
    refine ⟨h,le_max_left _ _,fun _ => ?_⟩
    rw [Nat.zero_sub, Nat.mul_zero, reach_zero, max_eq_left h]
    rfl
  | succ n ih =>
    have hn' : n = iterations (i+1) last := by
      unfold iterations at hn ⊢
      omega
    have hrig := readSides_rig outcome i (iterations p.start_side p.max_side) p.start_side r
    have hgo : (∀ track side, outcome track side = .read) →
        (readSides outcome i (iterations p.start_side p.max_side) p.start_side r).1 = true :=
      fun hall => by
        have heq : outcome = fun _ _ => .read := funext fun t => funext fun s => hall t s
        rw [heq, readSides_all]
    rw [readTracks_succ]
    generalize readSides outcome i (iterations p.start_side p.max_side) p.start_side r = res
      at hrig hgo ⊢
    obtain ⟨go, r'⟩ := res
    simp only at hrig hgo ⊢
    rw [← hrig] at h ⊢
    cases go with
    | false =>
      refine ⟨h,le_max_left _ _,fun hall => absurd (hgo hall) (by decide)⟩
    | true =>
      simp only [Nat.add_sub_cancel]
      by_cases hlast : i < last
      · obtain ⟨k, rfl⟩ : ∃ k, n = k + 1 := Nat.exists_eq_add_one.mpr (by
          unfold iterations at hn'
          omega)
        have hstep : Tracked (nextTrack p r'.rig) := moveHead_tracked _ _ _
        have hhigh : (nextTrack p r'.rig).highest =
            max r'.rig.highest (reach (stepsPerTrack p) r'.rig.head) := by
          rw [nextTrack, moveHead_in_highest, stepCount_track]
        have hadd : reach (stepsPerTrack p * k) (nextTrack p r'.rig).head =
            reach (stepsPerTrack p * (k+1)) r'.rig.head :=
          reach_add _ (stepsPerTrack p) r'.rig _ (nextTrack_head p r'.rig)
        have hmax : max (nextTrack p r'.rig).highest
              (reach (stepsPerTrack p * k) (nextTrack p r'.rig).head) =
            max r'.rig.highest (reach (stepsPerTrack p * (k+1)) r'.rig.head) := by
          rw [hhigh, hadd, max_assoc,
            max_eq_right (reach_mono (Nat.le_mul_of_pos_right _ (Nat.succ_pos k)) _)]
        have hnext := ih (i+1) hn' { r' with rig := nextTrack p r'.rig } hstep
        rw [Nat.add_sub_cancel, hmax] at hnext
        rw [Reader.nextTrack, if_pos hlast]
        exact hnext
      · have hzero : n = 0 := by
          unfold iterations at hn'
          omega
        have hnext := ih (i+1) hn' r' h
        rw [Reader.nextTrack, if_neg hlast]
        simpa [hzero] using hnext

theorem readdisk_highest (p : DumpParams) (drive_max_steps : ℤ) (outcome : ℤ → ℤ → Outcome)
    (r : Rig) (h : Tracked r) :
    Tracked (readdisk p drive_max_steps outcome r).rig ∧
      (readdisk p drive_max_steps outcome r).rig.highest ≤
        max r.highest (peak drive_max_steps (.dump false p outcome) r) ∧
      ((∀ track side, outcome track side = .read) →
        (readdisk p drive_max_steps outcome r).rig.highest =
          max r.highest (peak drive_max_steps (.dump false p outcome) r)) := by
  unfold readdisk seek
  by_cases hstart : p.start_track = -1
  · have hpeak : peak drive_max_steps (.dump false p outcome) r = 0 := by simp [peak, hstart]
    simp only [hstart, ne_eq, not_true_eq_false, if_false, hpeak, Nat.max_zero]
    generalize (if p.doublestep = true then r.position.tdiv 2 else r.position) = first
    have hone : iterations first (clampTrack drive_max_steps first) - 1 = 0 := by
      unfold iterations clampTrack
      split <;> omega
    have hloop := readTracks_highest p outcome (clampTrack drive_max_steps first) _ first rfl
      ⟨r,[]⟩ h
    rw [hone, Nat.mul_zero, reach_zero, max_eq_left (show r.head.cylinder ≤ r.highest from h)]
      at hloop
    exact hloop
  · obtain ⟨hi, -⟩ := seekTrack00_cylinder 160 r
    obtain ⟨ht, hhigh⟩ := seekTrack00_highest 160 r h
    have hpeak : peak drive_max_steps (.dump false p outcome) r =
        if 160 ≤ r.head.cylinder then 0
        else reach (stepsPerTrack p *
            (iterations p.start_track (clampTrack drive_max_steps p.max_track) - 1) +
              p.start_track.toNat) (r.seekTrack00 160).2.head := by
      simp [peak, hstart]
    rw [hpeak]
    simp only [ne_eq, hstart, not_false_eq_true, if_true]
    by_cases hlost : (r.seekTrack00 160).1 ≥ 160
    · have hfar : 160 ≤ r.head.cylinder := by omega
      simp [hlost, hfar, ht, hhigh]
    · have hnear : ¬ 160 ≤ r.head.cylinder := by omega
      rw [if_neg hlost, if_neg hnear]
      have htin := stepsIn_tracked p.start_track.toNat _ ht
      have hin := stepsIn_highest p.start_track.toNat _ ht
      have hadd := fun n => reach_add n p.start_track.toNat (r.seekTrack00 160).2 _
        (stepsIn_head p.start_track.toNat _)
      have hloop := readTracks_highest p outcome (clampTrack drive_max_steps p.max_track) _
        p.start_track rfl ⟨(r.seekTrack00 160).2.stepsIn p.start_track.toNat,[]⟩ htin
      simp only [hadd, hin, hhigh, max_assoc] at hloop
      rw [max_eq_right (reach_mono (Nat.le_add_left _ _) _)] at hloop
      exact hloop

def Whole : Command → Prop
  | .dump _ _ outcome => ∀ track side, outcome track side = .read
  | _ => True

/-- Each command takes the head as far in as its peak, or less if it is stopped. -/
theorem execute_highest (drive_max_steps : ℤ) (c : Command) (r : Rig) (h : Tracked r) :
    Tracked (execute drive_max_steps c r) ∧
      (execute drive_max_steps c r).highest ≤ max r.highest (peak drive_max_steps c r) ∧
      (Whole c → (execute drive_max_steps c r).highest = max r.highest (peak drive_max_steps c r)) := by
  cases c with
  | headstep track doublestep =>
    obtain ⟨ht, heq⟩ := headstep_highest drive_max_steps track doublestep r h
    exact ⟨ht,heq.le,fun _ => heq⟩
  | movehead track doublestep =>
    obtain ⟨ht, heq⟩ := movehead_highest drive_max_steps track doublestep r h
    exact ⟨ht,heq.le,fun _ => heq⟩
  | recalibrate =>
    obtain ⟨ht, heq⟩ := recalibrate_highest drive_max_steps r h
    exact ⟨ht,heq.le,fun _ => heq⟩
  | dump spy p outcome =>
    cases spy with
    | true => simp [execute, peak, h]
    | false => exact readdisk_highest p drive_max_steps outcome r h
  | otherDrive track_pos => exact ⟨h,le_max_left _ _,fun _ => (Nat.max_zero _).symm⟩

/-! ## The position of the software -/

def Known (r : Rig) : Prop := (r.head.cylinder : ℤ) ≤ r.position

theorem zeroAtTrack00_known (r : Rig) (h : Known r) : Known r.zeroAtTrack00 := by
  unfold Rig.zeroAtTrack00
  split
  next hzero =>
    simp only [Rig.atTrack00, decide_eq_true_eq] at hzero
    simp [Known, hzero]
  next => exact h

theorem countOf_toInt (trk : BitVec 32) (h : 0 ≤ trk.toInt) : (countOf trk : ℤ) = trk.toInt % 512 := by
  have hnat : trk.toInt = trk.toNat := by
    rw [BitVec.toInt_eq_toNat_cond] at h ⊢
    have hlt := trk.isLt
    split at h
    next hsmall => rw [if_pos hsmall]
    next hlarge => omega
  rw [countOf_eq, hnat]
  push_cast
  rfl

/-- A call for steps inwards that is a call for some. -/
theorem moveHead_in_known (trk : BitVec 32) (r : Rig) (h : Known r) (hcount : countOf trk ≠ 0) :
    Known (r.moveHead true trk) := by
  have hcyl : (r.moveHead true trk).head.cylinder = reach (stepCount trk) r.head :=
    (reach_eq _ r).symm
  have hsteps : stepCount trk = countOf trk := if_neg hcount
  have hle := reach_le (stepCount trk) r.head
  unfold Known at h ⊢
  rw [hcyl]
  by_cases hzero : r.head.cylinder = 0
  · simp only [Rig.moveHead, newPosition, Rig.atTrack00, hzero, decide_true, if_true]
    omega
  · simp only [Rig.moveHead, newPosition, Rig.atTrack00, hzero, decide_false, Bool.false_eq_true,
      if_false, if_true]
    omega

/-- A call for steps outwards: the count is not masked, or the head comes to
track 0. -/
theorem moveHead_out_known (trk : BitVec 32) (r : Rig) (h : Known r)
    (hsign : 0 ≤ trk.toInt ∨ countOf trk = 0)
    (hmask : trk.toInt < 512 ∨ r.head.cylinder ≤ stepCount trk) :
    Known (r.moveHead false trk) := by
  have hcyl : (r.moveHead false trk).head.cylinder = r.head.cylinder - stepCount trk :=
    (step_outward _ _).2
  have hcount := countOf_toInt trk
  have hsteps : stepCount trk = if countOf trk = 0 then 1024 else countOf trk := rfl
  unfold Known at h ⊢
  rw [hcyl]
  simp only [Rig.moveHead, newPosition, Rig.atTrack00, Bool.false_eq_true, if_false]
  generalize countOf trk = c at *
  generalize stepCount trk = n at *
  generalize trk.toInt = t at *
  by_cases hzero : r.head.cylinder = 0
  · simp only [hzero, decide_true, if_true, Nat.zero_sub]
    split <;> omega
  · simp only [hzero, decide_false, Bool.false_eq_true, if_false]
    split <;> split at hsteps <;> omega

theorem moveHead_one_known (dir : Bool) (r : Rig) (h : Known r) : Known (r.moveHead dir 1) := by
  cases dir with
  | true => exact moveHead_in_known 1 r h (by decide)
  | false => exact moveHead_out_known 1 r h (Or.inl (by decide)) (Or.inl (by decide))

theorem stepsIn_known (n : ℕ) (r : Rig) (h : Known r) : Known (r.stepsIn n) := by
  induction n with
  | zero => exact h
  | succ n ih =>
    rw [Rig.stepsIn, Function.iterate_succ_apply']
    exact moveHead_one_known true _ ih

theorem seekTrack00_known (limit : ℕ) (r : Rig) (h : Known r) : Known (r.seekTrack00 limit).2 := by
  induction limit generalizing r with
  | zero => exact h
  | succ limit ih =>
    rw [Rig.seekTrack00]
    split
    · exact h
    · exact ih _ (moveHead_one_known false r h)

theorem singleSteps_known (dir : Bool) (n : ℕ) (r : Rig) (h : Known r) :
    Known ((fun r => (Rig.moveHead dir 1 r).zeroAtTrack00)^[n] r) := by
  induction n with
  | zero => exact h
  | succ n ih =>
    rw [Function.iterate_succ_apply']
    exact zeroAtTrack00_known _ (moveHead_one_known dir _ ih)

/-- The steps of `headstep` that leave the position right: some inwards, or
outwards as many as the register holds or enough for track 0. -/
def KeepsPosition (drive_max_steps : ℤ) : Command → Rig → Prop
  | .headstep track doublestep, r =>
    curTrack doublestep r ≥ drive_max_steps ∧ track.toInt > 0 ∨
      if track.slt 0 then (-track).toInt < 512 ∨ r.head.cylinder ≤ stepCount (-track)
      else countOf track ≠ 0
  | _, _ => True

theorem neg_sign (track : BitVec 32) (h : track.slt 0 = true) :
    0 ≤ (-track).toInt ∨ countOf (-track) = 0 := by
  by_cases hmin : track = BitVec.intMin 32
  · exact Or.inr (by rw [hmin]; rfl)
  · rw [BitVec.toInt_neg_of_ne_intMin hmin]
    have hneg : track.toInt < 0 := by simpa [BitVec.slt] using h
    exact Or.inl (by omega)

theorem headstep_known (drive_max_steps : ℤ) (track : BitVec 32) (doublestep : Bool) (r : Rig)
    (h : Known r) (hkeeps : KeepsPosition drive_max_steps (.headstep track doublestep) r) :
    Known (headstep drive_max_steps track doublestep r) := by
  unfold headstep
  by_cases hrefused : curTrack doublestep r ≥ drive_max_steps ∧ track.toInt > 0
  · rw [if_pos hrefused]
    exact h
  · simp only [KeepsPosition, hrefused, false_or] at hkeeps
    rw [if_neg hrefused]
    cases hneg : track.slt 0 with
    | true =>
      rw [if_pos hneg] at hkeeps
      have hsign := neg_sign track hneg
      have hfirst := moveHead_out_known (-track) r h hsign hkeeps
      have hcyl : (r.moveHead false (-track)).head.cylinder =
          r.head.cylinder - stepCount (-track) := (step_outward _ _).2
      have hsecond := moveHead_out_known (-track) _ hfirst hsign
        (hkeeps.imp id fun hle => by omega)
      cases doublestep
      · exact zeroAtTrack00_known _ hfirst
      · exact zeroAtTrack00_known _ hsecond
    | false =>
      have hcount : countOf track ≠ 0 := by
        rw [if_neg (by rw [hneg]; decide)] at hkeeps
        exact hkeeps
      have hfirst := moveHead_in_known track r h hcount
      have hsecond := moveHead_in_known track _ hfirst hcount
      cases doublestep
      · exact zeroAtTrack00_known _ hfirst
      · exact zeroAtTrack00_known _ hsecond

theorem recalibrate_known (r : Rig) (h : Known r) : Known (recalibrate r) := by
  have hknown := seekTrack00_known 100 r h
  obtain ⟨hi, hcyl⟩ := seekTrack00_cylinder 100 r
  unfold recalibrate
  generalize hseek : r.seekTrack00 100 = seek at *
  obtain ⟨i, r0⟩ := seek
  simp only at hi hcyl hknown ⊢
  split
  · exact hknown
  · have hzero : Known { r0 with position := 0 } := by
      simp only [Known, hcyl]
      omega
    have hin := stepsIn_known 4 _ hzero
    generalize Rig.stepsIn 4 { r0 with position := 0 } = r1 at hin ⊢
    split
    · exact hin
    · obtain ⟨hi5, hcyl5⟩ := seekTrack00_cylinder 5 r1
      split
      · exact seekTrack00_known 5 r1 hin
      · simp only [Known, hcyl5]
        omega

theorem readTracks_known (p : DumpParams) (outcome : ℤ → ℤ → Outcome) (last : ℤ) (n : ℕ) (i : ℤ)
    (r : Reader) (h : Known r.rig) : Known (readTracks p outcome last n i r).rig := by
  induction n generalizing i r with
  | zero => exact h
  | succ n ih =>
    have hrig := readSides_rig outcome i (iterations p.start_side p.max_side) p.start_side r
    rw [readTracks_succ]
    generalize readSides outcome i (iterations p.start_side p.max_side) p.start_side r = res
      at hrig ⊢
    obtain ⟨go, r'⟩ := res
    simp only at hrig ⊢
    rw [← hrig] at h
    cases go with
    | false => exact h
    | true =>
      refine ih _ _ ?_
      unfold Reader.nextTrack
      split
      · refine moveHead_in_known _ _ h ?_
        cases p.doublestep <;> decide
      · exact h

theorem readdisk_known (p : DumpParams) (drive_max_steps : ℤ) (outcome : ℤ → ℤ → Outcome)
    (r : Rig) (h : Known r) : Known (readdisk p drive_max_steps outcome r).rig := by
  have hseek := seekTrack00_known 160 r h
  unfold readdisk seek
  by_cases hstart : p.start_track = -1
  · simp only [hstart, ne_eq, not_true_eq_false, if_false]
    exact readTracks_known p outcome _ _ _ _ h
  · simp only [ne_eq, hstart, not_false_eq_true, if_true]
    by_cases hlost : (r.seekTrack00 160).1 ≥ 160
    · rw [if_pos hlost]
      exact hseek
    · rw [if_neg hlost]
      exact readTracks_known p outcome _ _ _ _ (stepsIn_known _ _ hseek)

theorem execute_known (drive_max_steps : ℤ) (c : Command) (r : Rig) (h : Known r)
    (hkeeps : KeepsPosition drive_max_steps c r) : Known (execute drive_max_steps c r) := by
  cases c with
  | headstep track doublestep => exact headstep_known drive_max_steps track doublestep r h hkeeps
  | movehead track doublestep => exact singleSteps_known _ _ _ h
  | recalibrate => exact recalibrate_known r h
  | dump spy p outcome =>
    cases spy with
    | true => exact h
    | false => exact readdisk_known p drive_max_steps outcome r h
  | otherDrive track_pos => exact h

/-! ## The limit -/

def TravelMeets (drive_max_steps : ℤ) (c : Command) (r : Rig) : Prop :=
  (peak drive_max_steps c r : ℤ) ≤ drive_max_steps ∧ KeepsPosition drive_max_steps c r

structure Travelled (drive_max_steps : ℤ) (r : Rig) : Prop where
  tracked : Tracked r
  known : Known r
  highest_le : (r.highest : ℤ) ≤ drive_max_steps

theorem execute_travelled (drive_max_steps : ℤ) (c : Command) (r : Rig)
    (h : Travelled drive_max_steps r) (hc : TravelMeets drive_max_steps c r) :
    Travelled drive_max_steps (execute drive_max_steps c r) := by
  obtain ⟨ht, hle, -⟩ := execute_highest drive_max_steps c r h.tracked
  have hhigh := h.highest_le
  have hpeak := hc.1
  exact ⟨ht,execute_known drive_max_steps c r h.known hc.2,by omega⟩

def recalibrated (track_pos : Fin 901) : Rig :=
  ⟨⟨track_pos,0,[]⟩,0,0,Nat.le_of_lt_succ track_pos.isLt⟩

/-- In every run of commands that meet the condition the head stays within the
limit, and a command that is not stopped keeps it there only if it stops
before it. -/
theorem travel_within_limit (drive_max_steps : ℤ) (hmax : 0 ≤ drive_max_steps)
    (track_pos : Fin 901) (r : Rig)
    (hrun : Clocked.Reach (execute drive_max_steps) (TravelMeets drive_max_steps)
      (recalibrated track_pos) r) :
    (r.head.cylinder : ℤ) ≤ drive_max_steps ∧ (r.highest : ℤ) ≤ drive_max_steps ∧
      ∀ c, Whole c → (((execute drive_max_steps c r).highest : ℤ) ≤ drive_max_steps ↔
        (peak drive_max_steps c r : ℤ) ≤ drive_max_steps) := by
  have hr : Travelled drive_max_steps r :=
    hrun.invariant (Travelled drive_max_steps) ⟨le_refl _,le_refl _,hmax⟩
      fun c r hc h => execute_travelled drive_max_steps c r h hc
  have hcyl : r.head.cylinder ≤ r.highest := hr.tracked
  have hhigh := hr.highest_le
  refine ⟨by omega,hhigh,fun c hwhole => ?_⟩
  obtain ⟨-, -, heq⟩ := execute_highest drive_max_steps c r hr.tracked
  rw [heq hwhole]
  omega

theorem travel_within_limit_session :
    let r := execute 82 .recalibrate (execute 82 (.dump false ⟨0,79,0,1,false⟩ fun _ _ => .read)
      (execute 82 (.movehead 40 false) (recalibrated 0)))
    (r.head.cylinder : ℤ) ≤ 82 ∧ (r.highest : ℤ) ≤ 82 ∧
      ∀ c, Whole c → (((execute 82 c r).highest : ℤ) ≤ 82 ↔ (peak 82 c r : ℤ) ≤ 82) :=
  travel_within_limit 82 (by decide) 0 _ <| by
    have hmove : Clocked.Reach (execute 82) (TravelMeets 82) (recalibrated 0)
        (execute 82 (.movehead 40 false) (recalibrated 0)) :=
      (Clocked.Reach.refl _).tick _ ⟨by decide,trivial⟩
    have hdump := hmove.tick (.dump false ⟨0,79,0,1,false⟩ fun _ _ => .read) ⟨by decide +kernel,trivial⟩
    exact hdump.tick .recalibrate ⟨by decide +kernel,trivial⟩

/-- 100 steps inwards from track 0 are made on a drive of 82. -/
theorem headstep_exceeds :
    ∃ r, Clocked.Reach (execute 82) (fun _ _ => True) (recalibrated 0) r ∧
      ¬ (r.head.cylinder : ℤ) ≤ 82 := by
  refine ⟨execute 82 (.headstep 100 false) (recalibrated 0),(Clocked.Reach.refl _).tick _ trivial,?_⟩
  decide +kernel

end Pauline.HeadStepper
