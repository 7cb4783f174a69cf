import Pauline.Stream.LoadStream

/-!
# Failed loads

A load may fail before the drive is programmed, and between its tracks. The flag for
a disk in the drive is written at the end only, and never cleared.
-/

set_option autoImplicit false

namespace Pauline.LoadFailure
open Pauline.DeltaCode Pauline.PulseWord Pauline.Track Pauline.LoadStream

def inDrive (s : DriveState) (drive : Fin 4) : Bool :=
  s.drive_config drive &&& CFG_DISK_IN_DRIVE != 0#32

structure Untouched (drive : Fin 4) (s s' : DriveState) : Prop where
  base : s'.image_base_address_reg drive = s.image_base_address_reg drive
  size : s'.image_track_size_reg drive = s.image_track_size_reg drive
  count : s'.image_max_track_reg drive = s.image_max_track_reg drive
  config : s'.drive_config drive = s.drive_config drive
  index_start : s'.drv_track_index_start drive = s.drv_track_index_start drive
  index_len : s'.drv_index_len drive = s.drv_index_len drive
  hs_index : s'.hs_index_positions = s.hs_index_positions
  image : s'.disk_image drive = s.disk_image drive

theorem Untouched.refl (drive : Fin 4) (s : DriveState) : Untouched drive s s :=
  ⟨rfl,rfl,rfl,rfl,rfl,rfl,rfl,rfl⟩

def failedIn (drive : Fin 4) : Run → Option DriveState
  | .ok l => if l.state.mapped drive = none then some l.state else none
  | .error (.failed,l) => some l.state
  | .error (.fault,_) => none

/-! ## Where a load stops -/

def storable (host : Host) (h : ℕ) (image : Option ℕ) (tracks : ℕ → TrackDef) (sides : ℕ)
    (q : ℕ × ℕ) : Bool :=
  let t := tracks (trackArrayIndex sides q.1 q.2)
  t.packed_data_size == 0 ||
    match readTrack host t q.1 q.2 with
    | none => true
    | some u =>
      (decodeWrites u (((h*q.1) % 2^32+q.2) % 2^32) t.nb_pulses 0 0).all (inMapping image)

def Breaks (host : Host) (h : ℕ) (image : Option ℕ) (tracks : ℕ → TrackDef) (sides : ℕ) :
    List (ℕ × ℕ) → Prop
  | [] => False
  | q :: qs => loadable host tracks sides q = false ∨
      storable host h image tracks sides q = true ∧ Breaks host h image tracks sides qs

def Passes (host : Host) (h : ℕ) (image : Option ℕ) (tracks : ℕ → TrackDef) (sides : ℕ)
    (qs : List (ℕ × ℕ)) : Prop :=
  ∀ q ∈ qs, loadable host tracks sides q = true ∧ storable host h image tracks sides q = true

theorem loadTrack_ends (host : Host) (drive : Fin 4) (h : ℕ) (image : Option ℕ)
    (tracks : ℕ → TrackDef) (sides j i : ℕ) (l : Load)
    (hsize : l.state.image_track_size_reg drive/2 = h) (hmap : l.state.mapped drive = image) :
    (loadable host tracks sides (j,i) = false ∧
      loadTrack host drive tracks sides j i l = .error (.failed,l)) ∨
    (loadable host tracks sides (j,i) = true ∧ storable host h image tracks sides (j,i) = false ∧
      ∃ l', loadTrack host drive tracks sides j i l = .error (.fault,l')) ∨
    (loadable host tracks sides (j,i) = true ∧ storable host h image tracks sides (j,i) = true ∧
      ∃ l', loadTrack host drive tracks sides j i l = .ok l' ∧ Kept l.state l'.state) := by
  rcases loadTrack_cases host drive tracks sides j i l with
    ⟨hp, hl⟩ | ⟨hp, hr, hl⟩ | ⟨u, hp, hr, hl⟩
  · exact Or.inr (Or.inr ⟨by simp [loadable, hp], by simp [storable, hp], l, hl,
      ⟨rfl,rfl,rfl,rfl⟩⟩)
  · exact Or.inl ⟨by simp [loadable, hp, hr], hl⟩
  · refine Or.inr ?_
    have hload : loadable host tracks sides (j,i) = true := by simp [loadable, hr]
    have hstore : storable host h image tracks sides (j,i) =
        (DecodeCall.writes drive ⟨l.state,tracks (trackArrayIndex sides j i),u,j,i⟩).all
          (inMapping (l.state.mapped drive)) := by
      simp [storable, hp, hr, DecodeCall.writes, trackPtr, hsize, hmap]
    have hkept := kept_run drive ⟨l.state,tracks (trackArrayIndex sides j i),u,j,i⟩
    rw [hl, Load.decode, hstore]
    cases hall : (DecodeCall.writes drive ⟨l.state,tracks (trackArrayIndex sides j i),u,j,i⟩).all
        (inMapping (l.state.mapped drive)) with
    | true => exact Or.inr ⟨hload, rfl, _, rfl, hkept⟩
    | false => exact Or.inl ⟨hload, rfl, _, rfl⟩

theorem loadTracks_ends (host : Host) (drive : Fin 4) (h : ℕ) (image : Option ℕ)
    (tracks : ℕ → TrackDef) (sides : ℕ) (qs : List (ℕ × ℕ)) (l : Load)
    (hsize : l.state.image_track_size_reg drive/2 = h) (hmap : l.state.mapped drive = image) :
    (Breaks host h image tracks sides qs ∧ ¬ Passes host h image tracks sides qs ∧
      ∃ l', loadTracks host drive tracks sides qs l = .error (.failed,l') ∧
        Kept l.state l'.state) ∨
    (¬ Breaks host h image tracks sides qs ∧ ¬ Passes host h image tracks sides qs ∧
      ∃ l', loadTracks host drive tracks sides qs l = .error (.fault,l')) ∨
    (¬ Breaks host h image tracks sides qs ∧ Passes host h image tracks sides qs ∧
      ∃ l', loadTracks host drive tracks sides qs l = .ok l' ∧ Kept l.state l'.state) := by
  induction qs generalizing l with
  | nil =>
    exact Or.inr (Or.inr ⟨id, fun q hq => absurd hq List.not_mem_nil, l, rfl, rfl,rfl,rfl,rfl⟩)
  | cons q qs ih =>
    obtain ⟨j, i⟩ := q
    have hpass : Passes host h image tracks sides ((j,i) :: qs) ↔
        (loadable host tracks sides (j,i) = true ∧ storable host h image tracks sides (j,i) = true) ∧
          Passes host h image tracks sides qs := List.forall_mem_cons
    simp only [loadTracks, Breaks, hpass]
    rcases loadTrack_ends host drive h image tracks sides j i l hsize hmap with
      ⟨hload, hl⟩ | ⟨hload, hstore, l', hl⟩ | ⟨hload, hstore, l', hl, hkept⟩
    · rw [hl]
      exact Or.inl ⟨Or.inl hload, by simp [hload], l, rfl, rfl,rfl,rfl,rfl⟩
    · rw [hl]
      exact Or.inr (Or.inl ⟨by simp [hload, hstore], by simp [hstore], l', rfl⟩)
    · rw [hl]
      have hrest := ih l' (by rw [hkept.size, hsize]) (by rw [hkept.mapped, hmap])
      simp only [hload, hstore, Bool.true_eq_false, false_or, true_and]
      rcases hrest with ⟨hb, hp, l'', hl'', hk⟩ | ⟨hb, hp, l'', hl''⟩ | ⟨hb, hp, l'', hl'', hk⟩
      · exact Or.inl ⟨hb, hp, l'', hl'', hkept.trans hk⟩
      · exact Or.inr (Or.inl ⟨hb, hp, l'', hl''⟩)
      · exact Or.inr (Or.inr ⟨hb, hp, l'', hl'', hkept.trans hk⟩)

/-! ## The load -/

def BreaksOff (host : Host) : Prop :=
  ∃ header tracks, openImage host = some (header,tracks) ∧
    ClearsInside host header.number_of_track (tracks 0).track_len ∧
    Breaks host ((tracks 0).track_len/8)
      (mappedImage host header.number_of_track (tracks 0).track_len) tracks header.number_of_side
      (trackSides header.number_of_track header.number_of_side)

def Unmapped (host : Host) : Prop :=
  ∃ header tracks, openImage host = some (header,tracks) ∧
    mappedImage host header.number_of_track (tracks 0).track_len = none ∧
    Passes host ((tracks 0).track_len/8) none tracks header.number_of_side
      (trackSides header.number_of_track header.number_of_side)

theorem inDrive_insertDisk (drive : Fin 4) (double_step : Bool) (s : DriveState) :
    inDrive (insertDisk drive double_step s) drive = true := by
  have hdouble : CFG_DISK_DOUBLE_STEP &&& CFG_DISK_IN_DRIVE = 0#32 := by decide
  have hset (x : BitVec 32) :
      (x ||| CFG_DISK_IN_DRIVE) &&& CFG_DISK_IN_DRIVE = CFG_DISK_IN_DRIVE := by
    rw [BitVec.and_comm]
    ext i hi
    simp only [BitVec.getElem_and, BitVec.getElem_or]
    cases CFG_DISK_IN_DRIVE[i] <;> simp
  have hne : (CFG_DISK_IN_DRIVE != 0#32) = true := by decide
  simp only [inDrive, insertDisk, Function.update_self]
  split_ifs
  · rw [BitField.or_and_apart _ _ _ hdouble, hset, hne]
  · rw [BitField.andNot_and_apart _ _ _ hdouble, hset, hne]

/-- How a load ends that has read the list of the tracks and programmed the drive. -/
theorem loadStreamHfe_ends (host : Host) (drive : Fin 4) (double_step : Bool) (s : DriveState)
    (header : FileHeader) (tracks : ℕ → TrackDef) (hopen : openImage host = some (header,tracks))
    (hclear : ClearsInside host header.number_of_track (tracks 0).track_len) :
    let qs := trackSides header.number_of_track header.number_of_side
    let h := (tracks 0).track_len/8
    let image := mappedImage host header.number_of_track (tracks 0).track_len
    ∃ s', Programmed host drive header.number_of_track (tracks 0).track_len s s' ∧
      ((Breaks host h image tracks header.number_of_side qs ∧
        ¬ Passes host h image tracks header.number_of_side qs ∧
        ∃ l, loadStreamHfe host drive double_step s = .error (.failed,l) ∧ Kept s' l.state) ∨
      (¬ Breaks host h image tracks header.number_of_side qs ∧
        ¬ Passes host h image tracks header.number_of_side qs ∧
        ∃ l, loadStreamHfe host drive double_step s = .error (.fault,l)) ∨
      (¬ Breaks host h image tracks header.number_of_side qs ∧
        Passes host h image tracks header.number_of_side qs ∧
        ∃ l : Load, Kept s' l.state ∧ loadStreamHfe host drive double_step s =
          .ok { l with state := insertDisk drive double_step l.state })) := by
  intro qs h image
  rcases programDrive_cases host drive header.number_of_track (tracks 0).track_len s with
    ⟨hno, -⟩ | ⟨-, s', hprog, hs'⟩
  · exact absurd hclear hno
  · refine ⟨s', hs', ?_⟩
    have hends := loadTracks_ends host drive h image tracks header.number_of_side qs ⟨s',[]⟩
      (by simp only [hs'.size, h]; omega) hs'.mapped
    simp only [loadStreamHfe, hopen, hprog]
    rcases hends with ⟨hb, hp, l, hl, hk⟩ | ⟨hb, hp, l, hl⟩ | ⟨hb, hp, l, hl, hk⟩
    · exact Or.inl ⟨hb, hp, l, by rw [hl], hk⟩
    · exact Or.inr (Or.inl ⟨hb, hp, l, by rw [hl]⟩)
    · exact Or.inr (Or.inr ⟨hb, hp, l, hk, by rw [hl]⟩)

theorem inDrive_kept {host : Host} {drive : Fin 4} {number_of_track track_len : ℕ}
    {s s' s'' : DriveState} (h : Programmed host drive number_of_track track_len s s')
    (hk : Kept s' s'') : inDrive s'' drive = inDrive s drive := by
  rw [inDrive, inDrive, hk.config, h.in_drive]

theorem mappedImage_clears (host : Host) (number_of_track track_len : ℕ)
    (h : mappedImage host number_of_track track_len = none) :
    ClearsInside host number_of_track track_len := fun len hlen => by simp [h] at hlen

def otherDisk (b : Bool) (max_track : ℕ) : DriveState :=
  { blankDrive with
    image_max_track_reg := fun _ => max_track
    drive_config := fun _ => if b then CFG_DISK_IN_DRIVE else 0#32 }

theorem inDrive_otherDisk (b : Bool) (max_track : ℕ) (drive : Fin 4) :
    inDrive (otherDisk b max_track) drive = b := by
  cases b <;> simp only [inDrive, otherDisk] <;> decide

theorem BreaksOff.leaves {host : Host} (hbreak : BreaksOff host) (drive : Fin 4)
    (double_step : Bool) :
    ∃ s s', inDrive s drive = true ∧
      failedIn drive (loadStreamHfe host drive double_step s) = some s' ∧
      ¬ Untouched drive s s' ∧ inDrive s' drive = true := by
  obtain ⟨header, tracks, hopen, hclear, hbreaks⟩ := hbreak
  set s := otherDisk true ((header.number_of_track+2) % 2^32+1) with hs
  have hflag : inDrive s drive = true := inDrive_otherDisk ..
  obtain ⟨s', hs', hend⟩ := loadStreamHfe_ends host drive double_step s header tracks hopen hclear
  rcases hend with ⟨-, -, l, hl, hk⟩ | ⟨hno, -⟩ | ⟨hno, -⟩
  · refine ⟨s, l.state, hflag, by rw [hl]; rfl, fun hsame => ?_, ?_⟩
    · have hcount := hsame.count
      rw [hk.count, hs'.count] at hcount
      simp [hs, otherDisk] at hcount
    · rw [inDrive_kept hs' hk, hflag]
  · exact absurd hbreaks hno
  · exact absurd hbreaks hno

theorem Unmapped.inserts {host : Host} (hmapless : Unmapped host) (drive : Fin 4)
    (double_step b : Bool) :
    ∃ s s', inDrive s drive = b ∧
      failedIn drive (loadStreamHfe host drive double_step s) = some s' ∧
      ¬ Untouched drive s s' ∧ inDrive s' drive = true := by
  obtain ⟨header, tracks, hopen, hnone, hpasses⟩ := hmapless
  set s := otherDisk b ((header.number_of_track+2) % 2^32+1) with hs
  obtain ⟨s', hs', hend⟩ := loadStreamHfe_ends host drive double_step s header tracks hopen
    (mappedImage_clears host _ _ hnone)
  rw [hnone] at hend
  rcases hend with ⟨-, hno, -⟩ | ⟨-, hno, -⟩ | ⟨-, -, l, hk, hl⟩
  · exact absurd hpasses hno
  · exact absurd hpasses hno
  · have hmap : (insertDisk drive double_step l.state).mapped drive = none := by
      rw [← hnone, ← hs'.mapped, ← hk.mapped]
      rfl
    refine ⟨s, insertDisk drive double_step l.state, inDrive_otherDisk .., ?_, fun hsame => ?_,
      inDrive_insertDisk ..⟩
    · rw [hl]
      exact if_pos hmap
    · have hcount := hsame.count
      simp [insertDisk, hk.count, hs'.count, hs, otherDisk] at hcount

/-- A load that fails with its disk mapped has not begun, or has broken off and left the
drive's flag alone. -/
theorem failed_load_outcome (host : Host) (drive : Fin 4) (double_step : Bool) (s s' : DriveState)
    (hmapped : ¬ Unmapped host)
    (hfail : failedIn drive (loadStreamHfe host drive double_step s) = some s') :
    s' = s ∨ (BreaksOff host ∧ inDrive s' drive = inDrive s drive) := by
  cases hopen : openImage host with
  | none =>
    have hl : loadStreamHfe host drive double_step s = .error (.failed,⟨s,[]⟩) := by
      rw [loadStreamHfe, hopen]
    rw [hl] at hfail
    exact Or.inl (Option.some.inj hfail).symm
  | some file =>
    obtain ⟨header, tracks⟩ := file
    by_cases hclear : ClearsInside host header.number_of_track (tracks 0).track_len
    · obtain ⟨p, hp, hend⟩ := loadStreamHfe_ends host drive double_step s header tracks hopen hclear
      rcases hend with ⟨hb, -, l, hl, hk⟩ | ⟨-, -, l, hl⟩ | ⟨-, hpass, l, hk, hl⟩
      · rw [hl] at hfail
        obtain rfl : l.state = s' := Option.some.inj hfail
        exact Or.inr ⟨⟨header, tracks, hopen, hclear, hb⟩, inDrive_kept hp hk⟩
      · rw [hl] at hfail
        cases hfail
      · rw [hl] at hfail
        by_cases hmap : (insertDisk drive double_step l.state).mapped drive = none
        · have hnone : mappedImage host header.number_of_track (tracks 0).track_len = none := by
            rw [← hp.mapped, ← hk.mapped]
            exact hmap
          rw [hnone] at hpass
          exact absurd ⟨header, tracks, hopen, hnone, hpass⟩ hmapped
        · have hno : failedIn drive
              (.ok { l with state := insertDisk drive double_step l.state }) = none := if_neg hmap
          rw [hno] at hfail
          cases hfail
    · rcases programDrive_cases host drive header.number_of_track (tracks 0).track_len s with
        ⟨-, hprog⟩ | ⟨hyes, -⟩
      · simp [loadStreamHfe, hopen, hprog, failedIn] at hfail
      · exact absurd hyes hclear

/-- A failed load leaves the drive as it was or without a disk, whatever the drive
was: exactly if it does not break off with the flag set, and its image is mapped. -/
theorem failed_load_safe_iff (host : Host) (drive : Fin 4) (double_step b : Bool) :
    (∀ s s', inDrive s drive = b →
        failedIn drive (loadStreamHfe host drive double_step s) = some s' →
        Untouched drive s s' ∨ inDrive s' drive = false) ↔
      (b = true → ¬ BreaksOff host) ∧ ¬ Unmapped host := by
  constructor
  · intro hsafe
    refine ⟨fun hb hbreak => ?_, fun hmapless => ?_⟩
    · obtain ⟨s, s', hflag, hfail, hchanged, hin⟩ := hbreak.leaves drive double_step
      rcases hsafe s s' (hflag.trans hb.symm) hfail with hsame | hout
      · exact hchanged hsame
      · exact absurd (hin.symm.trans hout) (by decide)
    · obtain ⟨s, s', hflag, hfail, hchanged, hin⟩ := hmapless.inserts drive double_step b
      rcases hsafe s s' hflag hfail with hsame | hout
      · exact hchanged hsame
      · exact absurd (hin.symm.trans hout) (by decide)
  · rintro ⟨hbreak, hmapped⟩ s s' hflag hfail
    rcases failed_load_outcome host drive double_step s s' hmapped hfail with rfl | ⟨hb, hkept⟩
    · exact Or.inl (Untouched.refl drive s')
    · right
      rw [hkept, hflag]
      cases b with
      | false => rfl
      | true => exact absurd hb (hbreak rfl)

def truncated : List Byte := oneSided 1 (Buffer.words [1,244,2,1,64,1,0,0])

theorem truncated_file_keeps_flag :
    ¬ ∀ (host : Host) (drive : Fin 4) (double_step : Bool) (s s' : DriveState),
      failedIn drive (loadStreamHfe host drive double_step s) = some s' →
        Untouched drive s s' ∨ inDrive s' drive = false := by
  have hrun : (failedIn 0 (loadStreamHfe (literalHost truncated) 0 false (otherDisk true 80))).map
      (fun s => (s.image_max_track_reg 0,inDrive s 0)) = some (3,true) := by
    decide +kernel
  intro h
  obtain ⟨s', hs', hdata⟩ := Option.map_eq_some_iff.mp hrun
  obtain ⟨hcount, hflag⟩ := Prod.mk.inj hdata
  rcases h _ _ _ _ s' hs' with hsame | hout
  · rw [hsame.count] at hcount
    exact absurd hcount (by decide)
  · rw [hflag] at hout
    cases hout

end Pauline.LoadFailure
