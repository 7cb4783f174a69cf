import Pauline.Control.PrepareFolder
import Pauline.Control.ReadDisk

/-!
# The paths of a dump

Every text that `prepare_folder` and `readdisk` make on the way to the track
files, with the arrays they are written to. A spy makes no folder, and its
`folder_path` is what the stack held.
-/

set_option autoImplicit false

namespace Pauline.DumpPaths
open Pauline.CommandLine Pauline.HeadStepper
open Pauline.PrepareFolder hiding Outcome

/-! ## The track files -/

def trackFile (folder_path : Text) (i j : ℤ) : Text :=
  folder_path ++ "/track".toList ++ decimalText 2 i ++ '.' :: decimalText 1 j ++ ".hxcstream".toList

def shorten (temp : Text) : Option Text :=
  if temp.length > 24 then
    if 36 ≤ temp.length then some ("...".toList ++ temp.drop (temp.length - 33)) else none
  else some temp

def nameTrack (folder_path : Text) (i j : ℤ) : Option Text := do
  let temp ← store 512 (trackFile folder_path i j)
  shorten temp

def readSide (outcome : ℤ → ℤ → Outcome) (folder_path : Text) (i j : ℤ) (shown : List Text) :
    Option (Bool × List Text) :=
  match outcome i j with
  | .stopped => some (false,shown)
  | .read => (nameTrack folder_path i j).map fun temp => (true,shown ++ [temp])
  | .failed => (nameTrack folder_path i j).map fun temp => (false,shown ++ [temp])

def readSides (outcome : ℤ → ℤ → Outcome) (folder_path : Text) (i : ℤ) (n : ℕ) (j : ℤ)
    (shown : List Text) : Option (Bool × List Text) :=
  (sideLoop (m := StateT (List Text) Option) (readSide outcome folder_path i) n j).run shown

def readTracks (p : DumpParams) (outcome : ℤ → ℤ → Outcome) (folder_path : Text) (n : ℕ) (i : ℤ)
    (shown : List Text) : Option (List Text) :=
  ((trackLoop (m := StateT (List Text) Option)
    (fun i => readSides outcome folder_path i (iterations p.start_side p.max_side) p.start_side)
    (fun _ => pure ()) n i).run shown).map (·.2)

structure Met where
  /-- Track 0 is found. -/
  found : Bool
  outcome : ℤ → ℤ → Outcome
  /-- `folder_path`, before anything is written to it. -/
  unset : Text

def tracks (p : DumpParams) (d : Drive) (spy : Bool) : ℤ × ℤ :=
  let head := if p.doublestep then d.current_head_position.tdiv 2 else d.current_head_position
  let (first, last) :=
    if spy ∨ p.start_track = -1 then (head,head) else (p.start_track,p.max_track)
  (first,clampTrack d.max_steps last)

def readAll (p : DumpParams) (d : Drive) (spy : Bool) (met : Met) (folder_path : Text) :
    Option (List Text) :=
  let (first, last) := tracks p d spy
  readTracks p met.outcome folder_path (iterations first last) first []

def readdisk (home : Text) (disk : Disk) (p : DumpParams) (d : Drive) (spy : Bool)
    (name comment : Text) (start : ℤ) (mode : Mode) (met : Met) : Option (List Text) :=
  if spy then readAll p d spy met met.unset
  else do
    let r ← prepareFolder home disk name comment start mode
    if r.ret < 0 then pure []
    else if p.start_track ≠ -1 ∧ !met.found then pure []
    else readAll p d spy met (r.folderPath.getD met.unset)

/-! ## The command -/

def dumpParams (d : Dump) : DumpParams where
  start_track := d.dump_start_track
  max_track := d.dump_max_track
  start_side := d.dump_start_side
  max_side := d.dump_max_side
  doublestep := d.doublestep ≠ 0

def accepted (line : Text) : Bool := (List.range 9).all fun i => (getParam line (i+1)).isSome

def cmdDump (home : Text) (disk : Disk) (drives : ℤ → Drive) (stack : ℕ → ℤ) (line : Text)
    (met : Met) : Option (List Text) :=
  if accepted line then
    let d := diskdumpThread stack line
    readdisk home disk (dumpParams d) (drives d.drive) (d.spy ≠ 0) d.name d.comment d.start_index
      d.incmode met
  else some []

def Inside (home : Text) (disk : Disk) (drives : ℤ → Drive) (stack : ℕ → ℤ) (line : Text) : Prop :=
  ∀ met, (cmdDump home disk drives stack line met).isSome = true

/-! ## The condition -/

def NameFits (folder_path : Text) (i j : ℤ) : Prop :=
  (trackFile folder_path i j).length < 512 ∧
    (24 < (trackFile folder_path i j).length → 36 ≤ (trackFile folder_path i j).length)

def Reached (p : DumpParams) (d : Drive) (spy : Bool) (i j : ℤ) : Prop :=
  (tracks p d spy).1 ≤ i ∧ i ≤ (tracks p d spy).2 ∧ p.start_side ≤ j ∧ j ≤ p.max_side

def Overwritten (disk : Disk) (folder path : Text) : Prop :=
  if disk.stat path then
    if disk.isDir path then 0 ≤ disk.system path
    else disk.isDir folder = false ∧ 0 ≤ disk.mkdir folder
  else 0 ≤ disk.mkdir path

/-- What `folder_path` can hold after a new index has been taken: the path, or
anything where a folder just made has no index left. -/
def AutoHolds (disk : Disk) (folder name comment : Text) (start : ℤ) (text : Text) : Prop :=
  let last := lastIndex (searchName name comment) (disk.walk folder)
  let path := folder ++ entry name comment ('-' :: fourDigits (nextIndex start last))
  if last ≠ 9999 ∧ disk.isDir path = false then
    (disk.isDir folder = true ∨ 0 ≤ disk.mkdir folder) ∧ text = path
  else disk.isDir folder = false ∧ 0 ≤ disk.mkdir folder

def Holds (home : Text) (disk : Disk) (name comment : Text) (start : ℤ) (mode : Mode)
    (text : Text) : Prop :=
  match mode with
  | .auto => AutoHolds disk (folderOf home name) (dumpName name) (cleanText comment) start text
  | mode => Overwritten disk (folderOf home name) (pathOf home name comment start mode) ∧
      text = pathOf home name comment start mode

def PathsFit (home : Text) (disk : Disk) (p : DumpParams) (d : Drive) (spy : Bool)
    (name comment : Text) (start : ℤ) (mode : Mode) : Prop :=
  (spy = false → Fits home disk name comment start mode) ∧
    ∀ text, spy = true ∨ Holds home disk name comment start mode text →
      ∀ i j, Reached p d spy i j → NameFits text i j

/-! ## The loops -/

theorem nameTrack_isSome (folder_path : Text) (i j : ℤ) :
    (nameTrack folder_path i j).isSome = true ↔ NameFits folder_path i j := by
  simp only [nameTrack, NameFits, store, Option.bind_eq_bind]
  split_ifs with hlen
  · simp only [Option.bind_some, shorten]
    split_ifs <;> simp_all
  · simp [hlen]

theorem readSides_succ (outcome : ℤ → ℤ → Outcome) (folder_path : Text) (i : ℤ) (n : ℕ) (j : ℤ)
    (shown : List Text) :
    readSides outcome folder_path i (n+1) j shown =
      (readSide outcome folder_path i j shown).bind fun r =>
        if r.1 then readSides outcome folder_path i n (j+1) r.2 else some (false,r.2) :=
  sideLoop_run _ n j shown

theorem readTracks_succ (p : DumpParams) (outcome : ℤ → ℤ → Outcome) (folder_path : Text) (n : ℕ)
    (i : ℤ) (shown : List Text) :
    readTracks p outcome folder_path (n+1) i shown =
      (readSides outcome folder_path i (iterations p.start_side p.max_side) p.start_side shown).bind
        fun r => if r.1 then readTracks p outcome folder_path n (i+1) r.2 else some r.2 := by
  unfold readTracks
  rw [trackLoop_run, StateT.run]
  cases readSides outcome folder_path i (iterations p.start_side p.max_side) p.start_side shown with
  | none => rfl
  | some r =>
    obtain ⟨go, shown'⟩ := r
    cases go <;> rfl

theorem readSides_inside (outcome : ℤ → ℤ → Outcome) (folder_path : Text) (i : ℤ) (n : ℕ)
    (j : ℤ) (shown : List Text) (h : ∀ k : ℕ, k < n → NameFits folder_path i (j+k)) :
    ∃ r, readSides outcome folder_path i n j shown = some r := by
  induction n generalizing j shown with
  | zero => exact ⟨_,rfl⟩
  | succ n ih =>
    obtain ⟨temp, htemp⟩ := Option.isSome_iff_exists.mp
      ((nameTrack_isSome folder_path i j).mpr (by simpa using h 0 (Nat.succ_pos n)))
    have hrest : ∀ k : ℕ, k < n → NameFits folder_path i (j+1+k) := fun k hk => by
      have hnext := h (k+1) (by omega)
      rwa [Nat.cast_add, Nat.cast_one, add_comm (k : ℤ) 1, ← add_assoc] at hnext
    rw [readSides_succ, readSide]
    cases outcome i j with
    | stopped => exact ⟨_,rfl⟩
    | read =>
      rw [htemp]
      exact ih (j+1) (shown ++ [temp]) hrest
    | failed => exact ⟨_,by rw [htemp]; rfl⟩

theorem readSides_all (folder_path : Text) (i : ℤ) (n : ℕ) (j : ℤ) (shown : List Text)
    {r : Bool × List Text} (h : readSides (fun _ _ => .read) folder_path i n j shown = some r) :
    r.1 = true ∧ ∀ k : ℕ, k < n → NameFits folder_path i (j+k) := by
  induction n generalizing j shown with
  | zero =>
    cases h
    exact ⟨rfl,fun k hk => absurd hk (Nat.not_lt_zero k)⟩
  | succ n ih =>
    rw [readSides_succ, readSide, Option.bind_eq_some_iff] at h
    obtain ⟨s, hs, h⟩ := h
    obtain ⟨temp, htemp, rfl⟩ := Option.map_eq_some_iff.mp hs
    obtain ⟨hgo, hnames⟩ := ih (j+1) _ h
    refine ⟨hgo,fun k hk => ?_⟩
    cases k with
    | zero =>
      have hfirst := (nameTrack_isSome folder_path i j).mp (by rw [htemp]; rfl)
      simpa using hfirst
    | succ k =>
      have hnext := hnames k (by omega)
      rwa [Nat.cast_add, Nat.cast_one, add_comm (k : ℤ) 1, ← add_assoc]

theorem readTracks_inside (p : DumpParams) (outcome : ℤ → ℤ → Outcome) (folder_path : Text)
    (n : ℕ) (i : ℤ) (shown : List Text)
    (h : ∀ m : ℕ, m < n → ∀ k : ℕ, k < iterations p.start_side p.max_side →
      NameFits folder_path (i+m) (p.start_side+k)) :
    ∃ r, readTracks p outcome folder_path n i shown = some r := by
  induction n generalizing i shown with
  | zero => exact ⟨_,rfl⟩
  | succ n ih =>
    obtain ⟨⟨go, shown'⟩, hsides⟩ := readSides_inside outcome folder_path i
      (iterations p.start_side p.max_side) p.start_side shown
      (by simpa using h 0 (Nat.succ_pos n))
    rw [readTracks_succ, hsides]
    cases go with
    | false => exact ⟨_,rfl⟩
    | true =>
      refine ih (i+1) shown' fun m hm => ?_
      have hnext := h (m+1) (by omega)
      rwa [Nat.cast_add, Nat.cast_one, add_comm (m : ℤ) 1, ← add_assoc] at hnext

theorem readTracks_all (p : DumpParams) (folder_path : Text) (n : ℕ) (i : ℤ) (shown : List Text)
    {r : List Text} (h : readTracks p (fun _ _ => .read) folder_path n i shown = some r) :
    ∀ m : ℕ, m < n → ∀ k : ℕ, k < iterations p.start_side p.max_side →
      NameFits folder_path (i+m) (p.start_side+k) := by
  induction n generalizing i shown with
  | zero => exact fun m hm => absurd hm (Nat.not_lt_zero m)
  | succ n ih =>
    rw [readTracks_succ, Option.bind_eq_some_iff] at h
    obtain ⟨⟨go, shown'⟩, hsides, h⟩ := h
    obtain ⟨hgo, hnames⟩ := readSides_all folder_path i _ _ _ hsides
    obtain rfl : go = true := hgo
    intro m hm k hk
    cases m with
    | zero => simpa using hnames k hk
    | succ m =>
      have hnext := ih (i+1) shown' h m (by omega) k hk
      rwa [Nat.cast_add, Nat.cast_one, add_comm (m : ℤ) 1, ← add_assoc]

theorem reached_iff (p : DumpParams) (d : Drive) (spy : Bool) (q : ℤ → ℤ → Prop) :
    (∀ i j, Reached p d spy i j → q i j) ↔
      ∀ m : ℕ, m < iterations (tracks p d spy).1 (tracks p d spy).2 →
        ∀ k : ℕ, k < iterations p.start_side p.max_side →
          q ((tracks p d spy).1+m) (p.start_side+k) := by
  unfold Reached iterations
  constructor
  · intro h m hm k hk
    exact h _ _ ⟨by omega,by omega,by omega,by omega⟩
  · rintro h i j ⟨hi, hlast, hj, hmax⟩
    have hq := h (i-(tracks p d spy).1).toNat (by omega) (j-p.start_side).toNat (by omega)
    rwa [Int.toNat_of_nonneg (by omega), Int.toNat_of_nonneg (by omega), add_sub_cancel,
      add_sub_cancel] at hq

/-- The tracks are named inside the arrays, whatever the dump meets, exactly if
all names of tracks reached fit. -/
theorem readAll_isSome (p : DumpParams) (d : Drive) (spy : Bool) (folder_path : Text) :
    (∀ met, (readAll p d spy met folder_path).isSome = true) ↔
      ∀ i j, Reached p d spy i j → NameFits folder_path i j := by
  rw [reached_iff]
  constructor
  · intro h
    obtain ⟨r, hr⟩ := Option.isSome_iff_exists.mp (h ⟨true,fun _ _ => .read,[]⟩)
    exact readTracks_all p folder_path _ _ _ hr
  · intro h met
    obtain ⟨r, hr⟩ := readTracks_inside p met.outcome folder_path _ _ [] h
    exact Option.isSome_iff_exists.mpr ⟨r,hr⟩

/-! ## The folder -/

theorem overwrite_holds (home : Text) (disk : Disk) (name comment index : Text)
    {r : PrepareFolder.Outcome} (h : overwrite home disk name comment index = some r) (text : Text) :
    (0 ≤ r.ret ∧ ∃ unset, text = r.folderPath.getD unset) ↔
      Overwritten disk (home ++ '/' :: name) (home ++ '/' :: name ++ entry name comment index) ∧
        text = home ++ '/' :: name ++ entry name comment index := by
  simp only [overwrite, Option.bind_eq_bind, Option.bind_eq_some_iff, store_eq_some,
    removeFolder_eq_some] at h
  obtain ⟨_, ⟨-, rfl⟩, _, ⟨-, rfl⟩, _, ⟨-, rfl⟩, _, ⟨-, rfl⟩, _, ⟨-, rfl⟩, hr⟩ := h
  generalize home ++ '/' :: name = folder at hr ⊢
  generalize folder ++ entry name comment index = path at hr ⊢
  cases hr
  simp only [Option.getD_some, exists_const]
  refine and_congr_left fun _ => ?_
  unfold Overwritten
  cases disk.isDir folder <;> cases disk.isDir path <;> cases disk.stat path <;> simp

theorem autoIndex_holds (home : Text) (disk : Disk) (name comment : Text) (start : ℤ)
    {r : PrepareFolder.Outcome} (h : autoIndex home disk name comment start = some r) (text : Text) :
    (0 ≤ r.ret ∧ ∃ unset, text = r.folderPath.getD unset) ↔
      AutoHolds disk (home ++ '/' :: name) name comment start text := by
  simp only [autoIndex, Option.bind_eq_bind, Option.bind_eq_some_iff, store_eq_some] at h
  obtain ⟨_, ⟨-, rfl⟩, h⟩ := h
  unfold AutoHolds
  generalize home ++ '/' :: name = folder at h ⊢
  have hfresh : 0 ≤ (if disk.isDir folder then -1 else disk.mkdir folder) ↔
      disk.isDir folder = false ∧ 0 ≤ disk.mkdir folder := by
    cases disk.isDir folder <;> simp
  split at h
  · rename_i hrefused
    cases h
    have hno : ¬0 ≤ disk.mkdir folder := not_le.mpr hrefused.2
    simp [hrefused.1, hno]
  · rename_i hmade
    have hopen : disk.isDir folder = true ∨ 0 ≤ disk.mkdir folder := by
      cases hdir : disk.isDir folder with
      | true => exact Or.inl rfl
      | false => exact Or.inr (not_lt.mp fun hneg => hmade ⟨hdir,hneg⟩)
    simp only [Option.bind_eq_some_iff, store_eq_some] at h
    obtain ⟨_, ⟨-, rfl⟩, h⟩ := h
    split at h
    · rename_i hlast
      cases h
      simp [hlast, hfresh]
    · rename_i hlast
      simp only [Option.bind_eq_some_iff, store_eq_some] at h
      obtain ⟨_, ⟨-, rfl⟩, _, ⟨-, rfl⟩, h⟩ := h
      split at h
      · rename_i hdir
        cases h
        simp [hdir, hfresh]
      · rename_i hdir
        simp only [Option.bind_eq_some_iff, store_eq_some] at h
        obtain ⟨_, ⟨-, rfl⟩, h⟩ := h
        cases h
        simp [hlast, hdir, hopen]

theorem prepareFolder_holds (home : Text) (disk : Disk) (name comment : Text) (start : ℤ)
    (mode : Mode) {r : PrepareFolder.Outcome}
    (h : prepareFolder home disk name comment start mode = some r) (text : Text) :
    (0 ≤ r.ret ∧ ∃ unset, text = r.folderPath.getD unset) ↔
      Holds home disk name comment start mode text := by
  simp only [prepareFolder, Option.bind_eq_bind, Option.bind_eq_some_iff, store_eq_some] at h
  obtain ⟨_, -, h⟩ := h
  cases mode with
  | noIndex => exact overwrite_holds _ _ _ _ _ h text
  | manual => exact overwrite_holds _ _ _ _ _ h text
  | auto => exact autoIndex_holds _ _ _ _ _ h text

/-! ## The dump -/

theorem readdisk_isSome (home : Text) (disk : Disk) (p : DumpParams) (d : Drive) (spy : Bool)
    (name comment : Text) (start : ℤ) (mode : Mode) :
    (∀ met, (readdisk home disk p d spy name comment start mode met).isSome = true) ↔
      PathsFit home disk p d spy name comment start mode := by
  cases spy with
  | true =>
    simp only [readdisk, if_true, PathsFit, Bool.true_eq_false, false_implies, true_and, true_or]
    constructor
    · intro h text _
      apply (readAll_isSome p d true text).mp
      exact fun met => h ⟨met.found,met.outcome,text⟩
    · exact fun h met => (readAll_isSome p d true met.unset).mpr (h met.unset trivial) met
  | false =>
    simp only [readdisk, Bool.false_eq_true, if_false, PathsFit, true_implies, false_or]
    constructor
    · intro h
      cases hr : prepareFolder home disk name comment start mode with
      | none =>
        have hnone := h ⟨true,fun _ _ => .read,[]⟩
        rw [hr] at hnone
        cases hnone
      | some r =>
        refine ⟨(prepareFolder_some _ _ _ _ _ _ _ hr).1,fun text htext => ?_⟩
        obtain ⟨hret, unset, rfl⟩ := (prepareFolder_holds _ _ _ _ _ _ hr text).mpr htext
        apply (readAll_isSome p d false _).mp
        intro met
        have hrun := h ⟨true,met.outcome,unset⟩
        simp only [hr, Option.bind_eq_bind, Option.bind_some, if_neg (not_lt.mpr hret),
          Bool.not_true, Bool.false_eq_true, and_false, if_false] at hrun
        exact hrun
    · rintro ⟨hfits, hnames⟩ met
      obtain ⟨r, hr⟩ := prepareFolder_fits _ _ _ _ _ _ hfits
      rw [hr, Option.bind_eq_bind, Option.bind_some]
      split_ifs with hret hfound
      · rfl
      · rfl
      · have hholds := (prepareFolder_holds _ _ _ _ _ _ hr _).mp ⟨not_lt.mp hret,met.unset,rfl⟩
        exact (readAll_isSome p d false _).mpr (hnames _ hholds) met

/-- Every text of a dump command stays in its array exactly if no dump is
started or all its paths fit. -/
theorem dump_paths_inside_iff (home : Text) (disk : Disk) (drives : ℤ → Drive) (stack : ℕ → ℤ)
    (line : Text) :
    Inside home disk drives stack line ↔ (accepted line = true →
      let d := diskdumpThread stack line
      PathsFit home disk (dumpParams d) (drives d.drive) (d.spy ≠ 0) d.name d.comment d.start_index
        d.incmode) := by
  unfold Inside cmdDump
  cases accepted line with
  | false => simp
  | true => simpa using readdisk_isSome ..

def emptyDisk : Disk where
  isDir _ := false
  stat _ := false
  mkdir _ := 0
  system _ := 0
  walk folder := [folder]

def shortLine : Text := "dump 0 0 0 0 0 0 0 0 0 ab".toList

/-- `/ab/ab-0001/track00.0.hxcstream` is too short to be shortened. -/
theorem short_name_leaves_array :
    ¬Inside [] emptyDisk (fun _ => ⟨82,0⟩) (fun _ => 0) shortLine := by
  intro h
  have hnone : cmdDump [] emptyDisk (fun _ => ⟨82,0⟩) (fun _ => 0) shortLine
      ⟨true,fun _ _ => .read,[]⟩ = none := by
    decide +kernel
  have hsome := h ⟨true,fun _ _ => .read,[]⟩
  rw [hnone] at hsome
  cases hsome

end Pauline.DumpPaths
