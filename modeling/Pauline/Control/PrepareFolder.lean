import Mathlib.Data.List.DropRight
import Mathlib.Tactic
import Pauline.Control.CommandLine

/-!
# The folder of a dump

`prepare_folder` makes the folder a dump is stored in, and removes the folder
that stands there before, by a command line given to a shell.
-/

set_option autoImplicit false

namespace Pauline.PrepareFolder
open Pauline.CommandLine

/-! ## The names -/

def forbiddenfilenamechars : Text := "\\/:`*|;\"'".toList

def isValidChar (c : Char) : Bool := c ∉ forbiddenfilenamechars

def trimSpaces (text : Text) : Text := text.rdropWhile (· = ' ')

def cleanText (text : Text) : Text :=
  (trimSpaces text).map fun c => if isValidChar c then c else '_'

def dumpName (name : Text) : Text :=
  if name = [] then "untitled dump".toList else cleanText name

def fourDigits (n : ℤ) : Text := decimalText 4 n

def commentPart (comment : Text) : Text := if comment = [] then [] else '-' :: comment

def entry (name comment index : Text) : Text := '/' :: name ++ (commentPart comment ++ index)

/-! ## The disk -/

structure Disk where
  /-- `is_dir_present`. -/
  isDir : Text → Bool
  /-- `stat`, after the removal. -/
  stat : Text → Bool
  mkdir : Text → ℤ
  /-- `system`, on a removal. -/
  system : Text → ℤ
  /-- The directories `ftw` reports, in a folder. -/
  walk : Text → List Text

inductive Call where
  | mkdir (path : Text)
  /-- `rm -rf "path"` is given to the shell. -/
  | removeQuoted (path : Text)
deriving DecidableEq

structure Outcome where
  calls : List Call
  ret : ℤ
  folderPath : Option Text
deriving DecidableEq

def lastComponent (path : Text) : Text := path.rtakeWhile (· ≠ '/')

def displayInfo (searchName : Text) (maxIndex : ℕ) (fpath : Text) : ℕ :=
  let last := lastComponent fpath
  let index := last.drop searchName.length
  if searchName.isPrefixOf last ∧ index.length = 4 ∧ index.all Char.isDigit then
    max maxIndex (digits index)
  else maxIndex

def lastIndex (searchName : Text) (paths : List Text) : ℕ :=
  paths.foldl (displayInfo searchName) 0

/-! ## `prepare_folder` -/

inductive Mode where
  | noIndex
  | manual
  | auto
deriving DecidableEq

def store (size : ℕ) (text : Text) : Option Text :=
  if text.length < size then some text else none

def removeFolder (disk : Disk) (path : Text) : Option (List Call) :=
  if disk.isDir path then
    (store 512 ("rm -rf \"".toList ++ path ++ "\"".toList)).map fun _ => [.removeQuoted path]
  else some []

def overwrite (home : Text) (disk : Disk) (name comment index : Text) : Option Outcome := do
  let folder ← store 1024 (home ++ '/' :: name)
  let made := if disk.isDir folder then [] else [Call.mkdir folder]
  let tmp ← store 512 (entry name comment index)
  let path ← store 1024 (folder ++ tmp)
  let removed ← removeFolder disk path
  let remade := if disk.stat path then [] else [Call.mkdir path]
  let output ← store 512 path
  let calls := made ++ removed ++ remade
  let ret := match calls.getLast? with
    | none => -1
    | some (.mkdir p) => disk.mkdir p
    | some (.removeQuoted p) => disk.system p
  pure ⟨calls,ret,some output⟩

def searchName (name comment : Text) : Text := name ++ (commentPart comment ++ ['-'])

def nextIndex (start : ℤ) (last : ℕ) : ℤ := max (last+1) start

def autoIndex (home : Text) (disk : Disk) (name comment : Text) (start : ℤ) :
    Option Outcome := do
  let folder ← store 1024 (home ++ '/' :: name)
  let made := if disk.isDir folder then [] else [Call.mkdir folder]
  if disk.isDir folder = false ∧ disk.mkdir folder < 0 then pure ⟨made,-1,none⟩
  else
    let ret := if disk.isDir folder then -1 else disk.mkdir folder
    let search ← store 512 (searchName name comment)
    let last := lastIndex search (disk.walk folder)
    if last = 9999 then pure ⟨made,ret,none⟩
    else
      let tmp ← store 512 (entry name comment ('-' :: fourDigits (nextIndex start last)))
      let path ← store 1024 (folder ++ tmp)
      if disk.isDir path then pure ⟨made,ret,none⟩
      else
        let output ← store 512 path
        pure ⟨made ++ [.mkdir path],0,some output⟩

def prepareFolder (home : Text) (disk : Disk) (name comment : Text) (start : ℤ)
    (mode : Mode) : Option Outcome := do
  let _ ← store 512 name
  match mode with
  | .noIndex => overwrite home disk (dumpName name) (cleanText comment) []
  | .manual =>
    overwrite home disk (dumpName name) (cleanText comment) ('-' :: fourDigits start)
  | .auto => autoIndex home disk (dumpName name) (cleanText comment) start

/-! ## The dump command -/

def nameParam (line : Text) : Text :=
  match getParam line 10 with
  | none | some [] => "untitled".toList
  | some name => name

def commentParam (line : Text) : Text := (getParam line 11).getD []

def indexMode (line : Text) : Mode :=
  if getParam line 13 = some "NONE_INDEX_NAME".toList then .noIndex
  else if getParam line 13 = some "MANUAL_INDEX_NAME".toList then .manual
  else .auto

structure Dump where
  drive : ℤ
  dump_start_track : ℤ
  dump_max_track : ℤ
  dump_start_side : ℤ
  dump_max_side : ℤ
  high_res_mode : ℤ
  doublestep : ℤ
  ignore_index : ℤ
  spy : ℤ
  name : Text
  comment : Text
  comment2 : Text
  start_index : ℤ
  incmode : Mode
  driveref : Text
  operator : Text
deriving DecidableEq

/-- The parameters of a dump. A number that is not on the line is what the stack
held. -/
def diskdumpThread (stack : ℕ → ℤ) (line : Text) : Dump :=
  let p (i : ℕ) : ℤ := ((getParam line (i+1)).map intOf).getD (stack i)
  { drive := p 0
    dump_start_track := p 1
    dump_max_track := p 2
    dump_start_side := p 3
    dump_max_side := p 4
    high_res_mode := p 5
    doublestep := p 6
    ignore_index := p 7
    spy := p 8
    name := nameParam line
    comment := commentParam line
    comment2 := (getParam line 16).getD []
    start_index := p 11
    incmode := indexMode line
    driveref := (getParam line 14).getD []
    operator := (getParam line 15).getD [] }

def readdiskFolder (home : Text) (disk : Disk) (d : Dump) : Option Outcome :=
  if d.spy = 0 then prepareFolder home disk d.name d.comment d.start_index d.incmode
  else some ⟨[],0,none⟩

/-! ## The shell -/

/-- What a shell leaves as it is, between double quotes. A backslash is one
before a backslash, a line end or the closing quote only. -/
def keeps : Text → Bool
  | [] => true
  | c :: rest =>
    c ∉ "$`\"".toList &&
      !(c = '\\' && (rest.head? = none || rest.head? = some '\\' || rest.head? = some '\n')) &&
      keeps rest

structure Shell where
  word : Text → Text
  kept : ∀ text, keeps text = true → word text = text

def emptyShell : Shell where
  word text := if keeps text then text else []
  kept _ h := if_pos h

def Component (name : Text) : Prop :=
  name ≠ [] ∧ '/' ∉ name ∧ name ≠ ['.'] ∧ name ≠ ['.','.']

instance (name : Text) : Decidable (Component name) := by unfold Component; infer_instance

def Own (home name comment : Text) (start : ℤ) (path : Text) : Prop :=
  Component name ∧ '/' ∉ comment ∧ ∃ index, (index = [] ∨ index = '-' :: fourDigits start) ∧
    path = home ++ '/' :: name ++ entry name comment index

def Safe (sh : Shell) (home name comment : Text) (start : ℤ) : Option Outcome → Prop
  | none => False
  | some r => ∀ path, Call.removeQuoted path ∈ r.calls →
      Own home (dumpName name) (cleanText comment) start (sh.word path)

/-! ## The condition -/

def Mode.index (start : ℤ) : Mode → Text
  | .manual => '-' :: fourDigits start
  | .noIndex | .auto => []

def folderOf (home name : Text) : Text := home ++ '/' :: dumpName name

def pathOf (home name comment : Text) (start : ℤ) (mode : Mode) : Text :=
  folderOf home name ++ entry (dumpName name) (cleanText comment) (mode.index start)

def OverwriteFits (disk : Disk) (path : Text) : Prop :=
  path.length < 512 ∧ (disk.isDir path = true → path.length + 10 ≤ 512)

def AutoFits (disk : Disk) (folder name comment : Text) (start : ℤ) : Prop :=
  folder.length < 1024 ∧
    (disk.isDir folder = true ∨ 0 ≤ disk.mkdir folder →
      (searchName name comment).length < 512 ∧
        let last := lastIndex (searchName name comment) (disk.walk folder)
        let tmp := entry name comment ('-' :: fourDigits (nextIndex start last))
        (last ≠ 9999 → tmp.length < 512 ∧ (folder ++ tmp).length < 1024 ∧
          (disk.isDir (folder ++ tmp) = false → (folder ++ tmp).length < 512)))

def Fits (home : Text) (disk : Disk) (name comment : Text) (start : ℤ) (mode : Mode) : Prop :=
  name.length < 512 ∧
    match mode with
    | .auto => AutoFits disk (folderOf home name) (dumpName name) (cleanText comment) start
    | mode => OverwriteFits disk (pathOf home name comment start mode)

/-- The name is not left out, and is no folder of its own without the spaces at
its end. -/
def ProperName (name : Text) : Prop :=
  name = [] ∨ (trimSpaces name ≠ [] ∧ trimSpaces name ≠ ['.'] ∧ trimSpaces name ≠ ['.','.'])

/-! ## What is removed -/

theorem store_fits (size : ℕ) (text : Text) (h : text.length < size) :
    store size text = some text := if_pos h

theorem store_eq_some (size : ℕ) (text u : Text) :
    store size text = some u ↔ text.length < size ∧ text = u := by
  unfold store
  split <;> simp_all

theorem removeFolder_eq_some (disk : Disk) (path : Text) (calls : List Call) :
    removeFolder disk path = some calls ↔
      (disk.isDir path = true → path.length + 10 ≤ 512) ∧
        calls = if disk.isDir path then [.removeQuoted path] else [] := by
  have hlen : ("rm -rf \"".toList ++ path ++ "\"".toList).length = path.length + 9 := by
    rw [List.length_append, List.length_append]
    have : "rm -rf \"".toList.length = 8 := by decide
    have : "\"".toList.length = 1 := by decide
    omega
  rw [removeFolder]
  split
  · rename_i hdir
    simp only [Option.map_eq_some_iff, store_eq_some, hlen, hdir, true_implies]
    constructor
    · rintro ⟨_, ⟨h, -⟩, rfl⟩
      exact ⟨by omega,rfl⟩
    · rintro ⟨h, rfl⟩
      exact ⟨_,⟨by omega,rfl⟩,rfl⟩
  · rename_i hdir
    simp [hdir, eq_comm]

theorem overwrite_fits (home : Text) (disk : Disk) (name comment index : Text)
    (h : OverwriteFits disk (home ++ '/' :: name ++ entry name comment index)) :
    ∃ r, overwrite home disk name comment index = some r := by
  obtain ⟨hpath, hrm⟩ := h
  have hlen := hpath
  rw [List.length_append] at hlen
  rw [overwrite, store_fits 1024 _ (by omega)]
  simp only [Option.bind_eq_bind, Option.bind_some]
  rw [store_fits 512 (entry name comment index) (by omega)]
  simp only [Option.bind_some]
  rw [store_fits 1024 _ (by omega)]
  simp only [Option.bind_some]
  rw [(removeFolder_eq_some disk _ _).mpr ⟨hrm,rfl⟩]
  simp only [Option.bind_some]
  rw [store_fits 512 _ hpath]
  exact ⟨_,rfl⟩

theorem overwrite_some (home : Text) (disk : Disk) (name comment index : Text) (r : Outcome)
    (h : overwrite home disk name comment index = some r) :
    OverwriteFits disk (home ++ '/' :: name ++ entry name comment index) ∧
      ∀ p, Call.removeQuoted p ∈ r.calls ↔
        disk.isDir (home ++ '/' :: name ++ entry name comment index) = true ∧
          p = home ++ '/' :: name ++ entry name comment index := by
  simp only [overwrite, Option.bind_eq_bind, Option.bind_eq_some_iff, store_eq_some,
    removeFolder_eq_some] at h
  obtain ⟨_, ⟨-, rfl⟩, _, ⟨-, rfl⟩, _, ⟨-, rfl⟩, _, ⟨hrm, rfl⟩, _, ⟨hpath, rfl⟩, hr⟩ := h
  refine ⟨⟨hpath,hrm⟩,?_⟩
  intro p
  cases hr
  simp only [List.mem_append]
  constructor
  · rintro ((hp | hp) | hp)
    · split at hp <;> simp at hp
    · split at hp
      · exact ⟨by assumption,by simpa using hp⟩
      · simp at hp
    · split at hp <;> simp at hp
  · rintro ⟨hdir, rfl⟩
    rw [if_pos hdir]
    exact Or.inl (Or.inr (List.mem_singleton_self _))

theorem autoIndex_fits (home : Text) (disk : Disk) (name comment : Text) (start : ℤ)
    (h : AutoFits disk (home ++ '/' :: name) name comment start) :
    ∃ r, autoIndex home disk name comment start = some r := by
  obtain ⟨hfolder, hrest⟩ := h
  rw [autoIndex, store_fits 1024 _ hfolder]
  simp only [Option.bind_eq_bind, Option.bind_some]
  generalize home ++ '/' :: name = folder at hrest ⊢
  split
  · exact ⟨_,rfl⟩
  · rename_i hmade
    have : disk.isDir folder = true ∨ 0 ≤ disk.mkdir folder := by
      by_cases hdir : disk.isDir folder = true
      · exact Or.inl hdir
      · exact Or.inr (not_lt.mp fun h => hmade ⟨by simpa using hdir,h⟩)
    obtain ⟨hsearch, hlast⟩ := hrest this
    rw [store_fits 512 _ hsearch]
    simp only [Option.bind_some]
    split
    · exact ⟨_,rfl⟩
    · rename_i hmax
      obtain ⟨htmp, hpath, hout⟩ := hlast hmax
      rw [store_fits 512 _ htmp]
      simp only [Option.bind_some]
      rw [store_fits 1024 _ hpath]
      simp only [Option.bind_some]
      split
      · exact ⟨_,rfl⟩
      · rename_i hdir
        rw [store_fits 512 _ (hout (by simpa using hdir))]
        exact ⟨_,rfl⟩

theorem autoIndex_some (home : Text) (disk : Disk) (name comment : Text) (start : ℤ)
    (r : Outcome) (h : autoIndex home disk name comment start = some r) :
    AutoFits disk (home ++ '/' :: name) name comment start ∧
      ∀ p, Call.removeQuoted p ∉ r.calls := by
  simp only [autoIndex, Option.bind_eq_bind, Option.bind_eq_some_iff, store_eq_some] at h
  obtain ⟨_, ⟨hfolder, rfl⟩, h⟩ := h
  generalize home ++ '/' :: name = folder at h hfolder ⊢
  have hmade : ∀ p, Call.removeQuoted p ∉
      (if disk.isDir folder then [] else [Call.mkdir folder]) := by
    intro p
    split <;> simp
  split at h
  · rename_i hfail
    cases h
    refine ⟨⟨hfolder,?_⟩,hmade⟩
    rintro (hdir | hdir)
    · rw [hfail.1] at hdir
      cases hdir
    · omega
  · simp only [Option.bind_eq_some_iff, store_eq_some] at h
    obtain ⟨_, ⟨hsearch, rfl⟩, h⟩ := h
    split at h
    · rename_i hmax
      cases h
      exact ⟨⟨hfolder,fun _ => ⟨hsearch,fun hne => absurd hmax hne⟩⟩,hmade⟩
    · simp only [Option.bind_eq_some_iff, store_eq_some] at h
      obtain ⟨_, ⟨htmp, rfl⟩, _, ⟨hpath, rfl⟩, h⟩ := h
      split at h
      · rename_i hdir
        cases h
        refine ⟨⟨hfolder,fun _ => ⟨hsearch,fun _ => ⟨htmp,hpath,fun hno => ?_⟩⟩⟩,hmade⟩
        rw [hdir] at hno
        cases hno
      · simp only [Option.bind_eq_some_iff, store_eq_some] at h
        obtain ⟨_, ⟨hout, rfl⟩, h⟩ := h
        cases h
        refine ⟨⟨hfolder,fun _ => ⟨hsearch,fun _ => ⟨htmp,hpath,fun _ => hout⟩⟩⟩,?_⟩
        intro p
        simp [hmade p]

theorem prepareFolder_fits (home : Text) (disk : Disk) (name comment : Text) (start : ℤ)
    (mode : Mode) (h : Fits home disk name comment start mode) :
    ∃ r, prepareFolder home disk name comment start mode = some r := by
  obtain ⟨hname, h⟩ := h
  simp only [prepareFolder, store_fits 512 _ hname, Option.bind_eq_bind, Option.bind_some]
  cases mode with
  | noIndex => exact overwrite_fits home disk _ _ _ h
  | manual => exact overwrite_fits home disk _ _ _ h
  | auto => exact autoIndex_fits home disk _ _ start h

/-- The name of a dump command fits its buffer. -/
theorem nameParam_length (line : Text) : (nameParam line).length < 512 := by
  unfold nameParam
  split
  · decide
  · decide
  · rename_i name _ h
    exact getParam_length line 10 name h

/-- The one folder that is ever removed is the one an overwriting mode finds. -/
theorem prepareFolder_some (home : Text) (disk : Disk) (name comment : Text) (start : ℤ)
    (mode : Mode) (r : Outcome) (h : prepareFolder home disk name comment start mode = some r) :
    Fits home disk name comment start mode ∧
      ∀ p, Call.removeQuoted p ∈ r.calls ↔ mode ≠ .auto ∧
        disk.isDir (pathOf home name comment start mode) = true ∧
          p = pathOf home name comment start mode := by
  simp only [prepareFolder, Option.bind_eq_bind, Option.bind_eq_some_iff, store_eq_some] at h
  obtain ⟨_, ⟨hname, -⟩, h⟩ := h
  cases mode with
  | noIndex =>
    obtain ⟨hfits, hcalls⟩ := overwrite_some _ _ _ _ _ _ h
    exact ⟨⟨hname,hfits⟩,fun p => (hcalls p).trans (by simp [pathOf, folderOf, Mode.index])⟩
  | manual =>
    obtain ⟨hfits, hcalls⟩ := overwrite_some _ _ _ _ _ _ h
    exact ⟨⟨hname,hfits⟩,fun p => (hcalls p).trans (by simp [pathOf, folderOf, Mode.index])⟩
  | auto =>
    obtain ⟨hfits, hcalls⟩ := autoIndex_some _ _ _ _ _ _ h
    exact ⟨⟨hname,hfits⟩,fun p => by simpa using hcalls p⟩

/-! ## The texts -/

theorem mem_trimSpaces (c : Char) (hc : c ≠ ' ') (text : Text) :
    c ∈ trimSpaces text ↔ c ∈ text := by
  conv_rhs => rw [← List.rdropWhile_append_rtakeWhile (p := fun c : Char => decide (c = ' ')) (l := text)]
  rw [List.mem_append]
  constructor
  · exact Or.inl
  · rintro (h | h)
    · exact h
    · have hspace := List.mem_rtakeWhile_imp (p := fun c : Char => decide (c = ' ')) h
      exact absurd (of_decide_eq_true hspace) hc

theorem mem_cleanText (c : Char) (hvalid : isValidChar c = true) (hne : c ≠ '_')
    (text : Text) : c ∈ cleanText text ↔ c ∈ trimSpaces text := by
  rw [cleanText, List.mem_map]
  constructor
  · rintro ⟨d, hd, hdc⟩
    split at hdc
    · rwa [← hdc]
    · exact absurd hdc.symm hne
  · intro h
    exact ⟨c,h,if_pos hvalid⟩

theorem cleanText_valid (text : Text) (c : Char) (h : c ∈ cleanText text) :
    isValidChar c = true := by
  obtain ⟨d, -, rfl⟩ := List.mem_map.mp h
  split
  · assumption
  · decide

theorem dumpName_valid (name : Text) (c : Char) (h : c ∈ dumpName name) :
    isValidChar c = true := by
  unfold dumpName at h
  split at h
  · exact List.all_eq_true.mp (by decide : "untitled dump".toList.all isValidChar = true) c h
  · exact cleanText_valid name c h

theorem valid_ne (c d : Char) (h : isValidChar c = true) (hd : isValidChar d = false) :
    c ≠ d := by
  rintro rfl
  rw [h] at hd
  cases hd

theorem fourDigits_mem (n : ℤ) (c : Char) (h : c ∈ fourDigits n) : c = '-' ∨ c.isDigit := by
  rw [fourDigits, decimalText, List.mem_append, List.leftpad, List.mem_append, List.mem_replicate] at h
  obtain h | h | h := h
  · split at h
    · exact Or.inl (List.mem_singleton.mp h)
    · cases h
  · exact Or.inr (by rw [h.2]; rfl)
  · exact Or.inr (Nat.isDigit_of_mem_toDigits (by decide) (by decide) h)

/-- A cleaned text of dots is the text of dots it is made of. -/
theorem cleanText_eq_dots (text : Text) (n : ℕ) :
    cleanText text = List.replicate n '.' ↔ trimSpaces text = List.replicate n '.' := by
  rw [cleanText, List.eq_replicate_iff, List.eq_replicate_iff, List.length_map, List.forall_mem_map]
  refine and_congr_right fun _ => forall₂_congr fun c _ => ?_
  split
  · rfl
  · rename_i hc
    constructor
    · intro h
      exact absurd h (by decide)
    · rintro rfl
      exact absurd (by decide) hc

theorem component_iff (name : Text) : Component (dumpName name) ↔ ProperName name := by
  have hslash : '/' ∉ dumpName name := fun h =>
    valid_ne _ _ (dumpName_valid name _ h) (by decide) rfl
  unfold Component ProperName
  simp only [hslash, not_false_eq_true, true_and]
  by_cases hname : name = []
  · subst hname
    decide
  · simp only [hname, false_or]
    rw [dumpName, if_neg hname]
    refine and_congr (not_congr ?_) (and_congr (not_congr ?_) (not_congr ?_))
    · exact cleanText_eq_dots name 0
    · exact cleanText_eq_dots name 1
    · exact cleanText_eq_dots name 2

/-! ## The text between the quotes -/

theorem keeps_append (u v : Text) :
    keeps (u ++ '/' :: v) = (keeps (u ++ ['/']) && keeps v) := by
  induction u with
  | nil => simp [keeps]
  | cons c u ih =>
    have hhead : (u ++ '/' :: v).head? = (u ++ ['/']).head? := by
      cases u <;> rfl
    rw [List.cons_append, List.cons_append, keeps, keeps, ih, hhead, Bool.and_assoc,
      Bool.and_assoc, Bool.and_assoc]

/-- Without quotes and backslashes, `$` is all that a shell expands. -/
theorem keeps_iff (text : Text) (h : ∀ c ∈ text, c ∉ "`\"\\".toList) :
    keeps text = true ↔ '$' ∉ text := by
  induction text with
  | nil => simp [keeps]
  | cons c text ih =>
    obtain ⟨hc, htext⟩ := List.forall_mem_cons.mp h
    have hspecial : c ∈ "$`\"".toList ↔ '$' = c := by
      constructor
      · intro hmem
        have : "$`\"".toList = ['$'] ++ ("`\"\\".toList.take 2) := by decide
        rw [this, List.mem_append, List.mem_singleton] at hmem
        obtain h | h := hmem
        · exact h.symm
        · exact absurd (List.mem_of_mem_take h) hc
      · rintro rfl
        decide
    have hslash : c ≠ '\\' := by
      rintro rfl
      exact hc (by decide)
    rw [keeps, Bool.and_eq_true, Bool.and_eq_true, ih htext, List.mem_cons, not_or]
    simp only [hspecial, hslash, decide_not, decide_false, Bool.false_and, Bool.not_false,
      Bool.not_eq_true', decide_eq_false_iff_not, and_true]

theorem valid_plain (c : Char) (h : isValidChar c = true) : c ∉ "`\"\\".toList := by
  intro hc
  have hall := List.all_eq_true.mp
    (by decide : "`\"\\".toList.all (fun d => !isValidChar d) = true) c hc
  rw [h] at hall
  cases hall

theorem index_mem (mode : Mode) (start : ℤ) (c : Char) (h : c ∈ mode.index start) :
    c = '-' ∨ c.isDigit := by
  cases mode with
  | manual =>
    obtain rfl | h := List.mem_cons.mp h
    · exact Or.inl rfl
    · exact fourDigits_mem start c h
  | noIndex => cases h
  | auto => cases h

theorem index_special (mode : Mode) (start : ℤ) (c : Char) (hc : c ≠ '-')
    (hdigit : c.isDigit = false) : c ∉ mode.index start := by
  intro h
  obtain h | h := index_mem mode start c h
  · exact hc h
  · rw [hdigit] at h
    cases h

theorem mem_commentPart (c : Char) (hc : c ≠ '-') (comment : Text) :
    c ∈ commentPart comment ↔ c ∈ comment := by
  unfold commentPart
  split
  · rename_i h
    rw [h]
  · simp [hc]

theorem keeps_path (home name comment : Text) (start : ℤ) (mode : Mode) :
    keeps (pathOf home name comment start mode) = true ↔
      keeps (home ++ ['/']) = true ∧ '$' ∉ dumpName name ∧ '$' ∉ cleanText comment := by
  have hpath : pathOf home name comment start mode =
      home ++ '/' :: (dumpName name ++ '/' :: (dumpName name ++
        (commentPart (cleanText comment) ++ mode.index start))) := by
    simp [pathOf, folderOf, entry]
  have hplain : ∀ c ∈ dumpName name ++ '/' :: (dumpName name ++
      (commentPart (cleanText comment) ++ mode.index start)), c ∉ "`\"\\".toList := by
    intro c hc hspecial
    have hne := List.all_eq_true.mp (by decide : "`\"\\".toList.all
      (fun d => decide (d ≠ '-' ∧ d ≠ '/' ∧ d.isDigit = false)) = true) c hspecial
    replace hne := of_decide_eq_true hne
    simp only [List.mem_append, List.mem_cons, mem_commentPart c hne.1, hne.2.1, false_or,
      index_special mode start c hne.1 hne.2.2, or_false] at hc
    obtain hc | hc | hc := hc
    · exact valid_plain c (dumpName_valid name c hc) hspecial
    · exact valid_plain c (dumpName_valid name c hc) hspecial
    · exact valid_plain c (cleanText_valid comment c hc) hspecial
  rw [hpath, keeps_append, Bool.and_eq_true, keeps_iff _ hplain]
  refine and_congr_right fun _ => ?_
  simp only [List.mem_append, List.mem_cons, mem_commentPart '$' (by decide),
    index_special mode start '$' (by decide) (by decide), or_false, not_or]
  have : '$' ≠ '/' := by decide
  tauto

theorem dollar_cleanText (text : Text) : '$' ∈ cleanText text ↔ '$' ∈ text := by
  rw [mem_cleanText '$' (by decide) (by decide), mem_trimSpaces '$' (by decide)]

theorem dollar_dumpName (name : Text) : '$' ∈ dumpName name ↔ '$' ∈ name := by
  unfold dumpName
  split
  · rename_i h
    subst h
    decide
  · exact dollar_cleanText name

theorem slash_cleanText (text : Text) : '/' ∉ cleanText text := fun h =>
  valid_ne _ _ (cleanText_valid text _ h) (by decide) rfl

/-! ## Which folders are removed -/

/-- The folder of an overwriting mode is the dump's own, if its name is one. -/
theorem pathOf_own (home name comment : Text) (start : ℤ) (mode : Mode)
    (h : ProperName name) :
    Own home (dumpName name) (cleanText comment) start (pathOf home name comment start mode) := by
  refine ⟨(component_iff name).mpr h,slash_cleanText comment,mode.index start,?_,rfl⟩
  cases mode with
  | manual => exact Or.inr rfl
  | noIndex => exact Or.inl rfl
  | auto => exact Or.inl rfl

/-- The dump's own folder is removed and no other, in every shell, just where the
texts fit and either nothing is removed or the name is a proper one and no text
has anything for the shell to expand. -/
theorem safe_iff (home : Text) (disk : Disk) (name comment : Text) (start : ℤ) (mode : Mode) :
    (∀ sh : Shell,
      Safe sh home name comment start (prepareFolder home disk name comment start mode)) ↔
      Fits home disk name comment start mode ∧
        (mode = .auto ∨ disk.isDir (pathOf home name comment start mode) = false ∨
          (ProperName name ∧ '$' ∉ name ∧ '$' ∉ comment ∧ keeps (home ++ ['/']) = true)) := by
  constructor
  · intro h
    cases hr : prepareFolder home disk name comment start mode with
    | none =>
      rw [hr] at h
      exact (h emptyShell).elim
    | some r =>
      obtain ⟨hfits, hcalls⟩ := prepareFolder_some _ _ _ _ _ _ _ hr
      refine ⟨hfits,?_⟩
      by_cases hauto : mode = .auto
      · exact Or.inl hauto
      by_cases hdir : disk.isDir (pathOf home name comment start mode) = true
      · have hown := h emptyShell
        rw [hr] at hown
        obtain ⟨hcomp, -, index, -, hword⟩ := hown _ ((hcalls _).mpr ⟨hauto,hdir,rfl⟩)
        have hkeeps : keeps (pathOf home name comment start mode) = true := by
          by_contra hno
          rw [emptyShell] at hword
          simp [hno] at hword
        rw [keeps_path, dollar_dumpName, dollar_cleanText] at hkeeps
        exact Or.inr (Or.inr ⟨(component_iff name).mp hcomp,hkeeps.2.1,hkeeps.2.2,hkeeps.1⟩)
      · exact Or.inr (Or.inl (by simpa using hdir))
  · rintro ⟨hfits, h⟩ sh
    obtain ⟨r, hr⟩ := prepareFolder_fits _ _ _ _ _ _ hfits
    rw [hr]
    intro path hpath
    obtain ⟨hauto, hdir, rfl⟩ := ((prepareFolder_some _ _ _ _ _ _ _ hr).2 path).mp hpath
    obtain h | h | ⟨hname, hn, hc, hhome⟩ := h
    · exact absurd h hauto
    · rw [h] at hdir
      cases hdir
    · have hkeeps : keeps (pathOf home name comment start mode) = true := by
        rw [keeps_path, dollar_dumpName, dollar_cleanText]
        exact ⟨hhome,hn,hc⟩
      rw [sh.kept _ hkeeps]
      exact pathOf_own home name comment start mode hname

def capturesFolder : Text := "/home/pauline/Disks_Captures".toList

def homeDisk : Disk where
  isDir path :=
    capturesFolder.isPrefixOf path && (path.drop capturesFolder.length).all (· = '/')
  stat _ := false
  mkdir _ := 0
  system _ := 0
  walk _ := []

def spaceLine : Text := "dump 0 0 1 0 0 0 0 0 0 \" \" \"\" 0 NONE_INDEX_NAME".toList

/-- A dump whose name is a space removes the home folder, in every shell. -/
theorem space_name_removes_home :
    readdiskFolder capturesFolder homeDisk (diskdumpThread (fun _ => 0) spaceLine) =
        some ⟨[.removeQuoted (capturesFolder ++ "//".toList),
          .mkdir (capturesFolder ++ "//".toList)],0,
          some (capturesFolder ++ "//".toList)⟩ ∧
      ∀ sh : Shell, ¬ Safe sh capturesFolder (nameParam spaceLine) (commentParam spaceLine) 0
        (readdiskFolder capturesFolder homeDisk (diskdumpThread (fun _ => 0) spaceLine)) := by
  have hrun : readdiskFolder capturesFolder homeDisk (diskdumpThread (fun _ => 0) spaceLine) =
      some ⟨[.removeQuoted (capturesFolder ++ "//".toList),
        .mkdir (capturesFolder ++ "//".toList)],0,
        some (capturesFolder ++ "//".toList)⟩ := by
    decide +kernel
  refine ⟨hrun,fun sh h => ?_⟩
  rw [hrun] at h
  obtain ⟨hcomp, -⟩ := h _ (List.mem_cons_self ..)
  exact absurd hcomp (by decide +kernel)

end Pauline.PrepareFolder
