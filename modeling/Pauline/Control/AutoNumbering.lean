import Pauline.Control.PrepareFolder
import Pauline.Library.Words

/-!
# The numbers of dumps of one name

`prepare_folder` in the mode that takes a new index, on a tree of directories:
which index it finds and whether the folder of that index is there afterwards.
-/

set_option autoImplicit false

namespace Pauline.AutoNumbering
open Pauline.CommandLine Pauline.PrepareFolder

/-! ## Four digits -/

theorem digit_range (c : Char) (h : c.isDigit = true) : 48 ≤ c.toNat ∧ c.toNat ≤ 57 :=
  Char.isDigit_iff_toNat.mp h

theorem ofDigitChars_cons_ten (c : Char) (text : Text) :
    Nat.ofDigitChars 10 (c::text) 0 =
      10^text.length * (c.toNat - 48) + Nat.ofDigitChars 10 text 0 := by
  rw [Nat.ofDigitChars_cons, Nat.ofDigitChars_eq_ofDigitChars_zero, mul_zero, zero_add]
  rfl

theorem ofDigitChars_lt (text : Text) (h : text.all Char.isDigit = true) :
    Nat.ofDigitChars 10 text 0 < 10^text.length := by
  induction text with
  | nil => simp
  | cons c text ih =>
    rw [List.all_cons, Bool.and_eq_true] at h
    have hc := digit_range c h.1
    have hle : c.toNat - 48 ≤ 9 := by omega
    have hrest := ih h.2
    rw [ofDigitChars_cons_ten, List.length_cons, pow_succ]
    have hmul := Nat.mul_le_mul_left (10^text.length) hle
    omega

theorem ofDigitChars_inj (s t : Text) (hlen : s.length = t.length)
    (hs : s.all Char.isDigit = true) (ht : t.all Char.isDigit = true)
    (heq : Nat.ofDigitChars 10 s 0 = Nat.ofDigitChars 10 t 0) : s = t := by
  induction s generalizing t with
  | nil => exact (List.length_eq_zero_iff.mp hlen.symm).symm
  | cons c s ih =>
    cases t with
    | nil => cases hlen
    | cons d t =>
      rw [List.all_cons, Bool.and_eq_true] at hs ht
      have hlen' : s.length = t.length := Nat.succ.inj hlen
      have hslt := ofDigitChars_lt s hs.2
      have htlt := ofDigitChars_lt t ht.2
      have hc := digit_range c hs.1
      have hd := digit_range d ht.1
      rw [ofDigitChars_cons_ten, ofDigitChars_cons_ten, hlen'] at heq
      rw [hlen'] at hslt
      -- the first digit is the quotient, the others are the remainder
      have hdiv : ∀ a b, b < 10^t.length → (10^t.length * a + b) / 10^t.length = a :=
        fun a b hb => by
          rw [Nat.mul_add_div (by positivity), Nat.div_eq_of_lt hb, add_zero]
      have hfirst : c.toNat - 48 = d.toNat - 48 := by
        rw [← hdiv (c.toNat - 48) _ hslt, ← hdiv (d.toNat - 48) _ htlt, heq]
      have hchar : c = d := Char.toNat_inj.mp (by omega)
      have hrest := ih t hlen' hs.2 ht.2 (by rw [hfirst] at heq; omega)
      rw [hchar, hrest]

theorem digits_eq (text : Text) (h : text.all Char.isDigit = true) :
    digits text = Nat.ofDigitChars 10 text 0 := by
  rw [digits, List.takeWhile_eq_self_iff.mpr (List.all_eq_true.mp h)]
  rfl

theorem fourDigits_natCast (n : ℕ) : fourDigits n = (Nat.toDigits 10 n).leftpad 4 '0' := by
  have hn : ¬(n : ℤ) < 0 := by omega
  rw [fourDigits, decimalText, if_neg hn, List.nil_append, Int.natAbs_natCast]

theorem fourDigits_isDigit (n : ℕ) : (fourDigits n).all Char.isDigit = true := by
  rw [fourDigits_natCast, List.leftpad, List.all_append, Bool.and_eq_true]
  constructor
  · rw [List.all_eq_true]
    intro c hc
    rw [List.eq_of_mem_replicate hc]
    rfl
  · rw [List.all_eq_true]
    intro c hc
    exact Nat.isDigit_of_mem_toDigits (by decide) (by decide) hc

theorem digits_fourDigits (n : ℕ) : digits (fourDigits n) = n := by
  rw [digits_eq _ (fourDigits_isDigit n), fourDigits_natCast, List.leftpad,
    Nat.ofDigitChars_append, Nat.ofDigitChars_replicate_zero, mul_zero,
    Nat.ofDigitChars_ten_toDigits]

theorem fourDigits_length (n : ℕ) (hn : n < 10000) : (fourDigits n).length = 4 := by
  rw [fourDigits_natCast, List.length_leftpad]
  have := (Nat.length_toDigits_le_iff (n := n) (k := 4) (by decide : 1 < 10) (by decide)).mpr hn
  omega

/-- Four digits are what is written for their number. -/
theorem fourDigits_digits (text : Text) (hlen : text.length = 4)
    (h : text.all Char.isDigit = true) : digits text < 10000 ∧ fourDigits (digits text) = text := by
  have hlt : digits text < 10000 := by
    rw [digits_eq text h]
    exact (ofDigitChars_lt text h).trans_eq (by rw [hlen]; rfl)
  refine ⟨hlt,?_⟩
  apply ofDigitChars_inj _ _ ((fourDigits_length _ hlt).trans hlen.symm) (fourDigits_isDigit _) h
  rw [← digits_eq _ (fourDigits_isDigit _), ← digits_eq text h, digits_fourDigits]

/-! ## The largest index -/

theorem displayInfo_eq (search : Text) (m : ℕ) (p : Text) :
    displayInfo search m p = max m (displayInfo search 0 p) := by
  simp only [displayInfo]
  split_ifs
  · rw [Nat.zero_max]
  · exact (Nat.max_zero m).symm

/-- A path counts if its last component is the text searched and four digits. -/
theorem displayInfo_cases (search p : Text) :
    (displayInfo search 0 p = 0 ∨ lastComponent p = search ++ fourDigits (displayInfo search 0 p)) ∧
      displayInfo search 0 p < 10000 ∧
      ∀ k : ℕ, k < 10000 → lastComponent p = search ++ fourDigits k → displayInfo search 0 p = k := by
  simp only [displayInfo]
  split_ifs with h
  · obtain ⟨hpre, hlen, hdig⟩ := h
    obtain ⟨index, hindex⟩ := List.isPrefixOf_iff_prefix.mp hpre
    rw [← hindex, List.drop_left] at hlen hdig ⊢
    obtain ⟨hlt, hfour⟩ := fourDigits_digits index hlen hdig
    rw [Nat.zero_max]
    refine ⟨Or.inr (by rw [hfour]),hlt,fun k _ hk => ?_⟩
    rw [List.append_cancel_left hk, digits_fourDigits]
  · refine ⟨Or.inl rfl,by norm_num,fun k hk heq => absurd ?_ h⟩
    rw [heq, List.drop_left]
    exact ⟨List.isPrefixOf_iff_prefix.mpr (List.prefix_append _ _),fourDigits_length k hk,
      fourDigits_isDigit k⟩

theorem foldl_displayInfo (search : Text) (paths : List Text) (m : ℕ) (hm : m < 10000) :
    let n := paths.foldl (displayInfo search) m
    m ≤ n ∧ n < 10000 ∧
      (∀ p ∈ paths, ∀ k : ℕ, k < 10000 → lastComponent p = search ++ fourDigits k → k ≤ n) ∧
      (n = m ∨ ∃ p ∈ paths, lastComponent p = search ++ fourDigits n) := by
  induction paths generalizing m with
  | nil => exact ⟨le_rfl,hm,fun p hp => absurd hp List.not_mem_nil,Or.inl rfl⟩
  | cons p paths ih =>
    obtain ⟨hone, hlt, hcount⟩ := displayInfo_cases search p
    rw [List.foldl_cons, displayInfo_eq]
    obtain ⟨hle, hbound, hall, hfrom⟩ := ih (max m (displayInfo search 0 p)) (max_lt hm hlt)
    refine ⟨(le_max_left _ _).trans hle,hbound,?_,?_⟩
    · intro q hq k hk heq
      obtain rfl | hq := List.mem_cons.mp hq
      · rw [← hcount k hk heq]
        exact (le_max_right _ _).trans hle
      · exact hall q hq k hk heq
    · obtain hfrom | ⟨q, hq, heq⟩ := hfrom
      · rw [hfrom]
        obtain hmax | hmax := max_choice m (displayInfo search 0 p)
        · exact Or.inl hmax
        · rw [hmax]
          obtain hzero | hone := hone
          · exact Or.inl (by omega)
          · exact Or.inr ⟨p,List.mem_cons_self,hone⟩
      · exact Or.inr ⟨q,List.mem_cons_of_mem _ hq,heq⟩

/-- `global_max_index` is the largest index among the names, zero if there is
none. -/
theorem lastIndex_spec (search : Text) (paths : List Text) :
    let n := lastIndex search paths
    n < 10000 ∧
      (∀ p ∈ paths, ∀ k : ℕ, k < 10000 → lastComponent p = search ++ fourDigits k → k ≤ n) ∧
      (n = 0 ∨ ∃ p ∈ paths, lastComponent p = search ++ fourDigits n) :=
  (foldl_displayInfo search paths 0 (by norm_num)).2

/-! ## Paths -/

def components (path : Text) : List Text := Words.split (· = '/') path

def follow (dir : List Text) (c : Text) : List Text :=
  if c = ['.'] then dir else if c = ['.','.'] then dir.dropLast else dir ++ [c]

def resolve (path : Text) : List Text := (components path).foldl follow []

theorem resolve_append (path rest : Text) :
    resolve (path ++ '/'::rest) = (components rest).foldl follow (resolve path) := by
  rw [resolve, components, Words.split_append _ _ (by simp), List.foldl_append]
  rfl

theorem components_self {name : Text} (h : Component name) : components name = [name] := by
  apply Words.split_word h.1
  intro c hc
  apply decide_eq_false
  rintro rfl
  exact h.2.1 hc

theorem resolve_component (path : Text) {name : Text} (h : Component name) :
    resolve (path ++ '/'::name) = resolve path ++ [name] := by
  rw [resolve_append, components_self h, List.foldl_cons, List.foldl_nil, follow, if_neg h.2.2.1,
    if_neg h.2.2.2]

/-- What a path leads to has components for its names. -/
theorem resolve_names (path : Text) : ∀ c ∈ resolve path, Component c := by
  have hsteps : ∀ (cs : List Text) (dir : List Text), (∀ c ∈ cs, c ≠ [] ∧ '/' ∉ c) →
      (∀ c ∈ dir, Component c) → ∀ c ∈ cs.foldl follow dir, Component c := by
    intro cs
    induction cs with
    | nil => exact fun dir _ hdir => hdir
    | cons c cs ih =>
      intro dir hcs hdir
      obtain ⟨⟨hne, hslash⟩, hcs⟩ := List.forall_mem_cons.mp hcs
      apply ih (follow dir c) hcs
      unfold follow
      split_ifs with hdot hdots
      · exact hdir
      · exact fun d hd => hdir d (List.mem_of_mem_dropLast hd)
      · exact List.forall_mem_append.mpr
          ⟨hdir,List.forall_mem_singleton.mpr ⟨hne,hslash,hdot,hdots⟩⟩
  apply hsteps (components path) []
  · intro c hc
    obtain ⟨hne, hplain⟩ := Words.plain_of_mem_split hc
    exact ⟨hne,fun hslash => by simpa using hplain '/' hslash⟩
  · exact fun c hc => absurd hc List.not_mem_nil

/-! ## A tree of directories -/

def NAME_MAX : ℕ := 255

structure Tree (home : Text) where
  dirs : List (List Text)
  home_mem : resolve home ∈ dirs
  parents : ∀ d c, d ++ [c] ∈ dirs → d ∈ dirs
  names : ∀ d c, d ++ [c] ∈ dirs → Component c ∧ c.length ≤ NAME_MAX

variable {home : Text}

def Tree.CanMake (t : Tree home) (path : Text) : Prop :=
  resolve path ∉ t.dirs ∧ (resolve path).dropLast ∈ t.dirs ∧
    ((resolve path).getLastD []).length ≤ NAME_MAX

instance (t : Tree home) (path : Text) : Decidable (t.CanMake path) :=
  inferInstanceAs (Decidable (_ ∧ _ ∧ _))

def Tree.mkdir (t : Tree home) (path : Text) : ℤ := if t.CanMake path then 0 else -1

def Tree.walk (t : Tree home) (folder : Text) : List Text :=
  let top := folder.rdropWhile (· = '/')
  let below := t.dirs.filter fun d =>
    (resolve folder).isPrefixOf d ∧ (resolve folder).length < d.length
  top :: below.map fun d => top ++ (d.drop (resolve folder).length).flatMap ('/' :: ·)

/-- The answers of the system. The folder that is walked has just been made, if
it is not in the tree. -/
def Tree.disk (t : Tree home) : Disk where
  isDir path := resolve path ∈ t.dirs
  stat path := resolve path ∈ t.dirs
  mkdir path := t.mkdir path
  system _ := 0
  walk folder := t.walk folder

theorem Tree.CanMake.parents {t : Tree home} {path : Text} (h : t.CanMake path) :
    ∀ d c, d ++ [c] ∈ resolve path :: t.dirs → d ∈ resolve path :: t.dirs := by
  intro d c hmem
  obtain heq | hmem := List.mem_cons.mp hmem
  · have hparent := h.2.1
    rw [← heq, List.dropLast_concat] at hparent
    exact List.mem_cons_of_mem _ hparent
  · exact List.mem_cons_of_mem _ (t.parents d c hmem)

theorem Tree.CanMake.names {t : Tree home} {path : Text} (h : t.CanMake path) :
    ∀ d c, d ++ [c] ∈ resolve path :: t.dirs → Component c ∧ c.length ≤ NAME_MAX := by
  intro d c hmem
  obtain heq | hmem := List.mem_cons.mp hmem
  · have hshort := h.2.2
    rw [← heq, List.getLastD_concat] at hshort
    exact ⟨resolve_names path c (heq ▸ List.mem_append_right _ (List.mem_singleton_self c)),hshort⟩
  · exact t.names d c hmem

def Tree.make (t : Tree home) (path : Text) : Tree home :=
  if h : t.CanMake path then
    ⟨resolve path :: t.dirs,List.mem_cons_of_mem _ t.home_mem,h.parents,h.names⟩
  else t

def made : Call → Option Text
  | .mkdir path => some path
  | .removeQuoted _ => none

def Tree.after (t : Tree home) (r : Outcome) : Tree home :=
  (r.calls.filterMap made).foldl Tree.make t

/-! ## What is asked -/

/-- A directory of that name is in the tree of a folder. The folder counts itself,
under the name it is called by. -/
def Named (t : Tree home) (folder x : Text) : Prop :=
  x = lastComponent (folder.rdropWhile (· = '/')) ∨ ∃ d, d ++ [x] ∈ t.dirs ∧ resolve folder <+: d

def dumpFolder (home line : Text) : Text := folderOf home (nameParam line)

def search (line : Text) : Text :=
  searchName (dumpName (nameParam line)) (cleanText (commentParam line))

def indexed (home line : Text) (k : ℕ) : Text :=
  dumpFolder home line ++ '/' :: (search line ++ fourDigits k)

def InUse (line : Text) (t : Tree home) (k : ℕ) : Prop :=
  Named t (dumpFolder home line) (search line ++ fourDigits k)

def IsLast (line : Text) (t : Tree home) (n : ℕ) : Prop :=
  n < 10000 ∧ (∀ k < 10000, InUse line t k → k ≤ n) ∧ (n = 0 ∨ InUse line t n)

def prepare (line : Text) (start : ℤ) (t : Tree home) : Option Outcome :=
  prepareFolder home t.disk (nameParam line) (commentParam line) start .auto

def Numbered (line : Text) (start : ℤ) (t : Tree home) : Prop :=
  ∃ r, prepare line start t = some r ∧ (0 ≤ r.ret ↔ ¬InUse line t 9999) ∧
    (0 ≤ r.ret → ∃ n k : ℕ, IsLast line t n ∧ (k : ℤ) = max start (n+1) ∧
      r.folderPath = some (indexed home line k) ∧
      resolve (indexed home line k) ∉ t.dirs ∧ resolve (indexed home line k) ∈ (t.after r).dirs)

def Room (line : Text) (t : Tree home) : Prop :=
  (dumpFolder home line).length < 1024 ∧ (search line).length < 512 ∧
    (InUse line t 9999 ∨
      ((indexed home line 0).length < 512 ∧ (search line).length + 4 ≤ NAME_MAX))

/-! ## The names in a tree -/

theorem lastComponent_append (path : Text) {name : Text} (h : '/' ∉ name) :
    lastComponent (path ++ '/'::name) = name := by
  induction name using List.reverseRecOn with
  | nil => exact List.rtakeWhile_concat_neg _ _ _ (by decide)
  | append_singleton name c ih =>
    rw [List.mem_append, List.mem_singleton, not_or] at h
    have hc : decide (c ≠ '/') = true := decide_eq_true (Ne.symm h.2)
    have hassoc : path ++ '/'::(name ++ [c]) = (path ++ '/'::name) ++ [c] := by simp
    rw [lastComponent, hassoc, List.rtakeWhile_concat, if_pos hc, ← lastComponent, ih h.1]

variable {t : Tree home}

theorem Tree.prefix_mem {d e : List Text} (h : e ∈ t.dirs) (hd : d <+: e) : d ∈ t.dirs := by
  obtain ⟨rest, rfl⟩ := hd
  induction rest using List.reverseRecOn with
  | nil => rwa [List.append_nil] at h
  | append_singleton rest c ih =>
    rw [← List.append_assoc] at h
    exact ih (t.parents _ _ h)

/-- The last components of what `ftw` reports are the names in the tree. -/
theorem mem_walk_iff (t : Tree home) (folder x : Text) :
    (∃ p ∈ t.walk folder, lastComponent p = x) ↔ Named t folder x := by
  have hreported : ∀ e c, e ++ [c] ∈ t.dirs → resolve folder <+: e →
      lastComponent (folder.rdropWhile (· = '/') ++
        ((e ++ [c]).drop (resolve folder).length).flatMap ('/' :: ·)) = c := by
    intro e c hmem hpre
    rw [List.drop_append_of_le_length hpre.length_le, List.flatMap_append, ← List.append_assoc,
      List.flatMap_singleton]
    exact lastComponent_append _ (t.names e c hmem).1.2.1
  simp only [Tree.walk, List.mem_cons, List.mem_map, List.mem_filter]
  constructor
  · rintro ⟨p, rfl | ⟨d, ⟨hd, hbelow⟩, rfl⟩, rfl⟩
    · exact Or.inl rfl
    · obtain ⟨hpre, hlt⟩ := of_decide_eq_true hbelow
      obtain ⟨rest, rfl⟩ := List.isPrefixOf_iff_prefix.mp hpre
      obtain rfl | ⟨rest, c, rfl⟩ := List.eq_nil_or_concat' rest
      · simp at hlt
      · rw [← List.append_assoc] at hd ⊢
        rw [hreported _ c hd (List.prefix_append _ _)]
        exact Or.inr ⟨_,hd,List.prefix_append _ _⟩
  · rintro (rfl | ⟨d, hd, hpre⟩)
    · exact ⟨_,Or.inl rfl,rfl⟩
    · refine ⟨_,Or.inr ⟨d ++ [x],⟨hd,?_⟩,rfl⟩,hreported d x hd hpre⟩
      have hlen := hpre.length_le
      apply decide_eq_true
      refine ⟨List.isPrefixOf_iff_prefix.mpr (hpre.trans (List.prefix_append _ _)),?_⟩
      rw [List.length_append, List.length_singleton]
      omega

theorem isLast_lastIndex (line : Text) (t : Tree home) :
    IsLast line t (lastIndex (search line) (t.walk (dumpFolder home line))) := by
  obtain ⟨hlt, hall, hfrom⟩ := lastIndex_spec (search line) (t.walk (dumpFolder home line))
  refine ⟨hlt,fun k hk huse => ?_,hfrom.imp_right fun h => (mem_walk_iff ..).mp h⟩
  obtain ⟨p, hp, heq⟩ := (mem_walk_iff ..).mpr huse
  exact hall p hp k hk heq

theorem IsLast.unique {line : Text} {m n : ℕ} (hm : IsLast line t m) (hn : IsLast line t n) :
    m = n := by
  have hle : ∀ {m n}, IsLast line t m → IsLast line t n → m ≤ n := by
    intro m n hm hn
    obtain rfl | huse := hm.2.2
    · exact Nat.zero_le n
    · exact hn.2.1 m hm.1 huse
  exact le_antisymm (hle hm hn) (hle hn hm)

/-! ## The folder of an index -/

theorem entry_index (line : Text) (k : ℕ) :
    dumpFolder home line ++ entry (dumpName (nameParam line)) (cleanText (commentParam line))
      ('-' :: fourDigits k) = indexed home line k := by
  simp [indexed, entry, search, searchName]

theorem search_component (line : Text) (k : ℕ) : Component (search line ++ fourDigits k) := by
  have hdash : '-' ∈ search line ++ fourDigits k := by simp [search, searchName]
  refine ⟨List.ne_nil_of_mem hdash,fun hslash => ?_,fun h => ?_,fun h => ?_⟩
  · have hdig : ∀ c ∈ fourDigits k, c ≠ '/' := by
      rintro c hc rfl
      have := List.all_eq_true.mp (fourDigits_isDigit k) _ hc
      exact absurd this (by decide)
    simp only [search, searchName, List.mem_append, mem_commentPart '/' (by decide),
      List.mem_singleton] at hslash
    obtain (hslash | hslash | hslash) | hslash := hslash
    · exact valid_ne _ _ (dumpName_valid _ _ hslash) (by decide) rfl
    · exact slash_cleanText _ hslash
    · exact absurd hslash (by decide)
    · exact hdig _ hslash rfl
  · rw [h] at hdash
    exact absurd hdash (by decide)
  · rw [h] at hdash
    exact absurd hdash (by decide)

theorem resolve_indexed (line : Text) (k : ℕ) :
    resolve (indexed home line k) =
      resolve (dumpFolder home line) ++ [search line ++ fourDigits k] :=
  resolve_component _ (search_component line k)

theorem inUse_of_dir (line : Text) (k : ℕ) (h : resolve (indexed home line k) ∈ t.dirs) :
    InUse line t k := by
  rw [resolve_indexed] at h
  exact Or.inr ⟨_,h,List.prefix_refl _⟩

theorem indexed_length (line : Text) (k : ℕ) (hk : k < 10000) :
    (indexed home line k).length = (indexed home line 0).length := by
  have hzero := fourDigits_length 0 (by norm_num)
  have hk := fourDigits_length k hk
  simp only [indexed, List.length_append, List.length_cons, hk]
  exact congrArg (fun n => _ + (_ + n + 1)) hzero.symm

/-- The folder of a name that is none is the home folder or the one above. -/
theorem folder_component (line : Text) (h : resolve (dumpFolder home line) ∉ t.dirs) :
    Component (dumpName (nameParam line)) := by
  have hslash : '/' ∉ dumpName (nameParam line) := fun hmem =>
    valid_ne _ _ (dumpName_valid _ _ hmem) (by decide) rfl
  refine ⟨fun hnil => h ?_,hslash,fun hdot => h ?_,fun hdots => h ?_⟩
  · have hhome : resolve (dumpFolder home line) = resolve home := by
      rw [dumpFolder, folderOf, hnil, resolve_append]
      rfl
    exact hhome ▸ t.home_mem
  · have hhome : resolve (dumpFolder home line) = resolve home := by
      rw [dumpFolder, folderOf, hdot, resolve_append]
      rfl
    exact hhome ▸ t.home_mem
  · have hup : resolve (dumpFolder home line) = (resolve home).dropLast := by
      rw [dumpFolder, folderOf, hdots, resolve_append]
      rfl
    rw [hup]
    exact t.prefix_mem t.home_mem (List.dropLast_prefix _)

theorem resolve_folder (line : Text) (h : Component (dumpName (nameParam line))) :
    resolve (dumpFolder home line) = resolve home ++ [dumpName (nameParam line)] :=
  resolve_component home h

theorem not_inUse_of_missing (line : Text) (k : ℕ)
    (h : resolve (dumpFolder home line) ∉ t.dirs) : ¬InUse line t k := by
  have hname := folder_component line h
  rintro (hself | ⟨d, hd, hpre⟩)
  · obtain hnil | ⟨front, c, hc⟩ := List.eq_nil_or_concat' (dumpName (nameParam line))
    · exact hname.1 hnil
    have hlast : c ≠ '/' := fun heq =>
      hname.2.1 (by rw [hc, heq]; exact List.mem_append_right _ (List.mem_singleton_self _))
    have htop : (dumpFolder home line).rdropWhile (· = '/') = dumpFolder home line := by
      have hassoc : dumpFolder home line = (home ++ '/'::front) ++ [c] := by
        rw [dumpFolder, folderOf, hc]
        simp
      rw [hassoc]
      exact List.rdropWhile_concat_neg _ _ _ (by simpa using hlast)
    rw [htop, dumpFolder, folderOf, lastComponent_append home hname.2.1] at hself
    have hlen := congrArg List.length hself
    simp only [search, searchName, List.length_append, List.length_singleton] at hlen
    omega
  · exact h (t.prefix_mem hd (hpre.trans (List.prefix_append _ _)))

/-! ## A dump -/

/-- The two directories that a dump may make, as `mkdir` sees them. -/
theorem canMake_indexed (line : Text) (k : ℕ) (hk : k < 10000)
    (hfolder : resolve (dumpFolder home line) ∈ t.dirs)
    (hnew : resolve (indexed home line k) ∉ t.dirs) :
    t.CanMake (indexed home line k) ↔ (search line).length + 4 ≤ NAME_MAX := by
  unfold Tree.CanMake
  rw [resolve_indexed] at hnew ⊢
  simp only [List.dropLast_concat, List.getLastD_concat, List.length_append, fourDigits_length k hk]
  exact ⟨fun h => h.2.2,fun h => ⟨hnew,hfolder,h⟩⟩

theorem canMake_folder (line : Text) (h : resolve (dumpFolder home line) ∉ t.dirs) :
    t.CanMake (dumpFolder home line) ↔ (dumpName (nameParam line)).length ≤ NAME_MAX := by
  have hname := folder_component line h
  unfold Tree.CanMake
  rw [resolve_folder line hname] at h ⊢
  simp only [List.dropLast_concat, List.getLastD_concat]
  exact ⟨fun hc => hc.2.2,fun hc => ⟨h,t.home_mem,hc⟩⟩

theorem make_mem {path : Text} (h : t.CanMake path) : resolve path ∈ (t.make path).dirs := by
  rw [Tree.make, dif_pos h]
  exact List.mem_cons_self

theorem make_subset (path : Text) : t.dirs ⊆ (t.make path).dirs := by
  unfold Tree.make
  split_ifs
  · exact List.subset_cons_self _ _
  · exact List.Subset.refl _

theorem prepare_eq (line : Text) (start : ℤ) (t : Tree home) :
    prepare line start t = autoIndex home t.disk (dumpName (nameParam line))
      (cleanText (commentParam line)) start := by
  simp only [prepare, prepareFolder, store_fits 512 _ (nameParam_length line),
    Option.bind_eq_bind, Option.bind_some]

theorem next_new {line : Text} {start : ℤ} {n k : ℕ} (hn : IsLast line t n) (hk : k < 10000)
    (hnext : (k : ℤ) = max start (n+1)) : resolve (indexed home line k) ∉ t.dirs := by
  intro h
  have := hn.2.1 k hk (inUse_of_dir line k h)
  omega

variable {line : Text} {start : ℤ}

structure Stored (home line : Text) : Prop where
  folder_fits : store 1024 (home ++ '/' :: dumpName (nameParam line)) = some (dumpFolder home line)
  search_fits : store 512 (searchName (dumpName (nameParam line)) (cleanText (commentParam line))) =
    some (search line)

theorem Stored.of_length (hfolder : (dumpFolder home line).length < 1024)
    (hsearch : (search line).length < 512) : Stored home line :=
  ⟨store_fits _ _ hfolder,store_fits _ _ hsearch⟩

theorem store_entry {k : ℕ} (hk : k < 10000) (hpath : (indexed home line 0).length < 512) :
    let text := entry (dumpName (nameParam line)) (cleanText (commentParam line))
      ('-' :: fourDigits k)
    store 512 text = some text ∧ store 1024 (dumpFolder home line ++ text) =
      some (indexed home line k) ∧ store 512 (indexed home line k) = some (indexed home line k) := by
  intro text
  have heq : dumpFolder home line ++ text = indexed home line k := entry_index line k
  have hlen : (indexed home line k).length < 512 := (indexed_length line k hk).trans_lt hpath
  have htext := congrArg List.length heq
  rw [List.length_append] at htext
  refine ⟨store_fits _ _ (by omega),?_,store_fits _ _ hlen⟩
  rw [heq]
  exact store_fits _ _ (by omega)

/-- The folder is there and its last index is the last there can be. -/
theorem prepare_full (h : Stored home line) (hfolder : resolve (dumpFolder home line) ∈ t.dirs)
    (hlast : IsLast line t 9999) : prepare line start t = some ⟨[],-1,none⟩ := by
  have hdir : t.disk.isDir (dumpFolder home line) = true := decide_eq_true hfolder
  have hindex : lastIndex (search line) (t.disk.walk (dumpFolder home line)) = 9999 :=
    (isLast_lastIndex line t).unique hlast
  simp only [prepare_eq, autoIndex, h.folder_fits, h.search_fits, Option.bind_eq_bind, Option.bind_some, hdir,
    Bool.true_eq_false, false_and, if_false, if_true, hindex]
  rfl

theorem prepare_new (h : Stored home line) (hfolder : resolve (dumpFolder home line) ∈ t.dirs)
    {n k : ℕ} (hlast : IsLast line t n) (hn : n ≠ 9999) (hk : k < 10000)
    (hnext : (k : ℤ) = max start (n+1)) (hpath : (indexed home line 0).length < 512) :
    prepare line start t =
      some ⟨[.mkdir (indexed home line k)],0,some (indexed home line k)⟩ := by
  have hdir : t.disk.isDir (dumpFolder home line) = true := decide_eq_true hfolder
  have hindex : lastIndex (search line) (t.disk.walk (dumpFolder home line)) = n :=
    (isLast_lastIndex line t).unique hlast
  have hkth : nextIndex start n = k := by rw [hnext, nextIndex, max_comm]
  have hnew : t.disk.isDir (indexed home line k) = false :=
    decide_eq_false (next_new hlast hk hnext)
  obtain ⟨hentry, hindexed, hout⟩ := store_entry hk hpath
  simp only [prepare_eq, autoIndex, h.folder_fits, h.search_fits, Option.bind_eq_bind, Option.bind_some, hdir,
    Bool.true_eq_false, false_and, if_false, if_true, hindex, hn, hkth, hentry, hindexed, hnew, hout,
    Bool.false_eq_true]
  rfl

theorem prepare_fresh (h : Stored home line) (hfolder : resolve (dumpFolder home line) ∉ t.dirs)
    (hname : (dumpName (nameParam line)).length ≤ NAME_MAX) {k : ℕ} (hk : k < 10000)
    (hnext : (k : ℤ) = max start 1) (hpath : (indexed home line 0).length < 512) :
    prepare line start t =
      some ⟨[.mkdir (dumpFolder home line),.mkdir (indexed home line k)],0,
        some (indexed home line k)⟩ := by
  have hdir : t.disk.isDir (dumpFolder home line) = false := decide_eq_false hfolder
  have hmade : t.disk.mkdir (dumpFolder home line) = 0 :=
    if_pos ((canMake_folder line hfolder).mpr hname)
  have hlast : IsLast line t 0 :=
    ⟨by norm_num,fun k _ huse => absurd huse (not_inUse_of_missing line k hfolder),Or.inl rfl⟩
  have hindex : lastIndex (search line) (t.disk.walk (dumpFolder home line)) = 0 :=
    (isLast_lastIndex line t).unique hlast
  have hkth : nextIndex start 0 = k := by rw [hnext, nextIndex, max_comm]; rfl
  have hnew : t.disk.isDir (indexed home line k) = false :=
    decide_eq_false (next_new hlast hk (by simpa using hnext))
  obtain ⟨hentry, hindexed, hout⟩ := store_entry hk hpath
  have hzero : ¬(0 : ℕ) = 9999 := by norm_num
  simp only [prepare_eq, autoIndex, h.folder_fits, h.search_fits, Option.bind_eq_bind, Option.bind_some, hdir,
    hmade, lt_irrefl, and_false, if_false, hindex, hzero, hkth, hentry, hindexed, hnew, hout,
    Bool.false_eq_true]
  rfl

/-! ## When a dump is numbered -/

/-- The index to be used next is one of four digits. -/
theorem next_exists {n : ℕ} (hstart : start ≤ 9999) (hlast : IsLast line t n) (hn : n ≠ 9999) :
    ∃ k : ℕ, k < 10000 ∧ (k : ℤ) = max start (n+1) := by
  have hlt := hlast.1
  exact ⟨(max start (n+1)).toNat,by omega,by omega⟩

theorem isLast_ne {n : ℕ} (hlast : IsLast line t n) (hfree : ¬InUse line t 9999) : n ≠ 9999 := by
  rintro rfl
  obtain hzero | huse := hlast.2.2
  · exact absurd hzero (by norm_num)
  · exact hfree huse

theorem isLast_full (huse : InUse line t 9999) : IsLast line t 9999 :=
  ⟨by norm_num,fun k hk _ => by omega,Or.inr huse⟩

theorem numbered_of_room (hstart : start ≤ 9999) (h : Room line t) : Numbered line start t := by
  obtain ⟨hfolder, hsearch, hroom⟩ := h
  have hstored := Stored.of_length hfolder hsearch
  by_cases huse : InUse line t 9999
  · have hdir : resolve (dumpFolder home line) ∈ t.dirs :=
      not_not.mp fun hno => not_inUse_of_missing line 9999 hno huse
    refine ⟨_,prepare_full hstored hdir (isLast_full huse),?_,fun h => absurd h (by norm_num)⟩
    exact ⟨fun h => absurd h (by norm_num),fun h => absurd huse h⟩
  obtain ⟨hpath, hshort⟩ := hroom.resolve_left huse
  by_cases hdir : resolve (dumpFolder home line) ∈ t.dirs
  · have hlast := isLast_lastIndex line t
    have hn := isLast_ne hlast huse
    obtain ⟨k, hk, hnext⟩ := next_exists hstart hlast hn
    have hnew := next_new hlast hk hnext
    refine ⟨_,prepare_new hstored hdir hlast hn hk hnext hpath,?_,
      fun _ => ⟨_,k,hlast,hnext,rfl,hnew,?_⟩⟩
    · exact ⟨fun _ => huse,fun _ => le_rfl⟩
    · exact make_mem ((canMake_indexed line k hk hdir hnew).mpr hshort)
  · have hlast : IsLast line t 0 :=
      ⟨by norm_num,fun k _ huse => absurd huse (not_inUse_of_missing line k hdir),Or.inl rfl⟩
    obtain ⟨k, hk, hnext⟩ := next_exists hstart hlast (by norm_num)
    have hnew := next_new hlast hk hnext
    have hname : (dumpName (nameParam line)).length ≤ NAME_MAX := by
      simp only [search, searchName, List.length_append, List.length_singleton] at hshort
      omega
    have hfirst := make_mem ((canMake_folder line hdir).mpr hname)
    refine ⟨_,prepare_fresh hstored hdir hname hk (by simpa using hnext) hpath,?_,
      fun _ => ⟨0,k,hlast,hnext,rfl,hnew,?_⟩⟩
    · exact ⟨fun _ => huse,fun _ => le_rfl⟩
    · -- the folder of the index is made in the one just made
      have hstill : resolve (indexed home line k) ∉ (t.make (dumpFolder home line)).dirs := by
        rw [Tree.make, dif_pos ((canMake_folder line hdir).mpr hname)]
        refine fun hmem => (List.mem_cons.mp hmem).elim (fun heq => ?_) hnew
        rw [resolve_indexed] at heq
        simp at heq
      exact make_mem ((canMake_indexed line k hk hfirst hstill).mpr hshort)

theorem search_short {u : Tree home} {k : ℕ} (hk : k < 10000)
    (h : resolve (indexed home line k) ∈ u.dirs) : (search line).length + 4 ≤ NAME_MAX := by
  rw [resolve_indexed] at h
  have hshort := (u.names _ _ h).2
  rwa [List.length_append, fourDigits_length k hk] at hshort

/-- A run that gets as far as the path has room for it. -/
theorem path_fits {r : Outcome} {n k : ℕ} (hr : prepare line start t = some r)
    (hopen : resolve (dumpFolder home line) ∈ t.dirs ∨ t.CanMake (dumpFolder home line))
    (hlast : IsLast line t n) (hn : n ≠ 9999) (hk : k < 10000) (hnext : (k : ℤ) = max start (n+1)) :
    (search line).length < 512 ∧ (indexed home line 0).length < 512 := by
  obtain ⟨⟨-, -, hfits⟩, -⟩ := prepareFolder_some _ _ _ _ _ _ _ hr
  have hopen' : t.disk.isDir (folderOf home (nameParam line)) = true ∨
      0 ≤ t.disk.mkdir (folderOf home (nameParam line)) :=
    hopen.imp (fun h => decide_eq_true h) (fun h => (if_pos h : t.mkdir _ = 0).ge)
  obtain ⟨hsearch, hrest⟩ := hfits hopen'
  have hindex : lastIndex (search line) (t.disk.walk (dumpFolder home line)) = n :=
    (isLast_lastIndex line t).unique hlast
  have hkth : nextIndex start n = k := by rw [hnext, nextIndex, max_comm]
  have hplace : folderOf home (nameParam line) ++ entry (dumpName (nameParam line))
      (cleanText (commentParam line)) ('-' :: fourDigits (nextIndex start (lastIndex
        (searchName (dumpName (nameParam line)) (cleanText (commentParam line)))
        (t.disk.walk (folderOf home (nameParam line)))))) = indexed home line k := by
    rw [← entry_index, ← hkth, ← hindex]
    rfl
  obtain ⟨-, -, hpath⟩ := hrest (hindex.trans_ne hn)
  rw [hplace] at hpath
  have hlen := hpath (decide_eq_false (next_new hlast hk hnext))
  exact ⟨hsearch,(indexed_length line k hk).symm.trans_lt hlen⟩

theorem room_of_numbered (hstart : start ≤ 9999) (h : Numbered line start t) : Room line t := by
  obtain ⟨r, hr, hiff, hnew⟩ := h
  obtain ⟨⟨-, hfolder, hfits⟩, -⟩ := prepareFolder_some _ _ _ _ _ _ _ hr
  by_cases huse : InUse line t 9999
  · have hdir : resolve (dumpFolder home line) ∈ t.dirs :=
      not_not.mp fun hno => not_inUse_of_missing line 9999 hno huse
    exact ⟨hfolder,(hfits (Or.inl (decide_eq_true hdir))).1,Or.inl huse⟩
  obtain ⟨n, k, hlast, hnext, -, -, hmade⟩ := hnew (hiff.mpr huse)
  have hn := isLast_ne hlast huse
  have hk : k < 10000 := by
    have := hlast.1
    omega
  have hshort := search_short hk hmade
  have hopen : resolve (dumpFolder home line) ∈ t.dirs ∨ t.CanMake (dumpFolder home line) := by
    by_cases hdir : resolve (dumpFolder home line) ∈ t.dirs
    · exact Or.inl hdir
    · refine Or.inr ((canMake_folder line hdir).mpr ?_)
      simp only [search, searchName, List.length_append, List.length_singleton] at hshort
      omega
  obtain ⟨hsearch, hpath⟩ := path_fits hr hopen hlast hn hk hnext
  exact ⟨hfolder,hsearch,Or.inr ⟨hpath,hshort⟩⟩

theorem numbered_iff_room (hstart : start ≤ 9999) : Numbered line start t ↔ Room line t :=
  ⟨room_of_numbered hstart,numbered_of_room hstart⟩

/-! ## Dumps of one name -/

/-- The indices of the dumps of one name and comment that succeed, one after the
other, from a tree on. Between them others may make directories. -/
inductive Dumps (line : Text) : Tree home → List ℕ → Prop where
  | none (t : Tree home) : Dumps line t []
  | others (t u : Tree home) (ks : List ℕ) : t.dirs ⊆ u.dirs → Dumps line u ks → Dumps line t ks
  | failed (t : Tree home) (start : ℤ) (r : Outcome) (ks : List ℕ) : start ≤ 9999 →
    Room line t → prepare line start t = some r → r.ret < 0 → Dumps line (t.after r) ks →
    Dumps line t ks
  | dump (t : Tree home) (start : ℤ) (r : Outcome) (k : ℕ) (ks : List ℕ) : start ≤ 9999 →
    Room line t → prepare line start t = some r → 0 ≤ r.ret →
    r.folderPath = some (indexed home line k) → Dumps line (t.after r) ks →
    Dumps line t (k::ks)

theorem after_subset (t : Tree home) (r : Outcome) : t.dirs ⊆ (t.after r).dirs := by
  unfold Tree.after
  generalize r.calls.filterMap made = paths
  induction paths generalizing t with
  | nil => exact List.Subset.refl _
  | cons path paths ih => exact List.Subset.trans (make_subset path) (ih (t.make path))

theorem InUse.mono {u : Tree home} {k : ℕ} (h : InUse line t k) (hsub : t.dirs ⊆ u.dirs) :
    InUse line u k :=
  h.imp_right fun ⟨d, hd, hpre⟩ => ⟨d,hsub hd,hpre⟩

theorem indexed_inj {j k : ℕ} (h : indexed home line j = indexed home line k) : j = k := by
  have hdigits := List.append_cancel_left (List.cons.inj (List.append_cancel_left h)).2
  rw [← digits_fourDigits j, hdigits, digits_fourDigits]

/-- Every dump has a larger index than those in use, and than the dumps before. -/
theorem dumps_new {ks : List ℕ} (h : Dumps line t ks) :
    ks.Pairwise (· < ·) ∧ ∀ k ∈ ks, k < 10000 ∧ ∀ m < 10000, InUse line t m → m < k := by
  induction h with
  | none t => exact ⟨List.Pairwise.nil,fun k hk => absurd hk List.not_mem_nil⟩
  | others t u ks hsub _ ih =>
    exact ⟨ih.1,fun k hk => ⟨(ih.2 k hk).1,fun m hm huse => (ih.2 k hk).2 m hm (huse.mono hsub)⟩⟩
  | failed t start r ks _ _ _ _ _ ih =>
    exact ⟨ih.1,fun k hk => ⟨(ih.2 k hk).1,fun m hm huse =>
      (ih.2 k hk).2 m hm (huse.mono (after_subset t r))⟩⟩
  | dump t start r k ks hstart hroom hr hret hpath _ ih =>
    obtain ⟨r', hr', hiff, hnew⟩ := numbered_of_room hstart hroom
    obtain rfl : r = r' := Option.some.inj (hr.symm.trans hr')
    obtain ⟨n, j, hlast, hnext, hj, -, hmade⟩ := hnew hret
    obtain rfl : k = j := indexed_inj (Option.some.inj (hpath.symm.trans hj))
    have hn := isLast_ne hlast (hiff.mp hret)
    have hk : k < 10000 := by
      have := hlast.1
      omega
    have huse : InUse line (t.after r) k := inUse_of_dir line k hmade
    refine ⟨List.pairwise_cons.mpr ⟨fun m hm => (ih.2 m hm).2 k hk huse,ih.1⟩,fun m hm => ?_⟩
    obtain rfl | hm := List.mem_cons.mp hm
    · refine ⟨hk,fun i hi hin => ?_⟩
      have := hlast.2.1 i hi hin
      omega
    · exact ⟨(ih.2 m hm).1,fun i hi hin => (ih.2 m hm).2 i hi (hin.mono (after_subset t r))⟩

/-- A dump is numbered exactly if there is room for it, and successive dumps for
which there is room get increasing indices that no folder had before. -/
theorem dumps_numbered_iff (line : Text) (t : Tree home) :
    (∀ start ≤ 9999, Numbered line start t ↔ Room line t) ∧
      ∀ ks, Dumps line t ks → ks.Pairwise (· < ·) ∧ ∀ k ∈ ks, ¬InUse line t k := by
  refine ⟨fun start hstart => numbered_iff_room hstart,fun ks h => ?_⟩
  obtain ⟨hsorted, hnew⟩ := dumps_new h
  refine ⟨hsorted,fun k hk huse => ?_⟩
  obtain ⟨hlt, habove⟩ := hnew k hk
  exact absurd (habove k hlt huse) (lt_irrefl k)

def captures : List Text := ["home".toList,"pauline".toList,"Disks_Captures".toList]

def homeDirs : List (List Text) :=
  [[],["home".toList],["home".toList,"pauline".toList],captures,captures ++ ["disk".toList],
    captures ++ ["disk".toList,"disk-side_a-0007".toList]]

theorem homeDirs_parents (d : List Text) (c : Text) (h : d ++ [c] ∈ homeDirs) : d ∈ homeDirs := by
  have hall : ∀ e ∈ homeDirs, e.dropLast ∈ homeDirs := by decide +kernel
  simpa using hall _ h

theorem homeDirs_names (d : List Text) (c : Text) (h : d ++ [c] ∈ homeDirs) :
    Component c ∧ c.length ≤ NAME_MAX := by
  have hall : ∀ e ∈ homeDirs, ∀ c ∈ e, Component c ∧ c.length ≤ NAME_MAX := by decide +kernel
  exact hall _ h c (List.mem_append_right _ (List.mem_singleton_self c))

theorem homeDirs_home : resolve capturesFolder ∈ homeDirs := by decide +kernel

def homeTree : Tree capturesFolder := ⟨homeDirs,homeDirs_home,homeDirs_parents,homeDirs_names⟩

def diskLine : Text := "dump 0 0 1 0 0 0 0 0 0 disk side_a 0 AUTO_INDEX_NAME".toList

def dumpOf (k : ℕ) : Outcome :=
  ⟨[.mkdir (indexed capturesFolder diskLine k)],0,some (indexed capturesFolder diskLine k)⟩

theorem diskLine_room (t : Tree capturesFolder) : Room diskLine t :=
  ⟨by decide +kernel,by decide +kernel,Or.inr ⟨by decide +kernel,by decide +kernel⟩⟩

theorem diskLine_dumps : Dumps diskLine homeTree [8,9] := by
  have hfirst : prepare diskLine 0 homeTree = some (dumpOf 8) := by decide +kernel
  have hsecond : prepare diskLine 0 (homeTree.after (dumpOf 8)) = some (dumpOf 9) := by
    decide +kernel
  refine .dump _ 0 _ 8 _ (by norm_num) (diskLine_room _) hfirst le_rfl rfl ?_
  exact .dump _ 0 _ 9 _ (by norm_num) (diskLine_room _) hsecond le_rfl rfl (.none _)

theorem dumps_numbered_second : InUse diskLine homeTree 7 ∧ Dumps diskLine homeTree [8,9] ∧
    ∀ k ∈ [8,9], ¬InUse diskLine homeTree k := by
  have hdir : resolve (indexed capturesFolder diskLine 7) ∈ homeTree.dirs := by decide +kernel
  exact ⟨inUse_of_dir diskLine 7 hdir,diskLine_dumps,
    ((dumps_numbered_iff diskLine homeTree).2 [8,9] diskLine_dumps).2⟩

def longLine : Text :=
  "dump 0 0 1 0 0 0 0 0 0 ".toList ++ List.replicate 100 'n' ++ ' ' :: List.replicate 150 'c' ++
    " 0 AUTO_INDEX_NAME".toList

/-- Success is reported, and no folder is made. -/
theorem long_name_not_numbered : ¬Numbered longLine 0 homeTree := by
  intro h
  have hmissing : resolve (dumpFolder capturesFolder longLine) ∉ homeTree.dirs := by
    decide +kernel
  have hlong : ¬(search longLine).length + 4 ≤ NAME_MAX := by decide +kernel
  obtain ⟨-, -, huse | ⟨-, hshort⟩⟩ := room_of_numbered (by norm_num) h
  · exact not_inUse_of_missing longLine 9999 hmissing huse
  · exact hlong hshort

end Pauline.AutoNumbering
