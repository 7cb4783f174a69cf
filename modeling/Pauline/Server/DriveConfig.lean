import Pauline.Library.BitField
import Pauline.Server.DumpForm

/-!
# The configuration of a drive

Five commands of the script that set a field of a `drive_config` register, and
the functions they call.
-/

set_option autoImplicit false

namespace Pauline.DriveConfig
open Pauline.CommandLine Pauline.DumpForm

/-! ## The registers -/

abbrev Regs := BitVec 2 → BitVec 32

def unit (drive : BitVec 32) : BitVec 2 := (drive &&& 3#32).setWidth 2

def setNibble (lo : ℕ) (drive value : BitVec 32) (regs : Regs) : Regs := fun r =>
  if r = unit drive then (regs r &&& ~~~(0xF#32 <<< lo)) ||| ((value &&& 0xF#32) <<< lo) else regs r

def setSelectSrc (drive src : BitVec 32) (regs : Regs) : Regs := setNibble 16 drive src regs

def setMotorSrc (drive src : BitVec 32) (regs : Regs) : Regs := setNibble 20 drive src regs

def setPin02Mode (drive mode : BitVec 32) (regs : Regs) : Regs := setNibble 0 drive mode regs

def setPin34Mode (drive mode : BitVec 32) (regs : Regs) : Regs := setNibble 4 drive mode regs

def floppyCtrlWriteprotect (drive writeprotect : BitVec 32) (regs : Regs) : Regs := fun r =>
  if r = unit drive then
    let tmp := regs r &&& ~~~(0x1#32 <<< 13)
    if writeprotect ≠ 0 then tmp ||| 0x1#32 <<< 13 else tmp
  else regs r

/-! ## The commands -/

def int (text : Text) : BitVec 32 := BitVec.ofInt 32 (intOf text)

def setCommand (set : BitVec 32 → BitVec 32 → Regs → Regs) (line : Text) (regs : Regs) : Regs :=
  match getParam line 1, getParam line 2 with
  | some temp, some temp2 => set (int temp) (int temp2) regs
  | _, _ => regs

def cmdSetSelectSrc (line : Text) (regs : Regs) : Regs := setCommand setSelectSrc line regs

def cmdSetPin02Mode (line : Text) (regs : Regs) : Regs := setCommand setPin02Mode line regs

def cmdSetPin34Mode (line : Text) (regs : Regs) : Regs := setCommand setPin34Mode line regs

def cmdSetWriteprotect (line : Text) (regs : Regs) : Regs :=
  setCommand floppyCtrlWriteprotect line regs

def cmdSetMotorSrc (temp2 line : Text) (regs : Regs) : Regs :=
  match getParam line 1, getParam line 2 with
  | some _, some temp => setMotorSrc (int temp) (int temp2) regs
  | _, _ => regs

def cmdlist (stack : Text) : List (Text × (Text → Regs → Regs)) :=
  [("fe_writeprotect".toList,cmdSetWriteprotect),
    ("fe_motsrc".toList,cmdSetMotorSrc stack),
    ("fe_selsrc".toList,cmdSetSelectSrc),
    ("fe_pin02mode".toList,cmdSetPin02Mode),
    ("fe_pin34mode".toList,cmdSetPin34Mode)]

def executeLine (stack line : Text) (regs : Regs) : Regs :=
  match (cmdlist stack).lookup (extractCmd line) with
  | some func => func line regs
  | none => regs

/-! ## What is asked -/

inductive Setting where
  | writeprotect
  | motsrc
  | selsrc
  | pin02mode
  | pin34mode
deriving DecidableEq

namespace Setting

def command : Setting → Text
  | writeprotect => "fe_writeprotect".toList
  | motsrc => "fe_motsrc".toList
  | selsrc => "fe_selsrc".toList
  | pin02mode => "fe_pin02mode".toList
  | pin34mode => "fe_pin34mode".toList

def lo : Setting → ℕ
  | writeprotect => 13
  | motsrc => 20
  | selsrc => 16
  | pin02mode => 0
  | pin34mode => 4

def width : Setting → ℕ
  | writeprotect => 1
  | _ => 4

def value : (s : Setting) → ℤ → BitVec s.width
  | writeprotect, v => BitVec.ofBool (v ≠ 0)
  | motsrc, v => BitVec.ofInt 4 v
  | selsrc, v => BitVec.ofInt 4 v
  | pin02mode, v => BitVec.ofInt 4 v
  | pin34mode, v => BitVec.ofInt 4 v

def assign (s : Setting) (d v : ℤ) (regs : Regs) : Regs :=
  Function.update regs (BitVec.ofInt 2 d)
    (BitField.put (regs (BitVec.ofInt 2 d)) s.lo (s.value v))

def line (s : Setting) (d v : Text) : Text := s.command ++ joined [d,v]

end Setting

def nearest (n : ℤ) : ℤ := max (-2^31) (min n (2^31-1))

def Setting.taken (s : Setting) (stack : Text) (d v : ℤ) : ℤ × ℤ :=
  if s = motsrc then (nearest v,intOf stack) else (nearest d,nearest v)

def Meets (s : Setting) (stack : Text) (d v : ℤ) (regs : Regs) : Prop :=
  let n := s.taken stack d v
  (BitVec.ofInt 2 n.1 = BitVec.ofInt 2 d ∧ s.value n.2 = s.value v) ∨
    (BitVec.ofInt 2 n.1 ≠ BitVec.ofInt 2 d ∧ s.assign n.1 n.2 regs = regs ∧
      s.assign d v regs = regs)

/-! ## What the setters write -/

theorem setWidth_ofInt {m n : ℕ} (h : n ≤ m) (v : ℤ) :
    (BitVec.ofInt m v).setWidth n = BitVec.ofInt n v := by
  have hdvd : ((2^n : ℕ) : ℤ) ∣ ((2^m : ℕ) : ℤ) :=
    Int.natCast_dvd_natCast.mpr (Nat.pow_dvd_pow 2 h)
  have hpos : ∀ k : ℕ, 0 ≤ v % ((2^k : ℕ) : ℤ) := fun k => Int.emod_nonneg v (by positivity)
  apply BitVec.eq_of_toNat_eq
  apply Int.natCast_inj.mp
  rw [BitVec.toNat_setWidth, BitVec.toNat_ofInt, BitVec.toNat_ofInt, Int.natCast_mod,
    Int.toNat_of_nonneg (hpos m), Int.toNat_of_nonneg (hpos n), Int.emod_emod_of_dvd v hdvd]

theorem and_three (x : BitVec 32) : (x &&& 3#32).setWidth 2 = x.setWidth 2 := by
  apply BitVec.eq_of_toNat_eq
  have h := Nat.and_two_pow_sub_one_eq_mod x.toNat 2
  simp only [BitVec.toNat_setWidth, BitVec.toNat_and, BitVec.toNat_ofNat]
  norm_num at h ⊢
  omega

theorem and_nibble (x : BitVec 32) : x &&& 0xF#32 = (x.setWidth 4).setWidth 32 := by
  apply BitVec.eq_of_toNat_eq
  have h := Nat.and_two_pow_sub_one_eq_mod x.toNat 4
  simp only [BitVec.toNat_setWidth, BitVec.toNat_and, BitVec.toNat_ofNat]
  norm_num at h ⊢
  omega

theorem unit_ofInt (n : ℤ) : unit (BitVec.ofInt 32 n) = BitVec.ofInt 2 n := by
  rw [unit, and_three, setWidth_ofInt (by decide)]

theorem setNibble_put (lo : ℕ) (d v : ℤ) (regs : Regs) :
    setNibble lo (BitVec.ofInt 32 d) (BitVec.ofInt 32 v) regs =
      Function.update regs (BitVec.ofInt 2 d)
        (BitField.put (regs (BitVec.ofInt 2 d)) lo (BitVec.ofInt 4 v)) := by
  funext r
  rw [setNibble, unit_ofInt]
  by_cases hr : r = BitVec.ofInt 2 d
  · subst hr
    rw [if_pos rfl, Function.update_self, and_nibble, setWidth_ofInt (by decide)]
    rfl
  · rw [if_neg hr, Function.update_of_ne hr]

theorem ofInt_eq_zero {v : ℤ} (hlow : -2^31 ≤ v) (hhigh : v < 2^31) :
    BitVec.ofInt 32 v = 0 ↔ v = 0 := by
  constructor
  · intro h
    have hint := BitVec.toInt_ofInt_eq_self (w := 32) (by decide) hlow hhigh
    rw [← hint, h]
    rfl
  · rintro rfl
    rfl

theorem floppyCtrlWriteprotect_put (d : ℤ) {v : ℤ} (hlow : -2^31 ≤ v) (hhigh : v < 2^31)
    (regs : Regs) :
    floppyCtrlWriteprotect (BitVec.ofInt 32 d) (BitVec.ofInt 32 v) regs =
      Function.update regs (BitVec.ofInt 2 d)
        (BitField.put (regs (BitVec.ofInt 2 d)) 13 (BitVec.ofBool (v ≠ 0))) := by
  funext r
  rw [floppyCtrlWriteprotect, unit_ofInt]
  by_cases hr : r = BitVec.ofInt 2 d
  · subst hr
    rw [if_pos rfl, Function.update_self]
    by_cases hv : v = 0
    · simp [hv, BitField.put]
    · have hne : BitVec.ofInt 32 v ≠ 0#32 := fun h => hv ((ofInt_eq_zero hlow hhigh).mp h)
      simp [hv, hne, BitField.put]
  · rw [if_neg hr, Function.update_of_ne hr]

/-! ## What a command writes -/

theorem nearest_bounds (n : ℤ) : -2^31 ≤ nearest n ∧ nearest n < 2^31 := by
  unfold nearest
  omega

theorem intOf_decimal {text : Text} (h : IsDecimal text) : intOf text = nearest (decimal text) := by
  rw [intOf, atoi_decimal h, nearest]

theorem getParam_line (s : Setting) {d v : Text} (hd : IsDecimal d) (hv : IsDecimal v)
    (hdlen : d.length < defaultBufLen) (hvlen : v.length < defaultBufLen) :
    getParam (s.line d v) 1 = some d ∧ getParam (s.line d v) 2 = some v := by
  have hcommand : Reads s.command s.command := by
    apply reads_of_plain
    · cases s <;> decide
    · cases s <;> decide
  have hwords : ∀ w ∈ [(d,d),(v,v)], Reads w.1 w.2 := by
    intro w hw
    simp only [List.mem_cons, List.not_mem_nil, or_false] at hw
    obtain rfl | rfl := hw
    · exact reads_of_plain (decimal_plain hd) hdlen
    · exact reads_of_plain (decimal_plain hv) hvlen
  exact ⟨getParam_joined hcommand _ hwords 0,getParam_joined hcommand _ hwords 1⟩

/-- A command sets the field of its name, with the numbers it takes. -/
theorem executeLine_assign (s : Setting) {d v : Text} (hd : IsDecimal d) (hv : IsDecimal v)
    (hdlen : d.length < defaultBufLen) (hvlen : v.length < defaultBufLen) (stack : Text)
    (regs : Regs) :
    executeLine stack (s.line d v) regs =
      s.assign (s.taken stack (decimal d) (decimal v)).1
        (s.taken stack (decimal d) (decimal v)).2 regs := by
  obtain ⟨hone, htwo⟩ := getParam_line s hd hv hdlen hvlen
  have hcommand : extractCmd (s.line d v) = s.command := by
    apply extractCmd_joined
    · cases s <;> decide
    · cases s <;> decide
  have hset : ∀ set : BitVec 32 → BitVec 32 → Regs → Regs, setCommand set (s.line d v) regs =
      set (BitVec.ofInt 32 (nearest (decimal d))) (BitVec.ofInt 32 (nearest (decimal v))) regs := by
    intro set
    simp only [setCommand, hone, htwo, int, intOf_decimal hd, intOf_decimal hv]
  rw [executeLine, hcommand]
  obtain ⟨hlow, hhigh⟩ := nearest_bounds (decimal v)
  cases s with
  | writeprotect => exact (hset _).trans (floppyCtrlWriteprotect_put _ hlow hhigh regs)
  | motsrc =>
    have hmotor : cmdSetMotorSrc stack (Setting.motsrc.line d v) regs =
        setMotorSrc (int v) (int stack) regs := by
      rw [cmdSetMotorSrc, hone, htwo]
    simp only [int, intOf_decimal hv] at hmotor
    exact hmotor.trans (setNibble_put 20 _ _ regs)
  | selsrc => exact (hset _).trans (setNibble_put 16 _ _ regs)
  | pin02mode => exact (hset _).trans (setNibble_put 0 _ _ regs)
  | pin34mode => exact (hset _).trans (setNibble_put 4 _ _ regs)

/-! ## Two assignments -/

theorem Setting.put_inj (s : Setting) (x : BitVec 32) {u v : BitVec s.width} :
    BitField.put x s.lo u = BitField.put x s.lo v ↔ u = v := by
  apply BitField.put_inj
  cases s <;> decide

theorem Setting.assign_eq_iff (s : Setting) (d e u v : ℤ) (regs : Regs) :
    s.assign d u regs = s.assign e v regs ↔
      (BitVec.ofInt 2 d = BitVec.ofInt 2 e ∧ s.value u = s.value v) ∨
        (BitVec.ofInt 2 d ≠ BitVec.ofInt 2 e ∧ s.assign d u regs = regs ∧
          s.assign e v regs = regs) := by
  by_cases hunit : BitVec.ofInt 2 d = BitVec.ofInt 2 e
  · simp only [hunit, true_and, ne_eq, not_true_eq_false, false_and, or_false]
    rw [Setting.assign, Setting.assign, hunit,
      (Function.update_injective regs _).eq_iff, s.put_inj]
  · simp only [hunit, false_and, ne_eq, not_false_eq_true, true_and, false_or]
    constructor
    · intro h
      have hd := congrFun h (BitVec.ofInt 2 d)
      have he := congrFun h (BitVec.ofInt 2 e)
      rw [Setting.assign, Setting.assign, Function.update_self, Function.update_of_ne hunit] at hd
      rw [Setting.assign, Setting.assign, Function.update_self,
        Function.update_of_ne (Ne.symm hunit)] at he
      constructor
      · rw [Setting.assign, hd, Function.update_eq_self]
      · rw [Setting.assign, ← he, Function.update_eq_self]
    · rintro ⟨hd, he⟩
      rw [hd, he]

/-- A command with two decimal numbers sets the field of the drive as asked, but
for the motor source: that takes the value for the drive. -/
theorem executeLine_sets_iff (s : Setting) (d v : Text) (hd : IsDecimal d) (hv : IsDecimal v)
    (hdlen : d.length < defaultBufLen) (hvlen : v.length < defaultBufLen) (stack : Text)
    (regs : Regs) :
    executeLine stack (s.line d v) regs = s.assign (decimal d) (decimal v) regs ↔
      Meets s stack (decimal d) (decimal v) regs := by
  rw [executeLine_assign s hd hv hdlen hvlen, s.assign_eq_iff]
  rfl

theorem executeLine_sets_iff_selsrc :
    executeLine [] (Setting.selsrc.line ['3'] ['9']) (fun _ => 0) =
        Setting.selsrc.assign (decimal ['3']) (decimal ['9']) (fun _ => 0) ↔
      Meets .selsrc [] (decimal ['3']) (decimal ['9']) (fun _ => 0) :=
  executeLine_sets_iff .selsrc ['3'] ['9'] (isDecimal_of_digits (by decide) (by decide))
    (isDecimal_of_digits (by decide) (by decide)) (by decide) (by decide) [] _

/-- `fe_motsrc 0 9` sets the motor source of drive 1. -/
theorem motsrc_other_drive :
    executeLine ['3'] (Setting.motsrc.line ['0'] ['9']) (fun _ => 0) ≠
        Setting.motsrc.assign (decimal ['0']) (decimal ['9']) (fun _ => 0) ∧
      executeLine ['3'] (Setting.motsrc.line ['0'] ['9']) (fun _ => 0) 1 = 0x300000#32 := by
  constructor
  · intro h
    exact absurd (congrFun h 1) (by decide)
  · decide

end Pauline.DriveConfig
