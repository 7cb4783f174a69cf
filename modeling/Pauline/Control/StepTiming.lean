import Mathlib.Tactic
import Pauline.Emulation.MemoryMap

/-!
# The timing of the step line

The widths of the step pulse and of the motor phases, configured in microseconds
and programmed in clocks. The product with the frequency of the clock is formed
in an `int` before it is divided.
-/

set_option autoImplicit false

namespace Pauline.StepTiming
open Pauline.MemoryMap (FPGA_CLOCK)

def usProduct (us : BitVec 32) : BitVec 32 := us * BitVec.ofNat 32 FPGA_CLOCK

def usToFpgaClk (us : BitVec 32) : BitVec 32 := (usProduct us).sdiv 1000000

def Overflows (us : BitVec 32) : Prop := BitVec.smulOverflow us (BitVec.ofNat 32 FPGA_CLOCK) = true

inductive Variable where
  | DRIVE_STEP_SIGNAL_WIDTH
  | DRIVE_STEP_PHASES_WIDTH
  | DRIVE_STEP_PHASES_STOP_WIDTH
  | DRIVE_HEAD_STEP_RATE

structure StepRegs where
  step_signal_width : BitVec 32
  step_phases_width : BitVec 32
  step_phases_stop_width : BitVec 32
  floppy_ctrl_steprate : BitVec 32

def resetFpga (hxcfe_getEnvVarValue : Variable → BitVec 32) : StepRegs where
  step_signal_width := usToFpgaClk (hxcfe_getEnvVarValue .DRIVE_STEP_SIGNAL_WIDTH)
  step_phases_width := usToFpgaClk (hxcfe_getEnvVarValue .DRIVE_STEP_PHASES_WIDTH)
  step_phases_stop_width := usToFpgaClk (hxcfe_getEnvVarValue .DRIVE_STEP_PHASES_STOP_WIDTH)
  floppy_ctrl_steprate := hxcfe_getEnvVarValue .DRIVE_HEAD_STEP_RATE

def defaults : Variable → BitVec 32
  | .DRIVE_STEP_SIGNAL_WIDTH => 8
  | .DRIVE_STEP_PHASES_WIDTH => 14000
  | .DRIVE_STEP_PHASES_STOP_WIDTH => 36000
  | .DRIVE_HEAD_STEP_RATE => 24000

def widths : List (Variable × (StepRegs → BitVec 32)) :=
  [(.DRIVE_STEP_SIGNAL_WIDTH,StepRegs.step_signal_width),
    (.DRIVE_STEP_PHASES_WIDTH,StepRegs.step_phases_width),
    (.DRIVE_STEP_PHASES_STOP_WIDTH,StepRegs.step_phases_stop_width)]

def Exact (env : Variable → BitVec 32) : Prop :=
  ∀ w ∈ widths, ¬ Overflows (env w.1) ∧ (w.2 (resetFpga env)).toNat = 50 * (env w.1).toNat

/-! ## The conversion -/

section Convert
variable {us : BitVec 32} (h : us.toNat ≤ 1000000)
include h

theorem toInt_eq : us.toInt = us.toNat := BitVec.toInt_eq_toNat_of_lt (by omega)

theorem overflows_iff : Overflows us ↔ 42 < us.toNat := by
  have hclock : (BitVec.ofNat 32 FPGA_CLOCK).toInt = 50000000 := rfl
  rw [Overflows, BitVec.smulOverflow, toInt_eq h, hclock]
  simp only [Bool.or_eq_true, decide_eq_true_eq]
  omega

theorem usToFpgaClk_exact (hsmall : us.toNat ≤ 42) : (usToFpgaClk us).toNat = 50 * us.toNat := by
  have hclock : (BitVec.ofNat 32 FPGA_CLOCK).toInt = 50000000 := rfl
  have hover : ¬ BitVec.smulOverflow us (BitVec.ofNat 32 FPGA_CLOCK) := fun hover =>
    absurd ((overflows_iff h).mp hover) (by omega)
  have hproduct : (usProduct us).toInt = us.toNat * 50000000 := by
    rw [usProduct, BitVec.toInt_mul_of_not_smulOverflow hover, toInt_eq h, hclock]
  have hquotient : (usToFpgaClk us).toInt = 50 * us.toNat := by
    rw [usToFpgaClk, BitVec.toInt_sdiv_of_ne_or_ne _ _ (Or.inr (by decide)), hproduct]
    have hper : (1000000 : BitVec 32).toInt = 1000000 := rfl
    rw [hper, Int.tdiv_eq_ediv_of_nonneg (by omega)]
    omega
  rw [BitVec.toInt_eq_toNat_cond] at hquotient
  split_ifs at hquotient <;> omega

theorem usToFpgaClk_wrong (hlarge : 42 < us.toNat) : (usToFpgaClk us).toNat ≠ 50 * us.toNat := by
  have hper : (1000000 : BitVec 32).toInt = 1000000 := rfl
  have hquotient : (usToFpgaClk us).toInt = (usProduct us).toInt.tdiv 1000000 := by
    rw [usToFpgaClk, BitVec.toInt_sdiv_of_ne_or_ne _ _ (Or.inr (by decide)), hper]
  have hmin := BitVec.le_toInt (usProduct us)
  have hmax := BitVec.toInt_lt (x := usProduct us)
  have hbounds : -2147 ≤ (usToFpgaClk us).toInt ∧ (usToFpgaClk us).toInt ≤ 2147 := by
    rw [hquotient]
    obtain hneg | hpos := lt_or_ge (usProduct us).toInt 0
    · have hflip := Int.neg_tdiv (-(usProduct us).toInt) 1000000
      have hpos : 0 ≤ -(usProduct us).toInt := by omega
      rw [neg_neg, Int.tdiv_eq_ediv_of_nonneg hpos] at hflip
      omega
    · rw [Int.tdiv_eq_ediv_of_nonneg hpos]
      omega
  intro hexact
  rw [BitVec.toInt_eq_toNat_cond] at hbounds
  split_ifs at hbounds <;> omega

end Convert

theorem exact_width_iff {us : BitVec 32} (h : us.toNat ≤ 1000000) :
    ¬ Overflows us ∧ (usToFpgaClk us).toNat = 50 * us.toNat ↔ us.toNat ≤ 42 := by
  rw [overflows_iff h]
  constructor
  · intro hexact
    omega
  · intro hsmall
    exact ⟨by omega,usToFpgaClk_exact h hsmall⟩

/-- The widths are exact if and only if none is configured above 42 microseconds. -/
theorem widths_exact_iff (env : Variable → BitVec 32)
    (hrange : ∀ w ∈ widths, (env w.1).toNat ≤ 1000000) :
    Exact env ↔ ∀ w ∈ widths, (env w.1).toNat ≤ 42 := by
  simp only [widths, List.forall_mem_cons, List.not_mem_nil, false_imp_iff, implies_true,
    and_true] at hrange
  obtain ⟨hsignal, hphases, hstop⟩ := hrange
  simp only [Exact, widths, List.forall_mem_cons, List.not_mem_nil, false_imp_iff, implies_true,
    and_true, resetFpga, exact_width_iff hsignal, exact_width_iff hphases, exact_width_iff hstop]

theorem widths_exact_iff_ten : Exact fun _ => 10 :=
  (widths_exact_iff (fun _ => 10) fun _ _ => by decide).mpr fun _ _ => by decide

/-- With the built-in configuration the phases of the motor are not exact. -/
theorem defaults_not_exact : ¬ Exact defaults := by
  intro h
  have hphases : ¬ Overflows 14000 ∧ (usToFpgaClk 14000).toNat = 50 * (14000 : BitVec 32).toNat :=
    h (.DRIVE_STEP_PHASES_WIDTH,StepRegs.step_phases_width) (by simp [widths])
  exact usToFpgaClk_wrong (by decide) (by decide) hphases.2

end Pauline.StepTiming
