import Pauline.Library.Clocked
import Pauline.Library.Debounce

/-!
# The glitch filter

Every line from the host and from the drive passes three synchronising registers
and a filter that counts the clocks at which the line disagrees with what has
been passed on.
-/

set_option autoImplicit false

namespace Pauline.GlitchFilter
open Debounce (Held Rests)

/-! ## The circuit -/

structure FilterInput where
  signal_in : Bool
  invert : Bool
  pulse_out_mode : Bool
  rising_edge : Bool
  falling_edge : Bool

structure SignalFilter where
  signal_in_q1 : Bool
  signal_in_q2 : Bool
  signal_in_q3 : Bool
  signal_filter_cnt : BitVec 32
  signal_out_state : Bool
  signal_pulse_out : Bool

def SignalFilter.onReset : SignalFilter := ⟨false,false,false,0,false,false⟩

/-- A clock edge of the two processes. The counter is not cleared where the
level is passed on. -/
def SignalFilter.step (filter_level : BitVec 32) (i : FilterInput) (s : SignalFilter) :
    SignalFilter :=
  let n := { s with
    signal_in_q1 := i.signal_in
    signal_in_q2 := s.signal_in_q1
    signal_in_q3 := s.signal_in_q2
    signal_pulse_out := false }
  if s.signal_out_state ≠ s.signal_in_q3 then
    if s.signal_filter_cnt < filter_level then
      { n with signal_filter_cnt := s.signal_filter_cnt + 1 }
    else
      { n with
        signal_out_state := s.signal_in_q3
        signal_pulse_out :=
          (i.rising_edge && s.signal_in_q3) || (i.falling_edge && !s.signal_in_q3) }
  else { n with signal_filter_cnt := 0 }

def SignalFilter.signalOut (i : FilterInput) (s : SignalFilter) : Bool :=
  if i.pulse_out_mode then s.signal_pulse_out else xor s.signal_out_state i.invert

def run (L : BitVec 32) (i : ℕ → FilterInput) : ℕ → SignalFilter :=
  Clocked.trace (SignalFilter.step L) i SignalFilter.onReset

/-! ## What it is to do -/

def synchronised (i : ℕ → FilterInput) : ℕ → Bool
  | t+3 => (i t).signal_in
  | _ => false

structure Pulse (x : ℕ → Bool) (v : Bool) (a n : ℕ) : Prop where
  before : x a = !v
  level : ∀ k < n, x (a+1+k) = v
  after : x (a+1+n) = !v

structure Filters (L : BitVec 32) (i : ℕ → FilterInput) : Prop where
  held : ∀ t, (run L i (t+1)).signal_out_state ≠ (run L i t).signal_out_state →
    Held L.toNat (synchronised i) (run L i (t+1)).signal_out_state t
  glitch : ∀ v a n, n ≤ L.toNat → Pulse (synchronised i) v a n → ∀ k < n, ∀ j : FilterInput,
    (run L i (a+1+k+1)).signalOut j =
      if j.pulse_out_mode then false else (run L i (a+1+k)).signalOut j
  passed : ∀ v a, (∀ k ≤ L.toNat, synchronised i (a+k) = v) → ∀ j : FilterInput,
    j.pulse_out_mode = false → (run L i (a+L.toNat+1)).signalOut j = xor v j.invert

variable (L : BitVec 32) (i : ℕ → FilterInput)

/-! ## The registers -/

theorem synchronisers (t : ℕ) : (run L i (t+1)).signal_in_q1 = (i t).signal_in ∧
    (run L i (t+1)).signal_in_q2 = (run L i t).signal_in_q1 ∧
    (run L i (t+1)).signal_in_q3 = (run L i t).signal_in_q2 := by
  rw [run, Clocked.trace, SignalFilter.step]
  split_ifs <;> exact ⟨rfl,rfl,rfl⟩

theorem signal_in_q3_eq (t : ℕ) : (run L i t).signal_in_q3 = synchronised i t := by
  match t with
  | 0 => rfl
  | 1 => exact (synchronisers L i 0).2.2
  | 2 => exact (synchronisers L i 1).2.2.trans (synchronisers L i 0).2.1
  | t+3 =>
    calc (run L i (t+3)).signal_in_q3
        = (run L i (t+2)).signal_in_q2 := (synchronisers L i (t+2)).2.2
      _ = (run L i (t+1)).signal_in_q1 := (synchronisers L i (t+1)).2.1
      _ = (i t).signal_in := (synchronisers L i t).1

theorem run_eq (t : ℕ) : Debounce.run L.toNat (synchronised i) t =
    ⟨(run L i t).signal_out_state,(run L i t).signal_filter_cnt.toNat⟩ := by
  induction t with
  | zero => rfl
  | succ t ih =>
    have hlevel := L.isLt
    have hq3 := signal_in_q3_eq L i t
    have hstep : run L i (t+1) = (run L i t).step L (i t) := rfl
    rw [Debounce.run, ih, Debounce.Filter.step, hstep, SignalFilter.step, hq3]
    simp only [BitVec.lt_def]
    split_ifs with hne hlt
    · have hone : ((run L i t).signal_filter_cnt + 1).toNat =
          (run L i t).signal_filter_cnt.toNat + 1 := by
        have h1 : (1 : BitVec 32).toNat = 1 := rfl
        rw [BitVec.toNat_add, h1]
        omega
      rw [hone]
    · rfl
    · rfl

theorem out_eq (t : ℕ) :
    (Debounce.run L.toNat (synchronised i) t).out = (run L i t).signal_out_state := by
  rw [run_eq]

theorem pulse_changes (t : ℕ)
    (h : (run L i (t+1)).signal_out_state = (run L i t).signal_out_state) :
    (run L i (t+1)).signal_pulse_out = false := by
  have hstep : run L i (t+1) = (run L i t).step L (i t) := rfl
  rw [hstep, SignalFilter.step] at h ⊢
  split_ifs at h ⊢ with hne hlt
  · rfl
  · exact absurd h.symm hne
  · rfl

/-! ## The law -/

theorem state_kept {v : Bool} {a n k : ℕ} (hn : n ≤ L.toNat) (hk : k < n)
    (hpulse : Pulse (synchronised i) v a n)
    (hheld : Debounce.Sound L.toNat (synchronised i) (a+1+k)) :
    (run L i (a+1+k+1)).signal_out_state = (run L i (a+1+k)).signal_out_state := by
  by_contra hchange
  rw [← out_eq, ← out_eq] at hchange
  have hwindow := hheld hchange
  have hlevel := Debounce.held_level hwindow
  have hbefore := hwindow.2 (k+1) (by omega)
  rw [show a+1+k-(k+1) = a by omega, hpulse.before, ← hlevel, hpulse.level k hk] at hbefore
  cases v <;> cases hbefore

/-- The filter does so exactly on the inputs where every level that is held, and
was not the one held last, stays for one clock more, or without a filter level. -/
theorem filters_iff : Filters L i ↔ L = 0 ∨ Rests L.toNat (synchronised i) := by
  have hzero : L = 0 ↔ L.toNat = 0 := by
    rw [← BitVec.toNat_inj]
    rfl
  rw [hzero, ← Debounce.sound_iff]
  constructor
  · intro h t hchange
    rw [out_eq, out_eq] at hchange
    rw [out_eq]
    exact h.held t hchange
  · intro h
    refine ⟨fun t hchange => ?_,fun v a n hn hpulse k hk j => ?_,fun v a hlevel j hmode => ?_⟩
    · rw [← out_eq, ← out_eq] at hchange
      rw [← out_eq]
      exact h t hchange
    · have hkept := state_kept L i hn hk hpulse (h (a+1+k))
      rw [SignalFilter.signalOut, SignalFilter.signalOut, hkept, pulse_changes L i _ hkept]
      split_ifs <;> rfl
    · rw [SignalFilter.signalOut, hmode, ← out_eq, Debounce.out_of_held hlevel]
      rfl

def fiveClocks (t : ℕ) : FilterInput := ⟨t < 5,false,false,false,false⟩

/-- At the filter level `reset_fpga` sets, a line that is high for five clocks
is passed on, and then low after the first clock that it is low. -/
theorem one_clock_passes : ¬ Filters 4 fiveClocks := by
  intro h
  have hheld := h.held 8 (by decide)
  have hlow := hheld.2 1 (by decide)
  revert hlow
  decide

end Pauline.GlitchFilter
