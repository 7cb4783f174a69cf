import Mathlib.Tactic

/-!
# Gaps, positions and self-delimiting codes in memory

An increasing list of positions and the list of gaps between them carry the
same information. A self-delimiting code is read back from any memory that
holds its bytes, whatever stands behind them.
-/

set_option autoImplicit false

namespace CodeStream

def deltas : ℕ → List ℕ → List ℕ
  | _, [] => []
  | old, p::ps => (p-old) :: deltas p ps

def positions : ℕ → List ℕ → List ℕ
  | _, [] => []
  | acc, d::ds => (acc+d) :: positions (acc+d) ds

@[simp] theorem deltas_nil (old : ℕ) : deltas old [] = [] := rfl

@[simp] theorem deltas_cons (old p : ℕ) (ps : List ℕ) :
    deltas old (p::ps) = (p-old) :: deltas p ps := rfl

@[simp] theorem positions_nil (acc : ℕ) : positions acc [] = [] := rfl

@[simp] theorem positions_cons (acc d : ℕ) (ds : List ℕ) :
    positions acc (d::ds) = (acc+d) :: positions (acc+d) ds := rfl

@[simp] theorem deltas_length (old : ℕ) (ps : List ℕ) : (deltas old ps).length = ps.length := by
  induction ps generalizing old with
  | nil => rfl
  | cons p ps ih => simp [ih]

theorem positions_append (acc : ℕ) (ds es : List ℕ) :
    positions acc (ds++es) = positions acc ds ++ positions (acc+ds.sum) es := by
  induction ds generalizing acc with
  | nil => simp
  | cons d ds ih => simp [ih, Nat.add_assoc]

/-- Summing the gaps of an increasing list gives the list back. -/
theorem positions_deltas (old : ℕ) (ps : List ℕ) (h : (old::ps).Pairwise (· ≤ ·)) :
    positions old (deltas old ps) = ps := by
  induction ps generalizing old with
  | nil => rfl
  | cons p ps ih =>
    obtain ⟨hold, hps⟩ := List.pairwise_cons.mp h
    have hp : old+(p-old) = p := Nat.add_sub_of_le (hold p (by simp))
    rw [deltas_cons, positions_cons, hp, ih p hps]

theorem deltas_le (old b : ℕ) (ps : List ℕ) (h : ∀ p ∈ ps, p ≤ b) :
    ∀ d ∈ deltas old ps, d ≤ b := by
  induction ps generalizing old with
  | nil => simp
  | cons p ps ih =>
    intro d hd
    have hp := h p (by simp)
    rcases List.mem_cons.mp hd with rfl | hd
    · omega
    · exact ih p (fun q hq => h q (by simp [hq])) d hd

variable {α β : Type*}

def Holds (u : ℕ → β) : ℕ → List β → Prop
  | _, [] => True
  | k, b::bs => u k = b ∧ Holds u (k+1) bs

theorem holds_append (u : ℕ → β) (k : ℕ) (bs cs : List β) :
    Holds u k (bs++cs) ↔ Holds u k bs ∧ Holds u (k+bs.length) cs := by
  induction bs generalizing k with
  | nil => simp [Holds]
  | cons b bs ih => simp [Holds, ih, and_assoc, Nat.add_assoc, Nat.add_comm 1]

theorem holds_of_get (u : ℕ → β) (k : ℕ) (bs : List β)
    (h : ∀ (i : ℕ) (hi : i < bs.length), u (k+i) = bs[i]) : Holds u k bs := by
  induction bs generalizing k with
  | nil => trivial
  | cons b bs ih =>
    refine ⟨h 0 (by simp), ih (k+1) ?_⟩
    intro i hi
    have hn := h (i+1) (by simpa using hi)
    simpa [Nat.add_assoc, Nat.add_comm 1] using hn

/-- Read `n` codes from address `k` on with a reader that returns the value
and the address behind its code. -/
def readMany (read : ℕ → α × ℕ) : ℕ → ℕ → List α
  | 0, _ => []
  | n+1, k => (read k).1 :: readMany read n (read k).2

def readEnd (read : ℕ → α × ℕ) : ℕ → ℕ → ℕ
  | 0, k => k
  | n+1, k => readEnd read n (read k).2

theorem le_readEnd (read : ℕ → α × ℕ) (hread : ∀ k, k ≤ (read k).2) (n k : ℕ) :
    k ≤ readEnd read n k := by
  induction n generalizing k with
  | zero => exact Nat.le_refl k
  | succ n ih => exact (hread k).trans (ih _)

theorem readMany_encoded (read : (ℕ → β) → ℕ → α × ℕ) (enc : α → List β) (Ok : α → Prop)
    (hread : ∀ u k a, Ok a → Holds u k (enc a) → read u k = (a, k+(enc a).length))
    (u : ℕ → β) (k : ℕ) (xs : List α) (hok : ∀ a ∈ xs, Ok a)
    (hu : Holds u k (xs.flatMap enc)) : readMany (read u) xs.length k = xs := by
  induction xs generalizing k with
  | nil => rfl
  | cons a xs ih =>
    rw [List.flatMap_cons, holds_append] at hu
    have ha := hread u k a (hok a (by simp)) hu.1
    simp only [List.length_cons, readMany, ha]
    rw [ih _ (fun b hb => hok b (by simp [hb])) hu.2]

end CodeStream
