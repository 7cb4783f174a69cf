import Pauline.Library.Clocked
import Pauline.Library.LockTrace

/-!
# The lock of the preview thread

`ImageGeneratorThreadProc` shares `file_to_analyse` with the commands under the
mutex of the script. Its loop takes and leaves the mutex on different branches.
-/

set_option autoImplicit false

namespace Pauline.PreviewLock
open LockTrace

inductive Place where
  | head
  /-- Before the test of `file_to_analyse[0]`. -/
  | check
  | asleep
  | opening
  | decoding
  | left
deriving DecidableEq

structure Thread where
  place : Place
  ret : ℤ
  /-- The file of the turn before could not be opened. -/
  failed : Bool
  /-- What has been done to `script_mutex` and to `file_to_analyse`. -/
  events : List Event

def start : Thread := ⟨.head,0,false,[]⟩

structure World where
  img_connection : Bool
  /-- `file_to_analyse[0]` is not 0. -/
  pending : Bool
  opens : Bool
  /-- The last `fread` of the turn is complete. -/
  complete : Bool

def step (w : World) (s : Thread) : Thread :=
  match s.place with
  | .head =>
    if s.ret < 0 then { s with place := .left }
    else if w.img_connection then { s with place := .check, events := s.events ++ [.lock] }
    -- without a client the mutex is unlocked, and the thread sleeps
    else { s with failed := false, events := s.events ++ [.unlock] }
  | .check =>
    if w.pending then { s with place := .opening, events := s.events ++ [.access] }
    else { s with place := .asleep, events := s.events ++ [.access,.unlock] }
  | .asleep => { s with place := .check, events := s.events ++ [.lock] }
  | .opening =>
    -- the name is read, and cleared when the file is open
    if w.opens then
      { s with
        place := .decoding
        failed := false
        events := s.events ++ [.access,.access,.unlock] }
    else { s with place := .head, failed := true, events := s.events ++ [.access] }
  | .decoding => { s with place := .head, ret := if w.complete then 1 else 0 }
  | .left => s

def run (ws : List World) : Thread := ws.foldl (fun s w => step w s) start

def Disciplined (s : Thread) : Prop := Kept false s.events

/-- A turn begins with a client exactly when the file of the turn before, if there
was one, could be opened. -/
def Fortunate (w : World) (s : Thread) : Prop :=
  s.place = .head → (w.img_connection = true ↔ s.failed = false)

def heldAt (s : Thread) : Bool :=
  match s.place with
  | .head | .decoding => s.failed
  | .check | .opening => true
  | .asleep | .left => false

structure Traced (s : Thread) : Prop where
  held : holds false s.events = heldAt s
  ret : 0 ≤ s.ret
  stays : s.place ≠ .left

section Step
variable {s : Thread} (h : Traced s) (w : World)
include h

theorem Traced.goes_on : ¬s.ret < 0 := by
  have hret := h.ret
  omega

theorem Traced.append {s' : Thread} (es : List Event) (hevents : s'.events = s.events ++ es)
    (hheld : holds (heldAt s) es = heldAt s') (hret : 0 ≤ s'.ret) (hstays : s'.place ≠ .left) :
    Traced s' where
  held := by rw [hevents, holds_append, h.held, hheld]
  ret := hret
  stays := hstays

theorem Traced.step : Traced (step w s) := by
  have hgo := h.goes_on
  have hret := h.ret
  unfold PreviewLock.step
  cases hplace : s.place with
  | head =>
    dsimp only
    rw [if_neg hgo]
    cases w.img_connection with
    | true => exact h.append [.lock] rfl rfl hret (by simp)
    | false =>
      exact h.append [.unlock] rfl (by simp [heldAt, hplace, holds, Event.after]) hret
        (by simp)
  | check =>
    cases w.pending with
    | true =>
      exact h.append [.access] rfl (by simp [heldAt, hplace, holds, Event.after]) hret (by simp)
    | false => exact h.append [.access,.unlock] rfl rfl hret (by simp)
  | asleep => exact h.append [.lock] rfl rfl hret (by simp)
  | opening =>
    cases w.opens with
    | true => exact h.append [.access,.access,.unlock] rfl rfl hret (by simp)
    | false =>
      exact h.append [.access] rfl (by simp [heldAt, hplace, holds, Event.after]) hret (by simp)
  | decoding =>
    refine h.append [] (List.append_nil _).symm ?_ ?_ (by simp)
    · simp [heldAt, hplace, holds]
    · dsimp only
      split_ifs <;> omega
  | left => exact absurd hplace h.stays

theorem Traced.disciplined_step :
    Disciplined (PreviewLock.step w s) ↔ Disciplined s ∧ Fortunate w s := by
  have hgo := h.goes_on
  have happend : ∀ es, Kept false (s.events ++ es) ↔ Disciplined s ∧ Kept (heldAt s) es :=
    fun es => by rw [kept_append, h.held, Disciplined]
  unfold Fortunate Disciplined PreviewLock.step
  cases hplace : s.place with
  | head =>
    have hheld : heldAt s = s.failed := by rw [heldAt, hplace]
    dsimp only
    rw [if_neg hgo]
    cases w.img_connection with
    | true =>
      rw [if_pos rfl, happend, hheld]
      simp [Kept, Event.allowed, Disciplined]
    | false =>
      rw [if_neg Bool.false_ne_true, happend, hheld]
      simp [Kept, Event.allowed, Disciplined]
  | check =>
    have hheld : heldAt s = true := by rw [heldAt, hplace]
    cases w.pending with
    | true =>
      rw [if_pos rfl, happend, hheld]
      simp [Kept, Event.allowed, Disciplined]
    | false =>
      rw [if_neg Bool.false_ne_true, happend, hheld]
      simp [Kept, Event.allowed, Event.after, Disciplined]
  | asleep =>
    have hheld : heldAt s = false := by rw [heldAt, hplace]
    dsimp only
    rw [happend, hheld]
    simp [Kept, Event.allowed, Disciplined]
  | opening =>
    have hheld : heldAt s = true := by rw [heldAt, hplace]
    cases w.opens with
    | true =>
      rw [if_pos rfl, happend, hheld]
      simp [Kept, Event.allowed, Event.after, Disciplined]
    | false =>
      rw [if_neg Bool.false_ne_true, happend, hheld]
      simp [Kept, Event.allowed, Disciplined]
  | decoding => simp
  | left => exact absurd hplace h.stays

end Step

theorem traced_start : Traced start := ⟨rfl,le_rfl,by decide⟩

theorem run_disciplined (ws : List World) (s : Thread) (h : Traced s) :
    Disciplined (ws.foldl (fun s w => step w s) s) ↔
      Disciplined s ∧ Clocked.Allows step Fortunate ws s := by
  induction ws generalizing s with
  | nil => simp [Clocked.Allows]
  | cons w ws ih =>
    rw [List.foldl_cons, ih _ (h.step w), h.disciplined_step w, Clocked.Allows, and_assoc]

/-- The thread keeps the discipline of its mutex in exactly the runs in which every
turn is fortunate. -/
theorem disciplined_iff (ws : List World) :
    Disciplined (run ws) ↔ Clocked.Allows step Fortunate ws start := by
  rw [run, run_disciplined ws start traced_start]
  exact and_iff_right trivial

/-- The first turn without a client unlocks a mutex that is not held. -/
theorem undisciplined_unconnected : ¬∀ ws, Disciplined (run ws) := fun hall => by
  have h : Disciplined (run [⟨false,false,false,false⟩]) := hall _
  exact absurd h.1 (by decide)

/-- A client stays, and the file cannot be opened: the mutex is locked once more. -/
example : ¬Disciplined (run (List.replicate 4 ⟨true,true,false,false⟩)) := fun h =>
  absurd h.2.2.2.1 (by decide)

end Pauline.PreviewLock
