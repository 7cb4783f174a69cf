import Pauline.Library.Delivery
import Pauline.Fpga.DumpPipeline

/-!
# The way back to memory

A word handed over goes through the push fifo into the registers of the
master and from there to the bus. None changes its place on the way; a word in
front of a full push fifo is the only one that is lost.
-/

set_option autoImplicit false

namespace Pauline.DumpPath
open Pauline.DmaMaster Pauline.FloppyDumper

variable {pop push : DumpFifo}

def Dump.inDma (s : Dump pop push) : List (LWord × LWord) :=
  if s.master.drive_index = 4 then
    match s.master.state_master_register with
    | .wait_write => [pair (push.q s.pushFifo)]
    | .wait_write2 => [(s.master.busaddress, s.master.writedata)]
    | _ => []
  else []

def Dump.arrivingBack (s : Dump pop push) : List (LWord × LWord) :=
  if s.dumper.read_fifo_wr then [pair s.dumper.read_fifo_data] else []

def Dump.underway (s : Dump pop push) : List (LWord × LWord) :=
  s.inDma ++ ((push.contents s.pushFifo).map pair ++ s.arrivingBack)

def Dump.capturedPairs (s : Dump pop push) : List (LWord × LWord) :=
  s.captured.map fun c => pair c.word

structure Carried (s : Dump pop push) : Prop where
  writes : s.master.drive_index = 4 →
    (s.master.avm_m1_write = true ↔ s.master.state_master_register = .wait_write2)
  requests : s.master.push_fifo_out_rq 4 = true ↔
    s.master.drive_index = 4 ∧ s.master.state_master_register = .wait_write_ws
  requested : s.master.push_fifo_out_rq 4 = true → push.contents s.pushFifo ≠ []
  due : s.master.state_master_register = .idle → s.master.filos_out_allempty = false →
    s.master.fifos_out_empty_index = 4 → push.contents s.pushFifo ≠ []
  delivery : Delivery s.capturedPairs s.written s.underway s.lost

section Step
variable {i : DumpInput} {s : Dump pop push}

theorem push_contents_step (hr : i.bus.reset_drives 4 = false) :
    (push.contents (s.step i).pushFifo).map pair =
      ((if s.master.push_fifo_out_rq 4 then (push.contents s.pushFifo).tail
        else push.contents s.pushFifo).map pair) ++
      if s.pushOverflow then [] else s.arrivingBack := by
  simp only [Dump.step, DumpCore.step, push.contents_step, hr]
  by_cases hl : 4096 ≤ (push.contents s.pushFifo).length <;> cases hwr : s.dumper.read_fifo_wr <;>
    simp [DumpCore.pushOverflow, Dump.arrivingBack, SyncFifo.level, hwr, hl, Nat.lt_of_not_le]

/-- What the registers of the master do with a word on its way to the bus. -/
theorem inDma_step : (s.step i).inDma =
    if s.master.drive_index = 4 then
      match s.master.state_master_register with
      | .wait_write_ws => [pair (push.q (s.step i).pushFifo)]
      | .wait_write => [pair (push.q s.pushFifo)]
      | .wait_write2 =>
        if i.bus.avm_m1_waitrequest then [(s.master.busaddress, s.master.writedata)] else []
      | _ => []
    else [] := by
  have hb := step_bus (s.busInput i) s.master
  have hstate := hb.state_master_register
  have hdrive := hb.drive_index
  have haddress := hb.busaddress
  have hdata := hb.writedata
  simp only [Dump.inDma, step_master, hstate, hdrive, haddress, hdata]
  cases hm : s.master.state_master_register with
  | idle =>
    cases startsRead (s.busInput i) s.master <;> cases startsWrite (s.busInput i) s.master <;>
      simp
  | wait_write_ws => rfl
  | wait_write =>
    by_cases hd : s.master.drive_index = 4
    · simp [hd, pair, DumpCore.busInput]
    · simp [hd]
  | wait_write2 =>
    have hwait : (s.busInput i).avm_m1_waitrequest = i.bus.avm_m1_waitrequest := rfl
    rw [hwait]
    cases i.bus.avm_m1_waitrequest <;> rfl
  | wait_read =>
    by_cases hd : s.master.drive_index = 4
    · cases hreset : (s.busInput i).reset_drives 4 <;> simp [hd, hreset]
    · simp [hd]
  | wait_read2 =>
    by_cases hd : s.master.drive_index = 4
    · cases hreset : (s.busInput i).reset_drives 4 <;> simp [takes, hm, hd, hreset]
    · simp [hd]

/-- Between the push fifo and the bus a word moves on or stays. -/
theorem handed_on (hr : i.bus.reset_drives 4 = false) (h : Carried s) :
    (s.step i).written ++ ((s.step i).inDma ++
      (if s.master.push_fifo_out_rq 4 then (push.contents s.pushFifo).tail
        else push.contents s.pushFifo).map pair) =
      s.written ++ (s.inDma ++ (push.contents s.pushFifo).map pair) := by
  have hwritten : (s.step i).written = s.written ++
      if s.writes i then [(s.master.busaddress, s.master.writedata)] else [] := rfl
  rw [inDma_step, hwritten, Dump.inDma]
  by_cases hd : s.master.drive_index = 4
  · have hrq := h.requests
    have hwr := h.writes hd
    simp only [hd, true_and] at hrq
    simp only [hd, if_true, DumpCore.writes, List.append_assoc]
    cases hm : s.master.state_master_register with
    | wait_write_ws =>
      -- the word requested stands at the output after the edge
      have hreq := hrq.mpr hm
      obtain ⟨x, xs, hx⟩ := List.exists_cons_of_ne_nil (h.requested hreq)
      have hq : push.q (s.step i).pushFifo = x := by
        simp only [Dump.step, DumpCore.step, hr, hreq]
        exact push.q_step _ _ _ x xs hx
      rw [hm] at hwr
      simp only [reduceCtorEq, iff_false, Bool.not_eq_true] at hwr
      simp [hq, hreq, hx, hwr]
    | wait_write2 =>
      rw [hm] at hwr hrq
      simp only [reduceCtorEq, iff_true, iff_false, Bool.not_eq_true] at hwr hrq
      cases hwait : i.bus.avm_m1_waitrequest <;> simp [hwr, hrq]
    | _ =>
      rw [hm] at hwr hrq
      simp only [reduceCtorEq, iff_false, Bool.not_eq_true] at hwr hrq
      simp [hwr, hrq]
  · have hrq : s.master.push_fifo_out_rq 4 = false := by
      rw [Bool.eq_false_iff]
      exact fun hc => hd (h.requests.mp hc).1
    simp [hd, hrq, DumpCore.writes]

theorem capturedPairs_step : (s.step i).capturedPairs = s.capturedPairs ++ (s.step i).arrivingBack := by
  have hcaptured : (s.step i).captured = s.captured ++ if (s.step i).dumper.read_fifo_wr then
    [⟨(s.step i).dumper.read_fifo_data, s.samples.length⟩] else [] := rfl
  rw [Dump.capturedPairs, Dump.arrivingBack, hcaptured, List.map_append]
  split_ifs <;> rfl

theorem lost_step : (s.step i).lost = s.lost ++ if s.pushOverflow then s.arrivingBack else [] := by
  simp only [Dump.step, Dump.arrivingBack, DumpCore.pushOverflow]
  by_cases hwr : s.dumper.read_fifo_wr = true <;> simp [hwr]

theorem push_kept (hr : i.bus.reset_drives 4 = false) (hrq : s.master.push_fifo_out_rq 4 = false)
    (hne : push.contents s.pushFifo ≠ []) : push.contents (s.step i).pushFifo ≠ [] := by
  intro hnil
  have hstep := push_contents_step (s := s) hr
  rw [hnil, hrq] at hstep
  simp [hne] at hstep

theorem delivery_step (hr : i.bus.reset_drives 4 = false) (h : Carried s) :
    Delivery (s.step i).capturedPairs (s.step i).written (s.step i).underway (s.step i).lost := by
  have hmoved := handed_on hr h
  have hold : Delivery s.capturedPairs s.written
      ((s.inDma ++ (push.contents s.pushFifo).map pair) ++ s.arrivingBack) s.lost :=
    h.delivery.move (by simp only [Dump.underway, List.append_assoc])
  rw [capturedPairs_step, lost_step, Dump.underway, push_contents_step hr]
  by_cases hfull : s.pushOverflow = true
  · rw [if_pos hfull, if_pos hfull]
    refine (hold.lose.enter _).move ?_
    rw [List.append_nil, ← List.append_assoc s.written, ← hmoved]
    simp only [List.append_assoc]
  · rw [if_neg hfull, if_neg hfull, List.append_nil]
    refine (hold.enter _).move ?_
    rw [← List.append_assoc s.written, ← List.append_assoc s.written, ← hmoved]
    simp only [List.append_assoc]

theorem carried_step (hr : i.bus.reset_drives 4 = false) (h : Carried s) :
    Carried (s.step i) where
  writes := fun _ => write_iff _ _
  requests := request_iff _ _ 4
  requested := by
    intro hrq
    rw [step_master, (step_channel (s.busInput i) s.master 4).push_fifo_out_rq] at hrq
    simp only [startsWrite, Bool.and_eq_true, decide_eq_true_eq, Bool.not_eq_true'] at hrq
    obtain ⟨⟨hidle, ⟨-, -⟩, hempty⟩, hx⟩ := hrq
    refine push_kept hr ?_ (h.due hidle hempty hx.symm)
    rw [Bool.eq_false_iff]
    intro hc
    rw [(h.requests.mp hc).2] at hidle
    exact absurd hidle (by decide)
  due := by
    intro hidle hempty hx
    have hword : hasWord (s.busInput i) s.master 4 = true := by
      have := firstOf_spec (hasWord (s.busInput i) s.master) hempty
      rwa [show (firstOf (hasWord (s.busInput i) s.master)).1 = 4 from hx] at this
    have hflag : push.empty s.pushFifo = false := by
      simp only [hasWord, Bool.and_eq_true, Bool.not_eq_true', DumpCore.busInput,
        Function.update_self] at hword
      exact hword.1.1.1
    refine push_kept hr ?_ (push.empty_sound _ hflag)
    rw [Bool.eq_false_iff]
    intro hc
    rw [step_master, (step_bus (s.busInput i) s.master).state_master_register,
      (h.requests.mp hc).2] at hidle
    cases hidle
  delivery := delivery_step hr h

end Step

end Pauline.DumpPath
