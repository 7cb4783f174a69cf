import Pauline.Fpga.DumpPath

/-!
# The addresses of a dump

The master gives the addresses of the buffer in order and flags the last one.
The dumper reads them out of the pop fifo; each stays two words in its
pipeline before it is used.
-/

set_option autoImplicit false

namespace Pauline.DumpPath
open Pauline.DmaMaster Pauline.FloppyDumper

variable {pop push : DumpFifo} {buffer_size base : LWord}

def dataWords (buffer_size : LWord) : ℕ := buffer_size.toNat/4-1

def item (buffer_size base : LWord) (k : ℕ) : LWord × BitVec 8 :=
  (base + BitVec.ofNat 32 (4*min k (dataWords buffer_size)),
    if k < dataWords buffer_size then 0 else 1)

def tag (w : FifoWord) : LWord × BitVec 8 := (w.address, w.status)

structure Generated (buffer_size base : LWord) (s : Dump pop push) : Prop extends Room s where
  stop : s.master.dma_stop_address 4 = stopAddress buffer_size
  offset : s.master.address_offsets 4 = BitVec.ofNat 32 (4*min s.given (dataWords buffer_size))
  address : s.master.drv_cur_track_address 4 = (item buffer_size base s.given).1
  popped_le : s.popped ≤ s.given
  queue : (pop.contents s.popFifo ++ s.arrivals).map tag =
    (List.range' s.popped (s.given-s.popped)).map (item buffer_size base)
  shown : 0 < s.popped → tag (pop.q s.popFifo) = item buffer_size base (s.popped-1)

theorem pop_contents_step {i : DumpInput} {s : Dump pop push} (hr : i.bus.reset_drives 4 = false)
    (h : Room s) : pop.contents (s.step i).popFifo =
      (if s.dumper.write_fifo_rq then (pop.contents s.popFifo).tail else pop.contents s.popFifo) ++
        s.arrivals := by
  have hlevel : (pop.contents s.popFifo).length < 4096 := by
    have := h.room
    unfold SyncFifo.level at this
    omega
  refine (pop.contents_step _ _ _ _ _).trans ?_
  rw [hr, Dump.arrivals]
  simp [hlevel]

section Generator
variable (hsize : buffer_size.toNat = 4*(dataWords buffer_size+1))
include hsize

theorem stopAddress_eq : stopAddress buffer_size = BitVec.ofNat 32 (4*dataWords buffer_size) := by
  have hlt := buffer_size.isLt
  apply BitVec.eq_of_toNat_eq
  rw [stopAddress_toNat buffer_size (by omega), BitVec.toNat_ofNat, Nat.mod_eq_of_lt (by omega)]
  omega

variable {i : DumpInput} {s : Dump pop push}

theorem atEnd_iff (h : Generated buffer_size base s) :
    atEnd s.master 4 = true ↔ dataWords buffer_size ≤ s.given := by
  have hlt := buffer_size.isLt
  rw [atEnd, h.stop, h.offset, stopAddress_eq hsize, decide_eq_true_eq, ge_iff_le, BitVec.le_def,
    BitVec.toNat_ofNat, BitVec.toNat_ofNat, Nat.mod_eq_of_lt (by omega),
    Nat.mod_eq_of_lt (by omega)]
  omega

theorem nextOffset_eq (h : Generated buffer_size base s) (hp : Programmed buffer_size base i) :
    nextOffset (s.busInput i) s.master 4 =
      BitVec.ofNat 32 (4*min (s.given+1) (dataWords buffer_size)) := by
  by_cases hend : dataWords buffer_size ≤ s.given
  · rw [nextOffset, if_pos ((atEnd_iff hsize h).mpr hend), if_neg (by simp [DumpCore.busInput, hp.not_continuous]),
      h.stop, stopAddress_eq hsize, Nat.min_eq_right (by omega)]
  · rw [nextOffset, if_neg (fun he => hend ((atEnd_iff hsize h).mp he)), h.offset,
      Nat.min_eq_left (by omega), Nat.min_eq_left (by omega), Nat.mul_succ, BitVec.ofNat_add]
    rfl

theorem nextAddress_eq (h : Generated buffer_size base s) (hp : Programmed buffer_size base i) :
    nextAddress (s.busInput i) s.master 4 = (item buffer_size base (s.given+1)).1 := by
  by_cases hend : dataWords buffer_size ≤ s.given
  · rw [nextAddress, if_pos ((atEnd_iff hsize h).mpr hend),
      if_neg (by simp [DumpCore.busInput, hp.not_continuous]), h.stop, stopAddress_eq hsize, item,
      Nat.min_eq_right (by omega)]
    simp [DumpCore.busInput, hp.base]
  · rw [nextAddress, if_neg (fun he => hend ((atEnd_iff hsize h).mp he)), h.address, item, item,
      Nat.min_eq_left (by omega), Nat.min_eq_left (by omega), Nat.mul_succ, BitVec.ofNat_add,
      ← BitVec.add_assoc]
    rfl

theorem arrivals_step (h : Generated buffer_size base s) (hp : Programmed buffer_size base i) :
    (s.step i).arrivals.map tag =
      if takes (s.busInput i) s.master 4 then [item buffer_size base s.given] else [] := by
  have hc := step_channel (s.busInput i) s.master 4
  have hcont : (s.busInput i).continuous_mode 4 = false := hp.not_continuous
  have haddr := hc.pop_fifo_in_address
  have hstatus := hc.pop_fifo_in_status
  simp only [Dump.arrivals, step_master, hc.pop_fifo_in_wr]
  cases ht : takes (s.busInput i) s.master 4 with
  | false => rfl
  | true =>
    rw [ht] at haddr hstatus
    simp only [if_true, List.map_cons, List.map_nil, tag, DumpCore.arriving, step_master, haddr,
      hstatus, h.address, hcont]
    by_cases hend : dataWords buffer_size ≤ s.given
    · simp [(atEnd_iff hsize h).mpr hend, item, hend]
    · have hnot : atEnd s.master 4 = false := by
        simpa using fun he => hend ((atEnd_iff hsize h).mp he)
      simp [hnot, item, Nat.lt_of_not_le hend]

omit hsize in
theorem popped_step_le (h : Generated buffer_size base s)
    (hq : s.dumper.write_fifo_rq = true → pop.contents s.popFifo ≠ []) :
    (s.step i).popped ≤ s.given := by
  have hle := h.popped_le
  have hlength := congrArg List.length h.queue
  simp only [List.length_map, List.length_range', List.length_append] at hlength
  simp only [Dump.step]
  split_ifs with hrq
  · have := List.length_pos_of_ne_nil (hq hrq)
    omega
  · exact hle

/-- A request takes the first word of those that wait. -/
theorem queue_step (h : Generated buffer_size base s) (hp : Programmed buffer_size base i)
    (hq : s.dumper.write_fifo_rq = true → pop.contents s.popFifo ≠ []) :
    (pop.contents (s.step i).popFifo ++ (s.step i).arrivals).map tag =
      (List.range' (s.step i).popped ((s.step i).given-(s.step i).popped)).map
        (item buffer_size base) := by
  have hqueue := h.queue
  have hle := popped_step_le (i := i) h hq
  -- the words that wait before the new one comes
  have hwait : (pop.contents (s.step i).popFifo).map tag =
      (List.range' (s.step i).popped (s.given-(s.step i).popped)).map (item buffer_size base) := by
    rw [pop_contents_step hp.released h.toRoom]
    simp only [Dump.step]
    cases hrq : s.dumper.write_fifo_rq with
    | false => exact hqueue
    | true =>
      simp only [if_true]
      rw [← List.tail_append_of_ne_nil (hq hrq), List.map_tail, hqueue, ← List.map_tail,
        List.tail_range', Nat.sub_sub]
  rw [List.map_append, hwait, arrivals_step hsize h hp]
  simp only [show (s.step i).given =
    if takes (s.busInput i) s.master 4 then s.given+1 else s.given from rfl]
  split_ifs
  · rw [Nat.succ_sub hle, List.range'_1_concat, List.map_append, Nat.add_sub_cancel' hle]
    rfl
  · exact List.append_nil _

omit hsize in
/-- The output of the pop fifo changes with a request only. -/
theorem shown_step (h : Generated buffer_size base s) (hr : i.bus.reset_drives 4 = false)
    (hq : s.dumper.write_fifo_rq = true → pop.contents s.popFifo ≠ [])
    (hpos : 0 < (s.step i).popped) :
    tag (pop.q (s.step i).popFifo) = item buffer_size base ((s.step i).popped-1) := by
  simp only [Dump.step, DumpCore.step, hr] at hpos ⊢
  cases hrq : s.dumper.write_fifo_rq with
  | false =>
    rw [hrq] at hpos
    rw [pop.q_hold _ _ _ _ (Or.inl rfl)]
    exact h.shown hpos
  | true =>
    obtain ⟨x, xs, hx⟩ := List.exists_cons_of_ne_nil (hq hrq)
    have hqueue := h.queue
    rw [pop.q_step _ _ _ x xs hx]
    simp only [hx, List.cons_append, List.map_cons] at hqueue
    cases hn : s.given-s.popped with
    | zero => simp [hn] at hqueue
    | succ n =>
      rw [hn, List.range'_succ, List.map_cons] at hqueue
      exact (List.cons.inj hqueue).1

theorem generated_step (h : Generated buffer_size base s) (hp : Programmed buffer_size base i)
    (hq : s.dumper.write_fifo_rq = true → pop.contents s.popFifo ≠ []) :
    Generated buffer_size base (s.step i) where
  toRoom := room_step h.toRoom
  stop := by
    have hc := (step_channel (s.busInput i) s.master 4).dma_stop_address
    exact hc.trans (congrArg stopAddress hp.size)
  offset := by
    have hc := (step_channel (s.busInput i) s.master 4).address_offsets
    refine hc.trans ?_
    rw [show (s.busInput i).reset_drives 4 = false from hp.released, if_neg Bool.false_ne_true,
      nextOffset_eq hsize h hp, h.offset]
    simp only [Dump.step]
    split_ifs <;> rfl
  address := by
    have hc := (step_channel (s.busInput i) s.master 4).drv_cur_track_address
    refine hc.trans ?_
    rw [show (s.busInput i).reset_drives 4 = false from hp.released, if_neg Bool.false_ne_true,
      nextAddress_eq hsize h hp, h.address]
    simp only [Dump.step]
    split_ifs <;> rfl
  popped_le := by
    have hle := popped_step_le (i := i) h hq
    simp only [Dump.step] at hle ⊢
    split_ifs at hle ⊢ <;> omega
  queue := queue_step hsize h hp hq
  shown := shown_step h hp.released hq

end Generator

end Pauline.DumpPath
