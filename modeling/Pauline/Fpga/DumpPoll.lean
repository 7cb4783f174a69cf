import Pauline.Dump.Capture
import Pauline.Fpga.DumpWrite

/-!
# Polling a dump

`get_next_available_stream_chunk` waits for the offset of the address
generator, not for the words. The words of the chunk it then converts may
still be on their way.
-/

set_option autoImplicit false

namespace Pauline.DumpPath
open Pauline.DmaMaster Pauline.FloppyDumper Pauline.DumpChunk Pauline.Capture Pauline.Track

variable {pop push : DumpFifo} {buffer_size base : LWord}

section Memory

def InMemory (base : LWord) (written : List (LWord × LWord)) (start stop : ℕ) : Prop :=
  ∀ k, start ≤ 4*k → 4*k < stop → base + BitVec.ofNat 32 (4*k) ∈ written.map Prod.fst

variable {s : Dump pop push}

theorem captured_length (h : Piped buffer_size base s) :
    s.captured.length = min (s.paired-1) (dataWords buffer_size) := by
  have := congrArg List.length h.addresses
  simpa using this

theorem captured_addresses (h : Piped buffer_size base s) :
    s.captured.map (·.word.address) =
      (List.range s.captured.length).map fun k => base + BitVec.ofNat 32 (4*k) := by
  rw [h.addresses, captured_length h]
  refine List.map_congr_left ?_
  intro k hk
  have := List.mem_range.mp hk
  rw [item, Nat.min_eq_left (by omega)]

/-- Without losses the first words captured are the words written. -/
theorem inMemory_of_written (h : OnDump buffer_size base s) (hlost : s.lost = []) {start n : ℕ}
    (hn : n ≤ s.written.length) : InMemory base s.written start (4*n) := by
  have hprefix : s.written.map Prod.fst <+: s.captured.map (·.word.address) := by
    have hwritten := (hlost ▸ h.delivery).delivered_isPrefix.map Prod.fst
    rwa [Dump.capturedPairs, List.map_map] at hwritten
  rw [captured_addresses h.toPiped] at hprefix
  have hlength := hprefix.length_le
  rw [List.length_map, List.length_map, List.length_range] at hlength
  intro k _ hk
  rw [List.prefix_iff_eq_take.mp hprefix, List.length_map, ← List.map_take, List.take_range]
  exact List.mem_map.mpr ⟨k, List.mem_range.mpr (by omega), rfl⟩

/-- A word in memory has been captured, and all words before it. -/
theorem captured_of_inMemory (hsize : buffer_size.toNat = 4*(dataWords buffer_size+1))
    (h : OnDump buffer_size base s) {start n : ℕ} (hstart : start < 4*n) (h4 : start % 4 = 0)
    (hn : n ≤ dataWords buffer_size) (hin : InMemory base s.written start (4*n)) :
    n ≤ s.captured.length := by
  have hlt := buffer_size.isLt
  have hle := captured_length h.toPiped
  have hlast := hin (n-1) (by omega) (by omega)
  have hmem : base + BitVec.ofNat 32 (4*(n-1)) ∈ s.captured.map (·.word.address) := by
    obtain ⟨w, hw, haddress⟩ := List.mem_map.mp hlast
    obtain ⟨c, hc, rfl⟩ := List.mem_map.mp (h.delivery.in_order.subset (List.mem_append_left _ hw))
    exact List.mem_map.mpr ⟨c, hc, haddress⟩
  rw [captured_addresses h.toPiped] at hmem
  obtain ⟨k, hk, haddress⟩ := List.mem_map.mp hmem
  have hk := List.mem_range.mp hk
  have hsame : BitVec.ofNat 32 (4*k) = BitVec.ofNat 32 (4*(n-1)) := by
    rw [← BitVec.add_right_inj base]
    exact haddress
  have hnat := congrArg BitVec.toNat hsame
  rw [BitVec.toNat_ofNat, BitVec.toNat_ofNat, Nat.mod_eq_of_lt (by omega),
    Nat.mod_eq_of_lt (by omega)] at hnat
  omega

theorem offset_toNat (hsize : buffer_size.toNat = 4*(dataWords buffer_size+1))
    (h : Generated buffer_size base s) :
    (s.master.address_offsets 4).toNat = 4*min s.given (dataWords buffer_size) := by
  have hlt := buffer_size.isLt
  rw [h.offset, BitVec.toNat_ofNat, Nat.mod_eq_of_lt (by omega)]

end Memory

structure DumpSession (pop push : DumpFifo) extends Dump pop push where
  last_dump_offset : ℕ

structure PollInput where
  dump : DumpInput
  polls : Bool
  index_timeout : Bool

namespace DumpSession

def waitEnds (s : DumpSession pop push) : Bool :=
  CHUNK_MAX_SIZE ≤ sub32 (s.master.address_offsets 4).toNat s.last_dump_offset ||
    s.master.done_q 4

def hands (buffer_size : LWord) (s : DumpSession pop push) : Bool :=
  s.waitEnds && decide (0 < chunkSize buffer_size.toNat s.last_dump_offset)

def chunkEnd (buffer_size : LWord) (s : DumpSession pop push) : ℕ :=
  s.last_dump_offset + (chunkSize buffer_size.toNat s.last_dump_offset).toNat

def step (i : PollInput) (s : DumpSession pop push) : DumpSession pop push where
  toDump := s.toDump.step i.dump
  last_dump_offset :=
    if i.polls && !i.index_timeout && s.hands (i.dump.bus.images_track_size 4) then
      s.chunkEnd (i.dump.bus.images_track_size 4) % 2^32
    else s.last_dump_offset

structure Polled (buffer_size base : LWord) (s : DumpSession pop push) : Prop
    extends OnDump buffer_size base s.toDump where
  done : s.master.done_q 4 = true → dataWords buffer_size ≤ s.given
  whole : s.last_dump_offset % 4 = 0
  behind : s.last_dump_offset ≤ 4*min s.given (dataWords buffer_size)

section Run
variable (hsize : buffer_size.toNat = 4*(dataWords buffer_size+1))
include hsize

variable {s : DumpSession pop push}

omit hsize in
theorem chunkEnd_pos (hh : s.hands buffer_size = true) :
    s.last_dump_offset < s.chunkEnd buffer_size := by
  rw [hands, Bool.and_eq_true, decide_eq_true_eq] at hh
  exact Nat.lt_add_of_pos_right (Int.pos_iff_toNat_pos.mp hh.2)

theorem chunkEnd_given (h : Polled buffer_size base s) (hh : s.hands buffer_size = true) :
    s.chunkEnd buffer_size % 4 = 0 ∧
      s.chunkEnd buffer_size ≤ 4*min s.given (dataWords buffer_size) := by
  have hlt := buffer_size.isLt
  have hoffset := offset_toNat hsize h.toGenerated
  have hbehind := h.behind
  have hwhole := h.whole
  have hready : sub32 (s.master.address_offsets 4).toNat s.last_dump_offset =
      4*min s.given (dataWords buffer_size)-s.last_dump_offset := by
    rw [hoffset]
    exact sub32_le _ _ (by omega) (by omega)
  have hchunk := chunkSize_eq hlt (show s.last_dump_offset+4 ≤ buffer_size.toNat by omega)
  have hmax : CHUNK_MAX_SIZE = 781248 := by decide
  simp only [hands, waitEnds, Bool.and_eq_true, Bool.or_eq_true, decide_eq_true_eq, hready] at hh
  obtain ⟨hwait, hpos⟩ := hh
  have hgiven := hwait.imp_right h.done
  rw [hchunk] at hpos
  rw [chunkEnd, hchunk, Int.toNat_natCast]
  unfold nextSize at hpos ⊢
  split_ifs at hpos ⊢ <;> omega

theorem polled_step {i : PollInput} (hp : Programmed buffer_size base i.dump)
    (h : Polled buffer_size base s) : Polled buffer_size base (s.step i) := by
  have hgiven : s.given ≤ (s.step i).given := by
    simp only [step, Dump.step]
    split_ifs <;> omega
  have hnext : (s.step i).last_dump_offset % 4 = 0 ∧
      (s.step i).last_dump_offset ≤ 4*min s.given (dataWords buffer_size) := by
    have hlt := buffer_size.isLt
    simp only [step, hp.size]
    split_ifs with hh
    · obtain ⟨h4, hle⟩ := chunkEnd_given hsize h (Bool.and_eq_true_iff.mp hh).2
      omega
    · exact ⟨h.whole, h.behind⟩
  constructor
  case toOnDump => exact onDump_step hsize hp h.toOnDump
  case done =>
    intro hdone
    have hc := (step_channel (s.busInput i.dump) s.master 4).done_q
    rw [show (s.step i).master.done_q 4 = _ from hc] at hdone
    simp only [Bool.or_eq_true, Bool.and_eq_true] at hdone
    rcases hdone with ⟨-, hend, -⟩ | ⟨-, hdone⟩
    · exact ((atEnd_iff hsize h.toGenerated).mp hend).trans hgiven
    · exact (h.done hdone).trans hgiven
  case whole => exact hnext.1
  case behind => omega

theorem done_step {i : PollInput} (hp : Programmed buffer_size base i.dump)
    (he : i.dump.bus.enable_drives 4 = true) (h : Generated buffer_size base s.toDump)
    (hdone : dataWords buffer_size < s.given → s.master.done_q 4 = true)
    (hgiven : dataWords buffer_size < (s.step i).given) : (s.step i).master.done_q 4 = true := by
  have hc := (step_channel (s.busInput i.dump) s.master 4).done_q
  have hcont : (s.busInput i.dump).continuous_mode 4 = false := hp.not_continuous
  have hen : (s.busInput i.dump).enable_drives 4 = true := he
  have hnext : (s.step i).given =
    if takes (s.busInput i.dump) s.master 4 then s.given+1 else s.given := rfl
  rw [show (s.step i).master.done_q 4 = _ from hc, hcont, hen]
  rw [hnext] at hgiven
  split_ifs at hgiven with ht
  · have hend : atEnd s.master 4 = true := (atEnd_iff hsize h).mpr (by omega)
    rw [ht, hend]
    rfl
  · rw [hdone hgiven]
    exact Bool.or_true _

end Run

end DumpSession

end Pauline.DumpPath
