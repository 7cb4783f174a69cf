import Pauline.Library.Clocked
import Pauline.Library.SyncFifo
import Pauline.Fpga.DmaMaster

/-!
# The index flag of a word

The index generators compare the offset of the DMA master while the master takes
a word. Both go through one register, so that the flag written to the status fifo
is the one of the word written beside it.
-/

set_option autoImplicit false

namespace Pauline.IndexFlag
open Pauline.DmaMaster

/-! ## The circuit -/

def trackIndex (track_length index_length start_track_index current_position : LWord) : Bool :=
  if start_track_index + index_length > track_length then
    if current_position ≥ start_track_index then true
    else current_position < start_track_index + index_length - track_length
  else if current_position ≥ start_track_index then
    current_position < start_track_index + index_length
  else false

structure FetchedWord where
  offset : LWord
  address : LWord
  data : LWord
deriving Inhabited, DecidableEq

abbrev WordFifo := SyncFifo FetchedWord 4096 3968

abbrev StatusFifo := SyncFifo (BitVec 8) 4096 3968

structure IndexInput extends Input where
  drives_index_len : Channel → LWord
  drives_track_index_start : Channel → LWord
  /-- `drives_config_regs(0)` -/
  drives_config_reg : BitVec 32
  hs_index_positions : Fin 32 → LWord
  host_drv0_qdstopmotor_len : LWord
  host_drv0_qdstopmotor_start : LWord
  read_fifo_rq : Channel → Bool

structure IndexPath (f : WordFifo) (g : StatusFifo) where
  master : Master
  index_state : Channel → Bool
  hs_index_state : Fin 32 → Bool
  qd_stopmotor_state : Bool
  /-- The offset of the word on the input of a pop fifo. -/
  offset : Channel → LWord
  words : Channel → f.State
  status : Channel → g.State

section Model
variable {f : WordFifo} {g : StatusFifo}

def hsIndex (i : IndexInput) (s : IndexPath f g) : Bool :=
  (∃ k, s.hs_index_state k = true) && i.drives_config_reg.getLsbD 27

def statusByte (i : IndexInput) (s : IndexPath f g) (d : Channel) : BitVec 8 :=
  0#6 ++ BitVec.ofBool s.qd_stopmotor_state ++
    BitVec.ofBool (s.index_state d || (hsIndex i s && i.drives_config_reg.getLsbD 28))

def IndexPath.step (i : IndexInput) (s : IndexPath f g) : IndexPath f g where
  master := DmaMaster.step i.toInput s.master
  index_state d := trackIndex (i.images_track_size d) (i.drives_index_len d)
    (i.drives_track_index_start d) (s.master.address_offsets d)
  hs_index_state k := trackIndex (i.images_track_size 0) (i.drives_index_len 0)
    (i.hs_index_positions k) (s.master.address_offsets 0)
  qd_stopmotor_state := trackIndex (i.images_track_size 0) i.host_drv0_qdstopmotor_len
    i.host_drv0_qdstopmotor_start (s.master.address_offsets 0)
  offset d := s.master.address_offsets d
  words d := f.step (i.reset_drives d) (s.master.pop_fifo_in_wr d)
    ⟨s.offset d,s.master.pop_fifo_in_address d,s.master.pop_fifo_in_data d⟩ (i.read_fifo_rq d)
    (s.words d)
  status d := g.step (i.reset_drives d) (s.master.pop_fifo_in_wr d) (statusByte i s d)
    (i.read_fifo_rq d) (s.status d)

end Model

/-! ## The window -/

structure Window where
  size : LWord
  start : LWord
  len : LWord
  start_lt : start.toNat < size.toNat
  len_le : len.toNat ≤ size.toNat
  fits : start.toNat + len.toNat < 2^32

def Window.Covers (w : Window) (offset : LWord) : Prop :=
  ((offset.toNat : ℤ) - w.start.toNat) % w.size.toNat < w.len.toNat

theorem trackIndex_iff (w : Window) (o : LWord) (ho : o.toNat < w.size.toNat) :
    trackIndex w.size w.len w.start o = true ↔ w.Covers o := by
  have hstart := w.start_lt
  have hlen := w.len_le
  have hfits := w.fits
  have hsum : (w.start + w.len).toNat = w.start.toNat + w.len.toNat := by
    rw [BitVec.toNat_add]
    exact Nat.mod_eq_of_lt hfits
  have hpast : w.start + w.len > w.size ↔ w.size.toNat < w.start.toNat + w.len.toNat := by
    rw [gt_iff_lt, BitVec.lt_def, hsum]
  have hfrom : o ≥ w.start ↔ w.start.toNat ≤ o.toNat := by rw [ge_iff_le, BitVec.le_def]
  unfold trackIndex Window.Covers
  by_cases hge : w.start.toNat ≤ o.toNat
  · have hmod : ((o.toNat : ℤ) - w.start.toNat) % w.size.toNat = o.toNat - w.start.toNat :=
      Int.emod_eq_of_lt (by omega) (by omega)
    rw [if_pos (hfrom.mpr hge), if_pos (hfrom.mpr hge), hmod]
    by_cases hp : w.size.toNat < w.start.toNat + w.len.toNat
    · rw [if_pos (hpast.mpr hp)]
      simp only [true_iff]
      omega
    · rw [if_neg (fun h => hp (hpast.mp h)), decide_eq_true_eq, BitVec.lt_def, hsum]
      omega
  · have hmod : ((o.toNat : ℤ) - w.start.toNat) % w.size.toNat =
        o.toNat - w.start.toNat + w.size.toNat := by
      rw [← Int.add_emod_right]
      exact Int.emod_eq_of_lt (by omega) (by omega)
    rw [if_neg (fun h => hge (hfrom.mp h)), if_neg (fun h => hge (hfrom.mp h)), hmod]
    by_cases hp : w.size.toNat < w.start.toNat + w.len.toNat
    · have hrest : (w.start + w.len - w.size).toNat =
          w.start.toNat + w.len.toNat - w.size.toNat := by
        rw [BitVec.toNat_sub, hsum]
        omega
      rw [if_pos (hpast.mpr hp), decide_eq_true_eq, BitVec.lt_def, hrest]
      omega
    · rw [if_neg (fun h => hp (hpast.mp h))]
      simp only [Bool.false_eq_true, false_iff]
      omega

/-! ## Every clock -/

structure Held {f : WordFifo} {g : StatusFifo} (w : Window) (d : Channel) (i : IndexInput)
    (_ : IndexPath f g) : Prop where
  size : i.images_track_size d = w.size
  len : i.drives_index_len d = w.len
  start : i.drives_track_index_start d = w.start
  soft : i.drives_config_reg.getLsbD 27 = false

def Marked (w : Window) (word : FetchedWord) (status : BitVec 8) : Prop :=
  word.offset.toNat < w.size.toNat ∧ (status.getLsbD 0 = true ↔ w.Covers word.offset)

def Stops (w : Window) (stop : LWord) : Prop := stop = stopAddress w.size ∨ stop = 0

structure InStep {f : WordFifo} {g : StatusFifo} (w : Window) (d : Channel) (s : IndexPath f g) :
    Prop where
  offset : (s.master.address_offsets d).toNat < w.size.toNat
  stop : Stops w (s.master.dma_stop_address d)
  arriving : s.master.pop_fifo_in_wr d = true → (s.offset d).toNat < w.size.toNat ∧
    s.index_state d = trackIndex w.size w.len w.start (s.offset d)
  stored : List.Forall₂ (Marked w) (f.contents (s.words d)) (g.contents (s.status d))

structure Started {f : WordFifo} {g : StatusFifo} (w : Window) (d : Channel) (s : IndexPath f g) :
    Prop where
  offset : s.master.address_offsets d = 0
  stop : Stops w (s.master.dma_stop_address d)
  quiet : s.master.pop_fifo_in_wr d = false
  words : f.contents (s.words d) = []
  status : g.contents (s.status d) = []

theorem Stops.lt {w : Window} {stop : LWord} (h : Stops w stop) : stop.toNat < w.size.toNat := by
  have hsize := w.start_lt
  rcases h with rfl | rfl
  · unfold stopAddress
    split_ifs with h4
    · bv_omega
    · show 0 < w.size.toNat
      omega
  · show 0 < w.size.toNat
    omega

theorem Stops.next_lt {w : Window} {stop o : LWord} (h : Stops w stop)
    (ho : o.toNat < stop.toNat) : (o + 4).toNat < w.size.toNat := by
  rcases h with rfl | rfl
  · unfold stopAddress at ho
    split_ifs at ho with h4
    · bv_omega
    · exact absurd ho (Nat.not_lt_zero _)
  · exact absurd ho (Nat.not_lt_zero _)

section Step
variable {f : WordFifo} {g : StatusFifo} {w : Window} {d : Channel} {i : IndexInput}
  {s : IndexPath f g}

theorem Started.inStep (h : Started w d s) : InStep w d s where
  offset := by
    have hsize := w.start_lt
    rw [h.offset]
    show 0 < w.size.toNat
    omega
  stop := h.stop
  arriving := fun hw => by
    rw [h.quiet] at hw
    cases hw
  stored := by
    rw [h.words, h.status]
    exact List.Forall₂.nil

theorem nextOffset_lt (h : InStep w d s) :
    (nextOffset i.toInput s.master d).toNat < w.size.toNat := by
  have hsize := w.start_lt
  unfold nextOffset atEnd
  split_ifs with hend hcont
  · show 0 < w.size.toNat
    omega
  · exact h.stop.lt
  · rw [decide_eq_true_eq, ge_iff_le, BitVec.le_def, Nat.not_le] at hend
    exact h.stop.next_lt hend

theorem InStep.offset_step (h : InStep w d s) :
    ((s.step i).master.address_offsets d).toNat < w.size.toNat := by
  have hsize := w.start_lt
  show ((DmaMaster.step i.toInput s.master).address_offsets d).toNat < w.size.toNat
  rw [(step_channel i.toInput s.master d).address_offsets]
  split_ifs
  · show 0 < w.size.toNat
    omega
  · exact nextOffset_lt h
  · exact h.offset

/-- With the hard sector mode off the status shows the index of the drive. -/
theorem statusByte_index (hi : Held w d i s) : (statusByte i s d).getLsbD 0 = s.index_state d := by
  have hs : hsIndex i s = false := by rw [hsIndex, hi.soft, Bool.and_false]
  rw [statusByte, hs, Bool.false_and, Bool.or_false]
  cases s.qd_stopmotor_state <;> cases s.index_state d <;> rfl

theorem InStep.marked (h : InStep w d s) (hi : Held w d i s)
    (hw : s.master.pop_fifo_in_wr d = true) :
    Marked w ⟨s.offset d,s.master.pop_fifo_in_address d,s.master.pop_fifo_in_data d⟩
      (statusByte i s d) := by
  obtain ⟨hlt, hflag⟩ := h.arriving hw
  refine ⟨hlt,?_⟩
  rw [statusByte_index hi, hflag]
  exact trackIndex_iff w _ hlt

theorem inStep_step (h : InStep w d s) (hi : Held w d i s) : InStep w d (s.step i) where
  offset := h.offset_step
  stop := Or.inl (by
    show (DmaMaster.step i.toInput s.master).dma_stop_address d = _
    rw [(step_channel i.toInput s.master d).dma_stop_address, hi.size])
  arriving := fun _ => ⟨h.offset,by
    show trackIndex (i.images_track_size d) (i.drives_index_len d) (i.drives_track_index_start d)
      (s.master.address_offsets d) = _
    rw [hi.size, hi.len, hi.start]
    rfl⟩
  stored := f.forall₂_step g _ _ _ (fun hw => h.marked hi hw) h.stored

end Step

/-- In every run the word fetched at an offset has its index flag beside it
exactly when the offset is in the window. -/
theorem words_marked (f : WordFifo) (g : StatusFifo) (w : Window) (d : Channel)
    (s t : IndexPath f g) (hs : Started w d s)
    (hrun : Clocked.Reach IndexPath.step (Held w d) s t) :
    List.Forall₂ (Marked w) (f.contents (t.words d)) (g.contents (t.status d)) :=
  (hrun.invariant (InStep w d) hs.inStep fun _ _ hi h => inStep_step h hi).stored

def overTheEnd : Window := ⟨16,12,8,by decide,by decide,by decide⟩

def atFirst : IndexPath (SyncFifo.ofList FetchedWord 4096 3968)
    (SyncFifo.ofList (BitVec 8) 4096 3968) where
  master := { Master.reset with state_master_register := .wait_read2, burst_count := 127 }
  index_state _ := false
  hs_index_state _ := false
  qd_stopmotor_state := false
  offset _ := 0
  words _ := ([],default)
  status _ := ([],default)

def nextWord : IndexInput where
  avm_m1_readdata := 7
  avm_m1_waitrequest := false
  avm_m1_readdatavalid := true
  images_base_address _ := 0
  images_track_size _ := 16
  drv_cur_track_base_address _ := 0
  enable_drives _ := true
  continuous_mode _ := true
  pop_fifo_almostfull _ := false
  push_fifo_empty _ := true
  push_fifo_out_data _ := 0
  push_fifo_out_address _ := 0
  reset_drives _ := false
  drives_index_len _ := 8
  drives_track_index_start _ := 12
  drives_config_reg := 0
  hs_index_positions _ := 0
  host_drv0_qdstopmotor_len := 0
  host_drv0_qdstopmotor_start := 0
  read_fifo_rq _ := false

def sixthWord : IndexPath (SyncFifo.ofList FetchedWord 4096 3968)
    (SyncFifo.ofList (BitVec 8) 4096 3968) :=
  (List.replicate 6 nextWord).foldl (fun s i => s.step i) atFirst

theorem nextWord_held (s : IndexPath (SyncFifo.ofList FetchedWord 4096 3968)
    (SyncFifo.ofList (BitVec 8) 4096 3968)) : Held overTheEnd 0 nextWord s :=
  ⟨rfl,rfl,rfl,rfl⟩

theorem words_marked_five : List.Forall₂ (Marked overTheEnd)
    [⟨0,0,7⟩,⟨0,0,7⟩,⟨4,4,7⟩,⟨8,8,7⟩,⟨12,12,7⟩] [1,1,0,0,1] := by
  have hstart : Started overTheEnd 0 atFirst := ⟨rfl,Or.inr rfl,rfl,rfl,rfl⟩
  have hrun : Clocked.Reach IndexPath.step (Held overTheEnd 0) atFirst sixthWord :=
    Clocked.Reach.run _ (fun _ hi s => List.eq_of_mem_replicate hi ▸ nextWord_held s) atFirst
  have hwords : (SyncFifo.ofList FetchedWord 4096 3968).contents (sixthWord.words 0) =
      [⟨0,0,7⟩,⟨0,0,7⟩,⟨4,4,7⟩,⟨8,8,7⟩,⟨12,12,7⟩] := by decide +kernel
  have hstatus : (SyncFifo.ofList (BitVec 8) 4096 3968).contents (sixthWord.status 0) =
      [1,1,0,0,1] := by decide +kernel
  rw [← hwords, ← hstatus]
  exact words_marked _ _ overTheEnd 0 atFirst sixthWord hstart hrun

end Pauline.IndexFlag
