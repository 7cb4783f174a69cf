import Mathlib.Data.BitVec
import Mathlib.Tactic

/-!
# The DMA master

The bus master of the core feeds the pop fifos of four emulated drives and of
the dumper, and writes what their push fifos hold to memory. One step is one
rising edge: every signal is read as it was before the edge, and of several
assignments to a signal the last one stays.
-/

set_option autoImplicit false

namespace Pauline.DmaMaster

abbrev LWord := BitVec 32

abbrev Channel := Fin 5

instance channelNeZero : NeZero 5 := ⟨by decide⟩

inductive MasterState
  | wait_write
  | wait_write_ws
  | wait_write2
  | wait_read
  | wait_read2
  | idle
deriving DecidableEq, Repr

structure Input where
  avm_m1_readdata : LWord
  avm_m1_waitrequest : Bool
  avm_m1_readdatavalid : Bool
  images_base_address : Channel → LWord
  images_track_size : Channel → LWord
  drv_cur_track_base_address : Channel → LWord
  enable_drives : Channel → Bool
  continuous_mode : Channel → Bool
  pop_fifo_almostfull : Channel → Bool
  push_fifo_empty : Channel → Bool
  push_fifo_out_data : Channel → LWord
  push_fifo_out_address : Channel → LWord
  reset_drives : Channel → Bool

structure Master where
  state_master_register : MasterState
  writedata : LWord
  busaddress : LWord
  avm_m1_read : Bool
  avm_m1_write : Bool
  avm_m1_burstcount : BitVec 8
  burst_count : BitVec 8
  read_wrrq_delay : Bool
  drive_index : Channel
  drv_cur_track_address : Channel → LWord
  address_offsets : Channel → LWord
  dma_stop_address : Channel → LWord
  done_q : Channel → Bool
  fifos_in_almostfull_index : Channel
  fifos_in_allfull : Bool
  fifos_out_empty_index : Channel
  filos_out_allempty : Bool
  pop_fifo_in_wr : Channel → Bool
  pop_fifo_in_address : Channel → LWord
  pop_fifo_in_data : Channel → LWord
  pop_fifo_in_status : Channel → BitVec 8
  push_fifo_out_rq : Channel → Bool

def Master.reset : Master where
  state_master_register := .idle
  writedata := 0xAAAAAA00
  busaddress := 900*1024*1024
  avm_m1_read := false
  avm_m1_write := false
  avm_m1_burstcount := 0
  burst_count := 0
  read_wrrq_delay := false
  drive_index := 0
  drv_cur_track_address _ := 0
  address_offsets _ := 0
  dma_stop_address _ := 0
  done_q _ := false
  fifos_in_almostfull_index := 0
  fifos_in_allfull := true
  fifos_out_empty_index := 0
  filos_out_allempty := true
  pop_fifo_in_wr _ := false
  pop_fifo_in_address _ := 0
  pop_fifo_in_data _ := 0
  pop_fifo_in_status _ := 0
  push_fifo_out_rq _ := false

def wantsWords (i : Input) (s : Master) (d : Channel) : Bool :=
  !i.pop_fifo_almostfull d && i.enable_drives d && (d == 4 || !s.done_q d)

def hasWord (i : Input) (s : Master) (d : Channel) : Bool :=
  !i.push_fifo_empty d && i.enable_drives d && (d == 4 || !s.done_q d) && !i.reset_drives d

def firstOf (p : Channel → Bool) : Channel × Bool :=
  if p 0 then (0, false)
  else if p 1 then (1, false)
  else if p 2 then (2, false)
  else if p 3 then (3, false)
  else if p 4 then (4, false)
  else (0, true)

theorem firstOf_spec (p : Channel → Bool) (h : (firstOf p).2 = false) :
    p (firstOf p).1 = true := by
  unfold firstOf at h ⊢
  split_ifs at h ⊢ <;> assumption

def stopAddress (images_track_size : LWord) : LWord :=
  if images_track_size ≥ 4 then images_track_size-4 else 0

theorem stopAddress_toNat (size : LWord) (h : 4 ≤ size.toNat) :
    (stopAddress size).toNat = size.toNat-4 := by
  have h4 : size ≥ 4 := by
    rw [ge_iff_le, BitVec.le_def]
    exact h
  simp only [stopAddress, if_pos h4]
  bv_omega

def burstField (dma_stop_address : LWord) : BitVec 8 := (dma_stop_address-512).extractLsb' 2 8

def burstLast (offset dma_stop_address : LWord) : BitVec 8 :=
  if offset < dma_stop_address-512 then 127 else burstField dma_stop_address

def anyEnabled (i : Input) : Bool :=
  i.enable_drives 0 || i.enable_drives 1 || i.enable_drives 2 || i.enable_drives 3 ||
    i.enable_drives 4

def startsRead (i : Input) (s : Master) : Bool := anyEnabled i && !s.fifos_in_allfull

def startsWrite (i : Input) (s : Master) : Bool :=
  anyEnabled i && s.fifos_in_allfull && !s.filos_out_allempty

def onIdle (i : Input) (s n : Master) : Master :=
  { n with
    read_wrrq_delay := false
    drive_index :=
      if startsRead i s then s.fifos_in_almostfull_index
      else if startsWrite i s then s.fifos_out_empty_index
      else s.drive_index
    push_fifo_out_rq :=
      if startsWrite i s then Function.update n.push_fifo_out_rq s.fifos_out_empty_index true
      else n.push_fifo_out_rq
    state_master_register :=
      if startsRead i s then .wait_read
      else if startsWrite i s then .wait_write_ws
      else .idle }

def onWaitWrite (i : Input) (s n : Master) : Master :=
  { n with
    writedata := i.push_fifo_out_data s.drive_index
    busaddress := i.push_fifo_out_address s.drive_index
    avm_m1_burstcount := 1
    avm_m1_write := true
    read_wrrq_delay := true
    state_master_register := .wait_write2 }

def onWaitWrite2 (i : Input) (n : Master) : Master :=
  { n with
    avm_m1_burstcount := 1
    avm_m1_write := i.avm_m1_waitrequest
    state_master_register := if i.avm_m1_waitrequest then .wait_write2 else .idle }

def onWaitRead (i : Input) (s n : Master) : Master :=
  let d := s.drive_index
  { n with
    busaddress := s.drv_cur_track_address d
    avm_m1_read := d != 4
    read_wrrq_delay := true
    avm_m1_burstcount := burstLast (s.address_offsets d) (s.dma_stop_address d) + 1
    burst_count := burstLast (s.address_offsets d) (s.dma_stop_address d)
    state_master_register :=
      if i.reset_drives d then .idle
      else if (s.read_wrrq_delay && !i.avm_m1_waitrequest) || d == 4 then .wait_read2
      else .wait_read }

def atEnd (s : Master) (d : Channel) : Bool := s.address_offsets d ≥ s.dma_stop_address d

def nextOffset (i : Input) (s : Master) (d : Channel) : LWord :=
  if atEnd s d then if i.continuous_mode d then 0 else s.dma_stop_address d
  else s.address_offsets d + 4

def nextAddress (i : Input) (s : Master) (d : Channel) : LWord :=
  if atEnd s d then
    if i.continuous_mode d then i.drv_cur_track_base_address d
    else i.drv_cur_track_base_address d + s.dma_stop_address d
  else s.drv_cur_track_address d + 4

def takeWord (i : Input) (s n : Master) : Master :=
  let d := s.drive_index
  let last := atEnd s d && !i.continuous_mode d
  { n with
    pop_fifo_in_address := Function.update n.pop_fifo_in_address d (s.drv_cur_track_address d)
    pop_fifo_in_data :=
      Function.update n.pop_fifo_in_data d (if d = 4 then 0 else i.avm_m1_readdata)
    pop_fifo_in_status := Function.update n.pop_fifo_in_status d (if last then 1 else 0)
    pop_fifo_in_wr := Function.update n.pop_fifo_in_wr d true
    address_offsets := Function.update n.address_offsets d (nextOffset i s d)
    drv_cur_track_address := Function.update n.drv_cur_track_address d (nextAddress i s d)
    done_q := Function.update n.done_q d (last || n.done_q d)
    burst_count := s.burst_count-1
    state_master_register :=
      if s.burst_count = 0 ∨ s.done_q d ∨ d = 4 then .idle else .wait_read2 }

def onWaitRead2 (i : Input) (s n : Master) : Master :=
  let n := if i.avm_m1_readdatavalid || s.drive_index == 4 then takeWord i s n else n
  { n with
    state_master_register :=
      if i.reset_drives s.drive_index then .idle else n.state_master_register }

def onState (i : Input) (s n : Master) : Master :=
  match s.state_master_register with
  | .idle => onIdle i s n
  | .wait_write_ws => { n with state_master_register := .wait_write }
  | .wait_write => onWaitWrite i s n
  | .wait_write2 => onWaitWrite2 i n
  | .wait_read => onWaitRead i s n
  | .wait_read2 => onWaitRead2 i s n

def defaults (i : Input) (s : Master) : Master :=
  { s with
    pop_fifo_in_wr := fun _ => false
    push_fifo_out_rq := fun _ => false
    avm_m1_read := false
    avm_m1_write := false
    done_q := fun d => i.enable_drives d && s.done_q d }

/-- A channel in reset is put back to the start of its image, whatever its
burst does. The other three processes follow. -/
def step (i : Input) (s : Master) : Master :=
  let n := onState i s (defaults i s)
  { n with
    drv_cur_track_address := fun d =>
      if i.reset_drives d then i.images_base_address d else n.drv_cur_track_address d
    address_offsets := fun d => if i.reset_drives d then 0 else n.address_offsets d
    fifos_in_almostfull_index := (firstOf (wantsWords i s)).1
    fifos_in_allfull := (firstOf (wantsWords i s)).2
    dma_stop_address := fun d => stopAddress (i.images_track_size d)
    fifos_out_empty_index := (firstOf (hasWord i s)).1
    filos_out_allempty := (firstOf (hasWord i s)).2 }

section Registers
variable (i : Input) (s : Master)

def takes (d : Channel) : Bool :=
  s.state_master_register = .wait_read2 && s.drive_index = d &&
    (i.avm_m1_readdatavalid || d == 4)

structure ChannelEdge (t : Master) (d : Channel) : Prop where
  pop_fifo_in_wr : t.pop_fifo_in_wr d = takes i s d
  pop_fifo_in_address : t.pop_fifo_in_address d =
    if takes i s d then s.drv_cur_track_address d else s.pop_fifo_in_address d
  pop_fifo_in_data : t.pop_fifo_in_data d =
    if takes i s d then if d = 4 then 0 else i.avm_m1_readdata else s.pop_fifo_in_data d
  pop_fifo_in_status : t.pop_fifo_in_status d =
    if takes i s d then if atEnd s d && !i.continuous_mode d then 1 else 0
    else s.pop_fifo_in_status d
  address_offsets : t.address_offsets d =
    if i.reset_drives d then 0
    else if takes i s d then nextOffset i s d
    else s.address_offsets d
  drv_cur_track_address : t.drv_cur_track_address d =
    if i.reset_drives d then i.images_base_address d
    else if takes i s d then nextAddress i s d
    else s.drv_cur_track_address d
  done_q : t.done_q d =
    (takes i s d && (atEnd s d && !i.continuous_mode d) || i.enable_drives d && s.done_q d)
  dma_stop_address : t.dma_stop_address d = stopAddress (i.images_track_size d)
  push_fifo_out_rq : t.push_fifo_out_rq d =
    (s.state_master_register = .idle && startsWrite i s && d = s.fifos_out_empty_index)

theorem step_channel (d : Channel) : ChannelEdge i s (step i s) d := by
  cases h : s.state_master_register with
  | wait_read2 =>
    rcases eq_or_ne d s.drive_index with rfl | hd <;>
      cases hv : i.avm_m1_readdatavalid || s.drive_index == 4 <;> constructor
    all_goals simp [step, onState, onWaitRead2, takes, takeWord, defaults, *]
    all_goals simp [hd.symm]
  | idle =>
    cases hw : startsWrite i s <;> constructor <;>
      simp [step, onState, h, onIdle, takes, defaults, hw, Function.update_apply]
  | _ =>
    constructor <;>
      simp [step, onState, h, onWaitWrite, onWaitWrite2, onWaitRead, takes, defaults]

structure BusEdge (t : Master) : Prop where
  state_master_register : t.state_master_register =
    match s.state_master_register with
    | .idle =>
      if startsRead i s then .wait_read else if startsWrite i s then .wait_write_ws else .idle
    | .wait_write_ws => .wait_write
    | .wait_write => .wait_write2
    | .wait_write2 => if i.avm_m1_waitrequest then .wait_write2 else .idle
    | .wait_read =>
      if i.reset_drives s.drive_index then .idle
      else if (s.read_wrrq_delay && !i.avm_m1_waitrequest) || s.drive_index == 4 then .wait_read2
      else .wait_read
    | .wait_read2 =>
      if i.reset_drives s.drive_index then .idle
      else if takes i s s.drive_index ∧
        (s.burst_count = 0 ∨ s.done_q s.drive_index ∨ s.drive_index = 4) then .idle
      else .wait_read2
  drive_index : t.drive_index =
    match s.state_master_register with
    | .idle =>
      if startsRead i s then s.fifos_in_almostfull_index
      else if startsWrite i s then s.fifos_out_empty_index
      else s.drive_index
    | _ => s.drive_index
  avm_m1_read : t.avm_m1_read = (s.state_master_register = .wait_read && s.drive_index != 4)
  avm_m1_write : t.avm_m1_write =
    (s.state_master_register = .wait_write ||
      s.state_master_register = .wait_write2 && i.avm_m1_waitrequest)
  busaddress : t.busaddress =
    match s.state_master_register with
    | .wait_read => s.drv_cur_track_address s.drive_index
    | .wait_write => i.push_fifo_out_address s.drive_index
    | _ => s.busaddress
  writedata : t.writedata =
    match s.state_master_register with
    | .wait_write => i.push_fifo_out_data s.drive_index
    | _ => s.writedata
  avm_m1_burstcount : t.avm_m1_burstcount =
    match s.state_master_register with
    | .wait_read =>
      burstLast (s.address_offsets s.drive_index) (s.dma_stop_address s.drive_index) + 1
    | .wait_write | .wait_write2 => 1
    | _ => s.avm_m1_burstcount
  burst_count : t.burst_count =
    match s.state_master_register with
    | .wait_read =>
      burstLast (s.address_offsets s.drive_index) (s.dma_stop_address s.drive_index)
    | _ => if takes i s s.drive_index then s.burst_count-1 else s.burst_count
  read_wrrq_delay : t.read_wrrq_delay =
    match s.state_master_register with
    | .idle => false
    | .wait_read | .wait_write => true
    | _ => s.read_wrrq_delay

theorem step_bus : BusEdge i s (step i s) := by
  cases h : s.state_master_register with
  | wait_read2 =>
    cases hv : i.avm_m1_readdatavalid || s.drive_index == 4 <;> constructor <;>
      simp [step, onState, h, onWaitRead2, hv, takes, takeWord, defaults]
  | _ =>
    constructor <;>
      simp [step, onState, h, onIdle, onWaitWrite, onWaitWrite2, onWaitRead, takes, defaults]

/-- The write command stands as long as the main process waits for the slave. -/
theorem write_iff : (step i s).avm_m1_write = true ↔
    (step i s).state_master_register = .wait_write2 := by
  rw [(step_bus i s).avm_m1_write, (step_bus i s).state_master_register]
  cases hm : s.state_master_register with
  | idle => split_ifs <;> simp
  | wait_read => split_ifs <;> simp
  | wait_read2 => split_ifs <;> simp
  | wait_write2 => cases i.avm_m1_waitrequest <;> simp
  | _ => simp

/-- A push fifo is asked for a word on the way into a write. -/
theorem request_iff (d : Channel) : (step i s).push_fifo_out_rq d = true ↔
    (step i s).drive_index = d ∧ (step i s).state_master_register = .wait_write_ws := by
  rw [(step_channel i s d).push_fifo_out_rq, (step_bus i s).state_master_register,
    (step_bus i s).drive_index]
  cases hm : s.state_master_register with
  | idle =>
    cases hread : startsRead i s with
    | true =>
      -- a read starts only where a pop fifo wants words, a write only where none does
      have hwrite : startsWrite i s = false := by
        simp only [startsRead, Bool.and_eq_true, Bool.not_eq_true'] at hread
        simp [startsWrite, hread.2]
      simp [hwrite]
    | false => cases startsWrite i s <;> simp [eq_comm]
  | wait_read => split_ifs <;> simp
  | wait_read2 => split_ifs <;> simp
  | wait_write2 => cases i.avm_m1_waitrequest <;> simp
  | _ => simp

end Registers

end Pauline.DmaMaster
