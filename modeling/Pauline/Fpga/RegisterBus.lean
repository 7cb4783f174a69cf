import Pauline.Library.BitField
import Pauline.Fpga.DmaMaster

/-!
# The register bus

The slave `avs_s1` of the core: the registers are written in the clock in which
`avs_s1_write` is seen, a read takes three states. `avs_s1_waitrequest` is a
register that both share.
-/

set_option autoImplicit false

namespace Pauline.RegisterBus

open BitField

local instance driveNeZero : NeZero 4 := ⟨by decide⟩

/-! ## The registers -/

/-- The registers of 32 bits that can be written. Of some arrays the bus reaches
the first entries only; `in_mux_selectors_regs` are four to a word. -/
inductive Reg where
  | control_reg
  | images_base_address_busses (i : Fin 5)
  | images_track_size_busses (i : Fin 5)
  | in_signal_polarity_reg
  | out_signal_polarity_reg
  | images_max_track_regs (i : Fin 4)
  | drives_config_regs (i : Fin 4)
  | drives_index_len (i : Fin 4)
  | drives_track_index_start (i : Fin 4)
  | host_drv0_qdstopmotor_len
  | host_drv0_qdstopmotor_start
  | ctrl_control_reg
  | ctrl_steprate_reg
  | continuous_mode_reg
  | dump_delay_value
  | dump_timeout_value
  | gpio_reg
  | gpio_oe_reg
  | floppy_ctrl_extraouts_reg
  | floppy_outputs
  | host_outputs
  | in_mux_selectors_regs (i : Fin 5)
  | floppy_port_glitch_filter
  | host_port_glitch_filter
  | io_port_glitch_filter
  | invert_io_conf
  | sound_period
  | step_signal_width
  | step_phases_width
  | step_phases_stop_width
  | drives_datasep_config_regs
  | drives_datasep_config2_regs
  | drives_datasep_config3_regs
  | hs_index_positions (i : Fin 32)
deriving DecidableEq

structure Registers where
  word : Reg → BitVec 32
  ctrl_track_reg : BitVec 10
  ctrl_head_move_cmd : Bool
  ctrl_head_move_dir : Bool

structure Hardware where
  drv_cur_track_base_address : BitVec 32
  drv_cur_track_offsets : Fin 5 → BitVec 32
  floppy_i_trk00 : Bool
  floppy_i_data : Bool
  floppy_i_wpt : Bool
  floppy_i_index : Bool
  floppy_i_pin02 : Bool
  floppy_i_pin34 : Bool
  dump_timeout : Bool
  ctrl_curtrack_reg : BitVec 10
  ctrl_head_moving : Bool
  floppy_apple_motor_phase_pos : BitVec 2
  done_reg : BitVec 5
  push_fifo_empty : BitVec 5
  pop_fifo_empty : BitVec 5
  push_fifo_out_status : BitVec 5
  track_positions : Fin 4 → BitVec 8
  pop_fifo_empty_events : Fin 5 → BitVec 32
  push_fifo_full_events : Fin 5 → BitVec 32
  tris_io_din : BitVec 4
  ext_io_din : Bool
  external_int : Bool
  pushbuttons : BitVec 3
  floppy_inputs_q2 : BitVec 32
  host_inputs_q2 : BitVec 32

inductive Target where
  | reg (r : Reg)
  | headmove
deriving DecidableEq

def target (avs_s1_address : BitVec 7) : Option Target :=
  match avs_s1_address.toNat with
  | 0x00 => some (.reg .control_reg)
  | 0x01 => some (.reg (.images_base_address_busses 0))
  | 0x02 => some (.reg (.images_base_address_busses 1))
  | 0x03 => some (.reg (.images_base_address_busses 2))
  | 0x04 => some (.reg (.images_base_address_busses 3))
  | 0x05 => some (.reg (.images_track_size_busses 0))
  | 0x06 => some (.reg (.images_track_size_busses 1))
  | 0x07 => some (.reg (.images_track_size_busses 2))
  | 0x08 => some (.reg (.images_track_size_busses 3))
  | 0x09 => some (.reg .in_signal_polarity_reg)
  | 0x0A => some (.reg .out_signal_polarity_reg)
  | 0x0B => some (.reg (.images_max_track_regs 0))
  | 0x0C => some (.reg (.images_max_track_regs 1))
  | 0x0D => some (.reg (.images_max_track_regs 2))
  | 0x0E => some (.reg (.images_max_track_regs 3))
  | 0x14 => some (.reg (.drives_config_regs 0))
  | 0x15 => some (.reg (.drives_config_regs 1))
  | 0x16 => some (.reg (.drives_config_regs 2))
  | 0x17 => some (.reg (.drives_config_regs 3))
  | 0x18 => some (.reg (.drives_index_len 0))
  | 0x19 => some (.reg (.drives_index_len 1))
  | 0x1A => some (.reg (.drives_index_len 2))
  | 0x1B => some (.reg (.drives_index_len 3))
  | 0x1C => some (.reg (.drives_track_index_start 0))
  | 0x1D => some (.reg (.drives_track_index_start 1))
  | 0x1E => some (.reg (.drives_track_index_start 2))
  | 0x1F => some (.reg (.drives_track_index_start 3))
  | 0x20 => some (.reg .host_drv0_qdstopmotor_len)
  | 0x21 => some (.reg .host_drv0_qdstopmotor_start)
  | 0x23 => some (.reg .ctrl_control_reg)
  | 0x24 => some (.reg .ctrl_steprate_reg)
  | 0x25 => some .headmove
  | 0x27 => some (.reg (.images_base_address_busses 4))
  | 0x28 => some (.reg (.images_track_size_busses 4))
  | 0x2A => some (.reg .continuous_mode_reg)
  | 0x34 => some (.reg .dump_delay_value)
  | 0x35 => some (.reg .dump_timeout_value)
  | 0x40 => some (.reg .gpio_reg)
  | 0x41 => some (.reg .gpio_oe_reg)
  | 0x43 => some (.reg .floppy_ctrl_extraouts_reg)
  | 0x44 => some (.reg .floppy_outputs)
  | 0x45 => some (.reg .host_outputs)
  | 0x46 => some (.reg (.in_mux_selectors_regs 0))
  | 0x47 => some (.reg (.in_mux_selectors_regs 1))
  | 0x48 => some (.reg (.in_mux_selectors_regs 2))
  | 0x49 => some (.reg (.in_mux_selectors_regs 3))
  | 0x4A => some (.reg (.in_mux_selectors_regs 4))
  | 0x4B => some (.reg .floppy_port_glitch_filter)
  | 0x4C => some (.reg .host_port_glitch_filter)
  | 0x4D => some (.reg .io_port_glitch_filter)
  | 0x4E => some (.reg .invert_io_conf)
  | 0x4F => some (.reg .sound_period)
  | 0x50 => some (.reg .step_signal_width)
  | 0x51 => some (.reg .step_phases_width)
  | 0x52 => some (.reg .step_phases_stop_width)
  | 0x53 => some (.reg .drives_datasep_config_regs)
  | 0x54 => some (.reg .drives_datasep_config2_regs)
  | 0x55 => some (.reg .drives_datasep_config3_regs)
  | n => if 0x60 ≤ n then some (.reg (.hs_index_positions (Fin.ofNat 32 n))) else none

inductive Source where
  | reg (r : Reg)
  | control
  | headmove
  | track
  | signature
  | drv_cur_track_base_address
  | drv_cur_track_offsets (i : Fin 5)
  | status
  | track_positions (i : Fin 4)
  | pop_fifo_empty_events (i : Fin 5)
  | push_fifo_full_events (i : Fin 5)
  | pins
  | floppy_inputs
  | host_inputs
deriving DecidableEq

def source (avs_s1_address : BitVec 7) : Option Source :=
  match avs_s1_address.toNat with
  | 0x00 => some (.reg .control_reg)
  | 0x01 => some (.reg (.images_base_address_busses 0))
  | 0x02 => some (.reg (.images_base_address_busses 1))
  | 0x03 => some (.reg (.images_base_address_busses 2))
  | 0x04 => some (.reg (.images_base_address_busses 3))
  | 0x05 => some (.reg (.images_track_size_busses 0))
  | 0x06 => some (.reg (.images_track_size_busses 1))
  | 0x07 => some (.reg (.images_track_size_busses 2))
  | 0x08 => some (.reg (.images_track_size_busses 3))
  | 0x09 => some (.reg .in_signal_polarity_reg)
  | 0x0A => some (.reg .out_signal_polarity_reg)
  | 0x0B => some (.reg (.images_max_track_regs 0))
  | 0x0C => some (.reg (.images_max_track_regs 1))
  | 0x0D => some (.reg (.images_max_track_regs 2))
  | 0x0E => some (.reg (.images_max_track_regs 3))
  | 0x0F => some .drv_cur_track_base_address
  | 0x10 => some (.drv_cur_track_offsets 0)
  | 0x14 => some (.reg (.drives_config_regs 0))
  | 0x15 => some (.reg (.drives_config_regs 1))
  | 0x16 => some (.reg (.drives_config_regs 2))
  | 0x17 => some (.reg (.drives_config_regs 3))
  | 0x18 => some (.reg (.drives_index_len 0))
  | 0x19 => some (.reg (.drives_index_len 1))
  | 0x1A => some (.reg (.drives_index_len 2))
  | 0x1B => some (.reg (.drives_index_len 3))
  | 0x1C => some (.reg (.drives_track_index_start 0))
  | 0x1D => some (.reg (.drives_track_index_start 1))
  | 0x1E => some (.reg (.drives_track_index_start 2))
  | 0x1F => some (.reg (.drives_track_index_start 3))
  | 0x20 => some (.reg .host_drv0_qdstopmotor_len)
  | 0x21 => some (.reg .host_drv0_qdstopmotor_start)
  | 0x22 => some .signature
  | 0x23 => some .control
  | 0x24 => some (.reg .ctrl_steprate_reg)
  | 0x25 => some .headmove
  | 0x26 => some .track
  | 0x27 => some (.reg (.images_base_address_busses 4))
  | 0x28 => some (.reg (.images_track_size_busses 4))
  | 0x29 => some (.drv_cur_track_offsets 4)
  | 0x2A => some (.reg .continuous_mode_reg)
  | 0x2B => some .status
  | 0x2C => some (.track_positions 0)
  | 0x2D => some (.track_positions 1)
  | 0x2E => some (.track_positions 2)
  | 0x2F => some (.track_positions 3)
  | 0x30 => some (.drv_cur_track_offsets 0)
  | 0x31 => some (.drv_cur_track_offsets 1)
  | 0x32 => some (.drv_cur_track_offsets 2)
  | 0x33 => some (.drv_cur_track_offsets 3)
  | 0x34 => some (.reg .dump_delay_value)
  | 0x35 => some (.reg .dump_timeout_value)
  | 0x36 => some (.pop_fifo_empty_events 0)
  | 0x37 => some (.pop_fifo_empty_events 1)
  | 0x38 => some (.pop_fifo_empty_events 2)
  | 0x39 => some (.pop_fifo_empty_events 3)
  | 0x3A => some (.pop_fifo_empty_events 4)
  | 0x3B => some (.push_fifo_full_events 0)
  | 0x3C => some (.push_fifo_full_events 1)
  | 0x3D => some (.push_fifo_full_events 2)
  | 0x3E => some (.push_fifo_full_events 3)
  | 0x3F => some (.push_fifo_full_events 4)
  | 0x40 => some (.reg .gpio_reg)
  | 0x41 => some (.reg .gpio_oe_reg)
  | 0x42 => some .pins
  | 0x43 => some (.reg .floppy_ctrl_extraouts_reg)
  | 0x44 => some .floppy_inputs
  | 0x45 => some .host_inputs
  | 0x46 => some (.reg (.in_mux_selectors_regs 0))
  | 0x47 => some (.reg (.in_mux_selectors_regs 1))
  | 0x48 => some (.reg (.in_mux_selectors_regs 2))
  | 0x49 => some (.reg (.in_mux_selectors_regs 3))
  | 0x4A => some (.reg (.in_mux_selectors_regs 4))
  | 0x4B => some (.reg .floppy_port_glitch_filter)
  | 0x4C => some (.reg .host_port_glitch_filter)
  | 0x4D => some (.reg .io_port_glitch_filter)
  | 0x4E => some (.reg .invert_io_conf)
  | 0x4F => some (.reg .sound_period)
  | 0x50 => some (.reg .step_signal_width)
  | 0x51 => some (.reg .step_phases_width)
  | 0x52 => some (.reg .step_phases_stop_width)
  | 0x53 => some (.reg .drives_datasep_config_regs)
  | 0x54 => some (.reg .drives_datasep_config2_regs)
  | 0x55 => some (.reg .drives_datasep_config3_regs)
  | n => if 0x60 ≤ n then some (.reg (.hs_index_positions (Fin.ofNat 32 n))) else none

/-- The new value of `avs_s1_readdata`. Of `headmove` and `track` the bits that
are not assigned stay as they are. -/
def Source.data (regs : Registers) (h : Hardware) (avs_s1_readdata : BitVec 32) :
    Source → BitVec 32
  | .reg r => regs.word r
  | .control =>
    let x := regs.word .ctrl_control_reg
    let x := put x 6 (BitVec.ofBool h.floppy_i_trk00)
    let x := put x 7 (BitVec.ofBool h.floppy_i_data)
    let x := put x 8 (BitVec.ofBool h.floppy_i_wpt)
    let x := put x 9 (BitVec.ofBool h.floppy_i_index)
    let x := put x 10 (BitVec.ofBool h.floppy_i_pin02)
    let x := put x 11 (BitVec.ofBool h.floppy_i_pin34)
    put x 24 (BitVec.ofBool h.dump_timeout)
  | .headmove =>
    let x := put avs_s1_readdata 0 h.ctrl_curtrack_reg
    let x := put x 16 (BitVec.ofBool h.ctrl_head_moving)
    let x := put x 17 (BitVec.ofBool regs.ctrl_head_move_dir)
    put x 18 h.floppy_apple_motor_phase_pos
  | .track => put avs_s1_readdata 0 regs.ctrl_track_reg
  | .signature => 0xAA55A5F1
  | .drv_cur_track_base_address => h.drv_cur_track_base_address
  | .drv_cur_track_offsets i => h.drv_cur_track_offsets i
  | .status =>
    let x := put 0 0 h.done_reg
    let x := put x 5 (BitVec.ofBool h.dump_timeout)
    let x := put x 8 h.push_fifo_empty
    let x := put x 16 h.pop_fifo_empty
    put x 24 h.push_fifo_out_status
  | .track_positions i => (h.track_positions i).setWidth 32
  | .pop_fifo_empty_events i => h.pop_fifo_empty_events i
  | .push_fifo_full_events i => h.push_fifo_full_events i
  | .pins =>
    let x := put 0 2 h.tris_io_din
    let x := put x 6 (BitVec.ofBool h.ext_io_din)
    let x := put x 7 (BitVec.ofBool h.external_int)
    put x 8 h.pushbuttons
  | .floppy_inputs => h.floppy_inputs_q2
  | .host_inputs => h.host_inputs_q2

/-! ## The slave -/

structure Signals where
  avs_s1_write : Bool
  avs_s1_read : Bool
  avs_s1_byteenable : BitVec 4
  avs_s1_address : BitVec 7
  avs_s1_writedata : BitVec 32
deriving DecidableEq

def Registers.write (i : Signals) (regs : Registers) : Registers :=
  match target i.avs_s1_address with
  | some (.reg r) =>
    { regs with
      word := Function.update regs.word r
        (writeBytes i.avs_s1_byteenable i.avs_s1_writedata (regs.word r)) }
  | some .headmove =>
    let low := if i.avs_s1_byteenable.getLsbD 0 then
        put regs.ctrl_track_reg 0 (i.avs_s1_writedata.extractLsb' 0 8) else regs.ctrl_track_reg
    { regs with
      ctrl_track_reg := if i.avs_s1_byteenable.getLsbD 1 then
        put low 8 (i.avs_s1_writedata.extractLsb' 8 2) else low
      ctrl_head_move_cmd := if i.avs_s1_byteenable.getLsbD 2 then
        i.avs_s1_writedata.getLsbD 16 else regs.ctrl_head_move_cmd
      ctrl_head_move_dir := if i.avs_s1_byteenable.getLsbD 2 then
        i.avs_s1_writedata.getLsbD 17 else regs.ctrl_head_move_dir }
  | none => regs

inductive ReadState where
  | wait_state_read
  | state_decodread
  | read_register
deriving DecidableEq

structure Slave where
  avs_s1_waitrequest : Bool
  state_read_register : ReadState
  avs_s1_readdata : BitVec 32
  regs : Registers

/-- A clock edge. The last assignment to `avs_s1_waitrequest` counts: an access
is acknowledged by a write, or by the read side where it decodes the address. -/
def Slave.step (h : Hardware) (i : Signals) (s : Slave) : Slave :=
  let regs := { s.regs with ctrl_head_move_cmd := false }
  let n : Slave := { s with
    avs_s1_waitrequest := !i.avs_s1_write
    regs := if i.avs_s1_write then regs.write i else regs }
  match s.state_read_register with
  | .wait_state_read =>
    if i.avs_s1_read then { n with state_read_register := .state_decodread } else n
  | .state_decodread =>
    match source i.avs_s1_address with
    | some src => { n with
        avs_s1_readdata := src.data s.regs h s.avs_s1_readdata
        avs_s1_waitrequest := false
        state_read_register := .read_register }
    | none => { n with state_read_register := .read_register }
  | .read_register => { n with state_read_register := .wait_state_read }

end Pauline.RegisterBus
