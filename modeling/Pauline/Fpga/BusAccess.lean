import Pauline.Fpga.RegisterBus

/-!
# Accesses to the registers

A master of the register bus holds an access until it is acknowledged. Seen from
there the registers are words at the addresses of the bus, written byte by byte:
the accesses are served as if they were made of such a memory one after the
other, if and only if none comes directly behind a write and none reads where
the read side decodes nothing.
-/

set_option autoImplicit false

namespace Pauline.RegisterBus

open BitField

/-! ## The memory of the master -/

abbrev Memory := BitVec 7 → BitVec 32

def Memory.write (i : Signals) (m : Memory) : Memory :=
  Function.update m i.avs_s1_address
    (writeBytes i.avs_s1_byteenable i.avs_s1_writedata (m i.avs_s1_address))

/-- What the map of the registers says of an address: a register that is read as
it is written, the control register with status bits in it, the command of the
stepper, its count, anything else. -/
inductive Kind where
  | word
  | control
  | headmove
  | curtrack
  | other
deriving DecidableEq

def kind (a : BitVec 7) : Kind :=
  if a = 0x23#7 then .control
  else if a = 0x25#7 then .headmove
  else if a = 0x26#7 then .curtrack
  else if a.toNat < 0x0F ∨ 0x14 ≤ a.toNat ∧ a.toNat < 0x22 ∨
      a.toNat ∈ [0x24, 0x27, 0x28, 0x2A, 0x34, 0x35, 0x40, 0x41, 0x43] ∨
      0x46 ≤ a.toNat ∧ a.toNat < 0x56 ∨ 0x60 ≤ a.toNat then .word
  else .other

def StatusBit (i : ℕ) : Prop := 6 ≤ i ∧ i < 12 ∨ i = 24

def Memory.Returns (m : Memory) (a : BitVec 7) (data : BitVec 32) : Prop :=
  match kind a with
  | .word => data = m a
  | .control => ∀ i < 32, ¬ StatusBit i → data.getLsbD i = (m a).getLsbD i
  | .headmove => data.getLsbD 17 = (m a).getLsbD 17
  | .curtrack => data.extractLsb' 0 10 = (m 0x25#7).extractLsb' 0 10
  | .other => True

structure Agrees (regs : Registers) (m : Memory) : Prop where
  word : ∀ a r, target a = some (.reg r) → regs.word r = m a
  track : regs.ctrl_track_reg = (m 0x25#7).extractLsb' 0 10
  dir : regs.ctrl_head_move_dir = (m 0x25#7).getLsbD 17

def Registers.memory (regs : Registers) : Memory := fun a =>
  match target a with
  | some (.reg r) => regs.word r
  | some .headmove => put (put 0 0 regs.ctrl_track_reg) 17 (BitVec.ofBool regs.ctrl_head_move_dir)
  | none => 0

/-! ## The two decoders -/

def Target.address : Target → BitVec 7
  | .headmove => 0x25
  | .reg r => match r with
    | .control_reg => 0x00
    | .images_base_address_busses i => if i = 4 then 0x27 else 0x01 + BitVec.ofNat 7 i
    | .images_track_size_busses i => if i = 4 then 0x28 else 0x05 + BitVec.ofNat 7 i
    | .in_signal_polarity_reg => 0x09
    | .out_signal_polarity_reg => 0x0A
    | .images_max_track_regs i => 0x0B + BitVec.ofNat 7 i
    | .drives_config_regs i => 0x14 + BitVec.ofNat 7 i
    | .drives_index_len i => 0x18 + BitVec.ofNat 7 i
    | .drives_track_index_start i => 0x1C + BitVec.ofNat 7 i
    | .host_drv0_qdstopmotor_len => 0x20
    | .host_drv0_qdstopmotor_start => 0x21
    | .ctrl_control_reg => 0x23
    | .ctrl_steprate_reg => 0x24
    | .continuous_mode_reg => 0x2A
    | .dump_delay_value => 0x34
    | .dump_timeout_value => 0x35
    | .gpio_reg => 0x40
    | .gpio_oe_reg => 0x41
    | .floppy_ctrl_extraouts_reg => 0x43
    | .floppy_outputs => 0x44
    | .host_outputs => 0x45
    | .in_mux_selectors_regs i => 0x46 + BitVec.ofNat 7 i
    | .floppy_port_glitch_filter => 0x4B
    | .host_port_glitch_filter => 0x4C
    | .io_port_glitch_filter => 0x4D
    | .invert_io_conf => 0x4E
    | .sound_period => 0x4F
    | .step_signal_width => 0x50
    | .step_phases_width => 0x51
    | .step_phases_stop_width => 0x52
    | .drives_datasep_config_regs => 0x53
    | .drives_datasep_config2_regs => 0x54
    | .drives_datasep_config3_regs => 0x55
    | .hs_index_positions i => 0x60 + BitVec.ofNat 7 i

theorem target_address_all :
    ∀ a : BitVec 7, (target a).all (fun t => t.address == a) = true := by
  decide +kernel

theorem target_address {a : BitVec 7} {t : Target} (h : target a = some t) : t.address = a := by
  have hall := target_address_all a
  simpa [h] using hall

theorem target_injective {a b : BitVec 7} {t : Target} (ha : target a = some t)
    (hb : target b = some t) : a = b :=
  (target_address ha).symm.trans (target_address hb)

def sameReg (a : BitVec 7) : Bool :=
  match target a, source a with
  | some (.reg r), some (.reg r') => r = r'
  | _, _ => false

theorem sameReg_all : ∀ a : BitVec 7, kind a = .word → sameReg a = true := by
  decide +kernel

theorem word_decoded {a : BitVec 7} (h : kind a = .word) :
    ∃ r, target a = some (.reg r) ∧ source a = some (.reg r) := by
  have hsame := sameReg_all a h
  unfold sameReg at hsame
  split at hsame
  · rename_i r r' ht hs
    have hr : r = r' := by simpa using hsame
    exact ⟨r,ht,hr ▸ hs⟩
  · exact absurd hsame (by decide)

theorem kind_address : ∀ a : BitVec 7, (kind a = .control → a = 0x23#7) ∧
    (kind a = .headmove → a = 0x25#7) ∧ (kind a = .curtrack → a = 0x26#7) := by
  decide +kernel

theorem target_headmove : target 0x25#7 = some .headmove := by decide

theorem target_control : target 0x23#7 = some (.reg .ctrl_control_reg) := by decide

/-! ## The registers and the memory -/

variable {regs : Registers} {m : Memory}

theorem memory_agrees (regs : Registers) : Agrees regs regs.memory := by
  constructor
  · intro a r h
    simp [Registers.memory, h]
  · apply BitVec.eq_of_getLsbD_eq
    intro i hi
    have hi' : i < 32 := by omega
    have hlow : ¬ (17 ≤ i ∧ i < 18) := by omega
    simp [Registers.memory, target_headmove, hi, hi', hlow]
  · simp [Registers.memory, target_headmove]

/-- The clock ends the pulse of the command before the write. -/
theorem Agrees.cleared (h : Agrees regs m) (cmd : Bool) :
    Agrees { regs with ctrl_head_move_cmd := cmd } m :=
  ⟨h.word,h.track,h.dir⟩

theorem write_other (i : Signals) (m : Memory) {a : BitVec 7} (h : a ≠ i.avs_s1_address) :
    m.write i a = m a := by
  simp [Memory.write, h]

theorem write_same (i : Signals) (m : Memory) :
    m.write i i.avs_s1_address =
      writeBytes i.avs_s1_byteenable i.avs_s1_writedata (m i.avs_s1_address) := by
  simp [Memory.write]

theorem write_twice (i : Signals) (m : Memory) : (m.write i).write i = m.write i := by
  funext a
  by_cases ha : a = i.avs_s1_address
  · rw [ha, write_same, write_same, writeBytes_twice]
  · rw [write_other i _ ha]

theorem track_bytes (be : BitVec 4) (data x : BitVec 32) (track : BitVec 10)
    (h : track = x.extractLsb' 0 10) :
    (if be.getLsbD 1 then
        put (if be.getLsbD 0 then put track 0 (data.extractLsb' 0 8) else track) 8
          (data.extractLsb' 8 2)
      else if be.getLsbD 0 then put track 0 (data.extractLsb' 0 8) else track) =
      (writeBytes be data x).extractLsb' 0 10 := by
  apply BitVec.eq_of_getLsbD_eq
  intro i hi
  have hi' : i < 32 := by omega
  have hx : track.getLsbD i = x.getLsbD i := by
    rw [h, BitVec.getLsbD_extractLsb']
    simp [hi]
  rw [BitVec.getLsbD_extractLsb', Nat.zero_add, getLsbD_writeBytes _ _ _ _ hi', ← hx]
  by_cases hbyte : i < 8
  · have hdiv : i / 8 = 0 := by omega
    rw [hdiv]
    generalize be.getLsbD 0 = low
    cases low <;> cases be.getLsbD 1 <;> simp [hi, hbyte]
  · have hdiv : i / 8 = 1 := by omega
    have hin : 8 ≤ i ∧ i < 8 + 2 := by omega
    have hpos : i - 8 < 2 := by omega
    have hsum : 8 + (i - 8) = i := by omega
    rw [hdiv]
    generalize be.getLsbD 1 = high
    cases high <;> cases be.getLsbD 0 <;> simp [hi, hbyte, hin, hpos, hsum]

/-- The write side does to the registers what the write does to the memory. -/
theorem Agrees.write (h : Agrees regs m) (i : Signals) : Agrees (regs.write i) (m.write i) := by
  cases ht : target i.avs_s1_address with
  | none =>
    have hne : ∀ a t, target a = some t → a ≠ i.avs_s1_address := by
      rintro a t ha rfl
      simp [ht] at ha
    have hregs : regs.write i = regs := by simp [Registers.write, ht]
    have hhead := hne _ _ target_headmove
    rw [hregs]
    constructor
    · intro a r ha
      rw [write_other i m (hne a _ ha)]
      exact h.word a r ha
    · rw [write_other i m hhead]
      exact h.track
    · rw [write_other i m hhead]
      exact h.dir
  | some t =>
    cases t with
    | reg r =>
      have hhead : 0x25#7 ≠ i.avs_s1_address := by
        intro heq
        rw [← heq, target_headmove] at ht
        simp at ht
      constructor
      · intro a r' ha
        by_cases hr : r' = r
        · have haddress : a = i.avs_s1_address := target_injective (hr ▸ ha) ht
          rw [haddress, write_same, ← h.word _ _ ht, hr]
          simp [Registers.write, ht]
        · have haddress : a ≠ i.avs_s1_address := by
            rintro rfl
            rw [ht] at ha
            exact hr (by simpa using ha.symm)
          rw [write_other i m haddress, ← h.word a r' ha]
          simp [Registers.write, ht, hr]
      · rw [write_other i m hhead, ← h.track]
        simp [Registers.write, ht]
      · rw [write_other i m hhead, ← h.dir]
        simp [Registers.write, ht]
    | headmove =>
      have haddress : i.avs_s1_address = 0x25#7 := target_injective ht target_headmove
      have hnew : m.write i 0x25#7 =
          writeBytes i.avs_s1_byteenable i.avs_s1_writedata (m 0x25#7) := by
        rw [← haddress]
        exact write_same i m
      constructor
      · intro a r ha
        have hne : a ≠ i.avs_s1_address := by
          rintro rfl
          simp [ht] at ha
        rw [write_other i m hne, ← h.word a r ha]
        simp [Registers.write, ht]
      · rw [hnew, ← track_bytes _ _ _ _ h.track]
        simp [Registers.write, ht]
      · rw [hnew, getLsbD_writeBytes _ _ _ _ (by decide), ← h.dir]
        simp [Registers.write, ht]

/-- The read side returns what is in the memory. -/
theorem Agrees.returns (h : Agrees regs m) (hw : Hardware) (old : BitVec 32) {a : BitVec 7}
    {src : Source} (hs : source a = some src) : m.Returns a (src.data regs hw old) := by
  obtain ⟨hcontrol, hheadmove, hcurtrack⟩ := kind_address a
  unfold Memory.Returns
  cases hk : kind a with
  | word =>
    obtain ⟨r, ht, hsource⟩ := word_decoded hk
    have hsrc : src = .reg r := by simpa [hsource] using hs.symm
    rw [hsrc]
    exact h.word a r ht
  | control =>
    have ha := hcontrol hk
    have hsrc : source 0x23#7 = some .control := by decide
    have hreg := h.word 0x23#7 _ target_control
    rw [ha, hsrc] at hs
    obtain rfl : Source.control = src := by simpa using hs
    intro i hi hstatus
    unfold StatusBit at hstatus
    have h6 : ¬ (6 ≤ i ∧ i < 6 + 1) := by omega
    have h7 : ¬ (7 ≤ i ∧ i < 7 + 1) := by omega
    have h8 : ¬ (8 ≤ i ∧ i < 8 + 1) := by omega
    have h9 : ¬ (9 ≤ i ∧ i < 9 + 1) := by omega
    have h10 : ¬ (10 ≤ i ∧ i < 10 + 1) := by omega
    have h11 : ¬ (11 ≤ i ∧ i < 11 + 1) := by omega
    have h24 : ¬ (24 ≤ i ∧ i < 24 + 1) := by omega
    simp only [Source.data, getLsbD_put _ _ _ _ hi, h6, h7, h8, h9, h10, h11, h24, if_false,
      hreg, ha]
  | headmove =>
    have ha := hheadmove hk
    have hsrc : source 0x25#7 = some .headmove := by decide
    rw [ha, hsrc] at hs
    obtain rfl : Source.headmove = src := by simpa using hs
    simp [Source.data, ha, h.dir]
  | curtrack =>
    have ha := hcurtrack hk
    have hsrc : source 0x26#7 = some .track := by decide
    rw [ha, hsrc] at hs
    obtain rfl : Source.track = src := by simpa using hs
    dsimp only
    rw [← h.track]
    apply BitVec.eq_of_getLsbD_eq
    intro i hi
    have hi' : i < 32 := by omega
    simp [Source.data, hi, hi']
  | other => trivial

/-! ## A clock of the slave -/

def Signals.present (i : Signals) : Bool := i.avs_s1_write || i.avs_s1_read

theorem step_regs (h : Hardware) (i : Signals) (s : Slave) :
    (s.step h i).regs =
      if i.avs_s1_write then Registers.write i { s.regs with ctrl_head_move_cmd := false }
      else { s.regs with ctrl_head_move_cmd := false } := by
  unfold Slave.step
  cases s.state_read_register with
  | wait_state_read => cases i.avs_s1_read <;> cases i.avs_s1_write <;> rfl
  | state_decodread => cases source i.avs_s1_address <;> cases i.avs_s1_write <;> rfl
  | read_register => cases i.avs_s1_write <;> rfl

theorem step_agrees {s : Slave} (h : Hardware) (i : Signals) (hs : Agrees s.regs m) :
    Agrees (s.step h i).regs (if i.avs_s1_write then m.write i else m) := by
  have hclear := hs.cleared false
  rw [step_regs]
  split
  · exact hclear.write i
  · exact hclear

theorem step_wait {s : Slave} (h : Hardware) (i : Signals)
    (hs : s.state_read_register = .wait_state_read) :
    (s.step h i).avs_s1_waitrequest = !i.avs_s1_write ∧
      (s.step h i).state_read_register =
        if i.avs_s1_read then .state_decodread else .wait_state_read := by
  unfold Slave.step
  cases i.avs_s1_read <;> simp [hs]

theorem step_done {s : Slave} (h : Hardware) (i : Signals)
    (hs : s.state_read_register = .read_register) :
    (s.step h i).avs_s1_waitrequest = !i.avs_s1_write ∧
      (s.step h i).state_read_register = .wait_state_read := by
  unfold Slave.step
  simp [hs]

theorem step_decode {s : Slave} (h : Hardware) (i : Signals) {src : Source}
    (hs : s.state_read_register = .state_decodread) (hsrc : source i.avs_s1_address = some src) :
    (s.step h i).avs_s1_waitrequest = false ∧
      (s.step h i).state_read_register = .read_register ∧
      (s.step h i).avs_s1_readdata = src.data s.regs h s.avs_s1_readdata := by
  unfold Slave.step
  simp [hs, hsrc]

theorem step_decode_none {s : Slave} (h : Hardware) (i : Signals)
    (hs : s.state_read_register = .state_decodread) (hsrc : source i.avs_s1_address = none) :
    (s.step h i).avs_s1_waitrequest = !i.avs_s1_write := by
  unfold Slave.step
  simp [hs, hsrc]

theorem step_write {s : Slave} (h : Hardware) (i : Signals) (hi : i.avs_s1_write = true) :
    (s.step h i).avs_s1_waitrequest = false := by
  unfold Slave.step
  cases s.state_read_register with
  | wait_state_read => cases i.avs_s1_read <;> simp [hi]
  | state_decodread => cases source i.avs_s1_address <;> simp [hi]
  | read_register => simp [hi]

/-! ## The master -/

/-- The slave with what a master sees of it: the access it has to hold, whether
it has just completed a write, and the memory its completed writes make up. -/
structure Bus where
  slave : Slave
  held : Option Signals
  wrote : Bool
  memory : Memory

def Bus.step (h : Hardware) (i : Signals) (b : Bus) : Bus where
  slave := b.slave.step h i
  held := if i.present && b.slave.avs_s1_waitrequest then some i else none
  wrote := i.avs_s1_write && !b.slave.avs_s1_waitrequest
  memory := if i.avs_s1_write && !b.slave.avs_s1_waitrequest then b.memory.write i else b.memory

def Bus.run (hw : ℕ → Hardware) (is : ℕ → Signals) (b : Bus) : ℕ → Bus
  | 0 => b
  | n+1 => (b.run hw is n).step (hw n) (is n)

def Bus.start (regs : Registers) (avs_s1_readdata : BitVec 32) : Bus where
  slave := ⟨true,.wait_state_read,avs_s1_readdata,regs⟩
  held := none
  wrote := false
  memory := regs.memory

def Legal (hw : ℕ → Hardware) (is : ℕ → Signals) (b : Bus) : Prop :=
  ∀ n, ((is n).avs_s1_write && (is n).avs_s1_read) = false ∧
    ∀ i ∈ (b.run hw is n).held, is n = i

/-- The accesses are served: the read of a register comes to its end, and
returns what the completed writes have left; what acknowledges an access is its
own, as the slave has had the access before it; and the read side acknowledges
every read it decodes. -/
structure Serves (hw : ℕ → Hardware) (is : ℕ → Signals) (b : Bus) : Prop where
  completes : ∀ n, (is n).avs_s1_read = true → kind (is n).avs_s1_address ≠ .other →
    ∃ m, n ≤ m ∧ (∀ k, n ≤ k → k ≤ m → is k = is n) ∧
      (b.run hw is m).slave.avs_s1_waitrequest = false
  returns : ∀ n, (is n).avs_s1_read = true →
    (b.run hw is n).slave.avs_s1_waitrequest = false →
    (b.run hw is n).memory.Returns (is n).avs_s1_address (b.run hw is n).slave.avs_s1_readdata
  owned : ∀ n, (is n).present = true → (b.run hw is n).slave.avs_s1_waitrequest = false →
    (b.run hw is n).held = some (is n)
  answers : ∀ n, (is n).avs_s1_read = true →
    (b.run hw is n).slave.state_read_register = .state_decodread →
    (b.run hw is (n+1)).slave.avs_s1_waitrequest = false

def Careful (i : Signals) (b : Bus) : Prop :=
  (i.present = true → b.wrote = false) ∧
    (i.avs_s1_read = true → (source i.avs_s1_address).isSome = true)

inductive Stage (b : Bus) : Prop where
  | idle (hheld : b.held = none)
    (hstate : b.slave.state_read_register = .wait_state_read)
    (hwait : b.slave.avs_s1_waitrequest = true ∨ b.wrote = true)
    (hregs : Agrees b.slave.regs b.memory)
  | writing (i : Signals) (hheld : b.held = some i) (hw : i.avs_s1_write = true)
    (hr : i.avs_s1_read = false)
    (hstate : b.slave.state_read_register = .wait_state_read)
    (hwait : b.slave.avs_s1_waitrequest = false)
    (hregs : Agrees b.slave.regs (b.memory.write i))
  | decoding (i : Signals) (hheld : b.held = some i) (hw : i.avs_s1_write = false)
    (hr : i.avs_s1_read = true)
    (hstate : b.slave.state_read_register = .state_decodread)
    (hwait : b.slave.avs_s1_waitrequest = true)
    (hregs : Agrees b.slave.regs b.memory)
  | reading (i : Signals) (hheld : b.held = some i) (hw : i.avs_s1_write = false)
    (hr : i.avs_s1_read = true)
    (hsource : (source i.avs_s1_address).isSome = true)
    (hstate : b.slave.state_read_register = .read_register)
    (hwait : b.slave.avs_s1_waitrequest = false)
    (hregs : Agrees b.slave.regs b.memory)
    (hdata : b.memory.Returns i.avs_s1_address b.slave.avs_s1_readdata)

theorem start_stage (regs : Registers) (avs_s1_readdata : BitVec 32) :
    Stage (Bus.start regs avs_s1_readdata) :=
  .idle rfl rfl (Or.inl rfl) (memory_agrees regs)

theorem Stage.step {b : Bus} (hb : Stage b) (h : Hardware) (i : Signals)
    (hone : (i.avs_s1_write && i.avs_s1_read) = false) (hheld : ∀ j ∈ b.held, i = j)
    (hcareful : Careful i b) : Stage (b.step h i) := by
  cases hb with
  | idle hnone hstate hwait hregs =>
    obtain ⟨hnext, hdecode⟩ := step_wait h i hstate
    have hagrees := step_agrees h i hregs
    cases hw : i.avs_s1_write with
    | true =>
      have hr : i.avs_s1_read = false := by simpa [hw] using hone
      have hbusy : b.slave.avs_s1_waitrequest = true := by
        have hfirst := hcareful.1 (by simp [Signals.present, hw])
        exact hwait.resolve_right (by simp [hfirst])
      apply Stage.writing i
      · simp [Bus.step, Signals.present, hw, hbusy]
      · exact hw
      · exact hr
      · simpa [Bus.step, hr] using hdecode
      · simpa [Bus.step, hw] using hnext
      · simpa [Bus.step, hw, hbusy] using hagrees
    | false =>
      cases hr : i.avs_s1_read with
      | true =>
        have hbusy : b.slave.avs_s1_waitrequest = true := by
          have hfirst := hcareful.1 (by simp [Signals.present, hr])
          exact hwait.resolve_right (by simp [hfirst])
        apply Stage.decoding i
        · simp [Bus.step, Signals.present, hr, hbusy]
        · exact hw
        · exact hr
        · simpa [Bus.step, hr] using hdecode
        · simpa [Bus.step, hw] using hnext
        · simpa [Bus.step, hw] using hagrees
      | false =>
        apply Stage.idle
        · simp [Bus.step, Signals.present, hw, hr]
        · simpa [Bus.step, hr] using hdecode
        · exact Or.inl (by simpa [Bus.step, hw] using hnext)
        · simpa [Bus.step, hw] using hagrees
  | writing j hj hw hr hstate hwait hregs =>
    obtain rfl := hheld j hj
    obtain ⟨hnext, hdecode⟩ := step_wait h i hstate
    -- the second clock writes the same bytes again
    have hagrees := step_agrees h i hregs
    rw [if_pos hw, write_twice] at hagrees
    apply Stage.idle
    · simp [Bus.step, hwait]
    · simpa [Bus.step, hr] using hdecode
    · exact Or.inr (by simp [Bus.step, hw, hwait])
    · simpa [Bus.step, hw, hwait] using hagrees
  | decoding j hj hw hr hstate hwait hregs =>
    obtain rfl := hheld j hj
    have hsource := hcareful.2 hr
    obtain ⟨src, hsrc⟩ := Option.isSome_iff_exists.mp hsource
    obtain ⟨hnext, hdone, hdata⟩ := step_decode h i hstate hsrc
    have hagrees := step_agrees h i hregs
    rw [hw] at hagrees
    apply Stage.reading i
    · simp [Bus.step, Signals.present, hr, hwait]
    · exact hw
    · exact hr
    · exact hsource
    · exact hdone
    · exact hnext
    · simpa [Bus.step, hw] using hagrees
    · have hreturns := hregs.returns h b.slave.avs_s1_readdata hsrc
      simpa [Bus.step, hw, hdata] using hreturns
  | reading j hj hw hr hsource hstate hwait hregs hdata =>
    obtain rfl := hheld j hj
    obtain ⟨hnext, hdecode⟩ := step_done h i hstate
    have hagrees := step_agrees h i hregs
    rw [hw] at hagrees
    apply Stage.idle
    · simp [Bus.step, hwait]
    · exact hdecode
    · exact Or.inl (by simpa [Bus.step, hw] using hnext)
    · simpa [Bus.step, hw] using hagrees

section Run
variable {hw : ℕ → Hardware} {is : ℕ → Signals} {b : Bus}

theorem run_stage (hb : Stage b) (hlegal : Legal hw is b) (n : ℕ)
    (hcareful : ∀ k < n, Careful (is k) (b.run hw is k)) : Stage (b.run hw is n) := by
  induction n with
  | zero => exact hb
  | succ n ih =>
    have hstage := ih fun k hk => hcareful k (by omega)
    exact hstage.step (hw n) (is n) (hlegal n).1 (hlegal n).2 (hcareful n (by omega))

/-- The acknowledge of a write is still up in the clock behind it. -/
theorem run_wrote (hb : b.wrote = false) (n : ℕ) (hwrote : (b.run hw is n).wrote = true) :
    (b.run hw is n).slave.avs_s1_waitrequest = false ∧ (b.run hw is n).held = none := by
  cases n with
  | zero => exact absurd hwrote (by simp [Bus.run, hb])
  | succ n =>
    obtain ⟨hwrite, hack⟩ : (is n).avs_s1_write = true ∧
        (b.run hw is n).slave.avs_s1_waitrequest = false := by
      simpa [Bus.run, Bus.step] using hwrote
    constructor
    · exact step_write (hw n) (is n) hwrite
    · simp [Bus.run, Bus.step, hack]

theorem present_of_read {i : Signals} (h : i.avs_s1_read = true) : i.present = true := by
  simp [Signals.present, h]

theorem Serves.careful (hs : Serves hw is b) (hwrote : b.wrote = false) (hb : Stage b)
    (hlegal : Legal hw is b) (n : ℕ) : Careful (is n) (b.run hw is n) := by
  induction n using Nat.strong_induction_on with
  | _ n ih =>
  have hstage := run_stage hb hlegal n ih
  have hfirst : (is n).present = true → (b.run hw is n).wrote = false := by
    intro hpresent
    by_contra hnot
    obtain ⟨hack, hnone⟩ := run_wrote hwrote n (by simpa using hnot)
    have howned := hs.owned n hpresent hack
    rw [hnone] at howned
    simp at howned
  refine ⟨hfirst,fun hread => ?_⟩
  by_contra hnone
  have hsource : source (is n).avs_s1_address = none := by simpa using hnone
  have hnowrite : (is n).avs_s1_write = false := by simpa [hread] using (hlegal n).1
  cases hstage with
  | idle hheld hstate hwait hregs =>
    -- the decoder is reached in the next clock, with the same address
    have hbusy : (b.run hw is n).slave.avs_s1_waitrequest = true :=
      hwait.resolve_right (by simp [hfirst (present_of_read hread)])
    have hhold : (b.run hw is (n+1)).held = some (is n) := by
      simp [Bus.run, Bus.step, present_of_read hread, hbusy]
    have hsame : is (n+1) = is n := (hlegal (n+1)).2 _ hhold
    have hdecode : (b.run hw is (n+1)).slave.state_read_register = .state_decodread := by
      simpa [Bus.run, Bus.step, hread] using (step_wait (hw n) (is n) hstate).2
    have hanswer := hs.answers (n+1) (by rw [hsame]; exact hread) hdecode
    have hsilent := step_decode_none (hw (n+1)) (is (n+1)) hdecode (by rw [hsame]; exact hsource)
    have hstill : (is (n+1)).avs_s1_write = false := by
      rw [hsame]
      exact hnowrite
    rw [hstill] at hsilent
    have hnext : (b.run hw is (n+1+1)).slave.avs_s1_waitrequest = true := hsilent
    simp [hnext] at hanswer
  | writing i hheld hwi hri hstate hwait hregs =>
    have hsame := (hlegal n).2 i hheld
    rw [hsame, hri] at hread
    simp at hread
  | decoding i hheld hwi hri hstate hwait hregs =>
    have hanswer := hs.answers n hread hstate
    have hsilent := step_decode_none (hw n) (is n) hstate hsource
    rw [hnowrite] at hsilent
    have hnext : (b.run hw is (n+1)).slave.avs_s1_waitrequest = true := hsilent
    simp [hnext] at hanswer
  | reading i hheld hwi hri hsome hstate hwait hregs hdata =>
    have hsame := (hlegal n).2 i hheld
    rw [hsame] at hsource
    simp [hsource] at hsome

/-- A read that is held is acknowledged within two clocks. -/
theorem read_completes (hb : Stage b) (hlegal : Legal hw is b)
    (hcareful : ∀ n, Careful (is n) (b.run hw is n)) (n : ℕ)
    (hread : (is n).avs_s1_read = true) :
    ∃ m, n ≤ m ∧ (∀ k, n ≤ k → k ≤ m → is k = is n) ∧
      (b.run hw is m).slave.avs_s1_waitrequest = false := by
  have hstage := fun n => run_stage hb hlegal n fun k _ => hcareful k
  have hnow : (b.run hw is n).slave.avs_s1_waitrequest = false →
      ∃ m, n ≤ m ∧ (∀ k, n ≤ k → k ≤ m → is k = is n) ∧
        (b.run hw is m).slave.avs_s1_waitrequest = false := by
    intro hack
    refine ⟨n,le_refl n,fun k hk hle => ?_,hack⟩
    rw [le_antisymm hle hk]
  -- from the decoder on, at any clock
  have hdecoder : ∀ n, (is n).avs_s1_read = true →
      (b.run hw is n).slave.state_read_register = .state_decodread →
      (b.run hw is (n+1)).slave.avs_s1_waitrequest = false := by
    intro n hread hstate
    obtain ⟨src, hsrc⟩ := Option.isSome_iff_exists.mp ((hcareful n).2 hread)
    exact (step_decode (hw n) (is n) hstate hsrc).1
  cases hstage n with
  | idle hheld hstate hwait hregs =>
    have hbusy : (b.run hw is n).slave.avs_s1_waitrequest = true :=
      hwait.resolve_right (by simp [(hcareful n).1 (present_of_read hread)])
    have hhold : (b.run hw is (n+1)).held = some (is n) := by
      simp [Bus.run, Bus.step, present_of_read hread, hbusy]
    have hsame : is (n+1) = is n := (hlegal (n+1)).2 _ hhold
    have hread' : (is (n+1)).avs_s1_read = true := by
      rw [hsame]
      exact hread
    have hnowrite : (is n).avs_s1_write = false := by simpa [hread] using (hlegal n).1
    obtain ⟨hnext, hdecode⟩ := step_wait (hw n) (is n) hstate
    have hstate' : (b.run hw is (n+1)).slave.state_read_register = .state_decodread := by
      simpa [Bus.run, Bus.step, hread] using hdecode
    have hbusy' : (b.run hw is (n+1)).slave.avs_s1_waitrequest = true := by
      simpa [Bus.run, Bus.step, hnowrite] using hnext
    have hhold' : (b.run hw is (n+1+1)).held = some (is (n+1)) := by
      show (if (is (n+1)).present && (b.run hw is (n+1)).slave.avs_s1_waitrequest
        then some (is (n+1)) else none) = _
      simp [present_of_read hread', hbusy']
    have hsame' : is (n+1+1) = is (n+1) := (hlegal (n+1+1)).2 _ hhold'
    refine ⟨n+1+1,by omega,fun k hk hle => ?_,hdecoder (n+1) hread' hstate'⟩
    obtain rfl | rfl | rfl : k = n ∨ k = n+1 ∨ k = n+1+1 := by omega
    · rfl
    · exact hsame
    · exact hsame'.trans hsame
  | writing i hheld hwi hri hstate hwait hregs => exact hnow hwait
  | decoding i hheld hwi hri hstate hwait hregs =>
    have hhold : (b.run hw is (n+1)).held = some (is n) := by
      simp [Bus.run, Bus.step, present_of_read hread, hwait]
    have hsame : is (n+1) = is n := (hlegal (n+1)).2 _ hhold
    refine ⟨n+1,by omega,fun k hk hle => ?_,hdecoder n hread hstate⟩
    obtain rfl | rfl : k = n ∨ k = n+1 := by omega
    · rfl
    · exact hsame
  | reading i hheld hwi hri hsome hstate hwait hregs hdata => exact hnow hwait

theorem careful_serves (hb : Stage b) (hlegal : Legal hw is b)
    (hcareful : ∀ n, Careful (is n) (b.run hw is n)) : Serves hw is b := by
  have hstage := fun n => run_stage hb hlegal n fun k _ => hcareful k
  constructor
  · intro n hread _
    exact read_completes hb hlegal hcareful n hread
  · intro n hread hack
    cases hstage n with
    | idle hheld hstate hwait hregs =>
      have hwrote := hwait.resolve_left (by simp [hack])
      simp [(hcareful n).1 (present_of_read hread)] at hwrote
    | writing i hheld hwi hri hstate hwait hregs =>
      rw [(hlegal n).2 i hheld, hri] at hread
      simp at hread
    | decoding i hheld hwi hri hstate hwait hregs => simp [hack] at hwait
    | reading i hheld hwi hri hsome hstate hwait hregs hdata =>
      rw [(hlegal n).2 i hheld]
      exact hdata
  · intro n hpresent hack
    cases hstage n with
    | idle hheld hstate hwait hregs =>
      have hwrote := hwait.resolve_left (by simp [hack])
      simp [(hcareful n).1 hpresent] at hwrote
    | writing i hheld hwi hri hstate hwait hregs => rw [hheld, (hlegal n).2 i hheld]
    | decoding i hheld hwi hri hstate hwait hregs => simp [hack] at hwait
    | reading i hheld hwi hri hsome hstate hwait hregs hdata => rw [hheld, (hlegal n).2 i hheld]
  · intro n hread hstate
    obtain ⟨src, hsrc⟩ := Option.isSome_iff_exists.mp ((hcareful n).2 hread)
    exact (step_decode (hw n) (is n) hstate hsrc).1

end Run

/-- The accesses of a legal master are served if and only if they are careful. -/
theorem serves_iff (hw : ℕ → Hardware) (is : ℕ → Signals) (regs : Registers)
    (avs_s1_readdata : BitVec 32) (hlegal : Legal hw is (Bus.start regs avs_s1_readdata)) :
    Serves hw is (Bus.start regs avs_s1_readdata) ↔
      ∀ n, Careful (is n) ((Bus.start regs avs_s1_readdata).run hw is n) := by
  have hb := start_stage regs avs_s1_readdata
  constructor
  · intro hserves
    exact hserves.careful rfl hb hlegal
  · exact careful_serves hb hlegal

def noAccess : Signals := ⟨false,false,0,0,0⟩

def signals (script : List Signals) (n : ℕ) : Signals := script.getD n noAccess

theorem signals_legal (script : List Signals) (hw : ℕ → Hardware) (b : Bus)
    (hone : ∀ i ∈ script, (i.avs_s1_write && i.avs_s1_read) = false)
    (hheld : ∀ n < script.length, ∀ i ∈ (b.run hw (signals script) n).held,
      signals script n = i)
    (hend : (b.run hw (signals script) script.length).held = none) :
    Legal hw (signals script) b := by
  have hquiet : ∀ n, script.length ≤ n → signals script n = noAccess := by
    intro n hn
    simp [signals, List.getD_eq_getElem?_getD, hn]
  have hnone : ∀ k, (b.run hw (signals script) (script.length + k)).held = none := by
    intro k
    cases k with
    | zero => exact hend
    | succ k =>
      have hi := hquiet (script.length + k) (by omega)
      simp [Bus.run, Bus.step, hi, noAccess, Signals.present]
  intro n
  by_cases hn : n < script.length
  · refine ⟨?_,hheld n hn⟩
    have hmem : signals script n ∈ script := by
      simp [signals, List.getD_eq_getElem?_getD, hn]
    exact hone _ hmem
  · obtain ⟨k, rfl⟩ := Nat.exists_eq_add_of_le (not_lt.mp hn)
    constructor
    · rw [hquiet _ (by omega)]
      rfl
    · intro i hi
      rw [hnone k] at hi
      simp at hi

def quietCore : Hardware :=
  ⟨0,fun _ => 0,false,false,false,false,false,false,false,0,false,0,0,0,0,0,fun _ => 0,
    fun _ => 0,fun _ => 0,0,false,false,0,0,0⟩

def clearRegisters : Registers := ⟨fun _ => 0,0,false,false⟩

def setReset : Signals := ⟨true,false,15,0,0x8000⟩

def readControl : Signals := ⟨false,true,15,0,0⟩

theorem serves_iff_apart :
    Serves (fun _ => quietCore)
        (signals [setReset, setReset, noAccess, readControl, readControl, readControl])
        (Bus.start clearRegisters 0) ↔
      ∀ n, Careful (signals [setReset, setReset, noAccess, readControl, readControl, readControl] n)
        ((Bus.start clearRegisters 0).run (fun _ => quietCore)
          (signals [setReset, setReset, noAccess, readControl, readControl, readControl]) n) :=
  serves_iff (fun _ => quietCore) _ clearRegisters 0
    (signals_legal _ _ _ (by decide) (by decide +kernel) (by decide +kernel))

/-- A read directly behind the write is acknowledged in its first clock, with
what was read before. -/
theorem read_behind_write :
    ∃ (hw : ℕ → Hardware) (is : ℕ → Signals) (regs : Registers) (avs_s1_readdata : BitVec 32),
      Legal hw is (Bus.start regs avs_s1_readdata) ∧
      is 0 = setReset ∧ is 1 = setReset ∧ is 2 = readControl ∧
      ((Bus.start regs avs_s1_readdata).run hw is 2).slave.avs_s1_waitrequest = false ∧
      ((Bus.start regs avs_s1_readdata).run hw is 2).memory 0 = 0x8000 ∧
      ((Bus.start regs avs_s1_readdata).run hw is 2).slave.avs_s1_readdata = 0 ∧
      ¬ Serves hw is (Bus.start regs avs_s1_readdata) := by
  refine ⟨fun _ => quietCore,signals [setReset, setReset, readControl],clearRegisters,0,
    signals_legal _ _ _ (by decide) (by decide +kernel) (by decide +kernel),rfl,rfl,rfl,
    by decide +kernel,by decide +kernel,by decide +kernel,fun hserves => ?_⟩
  have hreturns := hserves.returns 2 rfl (by decide +kernel)
  have hdata : (0 : BitVec 32) = 0x8000 := hreturns
  exact absurd hdata (by decide)

end Pauline.RegisterBus
