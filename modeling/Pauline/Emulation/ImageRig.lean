import Pauline.Fpga.FloppyDrive
import Pauline.Fpga.TrackFeed
import Pauline.Library.SyncFifo
import Pauline.Emulation.TrackWindow

/-!
# An emulated drive with its master

One drive with its track counter, its fifos and the bus master, and the
registers the software writes while they run. The words of the drive carry their
address from the master to the drive and, if the host has written to them, back.
-/

set_option autoImplicit false

namespace Pauline.ImageRig
open Pauline.DmaMaster Pauline.FloppyDumper
open Pauline.FloppyDrive (DriveInput wordEnds)
open Pauline.TrackWindow (Image TrackCore Pins trackCounter internalStepGen curTracksBase movesIn)
open Pauline.TrackFeed (BurstStart)

abbrev DriveFifo := SyncFifo FifoWord 4096 3968

/-- Where an address has come from that was read from the pop fifo since the
image was programmed: the output of the fifo, and the two registers behind it. -/
structure Fetched where
  q : Bool
  q1 : Bool
  q2 : Bool
deriving DecidableEq

def Fetched.none : Fetched := ⟨false,false,false⟩

def EvenTrack (size : ℕ) : Prop := 516 < size ∧ (size-516) % 1024 < 512

structure OnPass (d : Channel) (img : Image) (m : Master) : Prop where
  track : ∃ k < img.max_track, (m.drv_cur_track_address d).toNat =
    img.base + k * img.track_size + (m.address_offsets d).toNat
  aligned : (m.address_offsets d).toNat % 4 = 0
  inside : (m.address_offsets d).toNat + 4 ≤ img.track_size

def Placed (d : Channel) (img : Image) (m : Master) : Prop :=
  OnPass d img m ∧
    (EvenTrack img.track_size → BurstStart img.track_size (m.address_offsets d).toNat)

instance (size : ℕ) : Decidable (EvenTrack size) := inferInstanceAs (Decidable (_ ∧ _))

instance (size o : ℕ) : Decidable (BurstStart size o) :=
  inferInstanceAs (Decidable (_ ∨ _ ∧ _))

instance (d : Channel) (img : Image) (m : Master) : Decidable (OnPass d img m) :=
  decidable_of_iff (_ ∧ _ ∧ _) ⟨fun h => ⟨h.1,h.2.1,h.2.2⟩,fun h => ⟨h.track,h.aligned,h.inside⟩⟩

instance (d : Channel) (img : Image) (m : Master) : Decidable (Placed d img m) :=
  inferInstanceAs (Decidable (_ ∧ (_ → _)))

structure Rig (f g : DriveFifo) where
  /-- The registers of the image, as the software has last written them. -/
  image : Image
  control_reg : BitVec 32
  master : Master
  core : TrackCore
  popFifo : f.State
  drive : FloppyDrive.Drive
  pushFifo : g.State
  fetched : Fetched
  /-- The running address of the master is on a track of the image. -/
  placed : Bool

structure RigInput where
  bus : Input
  pins : Pins
  lines : DriveInput
  status : BitVec 8

/-- A write of the software to the core; of an image, to one or more of its
three registers. -/
inductive HostWrite where
  | control (v : BitVec 32)
  | image (img : Image)
deriving DecidableEq

inductive Event where
  /-- Of the unclocked process of the track counter. -/
  | activation (p : Pins)
  /-- A clock, and the register written at its end. -/
  | clock (i : RigInput) (w : Option HostWrite)

section Model
variable {f g : DriveFifo}

def Rig.resetting (s : Rig f g) : Bool := !s.control_reg.getLsbD 15

def Rig.masterInput (d : Channel) (i : RigInput) (s : Rig f g) : Input :=
  { i.bus with
    images_base_address :=
      Function.update i.bus.images_base_address d s.image.image_base_address
    images_track_size := Function.update i.bus.images_track_size d s.image.tracks_size
    drv_cur_track_base_address :=
      Function.update i.bus.drv_cur_track_base_address d (curTracksBase s.image s.core)
    enable_drives := fun e => s.control_reg.getLsbD e.val
    continuous_mode := Function.update i.bus.continuous_mode d true
    pop_fifo_almostfull :=
      Function.update i.bus.pop_fifo_almostfull d (f.almost_full s.popFifo)
    push_fifo_empty := Function.update i.bus.push_fifo_empty d (g.empty s.pushFifo)
    push_fifo_out_data := Function.update i.bus.push_fifo_out_data d (g.q s.pushFifo).data
    push_fifo_out_address :=
      Function.update i.bus.push_fifo_out_address d (g.q s.pushFifo).address
    reset_drives := fun e => if e = 4 then !s.control_reg.getLsbD 14 else s.resetting }

def Rig.driveInput (i : RigInput) (s : Rig f g) : DriveInput :=
  { i.lines with
    reset_state := s.resetting
    read_fifo_data := f.q s.popFifo }

def Rig.pins (i : RigInput) (s : Rig f g) : Pins := { i.pins with clear_cnt := s.resetting }

def Rig.arriving (d : Channel) (i : RigInput) (s : Rig f g) : FifoWord :=
  ⟨s.master.pop_fifo_in_data d,s.master.pop_fifo_in_address d,i.status⟩

def Rig.fetchNext (i : RigInput) (s : Rig f g) : Fetched :=
  if s.resetting then Fetched.none
  else
    { q := s.fetched.q || (s.drive.read_fifo_rq && f.contents s.popFifo ≠ [])
      q1 := if wordEnds (s.driveInput i) s.drive then s.fetched.q else s.fetched.q1
      q2 := if wordEnds (s.driveInput i) s.drive then s.fetched.q1 else s.fetched.q2 }

def Rig.clock (d : Channel) (i : RigInput) (s : Rig f g) : Rig f g where
  image := s.image
  control_reg := s.control_reg
  master := DmaMaster.step (s.masterInput d i) s.master
  core := trackCounter s.image (s.pins i) s.core
  popFifo := f.step s.resetting (s.master.pop_fifo_in_wr d) (s.arriving d i)
    s.drive.read_fifo_rq s.popFifo
  drive := FloppyDrive.step (s.driveInput i) s.drive
  pushFifo := g.step s.resetting s.drive.write_fifo_wr s.drive.write_fifo_data
    (s.master.push_fifo_out_rq d) s.pushFifo
  fetched := s.fetchNext i
  placed := s.resetting || s.placed

def Rig.write (d : Channel) (w : HostWrite) (s : Rig f g) : Rig f g :=
  match w with
  | .control v => { s with control_reg := v }
  | .image img =>
    { s with
      image := img
      fetched := if img = s.image then s.fetched else Fetched.none
      placed := if img = s.image then s.placed else decide (Placed d img s.master) }

def Rig.step (d : Channel) (e : Event) (s : Rig f g) : Rig f g :=
  match e with
  | .activation p => { s with core := internalStepGen p s.core }
  | .clock i none => s.clock d i
  | .clock i (some w) => (s.clock d i).write d w

theorem resetSize_bound : 624998*2*80 < 2^31 := by decide

def resetImage : Image := ⟨900*1024*1024,624998*2,80,resetSize_bound,by decide⟩

structure PoweredUp (s : Rig f g) : Prop where
  image : s.image = resetImage
  control_reg : s.control_reg = 0
  master : s.master = Master.reset
  core : ∃ core, s.core = TrackCore.onReset core
  popFifo : f.contents s.popFifo = []
  drive : ∃ drive, s.drive = FloppyDrive.Drive.powerUp drive
  pushFifo : g.contents s.pushFifo = []
  fetched : s.fetched = Fetched.none
  placed : s.placed = false

/-! ## What is asked -/

def busBytes (address : LWord) (words : ℕ) : Set ℕ :=
  Set.Ico address.toNat (address.toNat + 4*words)

def Confined (d : Channel) (s : Rig f g) : Prop :=
  s.master.drive_index = d →
    (s.master.avm_m1_read = true →
      busBytes s.master.busaddress s.master.avm_m1_burstcount.toNat ⊆ s.image.bytes) ∧
    (s.master.avm_m1_write = true → busBytes s.master.busaddress 1 ⊆ s.image.bytes)

/-! ## The condition -/

def Usable (img : Image) : Prop :=
  0 < img.max_track ∧ 0 < img.track_size ∧ img.track_size % 4 = 0

def WordOf (img : Image) (address : LWord) : Prop :=
  img.base ≤ address.toNat ∧ address.toNat + 4 ≤ img.base + img.track_size * img.max_track

def Serving (d : Channel) (m : Master) : Prop :=
  (m.state_master_register ≠ .idle ∨ m.avm_m1_read = true) ∧ m.drive_index = d

def StepsInside (i : RigInput) (s : Rig f g) : Prop :=
  movesIn s.image (s.pins i) s.core = true → s.core.trackposition.toNat + 1 ≠ s.image.max_track

/-- A burst is started on a track of the right size, or away from the end of the
track, or with the words of the longest burst left of the image. -/
def BurstsInside (d : Channel) (s : Rig f g) : Prop :=
  s.master.state_master_register = .wait_read → s.master.drive_index = d →
    EvenTrack s.image.track_size ∨
      (s.master.address_offsets d).toNat + 516 < s.image.track_size ∨
      (s.master.drv_cur_track_address d).toNat + 1024 ≤
        s.image.base + s.image.track_size * s.image.max_track

def HandsBackOwn (i : RigInput) (s : Rig f g) : Prop :=
  s.resetting = false → wordEnds (s.driveInput i) s.drive = true → s.drive.write_flag = true →
    s.fetched.q2 = true

def FetchesWhole (d : Channel) (i : RigInput) (s : Rig f g) : Prop :=
  s.resetting = true → s.master.push_fifo_out_rq d = false ∧
    ¬(s.master.state_master_register = .idle ∧ startsWrite (s.masterInput d i) s.master = true ∧
      s.master.fifos_out_empty_index = d)

def LaunchesPlaced (d : Channel) (i : RigInput) (s : Rig f g) : Prop :=
  s.master.state_master_register = .idle → startsRead (s.masterInput d i) s.master = true →
    s.master.fifos_in_almostfull_index = d → s.resetting = true ∨ s.placed = true

def Rig.underWay (d : Channel) (s : Rig f g) : List LWord :=
  (if s.master.pop_fifo_in_wr d then [s.master.pop_fifo_in_address d] else []) ++
    (f.contents s.popFifo).map FifoWord.address ++
    (if s.drive.write_fifo_wr then [s.drive.write_fifo_data.address] else []) ++
    (g.contents s.pushFifo).map FifoWord.address

/-- An image is programmed outside the drive's turns on the bus, while the words
under way for the drive are of the new image too, with the head on the first track
or on one of the same place. -/
structure TakesOver (d : Channel) (img : Image) (s : Rig f g) : Prop where
  usable : Usable img
  head : s.core.trackposition = 0 ∨
    img.track_size = s.image.track_size ∧ s.core.trackposition.toNat < img.max_track
  quiet : ¬Serving d s.master
  words : ∀ address ∈ s.underWay d, WordOf img address

def Meets (d : Channel) (e : Event) (s : Rig f g) : Prop :=
  match e with
  | .activation _ => True
  | .clock i w =>
    StepsInside i s ∧ BurstsInside d s ∧ HandsBackOwn i s ∧ FetchesWhole d i s ∧
      LaunchesPlaced d i s ∧
    match w with
    | some (.image img) => img = s.image ∨ TakesOver d img (s.clock d i)
    | _ => True

/-! ## The condition can be decided -/

instance (img : Image) : Decidable (Usable img) := inferInstanceAs (Decidable (_ ∧ _ ∧ _))

instance (img : Image) (address : LWord) : Decidable (WordOf img address) :=
  inferInstanceAs (Decidable (_ ∧ _))

instance (d : Channel) (m : Master) : Decidable (Serving d m) :=
  inferInstanceAs (Decidable ((_ ∨ _) ∧ _))

instance (i : RigInput) (s : Rig f g) : Decidable (StepsInside i s) :=
  inferInstanceAs (Decidable (_ = true → _ ≠ _))

instance (d : Channel) (s : Rig f g) : Decidable (BurstsInside d s) :=
  inferInstanceAs (Decidable (_ = _ → _ = _ → EvenTrack _ ∨ _ < _ ∨ _ ≤ _))

instance (i : RigInput) (s : Rig f g) : Decidable (HandsBackOwn i s) :=
  inferInstanceAs (Decidable (_ = _ → _ = _ → _ = _ → _ = _))

instance (d : Channel) (i : RigInput) (s : Rig f g) : Decidable (FetchesWhole d i s) :=
  inferInstanceAs (Decidable (_ = _ → _ = _ ∧ ¬(_ = _ ∧ _ = _ ∧ _ = _)))

instance (d : Channel) (i : RigInput) (s : Rig f g) : Decidable (LaunchesPlaced d i s) :=
  inferInstanceAs (Decidable (_ = _ → _ = _ → _ = _ → _ = _ ∨ _ = _))

instance (d : Channel) (img : Image) (s : Rig f g) : Decidable (TakesOver d img s) :=
  -- not over all addresses
  haveI : Decidable (∀ address ∈ s.underWay d, WordOf img address) := List.decidableBAll _ _
  decidable_of_iff (Usable img ∧ (_ = _ ∨ _ = _ ∧ _ < _) ∧ ¬Serving d s.master ∧
      ∀ address ∈ s.underWay d, WordOf img address)
    ⟨fun h => ⟨h.1,h.2.1,h.2.2.1,h.2.2.2⟩,fun h => ⟨h.usable,h.head,h.quiet,h.words⟩⟩

instance (d : Channel) : (e : Event) → (s : Rig f g) → Decidable (Meets d e s)
  | .activation _, _ => inferInstanceAs (Decidable True)
  | .clock i none, s => inferInstanceAs (Decidable
      (StepsInside i s ∧ BurstsInside d s ∧ HandsBackOwn i s ∧ FetchesWhole d i s ∧
        LaunchesPlaced d i s ∧ True))
  | .clock i (some (.control _)), s => inferInstanceAs (Decidable
      (StepsInside i s ∧ BurstsInside d s ∧ HandsBackOwn i s ∧ FetchesWhole d i s ∧
        LaunchesPlaced d i s ∧ True))
  | .clock i (some (.image img)), s => inferInstanceAs (Decidable
      (StepsInside i s ∧ BurstsInside d s ∧ HandsBackOwn i s ∧ FetchesWhole d i s ∧
        LaunchesPlaced d i s ∧ (img = s.image ∨ TakesOver d img (s.clock d i))))

end Model

end Pauline.ImageRig
