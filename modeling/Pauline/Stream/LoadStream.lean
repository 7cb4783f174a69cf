import Pauline.Library.BitField
import Pauline.Library.Buffer
import Pauline.Stream.Decode

/-!
# The load of a stream image

`load_stream_hfe` reads the header and the list of the tracks, programs the drive
and decodes the tracks one by one. What the system and the file answer is a
parameter.
-/

set_option autoImplicit false

namespace Pauline.LoadStream
open Buffer Pauline.DeltaCode Pauline.PulseWord Pauline.Track Pauline.Decode

/-! ## The file -/

def signature : List Byte :=
  [0x48,0x78,0x43,0x5F,0x53,0x74,0x72,0x65,0x61,0x6D,0x5F,0x49,0x6D,0x61,0x67,0x65].map byte

structure FileHeader where
  formatrevision : ℕ
  flags : ℕ
  index_array_offset : ℕ
  track_list_offset : ℕ
  track_data_offset : ℕ
  number_of_track : ℕ
  number_of_side : ℕ
  bits_period : ℕ
  floppyinterfacemode : ℕ
  deriving DecidableEq

structure TrackDef where
  flags : ℕ
  packed_data_offset : ℕ
  packed_data_size : ℕ
  unpacked_data_size : ℕ
  track_len : ℕ
  nb_pulses : ℕ
  deriving DecidableEq

def fileHeaderSize : ℕ := 212
def trackDefSize : ℕ := 32

def word (bs : List Byte) (k : ℕ) : ℕ := get32 (bs.drop (4*k))

def FileHeader.ofBytes (bs : List Byte) : FileHeader :=
  let rest := bs.drop 16
  ⟨word rest 0, word rest 1, word rest 2, word rest 3, word rest 4, word rest 5, word rest 6,
    word rest 7, word rest 8⟩

def TrackDef.ofBytes (bs : List Byte) : TrackDef :=
  ⟨word bs 0, word bs 1, word bs 2, word bs 3, word bs 4, word bs 5⟩

/-! ## The drive -/

abbrev PageBase := { base : ℕ // base % 4096 = 0 }

structure DriveState extends FpgaState where
  image_base_address_reg : Fin 4 → PageBase
  image_max_track_reg : Fin 4 → ℕ
  drive_config : Fin 4 → BitVec 32
  drv_track_index_start : Fin 4 → BitVec 32
  drv_index_len : Fin 4 → BitVec 32
  hs_index_positions : ℕ → BitVec 32
  hardsector_count : Fin 4 → ℕ
  separate_hardsector_signal : Bool
  index_len : ℕ
  /-- The bytes of the mapping `disk_image` points to, if not `MAP_FAILED`. -/
  mapped : Fin 4 → Option ℕ

def CFG_DISK_IN_DRIVE : BitVec 32 := 0x1#32 <<< 12
def CFG_DISK_DOUBLE_STEP : BitVec 32 := 0x1#32 <<< 25

/-! ## The system -/

inductive Request where
  | header
  | tracks
  | packed (track side : ℕ)
  | unpacked (track side : ℕ)

structure Host where
  fopen : Bool
  /-- An `fseek` and the `fread` of one element of a size. -/
  read : Request → ℕ → ℕ → Option (List Byte)
  read_size : ∀ r off size bs, read r off size = some bs → bs.length = size ∧ 0 < size
  malloc : Request → ℕ → Bool
  /-- What stands behind the list of the tracks. -/
  heap : ℕ → TrackDef
  mmap : ℕ → Bool
  /-- What stands in the buffer and behind it after `LZ4_decompress_safe`. -/
  unpack : ℕ → ℕ → List Byte → ℕ → ℕ → Byte
  /-- The positions `index_cfg` computes in floating point. -/
  hs_index_position : ℕ → ℕ → ℕ → BitVec 32
  track_index_start : ℕ → ℕ → BitVec 32
  indexlen : ℕ → BitVec 32

def fileRead (file : List Byte) (off size : ℕ) : Option (List Byte) :=
  if 0 < size ∧ off+size ≤ file.length then some ((file.drop off).take size) else none

theorem fileRead_size (file : List Byte) (off size : ℕ) (bs : List Byte)
    (h : fileRead file off size = some bs) : bs.length = size ∧ 0 < size := by
  unfold fileRead at h
  split_ifs at h with hfit
  obtain rfl := Option.some.inj h
  refine ⟨?_, hfit.1⟩
  rw [List.length_take, List.length_drop]
  omega

/-! ## The programming of the drive -/

def indexCfg (host : Host) (drive : Fin 4) (hs_cnt : ℕ) (sep_index : Bool)
    (indexlen : BitVec 32) (s : DriveState) : DriveState :=
  let track_size := s.image_track_size_reg drive
  let sectors := hs_cnt ≠ 0 ∧ hs_cnt ≤ 32
  let tmp := s.drive_config drive
  let tmp := if hs_cnt ≠ 0 then tmp ||| (0x1#32 <<< 27) else tmp &&& ~~~(0x1#32 <<< 27)
  let tmp := if sep_index then tmp &&& ~~~(0x1#32 <<< 28) else tmp ||| (0x1#32 <<< 28)
  { s with
    hs_index_positions :=
      if drive.1 = 0 then fun i =>
        if 32 ≤ i then s.hs_index_positions i
        else if sectors ∧ i < hs_cnt then host.hs_index_position track_size hs_cnt i else 0
      else s.hs_index_positions
    drv_track_index_start := Function.update s.drv_track_index_start drive
      (if sectors then host.track_index_start track_size hs_cnt else 0)
    drv_index_len := Function.update s.drv_index_len drive indexlen
    drive_config := Function.update s.drive_config drive tmp }

inductive Stop where
  /-- `goto error`, or a return before. -/
  | failed
  /-- A store outside of the mapping. -/
  | fault
  deriving DecidableEq

def clearedWords (track_size max_track : ℕ) : ℕ := 8*(track_size/4*max_track % 2^32/4)

def allocImage (mmap : ℕ → Bool) (drive : Fin 4) (track_size max_track : ℕ) (base : PageBase)
    (setfpga : Bool) (s : DriveState) : Option DriveState :=
  let s := if setfpga then
    { s with
      image_base_address_reg := Function.update s.image_base_address_reg drive base
      image_track_size_reg := Function.update s.image_track_size_reg drive track_size
      image_max_track_reg := Function.update s.image_max_track_reg drive max_track } else s
  let base := (s.image_base_address_reg drive).1
  let track_size := s.image_track_size_reg drive
  let max_track := s.image_max_track_reg drive
  let page_offset := base-base/4096*4096
  let len := (page_offset+track_size*max_track) % 2^32
  if mmap len then
    let s := { s with mapped := Function.update s.mapped drive (some len) }
    if setfpga then
      if 2*clearedWords track_size max_track ≤ len then
        some { s with
          disk_image := Function.update s.disk_image drive fun a =>
            if a < clearedWords track_size max_track then 0#16 else s.disk_image drive a }
      else none
    else some s
  else some { s with mapped := Function.update s.mapped drive none }

/-! ## The tracks -/

def decodeWrites (unpacked_data : ℕ → Byte) (tmp_ptr : ℕ) : ℕ → ℕ → ℕ → List ℕ
  | 0, _, _ => []
  | n+1, k, cumul =>
    let r := readCode unpacked_data k
    let cumul := (cumul+r.1) % 2^32
    (tmp_ptr+((cumul >>> 4) <<< 1)) :: decodeWrites unpacked_data tmp_ptr n r.2 cumul

def decodeReads (unpacked_data : ℕ → Byte) : ℕ → ℕ → List ℕ
  | 0, _ => []
  | n+1, k =>
    let r := readCode unpacked_data k
    List.range' k (r.2-k) ++ decodeReads unpacked_data n r.2

structure DecodeCall where
  state : DriveState
  trackdef : TrackDef
  unpacked_data : ℕ → Byte
  track : ℕ
  side : ℕ

def DecodeCall.writes (drive : Fin 4) (c : DecodeCall) : List ℕ :=
  decodeWrites c.unpacked_data (trackPtr c.state.toFpgaState drive c.track c.side)
    c.trackdef.nb_pulses 0 0

def DecodeCall.reads (c : DecodeCall) : List ℕ :=
  decodeReads c.unpacked_data c.trackdef.nb_pulses 0

def DecodeCall.run (drive : Fin 4) (c : DecodeCall) : DriveState :=
  { c.state with
    toFpgaState := decodestream c.state.toFpgaState drive c.trackdef.nb_pulses c.unpacked_data
      c.track c.side }

def inMapping (mapped : Option ℕ) (a : ℕ) : Bool :=
  match mapped with
  | some len => decide (2*a+2 ≤ len)
  | none => false

structure Load where
  state : DriveState
  calls : List DecodeCall

abbrev Run := Except (Stop × Load) Load

def loadOf : Run → Load
  | .ok l => l
  | .error e => e.2

def Load.decode (drive : Fin 4) (c : DecodeCall) (l : Load) : Run :=
  if (c.writes drive).all (inMapping (c.state.mapped drive)) then
    .ok ⟨c.run drive,l.calls++[c]⟩
  else .error (.fault,⟨l.state,l.calls++[c]⟩)

def trackArrayIndex (number_of_side j i : ℕ) : ℕ :=
  if number_of_side = 2 then (j <<< 1) ||| (i &&& 1) else j

def readTrack (host : Host) (t : TrackDef) (j i : ℕ) : Option (ℕ → Byte) :=
  if host.malloc (.packed j i) t.packed_data_size then
    match host.read (.packed j i) t.packed_data_offset t.packed_data_size with
    | none => none
    | some packed_track_data =>
      if host.malloc (.unpacked j i) t.unpacked_data_size then
        some (host.unpack j i packed_track_data t.unpacked_data_size)
      else none
  else none

def loadTrack (host : Host) (drive : Fin 4) (trackoffsetlist : ℕ → TrackDef)
    (number_of_side j i : ℕ) (l : Load) : Run :=
  let t := trackoffsetlist (trackArrayIndex number_of_side j i)
  if t.packed_data_size ≠ 0 then
    match readTrack host t j i with
    | none => .error (.failed,l)
    | some unpacked_track => l.decode drive ⟨l.state,t,unpacked_track,j,i⟩
  else .ok l

def trackSides (number_of_track number_of_side : ℕ) : List (ℕ × ℕ) :=
  (List.range number_of_track).flatMap fun j => (List.range number_of_side).map fun i => (j,i)

def loadTracks (host : Host) (drive : Fin 4) (trackoffsetlist : ℕ → TrackDef)
    (number_of_side : ℕ) : List (ℕ × ℕ) → Load → Run
  | [], l => .ok l
  | (j,i) :: rest, l =>
    match loadTrack host drive trackoffsetlist number_of_side j i l with
    | .ok l => loadTracks host drive trackoffsetlist number_of_side rest l
    | .error e => .error e

/-! ## The load -/

def listSize (number_of_track number_of_side : ℕ) : ℕ :=
  trackDefSize*(number_of_track*number_of_side % 2^32) % 2^32

def trackOffsetList (host : Host) (bs : List Byte) (k : ℕ) : TrackDef :=
  if trackDefSize*(k+1) ≤ bs.length then TrackDef.ofBytes (bs.drop (trackDefSize*k))
  else host.heap k

def openImage (host : Host) : Option (FileHeader × (ℕ → TrackDef)) :=
  if host.fopen then
    match host.read .header 0 fileHeaderSize with
    | none => none
    | some bs =>
      let header := FileHeader.ofBytes bs
      if bs.take 16 = signature then
        let size := listSize header.number_of_track header.number_of_side
        if host.malloc .tracks size then
          (host.read .tracks header.track_list_offset size).map fun list =>
            (header,trackOffsetList host list)
        else none
      else none
  else none

def programDrive (host : Host) (drive : Fin 4) (number_of_track track_len : ℕ) (s : DriveState) :
    Option DriveState :=
  let track_size := track_len/8*2
  let s := { s with
    image_track_size_reg := Function.update s.image_track_size_reg drive track_size }
  let s := indexCfg host drive (s.hardsector_count drive) s.separate_hardsector_signal
    (host.indexlen s.index_len) s
  allocImage host.mmap drive track_size ((number_of_track+2) % 2^32)
    (s.image_base_address_reg drive) true s

def insertDisk (drive : Fin 4) (double_step : Bool) (s : DriveState) : DriveState :=
  let tmp := s.drive_config drive ||| CFG_DISK_IN_DRIVE
  { s with
    drive_config := Function.update s.drive_config drive
      (if double_step then tmp ||| CFG_DISK_DOUBLE_STEP else tmp &&& ~~~CFG_DISK_DOUBLE_STEP) }

def loadStreamHfe (host : Host) (drive : Fin 4) (double_step : Bool) (s : DriveState) : Run :=
  match openImage host with
  | none => .error (.failed,⟨s,[]⟩)
  | some (header,trackoffsetlist) =>
    match programDrive host drive header.number_of_track (trackoffsetlist 0).track_len s with
    | none => .error (.fault,⟨s,[]⟩)
    | some s =>
      match loadTracks host drive trackoffsetlist header.number_of_side
        (trackSides header.number_of_track header.number_of_side) ⟨s,[]⟩ with
      | .ok l => .ok { l with state := insertDisk drive double_step l.state }
      | .error e => .error e

/-! ## What a load does -/

def mappedImage (host : Host) (number_of_track track_len : ℕ) : Option ℕ :=
  let len := track_len/8*2*((number_of_track+2) % 2^32) % 2^32
  if host.mmap len then some len else none

def ClearsInside (host : Host) (number_of_track track_len : ℕ) : Prop :=
  ∀ len, mappedImage host number_of_track track_len = some len →
    2*clearedWords (track_len/8*2) ((number_of_track+2) % 2^32) ≤ len

structure Programmed (host : Host) (drive : Fin 4) (number_of_track track_len : ℕ)
    (s s' : DriveState) : Prop where
  base : s'.image_base_address_reg = s.image_base_address_reg
  size : s'.image_track_size_reg drive = track_len/8*2
  count : s'.image_max_track_reg drive = (number_of_track+2) % 2^32
  mapped : s'.mapped drive = mappedImage host number_of_track track_len
  in_drive : s'.drive_config drive &&& CFG_DISK_IN_DRIVE = s.drive_config drive &&& CFG_DISK_IN_DRIVE
  image : ∀ a, s'.disk_image drive a =
    if a < clearedWords (track_len/8*2) ((number_of_track+2) % 2^32) ∧
        (mappedImage host number_of_track track_len).isSome then 0#16
    else s.disk_image drive a

theorem indexCfg_in_drive (host : Host) (drive : Fin 4) (hs_cnt : ℕ) (sep_index : Bool)
    (indexlen : BitVec 32) (s : DriveState) :
    (indexCfg host drive hs_cnt sep_index indexlen s).drive_config drive &&& CFG_DISK_IN_DRIVE =
      s.drive_config drive &&& CFG_DISK_IN_DRIVE := by
  have h27 : (0x1#32 <<< 27) &&& CFG_DISK_IN_DRIVE = 0#32 := by decide
  have h28 : (0x1#32 <<< 28) &&& CFG_DISK_IN_DRIVE = 0#32 := by decide
  simp only [indexCfg, Function.update_self]
  split_ifs
  · rw [BitField.andNot_and_apart _ _ _ h28, BitField.or_and_apart _ _ _ h27]
  · rw [BitField.andNot_and_apart _ _ _ h28, BitField.andNot_and_apart _ _ _ h27]
  · rw [BitField.or_and_apart _ _ _ h28, BitField.or_and_apart _ _ _ h27]
  · rw [BitField.or_and_apart _ _ _ h28, BitField.andNot_and_apart _ _ _ h27]

theorem pageBase_offset (base : PageBase) : base.1-base.1/4096*4096 = 0 := by
  have := base.2
  omega

/-- The load programs the drive, unless the image is cleared beyond its mapping. -/
theorem programDrive_cases (host : Host) (drive : Fin 4) (number_of_track track_len : ℕ)
    (s : DriveState) :
    (¬ ClearsInside host number_of_track track_len ∧
      programDrive host drive number_of_track track_len s = none) ∨
    (ClearsInside host number_of_track track_len ∧
      ∃ s', programDrive host drive number_of_track track_len s = some s' ∧
        Programmed host drive number_of_track track_len s s') := by
  have hin := indexCfg_in_drive host drive (s.hardsector_count drive) s.separate_hardsector_signal
    (host.indexlen s.index_len) { s with
      image_track_size_reg := Function.update s.image_track_size_reg drive (track_len/8*2) }
  have hbase := pageBase_offset (s.image_base_address_reg drive)
  by_cases hmap : host.mmap (track_len/8*2*((number_of_track+2) % 2^32) % 2^32) = true
  · have himage : mappedImage host number_of_track track_len =
        some (track_len/8*2*((number_of_track+2) % 2^32) % 2^32) := if_pos hmap
    simp only [ClearsInside, himage, Option.some.injEq, forall_eq']
    unfold programDrive allocImage
    simp only [if_true, Function.update_self, Function.update_eq_self, indexCfg, hbase,
      Nat.zero_add, hmap]
    split
    · rename_i hclear
      refine Or.inr ⟨hclear, _, rfl, ?_⟩
      exact ⟨rfl, Function.update_self .., Function.update_self .., by simp [himage], hin,
        fun a => by simp [himage]⟩
    · rename_i hclear
      exact Or.inl ⟨hclear, rfl⟩
  · have himage : mappedImage host number_of_track track_len = none := if_neg hmap
    refine Or.inr ⟨fun len hlen => by simp [himage] at hlen, ?_⟩
    unfold programDrive allocImage
    simp only [if_true, Function.update_self, Function.update_eq_self, indexCfg, hbase,
      Nat.zero_add, hmap]
    refine ⟨_, rfl, rfl, Function.update_self .., Function.update_self .., by simp [himage], hin,
      fun a => by simp [himage]⟩

theorem loadTrack_cases (host : Host) (drive : Fin 4) (tracks : ℕ → TrackDef)
    (sides j i : ℕ) (l : Load) :
    let t := tracks (trackArrayIndex sides j i)
    (t.packed_data_size = 0 ∧ loadTrack host drive tracks sides j i l = .ok l) ∨
    (t.packed_data_size ≠ 0 ∧ readTrack host t j i = none ∧
      loadTrack host drive tracks sides j i l = .error (.failed,l)) ∨
    ∃ u, t.packed_data_size ≠ 0 ∧ readTrack host t j i = some u ∧
      loadTrack host drive tracks sides j i l = l.decode drive ⟨l.state,t,u,j,i⟩ := by
  intro t
  by_cases hp : t.packed_data_size = 0
  · exact Or.inl ⟨hp, by simp only [loadTrack]; exact if_neg (not_not.mpr hp)⟩
  · refine Or.inr ?_
    cases hr : readTrack host t j i with
    | none => exact Or.inl ⟨hp, rfl, by simp only [loadTrack]; rw [if_pos hp, hr]⟩
    | some u => exact Or.inr ⟨u, hp, rfl, by simp only [loadTrack]; rw [if_pos hp, hr]⟩

def loadable (host : Host) (tracks : ℕ → TrackDef) (sides : ℕ) (q : ℕ × ℕ) : Bool :=
  let t := tracks (trackArrayIndex sides q.1 q.2)
  t.packed_data_size == 0 || (readTrack host t q.1 q.2).isSome

@[simp] theorem run_size (drive : Fin 4) (c : DecodeCall) :
    (c.run drive).image_track_size_reg = c.state.image_track_size_reg := by
  simp only [DecodeCall.run, decodestream]
  split_ifs <;> rfl

@[simp] theorem run_mapped (drive : Fin 4) (c : DecodeCall) :
    (c.run drive).mapped = c.state.mapped := rfl

structure Kept (s s' : DriveState) : Prop where
  size : s'.image_track_size_reg = s.image_track_size_reg
  count : s'.image_max_track_reg = s.image_max_track_reg
  config : s'.drive_config = s.drive_config
  mapped : s'.mapped = s.mapped

theorem Kept.trans {s s' s'' : DriveState} (h : Kept s s') (h' : Kept s' s'') : Kept s s'' :=
  ⟨h'.size.trans h.size,h'.count.trans h.count,h'.config.trans h.config,h'.mapped.trans h.mapped⟩

theorem kept_run (drive : Fin 4) (c : DecodeCall) : Kept c.state (c.run drive) :=
  ⟨run_size drive c,rfl,rfl,rfl⟩

/-! ## Small files -/

def literalHost (file : List Byte) : Host where
  fopen := true
  read _ := fileRead file
  read_size _ := fileRead_size file
  malloc _ _ := true
  heap _ := ⟨0,0,0,0,0,0⟩
  mmap len := decide (0 < len)
  unpack _ _ packed _ k := (packed.drop 1).getD k 0#8
  hs_index_position _ _ _ := 0
  track_index_start _ _ := 0
  indexlen _ := 0

def blankDrive : DriveState where
  toFpgaState := smallState fun _ _ => 0#16
  image_base_address_reg _ := ⟨600*1024*1024,rfl⟩
  image_max_track_reg _ := 80
  drive_config _ := 0
  drv_track_index_start _ := 0
  drv_index_len _ := 0
  hs_index_positions _ := 0
  hardsector_count _ := 0
  separate_hardsector_signal := true
  index_len := 2000
  mapped _ := none

def oneSided (number_of_track : ℕ) (rest : List Byte) : List Byte :=
  signature ++ words [0,0,0,212,0,number_of_track,1,40000,0] ++ List.replicate 160 0#8 ++ rest

end Pauline.LoadStream
