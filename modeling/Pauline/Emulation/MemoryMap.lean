import Mathlib
import Pauline.Library.Clocked
import Pauline.Fpga.DmaMaster

/-!
# The memory map

The dump buffer and the images of the four drives stand in one memory at
fixed addresses. A dump and the load of an image program the size of one
of these regions.
-/

set_option autoImplicit false

namespace Pauline.MemoryMap

def DUMP_IMAGE_BASE : ℕ := 512*1024*1024

def DRV_IMAGE_BASE : Fin 4 → ℕ :=
  ![600*1024*1024,700*1024*1024,800*1024*1024,900*1024*1024]

def BIT_CLOCK : ℕ := 25000000
def FPGA_CLOCK : ℕ := 50000000
def DEFAULT_TRACK_PERIOD : ℕ := 200
def DEFAULT_TRACK_SIZE : ℕ := (BIT_CLOCK / 16 * DEFAULT_TRACK_PERIOD) / 1000 * 2
def DEFAULT_MAX_TRACK : ℕ := 80

structure Regs where
  floppy_dump_base_address : BitVec 32
  floppy_dump_buffer_size : BitVec 32
  image_base_address_reg : Fin 4 → BitVec 32
  image_track_size_reg : Fin 4 → BitVec 32
  image_max_track_reg : Fin 4 → BitVec 32

structure Board where
  regs : Regs
  dump_time_per_track : BitVec 32

def powerUp : Board where
  dump_time_per_track := 0
  regs :=
    { floppy_dump_base_address := BitVec.ofNat 32 (900*1024*1024)
      floppy_dump_buffer_size := BitVec.ofNat 32 (624998 * 2)
      image_base_address_reg := fun _ => BitVec.ofNat 32 (900*1024*1024)
      image_track_size_reg := fun _ => BitVec.ofNat 32 (624998 * 2)
      image_max_track_reg := fun _ => 80 }

def resetFpga (r : Regs) : Regs :=
  { r with
    image_base_address_reg := fun d => BitVec.ofNat 32 (DRV_IMAGE_BASE d)
    image_track_size_reg := fun _ => BitVec.ofNat 32 DEFAULT_TRACK_SIZE
    image_max_track_reg := fun _ => BitVec.ofNat 32 DEFAULT_MAX_TRACK }

def afterReset : Board := { powerUp with regs := resetFpga powerUp.regs }

/-! ## The dump -/

def setDumpTime (value : BitVec 32) : BitVec 32 :=
  let time := if value = 0 then 800 else value
  if BitVec.slt 60000 time then 60000 else time

def bytesPerMs (high_res_mode : Bool) : ℕ :=
  if high_res_mode then (50000000 / 16) * 4 / 1000 else (25000000 / 16) * 4 / 1000

def bufferSize (high_res_mode : Bool) (time : BitVec 32) : BitVec 32 :=
  let buffersize := time * BitVec.ofNat 32 (bytesPerMs high_res_mode)
  buffersize + ((0x10 - (buffersize &&& 0xF)) &&& 0xF)

def allocDumpBuffer (base buffer_size : BitVec 32) (r : Regs) : Regs :=
  { r with floppy_dump_base_address := base, floppy_dump_buffer_size := buffer_size }

/-! ## The load of an image -/

structure StreamHfe where
  /-- The signature stands, and the list of the tracks could be read. -/
  accepted : Bool
  number_of_track : BitVec 32
  /-- Of the first track. -/
  track_len : BitVec 32

def allocImage (drive : Fin 4) (track_size max_track base : BitVec 32) (r : Regs) : Regs :=
  { r with
    image_base_address_reg := Function.update r.image_base_address_reg drive base
    image_track_size_reg := Function.update r.image_track_size_reg drive track_size
    image_max_track_reg := Function.update r.image_max_track_reg drive max_track }

def loadStreamHfe (drive : Fin 4) (f : StreamHfe) (r : Regs) : Regs :=
  if f.accepted then
    allocImage drive (f.track_len / 8 * 2) (f.number_of_track + 2)
      (r.image_base_address_reg drive) r
  else r

/-! ## Runs -/

inductive Op where
  | dumpTime (value : BitVec 32)
  | dump (high_res_mode : Bool)
  | load (drive : Fin 4) (f : StreamHfe)

def step : Op → Board → Board
  | .dumpTime value, b => { b with dump_time_per_track := setDumpTime value }
  | .dump high_res_mode, b =>
    let buffersize := bufferSize high_res_mode b.dump_time_per_track
    { b with regs := allocDumpBuffer (BitVec.ofNat 32 DUMP_IMAGE_BASE) buffersize b.regs }
  | .load drive f, b => { b with regs := loadStreamHfe drive f b.regs }

def regionBase : Fin 5 → ℕ := Fin.cons DUMP_IMAGE_BASE DRV_IMAGE_BASE

def regionSize (r : Regs) : Fin 5 → ℕ :=
  Fin.cons r.floppy_dump_buffer_size.toNat fun d =>
    (r.image_track_size_reg d).toNat * (r.image_max_track_reg d).toNat

def region (r : Regs) (i : Fin 5) : Set ℕ :=
  Set.Ico (regionBase i) (regionBase i + regionSize r i)

def RegionsDisjoint (r : Regs) : Prop := Pairwise fun i j => Disjoint (region r i) (region r j)

/-! ## Room -/

def Room (size : Fin 5 → ℕ) : Prop :=
  ∀ i j, i < j → regionBase i + size i ≤ regionBase j

theorem room_disjoint (r : Regs) (h : Room (regionSize r)) : RegionsDisjoint r := by
  intro i j hij
  obtain hlt | hlt := lt_or_gt_of_ne hij
  · exact Set.Ico_disjoint_Ico.mpr
      ((min_le_left _ _).trans ((h i j hlt).trans (le_max_right _ _)))
  · exact Set.Ico_disjoint_Ico.mpr
      ((min_le_right _ _).trans ((h j i hlt).trans (le_max_left _ _)))

theorem disjoint_ends (r : Regs) (i j : Fin 5) (hij : i < j) (hbase : regionBase i < regionBase j)
    (hj : 0 < regionSize r j) (h : RegionsDisjoint r) :
    regionBase i + regionSize r i ≤ regionBase j := by
  have hd := Set.Ico_disjoint_Ico.mp (h hij.ne)
  rw [max_eq_right hbase.le, min_le_iff] at hd
  omega

theorem regionBase_strictMono : StrictMono regionBase := by
  rw [Fin.strictMono_iff_lt_succ]
  decide

def roomOf : Fin 4 → ℕ := ![88*1024*1024,100*1024*1024,100*1024*1024,100*1024*1024]

theorem roomOf_eq (i : Fin 4) : regionBase i.castSucc + roomOf i = regionBase i.succ := by
  revert i
  decide

theorem roomOf_image (drive k : Fin 4) (hk : k.castSucc = drive.succ) :
    roomOf k = 100*1024*1024 := by
  revert drive k
  decide

theorem image_below (drive : Fin 4) (h : drive ≠ 3) : ∃ k : Fin 4, k.castSucc = drive.succ := by
  revert drive
  decide

/-- It is enough that each region leaves room for the next. -/
theorem room_iff (size : Fin 5 → ℕ) : Room size ↔ ∀ i : Fin 4, size i.castSucc ≤ roomOf i := by
  constructor
  · intro h i
    have hnext := h i.castSucc i.succ (Fin.castSucc_lt_succ)
    rw [← roomOf_eq] at hnext
    omega
  · intro h i j hij
    obtain ⟨k, rfl⟩ : ∃ k : Fin 4, k.castSucc = i :=
      ⟨i.castPred (Fin.ne_last_of_lt hij),Fin.castSucc_castPred _ _⟩
    have hnext : regionBase k.succ ≤ regionBase j :=
      regionBase_strictMono.monotone (Fin.castSucc_lt_iff_succ_le.mp hij)
    have hsize := h k
    have heq := roomOf_eq k
    omega

theorem room_update (size : Fin 5 → ℕ) (i : Fin 5) (s : ℕ) (h : Room size)
    (hs : ∀ k : Fin 4, k.castSucc = i → s ≤ roomOf k) : Room (Function.update size i s) := by
  rw [room_iff] at h ⊢
  intro k
  by_cases hk : k.castSucc = i
  · rw [hk, Function.update_self]
    exact hs k hk
  · rw [Function.update_of_ne hk]
    exact h k

/-! ## What an operation programs -/

theorem allocDumpBuffer_size (base buffer_size : BitVec 32) (r : Regs) :
    regionSize (allocDumpBuffer base buffer_size r) =
      Function.update (regionSize r) 0 buffer_size.toNat := by
  funext i
  cases i using Fin.cases with
  | zero => simp [regionSize, allocDumpBuffer]
  | succ d => simp [regionSize, allocDumpBuffer]

theorem allocImage_size (drive : Fin 4) (track_size max_track base : BitVec 32) (r : Regs) :
    regionSize (allocImage drive track_size max_track base r) =
      Function.update (regionSize r) drive.succ (track_size.toNat * max_track.toNat) := by
  funext i
  cases i using Fin.cases with
  | zero => simp [regionSize, allocImage, Fin.succ_ne_zero drive |>.symm]
  | succ d =>
    by_cases hd : d = drive
    · simp [regionSize, allocImage, hd]
    · have hs : d.succ ≠ drive.succ := fun h => hd (Fin.succ_injective _ h)
      simp [regionSize, allocImage, hd, hs]

theorem bufferSize_toNat (high_res_mode : Bool) (time : BitVec 32) :
    (bufferSize high_res_mode time).toNat =
      let bytes := (time.toNat * bytesPerMs high_res_mode) % 2^32
      (bytes + (16 - bytes % 16) % 16) % 2^32 := by
  have hms : (BitVec.ofNat 32 (bytesPerMs high_res_mode)).toNat = bytesPerMs high_res_mode := by
    cases high_res_mode <;> decide
  simp only [bufferSize]
  generalize hb : time * BitVec.ofNat 32 (bytesPerMs high_res_mode) = bytes
  have hbytes : bytes.toNat = (time.toNat * bytesPerMs high_res_mode) % 2^32 := by
    rw [← hb, BitVec.toNat_mul, hms]
  have hand : ∀ x : BitVec 32, (x &&& 0xF).toNat = x.toNat % 16 := fun x => by
    rw [BitVec.toNat_and]
    exact Nat.and_two_pow_sub_one_eq_mod x.toNat 4
  have hsixteen : (0x10 : BitVec 32).toNat = 16 := rfl
  have hlt := bytes.isLt
  rw [BitVec.toNat_add, hand, BitVec.toNat_sub, hand, hsixteen, ← hbytes]
  omega

def DumpFits (high_res_mode : Bool) (time : BitVec 32) : Prop :=
  let bytes := (time.toNat * bytesPerMs high_res_mode) % 2^32
  bytes ≤ 88*1024*1024 ∨ 2^32 - 16 < bytes

theorem dumpFits_iff (high_res_mode : Bool) (time : BitVec 32) :
    DumpFits high_res_mode time ↔ (bufferSize high_res_mode time).toNat ≤ roomOf 0 := by
  rw [bufferSize_toNat, DumpFits]
  have hroom : roomOf 0 = 92274688 := rfl
  have hlt : (time.toNat * bytesPerMs high_res_mode) % 2^32 < 2^32 := Nat.mod_lt _ (by decide)
  simp only [hroom]
  omega

theorem dumpFits_high_iff (time : BitVec 32) (h : time.toNat ≤ 60000) :
    DumpFits true time ↔ time.toNat ≤ 7381 := by
  have hms : bytesPerMs true = 12500 := rfl
  have hmod : (time.toNat * 12500) % 2^32 = time.toNat * 12500 := Nat.mod_eq_of_lt (by omega)
  rw [DumpFits, hms, hmod]
  omega

def LoadFits (drive : Fin 4) (f : StreamHfe) : Prop :=
  f.accepted = true → drive ≠ 3 →
    (f.track_len.toNat / 8 * 2) * ((f.number_of_track.toNat + 2) % 2^32) ≤ 100*1024*1024

def Meets : Op → Board → Prop
  | .dumpTime _, _ => True
  | .dump high_res_mode, b => DumpFits high_res_mode b.dump_time_per_track
  | .load drive f, _ => LoadFits drive f

theorem loadStreamHfe_size (drive : Fin 4) (f : StreamHfe) (r : Regs) (hf : f.accepted = true) :
    regionSize (loadStreamHfe drive f r) =
      Function.update (regionSize r) drive.succ
        ((f.track_len.toNat / 8 * 2) * ((f.number_of_track.toNat + 2) % 2^32)) := by
  have htwo : (2 : BitVec 32).toNat = 2 := rfl
  have height : (8 : BitVec 32).toNat = 8 := rfl
  have hlen := f.track_len.isLt
  have hsize : (f.track_len / 8 * 2).toNat = f.track_len.toNat / 8 * 2 := by
    rw [BitVec.toNat_mul, BitVec.toNat_udiv, htwo, height]
    exact Nat.mod_eq_of_lt (by omega)
  rw [loadStreamHfe, if_pos hf, allocImage_size, hsize, BitVec.toNat_add, htwo]

theorem step_room (op : Op) (b : Board) (h : Room (regionSize b.regs)) (hop : Meets op b) :
    Room (regionSize (step op b).regs) := by
  cases op with
  | dumpTime value => exact h
  | dump high_res_mode =>
    simp only [step, allocDumpBuffer_size]
    refine room_update _ 0 _ h fun k hk => ?_
    have hzero : k = 0 := Fin.castSucc_injective _ hk
    exact hzero ▸ (dumpFits_iff _ _).mp hop
  | load drive f =>
    by_cases hf : f.accepted = true
    · simp only [step, loadStreamHfe_size drive f b.regs hf]
      refine room_update _ drive.succ _ h fun k hk => ?_
      have hdrive : drive ≠ 3 := by
        rintro rfl
        exact absurd hk (by revert k; decide)
      exact (roomOf_image drive k hk) ▸ hop hf hdrive
    · simpa [step, loadStreamHfe, hf] using h

theorem afterReset_room : Room (regionSize afterReset.regs) := by
  rw [room_iff]
  decide

theorem step_base (op : Op) (b : Board) :
    (step op b).regs.image_base_address_reg = b.regs.image_base_address_reg := by
  cases op with
  | dumpTime value => rfl
  | dump high_res_mode => rfl
  | load drive f =>
    by_cases hf : f.accepted = true
    · simp [step, loadStreamHfe, hf, allocImage]
    · simp [step, loadStreamHfe, hf]

def NextOccupied : Op → Board → Prop
  | .dumpTime _, _ => True
  | .dump _, b => 0 < regionSize b.regs 1
  | .load drive _, b => ∀ k : Fin 4, k.castSucc = drive.succ → 0 < regionSize b.regs k.succ

/-- An operation that does not fit runs into the next region. -/
theorem meets_of_disjoint (op : Op) (b : Board) (hnext : NextOccupied op b)
    (h : RegionsDisjoint (step op b).regs) : Meets op b := by
  cases op with
  | dumpTime value => trivial
  | dump high_res_mode =>
    have hsize : regionSize (step (.dump high_res_mode) b).regs =
        Function.update (regionSize b.regs) 0
          (bufferSize high_res_mode b.dump_time_per_track).toNat :=
      allocDumpBuffer_size _ _ _
    have hends := disjoint_ends _ 0 1 (by decide) (by decide) (by simpa [hsize, NextOccupied] using hnext) h
    rw [hsize, Function.update_self] at hends
    have hroom := roomOf_eq 0
    simp only [Fin.castSucc_zero, Fin.succ_zero_eq_one] at hroom
    refine (dumpFits_iff high_res_mode b.dump_time_per_track).mpr ?_
    omega
  | load drive f =>
    intro hf hdrive
    obtain ⟨k, hk⟩ := image_below drive hdrive
    have hsize : regionSize (step (.load drive f) b).regs = _ :=
      loadStreamHfe_size drive f b.regs hf
    have hlt : drive.succ < k.succ := hk ▸ Fin.castSucc_lt_succ
    have hends := disjoint_ends _ drive.succ k.succ hlt (regionBase_strictMono hlt)
      (by simpa [hsize, hlt.ne'] using hnext k hk) h
    rw [hsize, Function.update_self] at hends
    have hroom := roomOf_eq k
    rw [roomOf_image drive k hk, hk] at hroom
    omega

/-- In every run of operations that fit, the dump buffer and the four images are
pairwise disjoint, and the next operation keeps them so only if it fits too
(where the region after the one it programs is not empty). -/
theorem regions_disjoint_iff (b : Board) (hrun : Clocked.Reach step Meets afterReset b) :
    (∀ d, b.regs.image_base_address_reg d = BitVec.ofNat 32 (DRV_IMAGE_BASE d)) ∧
      RegionsDisjoint b.regs ∧
      ∀ op, NextOccupied op b → (RegionsDisjoint (step op b).regs ↔ Meets op b) := by
  have hroom : Room (regionSize b.regs) :=
    hrun.invariant (fun b => Room (regionSize b.regs)) afterReset_room
      fun op b hop h => step_room op b h hop
  have hbase : b.regs.image_base_address_reg = afterReset.regs.image_base_address_reg :=
    hrun.invariant
      (fun b => b.regs.image_base_address_reg = afterReset.regs.image_base_address_reg) rfl
      fun op b _ h => (step_base op b).trans h
  refine ⟨fun d => congrFun hbase d,room_disjoint _ hroom,fun op hnext => ⟨fun h => ?_,fun hop => ?_⟩⟩
  · exact meets_of_disjoint op b hnext h
  · exact room_disjoint _ (step_room op b hroom hop)

/-- A dump of 7.381 seconds at 50 MHz, then an image of 80 tracks of 25000 words. -/
theorem regions_disjoint_iff_session :
    let b := step (.load 0 ⟨true,80,400000⟩) (step (.dump true) (step (.dumpTime 7381) afterReset))
    (∀ d, b.regs.image_base_address_reg d = BitVec.ofNat 32 (DRV_IMAGE_BASE d)) ∧
      RegionsDisjoint b.regs ∧
      ∀ op, NextOccupied op b → (RegionsDisjoint (step op b).regs ↔ Meets op b) :=
  regions_disjoint_iff _ <| by
    have htime : Clocked.Reach step Meets afterReset (step (.dumpTime 7381) afterReset) :=
      (Clocked.Reach.refl _).tick _ trivial
    have hdump := htime.tick (.dump true) ((dumpFits_high_iff _ (by decide)).mpr (by decide))
    exact hdump.tick (.load 0 ⟨true,80,400000⟩) fun _ _ => by decide

/-- The longest dump the command accepts covers the images of the drives. -/
theorem long_dump_overlaps :
    ∃ b, Clocked.Reach step (fun _ _ => True) afterReset b ∧ ¬ RegionsDisjoint b.regs := by
  refine ⟨step (.dump true) (step (.dumpTime 60000) afterReset),?_,fun h => ?_⟩
  · have htime : Clocked.Reach step (fun _ _ => True) afterReset
        (step (.dumpTime 60000) afterReset) :=
      (Clocked.Reach.refl _).tick _ trivial
    exact htime.tick (.dump true) trivial
  · have hnext : 0 < regionSize (step (.dumpTime 60000) afterReset).regs 1 := by decide
    have hfits := meets_of_disjoint (.dump true) (step (.dumpTime 60000) afterReset) hnext h
    exact absurd ((dumpFits_high_iff _ (by decide)).mp hfits) (by decide)

end Pauline.MemoryMap
