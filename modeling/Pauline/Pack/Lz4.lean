import Pauline.Pack.Packing
import Pauline.Stream.RoundTrip

/-!
# The library in its place

With the packer and the unpacker of the repository, what is known of the chunk files
and the saved images holds without a word on the library.
-/

set_option autoImplicit false

namespace Pauline.Pack
open Buffer
open Lz4Block hiding Byte
open Pauline.ChunkBlock (LZ4 LZ4_MAX_INPUT_SIZE compressBound_small)
open Pauline.DumpChunk (LZ4_compressBound)
open Pauline.DeltaCode Pauline.PulseWord Pauline.Track Pauline.Decode Pauline.LoadStream
open Pauline.SaveStream Pauline.RoundTrip

def Fit (packed : List Byte) (size : ℕ) : Prop :=
  packed.length < 2^31 ∧ size < 2^31 ∧ packed.length+size+2^17 ≤ 2^32

instance (packed : List Byte) (size : ℕ) : Decidable (Fit packed size) :=
  inferInstanceAs (Decidable (_ ∧ _))

structure Heap where
  memory : List Byte → Mem
  packing : (source : List Byte) → source.length ≤ LZ4_MAX_INPUT_SIZE → PackCall
  packing_source : ∀ source h, (packing source h).source = source
  unpacking : (packed : List Byte) → (size : ℕ) → Fit packed size → Call
  unpacking_source : ∀ packed size h, (unpacking packed size h).source = packed
  unpacking_size : ∀ packed size h, (unpacking packed size h).outputSize = size

namespace Heap
variable (heap : Heap)

/-- What a call for a buffer of the bound leaves in it. A call for less is never made, and
a source that is too large gives nothing. -/
def compress (source : List Byte) (cap : ℤ) : List Byte :=
  if h : source.length ≤ LZ4_MAX_INPUT_SIZE ∧ (LZ4_compressBound source.length : ℤ) ≤ cap then
    match lz4CompressDefault (heap.packing source h.1) (heap.memory source) with
    | some (r,mem) => slice mem (heap.packing source h.1).dst r.toNat
    | none => []
  else []

def decompressSafe (packed : List Byte) (size : ℕ) : Option (ℤ × (ℕ → Byte)) :=
  if h : Fit packed size then
    (lz4DecompressSafe (heap.unpacking packed size h) (heap.memory packed)).map fun r =>
      (r.1,fun k => r.2 ((heap.unpacking packed size h).dst+k))
  else none

def decompress (packed : List Byte) (size : ℕ) : Option (List Byte) :=
  (heap.decompressSafe packed size).bind fun r =>
    if 0 ≤ r.1 then some (slice r.2 0 r.1.toNat) else none

def unpackBuffer (packed : List Byte) (size : ℕ) : ℕ → Byte :=
  match heap.decompressSafe packed size with
  | some r => r.2
  | none => fun _ => 0#8

theorem compress_block (source : List Byte) (cap : ℤ) (h : source.length ≤ LZ4_MAX_INPUT_SIZE)
    (hcap : (LZ4_compressBound source.length : ℤ) ≤ cap) :
    ∃ b : Block, heap.compress source cap = b.encode 0 ∧ b.expand = source ∧
      Backward b.sequences 0 ∧ b.Ends ∧
      (b.encode 0).length ≤ source.length+source.length/255+2 := by
  obtain ⟨b, mem', hpack, hholding⟩ := lz4CompressDefault_block (heap.packing source h)
    (heap.memory source) (by rw [heap.packing_source]; exact h)
  refine ⟨b,?_,?_,hholding.backward,hholding.ends,?_⟩
  · unfold compress
    rw [dif_pos ⟨h,hcap⟩]
    simp only [hpack]
    exact hholding.slice
  · rw [hholding.expand, heap.packing_source]
  · have hbound := hholding.bound
    unfold Call.iend at hbound
    rwa [heap.packing_source] at hbound

theorem decompressSafe_block {b : Block} {source : List Byte} (hexpand : b.expand = source)
    (hback : Backward b.sequences 0) (hends : b.Ends)
    (hfit : Fit (b.encode 0) source.length) :
    ∃ buffer, heap.decompressSafe (b.encode 0) source.length =
        some ((source.length : ℤ),buffer) ∧ slice buffer 0 source.length = source := by
  have hsource := heap.unpacking_source (b.encode 0) source.length hfit
  have hout := heap.unpacking_size (b.encode 0) source.length hfit
  obtain ⟨out, hunpack, -, htext⟩ := lz4DecompressSafe_complete
    (heap.unpacking (b.encode 0) source.length hfit) (heap.memory (b.encode 0)) b 0
    hsource hback hends (by rw [hexpand, hout]) (Or.inr rfl)
  rw [hexpand] at hunpack htext
  refine ⟨fun k => out ((heap.unpacking (b.encode 0) source.length hfit).dst+k),?_,?_⟩
  · unfold decompressSafe
    rw [dif_pos hfit, hunpack, Option.map_some]
  · simpa only [slice, Nat.zero_add] using htext

end Heap

variable (heap heap' : Heap)

theorem packed_fit {source packed : List Byte} (h : source.length ≤ LZ4_MAX_INPUT_SIZE)
    (hpacked : packed.length ≤ source.length+source.length/255+2) : Fit packed source.length := by
  unfold LZ4_MAX_INPUT_SIZE at h
  unfold Fit
  omega

def lz4 (scratch : List Byte → ℤ → ℕ → Byte → Byte) : LZ4 where
  compress := heap.compress
  scratch := scratch
  decompress := heap'.decompress
  bounded source cap h hcap := by
    obtain ⟨b, hblock, -, -, -, hbound⟩ := heap.compress_block source cap h hcap
    rw [hblock, compressBound_small _ h]
    omega
  inverts source cap h hcap := by
    obtain ⟨b, hblock, hexpand, hback, hends, hbound⟩ := heap.compress_block source cap h hcap
    obtain ⟨buffer, hunpack, htext⟩ := heap'.decompressSafe_block hexpand hback hends
      (packed_fit h hbound)
    rw [hblock, Heap.decompress, hunpack, Option.bind_some, if_pos (Int.natCast_nonneg _),
      Int.toNat_natCast, htext]

/-! ## Saved images -/

theorem lz4_works {host : SaveHost} (scratch : List Byte → ℤ → ℕ → Byte → Byte)
    (hlz4 : host.lz4 = lz4 heap heap' scratch) (hfopen : host.fopen = true)
    (hmalloc : ∀ j i size, host.malloc j i size = true)
    (hmmap : ∀ len, 0 < len → host.mmap len = true) : Works host where
  fopen := hfopen
  malloc := hmalloc
  mmap := hmmap
  packs source cap h hcap := by
    obtain ⟨b, hblock, -⟩ := heap.compress_block source cap h hcap
    have henc : (lz4 heap heap' scratch).compress source cap = b.encode 0 := hblock
    rw [hlz4, henc]
    exact encode_ne_nil b 0

theorem unpackBuffer_unpacks {lhost : Host} (scratch : List Byte → ℤ → ℕ → Byte → Byte)
    (hunpack : ∀ j i, lhost.unpack j i = heap'.unpackBuffer) :
    Unpacks lhost (lz4 heap heap' scratch) := by
  intro j i packed size data hdata k hk
  have hdata' : heap'.decompress packed size = some data := hdata
  unfold Heap.decompress at hdata'
  obtain ⟨r, hr, hdata'⟩ := Option.bind_eq_some_iff.mp hdata'
  split_ifs at hdata'
  rw [hunpack, Heap.unpackBuffer, hr]
  have hslice := Option.some.inj hdata'
  subst hslice
  simp [slice]

/-- A disk is saved and loaded with the packer and the unpacker of the repository. -/
theorem save_load_unpacked (scratch : List Byte → ℤ → ℕ → Byte → Byte) (host : SaveHost)
    (drive : Fin 4) (s : DriveState) (hlz4 : host.lz4 = lz4 heap heap' scratch)
    (hfopen : host.fopen = true) (hmalloc : ∀ j i size, host.malloc j i size = true)
    (hmmap : ∀ len, 0 < len → host.mmap len = true)
    (h4 : s.image_track_size_reg drive % 4 = 0) (hpos : 0 < s.image_track_size_reg drive)
    (hsize : s.image_track_size_reg drive ≤ 2^26)
    (hcount : 1 ≤ s.image_max_track_reg drive) (hmax : s.image_max_track_reg drive ≤ 253)
    (hfits : s.image_track_size_reg drive*(s.image_max_track_reg drive+2) < 2^31)
    (hsparse : ∀ track < s.image_max_track_reg drive, ∀ side < 2,
      ∀ w ∈ sideWords s.toFpgaState drive track side, (cells w).length ≤ 1) :
    ∃ file s', saveStreamHfe host drive s = some (file,s') ∧
      ∀ lhost double_step, Reads lhost file → (∀ j i, lhost.unpack j i = heap'.unpackBuffer) →
        ∃ l, loadStreamHfe lhost drive double_step s' = .ok l ∧
          l.state.image_track_size_reg drive = s.image_track_size_reg drive ∧
          l.state.image_max_track_reg drive = s.image_max_track_reg drive+2 ∧
          ∀ track < s.image_max_track_reg drive, ∀ side < 2,
            sideWords l.state.toFpgaState drive track side =
              sideWords s.toFpgaState drive track side := by
  have hdisk := disk_of_regs h4 hpos hcount hmax hfits hsparse
  have hworks := lz4_works heap heap' scratch hlz4 hfopen hmalloc hmmap
  obtain ⟨file, hsave, hload⟩ := save_load hworks hdisk (by omega)
  refine ⟨file,_,hsave,fun lhost double_step hreads hunpack => hload lhost double_step hreads ?_⟩
  have hunpacks := unpackBuffer_unpacks heap heap' scratch hunpack
  rw [← hlz4] at hunpacks
  exact hunpacks

/-! ## A disk of one track -/

theorem low_start : 2^16 ≤ 2^16 := Nat.le_refl _

def lowHeap : Heap where
  memory _ _ := 0#8
  packing source h :=
    { source := source
      src := 2^16
      dst := 2^16+source.length
      outputSize := LZ4_compressBound source.length
      src_start := low_start
      src_end := by
        unfold LZ4_MAX_INPUT_SIZE at h
        omega
      dst_start := Nat.le_add_right _ _
      dst_end := by
        rw [compressBound_small _ h]
        unfold LZ4_MAX_INPUT_SIZE at h
        omega
      apart := Or.inl (Nat.le_refl _)
      bound := Nat.le_refl _ }
  packing_source _ _ := rfl
  unpacking packed size h :=
    { source := packed
      src := 2^16
      dst := 2^16+packed.length
      outputSize := size
      src_start := low_start
      src_end := by
        have := h.1
        omega
      dst_start := Nat.le_add_right _ _
      dst_end := by
        have := h.2.2
        omega
      apart := Or.inl (Nat.le_refl _) }
  unpacking_source _ _ _ := rfl
  unpacking_size _ _ _ := rfl

def lowSave : SaveHost :=
  { literalSave with lz4 := lz4 lowHeap lowHeap fun _ _ _ b => b }

def lowLoad (file : List Byte) : Host :=
  { literalHost file with unpack := fun _ _ => lowHeap.unpackBuffer }

theorem lowLoad_reads (file : List Byte) : Reads (lowLoad file) file where
  fopen := rfl
  malloc _ _ := rfl
  read _ _ _ := rfl
  mmap _ hlen := decide_eq_true hlen

theorem save_load_unpacked_onePulse :
    ∃ file s' l, saveStreamHfe lowSave 0 onePulse = some (file,s') ∧
      loadStreamHfe (lowLoad file) 0 false s' = .ok l ∧
      sideWords l.state.toFpgaState 0 0 0 = [0x8000#16,0#16] := by
  obtain ⟨file, s', hsave, hload⟩ := save_load_unpacked lowHeap lowHeap (fun _ _ _ b => b) lowSave
    0 onePulse rfl rfl (fun _ _ _ => rfl) (fun _ hlen => decide_eq_true hlen) (by decide)
    (by decide) (by decide) (by decide) (by decide) (by decide) onePulse_sparse
  obtain ⟨l, hl, -, -, hwords⟩ := hload (lowLoad file) false (lowLoad_reads file) (fun _ _ => rfl)
  exact ⟨file,s',l,hsave,hl,hwords 0 (by decide) 0 (by decide)⟩

end Pauline.Pack
