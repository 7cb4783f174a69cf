import Pauline.Stream.LoadSlots
import Pauline.Stream.SaveStream

/-!
# A disk saved and loaded

The saved sides are the gaps between their pulses. The loader clears the image and
sets the pulses again; where it does not clear, the words are those of the disk.
-/

set_option autoImplicit false

namespace Pauline.RoundTrip
open Pauline.DeltaCode Pauline.PulseWord Pauline.Track Pauline.Decode Pauline.LoadStream
open Pauline.DumpChunk Pauline.ChunkBlock Pauline.SaveStream

/-! ## One side -/

def sideStream (image : ℕ → Word) (ptr w : ℕ) : TrackStream :=
  let ps := pulses image ptr 0 (16*w)
  ⟨(CodeStream.deltas 0 ps).flatMap encodeDelta,16*w,
    ((CodeStream.deltas 0 ps).flatMap encodeDelta).length,ps.length⟩

def Unpacks (host : Host) (lz4 : LZ4) : Prop :=
  ∀ j i packed size data, lz4.decompress packed size = some data →
    ∀ (k : ℕ) (hk : k < data.length), host.unpack j i packed size k = data[k]

section side
variable {host : Host} {lz4 : LZ4} {file : List Byte} {image : ℕ → Word} {w : ℕ}

theorem readTrack_saved (hreads : Reads host file) (hunpack : Unpacks host lz4)
    (t : TrackDef) (j i : ℕ) (data : List Byte)
    (hsmall : data.length ≤ LZ4_MAX_INPUT_SIZE)
    (hne : lz4.compress data (LZ4_compressBound data.length) ≠ [])
    (hsize : t.packed_data_size = (lz4.compress data (LZ4_compressBound data.length)).length)
    (hfit : t.packed_data_offset+t.packed_data_size ≤ file.length)
    (hslice : (file.drop t.packed_data_offset).take t.packed_data_size =
      lz4.compress data (LZ4_compressBound data.length))
    (hunpacked : t.unpacked_data_size = data.length) :
    ∃ u, readTrack host t j i = some u ∧ CodeStream.Holds u 0 data := by
  have hpos : 0 < t.packed_data_size := by
    rw [hsize]
    exact List.length_pos_iff.mpr hne
  have hread : host.read (.packed j i) t.packed_data_offset t.packed_data_size =
      some (lz4.compress data (LZ4_compressBound data.length)) := by
    rw [hreads.read, fileRead_some _ _ _ hpos hfit, hslice]
  refine ⟨host.unpack j i (lz4.compress data (LZ4_compressBound data.length))
    t.unpacked_data_size, ?_, ?_⟩
  · simp only [readTrack, hreads.malloc, if_true, hread]
  · apply CodeStream.holds_of_get
    intro k hk
    rw [Nat.zero_add]
    apply hunpack
    rw [hunpacked]
    exact lz4.inverts data _ hsmall (le_refl _)

theorem writes_saved {s : DriveState} {drive : Fin 4} {u : ℕ → Byte} {ptr : ℕ} {t : TrackDef}
    {j i len : ℕ} (hw : 0 < w) (hcells : 16*w < 2^32)
    (hu : CodeStream.Holds u 0 (sideStream image ptr w).data_track)
    (hnb : t.nb_pulses = (sideStream image ptr w).number_of_pulses)
    (hptr : trackPtr s.toFpgaState drive j i = ptr) (hlen : 2*(ptr+2*w) ≤ len+2) :
    (DecodeCall.writes drive ⟨s,t,u,j,i⟩).all (inMapping (some len)) = true := by
  rw [List.all_eq_true]
  intro a ha
  obtain ⟨p, hp, rfl⟩ := (LoadSlots.mem_writes drive _ a).mp ha
  simp only [LoadSlots.cellSums, hnb, sideStream] at hp
  rw [readMany_deltas u _ hu] at hp
  have hlt := decodedPositions_lt image ptr w hw p hp
  have hmod : p % 2^32 = p := Nat.mod_eq_of_lt (by omega)
  rw [hmod, hptr]
  exact decide_eq_true (by omega)

theorem loadTrack_saved {tracks : ℕ → TrackDef} {drive : Fin 4} {l : Load}
    {j i len ptr lo : ℕ} (hreads : Reads host file) (hunpack : Unpacks host lz4)
    (hw : 0 < w) (hcells : 12*w < 2^31) (hptr : trackPtr l.state.toFpgaState drive j i = ptr)
    (hmap : l.state.mapped drive = some len) (hlen : 2*(ptr+2*w) ≤ len+2)
    (hroom : (sideStream image ptr w).data_track.length ≤ 2*w)
    (hne : packedTrack lz4 (sideStream image ptr w) ≠ [])
    (hstored : Stored lo (packedTrack lz4 (sideStream image ptr w)) (sideStream image ptr w)
      (trackArrayIndex 2 j i) ⟨tracks,file⟩) :
    ∃ l', loadTrack host drive tracks 2 j i l = .ok l' ∧ Kept l.state l'.state ∧
      l'.state.disk_image drive = (decodedPositions (pulses image ptr 0 (16*w))).foldl
        (fun m p => setCell m ptr p) (l.state.disk_image drive) := by
  obtain ⟨off, -, hend, hslice, hentry⟩ := hstored
  simp only at hend hslice hentry
  have hmax : LZ4_MAX_INPUT_SIZE = 2113929216 := rfl
  obtain ⟨u, hread, hholds⟩ := readTrack_saved hreads hunpack
    (tracks (trackArrayIndex 2 j i)) j i (sideStream image ptr w).data_track (by omega) hne
    (by rw [hentry]; rfl) (by rw [hentry]; exact hend) (by rw [hentry]; exact hslice)
    (by rw [hentry]; rfl)
  have hpacked : (tracks (trackArrayIndex 2 j i)).packed_data_size ≠ 0 := by
    rw [hentry]
    exact Nat.ne_of_gt (List.length_pos_iff.mpr hne)
  have hnb : (tracks (trackArrayIndex 2 j i)).nb_pulses =
      (sideStream image ptr w).number_of_pulses := by rw [hentry]
  rcases loadTrack_cases host drive tracks 2 j i l with
    ⟨hzero, -⟩ | ⟨-, hnone, -⟩ | ⟨u', -, hsome, hl⟩
  · exact absurd hzero hpacked
  · rw [hread] at hnone
    cases hnone
  · obtain rfl : u = u' := Option.some.inj (hread.symm.trans hsome)
    have hall : (DecodeCall.writes drive
        ⟨l.state,tracks (trackArrayIndex 2 j i),u,j,i⟩).all (inMapping (some len)) = true :=
      writes_saved hw (by omega) hholds hnb hptr hlen
    have hkept := kept_run drive ⟨l.state,tracks (trackArrayIndex 2 j i),u,j,i⟩
    refine ⟨⟨DecodeCall.run drive ⟨l.state,tracks (trackArrayIndex 2 j i),u,j,i⟩,
      l.calls++[⟨l.state,tracks (trackArrayIndex 2 j i),u,j,i⟩]⟩, ?_, hkept, ?_⟩
    · rw [hl]
      exact if_pos (by rw [← hmap] at hall; exact hall)
    · have himage := decodestream_image l.state.toFpgaState drive
        (tracks (trackArrayIndex 2 j i)).nb_pulses u j i
      rw [hptr, hnb] at himage
      simp only [DecodeCall.run, hnb, himage, Function.update_self]
      exact decodeLoop_decoded image (l.state.disk_image drive) u ptr ptr w (by omega) hholds

end side

/-! ## All sides -/

structure Holds (lz4 : LZ4) (file : List Byte) (tracks : ℕ → TrackDef) (image : ℕ → Word)
    (w n : ℕ) : Prop where
  stored : ∀ j < n, ∀ i < 2, ∃ lo, Stored lo (packedTrack lz4 (sideStream image (2*w*j+i) w))
    (sideStream image (2*w*j+i) w) (trackArrayIndex 2 j i) ⟨tracks,file⟩
  room : ∀ j < n, ∀ i < 2, (sideStream image (2*w*j+i) w).data_track.length ≤ 2*w
  packs : ∀ j < n, ∀ i < 2, packedTrack lz4 (sideStream image (2*w*j+i) w) ≠ []

/-- One side restored: its words are those of the image if they had no other pulse, and no
word of another side is touched. -/
theorem loadTrack_restores {host : Host} {lz4 : LZ4} {file : List Byte} {image : ℕ → Word}
    {w n len j i : ℕ} {tracks : ℕ → TrackDef} {drive : Fin 4} (hreads : Reads host file)
    (hunpack : Unpacks host lz4) (hcells : 16*w ≤ 2^28) (hpos : 0 < w)
    (hlen : 4*w*n ≤ len) (hsmall : 4*w*n < 2^32) (hholds : Holds lz4 file tracks image w n)
    (hj : j < n) (hi : i < 2) (l : Load)
    (hsize : l.state.image_track_size_reg drive = 4*w) (hmap : l.state.mapped drive = some len)
    (hsub : ∀ k < w,
      l.state.disk_image drive (2*w*j+i+2*k) ||| image (2*w*j+i+2*k) = image (2*w*j+i+2*k)) :
    ∃ l', loadTrack host drive tracks 2 j i l = .ok l' ∧ Kept l.state l'.state ∧
      ∀ j' < n, ∀ i' < 2, ∀ k < w, l'.state.disk_image drive (2*w*j'+i'+2*k) =
        if (j',i') = (j,i) then image (2*w*j'+i'+2*k)
        else l.state.disk_image drive (2*w*j'+i'+2*k) := by
  have htrack : 2*w*(j+1) ≤ 2*w*n := Nat.mul_le_mul_left _ hj
  have hdouble : 4*w*n = 2*(2*w*n) := by ring
  have hhalf : 4*w/2 = 2*w := by omega
  rw [Nat.mul_succ] at htrack
  have hptr : trackPtr l.state.toFpgaState drive j i = 2*w*j+i := by
    have h := trackPtr_eq l.state.toFpgaState drive j i (by rw [hsize]; omega)
      (by rw [hsize]; omega) hi (by rw [hsize, hhalf, Nat.mul_succ]; omega)
    rwa [hsize, hhalf] at h
  obtain ⟨lo, hstored⟩ := hholds.stored j hj i hi
  obtain ⟨l', hl, hkept, himage⟩ := loadTrack_saved hreads hunpack hpos (by omega) hptr hmap
    (by omega) (hholds.room j hj i hi) (hholds.packs j hj i hi) hstored
  rw [decodedPositions_pulses _ _ _ hcells] at himage
  refine ⟨l', hl, hkept, fun j' _ i' hi' k hk => ?_⟩
  rw [himage]
  split
  · rename_i heq
    obtain ⟨rfl, rfl⟩ := Prod.mk.inj heq
    rw [setPulses_word _ _ _ _ _ hk]
    exact hsub k hk
  · rename_i hne
    apply setPulses_frame
    intro k' hk'
    have hapart := words_apart (4*w) j i k' j' i' k (by omega) hi hi' (by omega) (by omega) hne
    rwa [hhalf] at hapart

/-- A loop over some of the sides restores them. The other words of the sides stay,
and none of them has a pulse that the image has not. -/
theorem loadTracks_restores {host : Host} {lz4 : LZ4} {file : List Byte} {image : ℕ → Word}
    {w n len : ℕ} {tracks : ℕ → TrackDef} {drive : Fin 4} (hreads : Reads host file)
    (hunpack : Unpacks host lz4) (hcells : 16*w ≤ 2^28) (hpos : 0 < w)
    (hlen : 4*w*n ≤ len) (hsmall : 4*w*n < 2^32) (hholds : Holds lz4 file tracks image w n)
    (qs : List (ℕ × ℕ)) (hqs : ∀ q ∈ qs, q.1 < n ∧ q.2 < 2) (l : Load)
    (hsize : l.state.image_track_size_reg drive = 4*w) (hmap : l.state.mapped drive = some len)
    (hsub : ∀ j < n, ∀ i < 2, ∀ k < w,
      l.state.disk_image drive (2*w*j+i+2*k) ||| image (2*w*j+i+2*k) = image (2*w*j+i+2*k)) :
    ∃ l', loadTracks host drive tracks 2 qs l = .ok l' ∧ Kept l.state l'.state ∧
      ∀ j < n, ∀ i < 2, ∀ k < w, l'.state.disk_image drive (2*w*j+i+2*k) =
        if (j,i) ∈ qs then image (2*w*j+i+2*k) else l.state.disk_image drive (2*w*j+i+2*k) := by
  induction qs generalizing l with
  | nil => exact ⟨l, rfl, ⟨rfl,rfl,rfl,rfl⟩, fun j _ i _ k _ => by simp⟩
  | cons q qs ih =>
    obtain ⟨j, i⟩ := q
    obtain ⟨hj, hi⟩ := hqs (j,i) (List.mem_cons_self ..)
    obtain ⟨l', hl, hkept, hword⟩ := loadTrack_restores hreads hunpack hcells hpos hlen hsmall
      hholds hj hi l hsize hmap (hsub j hj i hi)
    obtain ⟨l'', hl'', hkept', hrest⟩ := ih (fun p hp => hqs p (List.mem_cons_of_mem _ hp)) l'
      (by rw [hkept.size, hsize]) (by rw [hkept.mapped, hmap]) (by
        intro j' hj' i' hi' k hk
        rw [hword j' hj' i' hi' k hk]
        split
        · exact BitVec.or_self
        · exact hsub j' hj' i' hi' k hk)
    refine ⟨l'', by simp only [loadTracks, hl, hl''], hkept.trans hkept', ?_⟩
    intro j' hj' i' hi' k hk
    rw [hrest j' hj' i' hi' k hk, hword j' hj' i' hi' k hk]
    by_cases hq : (j',i') = (j,i)
    · simp [hq]
    · simp [hq]

/-! ## The save -/

structure Disk (drive : Fin 4) (s : DriveState) (w n : ℕ) : Prop where
  size : s.image_track_size_reg drive = 4*w
  count : s.image_max_track_reg drive = n
  words : 0 < w
  tracks : 0 < n
  narrow : n < 256
  fits : 4*w*(n+2) < 2^31
  sparse : ∀ j < n, ∀ i < 2, Sparse (sideWords s.toFpgaState drive j i)

theorem Disk.bytes {drive : Fin 4} {s : DriveState} {w n : ℕ} (h : Disk drive s w n) :
    4*w*n + 8*w < 2^31 := by
  have hfits := h.fits
  have hmul : 4*w*(n+2) = 4*w*n+8*w := by ring
  omega

theorem Disk.cells {drive : Fin 4} {s : DriveState} {w n : ℕ} (h : Disk drive s w n) :
    12*w < 2^31 := by
  have hbytes := h.bytes
  have hone : 4*w*1 ≤ 4*w*n := Nat.mul_le_mul_left _ h.tracks
  omega

theorem Disk.trackPtr {drive : Fin 4} {s : DriveState} {w n j i : ℕ} (h : Disk drive s w n)
    (hj : j < n) (hi : i < 2) : trackPtr s.toFpgaState drive j i = 2*w*j+i := by
  have hbytes := h.bytes
  have htrack : 2*w*(j+1) ≤ 2*w*n := Nat.mul_le_mul_left _ hj
  have hdouble : 4*w*n = 2*(2*w*n) := by ring
  have hhalf : 4*w/2 = 2*w := by omega
  have hpos := h.words
  have hptr := trackPtr_eq s.toFpgaState drive j i (by rw [h.size]; omega)
    (by rw [h.size]; omega) hi (by rw [h.size, hhalf]; omega)
  rwa [h.size, hhalf] at hptr

theorem Disk.converts {drive : Fin 4} {s : DriveState} {w n j i : ℕ} (h : Disk drive s w n)
    (malloc : ℕ → Bool) (hm : ∀ size, malloc size = true) (hj : j < n) (hi : i < 2) :
    fastConvertTrack malloc s.toFpgaState drive j i =
        some (sideStream (s.disk_image drive) (2*w*j+i) w) ∧
      (sideStream (s.disk_image drive) (2*w*j+i) w).data_track.length ≤ 2*w := by
  have hcells := h.cells
  have hpos := h.words
  have hw : s.image_track_size_reg drive/4 = w := by
    rw [h.size]
    omega
  have hsparse := h.sparse j hj i hi
  rw [sideWords, hw] at hsparse
  have hconv := fastConvertTrack_pulses malloc s.toFpgaState drive j i w h.size h.words (by omega)
    (hm _) hsparse
  rw [h.trackPtr hj hi] at hconv
  refine ⟨hconv, ?_⟩
  have hroom := EncodeRoom.fastConvertTrack_room malloc s.toFpgaState drive j i
    (by rw [h.size]; omega) (by rw [h.size]; have := h.words; omega) _ hconv
  rw [h.size, fastConvertLen_words] at hroom
  exact hroom

theorem sideStream_pulses_le (image : ℕ → Word) (ptr w : ℕ) :
    (sideStream image ptr w).number_of_pulses ≤ 16*w := by
  have h : (pulses image ptr 0 (16*w)).length ≤ (List.range' 0 (16*w)).length :=
    List.length_filter_le _ _
  rwa [List.length_range'] at h

theorem packedTrack_length (lz4 : LZ4) (image : ℕ → Word) (ptr w : ℕ) (hcells : 12*w < 2^31)
    (hroom : (sideStream image ptr w).data_track.length ≤ 2*w) :
    (packedTrack lz4 (sideStream image ptr w)).length ≤ 3*w+16 := by
  have hmax : LZ4_MAX_INPUT_SIZE = 2113929216 := rfl
  have hsmall : (sideStream image ptr w).data_track.length ≤ LZ4_MAX_INPUT_SIZE := by omega
  have hbound := lz4.bounded (sideStream image ptr w).data_track
    (LZ4_compressBound (sideStream image ptr w).data_track.length) hsmall (le_refl _)
  have hpacked : packedTrack lz4 (sideStream image ptr w) =
      lz4.compress (sideStream image ptr w).data_track
        (LZ4_compressBound (sideStream image ptr w).data_track.length) := rfl
  rw [← hpacked, compressBound_small _ hsmall] at hbound
  omega

theorem small_of_stored {lo w ptr k : ℕ} {packed : List Byte} {image : ℕ → Word} {r : Saving}
    (h : Stored lo packed (sideStream image ptr w) k r) (hcells : 12*w < 2^31)
    (hroom : (sideStream image ptr w).data_track.length ≤ 2*w) (hfile : r.file.length < 2^32) :
    TrackDef.Small (r.tracks_def k) := by
  obtain ⟨off, -, hoff, -, hdef⟩ := h
  have hpulses := sideStream_pulses_le image ptr w
  have hflag : STREAMHFE_TRKFLAG_PACKED < 2^32 := by decide
  rw [hdef]
  exact ⟨hflag, by simp only; omega, by simp only; omega, lt_of_le_of_lt hroom (by omega),
    show 16*w < 2^32 by omega, lt_of_le_of_lt hpulses (by omega)⟩

theorem save_holds (host : SaveHost) (hworks : Works host) (drive : Fin 4) (s : DriveState)
    (w n : ℕ) (h : Disk drive s w n) :
    ∃ file, saveStreamHfe host drive s = some (file,remapped drive s) ∧
      ∀ lhost, Reads lhost file → ∃ tracks, openImage lhost = some (savedHeader n,tracks) ∧
        (tracks 0).track_len = 16*w ∧
        Holds host.lz4 file tracks (s.disk_image drive) w n := by
  have hbytes := h.bytes
  have hcells := h.cells
  have hnarrow := h.narrow
  have hpos := h.words
  have htracks := h.tracks
  set conv : ℕ × ℕ → TrackStream :=
    fun q => sideStream (s.disk_image drive) (2*w*q.1+q.2) w with hconv
  have hside : ∀ q ∈ trackSides n 2, q.1 < n ∧ q.2 < 2 := fun q hq => by
    obtain ⟨j, i⟩ := q
    exact (mem_trackSides n 2 j i).mp hq
  have hlist : (savedRoom n).length ≤ 2^15 := by
    rw [savedRoom_length]
    simp only [trackListLen, savedHeader, trackDefSize]
    omega
  have hfit : (savedRoom n).length+(3*w+16)*(trackSides n 2).length < 2^32 := by
    rw [trackSides_length, show (3*w+16)*(2*n) = 6*(w*n)+32*n by ring]
    have hmul : 4*w*n = 4*(w*n) := by ring
    omega
  obtain ⟨-, -, hstored, hend⟩ := saveTracks_stored host drive (remapped drive s) 2 (3*w+16) conv
    (trackSides n 2) ⟨fun _ => ⟨0,0,0,0,0,0⟩,savedRoom n⟩
    (fun q hq => (h.converts _ (hworks.malloc q.1 q.2) (hside q hq).1 (hside q hq).2).1)
    (fun q hq => packedTrack_length host.lz4 _ _ w hcells
      (h.converts _ (hworks.malloc q.1 q.2) (hside q hq).1 (hside q hq).2).2)
    (by rw [trackSides_index]; exact List.nodup_range) hfit
  obtain ⟨data, hdata, hsave⟩ := saveStreamHfe_file host drive s n h.count htracks hnarrow
    hworks.fopen (hworks.mmap _ (by
      rw [h.size, Nat.mod_eq_of_lt (by omega)]
      exact Nat.mul_pos (by omega) htracks))
  set r := saveTracks host drive (remapped drive s) 2 (trackSides n 2)
    ⟨fun _ => ⟨0,0,0,0,0,0⟩,savedRoom n⟩ with hr
  have hentry : ∀ j < n, ∀ i < 2, Stored (savedRoom n).length (packedTrack host.lz4 (conv (j,i)))
      (conv (j,i)) (2*j+i) r := fun j hj i hi => by
    have hq := hstored (j,i) ((mem_trackSides n 2 j i).mpr ⟨hj, hi⟩)
    rwa [trackArrayIndex_two j i hi] at hq
  have hsmall : ∀ k < 2*n, TrackDef.Small (r.tracks_def k) := by
    intro k hk
    have hq := hentry (k/2) (by omega) (k % 2) (by omega)
    rw [show 2*(k/2)+k % 2 = k by omega] at hq
    exact small_of_stored hq hcells
      (h.converts _ (hworks.malloc (k/2) (k % 2)) (by omega) (by omega)).2 hend
  refine ⟨_, hsave, fun lhost hreads => ?_⟩
  obtain ⟨tracks, hopen, hsame⟩ := openImage_saved lhost _ _ n r.tracks_def hreads htracks hnarrow
    rfl hsmall
  have hfront : (headerBytes (savedHeader n) ++
      (tableBytes r.tracks_def (trackListLen (savedHeader n)) ++ List.replicate 512 0#8)).length =
        (savedRoom n).length := by
    rw [savedRoom_length, List.length_append, List.length_append, headerBytes_length,
      tableBytes_length, List.length_replicate]
    omega
  refine ⟨tracks, hopen, ?_, ?_⟩
  · obtain ⟨off, -, -, -, hdef⟩ := hentry 0 htracks 0 (by decide)
    rw [hsame 0 (by omega), hdef]
    rfl
  · refine ⟨fun j hj i hi => ?_, fun j hj i hi =>
      (h.converts _ (hworks.malloc j i) hj hi).2, fun j hj i hi => ?packs⟩
    case packs =>
      have hroom := (h.converts _ (hworks.malloc j i) hj hi).2
      have hmax : LZ4_MAX_INPUT_SIZE = 2113929216 := rfl
      exact hworks.packs _ _ (by omega) (le_refl _)
    have hq := hentry j hj i hi
    rw [show r = ⟨r.tracks_def,savedRoom n ++ data⟩ by rw [← hdata]] at hq
    have hmoved := hq.moved hfront (hsame (2*j+i) (by omega))
    rw [List.append_assoc, List.append_assoc] at hmoved
    rw [trackArrayIndex_two j i hi]
    exact ⟨_, hmoved⟩

/-! ## The load -/

/-- What a load of a saved disk runs the tracks on, and what it is if they end. -/
theorem load_runs {lhost : Host} {file : List Byte} {tracks : ℕ → TrackDef} {w n : ℕ}
    (hreads : Reads lhost file) (hpos : 0 < w) (hfits : 4*w*(n+2) < 2^31)
    (hopen : openImage lhost = some (savedHeader n,tracks)) (hlen : (tracks 0).track_len = 16*w)
    (drive : Fin 4) (double_step : Bool) (s : DriveState) :
    ∃ p : DriveState, p.image_track_size_reg drive = 4*w ∧ p.image_max_track_reg drive = n+2 ∧
      p.mapped drive = some (4*w*(n+2)) ∧
      (∀ a, p.disk_image drive a =
        if a < clearedWords (4*w) (n+2) then 0#16 else s.disk_image drive a) ∧
      ∀ l, loadTracks lhost drive tracks 2 (trackSides n 2) ⟨p,[]⟩ = .ok l →
        loadStreamHfe lhost drive double_step s =
          .ok { l with state := insertDisk drive double_step l.state } := by
  have hmul : 4*w*(n+2) = 4*w*n+8*w := by ring
  have hsize : (tracks 0).track_len/8*2 = 4*w := by
    rw [hlen]
    omega
  have hcount : (n+2) % 2^32 = n+2 := by
    have hle : n+2 ≤ 4*w*(n+2) := Nat.le_mul_of_pos_left _ (by omega)
    exact Nat.mod_eq_of_lt (by omega)
  have hmapped : mappedImage lhost n (tracks 0).track_len = some (4*w*(n+2)) := by
    rw [mappedImage, hsize, hcount, Nat.mod_eq_of_lt (by omega)]
    exact if_pos (hreads.mmap _ (Nat.mul_pos (by omega) (by omega)))
  have hclears : ClearsInside lhost n (tracks 0).track_len := by
    intro len hl
    obtain rfl := Option.some.inj (hmapped.symm.trans hl)
    have hdiv : 4*w/4*(n+2) % 2^32 ≤ w*(n+2) := by
      rw [show 4*w/4 = w by omega]
      exact Nat.mod_le _ _
    have hfour : 4*w*(n+2) = 4*(w*(n+2)) := by ring
    rw [hsize, hcount, clearedWords]
    omega
  rcases programDrive_cases lhost drive n (tracks 0).track_len s with
    ⟨hno, -⟩ | ⟨-, p, hprog, hp⟩
  · exact absurd hclears hno
  · refine ⟨p, hp.size.trans hsize, hp.count.trans hcount, hp.mapped.trans hmapped, fun a => ?_,
      fun l hl => ?_⟩
    · rw [hp.image, hsize, hcount, hmapped]
      simp
    · have htrack : (savedHeader n).number_of_track = n := rfl
      have hside : (savedHeader n).number_of_side = 2 := rfl
      simp only [loadStreamHfe, hopen, htrack, hside, hprog, hl]

/-- A load of the sides of an image restores them over any image that agrees with it
where it is not cleared. -/
theorem load_restores {lhost : Host} {lz4 : LZ4} {file : List Byte} {tracks : ℕ → TrackDef}
    {image : ℕ → Word} {w n : ℕ} (hreads : Reads lhost file) (hunpack : Unpacks lhost lz4)
    (hpos : 0 < w) (hcells : 16*w ≤ 2^28) (hfits : 4*w*(n+2) < 2^31)
    (hopen : openImage lhost = some (savedHeader n,tracks)) (hlen : (tracks 0).track_len = 16*w)
    (hholds : Holds lz4 file tracks image w n) (drive : Fin 4) (double_step : Bool)
    (s : DriveState)
    (hold : ∀ a, clearedWords (4*w) (n+2) ≤ a → s.disk_image drive a = image a) :
    ∃ l, loadStreamHfe lhost drive double_step s = .ok l ∧
      l.state.image_track_size_reg drive = 4*w ∧ l.state.image_max_track_reg drive = n+2 ∧
      ∀ j < n, ∀ i < 2, ∀ k < w,
        l.state.disk_image drive (2*w*j+i+2*k) = image (2*w*j+i+2*k) := by
  have hmul : 4*w*(n+2) = 4*w*n+8*w := by ring
  obtain ⟨p, hsize, hcount, hmapped, himage, hend⟩ := load_runs hreads hpos hfits hopen hlen drive
    double_step s
  have hsub : ∀ a, p.disk_image drive a ||| image a = image a := by
    intro a
    rw [himage]
    split
    · exact BitVec.zero_or
    · rename_i hclear
      rw [hold a (by omega)]
      exact BitVec.or_self
  obtain ⟨l, hl, hkept, hwords⟩ := loadTracks_restores hreads hunpack hcells hpos
    (by omega : 4*w*n ≤ 4*w*(n+2)) (by omega) hholds (trackSides n 2)
    (fun q hq => (mem_trackSides n 2 q.1 q.2).mp hq) ⟨p,[]⟩ hsize hmapped
    (fun _ _ _ _ _ _ => hsub _)
  refine ⟨{ l with state := insertDisk drive double_step l.state }, hend l hl, ?_, ?_, ?_⟩
  · simp only [insertDisk, hkept.size, hsize]
  · simp only [insertDisk, hkept.count, hcount]
  · intro j hj i hi k hk
    have hword := hwords j hj i hi k hk
    rw [if_pos ((mem_trackSides n 2 j i).mpr ⟨hj, hi⟩)] at hword
    exact hword

theorem sideWords_eq {s s' : DriveState} {drive : Fin 4} {j i w ptr : ℕ}
    (hsize : s.image_track_size_reg drive = 4*w) (hsize' : s'.image_track_size_reg drive = 4*w)
    (hptr : trackPtr s.toFpgaState drive j i = ptr)
    (hwords : ∀ k < w, s'.disk_image drive (ptr+2*k) = s.disk_image drive (ptr+2*k)) :
    sideWords s'.toFpgaState drive j i = sideWords s.toFpgaState drive j i := by
  have hptr' : trackPtr s'.toFpgaState drive j i = ptr := by
    rw [← hptr]
    simp only [trackPtr, hsize, hsize']
  have hw : 4*w/4 = w := by omega
  rw [sideWords, sideWords, hptr, hptr', hsize, hsize', hw]
  apply List.map_congr_left
  intro a ha
  obtain ⟨k, hk, rfl⟩ := (mem_strided ptr w a).mp ha
  exact hwords k hk

/-- A saved disk can be loaded, with all its sides, and two tracks are counted behind
them. -/
theorem save_load {host : SaveHost} {drive : Fin 4} {s : DriveState} {w n : ℕ}
    (hworks : Works host) (h : Disk drive s w n) (hcells : 16*w ≤ 2^28) :
    ∃ file, saveStreamHfe host drive s = some (file,remapped drive s) ∧
      ∀ lhost double_step, Reads lhost file → Unpacks lhost host.lz4 →
        ∃ l, loadStreamHfe lhost drive double_step (remapped drive s) = .ok l ∧
          l.state.image_track_size_reg drive = s.image_track_size_reg drive ∧
          l.state.image_max_track_reg drive = s.image_max_track_reg drive+2 ∧
          ∀ j < n, ∀ i < 2,
            sideWords l.state.toFpgaState drive j i = sideWords s.toFpgaState drive j i := by
  obtain ⟨file, hsave, hopens⟩ := save_holds host hworks drive s w n h
  refine ⟨file, hsave, fun lhost double_step hreads hunpack => ?_⟩
  obtain ⟨tracks, hopen, hlen, hholds⟩ := hopens lhost hreads
  obtain ⟨l, hl, hsize, hcount, hwords⟩ := load_restores hreads hunpack h.words hcells h.fits
    hopen hlen hholds drive double_step (remapped drive s) (fun _ _ => rfl)
  refine ⟨l, hl, hsize.trans h.size.symm, hcount.trans (by rw [h.count]), fun j hj i hi => ?_⟩
  exact sideWords_eq h.size hsize (h.trackPtr hj hi) (hwords j hj i hi)

theorem disk_of_regs {drive : Fin 4} {s : DriveState}
    (h4 : s.image_track_size_reg drive % 4 = 0) (hpos : 0 < s.image_track_size_reg drive)
    (hcount : 1 ≤ s.image_max_track_reg drive) (hmax : s.image_max_track_reg drive ≤ 253)
    (hfits : s.image_track_size_reg drive*(s.image_max_track_reg drive+2) < 2^31)
    (hsparse : ∀ track < s.image_max_track_reg drive, ∀ side < 2,
      ∀ w ∈ sideWords s.toFpgaState drive track side, (cells w).length ≤ 1) :
    Disk drive s (s.image_track_size_reg drive/4) (s.image_max_track_reg drive) := by
  have hw : 4*(s.image_track_size_reg drive/4) = s.image_track_size_reg drive := by omega
  exact ⟨hw.symm, rfl, by omega, hcount, by omega, by rw [hw]; exact hfits, hsparse⟩

/-- A disk is saved to a file that restores its track size and every word of its
tracks; the drive then has two tracks more. -/
theorem save_load_restores (host : SaveHost) (drive : Fin 4) (s : DriveState)
    (hworks : Works host) (h4 : s.image_track_size_reg drive % 4 = 0)
    (hpos : 0 < s.image_track_size_reg drive) (hsize : s.image_track_size_reg drive ≤ 2^26)
    (hcount : 1 ≤ s.image_max_track_reg drive) (hmax : s.image_max_track_reg drive ≤ 253)
    (hfits : s.image_track_size_reg drive*(s.image_max_track_reg drive+2) < 2^31)
    (hsparse : ∀ track < s.image_max_track_reg drive, ∀ side < 2,
      ∀ w ∈ sideWords s.toFpgaState drive track side, (cells w).length ≤ 1) :
    ∃ file s', saveStreamHfe host drive s = some (file,s') ∧
      ∀ lhost double_step, Reads lhost file → Unpacks lhost host.lz4 →
        ∃ l, loadStreamHfe lhost drive double_step s' = .ok l ∧
          l.state.image_track_size_reg drive = s.image_track_size_reg drive ∧
          l.state.image_max_track_reg drive = s.image_max_track_reg drive+2 ∧
          ∀ track < s.image_max_track_reg drive, ∀ side < 2,
            sideWords l.state.toFpgaState drive track side =
              sideWords s.toFpgaState drive track side := by
  obtain ⟨file, hsave, hload⟩ := save_load hworks
    (disk_of_regs h4 hpos hcount hmax hfits hsparse) (by omega)
  exact ⟨file, _, hsave, hload⟩

/-! ## A disk of one track -/

def literalSave : SaveHost where
  fopen := true
  malloc _ _ _ := true
  mmap len := decide (0 < len)
  lz4 := literalLZ4

theorem literalSave_works : Works literalSave where
  fopen := rfl
  malloc _ _ _ := rfl
  mmap _ hlen := decide_eq_true hlen
  packs data _ _ _ := by
    show literals data ≠ []
    unfold literals
    split <;> exact List.cons_ne_nil _ _

def literalLoad (file : List Byte) : Host :=
  { literalHost file with
    unpack := fun _ _ packed size k =>
      ((literalLZ4.decompress packed size).getD []).getD k 0#8 }

theorem literalLoad_reads (file : List Byte) : Reads (literalLoad file) file where
  fopen := rfl
  malloc _ _ := rfl
  read _ _ _ := rfl
  mmap _ hlen := decide_eq_true hlen

theorem literalLoad_unpacks (file : List Byte) : Unpacks (literalLoad file) literalSave.lz4 := by
  intro j i packed size data hdata k hk
  have hunpack : (literalLoad file).unpack j i packed size k =
      ((literalLZ4.decompress packed size).getD []).getD k 0#8 := rfl
  have hlz4 : literalLZ4.decompress packed size = some data := hdata
  rw [hunpack, hlz4, Option.getD_some, List.getD_eq_getElem?_getD, List.getElem?_eq_getElem hk,
    Option.getD_some]

def onePulse : DriveState :=
  { blankDrive with
    toFpgaState := smallState fun _ a => if a = 0 then 0x8000#16 else 0#16
    image_max_track_reg := fun _ => 1 }

theorem onePulse_sparse : ∀ track < 1, ∀ side < 2,
    ∀ w ∈ sideWords onePulse.toFpgaState 0 track side, (cells w).length ≤ 1 := by
  intro track _ side _ w hw
  obtain ⟨a, -, rfl⟩ := List.mem_map.mp hw
  have hword : onePulse.disk_image 0 a = if a = 0 then 0x8000#16 else 0#16 := rfl
  rw [hword]
  split <;> decide

theorem save_load_restores_onePulse :
    ∃ file s' l, saveStreamHfe literalSave 0 onePulse = some (file,s') ∧
      loadStreamHfe (literalLoad file) 0 false s' = .ok l ∧
      sideWords l.state.toFpgaState 0 0 0 = [0x8000#16,0#16] := by
  obtain ⟨file, s', hsave, hload⟩ := save_load_restores literalSave 0 onePulse literalSave_works
    (by decide) (by decide) (by decide) (by decide) (by decide) (by decide) onePulse_sparse
  obtain ⟨l, hl, -, -, hwords⟩ := hload (literalLoad file) false (literalLoad_reads file)
    (literalLoad_unpacks file)
  exact ⟨file, s', l, hsave, hl, hwords 0 (by decide) 0 (by decide)⟩

theorem onePulse_disk : Disk 0 onePulse 2 1 :=
  ⟨rfl,rfl,by decide,by decide,by decide,by decide,onePulse_sparse⟩

theorem onePulse_adds_tracks :
    ∃ file s' l, saveStreamHfe literalSave 0 onePulse = some (file,s') ∧
      loadStreamHfe (literalLoad file) 0 false s' = .ok l ∧
      l.state.image_max_track_reg 0 ≠ onePulse.image_max_track_reg 0 := by
  obtain ⟨file, hsave, hload⟩ := save_load literalSave_works onePulse_disk (by decide)
  obtain ⟨l, hl, -, hcount, -⟩ := hload (literalLoad file) false (literalLoad_reads file)
    (literalLoad_unpacks file)
  refine ⟨file, _, l, hsave, hl, ?_⟩
  rw [hcount]
  decide

/-! ## A gap that is too long -/

def latePulse (w : ℕ) : DriveState :=
  { blankDrive with
    toFpgaState := { smallState fun _ a => if a = 2*(w-1) then 0x0001#16 else 0#16 with
      image_track_size_reg := fun _ => 4*w }
    image_max_track_reg := fun _ => 1 }

theorem latePulse_image (w a : ℕ) :
    (latePulse w).disk_image 0 a = if a = 2*(w-1) then 0x0001#16 else 0#16 := rfl

theorem latePulse_disk (w : ℕ) (hpos : 0 < w) (hfits : 12*w < 2^31) : Disk 0 (latePulse w) w 1 := by
  refine ⟨rfl, rfl, hpos, by decide, by decide, by omega, ?_⟩
  intro j _ i _ v hv
  obtain ⟨a, -, rfl⟩ := List.mem_map.mp hv
  rw [latePulse_image]
  split <;> decide

theorem latePulse_cut (w : ℕ) (hw : 2^24 < w) :
    16*(w-1)+15 ∉ decodedPositions (pulses ((latePulse w).disk_image 0) 0 0 (16*w)) := by
  have hlast : ∀ p ∈ pulses ((latePulse w).disk_image 0) 0 0 (16*w), p = 16*(w-1)+15 := by
    intro p hp
    obtain ⟨-, hbit⟩ := (mem_pulses _ _ _ _ _).mp hp
    rw [pulseAt, latePulse_image] at hbit
    have hcell : ∀ c < 16, (0x0001#16).getMsbD c = true → c = 15 := by decide
    split at hbit
    · have := hcell _ (Nat.mod_lt _ (by decide)) hbit
      omega
    · simp at hbit
  have hsorted := pulses_sorted ((latePulse w).disk_image 0) 0 0 (16*w)
  generalize pulses ((latePulse w).disk_image 0) 0 0 (16*w) = ps at hlast hsorted
  cases ps with
  | nil => exact List.not_mem_nil
  | cons p ps =>
    obtain rfl := hlast p (List.mem_cons_self ..)
    cases ps with
    | nil =>
      simp only [decodedPositions, CodeStream.deltas_cons, CodeStream.deltas_nil, List.map_cons,
        List.map_nil, CodeStream.positions_cons, CodeStream.positions_nil, List.mem_singleton,
        maxDelta]
      omega
    | cons q ps =>
      have hlt := (List.pairwise_cons.mp hsorted).1 q (List.mem_cons_self ..)
      have hq := hlast q (by simp)
      omega

theorem latePulse_lost (w : ℕ) (hw : 2^24 < w) (hfits : 12*w < 2^31) :
    ∃ file s' l, saveStreamHfe literalSave 0 (latePulse w) = some (file,s') ∧
      loadStreamHfe (literalLoad file) 0 false s' = .ok l ∧
      l.state.disk_image 0 (2*(w-1)) ≠ (latePulse w).disk_image 0 (2*(w-1)) := by
  have hdisk := latePulse_disk w (by omega) hfits
  obtain ⟨file, hsave, hopens⟩ := save_holds literalSave literalSave_works 0 _ w 1 hdisk
  have hreads := literalLoad_reads file
  have hunpack := literalLoad_unpacks file
  obtain ⟨tracks, hopen, hlen, hholds⟩ := hopens _ hreads
  obtain ⟨p, hsize, -, hmapped, himage, hend⟩ := load_runs hreads (by omega) hdisk.fits hopen hlen
    0 false (remapped 0 (latePulse w))
  have hptr (s : DriveState) (i : ℕ) (hi : i < 2) : trackPtr s.toFpgaState 0 0 i = 2*w*0+i := by
    simp only [trackPtr, Nat.mul_zero, Nat.zero_mod, Nat.zero_add]
    exact Nat.mod_eq_of_lt (by omega)
  obtain ⟨lo, hstored⟩ := hholds.stored 0 (by decide) 0 (by decide)
  obtain ⟨lo', hstored'⟩ := hholds.stored 0 (by decide) 1 (by decide)
  obtain ⟨l, hl, hkept, hfirst⟩ := loadTrack_saved (l := ⟨p,[]⟩) hreads hunpack (by omega) hfits
    (hptr p 0 (by decide)) hmapped (by omega) (hholds.room 0 (by decide) 0 (by decide))
    (hholds.packs 0 (by decide) 0 (by decide)) hstored
  obtain ⟨l', hl', -, hsecond⟩ := loadTrack_saved (l := l) hreads hunpack (by omega) hfits
    (hptr l.state 1 (by decide)) (by rw [hkept.mapped]; exact hmapped) (by omega)
    (hholds.room 0 (by decide) 1 (by decide)) (hholds.packs 0 (by decide) 1 (by decide)) hstored'
  have hrun : loadTracks (literalLoad file) 0 tracks 2 (trackSides 1 2) ⟨p,[]⟩ = .ok l' := by
    rw [show trackSides 1 2 = [(0,0),(0,1)] from rfl]
    simp only [loadTracks, hl, hl']
  refine ⟨file, _, _, hsave, hend l' hrun, ?_⟩
  have hcleared : p.disk_image 0 (2*(w-1)) = 0#16 := by
    rw [himage]
    apply if_pos
    rw [clearedWords, show 4*w/4 = w by omega, Nat.mod_eq_of_lt (by omega)]
    omega
  have hafter : l'.state.disk_image 0 (2*(w-1)) = l.state.disk_image 0 (2*(w-1)) := by
    rw [hsecond]
    exact foldl_setCell_frame _ _ w _ _ (decodedPositions_lt _ _ w (by omega))
      fun k _ => by omega
  have hbit : (l.state.disk_image 0 (2*(w-1))).getMsbD 15 = false := by
    have hset := foldl_setCell_bit (p.disk_image 0) (2*w*0+0) (w-1) 15 (by decide)
      (decodedPositions (pulses ((latePulse w).disk_image 0) (2*w*0+0) 0 (16*w)))
    have hcut := latePulse_cut w hw
    simp only [Nat.mul_zero, Nat.zero_add, Nat.add_zero] at hset hfirst
    rw [hfirst, hset, hcleared]
    simpa using hcut
  intro hsame
  have hword : l'.state.disk_image 0 (2*(w-1)) = 0x0001#16 := by
    rw [latePulse_image, if_pos rfl] at hsame
    exact hsame
  rw [← hafter, hword] at hbit
  exact absurd hbit (by decide)

/-- The count of the tracks grows from 1 to 3; and of a track of more than 2^26 bytes
a pulse is lost. -/
theorem save_load_changes_disk :
    (Disk 0 onePulse 2 1 ∧
      ∃ file s' l, saveStreamHfe literalSave 0 onePulse = some (file,s') ∧
        loadStreamHfe (literalLoad file) 0 false s' = .ok l ∧
        l.state.image_max_track_reg 0 ≠ onePulse.image_max_track_reg 0) ∧
    (Disk 0 (latePulse (2^24+1)) (2^24+1) 1 ∧
      ∃ file s' l, saveStreamHfe literalSave 0 (latePulse (2^24+1)) = some (file,s') ∧
        loadStreamHfe (literalLoad file) 0 false s' = .ok l ∧
        l.state.disk_image 0 (2*(2^24+1-1)) ≠ (latePulse (2^24+1)).disk_image 0 (2*(2^24+1-1))) :=
  ⟨⟨onePulse_disk,onePulse_adds_tracks⟩,latePulse_disk _ (by decide) (by decide),
    latePulse_lost _ (by decide) (by decide)⟩

end Pauline.RoundTrip
