import Pauline.Dump.EncodeRoom
import Pauline.Stream.LoadStream

/-!
# The save of a stream image

`save_stream_hfe` leaves room for the list of the tracks, packs the tracks behind it
and writes the list and the header when their offsets are known. The loader finds
what has been written.
-/

set_option autoImplicit false

namespace Pauline.SaveStream
open Buffer Pauline.DeltaCode Pauline.PulseWord Pauline.Track Pauline.LoadStream
open Pauline.DumpChunk Pauline.ChunkBlock

/-! ## The writer -/

structure SaveHost where
  fopen : Bool
  /-- For `fast_convert_track`, by track and side. -/
  malloc : ℕ → ℕ → ℕ → Bool
  mmap : ℕ → Bool
  lz4 : LZ4

def STREAMHFE_TRKFLAG_PACKED : ℕ := 1
def DEFAULT_BITS_PERIOD : ℕ := 40000

def headerWords (h : FileHeader) : List ℕ :=
  [h.formatrevision,h.flags,h.index_array_offset,h.track_list_offset,h.track_data_offset,
    h.number_of_track,h.number_of_side,h.bits_period,h.floppyinterfacemode]

def headerBytes (h : FileHeader) : List Byte :=
  signature ++ (words (headerWords h) ++ List.replicate 460 0#8)

def trackDefBytes (t : TrackDef) : List Byte :=
  words [t.flags,t.packed_data_offset,t.packed_data_size,t.unpacked_data_size,t.track_len,
    t.nb_pulses,0,0]

structure Saving where
  tracks_def : ℕ → TrackDef
  file : List Byte

def saveTrack (host : SaveHost) (drive : Fin 4) (s : DriveState) (number_of_side : ℕ)
    (r : Saving) (q : ℕ × ℕ) : Saving :=
  let track_index := trackArrayIndex number_of_side q.1 q.2
  let packed_data_offset := r.file.length % 2^32
  match fastConvertTrack (host.malloc q.1 q.2) s.toFpgaState drive q.1 q.2 with
  | some t =>
    let packed_track := host.lz4.compress t.data_track (LZ4_compressBound t.outbuffersize)
    let trackdef : TrackDef := ⟨STREAMHFE_TRKFLAG_PACKED,packed_data_offset,
      packed_track.length % 2^32,t.outbuffersize,t.tracksize,t.number_of_pulses⟩
    ⟨Function.update r.tracks_def track_index trackdef,r.file ++ packed_track⟩
  | none =>
    let trackdef : TrackDef := ⟨STREAMHFE_TRKFLAG_PACKED,packed_data_offset,0,0,0,0⟩
    ⟨Function.update r.tracks_def track_index trackdef,r.file⟩

def saveTracks (host : SaveHost) (drive : Fin 4) (s : DriveState) (number_of_side : ℕ)
    (qs : List (ℕ × ℕ)) (r : Saving) : Saving :=
  qs.foldl (saveTrack host drive s number_of_side) r

def patch (file : List Byte) (off : ℕ) (bs : List Byte) : List Byte :=
  file.take off ++ (bs ++ file.drop (off+bs.length))

def tableBytes (tracks_def : ℕ → TrackDef) (tracklistlen : ℕ) : List Byte :=
  (List.range (16*tracklistlen)).flatMap fun k => trackDefBytes (tracks_def k)

def trackListLen (header : FileHeader) : ℕ :=
  (header.number_of_track*header.number_of_side+1)*trackDefSize/512+1

def saveStreamHfe (host : SaveHost) (drive : Fin 4) (s : DriveState) :
    Option (List Byte × DriveState) :=
  if s.image_max_track_reg drive = 0 then none
  else if host.fopen then
    let header : FileHeader :=
      ⟨0,0,0,0,0,s.image_max_track_reg drive % 256,2,DEFAULT_BITS_PERIOD,0⟩
    let file := headerBytes header
    let header := { header with track_list_offset := file.length }
    let tracklistlen := trackListLen header
    let file := file ++ List.replicate (tracklistlen*512) 0#8
    let header := { header with index_array_offset := file.length }
    let file := file ++ List.replicate 512 0#8
    let header := { header with track_data_offset := file.length }
    match allocImage host.mmap drive 0 0 ⟨0,rfl⟩ false s with
    | none => none
    | some s =>
      -- The converter reads from `MAP_FAILED`.
      if s.mapped drive = none ∧ header.number_of_track ≠ 0 then none
      else
        let r := saveTracks host drive s header.number_of_side
          (trackSides header.number_of_track header.number_of_side) ⟨fun _ => ⟨0,0,0,0,0,0⟩,file⟩
        let file := patch r.file header.track_list_offset (tableBytes r.tracks_def tracklistlen)
        some (patch file 0 (headerBytes header),s)
  else none

/-! ## Words behind each other -/

theorem get32_take (bs : List Byte) (m : ℕ) (hm : 4 ≤ m) : get32 (bs.take m) = get32 bs := by
  rw [get32, get32, List.take_take, Nat.min_eq_left hm]

theorem word_take (bs : List Byte) (m k : ℕ) (hm : 4*k+4 ≤ m) : word (bs.take m) k = word bs k := by
  rw [word, word, List.drop_take, get32_take _ _ (by omega)]

theorem word_words (ws : List ℕ) (rest : List Byte) (k : ℕ) (hk : k < ws.length) :
    word (words ws ++ rest) k = ws.getD k 0 % 2^32 := by
  have hsplit : words ws = words (ws.take k) ++ words (ws.getD k 0 :: ws.drop (k+1)) := by
    rw [List.getD_eq_getElem?_getD, List.getElem?_eq_getElem hk, Option.getD_some,
      ← List.drop_eq_getElem_cons hk, words, words, words, ← List.flatMap_append,
      List.take_append_drop]
  have hlen : (ws.take k).length = k := by rw [List.length_take, Nat.min_eq_left hk.le]
  rw [word, hsplit, List.append_assoc, drop_words _ _ _ (by rw [hlen]), get32_words]

theorem headerBytes_length (h : FileHeader) : (headerBytes h).length = 512 := by
  have hsign : signature.length = 16 := rfl
  have hwords : (headerWords h).length = 9 := rfl
  rw [headerBytes, List.length_append, List.length_append, words_length, List.length_replicate,
    hsign, hwords]

theorem trackDefBytes_length (t : TrackDef) : (trackDefBytes t).length = trackDefSize := by
  simp [trackDefBytes, trackDefSize]

theorem tableBytes_length (f : ℕ → TrackDef) (n : ℕ) : (tableBytes f n).length = 512*n := by
  simp only [tableBytes, List.length_flatMap, trackDefBytes_length, trackDefSize, List.map_const',
    List.sum_replicate, List.length_range, smul_eq_mul]
  omega

def FileHeader.Small (h : FileHeader) : Prop := ∀ w ∈ headerWords h, w < 2^32

theorem ofBytes_headerBytes (h : FileHeader) (hsmall : FileHeader.Small h) (rest : List Byte) :
    FileHeader.ofBytes ((headerBytes h ++ rest).take fileHeaderSize) = h := by
  have hdrop : ((headerBytes h ++ rest).take fileHeaderSize).drop 16 =
      (words (headerWords h) ++ (List.replicate 460 0#8 ++ rest)).take 196 := by
    rw [List.drop_take, headerBytes, List.append_assoc, List.append_assoc,
      List.drop_left' (by rfl)]
    rfl
  have hword (k : ℕ) (hk : k < 9) :
      word (((headerBytes h ++ rest).take fileHeaderSize).drop 16) k =
        (headerWords h).getD k 0 := by
    have hk' : k < (headerWords h).length := hk
    have hlt : (headerWords h).getD k 0 < 2^32 := by
      rw [List.getD_eq_getElem?_getD, List.getElem?_eq_getElem hk']
      exact hsmall _ (List.getElem_mem hk')
    rw [hdrop, word_take _ _ _ (by omega), word_words _ _ _ hk', Nat.mod_eq_of_lt hlt]
  simp only [FileHeader.ofBytes, hword _ (by decide : 0 < 9), hword _ (by decide : 1 < 9),
    hword _ (by decide : 2 < 9), hword _ (by decide : 3 < 9), hword _ (by decide : 4 < 9),
    hword _ (by decide : 5 < 9), hword _ (by decide : 6 < 9), hword _ (by decide : 7 < 9),
    hword _ (by decide : 8 < 9)]
  rfl

theorem take_headerBytes (h : FileHeader) (rest : List Byte) :
    ((headerBytes h ++ rest).take fileHeaderSize).take 16 = signature := by
  rw [List.take_take, headerBytes, List.append_assoc]
  exact List.take_left' rfl

structure TrackDef.Small (t : TrackDef) : Prop where
  flags : t.flags < 2^32
  offset : t.packed_data_offset < 2^32
  packed : t.packed_data_size < 2^32
  unpacked : t.unpacked_data_size < 2^32
  len : t.track_len < 2^32
  pulses : t.nb_pulses < 2^32

theorem ofBytes_trackDefBytes (t : TrackDef) (ht : TrackDef.Small t) (rest : List Byte) (m : ℕ)
    (hm : trackDefSize ≤ m) : TrackDef.ofBytes ((trackDefBytes t ++ rest).take m) = t := by
  have hm' : 32 ≤ m := hm
  have hword (k : ℕ) (hk : k < 6) : word ((trackDefBytes t ++ rest).take m) k =
      ([t.flags,t.packed_data_offset,t.packed_data_size,t.unpacked_data_size,t.track_len,
        t.nb_pulses,0,0].getD k 0) % 2^32 := by
    rw [word_take _ _ _ (by omega), trackDefBytes, word_words _ _ _ (by simp; omega)]
  simp only [TrackDef.ofBytes, hword _ (by decide : 0 < 6), hword _ (by decide : 1 < 6),
    hword _ (by decide : 2 < 6), hword _ (by decide : 3 < 6), hword _ (by decide : 4 < 6),
    hword _ (by decide : 5 < 6), List.getD_cons_zero, List.getD_cons_succ,
    Nat.mod_eq_of_lt ht.flags, Nat.mod_eq_of_lt ht.offset, Nat.mod_eq_of_lt ht.packed,
    Nat.mod_eq_of_lt ht.unpacked, Nat.mod_eq_of_lt ht.len, Nat.mod_eq_of_lt ht.pulses]

theorem drop_flatMap {α : Type*} (g : α → List Byte) (c : ℕ) (hg : ∀ a, (g a).length = c)
    (l : List α) (k : ℕ) : (l.flatMap g).drop (c*k) = (l.drop k).flatMap g := by
  induction k generalizing l with
  | zero => rfl
  | succ k ih =>
    cases l with
    | nil => simp
    | cons a l =>
      rw [List.flatMap_cons, List.drop_succ_cons, ← ih l, Nat.mul_succ, Nat.add_comm,
        ← List.drop_drop, List.drop_left' (hg a)]

/-- The entry of the list that is found at its place. -/
theorem trackOffsetList_tableBytes (host : Host) (f : ℕ → TrackDef) (n count k : ℕ)
    (rest : List Byte) (hk : k < count) (hcount : count ≤ 16*n) (hsmall : TrackDef.Small (f k)) :
    trackOffsetList host ((tableBytes f n ++ rest).take (trackDefSize*count)) k = f k := by
  have hlen := tableBytes_length f n
  have hentry : (tableBytes f n).drop (32*k) = trackDefBytes (f k) ++
      (List.range' (k+1) (16*n-(k+1))).flatMap fun k => trackDefBytes (f k) := by
    rw [tableBytes, drop_flatMap _ 32 (fun k => trackDefBytes_length (f k)),
      List.range_eq_range', List.drop_range', show 16*n-k = 16*n-(k+1)+1 by omega,
      List.range'_succ, List.flatMap_cons, Nat.zero_add, Nat.mul_one]
  have htake : trackDefSize*(k+1) ≤
      ((tableBytes f n ++ rest).take (trackDefSize*count)).length := by
    rw [List.length_take, List.length_append, hlen, trackDefSize]
    omega
  rw [trackOffsetList, if_pos htake]
  simp only [trackDefSize]
  rw [List.drop_take, List.drop_append_of_le_length (by omega), hentry,
    List.append_assoc]
  exact ofBytes_trackDefBytes _ hsmall _ _ (by simp only [trackDefSize]; omega)

/-! ## The tracks -/

def Stored (lo : ℕ) (packed : List Byte) (t : TrackStream) (k : ℕ) (r : Saving) : Prop :=
  ∃ off, lo ≤ off ∧ off+packed.length ≤ r.file.length ∧
    (r.file.drop off).take packed.length = packed ∧
    r.tracks_def k = ⟨STREAMHFE_TRKFLAG_PACKED,off,packed.length,t.outbuffersize,t.tracksize,
      t.number_of_pulses⟩

def packedTrack (lz4 : LZ4) (t : TrackStream) : List Byte :=
  lz4.compress t.data_track (LZ4_compressBound t.outbuffersize)

theorem Stored.later {lo lo' k : ℕ} {packed : List Byte} {t : TrackStream} {r r' : Saving}
    (h : Stored lo packed t k r) (hlo : lo' ≤ lo) (hfile : r.file <+: r'.file)
    (hdef : r'.tracks_def k = r.tracks_def k) : Stored lo' packed t k r' := by
  obtain ⟨off, hoff, hend, hslice, hentry⟩ := h
  obtain ⟨rest, hrest⟩ := hfile
  refine ⟨off, hlo.trans hoff, ?_, ?_, hdef.trans hentry⟩
  · rw [← hrest, List.length_append]
    omega
  · rw [← hrest, List.drop_append_of_le_length (by omega), List.take_append_of_le_length
      (by rw [List.length_drop]; omega), hslice]

/-- What is stored behind two beginnings of one length is the same. -/
theorem Stored.moved {k : ℕ} {packed : List Byte} {t : TrackStream} {f f' : ℕ → TrackDef}
    {a a' data : List Byte} (h : Stored a.length packed t k ⟨f,a ++ data⟩)
    (hlen : a'.length = a.length) (hdef : f' k = f k) :
    Stored a'.length packed t k ⟨f',a' ++ data⟩ := by
  obtain ⟨off, hoff, hend, hslice, hentry⟩ := h
  have hdrop (b : List Byte) (hb : b.length ≤ off) : (b ++ data).drop off = data.drop (off-b.length) := by
    rw [List.drop_append, List.drop_eq_nil_of_le hb, List.nil_append]
  simp only at hend hslice hentry
  refine ⟨off, by omega, ?_, ?_, hdef.trans hentry⟩
  · simp only [List.length_append] at hend ⊢
    omega
  · rw [hdrop a hoff] at hslice
    simp only
    rw [hdrop a' (by omega), hlen, hslice]

theorem saveTrack_stored (host : SaveHost) (drive : Fin 4) (s : DriveState) (sides : ℕ)
    (r : Saving) (q : ℕ × ℕ) (t : TrackStream)
    (ht : fastConvertTrack (host.malloc q.1 q.2) s.toFpgaState drive q.1 q.2 = some t)
    (hfit : r.file.length+(packedTrack host.lz4 t).length < 2^32) :
    let r' := saveTrack host drive s sides r q
    r'.file = r.file ++ packedTrack host.lz4 t ∧
      (∀ k ≠ trackArrayIndex sides q.1 q.2, r'.tracks_def k = r.tracks_def k) ∧
      Stored r.file.length (packedTrack host.lz4 t) t (trackArrayIndex sides q.1 q.2) r' := by
  have hpacked : host.lz4.compress t.data_track (LZ4_compressBound t.outbuffersize) =
      packedTrack host.lz4 t := rfl
  simp only [saveTrack, ht, hpacked]
  refine ⟨trivial, fun k hk => Function.update_of_ne hk _ _, r.file.length, Nat.le_refl _, ?_, ?_,
    ?_⟩
  · rw [List.length_append]
  · rw [List.drop_left, List.take_length]
  · simp only [Function.update_self]
    rw [Nat.mod_eq_of_lt (a := r.file.length) (by omega), Nat.mod_eq_of_lt (by omega)]

/-- The tracks are stored one behind the other, and each entry keeps its place. -/
theorem saveTracks_stored (host : SaveHost) (drive : Fin 4) (s : DriveState) (sides B : ℕ)
    (conv : ℕ × ℕ → TrackStream) (qs : List (ℕ × ℕ)) (r : Saving)
    (hconv : ∀ q ∈ qs,
      fastConvertTrack (host.malloc q.1 q.2) s.toFpgaState drive q.1 q.2 = some (conv q))
    (hB : ∀ q ∈ qs, (packedTrack host.lz4 (conv q)).length ≤ B)
    (hnodup : (qs.map fun q => trackArrayIndex sides q.1 q.2).Nodup)
    (hfit : r.file.length+B*qs.length < 2^32) :
    let r' := saveTracks host drive s sides qs r
    r.file <+: r'.file ∧
      (∀ k ∉ qs.map fun q => trackArrayIndex sides q.1 q.2, r'.tracks_def k = r.tracks_def k) ∧
      (∀ q ∈ qs, Stored r.file.length (packedTrack host.lz4 (conv q)) (conv q)
        (trackArrayIndex sides q.1 q.2) r') ∧
      r'.file.length < 2^32 := by
  induction qs generalizing r with
  | nil =>
    refine ⟨List.prefix_rfl, fun _ _ => rfl, fun q hq => absurd hq List.not_mem_nil, ?_⟩
    simpa [saveTracks] using hfit
  | cons q qs ih =>
    rw [List.map_cons, List.nodup_cons] at hnodup
    rw [List.length_cons, Nat.mul_succ] at hfit
    have hq := hB q (List.mem_cons_self ..)
    obtain ⟨hfile, hdefs, hstored⟩ := saveTrack_stored host drive s sides r q (conv q)
      (hconv q (List.mem_cons_self ..)) (by omega)
    obtain ⟨hpre, hkeep, hall, hend⟩ := ih (saveTrack host drive s sides r q)
      (fun p hp => hconv p (List.mem_cons_of_mem _ hp))
      (fun p hp => hB p (List.mem_cons_of_mem _ hp)) hnodup.2
      (by rw [hfile, List.length_append]; omega)
    have hrun : saveTracks host drive s sides (q :: qs) r =
        saveTracks host drive s sides qs (saveTrack host drive s sides r q) := rfl
    have hstart : r.file <+: (saveTrack host drive s sides r q).file :=
      hfile ▸ List.prefix_append _ _
    simp only [hrun]
    refine ⟨hstart.trans hpre, ?_, ?_, hend⟩
    · intro k hk
      rw [List.map_cons, List.mem_cons, not_or] at hk
      rw [hkeep k hk.2, hdefs k hk.1]
    · intro p hp
      rcases List.mem_cons.mp hp with rfl | hp
      · exact hstored.later (Nat.le_refl _) hpre (hkeep _ hnodup.1)
      · exact (hall p hp).later hstart.length_le List.prefix_rfl rfl

theorem trackArrayIndex_two (j i : ℕ) (hi : i < 2) : trackArrayIndex 2 j i = 2*j+i := by
  have hand : i &&& 1 = i := by
    rw [Nat.and_one_is_mod]
    omega
  rw [trackArrayIndex, if_pos rfl, hand, Nat.shiftLeft_eq, Nat.mul_comm j]
  exact (Nat.two_pow_add_eq_or_of_lt (i := 1) hi j).symm

theorem mem_trackSides (n sides j i : ℕ) : (j,i) ∈ trackSides n sides ↔ j < n ∧ i < sides := by
  simp [trackSides]

/-- The entries of two sides stand in the order of the loops. -/
theorem trackSides_index (n : ℕ) :
    (trackSides n 2).map (fun q => trackArrayIndex 2 q.1 q.2) = List.range (2*n) := by
  induction n with
  | zero => rfl
  | succ n ih =>
    have hsides : trackSides (n+1) 2 = trackSides n 2 ++ [(n,0),(n,1)] := by
      simp [trackSides, List.range_succ]
    rw [hsides, List.map_append, ih, show 2*(n+1) = 2*n+1+1 by omega, List.range_succ,
      List.range_succ, List.append_assoc]
    simp [trackArrayIndex_two]

theorem trackSides_length (n : ℕ) : (trackSides n 2).length = 2*n := by
  have h := congrArg List.length (trackSides_index n)
  rwa [List.length_map, List.length_range] at h

/-! ## The file -/

theorem patch_front (a a' b : List Byte) (h : a'.length = a.length) :
    patch (a ++ b) 0 a' = a' ++ b := by
  rw [patch, List.take_zero, List.nil_append, Nat.zero_add, h, List.drop_left]

theorem patch_mid (a b b' c : List Byte) (h : b'.length = b.length) :
    patch (a ++ (b ++ c)) a.length b' = a ++ (b' ++ c) := by
  have hdrop : (a ++ (b ++ c)).drop (a.length+b'.length) = c := by
    rw [h, ← List.length_append, ← List.append_assoc, List.drop_left]
  rw [patch, List.take_left, hdrop]

theorem saveTracks_prefix (host : SaveHost) (drive : Fin 4) (s : DriveState) (sides : ℕ)
    (qs : List (ℕ × ℕ)) (r : Saving) :
    r.file <+: (saveTracks host drive s sides qs r).file := by
  induction qs generalizing r with
  | nil => exact List.prefix_rfl
  | cons q qs ih =>
    refine List.IsPrefix.trans ?_ (ih (saveTrack host drive s sides r q))
    simp only [saveTrack]
    split
    · exact List.prefix_append _ _
    · exact List.prefix_rfl

def savedHeader (number_of_track : ℕ) : FileHeader :=
  let tracklistlen := (number_of_track*2+1)*trackDefSize/512+1
  ⟨0,0,512+tracklistlen*512,512,512+tracklistlen*512+512,number_of_track,2,DEFAULT_BITS_PERIOD,0⟩

theorem savedHeader_small (n : ℕ) (hn : n < 256) : FileHeader.Small (savedHeader n) := by
  intro w hw
  simp only [headerWords, savedHeader, trackDefSize, DEFAULT_BITS_PERIOD, List.mem_cons,
    List.not_mem_nil, or_false] at hw
  omega

def savedRoom (number_of_track : ℕ) : List Byte :=
  headerBytes ⟨0,0,0,0,0,number_of_track,2,DEFAULT_BITS_PERIOD,0⟩ ++
    List.replicate (trackListLen (savedHeader number_of_track)*512) 0#8 ++ List.replicate 512 0#8

theorem savedRoom_length (n : ℕ) :
    (savedRoom n).length = 1024+512*trackListLen (savedHeader n) := by
  simp only [savedRoom, List.length_append, headerBytes_length, List.length_replicate]
  omega

def remapped (drive : Fin 4) (s : DriveState) : DriveState :=
  { s with
    mapped := Function.update s.mapped drive
      (some (s.image_track_size_reg drive*s.image_max_track_reg drive % 2^32)) }

theorem saveStreamHfe_file (host : SaveHost) (drive : Fin 4) (s : DriveState) (n : ℕ)
    (hn : s.image_max_track_reg drive = n) (hpos : 0 < n) (hcount : n < 256)
    (hopen : host.fopen = true)
    (hmap : host.mmap (s.image_track_size_reg drive*n % 2^32) = true) :
    let r := saveTracks host drive (remapped drive s) 2 (trackSides n 2)
      ⟨fun _ => ⟨0,0,0,0,0,0⟩,savedRoom n⟩
    ∃ data, r.file = savedRoom n ++ data ∧
      saveStreamHfe host drive s = some (headerBytes (savedHeader n) ++
        (tableBytes r.tracks_def (trackListLen (savedHeader n)) ++
          (List.replicate 512 0#8 ++ data)),remapped drive s) := by
  intro r
  obtain ⟨data, hdata⟩ := saveTracks_prefix host drive (remapped drive s) 2 (trackSides n 2)
    ⟨fun _ => ⟨0,0,0,0,0,0⟩,savedRoom n⟩
  refine ⟨data, hdata.symm, ?_⟩
  have hbase := pageBase_offset (s.image_base_address_reg drive)
  have hmod : s.image_max_track_reg drive % 256 = n := by
    rw [hn]
    exact Nat.mod_eq_of_lt hcount
  have halloc : allocImage host.mmap drive 0 0 ⟨0,rfl⟩ false s = some (remapped drive s) := by
    unfold allocImage
    simp only [Bool.false_eq_true, if_false, hbase, Nat.zero_add, hn]
    rw [if_pos hmap, remapped, hn]
  have hmapped : (remapped drive s).mapped drive ≠ none := by simp [remapped]
  have hsave : saveStreamHfe host drive s = some (patch (patch r.file 512
      (tableBytes r.tracks_def (trackListLen (savedHeader n)))) 0
        (headerBytes (savedHeader n)),remapped drive s) := by
    rw [saveStreamHfe, if_neg (by omega), if_pos hopen]
    simp only [hmod, headerBytes_length, halloc]
    rw [if_neg (fun h => hmapped h.1)]
    simp only [List.length_append, headerBytes_length, List.length_replicate]
    rfl
  have hfile : r.file = headerBytes ⟨0,0,0,0,0,n,2,DEFAULT_BITS_PERIOD,0⟩ ++
      (List.replicate (trackListLen (savedHeader n)*512) 0#8 ++
        (List.replicate 512 0#8 ++ data)) := by
    rw [← hdata, savedRoom, List.append_assoc, List.append_assoc]
  have hmid := patch_mid (headerBytes ⟨0,0,0,0,0,n,2,DEFAULT_BITS_PERIOD,0⟩)
    (List.replicate (trackListLen (savedHeader n)*512) 0#8)
    (tableBytes r.tracks_def (trackListLen (savedHeader n))) (List.replicate 512 0#8 ++ data)
    (by rw [tableBytes_length, List.length_replicate, Nat.mul_comm])
  rw [headerBytes_length] at hmid
  rw [hsave, hfile, hmid, patch_front _ _ _ (by rw [headerBytes_length, headerBytes_length])]

structure Reads (host : Host) (file : List Byte) : Prop where
  fopen : host.fopen = true
  malloc : ∀ r size, host.malloc r size = true
  read : ∀ r off size, host.read r off size = fileRead file off size
  mmap : ∀ len, 0 < len → host.mmap len = true

structure Works (host : SaveHost) : Prop where
  fopen : host.fopen = true
  malloc : ∀ j i size, host.malloc j i size = true
  mmap : ∀ len, 0 < len → host.mmap len = true
  packs : ∀ (data : List Byte) (cap : ℤ), data.length ≤ LZ4_MAX_INPUT_SIZE →
    (LZ4_compressBound data.length : ℤ) ≤ cap → host.lz4.compress data cap ≠ []

theorem fileRead_some (file : List Byte) (off size : ℕ) (hpos : 0 < size)
    (hfit : off+size ≤ file.length) :
    fileRead file off size = some ((file.drop off).take size) := if_pos ⟨hpos, hfit⟩

theorem trackListLen_room (n : ℕ) : 2*n < 16*trackListLen (savedHeader n) := by
  simp only [trackListLen, savedHeader, trackDefSize]
  omega

/-- The loader reads back the header and the entries. -/
theorem openImage_saved (host : Host) (file rest : List Byte) (n : ℕ) (f : ℕ → TrackDef)
    (hreads : Reads host file) (hpos : 0 < n) (hcount : n < 256)
    (hfile : file = headerBytes (savedHeader n) ++
      (tableBytes f (trackListLen (savedHeader n)) ++ rest))
    (hsmall : ∀ k < 2*n, TrackDef.Small (f k)) :
    ∃ tracks, openImage host = some (savedHeader n,tracks) ∧ ∀ k < 2*n, tracks k = f k := by
  have hroom := trackListLen_room n
  have hlen : file.length =
      512+(512*trackListLen (savedHeader n)+rest.length) := by
    rw [hfile, List.length_append, List.length_append, headerBytes_length, tableBytes_length]
  have hhead : host.read .header 0 fileHeaderSize = some (file.take fileHeaderSize) := by
    rw [hreads.read, fileRead_some _ _ _ (by decide) (by rw [fileHeaderSize]; omega), List.drop_zero]
  have hparse : FileHeader.ofBytes (file.take fileHeaderSize) = savedHeader n := by
    rw [hfile]
    exact ofBytes_headerBytes _ (savedHeader_small n hcount) _
  have hsign : (file.take fileHeaderSize).take 16 = signature := by
    rw [hfile]
    exact take_headerBytes _ _
  have hsize : listSize n 2 = trackDefSize*(2*n) := by
    rw [listSize, Nat.mul_comm n, Nat.mod_eq_of_lt (a := 2*n) (by omega)]
    exact Nat.mod_eq_of_lt (by rw [trackDefSize]; omega)
  have hdrop : file.drop 512 = tableBytes f (trackListLen (savedHeader n)) ++ rest := by
    rw [hfile, List.drop_left' (headerBytes_length _)]
  have hlist : host.read .tracks 512 (trackDefSize*(2*n)) = some
      ((tableBytes f (trackListLen (savedHeader n)) ++ rest).take (trackDefSize*(2*n))) := by
    rw [hreads.read, fileRead_some _ _ _ (by rw [trackDefSize]; omega)
      (by rw [trackDefSize]; omega), hdrop]
  refine ⟨trackOffsetList host
    ((tableBytes f (trackListLen (savedHeader n)) ++ rest).take (trackDefSize*(2*n))), ?_, ?_⟩
  · have hoff : (savedHeader n).track_list_offset = 512 := rfl
    have hn : (savedHeader n).number_of_track = n := rfl
    have hsides : (savedHeader n).number_of_side = 2 := rfl
    rw [openImage, if_pos hreads.fopen, hhead]
    simp only [hparse, hsign, hn, hsides, hsize, hoff, hreads.malloc, if_true, hlist,
      Option.map_some]
  · intro k hk
    exact trackOffsetList_tableBytes host f _ (2*n) k rest hk (by omega) (hsmall k hk)

end Pauline.SaveStream
