import Pauline.Stream.Track

/-!
# Reading a stream track back into the image

`decodestream` sums the gaps of a track's stream and sets one bit cell of
the image for each. On a blank side it inverts the reference converter.
-/

set_option autoImplicit false

namespace Pauline.Decode
open Pauline.DeltaCode Pauline.PulseWord Pauline.Track

def setCell (image : ℕ → Word) (tmp_ptr cumul : ℕ) : ℕ → Word :=
  let a := tmp_ptr+((cumul >>> 4) <<< 1)
  Function.update image a (image a ||| (0x8000#16 >>> (cumul &&& 0xF)))

def decodeLoop (unpacked_data : ℕ → Byte) (tmp_ptr : ℕ) : ℕ → ℕ → ℕ → (ℕ → Word) → (ℕ → Word)
  | 0, _, _, image => image
  | n+1, k, cumul, image =>
    let r := readCode unpacked_data k
    let cumul := (cumul+r.1) % 2^32
    decodeLoop unpacked_data tmp_ptr n r.2 cumul (setCell image tmp_ptr cumul)

def decodestream (state : FpgaState) (drive : Fin 4) (nb_pulses : ℕ) (unpacked_data : ℕ → Byte)
    (track side : ℕ) : FpgaState :=
  if nb_pulses ≠ 0 then
    { state with
      disk_image := Function.update state.disk_image drive
        (decodeLoop unpacked_data (trackPtr state drive track side) nb_pulses 0 0
          (state.disk_image drive)) }
  else state

theorem setCell_eq (image : ℕ → Word) (ptr p : ℕ) :
    setCell image ptr p = Function.update image (ptr+2*(p/16))
      (image (ptr+2*(p/16)) ||| (0x8000#16 >>> (p % 16))) := by
  have ha : (p >>> 4) <<< 1 = 2*(p/16) := by
    rw [Nat.shiftRight_eq_div_pow, Nat.shiftLeft_eq]
    omega
  have hm : p &&& 0xF = p % 16 := Nat.and_two_pow_sub_one_eq_mod p 4
  simp only [setCell, ha, hm]

theorem mask_bit : ∀ k < 16, ∀ c < 16, (0x8000#16 >>> k).getMsbD c = decide (c = k) := by decide

/-- The decoder sets the cells at the summed gaps of the codes it reads. -/
theorem decodeLoop_positions (u : ℕ → Byte) (ptr n k cumul : ℕ) (image : ℕ → Word)
    (hbig : cumul+(CodeStream.readMany (readCode u) n k).sum < 2^32) :
    decodeLoop u ptr n k cumul image =
      (CodeStream.positions cumul (CodeStream.readMany (readCode u) n k)).foldl
        (fun m p => setCell m ptr p) image := by
  induction n generalizing k cumul image with
  | zero => rfl
  | succ n ih =>
    simp only [CodeStream.readMany, List.sum_cons] at hbig
    have hc : (cumul+(readCode u k).1) % 2^32 = cumul+(readCode u k).1 :=
      Nat.mod_eq_of_lt (by omega)
    simp only [decodeLoop, hc, CodeStream.readMany, CodeStream.positions_cons, List.foldl_cons]
    exact ih _ _ _ (by omega)

theorem setCell_bit (image : ℕ → Word) (ptr p i c : ℕ) (hc : c < 16) :
    (setCell image ptr p (ptr+2*i)).getMsbD c =
      ((image (ptr+2*i)).getMsbD c || decide (p = 16*i+c)) := by
  rw [setCell_eq]
  by_cases hi : p/16 = i
  · rw [hi, Function.update_self, BitVec.getMsbD_or,
      mask_bit (p % 16) (Nat.mod_lt _ (by decide)) c hc]
    congr 2
    simp only [eq_iff_iff]
    omega
  · have hp : p ≠ 16*i+c := by omega
    rw [Function.update_of_ne (by omega)]
    simp [hp]

theorem foldl_setCell_bit (image : ℕ → Word) (ptr i c : ℕ) (hc : c < 16) (ps : List ℕ) :
    (ps.foldl (fun m p => setCell m ptr p) image (ptr+2*i)).getMsbD c =
      ((image (ptr+2*i)).getMsbD c || decide (16*i+c ∈ ps)) := by
  induction ps generalizing image with
  | nil => simp
  | cons p ps ih =>
    rw [List.foldl_cons, ih, setCell_bit image ptr p i c hc, Bool.or_assoc]
    congr 1
    rw [Bool.eq_iff_iff]
    simp only [Bool.or_eq_true, decide_eq_true_eq, List.mem_cons]
    exact or_congr_left eq_comm

theorem foldl_setCell_frame (image : ℕ → Word) (ptr n a : ℕ) (ps : List ℕ)
    (hps : ∀ p ∈ ps, p < 16*n) (ha : ∀ i < n, a ≠ ptr+2*i) :
    ps.foldl (fun m p => setCell m ptr p) image a = image a := by
  induction ps generalizing image with
  | nil => rfl
  | cons p ps ih =>
    have hp := hps p (by simp)
    rw [List.foldl_cons, ih _ (fun q hq => hps q (by simp [hq])), setCell_eq,
      Function.update_of_ne (ha _ (by omega))]

theorem decodestream_image (state : FpgaState) (drive : Fin 4) (nb : ℕ) (u : ℕ → Byte)
    (track side : ℕ) :
    (decodestream state drive nb u track side).disk_image = Function.update state.disk_image drive
      (decodeLoop u (trackPtr state drive track side) nb 0 0 (state.disk_image drive)) := by
  unfold decodestream
  split_ifs with h
  · rfl
  · have h0 : nb = 0 := by omega
    simp [h0, decodeLoop]

theorem sum_deltas_le (old b : ℕ) (ps : List ℕ) (h : (old::ps).Pairwise (· ≤ ·))
    (hb : ∀ p ∈ old::ps, p ≤ b) : old+(CodeStream.deltas old ps).sum ≤ b := by
  induction ps generalizing old with
  | nil => simpa using hb old (by simp)
  | cons p ps ih =>
    obtain ⟨hold, hps⟩ := List.pairwise_cons.mp h
    have hp := hold p (by simp)
    have hrest := ih p hps (fun q hq => hb q (List.mem_cons_of_mem _ hq))
    simp only [CodeStream.deltas_cons, List.sum_cons]
    omega

theorem pulses_from_zero (mem : ℕ → Word) (src n : ℕ) :
    (0 :: pulses mem src 0 (16*n)).Pairwise (· ≤ ·) :=
  List.pairwise_cons.mpr ⟨fun _ _ => Nat.zero_le _,
    (pulses_sorted mem src 0 (16*n)).imp (fun h => Nat.le_of_lt h)⟩

theorem pulses_lt (mem : ℕ → Word) (src n : ℕ) : ∀ p ∈ pulses mem src 0 (16*n), p < 16*n := by
  intro p hp
  have := (mem_pulses mem src 0 (16*n) p).mp hp
  omega

def decodedPositions (ps : List ℕ) : List ℕ :=
  CodeStream.positions 0 ((CodeStream.deltas 0 ps).map (min · maxDelta))

theorem readMany_deltas (u : ℕ → Byte) (ps : List ℕ)
    (hu : CodeStream.Holds u 0 ((CodeStream.deltas 0 ps).flatMap encodeDelta)) :
    CodeStream.readMany (readCode u) ps.length 0 =
      (CodeStream.deltas 0 ps).map (min · maxDelta) := by
  have hcut : ((CodeStream.deltas 0 ps).map (min · maxDelta)).flatMap encodeDelta =
      (CodeStream.deltas 0 ps).flatMap encodeDelta := by
    rw [List.flatMap_map]
    exact congrArg (List.flatMap · _) (funext fun d => (encodeDelta_saturates d).symm)
  have hle : ∀ d ∈ (CodeStream.deltas 0 ps).map (min · maxDelta), d ≤ maxDelta := by
    intro d hd
    obtain ⟨e, -, rfl⟩ := List.mem_map.mp hd
    exact Nat.min_le_right e maxDelta
  have hread := readMany_encodeDelta u 0 _ hle (hcut.symm ▸ hu)
  rwa [List.length_map, CodeStream.deltas_length] at hread

theorem decodedPositions_eq (ps : List ℕ) (hsorted : (0::ps).Pairwise (· ≤ ·))
    (hle : ∀ p ∈ ps, p ≤ maxDelta) : decodedPositions ps = ps := by
  have hsame : (CodeStream.deltas 0 ps).map (min · maxDelta) = CodeStream.deltas 0 ps := by
    have hid : ∀ d ∈ CodeStream.deltas 0 ps, min d maxDelta = id d := fun d hd =>
      Nat.min_eq_left (CodeStream.deltas_le 0 maxDelta ps hle d hd)
    rw [List.map_congr_left hid, List.map_id]
  rw [decodedPositions, hsame, CodeStream.positions_deltas _ _ hsorted]

theorem sum_cut_le (ds : List ℕ) (m : ℕ) : (ds.map (min · m)).sum ≤ ds.sum := by
  induction ds with
  | nil => simp
  | cons d ds ih =>
    simp only [List.map_cons, List.sum_cons]
    omega

theorem positions_le_sum (acc : ℕ) (ds : List ℕ) :
    ∀ p ∈ CodeStream.positions acc ds, p ≤ acc+ds.sum := by
  induction ds generalizing acc with
  | nil => simp
  | cons d ds ih =>
    intro p hp
    rw [List.sum_cons]
    rcases List.mem_cons.mp hp with rfl | hp
    · omega
    · have := ih _ p hp
      omega

theorem deltas_pulses_sum (mem : ℕ → Word) (src n : ℕ) :
    (CodeStream.deltas 0 (pulses mem src 0 (16*n))).sum ≤ 16*n-1 := by
  have h := sum_deltas_le 0 (16*n-1) _ (pulses_from_zero mem src n) (fun p hp => by
    rcases List.mem_cons.mp hp with rfl | hp
    · exact Nat.zero_le _
    · have := pulses_lt mem src n p hp
      omega)
  omega

theorem decodedPositions_lt (mem : ℕ → Word) (src n : ℕ) (hn : 0 < n) :
    ∀ p ∈ decodedPositions (pulses mem src 0 (16*n)), p < 16*n := by
  intro p hp
  have hle := positions_le_sum _ _ p hp
  have hcut := sum_cut_le (CodeStream.deltas 0 (pulses mem src 0 (16*n))) maxDelta
  have hsum := deltas_pulses_sum mem src n
  omega

/-- Decoding the gaps between the pulses of a side sets the pulses that are found. -/
theorem decodeLoop_decoded (mem image : ℕ → Word) (u : ℕ → Byte) (src ptr n : ℕ)
    (hcells : 16*n < 2^32)
    (hu : CodeStream.Holds u 0
      ((CodeStream.deltas 0 (pulses mem src 0 (16*n))).flatMap encodeDelta)) :
    decodeLoop u ptr (pulses mem src 0 (16*n)).length 0 0 image =
      (decodedPositions (pulses mem src 0 (16*n))).foldl (fun m p => setCell m ptr p) image := by
  have hread := readMany_deltas u _ hu
  have hcut := sum_cut_le (CodeStream.deltas 0 (pulses mem src 0 (16*n))) maxDelta
  have hsum := deltas_pulses_sum mem src n
  rw [decodeLoop_positions _ _ _ _ _ _ (by rw [hread]; omega), hread, decodedPositions]

theorem decodedPositions_pulses (mem : ℕ → Word) (src n : ℕ) (hcells : 16*n ≤ 2^28) :
    decodedPositions (pulses mem src 0 (16*n)) = pulses mem src 0 (16*n) := by
  apply decodedPositions_eq _ (pulses_from_zero mem src n)
  intro p hp
  have := pulses_lt mem src n p hp
  simp only [maxDelta]
  omega

theorem decodeLoop_pulses (mem image : ℕ → Word) (u : ℕ → Byte) (src ptr n : ℕ)
    (hcells : 16*n ≤ 2^28)
    (hu : CodeStream.Holds u 0
      ((CodeStream.deltas 0 (pulses mem src 0 (16*n))).flatMap encodeDelta)) :
    decodeLoop u ptr (pulses mem src 0 (16*n)).length 0 0 image =
      (pulses mem src 0 (16*n)).foldl (fun m p => setCell m ptr p) image := by
  rw [decodeLoop_decoded mem image u src ptr n (by omega) hu,
    decodedPositions_pulses mem src n hcells]

/-- The pulses of a side are added to the words they are set in. -/
theorem setPulses_word (image m : ℕ → Word) (ptr w k : ℕ) (hk : k < w) :
    (pulses image ptr 0 (16*w)).foldl (fun m p => setCell m ptr p) m (ptr+2*k) =
      m (ptr+2*k) ||| image (ptr+2*k) := by
  apply BitVec.eq_of_getMsbD_eq
  intro c hc
  have hmem := mem_pulses image ptr 0 (16*w) (16*k+c)
  simp only [pulseAt, show (16*k+c)/16 = k by omega, show (16*k+c) % 16 = c by omega] at hmem
  rw [foldl_setCell_bit _ _ _ _ hc, BitVec.getMsbD_or]
  congr 1
  rw [Bool.eq_iff_iff, decide_eq_true_eq, hmem]
  constructor
  · exact fun h => h.2
  · exact fun h => ⟨by omega, h⟩

theorem setPulses_frame (image m : ℕ → Word) (ptr w a : ℕ) (ha : ∀ k < w, a ≠ ptr+2*k) :
    (pulses image ptr 0 (16*w)).foldl (fun m p => setCell m ptr p) m a = m a :=
  foldl_setCell_frame m ptr w a _ (pulses_lt image ptr w) ha

/-- Words of different sides or tracks of one image have different addresses. -/
theorem words_apart (size track side i track' side' i' : ℕ) (h4 : size % 4 = 0)
    (hs : side < 2) (hs' : side' < 2) (hi : i < size/4) (hi' : i' < size/4)
    (hne : (track', side') ≠ (track, side)) :
    size/2*track'+side'+2*i' ≠ size/2*track+side+2*i := by
  obtain ⟨n, rfl⟩ : ∃ n, size = 4*n := ⟨size/4, by omega⟩
  have e1 : 2*n*track' = 2*(n*track') := by ring
  have e2 : 2*n*track = 2*(n*track) := by ring
  rw [show 4*n/4 = n by omega] at hi hi'
  rw [show 4*n/2 = 2*n by omega]
  intro h
  have hside : side' = side := by omega
  have htrack : n*track'+i' = n*track+i := by omega
  have hq : track' = track := by
    have h1 := congrArg (·/n) htrack
    have hn : 0 < n := by omega
    simpa [Nat.mul_add_div hn, Nat.div_eq_of_lt hi, Nat.div_eq_of_lt hi'] using h1
  exact hne (by rw [hq, hside])

theorem trackPtr_eq (state : FpgaState) (drive : Fin 4) (track side : ℕ)
    (h4 : state.image_track_size_reg drive % 4 = 0)
    (hpos : 0 < state.image_track_size_reg drive) (hside : side < 2)
    (hfit : state.image_track_size_reg drive/2*(track+1) < 2^32) :
    trackPtr state drive track side = state.image_track_size_reg drive/2*track+side := by
  rw [Nat.mul_succ] at hfit
  rw [trackPtr, Nat.mod_eq_of_lt (a := _*track) (by omega), Nat.mod_eq_of_lt (by omega)]

/-- Decoding the reference stream of one side onto a blank side restores its
words and touches no other word: not of the other side, not of another
track, not of another drive. -/
theorem decodestream_round_trip (malloc : ℕ → Bool) (state target : FpgaState) (drive : Fin 4)
    (track side : ℕ) (t : TrackStream) (unpacked_data : ℕ → Byte) (hside : side < 2)
    (h4 : state.image_track_size_reg drive % 4 = 0)
    (hpos : 0 < state.image_track_size_reg drive)
    (hcells : 4*state.image_track_size_reg drive < 2^28)
    (hsize : target.image_track_size_reg drive = state.image_track_size_reg drive)
    (ht : convertTrack malloc state drive track side = some t)
    (hu : ∀ (i : ℕ) (hi : i < t.data_track.length), unpacked_data i = t.data_track[i])
    (hblank : ∀ i < state.image_track_size_reg drive/4,
      target.disk_image drive (trackPtr state drive track side+2*i) = 0#16) :
    let out := decodestream target drive t.number_of_pulses unpacked_data track side
    (∀ i < state.image_track_size_reg drive/4,
      out.disk_image drive (trackPtr state drive track side+2*i) =
        state.disk_image drive (trackPtr state drive track side+2*i)) ∧
    (∀ a, (∀ i < state.image_track_size_reg drive/4, a ≠ trackPtr state drive track side+2*i) →
      out.disk_image drive a = target.disk_image drive a) ∧
    (∀ track' side' i, side' < 2 → i < state.image_track_size_reg drive/4 →
      (track', side') ≠ (track, side) →
      state.image_track_size_reg drive/2*(track+1) < 2^32 →
      state.image_track_size_reg drive/2*(track'+1) < 2^32 →
      out.disk_image drive (trackPtr state drive track' side'+2*i) =
        target.disk_image drive (trackPtr state drive track' side'+2*i)) ∧
    (∀ d ≠ drive, out.disk_image d = target.disk_image d) ∧
    out.image_track_size_reg = target.image_track_size_reg := by
  obtain ⟨n, hn⟩ : ∃ n, state.image_track_size_reg drive = 4*n :=
    ⟨state.image_track_size_reg drive/4, by omega⟩
  have hn4 : state.image_track_size_reg drive/4 = n := by omega
  have hm : malloc (16*n) = true := by
    by_contra hm
    rw [convertTrack, hn, convertLen_words n (by omega), if_neg hm] at ht
    cases ht
  have href := convertTrack_pulses malloc state drive track side n hn (by omega) (by omega) hm
  rw [ht] at href
  obtain rfl := Option.some.inj href
  rw [hn4] at hblank ⊢
  have hptr (k s : ℕ) : trackPtr target drive k s = trackPtr state drive k s := by
    simp only [trackPtr, hsize]
  set ptr := trackPtr state drive track side with hptrdef
  set ps := pulses (state.disk_image drive) ptr 0 (16*n) with hps
  have hloop := decodeLoop_pulses (state.disk_image drive) (target.disk_image drive)
    unpacked_data ptr ptr n (by omega)
    (CodeStream.holds_of_get _ _ _ (fun i hi => by simpa using hu i hi))
  have himage := decodestream_image target drive ps.length unpacked_data track side
  rw [hptr, ← hptrdef, hloop] at himage
  have hframe := setPulses_frame (state.disk_image drive) (target.disk_image drive) ptr n
  refine ⟨?_, ?_, ?_, ?_, ?_⟩
  · intro i hi
    rw [himage, Function.update_self]
    exact (setPulses_word _ _ ptr n i hi).trans (by rw [hblank i hi, BitVec.zero_or])
  · intro a ha
    rw [himage, Function.update_self]
    exact hframe a ha
  · intro track' side' i hs' hi hne hfit hfit'
    rw [himage, Function.update_self]
    apply hframe
    intro i' hi'
    rw [trackPtr_eq state drive track' side' h4 hpos hs' hfit', hptrdef,
      trackPtr_eq state drive track side h4 hpos hside hfit]
    exact words_apart _ track side i' track' side' i h4 hside hs' (by omega) (by omega) hne
  · intro d hd
    rw [himage, Function.update_of_ne hd]
  · unfold decodestream
    split_ifs <;> rfl

theorem decodestream_round_trip_doublePulse :
    let u := fun i => [byte 0, byte 1, byte 15].getD i 0
    (decodestream (smallState fun _ _ => 0#16) 0 3 u 0 0).disk_image 0 0 = 0xC000#16 ∧
      (decodestream (smallState fun _ _ => 0#16) 0 3 u 0 0).disk_image 0 2 = 0x8000#16 := by
  have h := (decodestream_round_trip (fun _ => true) doublePulse (smallState fun _ _ => 0#16)
    0 0 0 _ (fun i => [byte 0, byte 1, byte 15].getD i 0) (by decide) (by decide) (by decide)
    (by decide) rfl convertTrack_doublePulse (by decide) (fun _ _ => rfl)).1
  exact ⟨h 0 (by decide), h 1 (by decide)⟩

end Pauline.Decode
