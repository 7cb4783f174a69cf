import Pauline.Dump.ChunkBlock

/-!
# The room of the encoders

A pulse may take four bytes where the buffers have one for each bit cell, or two
for each word. A code of several bytes comes behind cells without a pulse, which
pay for it.
-/

set_option autoImplicit false

namespace Pauline.EncodeRoom
open Pauline.DeltaCode Pauline.PulseWord Pauline.Track Pauline.DumpChunk Pauline.ChunkBlock

structure Fits (malloc : ℕ → Bool) (state : FpgaState) (drive : Fin 4)
    (track side chunk_ptr chunk_size bitdelta : ℕ) : Prop where
  convert_track : ∀ r, convertTrack malloc state drive track side = some r →
    r.outbuffersize ≤ convertLen (state.image_track_size_reg drive)
  fast_convert_track : ∀ r, fastConvertTrack malloc state drive track side = some r →
    r.outbuffersize ≤ fastConvertLen (state.image_track_size_reg drive)
  fast_convert_chunk : ∀ r, fastConvertChunk malloc state chunk_ptr chunk_size bitdelta = some r →
    r.data_track.length ≤ chunkLen chunk_size

/-! ## The reference -/

theorem encodeDelta_length_le {d : ℕ} (hd : 0 < d) : (encodeDelta d).length ≤ d := by
  unfold encodeDelta
  split_ifs <;> simp only [List.length_cons, List.length_nil] <;> omega

/-- Behind a pulse no more bytes are written than there are bit cells. -/
theorem deltas_bytes (old n : ℕ) (ps : List ℕ) (hsorted : (old::ps).Pairwise (· < ·))
    (hlt : ∀ p ∈ old::ps, p < n) :
    ((CodeStream.deltas old ps).flatMap encodeDelta).length + old + 1 ≤ n := by
  induction ps generalizing old with
  | nil =>
    have := hlt old (by simp)
    simp only [CodeStream.deltas_nil, List.flatMap_nil, List.length_nil]
    omega
  | cons p ps ih =>
    obtain ⟨hold, hps⟩ := List.pairwise_cons.mp hsorted
    have hp := hold p (by simp)
    have hrest := ih p hps fun q hq => hlt q (List.mem_cons_of_mem _ hq)
    have hcode := encodeDelta_length_le (d := p-old) (by omega)
    simp only [CodeStream.deltas_cons, List.flatMap_cons, List.length_append]
    omega

theorem deltas_zero_bytes (n : ℕ) (ps : List ℕ) (hsorted : ps.Pairwise (· < ·))
    (hlt : ∀ p ∈ ps, p < n) :
    ((CodeStream.deltas 0 ps).flatMap encodeDelta).length ≤ n := by
  cases ps with
  | nil => exact Nat.zero_le n
  | cons p ps =>
    have hrest := deltas_bytes p n ps hsorted hlt
    simp only [CodeStream.deltas_cons, List.flatMap_cons, List.length_append, Nat.sub_zero]
    rcases Nat.eq_zero_or_pos p with rfl | hpos
    · have hone : (encodeDelta 0).length = 1 := rfl
      omega
    · have hcode := encodeDelta_length_le hpos
      omega

theorem convertLen_cells {track_size : ℕ} (h4 : track_size % 4 = 0) :
    convertLen track_size = 16*(track_size*8 % 2^32/32) := by
  simp only [convertLen]
  rw [if_neg (by omega)]
  omega

theorem convertTrack_room (malloc : ℕ → Bool) (state : FpgaState) (drive : Fin 4)
    (track side : ℕ) (h4 : state.image_track_size_reg drive % 4 = 0)
    (hpos : 0 < convertLen (state.image_track_size_reg drive)) (r : TrackStream)
    (hr : convertTrack malloc state drive track side = some r) :
    r.outbuffersize ≤ convertLen (state.image_track_size_reg drive) := by
  rw [convertLen_cells h4] at hpos ⊢
  have hloop := convertLoop_pulses (state.disk_image drive) (trackPtr state drive track side)
    (state.image_track_size_reg drive*8 % 2^32/32) ⟨0,0,0,[]⟩ ⟨by simp,by simp⟩ hpos
  simp only [convertTrack, convertLen_cells h4, hloop, converted, Nat.sub_zero, List.nil_append]
    at hr
  split at hr
  · obtain rfl := Option.some.inj hr
    apply deltas_zero_bytes _ _ (pulses_sorted _ _ _ _)
    intro p hp
    have := ((mem_pulses _ _ _ _ _).mp hp).1
    omega
  · cases hr

/-- Without a byte allocated, the first bit cell is still looked at. -/
theorem convertTrack_empty_room (malloc : ℕ → Bool) (state : FpgaState) (drive : Fin 4)
    (track side : ℕ) (hzero : convertLen (state.image_track_size_reg drive) = 0) :
    (∀ r, convertTrack malloc state drive track side = some r →
        r.outbuffersize ≤ convertLen (state.image_track_size_reg drive)) ↔
      (malloc 0 = true →
        pulseAt (state.disk_image drive) (trackPtr state drive track side) 0 = false) := by
  have hloop : convertLoop (state.disk_image drive) (trackPtr state drive track side) 0 ⟨0,0,0,[]⟩ =
      convertBody (state.disk_image drive) (trackPtr state drive track side) ⟨0,0,0,[]⟩ :=
    DoWhile.loop_exit _ _ (Nat.not_lt_zero _)
  have hcases := convertBody_cases (state.disk_image drive) (trackPtr state drive track side)
    ⟨0,0,0,[]⟩
  simp only [convertTrack, hzero, hloop]
  cases hm : malloc 0 with
  | false => simp
  | true =>
    obtain ⟨hempty, hbody⟩ | ⟨-, hpulse, hbody⟩ | ⟨-, hpulse, hbody⟩ := hcases
    · have hpulse : pulseAt (state.disk_image drive) (trackPtr state drive track side) 0 = false := by
        have hword : state.disk_image drive (trackPtr state drive track side + 2*(0/16)) = 0#16 :=
          hempty
        rw [pulseAt, hword]
        rfl
      simp [hbody, hpulse]
    · simp [hbody, hpulse]
    · simp [hbody, hpulse, encodeDelta]

/-! ## The fast encoders -/

theorem fastConvertTrack_room (malloc : ℕ → Bool) (state : FpgaState) (drive : Fin 4)
    (track side : ℕ) (h4 : state.image_track_size_reg drive % 4 = 0)
    (hpos : 4 ≤ state.image_track_size_reg drive) (r : TrackStream)
    (hr : fastConvertTrack malloc state drive track side = some r) :
    r.outbuffersize ≤ fastConvertLen (state.image_track_size_reg drive) := by
  obtain ⟨n, hn⟩ := Nat.dvd_of_mod_eq_zero h4
  have hlen : fastConvertLen (state.image_track_size_reg drive) = 2*n := by
    rw [hn, fastConvertLen_words]
  have hm : malloc (2*n) = true := by
    by_contra hm
    rw [fastConvertTrack, hlen, if_neg hm] at hr
    cases hr
  rw [fastConvertTrack_words malloc state drive track side n hn (by omega) hm] at hr
  obtain rfl := Option.some.inj hr
  have hbytes := convertWords_bytes 0
    ((strided (trackPtr state drive track side) n).map (state.disk_image drive))
  rw [List.length_map, strided_length] at hbytes
  rw [hlen]
  dsimp only
  omega

theorem chunkWords_room {chunk_size : ℕ} (hsize : 4 ≤ chunk_size) :
    8 ≤ chunkWords chunk_size := by
  simp only [chunkWords, chunkLen]
  split_ifs <;> omega

theorem fastConvertChunk_room (malloc : ℕ → Bool) (state : FpgaState) (chunk_ptr bitdelta : ℕ)
    {chunk_size : ℕ} (hsize : 4 ≤ chunk_size) (r : ChunkStream)
    (hr : fastConvertChunk malloc state chunk_ptr chunk_size bitdelta = some r) :
    r.data_track.length ≤ chunkLen chunk_size := by
  have hwords := chunkWords_room hsize
  simp only [fastConvertChunk, chunkLen_even] at hr
  split at hr
  · obtain rfl := Option.some.inj hr
    have hbytes := convertWords_bytes bitdelta
      ((strided chunk_ptr (chunkWords chunk_size)).map state.dump_buffer)
    rw [List.length_map, strided_length] at hbytes
    rw [fastLoop_words _ _ _ (by omega) _ rfl, fastBody_iterate, state.conv_lut_prepared,
      chunkLen_even]
    simp only [List.nil_append]
    omega
  · cases hr

/-! ## All of them -/

theorem convertLen_eq_zero {track_size : ℕ} (h4 : track_size % 4 = 0) :
    convertLen track_size = 0 ↔ 2^29 ∣ track_size := by
  rw [convertLen_cells h4, Nat.dvd_iff_mod_eq_zero]
  omega

/-- Only the reference can write past its buffer, where the number of bit cells
is lost in 32 bits and the track begins with a pulse. -/
theorem fits_iff (malloc : ℕ → Bool) (state : FpgaState) (drive : Fin 4)
    (track side chunk_ptr chunk_size bitdelta : ℕ)
    (h4 : state.image_track_size_reg drive % 4 = 0)
    (hpos : 4 ≤ state.image_track_size_reg drive) (hsize : 4 ≤ chunk_size) :
    Fits malloc state drive track side chunk_ptr chunk_size bitdelta ↔
      (2^29 ∣ state.image_track_size_reg drive → malloc 0 = true →
        pulseAt (state.disk_image drive) (trackPtr state drive track side) 0 = false) := by
  have hfast := fastConvertTrack_room malloc state drive track side h4 hpos
  have hchunk := fastConvertChunk_room malloc state chunk_ptr bitdelta hsize
  rw [← convertLen_eq_zero h4]
  rcases Nat.eq_zero_or_pos (convertLen (state.image_track_size_reg drive)) with hzero | hroom
  · have hiff := convertTrack_empty_room malloc state drive track side hzero
    constructor
    · intro h _
      exact hiff.mp h.convert_track
    · intro h
      exact ⟨hiff.mpr (h hzero),hfast,hchunk⟩
  · constructor
    · intro _ hzero
      omega
    · intro _
      exact ⟨convertTrack_room malloc state drive track side h4 hroom,hfast,hchunk⟩

theorem fits_iff_full : Fits (fun _ => true) (smallState fun _ _ => 0xFFFF#16) 0 0 0 0 4 (2^28-1) :=
  (fits_iff (fun _ => true) (smallState fun _ _ => 0xFFFF#16) 0 0 0 0 4 (2^28-1) rfl (by decide)
    (by decide)).mpr fun hsize => absurd hsize (by decide)

def hugeTrack : FpgaState :=
  { smallState fun _ _ => 0x8000#16 with image_track_size_reg := fun _ => 2^29 }

theorem hugeTrack_overrun : ¬Fits (fun _ => true) hugeTrack 0 0 0 0 4 0 := by
  intro h
  have hzero : convertLen (hugeTrack.image_track_size_reg 0) = 0 := rfl
  have hpulse := (convertTrack_empty_room (fun _ => true) hugeTrack 0 0 0 hzero).mp h.convert_track rfl
  exact absurd hpulse (by decide)

end Pauline.EncodeRoom
