import Pauline.Stream.LoadStream

/-!
# Where a load stores the tracks

Every slot of the image has the size of the first track. The decoder takes the
number of the codes, the gaps and the size of the unpacked data from fields that
do not depend on it.
-/

set_option autoImplicit false

namespace Pauline.LoadSlots
open Pauline.DeltaCode Pauline.PulseWord Pauline.Track Pauline.Decode Pauline.LoadStream

/-! ## What the decoder touches -/

theorem readCode_advances (u : ℕ → Byte) (k : ℕ) : k < (readCode u k).2 := by
  unfold readCode
  simp only
  split_ifs <;> simp

theorem mem_decodeReads (u : ℕ → Byte) (n k o : ℕ) :
    o ∈ decodeReads u n k ↔ k ≤ o ∧ o < CodeStream.readEnd (readCode u) n k := by
  induction n generalizing k with
  | zero =>
    simp only [decodeReads, CodeStream.readEnd, List.not_mem_nil, false_iff]
    omega
  | succ n ih =>
    have hadv := readCode_advances u k
    have hend := CodeStream.le_readEnd (readCode u) (fun k => (readCode_advances u k).le) n
      (readCode u k).2
    simp only [decodeReads, CodeStream.readEnd, List.mem_append, List.mem_range'_1, ih]
    omega

theorem decodeWrites_eq (u : ℕ → Byte) (ptr n k c : ℕ) :
    decodeWrites u ptr n k (c % 2^32) =
      (CodeStream.positions c (CodeStream.readMany (readCode u) n k)).map
        fun p => ptr+2*(p % 2^32/16) := by
  induction n generalizing k c with
  | zero => rfl
  | succ n ih =>
    have hcell (p : ℕ) : (p >>> 4) <<< 1 = 2*(p/16) := by
      rw [Nat.shiftRight_eq_div_pow, Nat.shiftLeft_eq]
      omega
    have hsum : (c % 2^32+(readCode u k).1) % 2^32 = (c+(readCode u k).1) % 2^32 := by omega
    simp only [decodeWrites, CodeStream.readMany, CodeStream.positions_cons, List.map_cons, hcell,
      hsum, ih]

/-! ## The slots -/

structure InSlot (drive : Fin 4) (c : DecodeCall) : Prop where
  slot : ∀ a ∈ c.writes drive,
    let h := c.state.image_track_size_reg drive/2
    h*c.track ≤ a ∧ a < h*(c.track+1) ∧ (a-h*c.track) % 2 = c.side
  image : ∀ a ∈ c.writes drive, inMapping (c.state.mapped drive) a = true
  data : ∀ o ∈ c.reads, o < c.trackdef.unpacked_data_size

def sideCells (h side : ℕ) : ℕ := 16*((h+1-side)/2)

def cellSums (t : TrackDef) (u : ℕ → Byte) : List ℕ :=
  CodeStream.positions 0 (CodeStream.readMany (readCode u) t.nb_pulses 0)

structure Consistent (h : ℕ) (image : Option ℕ) (t : TrackDef) (u : ℕ → Byte) (j i : ℕ) : Prop where
  side : t.nb_pulses ≠ 0 → i < 2
  codes : CodeStream.readEnd (readCode u) t.nb_pulses 0 ≤ t.unpacked_data_size
  cells : ∀ p ∈ cellSums t u, p % 2^32 < sideCells h i
  mapping : ∀ p ∈ cellSums t u, inMapping image (h*j+i+2*(p % 2^32/16)) = true

theorem cellSums_ne_nil (t : TrackDef) (u : ℕ → Byte) (h : t.nb_pulses ≠ 0) :
    ∃ p, p ∈ cellSums t u := by
  obtain ⟨n, hn⟩ := Nat.exists_eq_succ_of_ne_zero h
  exact ⟨_, by simp only [cellSums, hn, CodeStream.readMany, CodeStream.positions_cons]
               exact List.mem_cons_self ..⟩

theorem mem_writes (drive : Fin 4) (c : DecodeCall) (a : ℕ) :
    a ∈ c.writes drive ↔ ∃ p ∈ cellSums c.trackdef c.unpacked_data,
      trackPtr c.state.toFpgaState drive c.track c.side+2*(p % 2^32/16) = a := by
  have hw := decodeWrites_eq c.unpacked_data (trackPtr c.state.toFpgaState drive c.track c.side)
    c.trackdef.nb_pulses 0 0
  rw [DecodeCall.writes, show decodeWrites _ _ _ 0 0 = _ from hw, List.mem_map]
  rfl

theorem reads_inside (c : DecodeCall) :
    (∀ o ∈ c.reads, o < c.trackdef.unpacked_data_size) ↔
      CodeStream.readEnd (readCode c.unpacked_data) c.trackdef.nb_pulses 0 ≤
        c.trackdef.unpacked_data_size := by
  simp only [DecodeCall.reads, mem_decodeReads]
  constructor
  · intro h
    by_contra hlt
    have := h (CodeStream.readEnd (readCode c.unpacked_data) c.trackdef.nb_pulses 0-1)
      ⟨Nat.zero_le _, by omega⟩
    omega
  · exact fun h o ho => lt_of_lt_of_le ho.2 h

theorem inMapping_bound (image : Option ℕ) (a : ℕ) (hsmall : ∀ len ∈ image, len < 2^32)
    (h : inMapping image a = true) : a < 2^31 := by
  cases image with
  | none => cases h
  | some len =>
    have hlen := hsmall len rfl
    have := of_decide_eq_true h
    omega

/-- The pointer of a side, as long as it does not wrap around. -/
theorem trackPtr_unwrapped (drive : Fin 4) (c : DecodeCall)
    (h : c.state.image_track_size_reg drive/2*c.track+c.side < 2^32) :
    trackPtr c.state.toFpgaState drive c.track c.side =
      c.state.image_track_size_reg drive/2*c.track+c.side := by
  have hbase : (c.state.image_track_size_reg drive/2*c.track) % 2^32 =
      c.state.image_track_size_reg drive/2*c.track := Nat.mod_eq_of_lt (by omega)
  have hptr : trackPtr c.state.toFpgaState drive c.track c.side =
      ((c.state.image_track_size_reg drive/2*c.track) % 2^32+c.side) % 2^32 := rfl
  rw [hptr, hbase, Nat.mod_eq_of_lt h]

theorem inSlot_iff (drive : Fin 4) (c : DecodeCall)
    (hsmall : ∀ len ∈ c.state.mapped drive, len < 2^32) :
    InSlot drive c ↔ Consistent (c.state.image_track_size_reg drive/2) (c.state.mapped drive)
      c.trackdef c.unpacked_data c.track c.side := by
  set h := c.state.image_track_size_reg drive/2 with hh
  have hsucc : h*(c.track+1) = h*c.track+h := Nat.mul_succ ..
  constructor
  · intro hin
    have hword : ∀ p ∈ cellSums c.trackdef c.unpacked_data, c.side < 2 ∧
        trackPtr c.state.toFpgaState drive c.track c.side = h*c.track+c.side ∧
        c.side+2*(p % 2^32/16) < h := by
      intro p hp
      have ha := (mem_writes drive c _).mpr ⟨p, hp, rfl⟩
      obtain ⟨hlo, hhi, hside⟩ := hin.slot _ ha
      have hlt := inMapping_bound _ _ hsmall (hin.image _ ha)
      rw [← hh] at hlo hhi hside
      have htwo : c.side < 2 := hside ▸ Nat.mod_lt _ (by decide)
      have heq : trackPtr c.state.toFpgaState drive c.track c.side = h*c.track+c.side :=
        trackPtr_unwrapped drive c (by rw [← hh]; omega)
      rw [heq] at hhi
      exact ⟨htwo, heq, by omega⟩
    refine ⟨fun hnb => ?_, (reads_inside c).mp hin.data, fun p hp => ?_, fun p hp => ?_⟩
    · obtain ⟨p, hp⟩ := cellSums_ne_nil c.trackdef c.unpacked_data hnb
      exact (hword p hp).1
    · have := (hword p hp).2.2
      rw [sideCells]
      omega
    · rw [← (hword p hp).2.1]
      exact hin.image _ ((mem_writes drive c _).mpr ⟨p, hp, rfl⟩)
  · intro hc
    have hword : ∀ a ∈ c.writes drive, ∃ p ∈ cellSums c.trackdef c.unpacked_data,
        a = h*c.track+c.side+2*(p % 2^32/16) ∧ c.side < 2 ∧ c.side+2*(p % 2^32/16) < h := by
      intro a ha
      obtain ⟨p, hp, rfl⟩ := (mem_writes drive c a).mp ha
      have hlt := inMapping_bound _ _ hsmall (hc.mapping p hp)
      have hcell := hc.cells p hp
      have hnb : c.trackdef.nb_pulses ≠ 0 := by
        intro hz
        simp [cellSums, hz, CodeStream.readMany] at hp
      have htwo := hc.side hnb
      have heq : trackPtr c.state.toFpgaState drive c.track c.side = h*c.track+c.side :=
        trackPtr_unwrapped drive c (by rw [← hh]; omega)
      rw [sideCells] at hcell
      exact ⟨p, hp, by rw [heq], htwo, by omega⟩
    refine ⟨fun a ha => ?_, fun a ha => ?_, (reads_inside c).mpr hc.codes⟩
    · obtain ⟨p, -, rfl, htwo, hlt⟩ := hword a ha
      rw [← hh]
      refine ⟨by omega, by omega, by omega⟩
    · obtain ⟨p, hp, rfl, -⟩ := hword a ha
      exact hc.mapping p hp

/-! ## The load -/

theorem calls_decode (drive : Fin 4) (c : DecodeCall) (l : Load) :
    (loadOf (l.decode drive c)).calls = l.calls++[c] := by
  unfold Load.decode
  split_ifs <;> rfl

theorem calls_kept (host : Host) (drive : Fin 4) (tracks : ℕ → TrackDef) (sides : ℕ)
    (qs : List (ℕ × ℕ)) (l : Load) (c : DecodeCall) (hc : c ∈ l.calls) :
    c ∈ (loadOf (loadTracks host drive tracks sides qs l)).calls := by
  induction qs generalizing l with
  | nil => exact hc
  | cons q qs ih =>
    obtain ⟨j, i⟩ := q
    simp only [loadTracks]
    rcases loadTrack_cases host drive tracks sides j i l with
      ⟨-, h⟩ | ⟨-, -, h⟩ | ⟨u, -, -, h⟩
    · rw [h]
      exact ih l hc
    · rw [h]
      exact hc
    · have hall := calls_decode drive ⟨l.state,tracks (trackArrayIndex sides j i),u,j,i⟩ l
      rw [h]
      cases hd : l.decode drive ⟨l.state,tracks (trackArrayIndex sides j i),u,j,i⟩ with
      | error e =>
        rw [hd] at hall
        exact hall ▸ List.mem_append_left _ hc
      | ok l' =>
        rw [hd] at hall
        exact ih l' (hall ▸ List.mem_append_left _ hc)

def Matches (host : Host) (h : ℕ) (image : Option ℕ) (tracks : ℕ → TrackDef) (sides : ℕ)
    (q : ℕ × ℕ) : Prop :=
  let t := tracks (trackArrayIndex sides q.1 q.2)
  t.packed_data_size ≠ 0 → ∀ u, readTrack host t q.1 q.2 = some u →
    Consistent h image t u q.1 q.2

theorem decode_inSlot (drive : Fin 4) (c : DecodeCall) (l : Load) (h : InSlot drive c) :
    l.decode drive c = .ok ⟨c.run drive,l.calls++[c]⟩ :=
  if_pos (List.all_eq_true.mpr h.image)

theorem loadTracks_inSlot (host : Host) (drive : Fin 4) (tracks : ℕ → TrackDef) (sides : ℕ)
    (h : ℕ) (image : Option ℕ) (hsmall : ∀ len ∈ image, len < 2^32) (qs : List (ℕ × ℕ)) (l : Load)
    (hsize : l.state.image_track_size_reg drive/2 = h) (hmap : l.state.mapped drive = image) :
    (∀ c ∈ (loadOf (loadTracks host drive tracks sides qs l)).calls, InSlot drive c) ↔
      (∀ c ∈ l.calls, InSlot drive c) ∧
        ∀ q ∈ qs.takeWhile (loadable host tracks sides), Matches host h image tracks sides q := by
  induction qs generalizing l with
  | nil => simp [loadTracks, loadOf]
  | cons q qs ih =>
    obtain ⟨j, i⟩ := q
    simp only [loadTracks]
    rcases loadTrack_cases host drive tracks sides j i l with
      ⟨hp, hl⟩ | ⟨hp, hr, hl⟩ | ⟨u, hp, hr, hl⟩
    · have hload : loadable host tracks sides (j,i) = true := by simp [loadable, hp]
      have hmatch : Matches host h image tracks sides (j,i) := fun hne => absurd hp hne
      rw [hl, List.takeWhile_cons_of_pos hload, List.forall_mem_cons]
      simp only [hmatch, true_and]
      exact ih l hsize hmap
    · have hload : ¬ loadable host tracks sides (j,i) = true := by simp [loadable, hp, hr]
      rw [hl, List.takeWhile_cons_of_neg hload]
      simp [loadOf]
    · have hload : loadable host tracks sides (j,i) = true := by simp [loadable, hr]
      set c : DecodeCall := ⟨l.state,tracks (trackArrayIndex sides j i),u,j,i⟩ with hc
      have hiff := inSlot_iff drive c (by simpa only [hc, hmap] using hsmall)
      simp only [hc, hsize, hmap] at hiff
      rw [← hc] at hiff
      have hmatch : Matches host h image tracks sides (j,i) ↔ InSlot drive c := by
        rw [hiff]
        constructor
        · exact fun hm => hm hp u hr
        · intro hcons _ v hv
          obtain rfl : u = v := Option.some.inj (hr.symm.trans hv)
          exact hcons
      rw [hl, List.takeWhile_cons_of_pos hload, List.forall_mem_cons, hmatch]
      by_cases hin : InSlot drive c
      · rw [decode_inSlot drive c l hin]
        have hrun := ih ⟨c.run drive,l.calls++[c]⟩ (by simpa [hc] using hsize)
          (by simpa [hc] using hmap)
        simp only
        rw [hrun]
        simp [hin, or_imp, forall_and]
      · constructor
        · intro hall
          refine absurd (hall c ?_) hin
          have hcalls := calls_decode drive c l
          cases hd : l.decode drive c with
          | error e =>
            rw [hd] at hcalls
            exact hcalls ▸ List.mem_append_right _ (List.mem_singleton_self c)
          | ok l' =>
            rw [hd] at hcalls
            exact calls_kept host drive tracks sides qs l' c
              (hcalls ▸ List.mem_append_right _ (List.mem_singleton_self c))
        · exact fun hall => absurd hall.2.1 hin

/-- The fields of the file agree: as far as its data can be read, the codes of each
side end in the unpacked data, and their gaps add up to cells of the side that the
first track has and the image holds. -/
def FileConsistent (host : Host) : Prop :=
  ∀ header tracks, openImage host = some (header,tracks) →
    ClearsInside host header.number_of_track (tracks 0).track_len →
    ∀ q ∈ (trackSides header.number_of_track header.number_of_side).takeWhile
        (loadable host tracks header.number_of_side),
      Matches host ((tracks 0).track_len/8)
        (mappedImage host header.number_of_track (tracks 0).track_len) tracks
        header.number_of_side q

theorem mappedImage_small (host : Host) (number_of_track track_len : ℕ) :
    ∀ len ∈ mappedImage host number_of_track track_len, len < 2^32 := by
  intro len hlen
  simp only [mappedImage] at hlen
  split_ifs at hlen
  · obtain rfl := Option.some.inj hlen
    exact Nat.mod_lt _ (by decide)
  · cases hlen

/-- Every store of a load falls into its slot and every byte is read from the
unpacked data exactly if the fields of the file agree. -/
theorem load_in_slots_iff (host : Host) (drive : Fin 4) (double_step : Bool) (s : DriveState) :
    (∀ c ∈ (loadOf (loadStreamHfe host drive double_step s)).calls, InSlot drive c) ↔
      FileConsistent host := by
  cases hopen : openImage host with
  | none => simp [loadStreamHfe, hopen, loadOf, FileConsistent]
  | some file =>
    obtain ⟨header, tracks⟩ := file
    have hfile : FileConsistent host ↔
        (ClearsInside host header.number_of_track (tracks 0).track_len →
          ∀ q ∈ (trackSides header.number_of_track header.number_of_side).takeWhile
              (loadable host tracks header.number_of_side),
            Matches host ((tracks 0).track_len/8)
              (mappedImage host header.number_of_track (tracks 0).track_len) tracks
              header.number_of_side q) := by
      constructor
      · exact fun h => h header tracks hopen
      · intro h header' tracks' hopen'
        obtain ⟨rfl, rfl⟩ := Prod.mk.inj (Option.some.inj (hopen.symm.trans hopen'))
        exact h
    rw [hfile]
    simp only [loadStreamHfe, hopen]
    rcases programDrive_cases host drive header.number_of_track (tracks 0).track_len s with
      ⟨hclear, hprog⟩ | ⟨hclear, s', hprog, hs'⟩
    · simp [hprog, hclear, loadOf]
    · have hrun := loadTracks_inSlot host drive tracks header.number_of_side
        ((tracks 0).track_len/8) _ (mappedImage_small host _ _)
        (trackSides header.number_of_track header.number_of_side) ⟨s',[]⟩
        (by rw [hs'.size]; omega) hs'.mapped
      simp only [List.not_mem_nil, false_implies, implies_true, true_and] at hrun
      simp only [hprog, hclear, true_implies]
      rw [← hrun]
      cases loadTracks host drive tracks header.number_of_side
        (trackSides header.number_of_track header.number_of_side) ⟨s',[]⟩ with
      | ok l => rfl
      | error e => rfl

def longGap : List Byte :=
  oneSided 1 (Buffer.words [1,244,2,1,64,1,0,0] ++ [0x10#8,0x7F#8])

theorem long_gap_leaves_slot :
    ¬ ∀ c ∈ (loadOf (loadStreamHfe (literalHost longGap) 0 false blankDrive)).calls,
      InSlot 0 c := by
  have hrun : (loadOf (loadStreamHfe (literalHost longGap) 0 false blankDrive)).calls.map
      (fun c => (c.track,c.writes 0,c.state.image_track_size_reg 0)) = [(0,[14],16)] := by
    decide +kernel
  intro h
  obtain ⟨c, hc, hdata⟩ := List.mem_map.mp (hrun ▸ List.mem_singleton_self _)
  simp only [Prod.mk.injEq] at hdata
  have hslot := ((h c hc).slot 14 (by simp [hdata.2.1])).2.1
  rw [hdata.1, hdata.2.2] at hslot
  exact absurd hslot (by decide)

end Pauline.LoadSlots
