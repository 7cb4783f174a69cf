import Pauline.Stream.PulseWord

/-!
# Track converters of the stream image writer

`convertTrack` walks the bit cells of one side one by one and is the
reference; `fastConvertTrack` takes a word at a time through the table and
is what `save_stream_hfe` calls. Both are given by the pulse positions of
the side. Allocation is a parameter: `malloc` tells which sizes succeed.
-/

set_option autoImplicit false

namespace Pauline.Track
open Pauline.DeltaCode Pauline.PulseWord

/-- The part of `fpga_state` and its registers the stream and dump code works
on. `init_fpga` fills the table once and nothing writes it afterwards. Image
and dump buffer addresses count 16-bit words. -/
structure FpgaState where
  image_track_size_reg : Fin 4 → ℕ
  disk_image : Fin 4 → ℕ → Word
  conv_lut : ℕ → ℕ
  conv_lut_prepared : conv_lut = prepareLUT
  floppy_dump_buffer_size : ℕ
  floppy_ctrl_control : BitVec 32
  floppy_done : BitVec 32
  dump_buffer : ℕ → Word
  last_dump_offset : ℕ
  bitdelta : ℕ
  chunk_number : ℕ

structure TrackStream where
  data_track : List Byte
  tracksize : ℕ
  outbuffersize : ℕ
  number_of_pulses : ℕ
  deriving DecidableEq, Repr

def trackPtr (state : FpgaState) (drive : Fin 4) (track side : ℕ) : ℕ :=
  ((state.image_track_size_reg drive/2*track) % 2^32+side) % 2^32

structure ConvertState where
  j : ℕ
  oldbitpos : ℕ
  nb_pulses : ℕ
  data_track : List Byte

def convertBody (mem : ℕ → Word) (tmp_ptr : ℕ) (s : ConvertState) : ConvertState :=
  let tmp_data := mem (tmp_ptr+((s.j >>> 4) <<< 1))
  if tmp_data ≠ 0#16 then
    if (tmp_data >>> (0xF-(s.j &&& 0xF))) &&& 0x01#16 ≠ 0#16 then
      { j := s.j+1
        oldbitpos := s.j
        nb_pulses := s.nb_pulses+1
        data_track := s.data_track ++ encodeDelta (s.j-s.oldbitpos) }
    else { s with j := s.j+1 }
  else { s with j := s.j+16 }

theorem convertBody_advances (mem : ℕ → Word) (ptr : ℕ) (s : ConvertState) :
    s.j < (convertBody mem ptr s).j := by
  simp only [convertBody]
  split_ifs <;> simp

def convertLoop (mem : ℕ → Word) (tmp_ptr final_track_len : ℕ) : ConvertState → ConvertState :=
  DoWhile.loop (convertBody mem tmp_ptr) (fun s => s.j < final_track_len)
    (fun s => final_track_len-s.j)
    (fun s _ => by have := convertBody_advances mem tmp_ptr s; omega)

def convertLen (track_size : ℕ) : ℕ :=
  let final_track_len := (track_size*8) % 2^32/2
  if final_track_len % 16 ≠ 0 then final_track_len/16*16+0x10 else final_track_len

def convertTrack (malloc : ℕ → Bool) (state : FpgaState) (drive : Fin 4) (track side : ℕ) :
    Option TrackStream :=
  let final_track_len := convertLen (state.image_track_size_reg drive)
  if malloc final_track_len then
    let s := convertLoop (state.disk_image drive) (trackPtr state drive track side)
      final_track_len ⟨0, 0, 0, []⟩
    some ⟨s.data_track, final_track_len, s.data_track.length, s.nb_pulses⟩
  else none

/-- The byte length of one side. The source means to round it up to even and
leaves an odd length as it is. -/
def fastConvertLen (track_size : ℕ) : ℕ :=
  let final_track_len := track_size/2
  if final_track_len % 2 ≠ 0 then final_track_len/2*2+0x1 else final_track_len

def fastConvertTrack (malloc : ℕ → Bool) (state : FpgaState) (drive : Fin 4) (track side : ℕ) :
    Option TrackStream :=
  let final_track_len := fastConvertLen (state.image_track_size_reg drive)
  if malloc final_track_len then
    let s := fastLoop state.conv_lut (state.disk_image drive) final_track_len
      ⟨trackPtr state drive track side, 0, 0, 0, [], []⟩
    some ⟨s.data_track, final_track_len*8, s.data_track.length, s.nb_pulses⟩
  else none

/-! ## Pulse positions of one side -/

def pulseAt (mem : ℕ → Word) (ptr p : ℕ) : Bool := (mem (ptr+2*(p/16))).getMsbD (p % 16)

def pulses (mem : ℕ → Word) (ptr start len : ℕ) : List ℕ :=
  (List.range' start len).filter (pulseAt mem ptr)

theorem mem_pulses (mem : ℕ → Word) (ptr start len p : ℕ) :
    p ∈ pulses mem ptr start len ↔ (start ≤ p ∧ p < start+len) ∧ pulseAt mem ptr p = true := by
  simp [pulses, List.mem_range'_1]

theorem pulses_split (mem : ℕ → Word) (ptr start m n : ℕ) :
    pulses mem ptr start (m+n) = pulses mem ptr start m ++ pulses mem ptr (start+m) n := by
  rw [pulses, ← List.range'_append_1, List.filter_append]
  rfl

theorem pulses_sorted (mem : ℕ → Word) (ptr start len : ℕ) :
    (pulses mem ptr start len).Pairwise (· < ·) :=
  List.Pairwise.filter _ List.pairwise_lt_range'

theorem pulses_succ (mem : ℕ → Word) (ptr start n : ℕ) :
    pulses mem ptr start (n+1) = if pulseAt mem ptr start = true
      then start :: pulses mem ptr (start+1) n else pulses mem ptr (start+1) n := by
  rw [pulses, List.range'_succ, List.filter_cons]
  rfl

theorem pulses_word (mem : ℕ → Word) (ptr i : ℕ) :
    pulses mem ptr (16*i) 16 = (cells (mem (ptr+2*i))).map (16*i+·) := by
  rw [pulses, cells, List.range'_eq_map_range, List.filter_map]
  congr 1
  apply List.filter_congr
  intro k hk
  have hk16 : k < 16 := List.mem_range.mp hk
  simp only [Function.comp_apply, pulseAt]
  rw [show (16*i+k)/16 = i by omega, show (16*i+k) % 16 = k by omega]

theorem bit_test (w : Word) (j : ℕ) :
    (w >>> (0xF-(j &&& 0xF))) &&& 0x01#16 ≠ 0#16 ↔ w.getMsbD (j % 16) = true := by
  have hj : j &&& 0xF = j % 16 := Nat.and_two_pow_sub_one_eq_mod j 4
  have hlt : j % 16 < 16 := Nat.mod_lt _ (by decide)
  rw [hj, BitVec.and_one_eq_setWidth_ofBool_getLsbD, BitVec.getLsbD_ushiftRight,
    BitVec.getMsbD_eq_getLsbD, Nat.add_zero, show 16-1-j % 16 = 0xF-j % 16 from rfl]
  cases w.getLsbD (0xF-j % 16) <;> simp [hlt]

/-- What one turn of the reference does, in terms of pulse positions. -/
theorem convertBody_cases (mem : ℕ → Word) (ptr : ℕ) (s : ConvertState) :
    (mem (ptr+2*(s.j/16)) = 0#16 ∧ convertBody mem ptr s = { s with j := s.j+16 }) ∨
    (mem (ptr+2*(s.j/16)) ≠ 0#16 ∧ pulseAt mem ptr s.j = false ∧
      convertBody mem ptr s = { s with j := s.j+1 }) ∨
    (mem (ptr+2*(s.j/16)) ≠ 0#16 ∧ pulseAt mem ptr s.j = true ∧
      convertBody mem ptr s = ⟨s.j+1, s.j, s.nb_pulses+1,
        s.data_track ++ encodeDelta (s.j-s.oldbitpos)⟩) := by
  have ha : (s.j >>> 4) <<< 1 = 2*(s.j/16) := by
    rw [Nat.shiftRight_eq_div_pow, Nat.shiftLeft_eq]
    omega
  simp only [convertBody, ha, bit_test, pulseAt]
  by_cases hz : mem (ptr+2*(s.j/16)) = 0#16
  · exact Or.inl ⟨hz, by simp [hz]⟩
  · rcases Bool.eq_false_or_eq_true ((mem (ptr+2*(s.j/16))).getMsbD (s.j % 16)) with hb | hb
    · exact Or.inr (Or.inr ⟨hz, hb, by simp [hz, hb]⟩)
    · exact Or.inr (Or.inl ⟨hz, hb, by simp [hz, hb]⟩)

theorem pulses_empty_word (mem : ℕ → Word) (ptr i : ℕ) (hz : mem (ptr+2*i) = 0#16) :
    pulses mem ptr (16*i) 16 = [] := by
  rw [pulses_word, hz, show cells 0#16 = [] by decide, List.map_nil]

/-- The state the reference loop ends in when it is entered in `s`: the gaps
between the pulse positions from `s.j` on have been emitted. -/
def converted (mem : ℕ → Word) (ptr n : ℕ) (s : ConvertState) : ConvertState :=
  let ps := pulses mem ptr s.j (16*n-s.j)
  ⟨16*n, (s.oldbitpos::ps).getLast (by simp), s.nb_pulses+ps.length,
    s.data_track ++ (CodeStream.deltas s.oldbitpos ps).flatMap encodeDelta⟩

def Aligned (mem : ℕ → Word) (ptr n : ℕ) (s : ConvertState) : Prop :=
  s.j ≤ 16*n ∧ (mem (ptr+2*(s.j/16)) = 0#16 → s.j % 16 = 0)

theorem converted_done (mem : ℕ → Word) (ptr n : ℕ) (s : ConvertState) (h : s.j = 16*n) :
    converted mem ptr n s = s := by
  cases s
  simp only at h
  simp [converted, pulses, h]

theorem converted_body (mem : ℕ → Word) (ptr n : ℕ) (s : ConvertState) (hs : Aligned mem ptr n s)
    (hlt : s.j < 16*n) :
    converted mem ptr n (convertBody mem ptr s) = converted mem ptr n s := by
  have hps := pulses_succ mem ptr s.j (16*n-(s.j+1))
  rw [show 16*n-(s.j+1)+1 = 16*n-s.j by omega] at hps
  rcases convertBody_cases mem ptr s with ⟨hz, hb⟩ | ⟨-, hp, hb⟩ | ⟨-, hp, hb⟩
  · have hj := hs.2 hz
    have he := pulses_empty_word mem ptr (s.j/16) hz
    rw [show 16*(s.j/16) = s.j by omega] at he
    have hskip : pulses mem ptr s.j (16*n-s.j) = pulses mem ptr (s.j+16) (16*n-(s.j+16)) := by
      rw [show 16*n-s.j = 16+(16*n-(s.j+16)) by omega, pulses_split, he, List.nil_append]
    simp only [converted, hb, hskip]
  · rw [hp] at hps
    simp only [converted, hb, hps, Bool.false_eq_true, if_false]
  · rw [hp] at hps
    simp [converted, hb, hps, Nat.add_comm, Nat.add_assoc]

theorem convertBody_aligned (mem : ℕ → Word) (ptr n : ℕ) (s : ConvertState)
    (hs : Aligned mem ptr n s) (hlt : s.j < 16*n) : Aligned mem ptr n (convertBody mem ptr s) := by
  have inside (hz : mem (ptr+2*(s.j/16)) ≠ 0#16) :
      mem (ptr+2*((s.j+1)/16)) = 0#16 → (s.j+1) % 16 = 0 := by
    intro h
    by_contra hne
    rw [show (s.j+1)/16 = s.j/16 by omega] at h
    exact hz h
  rcases convertBody_cases mem ptr s with ⟨hz, hb⟩ | ⟨hz, -, hb⟩ | ⟨hz, -, hb⟩
  · have hj := hs.2 hz
    simp only [Aligned, hb]
    exact ⟨by omega, fun _ => by omega⟩
  · simp only [Aligned, hb]
    exact ⟨by omega, inside hz⟩
  · simp only [Aligned, hb]
    exact ⟨by omega, inside hz⟩

/-- The reference loop emits the gaps between the pulse positions. -/
theorem convertLoop_pulses (mem : ℕ → Word) (ptr n : ℕ) (s : ConvertState)
    (hs : Aligned mem ptr n s) (hlt : s.j < 16*n) :
    convertLoop mem ptr (16*n) s = converted mem ptr n s := by
  induction hm : 16*n-s.j using Nat.strong_induction_on generalizing s with
  | _ m ih =>
    have hadv := convertBody_advances mem ptr s
    have hal := convertBody_aligned mem ptr n s hs hlt
    rw [← converted_body mem ptr n s hs hlt]
    by_cases hgo : (convertBody mem ptr s).j < 16*n
    · rw [convertLoop, DoWhile.loop_again _ s hgo]
      exact ih _ (by omega) _ hal hgo rfl
    · have hle := hal.1
      rw [convertLoop, DoWhile.loop_exit _ s hgo, converted_done _ _ _ _ (by omega)]

theorem convertLen_words (n : ℕ) (h : 16*n < 2^28) : convertLen (4*n) = 16*n := by
  have hu : 4*n*8 % 2^32/2 = 16*n := by omega
  simp only [convertLen, hu]
  rw [if_neg (by omega)]

theorem fastConvertLen_words (n : ℕ) : fastConvertLen (4*n) = 2*n := by
  have hu : 4*n/2 = 2*n := by omega
  simp only [fastConvertLen, hu]
  rw [if_neg (by omega)]

theorem convertTrack_pulses (malloc : ℕ → Bool) (state : FpgaState) (drive : Fin 4)
    (track side n : ℕ) (hsize : state.image_track_size_reg drive = 4*n) (hn : 0 < n)
    (hcells : 16*n < 2^28) (hm : malloc (16*n) = true) :
    let ps := pulses (state.disk_image drive) (trackPtr state drive track side) 0 (16*n)
    convertTrack malloc state drive track side =
      some ⟨(CodeStream.deltas 0 ps).flatMap encodeDelta, 16*n,
        ((CodeStream.deltas 0 ps).flatMap encodeDelta).length, ps.length⟩ := by
  have hlen : convertLen (state.image_track_size_reg drive) = 16*n := by
    rw [hsize, convertLen_words n hcells]
  have hloop := convertLoop_pulses (state.disk_image drive) (trackPtr state drive track side) n
    ⟨0, 0, 0, []⟩ ⟨by simp, by simp⟩ (by simp; omega)
  simp only [convertTrack, hlen, hm, if_true, hloop, converted, Nat.sub_zero, List.nil_append,
    Nat.zero_add]

/-! ## The word at a time converter -/

theorem fastConvertTrack_words (malloc : ℕ → Bool) (state : FpgaState) (drive : Fin 4)
    (track side n : ℕ) (hsize : state.image_track_size_reg drive = 4*n) (hn : 0 < n)
    (hm : malloc (2*n) = true) :
    let ds := (convertWords prepareLUT 0
      ((strided (trackPtr state drive track side) n).map (state.disk_image drive))).2
    fastConvertTrack malloc state drive track side =
      some ⟨ds.flatMap encodeDelta, 16*n, (ds.flatMap encodeDelta).length, ds.length⟩ := by
  have hlen : fastConvertLen (state.image_track_size_reg drive) = 2*n := by
    rw [hsize, fastConvertLen_words]
  simp only [fastConvertTrack, hlen, hm, if_true, fastLoop_words _ _ n hn, fastBody_iterate,
    state.conv_lut_prepared, List.nil_append, Nat.zero_add]
  rw [show 2*n*8 = 16*n by omega]

def Sparse (ws : List Word) : Prop := ∀ w ∈ ws, (cells w).length ≤ 1

theorem cells_le_one (w : Word) (h : (cells w).length ≤ 1) : cells w = [] ∨ ∃ b, cells w = [b] := by
  rcases Nat.le_one_iff_eq_zero_or_eq_one.mp h with h | h
  · exact Or.inl (List.length_eq_zero_iff.mp h)
  · exact Or.inr (List.length_eq_one_iff.mp h)

/-- On sparse words the carried `bits_delta` is the distance from the last
pulse to the current word, so the emitted gaps are those of the reference. -/
theorem convertWords_sparse (mem : ℕ → Word) (ptr i m old : ℕ) (hold : old ≤ 16*i)
    (hbig : 16*(i+m) < 2^32) (hs : Sparse ((strided (ptr+2*i) m).map mem)) :
    (convertWords prepareLUT (16*i-old) ((strided (ptr+2*i) m).map mem)).2 =
      CodeStream.deltas old (pulses mem ptr (16*i) (16*m)) := by
  induction m generalizing i old with
  | zero => simp [strided, convertWords, pulses]
  | succ m ih =>
    simp only [strided, List.map_cons, Sparse, List.forall_mem_cons] at hs ⊢
    have hnext : ptr+2*i+2 = ptr+2*(i+1) := by omega
    rw [hnext] at hs ⊢
    rw [show 16*(m+1) = 16+16*m by omega, pulses_split, pulses_word,
      show 16*i+16 = 16*(i+1) by omega]
    rcases cells_le_one _ hs.1 with hc | ⟨b, hc⟩
    · have hw := (cells_eq_nil _).mp hc
      have hd : (16*i-old+16) % 2^32 = 16*(i+1)-old := by
        rw [Nat.mod_eq_of_lt (by omega)]
        omega
      simp only [convertWords, hw, convertWord_empty, hd, show cells 0#16 = [] by decide,
        List.map_nil, List.nil_append, Option.toList_none]
      exact ih (i+1) old (by omega) (by omega) hs.2
    · have hb := (single_toNat _ b hc).1
      have hd : (16*i-old+b) % 2^32 = 16*i+b-old := by
        rw [Nat.mod_eq_of_lt (by omega)]
        omega
      have hcarry : 16-b = 16*(i+1)-(16*i+b) := by omega
      have hrest := ih (i+1) (16*i+b) (by omega) (by omega) hs.2
      simp only [convertWords, convertWord_single _ _ b hc, hd, hc, List.map_cons, List.map_nil,
        Option.toList_some, List.singleton_append, CodeStream.deltas_cons, hcarry, hrest]

theorem fastConvertTrack_pulses (malloc : ℕ → Bool) (state : FpgaState) (drive : Fin 4)
    (track side n : ℕ) (hsize : state.image_track_size_reg drive = 4*n) (hn : 0 < n)
    (hcells : 16*n < 2^32) (hm : malloc (2*n) = true)
    (hs : Sparse ((strided (trackPtr state drive track side) n).map (state.disk_image drive))) :
    let ps := pulses (state.disk_image drive) (trackPtr state drive track side) 0 (16*n)
    fastConvertTrack malloc state drive track side =
      some ⟨(CodeStream.deltas 0 ps).flatMap encodeDelta, 16*n,
        ((CodeStream.deltas 0 ps).flatMap encodeDelta).length, ps.length⟩ := by
  have hfast := fastConvertTrack_words malloc state drive track side n hsize hn hm
  have hd := convertWords_sparse (state.disk_image drive) (trackPtr state drive track side) 0 n 0
    (by omega) (by omega) hs
  simp only [Nat.mul_zero, Nat.sub_zero, Nat.add_zero] at hd
  simp only [hd, CodeStream.deltas_length] at hfast
  exact hfast

theorem pulses_count (mem : ℕ → Word) (ptr i m : ℕ) :
    (pulses mem ptr (16*i) (16*m)).length =
      (((strided (ptr+2*i) m).map mem).map (fun w => (cells w).length)).sum := by
  induction m generalizing i with
  | zero => simp [strided, pulses]
  | succ m ih =>
    rw [show 16*(m+1) = 16+16*m by omega, pulses_split, pulses_word,
      show 16*i+16 = 16*(i+1) by omega, List.length_append, ih]
    simp [strided, show ptr+2*i+2 = ptr+2*(i+1) by omega]

/-- There are as many words with a pulse as pulses only if no word has two. -/
theorem sparse_of_count (ws : List Word)
    (h : (ws.map (fun w => (cells w).length)).sum = ws.countP (· ≠ 0#16)) : Sparse ws := by
  have hle (vs : List Word) :
      vs.countP (· ≠ 0#16) ≤ (vs.map (fun w => (cells w).length)).sum := by
    induction vs with
    | nil => simp
    | cons v vs ih =>
      simp only [List.countP_cons, List.map_cons, List.sum_cons]
      by_cases hv : v = 0#16
      · rw [if_neg (by simpa using hv)]
        omega
      · have hpos := List.length_pos_iff.mpr (fun hc => hv ((cells_eq_nil v).mp hc))
        rw [if_pos (by simpa using hv)]
        omega
  induction ws with
  | nil => simp [Sparse]
  | cons w ws ih =>
    have hw := hle ws
    simp only [List.countP_cons, List.map_cons, List.sum_cons] at h
    by_cases hz : w = 0#16
    · rw [if_neg (by simpa using hz), (cells_eq_nil w).mpr hz, List.length_nil, Nat.zero_add] at h
      exact List.forall_mem_cons.mpr ⟨by simp [(cells_eq_nil w).mpr hz], ih h⟩
    · have hpos := List.length_pos_iff.mpr (fun hc => hz ((cells_eq_nil w).mp hc))
      rw [if_pos (by simpa using hz)] at h
      exact List.forall_mem_cons.mpr ⟨by omega, ih (by omega)⟩

theorem fast_agrees_words (malloc : ℕ → Bool) (state : FpgaState) (drive : Fin 4)
    (track side n : ℕ) (hsize : state.image_track_size_reg drive = 4*n) (hn : 0 < n)
    (hcells : 16*n < 2^28) (hm : malloc (16*n) = true) (hm' : malloc (2*n) = true) :
    fastConvertTrack malloc state drive track side = convertTrack malloc state drive track side ↔
      Sparse ((strided (trackPtr state drive track side) n).map (state.disk_image drive)) := by
  have href := convertTrack_pulses malloc state drive track side n hsize hn hcells hm
  constructor
  · intro h
    have hfast := fastConvertTrack_words malloc state drive track side n hsize hn hm'
    rw [h, href] at hfast
    have hp := congrArg TrackStream.number_of_pulses (Option.some.inj hfast)
    simp only [convertWords_count] at hp
    apply sparse_of_count
    rw [← hp]
    exact (pulses_count (state.disk_image drive) (trackPtr state drive track side) 0 n).symm
  · intro h
    have hfast := fastConvertTrack_pulses malloc state drive track side n hsize hn (by omega) hm' h
    exact hfast.trans href.symm

def sideWords (state : FpgaState) (drive : Fin 4) (track side : ℕ) : List Word :=
  (strided (trackPtr state drive track side) (state.image_track_size_reg drive/4)).map
    (state.disk_image drive)

/-- The fast converter returns what the reference returns exactly on sides
without a word of several pulses. -/
theorem fast_convert_track_agrees_iff (malloc : ℕ → Bool) (state : FpgaState) (drive : Fin 4)
    (track side : ℕ) (h4 : state.image_track_size_reg drive % 4 = 0)
    (hpos : 0 < state.image_track_size_reg drive)
    (hcells : 4*state.image_track_size_reg drive < 2^28)
    (hm : malloc (convertLen (state.image_track_size_reg drive)) = true)
    (hm' : malloc (fastConvertLen (state.image_track_size_reg drive)) = true) :
    fastConvertTrack malloc state drive track side = convertTrack malloc state drive track side ↔
      ∀ w ∈ sideWords state drive track side, (cells w).length ≤ 1 := by
  obtain ⟨n, hn⟩ : ∃ n, state.image_track_size_reg drive = 4*n :=
    ⟨state.image_track_size_reg drive/4, by omega⟩
  rw [hn, convertLen_words n (by omega)] at hm
  rw [hn, fastConvertLen_words] at hm'
  have h := fast_agrees_words malloc state drive track side n hn (by omega) (by omega) hm hm'
  rw [h, sideWords, hn, show 4*n/4 = n by omega]
  rfl

def smallState (disk_image : Fin 4 → ℕ → Word) : FpgaState where
  image_track_size_reg _ := 8
  disk_image := disk_image
  conv_lut := prepareLUT
  conv_lut_prepared := rfl
  floppy_dump_buffer_size := 0
  floppy_ctrl_control := 0
  floppy_done := 0
  dump_buffer _ := 0#16
  last_dump_offset := 0
  bitdelta := 0
  chunk_number := 0

def pulseTrack : FpgaState := smallState fun _ _ => 0x0080#16

theorem fast_convert_track_agrees_iff_pulses :
    fastConvertTrack (fun _ => true) pulseTrack 0 0 0 =
      convertTrack (fun _ => true) pulseTrack 0 0 0 :=
  (fast_convert_track_agrees_iff (fun _ => true) pulseTrack 0 0 0 (by decide) (by decide)
    (by decide) rfl rfl).mpr (fun w hw => by
      obtain ⟨a, -, rfl⟩ := List.mem_map.mp hw
      exact (by decide : (cells 0x0080#16).length ≤ 1))

/-- The first word of the side has two adjacent pulses, the second has one.
The fast converter drops a pulse and reports the other a whole word early. -/
def doublePulse : FpgaState := smallState fun _ a => if a = 0 then 0xC000#16 else 0x8000#16

theorem convertTrack_doublePulse : convertTrack (fun _ => true) doublePulse 0 0 0 =
    some ⟨[byte 0, byte 1, byte 15], 32, 3, 3⟩ := by
  have hp : pulses (doublePulse.disk_image 0) (trackPtr doublePulse 0 0 0) 0 32 = [0, 1, 16] := by
    decide
  have href := convertTrack_pulses (fun _ => true) doublePulse 0 0 0 2 rfl (by decide)
    (by decide) rfl
  simp only [show 16*2 = 32 from rfl, hp] at href
  rw [href]
  decide

theorem fastConvertTrack_doublePulse : fastConvertTrack (fun _ => true) doublePulse 0 0 0 =
    some ⟨[byte 0, byte 0], 32, 2, 2⟩ := by
  have hw : (convertWords prepareLUT 0
      ((strided (trackPtr doublePulse 0 0 0) 2).map (doublePulse.disk_image 0))).2 = [0, 0] := by
    rw [show (strided (trackPtr doublePulse 0 0 0) 2).map (doublePulse.disk_image 0) =
      [0xC000#16, 0x8000#16] by decide]
    simp only [convertWords, convertWord_several 0 0xC000#16 (by decide),
      convertWord_single 0 0x8000#16 0 (by decide)]
    rfl
  have hfast := fastConvertTrack_words (fun _ => true) doublePulse 0 0 0 2 rfl (by decide) rfl
  simp only [hw] at hfast
  rw [hfast]
  decide

theorem fast_convert_track_drops_pulse :
    fastConvertTrack (fun _ => true) doublePulse 0 0 0 ≠
      convertTrack (fun _ => true) doublePulse 0 0 0 := by
  rw [fastConvertTrack_doublePulse, convertTrack_doublePulse]
  decide

end Pauline.Track
