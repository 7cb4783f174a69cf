import Pauline.Dump.Capture

/-!
# The end of the capture loop

The loop of `readdisk` over the chunks of a track, under everything the dumper
and the allocator can answer. The size it counts up to is computed from
`dump_time_per_track` in 32 bits.
-/

set_option autoImplicit false

namespace Pauline.CaptureEnd
open Pauline.PulseWord Pauline.Track Pauline.DumpChunk Pauline.Capture

structure Answer where
  malloc : ℕ → Bool
  floppy_done : BitVec 32
  dump_buffer : ℕ → Word

def Answer.meets (a : Answer) (s : FpgaState) : FpgaState :=
  { s with floppy_done := a.floppy_done, dump_buffer := a.dump_buffer }

def turn (a : Answer) (s : FpgaState) : Bool × FpgaState :=
  match getNextAvailableStreamChunk a.malloc (a.meets s) with
  | (some _, s) => (false,s)
  | (none, s) => (true,{ s with last_dump_offset := s.floppy_dump_buffer_size })

def turns (answers : ℕ → Answer) : ℕ → ℕ → FpgaState → Option (List Bool)
  | 0, _, _ => none
  | fuel+1, n, s =>
    if s.last_dump_offset < sub32 s.floppy_dump_buffer_size 4 then
      (turns answers fuel (n+1) (turn (answers n) s).2).map ((turn (answers n) s).1 :: ·)
    else some []

def bytesPerMs (high_res_mode : Bool) : ℤ := if high_res_mode then 12500 else 6250

def programmedSize (dump_time_per_track : BitVec 32) (high_res_mode : Bool) : ℕ :=
  let buffersize := dump_time_per_track * BitVec.ofInt 32 (bytesPerMs high_res_mode)
  (buffersize + ((0x10 - (buffersize &&& 0xF)) &&& 0xF)).toNat

def Ends (answers : ℕ → Answer) (s : FpgaState) : Prop :=
  ∃ fuel flags, turns answers fuel 0 s = some flags ∧
    ∀ i : ℕ, flags[i]? = some true → flags.length ≤ i+2

def NoBytes (dump_time_per_track : BitVec 32) (high_res_mode : Bool) : Prop :=
  (dump_time_per_track.toInt * bytesPerMs high_res_mode + 15) % 2^32 < 16

instance (time : BitVec 32) (high_res_mode : Bool) : Decidable (NoBytes time high_res_mode) :=
  inferInstanceAs (Decidable (_ < _))

/-! ## One turn -/

theorem getNext_cases (malloc : ℕ → Bool) {s : FpgaState} {size : ℕ} (hsize : size < 2^32)
    (hreg : s.floppy_dump_buffer_size = size) (hlt : s.last_dump_offset+4 < size) :
    let r := getNextAvailableStreamChunk malloc s
    r.2.floppy_dump_buffer_size = size ∧
      (r.1.isSome = true →
        r.2.last_dump_offset = s.last_dump_offset+nextSize size s.last_dump_offset) := by
  obtain ⟨k, hk, hmax, hksmall⟩ := CHUNK_MAX_SIZE_groups
  have hn : s.last_dump_offset+nextSize size s.last_dump_offset < 2^32 := by
    unfold nextSize
    split_ifs <;> omega
  have hint := chunkSize_eq hsize (Nat.le_of_lt hlt)
  have hpos : (nextSize size s.last_dump_offset : ℤ) > 0 := by
    unfold nextSize
    split_ifs <;> omega
  simp only [getNextAvailableStreamChunk, hreg, hint, if_pos hpos, Int.toNat_natCast]
  cases s.floppy_done.getLsbD 5 with
  | true => exact ⟨hreg, fun h => absurd h (by simp)⟩
  | false =>
    simp only [Bool.false_eq_true, if_false]
    generalize generateChunk malloc s _ _ _ = g
    obtain ⟨c, d⟩ := g
    cases c with
    | none => exact ⟨rfl, fun h => absurd h (by simp)⟩
    | some c => exact ⟨rfl, fun _ => Nat.mod_eq_of_lt hn⟩

theorem nextSize_room (size offset : ℕ) (hlt : offset+4 < size) :
    0 < nextSize size offset ∧ offset+nextSize size offset ≤ size := by
  obtain ⟨k, hk, hmax, -⟩ := CHUNK_MAX_SIZE_groups
  unfold nextSize
  split_ifs <;> omega

/-- A turn brings the offset nearer to the end of the buffer, and to the end
itself if it fails. -/
theorem turn_offset (a : Answer) {s : FpgaState} {size : ℕ} (hsize : size < 2^32)
    (hreg : s.floppy_dump_buffer_size = size) (hlt : s.last_dump_offset+4 < size) :
    (turn a s).2.floppy_dump_buffer_size = size ∧
      s.last_dump_offset < (turn a s).2.last_dump_offset ∧
      (turn a s).2.last_dump_offset ≤ size ∧
      ((turn a s).1 = true → (turn a s).2.last_dump_offset = size) := by
  have h := getNext_cases a.malloc (s := a.meets s) hsize hreg hlt
  have hroom := nextSize_room size s.last_dump_offset hlt
  obtain ⟨hkept, hnext⟩ := h
  unfold turn
  generalize getNextAvailableStreamChunk a.malloc (a.meets s) = r at hkept hnext
  obtain ⟨c, t⟩ := r
  cases c with
  | none =>
    have hend : t.floppy_dump_buffer_size = size := hkept
    exact ⟨hend, by simp only [hend]; omega, by simp only [hend]; exact le_rfl, fun _ => hend⟩
  | some c =>
    have hoff : t.last_dump_offset = s.last_dump_offset+nextSize size s.last_dump_offset :=
      hnext rfl
    exact ⟨hkept, by simp only [hoff]; omega, by simp only [hoff]; omega,
      fun h => absurd h (by simp)⟩

theorem turn_empty (a : Answer) {s : FpgaState} (hreg : s.floppy_dump_buffer_size = 0)
    (hoff : s.last_dump_offset = 0) :
    (turn a s).2.floppy_dump_buffer_size = 0 ∧ (turn a s).2.last_dump_offset = 0 := by
  have hint : ¬chunkSize 0 0 > 0 := by decide
  simp only [turn, getNextAvailableStreamChunk, Answer.meets, hreg, hoff, if_neg hint]
  cases a.floppy_done.getLsbD 5 with
  | true => exact ⟨rfl, rfl⟩
  | false => exact ⟨rfl, rfl⟩

/-! ## The loop -/

def ErrorsLast (flags : List Bool) : Prop := ∀ i : ℕ, flags[i]? = some true → flags.length ≤ i+2

theorem ErrorsLast.cons {flag : Bool} {flags : List Bool} (h : ErrorsLast flags)
    (hfirst : flag = true → flags.length ≤ 1) : ErrorsLast (flag::flags) := by
  intro i hi
  cases i with
  | zero =>
    have := hfirst (by simpa using hi)
    simp only [List.length_cons]
    omega
  | succ i =>
    have := h i (by simpa using hi)
    simp only [List.length_cons]
    omega

theorem turns_stop (answers : ℕ → Answer) (fuel n : ℕ) (s : FpgaState) {size : ℕ} (h4 : 4 ≤ size)
    (hsize : size < 2^32) (hreg : s.floppy_dump_buffer_size = size)
    (hend : size ≤ s.last_dump_offset+4) : turns answers (fuel+1) n s = some [] := by
  have hstop : ¬s.last_dump_offset < sub32 s.floppy_dump_buffer_size 4 := by
    rw [hreg, sub32_le _ _ h4 hsize]
    omega
  rw [turns, if_neg hstop]

theorem turns_end (answers : ℕ → Answer) {size : ℕ} (h4 : 4 ≤ size) (hsize : size < 2^32)
    (fuel n : ℕ) (s : FpgaState) (hreg : s.floppy_dump_buffer_size = size)
    (hfuel : size-s.last_dump_offset < fuel) :
    ∃ flags, turns answers fuel n s = some flags ∧ ErrorsLast flags ∧
      (size ≤ s.last_dump_offset+4 → flags = []) := by
  induction fuel generalizing n s with
  | zero => omega
  | succ fuel ih =>
    by_cases hlt : s.last_dump_offset+4 < size
    · obtain ⟨hkept, hgrow, hle, hfail⟩ := turn_offset (answers n) hsize hreg hlt
      obtain ⟨flags, hrun, herr, hnil⟩ := ih (n+1) (turn (answers n) s).2 hkept (by omega)
      have hgo : s.last_dump_offset < sub32 s.floppy_dump_buffer_size 4 := by
        rw [hreg, sub32_le _ _ h4 hsize]
        omega
      refine ⟨(turn (answers n) s).1::flags, ?_, herr.cons fun h => ?_, fun h => by omega⟩
      · rw [turns, if_pos hgo, hrun]
        rfl
      · -- the failed turn left the offset at the end, so no turn follows it
        rw [hnil (by rw [hfail h]; omega)]
        exact Nat.zero_le 1
    · refine ⟨[], turns_stop answers fuel n s h4 hsize hreg (by omega), ?_, fun _ => rfl⟩
      intro i hi
      simp at hi

theorem turns_empty (answers : ℕ → Answer) (fuel n : ℕ) (s : FpgaState)
    (hreg : s.floppy_dump_buffer_size = 0) (hoff : s.last_dump_offset = 0) :
    turns answers fuel n s = none := by
  induction fuel generalizing n s with
  | zero => rfl
  | succ fuel ih =>
    obtain ⟨hkept, hback⟩ := turn_empty (answers n) hreg hoff
    have hgo : s.last_dump_offset < sub32 s.floppy_dump_buffer_size 4 := by
      rw [hreg, hoff]
      decide
    rw [turns, if_pos hgo, ih (n+1) _ hkept hback]
    rfl

/-! ## The programmed size -/

theorem rounded_toNat (b : BitVec 32) :
    (b + ((0x10 - (b &&& 0xF)) &&& 0xF)).toNat = (b.toNat+15)/16*16 % 2^32 := by
  have hmask : ∀ c : BitVec 32, (c &&& 0xF).toNat = c.toNat % 16 := by
    intro c
    rw [BitVec.toNat_and]
    exact Nat.and_two_pow_sub_one_eq_mod _ 4
  have hb := b.isLt
  rw [BitVec.toNat_add, hmask, BitVec.toNat_sub, hmask, show (0x10 : BitVec 32).toNat = 16 from rfl]
  omega

theorem programmedSize_zero_iff (time : BitVec 32) (high_res_mode : Bool) :
    programmedSize time high_res_mode = 0 ↔ NoBytes time high_res_mode := by
  have hbytes : ((time * BitVec.ofInt 32 (bytesPerMs high_res_mode)).toNat : ℤ) =
      time.toInt * bytesPerMs high_res_mode % 2^32 := by
    have hmul : time * BitVec.ofInt 32 (bytesPerMs high_res_mode) =
        BitVec.ofInt 32 (time.toInt * bytesPerMs high_res_mode) := by
      rw [BitVec.ofInt_mul, BitVec.ofInt_toInt]
    rw [hmul, BitVec.toNat_ofInt]
    omega
  unfold programmedSize NoBytes
  simp only [rounded_toNat]
  generalize time * BitVec.ofInt 32 (bytesPerMs high_res_mode) = b at hbytes
  generalize time.toInt * bytesPerMs high_res_mode = t at hbytes
  have hb := b.isLt
  omega

theorem programmedSize_sixteen (time : BitVec 32) (high_res_mode : Bool) :
    programmedSize time high_res_mode % 16 = 0 ∧ programmedSize time high_res_mode < 2^32 := by
  unfold programmedSize
  simp only [rounded_toNat]
  omega

/-! ## The end of the loop -/

/-- The loop ends for a track, at most one turn after an error, exactly if the
dump time programs a buffer that is not empty. -/
theorem ends_iff (time : BitVec 32) (high_res_mode : Bool) (answers : ℕ → Answer)
    (state : FpgaState) :
    Ends answers (startTrack state (programmedSize time high_res_mode)) ↔
      ¬NoBytes time high_res_mode := by
  rw [← programmedSize_zero_iff]
  obtain ⟨h16, hsize⟩ := programmedSize_sixteen time high_res_mode
  generalize programmedSize time high_res_mode = size at h16 hsize
  constructor
  · rintro ⟨fuel, flags, hrun, -⟩ hzero
    rw [turns_empty answers fuel 0 _ hzero rfl] at hrun
    cases hrun
  · intro hpos
    obtain ⟨flags, hrun, herr, -⟩ := turns_end answers (by omega) hsize (size+1) 0
      (startTrack state size) rfl (Nat.lt_succ_of_le (Nat.sub_le _ _))
    exact ⟨size+1, flags, hrun, herr⟩

/-- No dump time has been set: every turn fails and puts the offset back to zero. -/
theorem unset_time_forever :
    ¬Ends (fun _ => ⟨fun _ => true, 0, fun _ => 0⟩) (startTrack blankDump (programmedSize 0 false)) := by
  have hzero : programmedSize 0 false = 0 := (programmedSize_zero_iff 0 false).mpr (by decide)
  rintro ⟨fuel, flags, hrun, -⟩
  rw [turns_empty _ fuel 0 _ hzero rfl] at hrun
  cases hrun

end Pauline.CaptureEnd
