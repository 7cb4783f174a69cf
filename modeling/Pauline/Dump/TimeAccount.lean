import Pauline.Dump.Chunk

/-!
# Sample accounting of a dump stream

Summing the gaps of a chunk places each pulse on the sample axis of the
dump. The accounts close exactly for words the converter can account for:
a word of several pulses loses its sixteen samples, a gap of 28 bits is cut
and the words added by rounding the length up are counted twice.
-/

set_option autoImplicit false

namespace Pauline.TimeAccount
open Pauline.DeltaCode Pauline.PulseWord Pauline.Track Pauline.DumpChunk

def occupied : ℕ → List Word → List (ℕ × Word)
  | _, [] => []
  | start, w::ws => if w = 0#16 then occupied (start+16) ws else (start, w) :: occupied (start+16) ws

def InWord (p : ℕ) (sw : ℕ × Word) : Prop :=
  sw.1 ≤ p ∧ p < sw.1+16 ∧ ∀ b, cells sw.2 = [b] → p = sw.1+b

/-- The gaps the converter can account for, from a pulse at sample `since`
and `carry` samples later: none of 28 bits, no counter overflow, and a word
of several pulses only as the last word with pulses. -/
def Accountable : ℕ → ℕ → List Word → Prop
  | _, _, [] => True
  | since, carry, w::ws =>
    (cells w = [] → carry+16 < 2^32 ∧ Accountable since (carry+16) ws) ∧
    (∀ b, cells w = [b] → carry+b ≤ maxDelta ∧ since+carry+b < 2^31 ∧
      Accountable (since+carry+b) (16-b) ws) ∧
    (1 < (cells w).length → carry ≤ maxDelta ∧ since+carry < 2^31 ∧
      (∀ v ∈ ws, v = 0#16) ∧ Accountable (since+carry) 0 ws)

def several (ws : List Word) : ℕ := ws.countP (fun w => 1 < (cells w).length)

/-- A word is empty, has one pulse or has several. -/
theorem word_cases (w : Word) :
    w = 0#16 ∨ (∃ b, b < 16 ∧ cells w = [b]) ∨ 1 < (cells w).length := by
  rcases Nat.lt_or_ge 1 (cells w).length with h | h
  · exact Or.inr (Or.inr h)
  · rcases cells_le_one w h with h | ⟨b, h⟩
    · exact Or.inl ((cells_eq_nil w).mp h)
    · exact Or.inr (Or.inl ⟨b, (single_toNat w b h).1, h⟩)

theorem cells_zero : cells 0#16 = [] := by decide

theorem single_ne_zero (w : Word) (b : ℕ) (h : cells w = [b]) : w ≠ 0#16 := by
  rintro rfl
  simp [cells_zero] at h

theorem several_ne_zero (w : Word) (h : 1 < (cells w).length) : w ≠ 0#16 := by
  rintro rfl
  simp [cells_zero] at h

theorem accountable_empty (since carry : ℕ) (ws : List Word) :
    Accountable since carry (0#16::ws) ↔ carry+16 < 2^32 ∧ Accountable since (carry+16) ws := by
  simp [Accountable, cells_zero]

theorem accountable_single (since carry : ℕ) (w : Word) (b : ℕ) (h : cells w = [b])
    (ws : List Word) :
    Accountable since carry (w::ws) ↔ carry+b ≤ maxDelta ∧ since+carry+b < 2^31 ∧
      Accountable (since+carry+b) (16-b) ws := by
  simp [Accountable, h]

theorem accountable_several (since carry : ℕ) (w : Word) (h : 1 < (cells w).length)
    (ws : List Word) :
    Accountable since carry (w::ws) ↔ carry ≤ maxDelta ∧ since+carry < 2^31 ∧
      (∀ v ∈ ws, v = 0#16) ∧ Accountable (since+carry) 0 ws := by
  have h0 : cells w ≠ [] := fun hc => by simp [hc] at h
  have h1 : ∀ b, cells w ≠ [b] := fun b hc => by simp [hc] at h
  simp [Accountable, h, h0, h1]

theorem occupied_empty (start : ℕ) (ws : List Word) :
    occupied start (0#16::ws) = occupied (start+16) ws := by
  simp [occupied]

theorem occupied_pulse (start : ℕ) (w : Word) (hw : w ≠ 0#16) (ws : List Word) :
    occupied start (w::ws) = (start, w) :: occupied (start+16) ws := by
  simp [occupied, hw]

theorem occupied_blank (start : ℕ) (ws : List Word) (h : ∀ v ∈ ws, v = 0#16) :
    occupied start ws = [] := by
  induction ws generalizing start with
  | nil => rfl
  | cons w ws ih =>
    obtain ⟨rfl, hws⟩ := List.forall_mem_cons.mp h
    rw [occupied_empty, ih _ hws]

def seen (carry : ℕ) (ws : List Word) : List ℕ :=
  (convertWords prepareLUT carry ws).2.map (min · maxDelta)

def carried (carry : ℕ) (ws : List Word) : ℕ := (convertWords prepareLUT carry ws).1

theorem seen_empty (carry : ℕ) (ws : List Word) :
    seen carry (0#16::ws) = seen ((carry+16) % 2^32) ws := by
  simp [seen, convertWords, convertWord_empty]

theorem carried_empty (carry : ℕ) (ws : List Word) :
    carried carry (0#16::ws) = carried ((carry+16) % 2^32) ws := by
  simp [carried, convertWords, convertWord_empty]

theorem seen_single (carry : ℕ) (w : Word) (b : ℕ) (h : cells w = [b]) (ws : List Word) :
    seen carry (w::ws) = min ((carry+b) % 2^32) maxDelta :: seen (16-b) ws := by
  simp [seen, convertWords, convertWord_single _ w b h]

theorem carried_single (carry : ℕ) (w : Word) (b : ℕ) (h : cells w = [b]) (ws : List Word) :
    carried carry (w::ws) = carried (16-b) ws := by
  simp [carried, convertWords, convertWord_single _ w b h]

theorem seen_several (carry : ℕ) (w : Word) (h : 1 < (cells w).length) (ws : List Word) :
    seen carry (w::ws) = min carry maxDelta :: seen 0 ws := by
  simp [seen, convertWords, convertWord_several _ w h]

theorem carried_several (carry : ℕ) (w : Word) (h : 1 < (cells w).length) (ws : List Word) :
    carried carry (w::ws) = carried 0 ws := by
  simp [carried, convertWords, convertWord_several _ w h]

theorem seen_length (carry : ℕ) (ws : List Word) (start : ℕ) :
    (seen carry ws).length = (occupied start ws).length := by
  induction ws generalizing carry start with
  | nil => rfl
  | cons w ws ih =>
    rcases word_cases w with rfl | ⟨b, -, hb⟩ | hs
    · rw [seen_empty, occupied_empty, ih]
    · rw [seen_single _ w b hb, occupied_pulse _ _ (single_ne_zero w b hb), List.length_cons,
        List.length_cons, ih]
    · rw [seen_several _ w hs, occupied_pulse _ _ (several_ne_zero w hs), List.length_cons,
        List.length_cons, ih]

/-- No sample is ever invented. -/
theorem total_le (carry : ℕ) (ws : List Word) :
    (seen carry ws).sum+carried carry ws ≤ carry+16*ws.length := by
  induction ws generalizing carry with
  | nil => simp [seen, carried, convertWords]
  | cons w ws ih =>
    simp only [List.length_cons]
    rcases word_cases w with rfl | ⟨b, hb16, hb⟩ | hs
    · have h := ih ((carry+16) % 2^32)
      have hle := Nat.mod_le (carry+16) (2^32)
      rw [seen_empty, carried_empty]
      omega
    · have h := ih (16-b)
      have hle := Nat.mod_le (carry+b) (2^32)
      have hmin := Nat.min_le_left ((carry+b) % 2^32) maxDelta
      rw [seen_single _ w b hb, carried_single _ w b hb, List.sum_cons]
      omega
    · have h := ih 0
      have hmin := Nat.min_le_left carry maxDelta
      rw [seen_several _ w hs, carried_several _ w hs, List.sum_cons]
      omega

/-! ## What an accountable list of words yields -/

theorem accountable_total (since carry : ℕ) (ws : List Word) (h : Accountable since carry ws) :
    (seen carry ws).sum+carried carry ws+16*several ws = carry+16*ws.length := by
  induction ws generalizing since carry with
  | nil => simp [seen, carried, several, convertWords]
  | cons w ws ih =>
    rw [several, List.countP_cons, List.length_cons, ← several]
    rcases word_cases w with rfl | ⟨b, hb16, hb⟩ | hs
    · obtain ⟨hlt, hrest⟩ := (accountable_empty _ _ _).mp h
      have ht := ih _ _ hrest
      rw [seen_empty, carried_empty, Nat.mod_eq_of_lt hlt, if_neg (by simp [cells_zero])]
      omega
    · obtain ⟨hmax, -, hrest⟩ := (accountable_single _ _ w b hb _).mp h
      have ht := ih _ _ hrest
      unfold maxDelta at hmax
      rw [seen_single _ w b hb, carried_single _ w b hb, Nat.mod_eq_of_lt (by omega),
        Nat.min_eq_left (by unfold maxDelta; omega), List.sum_cons, if_neg (by simp [hb])]
      omega
    · obtain ⟨hmax, -, -, hrest⟩ := (accountable_several _ _ w hs _).mp h
      have ht := ih _ _ hrest
      rw [seen_several _ w hs, carried_several _ w hs, Nat.min_eq_left hmax, List.sum_cons,
        if_pos (by simpa using hs)]
      omega

theorem accountable_sum (since carry : ℕ) (ws : List Word) (h : Accountable since carry ws)
    (hs : since < 2^31) : since+(seen carry ws).sum < 2^31 := by
  induction ws generalizing since carry with
  | nil => simpa [seen, convertWords] using hs
  | cons w ws ih =>
    rcases word_cases w with rfl | ⟨b, hb16, hb⟩ | hw
    · obtain ⟨hlt, hrest⟩ := (accountable_empty _ _ _).mp h
      rw [seen_empty, Nat.mod_eq_of_lt hlt]
      exact ih _ _ hrest hs
    · obtain ⟨hmax, hspan, hrest⟩ := (accountable_single _ _ w b hb _).mp h
      have ht := ih _ _ hrest hspan
      have hmin := Nat.min_le_left ((carry+b) % 2^32) maxDelta
      have hmod := Nat.mod_le (carry+b) (2^32)
      rw [seen_single _ w b hb, List.sum_cons]
      omega
    · obtain ⟨hmax, hspan, -, hrest⟩ := (accountable_several _ _ w hw _).mp h
      have ht := ih _ _ hrest hspan
      rw [seen_several _ w hw, Nat.min_eq_left hmax, List.sum_cons]
      omega

theorem accountable_positions (since carry : ℕ) (ws : List Word)
    (h : Accountable since carry ws) :
    List.Forall₂ InWord (CodeStream.positions since (seen carry ws))
      (occupied (since+carry) ws) := by
  induction ws generalizing since carry with
  | nil => exact List.Forall₂.nil
  | cons w ws ih =>
    rcases word_cases w with rfl | ⟨b, hb16, hb⟩ | hs
    · obtain ⟨hlt, hrest⟩ := (accountable_empty _ _ _).mp h
      rw [seen_empty, occupied_empty, Nat.mod_eq_of_lt hlt, Nat.add_assoc]
      exact ih _ _ hrest
    · obtain ⟨hmax, -, hrest⟩ := (accountable_single _ _ w b hb _).mp h
      have hgap : min ((carry+b) % 2^32) maxDelta = carry+b := by
        unfold maxDelta at hmax ⊢
        rw [Nat.mod_eq_of_lt (by omega), Nat.min_eq_left hmax]
      rw [seen_single _ w b hb, occupied_pulse _ _ (single_ne_zero w b hb), hgap,
        CodeStream.positions_cons, ← Nat.add_assoc,
        show since+carry+16 = since+carry+b+(16-b) by omega]
      refine List.Forall₂.cons ⟨by simp only; omega, by simp only; omega, fun c hc => ?_⟩
        (ih _ _ hrest)
      rw [hb] at hc
      obtain rfl := (List.cons.inj hc).1
      rfl
    · obtain ⟨hmax, -, hblank, -⟩ := (accountable_several _ _ w hs _).mp h
      have hnil : seen 0 ws = [] := by
        rw [← List.length_eq_zero_iff, seen_length 0 ws 0, occupied_blank 0 ws hblank]
        rfl
      rw [seen_several _ w hs, occupied_pulse _ _ (several_ne_zero w hs), hnil,
        Nat.min_eq_left hmax, occupied_blank _ ws hblank]
      refine List.Forall₂.cons ⟨le_refl _, by simp only; omega, fun c hc => ?_⟩ List.Forall₂.nil
      simp [hc] at hs

/-! ## Nothing else is accountable -/

/-- Once a whole word is lost no later pulse is placed in its word. -/
theorem late_blank (since carry extra : ℕ) (ws : List Word)
    (h : List.Forall₂ InWord (CodeStream.positions since (seen carry ws))
      (occupied (since+carry+16+extra) ws)) : ∀ v ∈ ws, v = 0#16 := by
  induction ws generalizing carry extra with
  | nil => simp
  | cons w ws ih =>
    rcases word_cases w with rfl | ⟨b, hb16, hb⟩ | hs
    · rw [seen_empty, occupied_empty] at h
      obtain ⟨x, hx⟩ : ∃ x, since+carry+16+extra+16 = since+(carry+16) % 2^32+16+x :=
        ⟨carry+16-(carry+16) % 2^32+extra, by have := Nat.mod_le (carry+16) (2^32); omega⟩
      rw [hx] at h
      exact List.forall_mem_cons.mpr ⟨rfl, ih _ _ h⟩
    · rw [seen_single _ w b hb, occupied_pulse _ _ (single_ne_zero w b hb),
        CodeStream.positions_cons] at h
      have hp := (List.forall₂_cons.mp h).1.2.2 b hb
      have hmod := Nat.mod_le (carry+b) (2^32)
      have hmin := Nat.min_le_left ((carry+b) % 2^32) maxDelta
      simp only at hp
      omega
    · rw [seen_several _ w hs, occupied_pulse _ _ (several_ne_zero w hs),
        CodeStream.positions_cons] at h
      have hp := (List.forall₂_cons.mp h).1.1
      have hmin := Nat.min_le_left carry maxDelta
      simp only at hp
      omega

theorem accountable_of_conserved (since carry : ℕ) (ws : List Word) (hc : carry < 2^32)
    (htotal : carry+16*ws.length ≤ (seen carry ws).sum+carried carry ws+112)
    (hspan : since+(seen carry ws).sum < 2^31)
    (hpos : List.Forall₂ InWord (CodeStream.positions since (seen carry ws))
      (occupied (since+carry) ws)) : Accountable since carry ws := by
  induction ws generalizing since carry with
  | nil => trivial
  | cons w ws ih =>
    rw [List.length_cons] at htotal
    rcases word_cases w with rfl | ⟨b, hb16, hb⟩ | hs
    · rw [seen_empty, carried_empty] at htotal
      rw [seen_empty] at hspan hpos
      rw [occupied_empty] at hpos
      -- a wrapped counter would lose 2^32 samples
      have hlt : carry+16 < 2^32 := by
        by_contra hge
        have hle := total_le ((carry+16) % 2^32) ws
        omega
      rw [Nat.mod_eq_of_lt hlt] at htotal hspan hpos
      rw [Nat.add_assoc] at hpos
      exact (accountable_empty _ _ _).mpr ⟨hlt, ih _ _ hlt (by omega) hspan hpos⟩
    · rw [seen_single _ w b hb, carried_single _ w b hb, List.sum_cons] at htotal
      rw [seen_single _ w b hb] at hspan hpos
      rw [occupied_pulse _ _ (single_ne_zero w b hb), CodeStream.positions_cons] at hpos
      obtain ⟨hin, hrest⟩ := List.forall₂_cons.mp hpos
      have hgap : min ((carry+b) % 2^32) maxDelta = carry+b := by
        have := hin.2.2 b hb
        simp only at this
        omega
      have hmax : carry+b ≤ maxDelta := hgap ▸ Nat.min_le_right _ _
      rw [hgap, List.sum_cons] at hspan
      rw [hgap] at htotal hrest
      rw [← Nat.add_assoc, show since+carry+16 = since+carry+b+(16-b) by omega] at hrest
      exact (accountable_single _ _ w b hb _).mpr ⟨hmax, by omega,
        ih _ _ (by omega) (by omega) (by omega) hrest⟩
    · rw [seen_several _ w hs, carried_several _ w hs, List.sum_cons] at htotal
      rw [seen_several _ w hs] at hspan hpos
      rw [occupied_pulse _ _ (several_ne_zero w hs), CodeStream.positions_cons] at hpos
      obtain ⟨hin, hrest⟩ := List.forall₂_cons.mp hpos
      have hgap : min carry maxDelta = carry := by
        have := hin.1
        have hle := Nat.min_le_left carry maxDelta
        simp only at this
        omega
      have hmax : carry ≤ maxDelta := hgap ▸ Nat.min_le_right _ _
      rw [hgap, List.sum_cons] at hspan
      rw [hgap] at htotal hrest
      have hblank := late_blank (since+carry) 0 0 ws hrest
      have hnil : seen 0 ws = [] := by
        rw [← List.length_eq_zero_iff, seen_length 0 ws 0, occupied_blank 0 ws hblank]
        rfl
      exact (accountable_several _ _ w hs _).mpr ⟨hmax, by omega, hblank,
        ih _ _ (by omega) (by omega) (by omega)
          (by rw [hnil, occupied_blank _ ws hblank]; exact List.Forall₂.nil)⟩

/-! ## One chunk, and chunk after chunk -/

def chunkContent (state : FpgaState) (chunk_ptr chunk_size : ℕ) : List Word :=
  (strided chunk_ptr (chunkWords chunk_size)).map state.dump_buffer

structure TimeConserved (state : FpgaState) (chunk_size bitdelta : ℕ) (c : ChunkStream) :
    Prop where
  samples : numberOfDataSamples bitdelta chunk_size c.prev_bitdelta = ((streamDeltas c).sum : ℤ)
  conserved : bitdelta+16*(chunk_size/4) = (streamDeltas c).sum+c.prev_bitdelta
  positions : List.Forall₂ InWord (CodeStream.positions 0 (streamDeltas c))
    (occupied bitdelta (c.reads.map state.dump_buffer))

/-- The condition on a chunk: its words are accountable and as many of them
hold several pulses as rounding the length up adds words. -/
def ChunkAccountable (state : FpgaState) (chunk_ptr chunk_size bitdelta : ℕ) : Prop :=
  Accountable 0 bitdelta (chunkContent state chunk_ptr chunk_size) ∧
    several (chunkContent state chunk_ptr chunk_size) = chunkWords chunk_size-chunk_size/4

theorem chunkWords_bounds (size : ℕ) (h4 : size % 4 = 0) :
    size/4 ≤ chunkWords size ∧ chunkWords size ≤ size/4+7 := by
  simp only [chunkWords, chunkLen]
  split_ifs <;> omega

theorem carried_lt (carry : ℕ) (ws : List Word) (h : carry < 2^32) : carried carry ws < 2^32 := by
  induction ws generalizing carry with
  | nil => exact h
  | cons w ws ih =>
    rcases word_cases w with rfl | ⟨b, hb16, hb⟩ | hs
    · rw [carried_empty]
      exact ih _ (Nat.mod_lt _ (by decide))
    · rw [carried_single _ w b hb]
      exact ih _ (by omega)
    · rw [carried_several _ w hs]
      exact ih _ (by decide)

theorem chunk_conserved_iff (malloc : ℕ → Bool) (state : FpgaState)
    (chunk_ptr chunk_size bitdelta : ℕ) (c : ChunkStream) (h4 : chunk_size % 4 = 0)
    (hpos : 0 < chunk_size) (hd : bitdelta < 2^32)
    (hc : fastConvertChunk malloc state chunk_ptr chunk_size bitdelta = some c) :
    TimeConserved state chunk_size bitdelta c ↔
      ChunkAccountable state chunk_ptr chunk_size bitdelta := by
  obtain ⟨hstream, hcarry, hreads, -⟩ :=
    streamDeltas_words malloc state chunk_ptr chunk_size bitdelta c h4 hpos hc
  set ws := chunkContent state chunk_ptr chunk_size with hws
  have hdeltas : streamDeltas c = seen bitdelta ws := hstream
  have hout : c.prev_bitdelta = carried bitdelta ws := hcarry
  have hread : c.reads.map state.dump_buffer = ws := by rw [hreads, hws, chunkContent]
  have hlen : ws.length = chunkWords chunk_size := by simp [hws, chunkContent]
  have hbounds := chunkWords_bounds chunk_size h4
  have hlt := carried_lt bitdelta ws hd
  rw [ChunkAccountable, ← hws]
  constructor
  · rintro ⟨hsamples, hcons, hplaces⟩
    rw [hread, hdeltas] at hplaces
    rw [hdeltas, hout] at hsamples hcons
    have hspan : (seen bitdelta ws).sum < 2^31 := by
      have hp := asInt_lt
        (bitdelta+chunk_size/4*16+(2^32-carried bitdelta ws % 2^32))
      rw [numberOfDataSamples] at hsamples
      omega
    have hacc := accountable_of_conserved 0 bitdelta ws hd (by omega) (by omega)
      (by rw [Nat.zero_add]; exact hplaces)
    have htotal := accountable_total 0 bitdelta ws hacc
    exact ⟨hacc, by omega⟩
  · rintro ⟨hacc, hsev⟩
    have htotal := accountable_total 0 bitdelta ws hacc
    have hspan := accountable_sum 0 bitdelta ws hacc (by decide)
    have hplaces := accountable_positions 0 bitdelta ws hacc
    rw [Nat.zero_add] at hplaces
    refine ⟨?_, by rw [hdeltas, hout]; omega, by rw [hread, hdeltas]; exact hplaces⟩
    rw [hdeltas, hout, numberOfDataSamples]
    apply asInt_small _ _ _ (by omega)
    rw [Nat.mod_eq_of_lt hlt]
    omega

/-- Successive conversions, each from the carry of the one before. The buffer
may change between two chunks. -/
inductive ChunkRun (malloc : ℕ → Bool) : ℕ → List (FpgaState × ℕ × ChunkStream) → ℕ → Prop
  | nil (bitdelta : ℕ) : ChunkRun malloc bitdelta [] bitdelta
  | cons {state : FpgaState} {chunk_ptr chunk_size bitdelta final : ℕ} {c : ChunkStream}
      {rest : List (FpgaState × ℕ × ChunkStream)} (h4 : chunk_size % 4 = 0)
      (hpos : 0 < chunk_size)
      (hc : fastConvertChunk malloc state chunk_ptr chunk_size bitdelta = some c)
      (hok : ChunkAccountable state chunk_ptr chunk_size bitdelta)
      (hrest : ChunkRun malloc c.prev_bitdelta rest final) :
      ChunkRun malloc bitdelta ((state, chunk_size, c)::rest) final

def runDeltas (cs : List (FpgaState × ℕ × ChunkStream)) : List ℕ :=
  cs.flatMap (fun c => streamDeltas c.2.2)

def runSamples (cs : List (FpgaState × ℕ × ChunkStream)) : ℕ :=
  (cs.map (fun c => 16*(c.2.1/4))).sum

def runOccupied : ℕ → List (FpgaState × ℕ × ChunkStream) → List (ℕ × Word)
  | _, [] => []
  | start, (state, chunk_size, c)::rest =>
    occupied start (c.reads.map state.dump_buffer) ++ runOccupied (start+16*(chunk_size/4)) rest

theorem positions_shift (s a : ℕ) (es : List ℕ) :
    CodeStream.positions (s+a) es = (CodeStream.positions a es).map (s+·) := by
  induction es generalizing a with
  | nil => rfl
  | cons e es ih => simp [Nat.add_assoc, ih]

theorem occupied_shift (s a : ℕ) (ws : List Word) :
    occupied (s+a) ws = (occupied a ws).map (fun sw => (s+sw.1, sw.2)) := by
  induction ws generalizing a with
  | nil => rfl
  | cons w ws ih =>
    by_cases hw : w = 0#16
    · rw [hw, occupied_empty, occupied_empty, Nat.add_assoc, ih]
    · rw [occupied_pulse _ _ hw, occupied_pulse _ _ hw, Nat.add_assoc, ih]
      rfl

theorem inWord_shift (s a d : ℕ) (es : List ℕ) (ws : List Word)
    (h : List.Forall₂ InWord (CodeStream.positions a es) (occupied d ws)) :
    List.Forall₂ InWord (CodeStream.positions (s+a) es) (occupied (s+d) ws) := by
  rw [positions_shift, occupied_shift, List.forall₂_map_left_iff, List.forall₂_map_right_iff]
  refine h.imp (fun p sw hin => ⟨?_, ?_, fun b hb => ?_⟩)
  · exact Nat.add_le_add_left hin.1 s
  · have := hin.2.1
    simp only
    omega
  · have := hin.2.2 b hb
    simp only
    omega

/-- Over a run of accountable chunks the summed gaps place every pulse in its
own word, and no sample is lost or counted twice. -/
theorem chunkRun_places (malloc : ℕ → Bool) (since bitdelta final : ℕ)
    (cs : List (FpgaState × ℕ × ChunkStream)) (hd : bitdelta < 2^32)
    (h : ChunkRun malloc bitdelta cs final) :
    List.Forall₂ InWord (CodeStream.positions since (runDeltas cs))
      (runOccupied (since+bitdelta) cs) ∧
    bitdelta+runSamples cs = (runDeltas cs).sum+final := by
  induction h generalizing since with
  | nil bitdelta => exact ⟨List.Forall₂.nil, by simp [runSamples, runDeltas]⟩
  | @cons state chunk_ptr chunk_size bitdelta final c rest h4 hpos hc hok hrest ih =>
    obtain ⟨-, hcons, hplaces⟩ :=
      (chunk_conserved_iff malloc state chunk_ptr chunk_size bitdelta c h4 hpos hd hc).mpr hok
    have hcarry : c.prev_bitdelta < 2^32 := by
      obtain ⟨-, hcarry, -⟩ :=
        streamDeltas_words malloc state chunk_ptr chunk_size bitdelta c h4 hpos hc
      rw [hcarry]
      exact carried_lt bitdelta _ hd
    obtain ⟨hp, ht⟩ := ih (since+(streamDeltas c).sum) hcarry
    rw [runDeltas, List.flatMap_cons, ← runDeltas]
    constructor
    · rw [CodeStream.positions_append, runOccupied]
      refine List.rel_append (inWord_shift since 0 bitdelta _ _ hplaces) ?_
      rw [show since+bitdelta+16*(chunk_size/4) =
        since+(streamDeltas c).sum+c.prev_bitdelta by omega]
      exact hp
    · simp only [runSamples, List.map_cons, List.sum_cons, List.sum_append] at ht ⊢
      omega

/-- A chunk keeps the time exactly when it is accountable, and over any
sequence of such chunks every pulse is placed in its own word. -/
theorem time_conserved_iff (malloc : ℕ → Bool) :
    (∀ (state : FpgaState) (chunk_ptr chunk_size bitdelta : ℕ) (c : ChunkStream),
      chunk_size % 4 = 0 → 0 < chunk_size → bitdelta < 2^32 →
      fastConvertChunk malloc state chunk_ptr chunk_size bitdelta = some c →
      (TimeConserved state chunk_size bitdelta c ↔
        ChunkAccountable state chunk_ptr chunk_size bitdelta)) ∧
    (∀ (bitdelta final : ℕ) (cs : List (FpgaState × ℕ × ChunkStream)), bitdelta < 2^32 →
      ChunkRun malloc bitdelta cs final →
      List.Forall₂ InWord (CodeStream.positions 0 (runDeltas cs)) (runOccupied bitdelta cs) ∧
      bitdelta+runSamples cs = (runDeltas cs).sum+final) := by
  constructor
  · intro state chunk_ptr chunk_size bitdelta c h4 hpos hd hc
    exact chunk_conserved_iff malloc state chunk_ptr chunk_size bitdelta c h4 hpos hd hc
  · intro bitdelta final cs hd h
    have hrun := chunkRun_places malloc 0 bitdelta final cs hd h
    rwa [Nat.zero_add] at hrun

def bufferState (dump_buffer : ℕ → Word) : FpgaState :=
  { smallState (fun _ _ => 0#16) with dump_buffer := dump_buffer }

theorem accountable_blank (since carry : ℕ) (ws : List Word) (h : ∀ v ∈ ws, v = 0#16)
    (hc : carry+16*ws.length < 2^32) : Accountable since carry ws := by
  induction ws generalizing carry with
  | nil => trivial
  | cons w ws ih =>
    obtain ⟨rfl, hws⟩ := List.forall_mem_cons.mp h
    rw [List.length_cons] at hc
    exact (accountable_empty _ _ _).mpr ⟨by omega, ih _ hws (by omega)⟩

def singlePulse : FpgaState := bufferState fun a => if a = 0 then 1#16 else 0#16

theorem singlePulse_accountable : ChunkAccountable singlePulse 0 32 0 := by
  have hw : chunkContent singlePulse 0 32 = 1#16 :: List.replicate 7 0#16 := by
    decide
  rw [ChunkAccountable, hw]
  exact ⟨(accountable_single _ _ 1#16 15 (by decide) _).mpr ⟨by decide, by decide,
    accountable_blank _ _ _ (fun v hv => List.eq_of_mem_replicate hv) (by decide)⟩, by decide⟩

theorem time_conserved_iff_single : ∃ c,
    fastConvertChunk (fun _ => true) singlePulse 0 32 0 = some c ∧
    TimeConserved singlePulse 32 0 c ∧
    List.Forall₂ InWord (CodeStream.positions 0 (runDeltas [(singlePulse, 32, c)]))
      (runOccupied 0 [(singlePulse, 32, c)]) := by
  have hc := fastConvertChunk_words (fun _ => true) singlePulse 0 32 0 (by decide) (by decide) rfl
  exact ⟨_, hc, ((time_conserved_iff (fun _ => true)).1 _ 0 32 0 _ (by decide) (by decide)
    (by decide) hc).mpr singlePulse_accountable,
    ((time_conserved_iff (fun _ => true)).2 0 _ _ (by decide)
      (ChunkRun.cons (by decide) (by decide) hc singlePulse_accountable (ChunkRun.nil _))).1⟩

/-- A word of two pulses in a chunk of eight words: the metadata counts
sixteen samples the stream does not hold. -/
theorem time_lost_on_several : ∃ c,
    fastConvertChunk (fun _ => true)
      (bufferState fun a => if a = 0 then 0xC000#16 else 0#16) 0 32 0 = some c ∧
    numberOfDataSamples 0 32 c.prev_bitdelta = 16 ∧ (streamDeltas c).sum = 0 ∧
    ¬TimeConserved (bufferState fun a => if a = 0 then 0xC000#16 else 0#16) 32 0 c := by
  have hc := fastConvertChunk_words (fun _ => true)
    (bufferState fun a => if a = 0 then 0xC000#16 else 0#16) 0 32 0 (by decide) (by decide) rfl
  have hw : (strided 0 (chunkWords 32)).map
      (bufferState fun a => if a = 0 then 0xC000#16 else 0#16).dump_buffer =
      0xC000#16 :: List.replicate 7 0#16 := by
    decide
  have hout : convertWords prepareLUT 0 (0xC000#16 :: List.replicate 7 0#16) = (112, [0]) := by
    simp [convertWords, convertWord_several 0 0xC000#16 (by decide), convertWord_empty,
      List.replicate]
  simp only [hw, hout] at hc
  refine ⟨_, hc, by decide, by decide, fun h => ?_⟩
  have hcons := h.conserved
  revert hcons
  decide

end Pauline.TimeAccount
