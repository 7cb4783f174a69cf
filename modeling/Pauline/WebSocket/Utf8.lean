import Pauline.Library.Utf8

/-!
# The check of text

The server checks text byte by byte with a table, a fragment of a message at a time.
Between the bytes of a character the state says which byte may be next.
-/

set_option autoImplicit false

namespace Pauline.WebSocket
open Utf8

def UTF8_ACCEPT : ℕ := 0
def UTF8_REJECT : ℕ := 1

def byteTypes : List ℕ :=
  List.replicate 128 0 ++
  List.replicate 16 1 ++ List.replicate 16 9 ++
  List.replicate 32 7 ++
  [8,8] ++ List.replicate 30 2 ++
  [0xa] ++ List.replicate 12 0x3 ++ [0x4,0x3,0x3] ++
  [0xb,0x6,0x6,0x6,0x5] ++ List.replicate 11 0x8

def stateRows : List ℕ :=
  [0x0,0x1,0x2,0x3,0x5,0x8,0x7,0x1,0x1,0x1,0x4,0x6,0x1,0x1,0x1,0x1,
    1,1,1,1,1,1,1,1,1,1,1,1,1,1,1,1,1,0,1,1,1,1,1,0,1,0,1,1,1,1,1,1,
    1,2,1,1,1,1,1,2,1,2,1,1,1,1,1,1,1,1,1,1,1,1,1,2,1,1,1,1,1,1,1,1,
    1,2,1,1,1,1,1,1,1,2,1,1,1,1,1,1,1,1,1,1,1,1,1,3,1,3,1,1,1,1,1,1,
    1,3,1,1,1,1,1,3,1,3,1,1,1,1,1,1,1,3,1,1,1,1,1,1,1,1,1,1,1,1,1,1]

def utf8d : List ℕ := byteTypes ++ stateRows

def decode (state : ℕ) (byte : Byte) : ℕ :=
  let type := utf8d.getD byte.toNat 0
  utf8d.getD (256+state*16+type) 0

def isUtf8LenState (s : List Byte) (state : ℕ) : ℕ := s.foldl decode state

def isUtf8Len (s : List Byte) : Bool := isUtf8LenState s UTF8_ACCEPT = UTF8_ACCEPT

/-! ## What a state waits for -/

def waits (state : ℕ) : ℕ × ℕ × ℕ :=
  match state with
  | 2 => (0x80,0xc0,UTF8_ACCEPT)
  | 3 => (0x80,0xc0,2)
  | 4 => (0xa0,0xc0,2)
  | 5 => (0x80,0xa0,2)
  | 6 => (0x90,0xc0,3)
  | 7 => (0x80,0xc0,3)
  | 8 => (0x80,0x90,3)
  | _ => (0,0,UTF8_REJECT)

def rangeType (n : ℕ) : ℕ :=
  if n < 0x80 then 0 else if n < 0x90 then 1 else if n < 0xa0 then 9 else if n < 0xc0 then 7
  else if n < 0xc2 then 8 else if n < 0xe0 then 2 else if n = 0xe0 then 10 else if n = 0xed then 4
  else if n < 0xf0 then 3 else if n = 0xf0 then 11 else if n < 0xf4 then 6 else if n = 0xf4 then 5
  else 8

theorem byteTypes_range : byteTypes = (List.range 256).map rangeType := by decide +kernel

theorem decode_eq (state : ℕ) (b : Byte) :
    decode state b = stateRows.getD (state*16+rangeType b.toNat) 0 := by
  have hlen : byteTypes.length = 256 := by rw [byteTypes_range, List.length_map, List.length_range]
  have hb := b.isLt
  have htype : utf8d.getD b.toNat 0 = rangeType b.toNat := by
    rw [utf8d, List.getD_eq_getElem?_getD, List.getElem?_append_left (by omega), byteTypes_range,
      List.getElem?_map, List.getElem?_range hb]
    rfl
  show utf8d.getD (256+state*16+utf8d.getD b.toNat 0) 0 = _
  rw [htype, utf8d, List.getD_eq_getElem?_getD, List.getElem?_append_right (by omega), hlen,
    show 256+state*16+rangeType b.toNat-256 = state*16+rangeType b.toNat by omega,
    ← List.getD_eq_getElem?_getD]

theorem decode_lead (b : Byte) : decode UTF8_ACCEPT b =
    if b.toNat < 0x80 then UTF8_ACCEPT
    else if b.toNat < 0xc2 then UTF8_REJECT
    else if b.toNat < 0xe0 then 2
    else if b.toNat = 0xe0 then 4
    else if b.toNat = 0xed then 5
    else if b.toNat < 0xf0 then 3
    else if b.toNat = 0xf0 then 6
    else if b.toNat < 0xf4 then 7
    else if b.toNat = 0xf4 then 8
    else UTF8_REJECT := by
  rw [decode_eq]
  revert b
  decide +kernel

theorem decode_tail (state : Fin 9) (hstate : state.val ≠ UTF8_ACCEPT) (b : Byte) :
    decode state b = if (waits state).1 ≤ b.toNat ∧ b.toNat < (waits state).2.1 then
      (waits state).2.2 else UTF8_REJECT := by
  rw [decode_eq]
  revert hstate b
  revert state
  decide +kernel

theorem isUtf8LenState_append (s t : List Byte) (state : ℕ) :
    isUtf8LenState (s ++ t) state = isUtf8LenState t (isUtf8LenState s state) :=
  List.foldl_append

theorem reject_stays (s : List Byte) : isUtf8LenState s UTF8_REJECT = UTF8_REJECT := by
  induction s with
  | nil => rfl
  | cons b s ih =>
    have hstep : decode UTF8_REJECT b = UTF8_REJECT := by
      have htail := decode_tail 1 (by decide) b
      split_ifs at htail <;> exact htail
    rw [isUtf8LenState, List.foldl_cons, hstep]
    exact ih

theorem decode_waits {state : ℕ} (hstate : state < 9) {b : Byte} (hlo : (waits state).1 ≤ b.toNat)
    (hhi : b.toNat < (waits state).2.1) : decode state b = (waits state).2.2 := by
  have hne : state ≠ UTF8_ACCEPT := by
    rintro rfl
    exact absurd hhi (Nat.not_lt_zero _)
  rw [decode_tail ⟨state,hstate⟩ hne, if_pos ⟨hlo,hhi⟩]

/-- The rest of a character is a byte that the state takes, and the rest after it. -/
theorem accepted_tail {state : ℕ} (hstate : state < 9) (hne : state ≠ UTF8_ACCEPT) {s : List Byte}
    (h : isUtf8LenState s state = UTF8_ACCEPT) :
    ∃ b rest, s = b :: rest ∧ (waits state).1 ≤ b.toNat ∧ b.toNat < (waits state).2.1 ∧
      isUtf8LenState rest (waits state).2.2 = UTF8_ACCEPT := by
  cases s with
  | nil => exact absurd h hne
  | cons b rest =>
    rw [isUtf8LenState, List.foldl_cons, decode_tail ⟨state,hstate⟩ hne] at h
    split_ifs at h with hin
    · exact ⟨b,rest,rfl,hin.1,hin.2,h⟩
    · exact absurd ((reject_stays rest).symm.trans h) (by decide)

theorem sequence_accepted {bs : List Byte} (h : Sequence bs) :
    isUtf8LenState bs UTF8_ACCEPT = UTF8_ACCEPT := by
  have htail (state : ℕ) (hstate : state < 9) {b : Byte} (hb : Tail b)
      (hw : (waits state).1 = 0x80 ∧ (waits state).2.1 = 0xc0) :
      decode state b = (waits state).2.2 :=
    decode_waits hstate (hw.1.trans_le hb.1) (hb.2.trans_eq hw.2.symm)
  cases h with
  | @one a ha =>
    show decode _ a = _
    rw [decode_lead, if_pos ha]
  | @two a b hlo hhi hb =>
    show decode (decode _ a) b = _
    have hlead : decode UTF8_ACCEPT a = 2 := by
      rw [decode_lead, if_neg (by omega), if_neg (by omega), if_pos hhi]
    rw [hlead, htail 2 (by decide) hb ⟨rfl,rfl⟩]
    rfl
  | @three a b c hlo hhi hb hc hshort hsurrogate =>
    show decode (decode (decode _ a) b) c = _
    have hsecond : decode (decode UTF8_ACCEPT a) b = 2 := by
      rw [decode_lead, if_neg (by omega), if_neg (by omega), if_neg (by omega)]
      split_ifs with he0 hed
      · exact decode_waits (by decide) (hshort he0) hb.2
      · exact decode_waits (by decide) hb.1 (hsurrogate hed)
      · exact htail 3 (by decide) hb ⟨rfl,rfl⟩
    rw [hsecond, htail 2 (by decide) hc ⟨rfl,rfl⟩]
    rfl
  | @four a b c d hlo hhi hb hc hd hshort hlast =>
    show decode (decode (decode (decode _ a) b) c) d = _
    have hsecond : decode (decode UTF8_ACCEPT a) b = 3 := by
      rw [decode_lead, if_neg (by omega), if_neg (by omega), if_neg (by omega), if_neg (by omega),
        if_neg (by omega), if_neg (by omega)]
      split_ifs with hf0 hf3 hf4
      · exact decode_waits (by decide) (hshort hf0) hb.2
      · exact htail 7 (by decide) hb ⟨rfl,rfl⟩
      · exact decode_waits (by decide) hb.1 (hlast hf4)
      · omega
    rw [hsecond, htail 3 (by decide) hc ⟨rfl,rfl⟩]
    exact htail 2 (by decide) hd ⟨rfl,rfl⟩

theorem accepted_one {s : List Byte} (h : isUtf8LenState s 2 = UTF8_ACCEPT) :
    ∃ c rest, s = c :: rest ∧ Tail c ∧ isUtf8LenState rest UTF8_ACCEPT = UTF8_ACCEPT := by
  obtain ⟨c, rest, hs, hlo, hhi, hrest⟩ := accepted_tail (by decide) (by decide) h
  exact ⟨c,rest,hs,⟨hlo,hhi⟩,hrest⟩

/-- Two bytes are left, and the range of the first is that of the state. -/
theorem accepted_two {s : List Byte} {lo hi : ℕ} (state : ℕ) (hstate : state < 9)
    (hne : state ≠ UTF8_ACCEPT) (hw : waits state = (lo,hi,2))
    (h : isUtf8LenState s state = UTF8_ACCEPT) :
    ∃ c d rest, s = c :: d :: rest ∧ lo ≤ c.toNat ∧ c.toNat < hi ∧ Tail d ∧
      isUtf8LenState rest UTF8_ACCEPT = UTF8_ACCEPT := by
  obtain ⟨c, rest, rfl, hlo, hhi, hrest⟩ := accepted_tail hstate hne h
  rw [hw] at hlo hhi hrest
  obtain ⟨d, rest, rfl, hd, hrest⟩ := accepted_one hrest
  exact ⟨c,d,rest,rfl,hlo,hhi,hd,hrest⟩

theorem accepted_three {s : List Byte} {lo hi : ℕ} (state : ℕ) (hstate : state < 9)
    (hne : state ≠ UTF8_ACCEPT) (hw : waits state = (lo,hi,3))
    (h : isUtf8LenState s state = UTF8_ACCEPT) :
    ∃ c d e rest, s = c :: d :: e :: rest ∧ lo ≤ c.toNat ∧ c.toNat < hi ∧ Tail d ∧ Tail e ∧
      isUtf8LenState rest UTF8_ACCEPT = UTF8_ACCEPT := by
  obtain ⟨c, rest, rfl, hlo, hhi, hrest⟩ := accepted_tail hstate hne h
  rw [hw] at hlo hhi hrest
  obtain ⟨d, e, rest, rfl, hdlo, hdhi, he, hrest⟩ :=
    accepted_two 3 (by decide) (by decide) rfl hrest
  exact ⟨c,d,e,rest,rfl,hlo,hhi,⟨hdlo,hdhi⟩,he,hrest⟩

/-- What is accepted and not empty begins with the bytes of a character. -/
theorem accepted_sequence {b : Byte} {s : List Byte}
    (h : isUtf8LenState (b :: s) UTF8_ACCEPT = UTF8_ACCEPT) :
    ∃ bs rest, Sequence bs ∧ b :: s = bs ++ rest ∧
      isUtf8LenState rest UTF8_ACCEPT = UTF8_ACCEPT := by
  change isUtf8LenState s (decode UTF8_ACCEPT b) = UTF8_ACCEPT at h
  rw [decode_lead] at h
  have hreject : isUtf8LenState s UTF8_REJECT ≠ UTF8_ACCEPT := by
    rw [reject_stays]
    decide
  split_ifs at h with h80 hc2 he0 hE0 hED hf0 hF0 hf4 hF4
  · exact ⟨[b],s,.one h80,rfl,h⟩
  · exact absurd h hreject
  · obtain ⟨c, rest, rfl, hc, hrest⟩ := accepted_one h
    exact ⟨[b,c],rest,.two (by omega) he0 hc,rfl,hrest⟩
  · obtain ⟨c, d, rest, rfl, hlo, hhi, hd, hrest⟩ :=
      accepted_two 4 (by decide) (by decide) rfl h
    exact ⟨[b,c,d],rest,.three (by omega) (by omega) ⟨by omega,hhi⟩ hd (fun _ => hlo)
      (fun _ => by omega),rfl,hrest⟩
  · obtain ⟨c, d, rest, rfl, hlo, hhi, hd, hrest⟩ :=
      accepted_two 5 (by decide) (by decide) rfl h
    exact ⟨[b,c,d],rest,.three (by omega) (by omega) ⟨hlo,by omega⟩ hd (fun _ => by omega)
      (fun _ => hhi),rfl,hrest⟩
  · obtain ⟨c, d, rest, rfl, hlo, hhi, hd, hrest⟩ :=
      accepted_two 3 (by decide) (by decide) rfl h
    exact ⟨[b,c,d],rest,.three (by omega) (by omega) ⟨hlo,hhi⟩ hd (fun _ => by omega)
      (fun _ => by omega),rfl,hrest⟩
  · obtain ⟨c, d, e, rest, rfl, hlo, hhi, hd, he, hrest⟩ :=
      accepted_three 6 (by decide) (by decide) rfl h
    exact ⟨[b,c,d,e],rest,.four (by omega) (by omega) ⟨by omega,hhi⟩ hd he (fun _ => hlo)
      (fun _ => by omega),rfl,hrest⟩
  · obtain ⟨c, d, e, rest, rfl, hlo, hhi, hd, he, hrest⟩ :=
      accepted_three 7 (by decide) (by decide) rfl h
    exact ⟨[b,c,d,e],rest,.four (by omega) (by omega) ⟨hlo,hhi⟩ hd he (fun _ => by omega)
      (fun _ => by omega),rfl,hrest⟩
  · obtain ⟨c, d, e, rest, rfl, hlo, hhi, hd, he, hrest⟩ :=
      accepted_three 8 (by decide) (by decide) rfl h
    exact ⟨[b,c,d,e],rest,.four (by omega) (by omega) ⟨hlo,by omega⟩ hd he (fun _ => by omega)
      (fun _ => hhi),rfl,hrest⟩
  · exact absurd h hreject

theorem accepted_iff (s : List Byte) :
    isUtf8LenState s UTF8_ACCEPT = UTF8_ACCEPT ↔ Text s := by
  constructor
  · intro h
    induction hn : s.length using Nat.strong_induction_on generalizing s with
    | _ n ih =>
      cases s with
      | nil => exact Text.nil
      | cons b s =>
        obtain ⟨bs, rest, hseq, heq, hrest⟩ := accepted_sequence h
        have hlen := congrArg List.length heq
        rw [List.length_append, hn] at hlen
        rw [heq]
        exact Text.cons hseq (ih rest.length (by cases hseq <;> simp at hlen <;> omega) rest hrest rfl)
  · apply Text.induct (p := fun s => isUtf8LenState s UTF8_ACCEPT = UTF8_ACCEPT) rfl
    intro bs rest hseq hrest
    rw [isUtf8LenState_append, sequence_accepted hseq, hrest]

/-! ## Text that may go on -/

theorem decode_lt {state : ℕ} (hstate : state < 9) (b : Byte) : decode state b < 9 := by
  have hwaits : ∀ state : Fin 9, (waits state).2.2 < 9 := by decide
  have hreject : UTF8_REJECT < 9 := by decide
  by_cases haccept : state = UTF8_ACCEPT
  · rw [haccept, decode_lead]
    have haccept : UTF8_ACCEPT < 9 := by decide
    split_ifs <;> omega
  · rw [decode_tail ⟨state,hstate⟩ haccept]
    split_ifs
    · exact hwaits ⟨state,hstate⟩
    · exact hreject

theorem isUtf8LenState_lt (s : List Byte) {state : ℕ} (hstate : state < 9) :
    isUtf8LenState s state < 9 := by
  induction s generalizing state with
  | nil => exact hstate
  | cons b s ih => exact ih (decode_lt hstate b)

def missing (state : ℕ) : List Byte :=
  match state with
  | 2 => [0x80#8]
  | 3 => [0x80#8,0x80#8]
  | 4 => [0xa0#8,0x80#8]
  | 5 => [0x80#8,0x80#8]
  | 6 => [0x90#8,0x80#8,0x80#8]
  | 7 => [0x80#8,0x80#8,0x80#8]
  | 8 => [0x80#8,0x80#8,0x80#8]
  | _ => []

theorem missing_completes (state : Fin 9) (hstate : state.val ≠ UTF8_REJECT) :
    isUtf8LenState (missing state) state = UTF8_ACCEPT := by
  revert state
  decide

theorem rejected_iff (s : List Byte) :
    isUtf8LenState s UTF8_ACCEPT ≠ UTF8_REJECT ↔ ∃ more, Text (s ++ more) := by
  constructor
  · intro h
    refine ⟨missing (isUtf8LenState s UTF8_ACCEPT),?_⟩
    rw [← accepted_iff, isUtf8LenState_append]
    exact missing_completes ⟨_,isUtf8LenState_lt s (by decide)⟩ h
  · rintro ⟨more, htext⟩ hreject
    rw [← accepted_iff, isUtf8LenState_append, hreject, reject_stays] at htext
    exact absurd htext (by decide)

/-- A text is checked at its end, and a part of one as soon as nothing can complete it. -/
theorem check_text (s : List Byte) : (isUtf8Len s = true ↔ Text s) ∧
    (isUtf8LenState s UTF8_ACCEPT = UTF8_REJECT ↔ ∀ more, ¬Text (s ++ more)) := by
  constructor
  · rw [← accepted_iff, isUtf8Len, decide_eq_true_eq]
  · rw [← not_iff_not, ← ne_eq, rejected_iff, not_forall_not]

end Pauline.WebSocket
