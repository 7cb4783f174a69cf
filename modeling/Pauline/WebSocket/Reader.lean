import Pauline.WebSocket.Frame

/-!
# The bytes of a connection

`recv` gives them in pieces of any size. The readers go through the pieces byte by
byte, so what they find depends on the bytes alone.
-/

set_option autoImplicit false

namespace Pauline.WebSocket
open Buffer Utf8

abbrev Mem := ℕ → Byte

/-- What a call of `recv` finds, up to the length it asks for. Nothing is left of a piece
that is empty: the call fails, or the connection is closed. -/
def recv (len : ℕ) : List (List Byte) → List Byte × List (List Byte)
  | [] => ([],[])
  | seg :: rest => (seg.take len,if seg.length ≤ len then rest else seg.drop len :: rest)

theorem recv_length (len : ℕ) (arrivals : List (List Byte)) :
    (recv len arrivals).1.length ≤ len := by
  cases arrivals with
  | nil => exact Nat.zero_le _
  | cons seg rest => exact List.length_take_le _ _

structure Reader where
  frm : Mem
  cur_pos : ℕ
  amt_read : ℕ
  error : Bool
  arrivals : List (List Byte)
  pos_le : cur_pos ≤ amt_read
  amt_le : amt_read ≤ MESSAGE_LENGTH

namespace Reader

def fail (r : Reader) : Reader := { r with error := true }

def ahead (r : Reader) : List Byte :=
  if r.cur_pos = 0 then [] else slice r.frm r.cur_pos (r.amt_read-r.cur_pos)

end Reader

def arriving : List (List Byte) → List Byte
  | [] => []
  | seg :: rest => if seg = [] then [] else seg ++ arriving rest

def Reader.unread (r : Reader) : List Byte := r.ahead ++ arriving r.arrivals

def Reader.room (r : Reader) : ℕ := r.ahead.length+(r.arrivals.map fun seg => seg.length+1).sum

def nextByte (r : Reader) : ℤ × Reader :=
  if h : r.cur_pos = 0 ∨ r.cur_pos = r.amt_read then
    match _hrecv : recv MESSAGE_LENGTH r.arrivals with
    | ([],arrivals) => (-1,{ r with error := true, arrivals := arrivals })
    | (b :: seg,arrivals) =>
      (b.toNat,
        { r with
          frm := put r.frm 0 (b :: seg)
          amt_read := (b :: seg).length
          cur_pos := 1
          arrivals := arrivals
          pos_le := Nat.le_add_left 1 seg.length
          amt_le := by
            have hlen := recv_length MESSAGE_LENGTH r.arrivals
            rwa [_hrecv] at hlen })
  else
    ((r.frm r.cur_pos).toNat,
      { r with
        cur_pos := r.cur_pos+1
        pos_le := by
          have := r.pos_le
          omega })

/-! ## What is read -/

theorem recv_arriving {len : ℕ} (hlen : 0 < len) {arrivals arrivals' : List (List Byte)}
    {seg : List Byte} (h : recv len arrivals = (seg,arrivals')) :
    arriving arrivals = if seg = [] then [] else seg ++ arriving arrivals' := by
  cases arrivals with
  | nil =>
    cases h
    rfl
  | cons first rest =>
    cases h
    rw [arriving]
    by_cases hfirst : first = []
    · rw [if_pos hfirst, if_pos (by rw [hfirst, List.take_nil])]
    · have hpos := List.length_pos_iff.mpr hfirst
      rw [if_neg hfirst, if_neg (by
        rw [← List.length_eq_zero_iff, List.length_take]
        omega)]
      split_ifs with hall
      · rw [List.take_of_length_le hall]
      · rw [arriving, if_neg (by
          rw [← List.length_eq_zero_iff, List.length_drop]
          omega), ← List.append_assoc, List.take_append_drop]

theorem recv_room {len : ℕ} {arrivals arrivals' : List (List Byte)} {seg : List Byte}
    (h : recv len arrivals = (seg,arrivals')) :
    seg.length+(arrivals'.map fun seg => seg.length+1).sum ≤
      (arrivals.map fun seg => seg.length+1).sum := by
  cases arrivals with
  | nil =>
    cases h
    rfl
  | cons first rest =>
    cases h
    split_ifs with hall
    · rw [List.map_cons, List.sum_cons, List.length_take]
      omega
    · rw [List.map_cons, List.sum_cons, List.map_cons, List.sum_cons, List.length_take,
        List.length_drop]
      omega

namespace Reader
variable {r : Reader}

theorem ahead_empty (h : r.cur_pos = 0 ∨ r.cur_pos = r.amt_read) : r.ahead = [] := by
  unfold ahead
  split_ifs with hzero
  · rfl
  · rw [h.resolve_left hzero, Nat.sub_self, slice_zero]

theorem ahead_cons (h : ¬(r.cur_pos = 0 ∨ r.cur_pos = r.amt_read)) :
    r.ahead = r.frm r.cur_pos :: slice r.frm (r.cur_pos+1) (r.amt_read-(r.cur_pos+1)) := by
  have hle := r.pos_le
  rw [not_or] at h
  unfold ahead
  rw [if_neg h.1, slice_succ _ _ _ (by omega), Nat.sub_sub]

end Reader

variable {r : Reader}

/-- A byte is read, or there is none. -/
theorem nextByte_spec (r : Reader) :
    (∃ b rest r', r.unread = b :: rest ∧ nextByte r = ((b.toNat : ℤ),r') ∧ r'.unread = rest ∧
      r'.error = r.error ∧ r'.room < r.room) ∨
    (r.unread = [] ∧ ∃ r', nextByte r = (-1,r') ∧ r'.error = true ∧ r'.room ≤ r.room) := by
  unfold nextByte
  split_ifs with hempty
  · have hahead := Reader.ahead_empty hempty
    split
    · next arrivals hrecv =>
      right
      have hroom := recv_room hrecv
      refine ⟨?_,_,rfl,rfl,?_⟩
      · rw [Reader.unread, hahead, recv_arriving (by decide) hrecv, if_pos rfl]
        rfl
      · rw [Reader.room, Reader.room, Reader.ahead_empty (by exact hempty), hahead]
        exact Nat.add_le_add_left ((Nat.le_add_left _ _).trans hroom) _
    · next b seg arrivals hrecv =>
      left
      have hroom := recv_room hrecv
      have hrest : slice (put r.frm 0 (b :: seg)) 1 seg.length = seg := by
        have hall := slice_put r.frm 0 (1+seg.length) (b :: seg) (Nat.add_comm _ _)
        rw [slice_succ _ _ _ (by omega), Nat.add_sub_cancel_left] at hall
        exact (List.cons.inj hall).2
      refine ⟨b,_,_,?_,rfl,rfl,rfl,?_⟩
      · rw [Reader.unread, hahead, recv_arriving (by decide) hrecv, if_neg (List.cons_ne_nil _ _)]
        show _ = b :: (Reader.ahead _ ++ _)
        rw [Reader.ahead, if_neg Nat.one_ne_zero]
        show _ = b :: (slice (put r.frm 0 (b :: seg)) 1 (seg.length+1-1) ++ _)
        rw [Nat.add_sub_cancel, hrest]
        rfl
      · rw [Reader.room, Reader.room, hahead, Reader.ahead, if_neg Nat.one_ne_zero, slice_length]
        simp only [List.length_cons, List.length_nil] at hroom ⊢
        omega
  · left
    have hahead := Reader.ahead_cons hempty
    refine ⟨r.frm r.cur_pos,_,_,?_,rfl,rfl,rfl,?_⟩
    · rw [Reader.unread, hahead]
      rfl
    · rw [Reader.room, Reader.room, hahead, Reader.ahead, if_neg (Nat.succ_ne_zero _)]
      simp only [List.length_cons, slice_length]
      omega

theorem nextByte_cons {b : Byte} {rest : List Byte} (h : r.unread = b :: rest) :
    ∃ r', nextByte r = ((b.toNat : ℤ),r') ∧ r'.unread = rest ∧ r'.error = r.error := by
  obtain ⟨b', rest', r', hread, hbyte, hrest, herror, -⟩ | ⟨hread, -⟩ := nextByte_spec r
  · obtain ⟨rfl, rfl⟩ := List.cons.inj (hread.symm.trans h)
    exact ⟨r',hbyte,hrest,herror⟩
  · exact absurd (hread.symm.trans h) (List.cons_ne_nil _ _).symm

theorem nextByte_nil (h : r.unread = []) : ∃ r', nextByte r = (-1,r') ∧ r'.error = true := by
  obtain ⟨b, rest, r', hread, -⟩ | ⟨-, r', hbyte, herror, -⟩ := nextByte_spec r
  · exact absurd (hread.symm.trans h) (List.cons_ne_nil _ _)
  · exact ⟨r',hbyte,herror⟩

theorem nextByte_error (h : r.error = true) : (nextByte r).2.error = true := by
  obtain ⟨b, rest, r', -, hbyte, -, herror, -⟩ | ⟨-, r', hbyte, herror, -⟩ := nextByte_spec r
  · rw [hbyte]
    exact herror.trans h
  · rw [hbyte]
    exact herror

theorem nextByte_room (r : Reader) : (nextByte r).2.room ≤ r.room := by
  obtain ⟨b, rest, r', -, hbyte, -, -, hroom⟩ | ⟨-, r', hbyte, -, hroom⟩ := nextByte_spec r
  · rw [hbyte]
    exact hroom.le
  · rw [hbyte]
    exact hroom

theorem nextByte_room_lt (h : (nextByte r).1 ≠ -1) : (nextByte r).2.room < r.room := by
  obtain ⟨b, rest, r', -, hbyte, -, -, hroom⟩ | ⟨-, r', hbyte, -, -⟩ := nextByte_spec r
  · rw [hbyte]
    exact hroom
  · rw [hbyte] at h
    exact absurd rfl h

/-! ## Several bytes -/

def nextBytes : ℕ → Reader → List ℤ × Reader
  | 0, r => ([],r)
  | k+1, r =>
    let (b,r) := nextByte r
    let (bs,r) := nextBytes k r
    (b :: bs,r)

theorem nextBytes_succ (k : ℕ) (r : Reader) : nextBytes (k+1) r =
    ((nextByte r).1 :: (nextBytes k (nextByte r).2).1,(nextBytes k (nextByte r).2).2) := rfl

theorem nextBytes_full {bs rest : List Byte} (h : r.unread = bs ++ rest) :
    ∃ r', nextBytes bs.length r = (bs.map fun b => (b.toNat : ℤ),r') ∧ r'.unread = rest ∧
      r'.error = r.error := by
  induction bs generalizing r with
  | nil => exact ⟨r,rfl,h,rfl⟩
  | cons b bs ih =>
    obtain ⟨r1, hbyte, hunread, herror⟩ := nextByte_cons h
    obtain ⟨r2, hbytes, hrest, herror'⟩ := ih hunread
    refine ⟨r2,?_,hrest,herror'.trans herror⟩
    rw [List.length_cons, nextBytes_succ, hbyte, hbytes, List.map_cons]

theorem nextBytes_error (k : ℕ) (h : r.error = true) : (nextBytes k r).2.error = true := by
  induction k generalizing r with
  | zero => exact h
  | succ k ih =>
    rw [nextBytes_succ]
    exact ih (nextByte_error h)

theorem nextBytes_short {k : ℕ} (h : r.unread.length < k) : (nextBytes k r).2.error = true := by
  induction k generalizing r with
  | zero => exact absurd h (Nat.not_lt_zero _)
  | succ k ih =>
    rw [nextBytes_succ]
    cases hread : r.unread with
    | nil =>
      obtain ⟨r', hbyte, herror⟩ := nextByte_nil hread
      rw [hbyte]
      exact nextBytes_error k herror
    | cons b rest =>
      obtain ⟨r', hbyte, hunread, -⟩ := nextByte_cons hread
      rw [hbyte]
      apply ih
      rw [hread, List.length_cons] at h
      rw [hunread]
      omega

/-- As many bytes as are asked for, or an error. -/
theorem nextBytes_cases (k : ℕ) (r : Reader) : (nextBytes k r).2.error = true ∨
    ∃ bs r', bs.length = k ∧ r.unread = bs ++ r'.unread ∧ r'.error = r.error ∧
      nextBytes k r = (bs.map fun b => (b.toNat : ℤ),r') := by
  by_cases hshort : r.unread.length < k
  · exact Or.inl (nextBytes_short hshort)
  · right
    have hlen : (r.unread.take k).length = k := by
      rw [List.length_take]
      omega
    obtain ⟨r', hbytes, hrest, herror⟩ := nextBytes_full (List.take_append_drop k r.unread).symm
    rw [hlen] at hbytes
    exact ⟨_,r',hlen,by rw [hrest, List.take_append_drop],herror,hbytes⟩

theorem nextBytes_room (k : ℕ) (r : Reader) : (nextBytes k r).2.room ≤ r.room := by
  induction k generalizing r with
  | zero => exact le_rfl
  | succ k ih =>
    rw [nextBytes_succ]
    exact (ih _).trans (nextByte_room r)

end Pauline.WebSocket
