import Pauline.WebSocket.ReadFrame

/-!
# The payload of a frame

The memory of a message holds the payloads of its fragments one behind the other, and a
zero behind the last one.
-/

set_option autoImplicit false

namespace Pauline.WebSocket
open Buffer Utf8

/-! ## The memory of a message -/

def Holds (p : Pointer) (is_fin : Bool) (text : List Byte) : Prop :=
  match p with
  | .null => text = []
  | .chunk c => text ≠ [] ∧ slice c.bytes 0 c.room = text ++ List.replicate is_fin.toNat 0#8
  | .dangling => False

theorem Holds.live {p : Pointer} {is_fin : Bool} {text : List Byte} (h : Holds p is_fin text) :
    p ≠ .dangling := by
  rintro rfl
  exact h

variable {r : Reader} {c : Chunk} {idx n : ℕ} {host : Host} {opcode : ℕ} {is_fin : Bool}
  {buf : Pointer} {text : List Byte}

theorem Holds.chunk_room {c : Chunk} (h : Holds (.chunk c) is_fin text) :
    c.room = text.length+is_fin.toNat := by
  have hlen := congrArg List.length h.2
  rwa [slice_length, List.length_append, List.length_replicate] at hlen

theorem Holds.realloc (h : Holds buf false text) (host : Host) {size : ℕ} (hpos : 0 < size)
    (hle : text.length ≤ size) :
    (∃ c p, realloc host buf size = some (some c,p) ∧ c.room = size ∧
      slice c.bytes 0 text.length = text) ∨
    (realloc host buf size = some (none,buf) ∧ host.malloc size = false) := by
  cases hmalloc : host.malloc size with
  | true =>
    left
    cases buf with
    | null =>
      have hnil : text = [] := h
      subst hnil
      refine ⟨⟨size,host.fresh⟩,.null,?_,rfl,rfl⟩
      simp only [WebSocket.realloc, hmalloc, if_true]
    | chunk c =>
      have hroom : c.room = text.length := h.chunk_room
      refine ⟨⟨size,fun i => if i < c.room then c.bytes i else host.fresh i⟩,.chunk c,?_,rfl,?_⟩
      · simp only [WebSocket.realloc, hmalloc, if_true]
        exact if_neg hpos.ne'
      · have hkept : slice c.bytes 0 c.room = text ++ [] := h.2
        rw [List.append_nil, hroom] at hkept
        exact (slice_congr _ _ _ _ fun i _ hi => if_pos (by omega)).trans hkept
    | dangling => exact h.elim
  | false =>
    right
    refine ⟨?_,rfl⟩
    cases buf with
    | null => simp only [WebSocket.realloc, hmalloc, Bool.false_eq_true, if_false]
    | chunk c =>
      simp only [WebSocket.realloc, hmalloc, Bool.false_eq_true, if_false]
      exact if_neg hpos.ne'
    | dangling => exact h.elim

theorem slice_put_append (mem : Mem) (idx : ℕ) (bs : List Byte) :
    slice (put mem idx bs) 0 (idx+bs.length) = slice mem 0 idx ++ bs := by
  rw [slice_add, slice_put_apart _ _ _ _ _ (Or.inl (by omega)), Nat.zero_add,
    slice_put _ _ _ _ rfl]

/-! ## A fragment -/

variable {key : Fin 4 → Byte}

def Refused (t : Option Read) : Prop :=
  ∃ s, t = some s ∧ s.ok = false ∧ s.reader.error = true ∧ s.buf ≠ .dangling

theorem readPayload_copies {s : Read} {p : Pointer} (hopcode : isControlFrame opcode = false)
    (halloc : realloc host s.buf ((s.msg_idx+s.frame_length+is_fin.toNat) % 2^64) =
      some (some c,p)) {ok : Bool} {r' : Reader} {c' : Chunk} {idx' : ℕ}
    (hcopy : copyPayload key s.frame_length 0 s.reader c s.msg_idx = some (ok,r',c',idx')) :
    readPayload host opcode is_fin key s =
      some ⟨ok,r',.chunk c',s.frame_length,s.frame_size,idx'⟩ := by
  simp only [readPayload, allocate, hopcode, Bool.not_false, if_true, halloc, Option.bind_eq_bind,
    Option.bind_some, hcopy]

theorem readPayload_starved {s : Read} {p : Pointer} (hopcode : isControlFrame opcode = false)
    (halloc : realloc host s.buf ((s.msg_idx+s.frame_length+is_fin.toNat) % 2^64) =
      some (none,p)) : readPayload host opcode is_fin key s =
        some ⟨false,s.reader.fail,p,s.frame_length,s.frame_size,s.msg_idx⟩ := by
  simp only [readPayload, allocate, hopcode, Bool.not_false, if_true, halloc, Option.bind_eq_bind,
    Option.bind_some]

/-- The payload of a fragment joins the message, unless a byte of it or memory is missing. -/
theorem readPayload_fragment (host : Host) (is_fin : Bool) (key : Fin 4 → Byte) (r : Reader)
    (hopcode : isControlFrame opcode = false)
    (hbuf : Holds buf false text) (hn : 0 < n) (hsmall : text.length+n ≤ MAX_FRAME_LENGTH)
    (size : ℕ) :
    Refused (readPayload host opcode is_fin key ⟨true,r,buf,n,size,text.length⟩) ∧
        (r.unread.length < n ∨ ∃ size, host.malloc size = false) ∨
      ∃ bs r' c, bs.length = n ∧ r.unread = bs ++ r'.unread ∧ r'.error = r.error ∧
        c.room = text.length+n+is_fin.toNat ∧
        slice c.bytes 0 (text.length+n) = text ++ maskFrom key 0 bs ∧
        readPayload host opcode is_fin key ⟨true,r,buf,n,size,text.length⟩ =
          some ⟨true,r',.chunk c,n,size,text.length+n⟩ := by
  have hbool : is_fin.toNat ≤ 1 := Bool.toNat_le is_fin
  have hmax : MAX_FRAME_LENGTH < 2^32 := by decide
  have hsize : (text.length+n+is_fin.toNat) % 2^64 = text.length+n+is_fin.toNat :=
    Nat.mod_eq_of_lt (by omega)
  obtain ⟨c, p, halloc, hroom, hkept⟩ | ⟨halloc, hmalloc⟩ :=
    hbuf.realloc host (show 0 < text.length+n+is_fin.toNat by omega) (by omega)
  · rw [← hsize] at halloc
    by_cases hshort : r.unread.length < n
    · left
      obtain ⟨r', c', idx', hcopy, herror⟩ := copyPayload_short key text.length (i := 0)
        (c := c) hshort (by omega)
      exact ⟨⟨_,readPayload_copies hopcode halloc hcopy,rfl,herror,fun h => by cases h⟩,
        Or.inl hshort⟩
    · right
      have hlen : (r.unread.take n).length = n := by
        rw [List.length_take]
        omega
      obtain ⟨r', hcopy, hrest, herror⟩ := copyPayload_full key text.length (i := 0)
        (c := c) (List.take_append_drop n r.unread).symm (by omega)
      rw [hlen] at hcopy
      refine ⟨r.unread.take n,r',
        ⟨c.room,put c.bytes text.length (maskFrom key 0 (r.unread.take n))⟩,hlen,?_,herror,hroom,?_,
        readPayload_copies hopcode halloc hcopy⟩
      · rw [hrest, List.take_append_drop]
      · have hput := slice_put_append c.bytes text.length
          (maskFrom key 0 (r.unread.take n))
        rwa [maskFrom_length, hlen, hkept] at hput
  · left
    rw [← hsize] at halloc
    exact ⟨⟨_,readPayload_starved hopcode halloc,rfl,rfl,hbuf.live⟩,Or.inr ⟨_,hmalloc⟩⟩

theorem terminate_stores {s : Read} (opcode : ℕ) (hlength : 0 < s.frame_length)
    (hbuf : s.buf = .chunk c) (hroom : s.msg_idx < c.room) :
    terminate host opcode s =
      some { s with buf := .chunk ⟨c.room,put c.bytes s.msg_idx [0#8]⟩ } := by
  have hgrows : (decide (s.frame_length = 0) && !isControlFrame opcode) = false := by
    rw [decide_eq_false (by omega), Bool.false_and]
  simp only [terminate, allocate, hgrows, Bool.false_eq_true, if_false, hbuf, Option.bind_eq_bind,
    Option.bind_some, Chunk.store_fits hroom]

theorem terminate_empty (host : Host) {s : Read} (hopcode : isControlFrame opcode = false)
    (hlength : s.frame_length = 0) (hbuf : Holds s.buf false text) (hne : text ≠ [])
    (hidx : s.msg_idx = text.length) (hsmall : text.length ≤ MAX_FRAME_LENGTH) :
    Refused (terminate host opcode s) ∧ (∃ size, host.malloc size = false) ∨
      ∃ p, Holds p true text ∧ terminate host opcode s = some { s with buf := p } := by
  have hmax : MAX_FRAME_LENGTH < 2^32 := by decide
  have hsize : (s.msg_idx+1) % 2^64 = text.length+1 := by
    rw [hidx]
    exact Nat.mod_eq_of_lt (by omega)
  have hgrows : (decide (s.frame_length = 0) && !isControlFrame opcode) = true := by
    rw [hlength, hopcode]
    rfl
  obtain ⟨c, p, halloc, hroom, hkept⟩ | ⟨halloc, hmalloc⟩ :=
    hbuf.realloc host (show 0 < text.length+1 by omega) (by omega)
  · right
    rw [← hsize] at halloc
    refine ⟨.chunk ⟨c.room,put c.bytes s.msg_idx [0#8]⟩,⟨hne,?_⟩,?_⟩
    · have hput := slice_put_append c.bytes text.length [0#8]
      rw [hkept] at hput
      rw [hroom, hidx]
      exact hput
    · simp only [terminate, allocate, hgrows, if_true, halloc, Option.bind_eq_bind,
        Option.bind_some, Chunk.store_fits (show s.msg_idx < c.room by omega)]
  · left
    rw [← hsize] at halloc
    refine ⟨⟨{ s with ok := false, reader := s.reader.fail },?_,rfl,rfl,hbuf.live⟩,_,hmalloc⟩
    simp only [terminate, allocate, hgrows, if_true, halloc, Option.bind_eq_bind, Option.bind_some]

structure Joined (host : Host) (opcode : ℕ) (is_fin : Bool) (key : Fin 4 → Byte) (r : Reader)
    (buf : Pointer) (text bs : List Byte) (r' : Reader) (buf' : Pointer) : Prop where
  unread : r.unread = bs ++ r'.unread
  error : r'.error = r.error
  holds : Holds buf' is_fin (text ++ maskFrom key 0 bs)
  read : readBody host opcode is_fin key ⟨true,r,buf,bs.length,text.length+bs.length,text.length⟩ =
    some ⟨true,r',buf',bs.length,text.length+bs.length,text.length+bs.length⟩

/-- The payload is behind the message, and a zero behind the last fragment. -/
theorem readBody_copied {bs : List Byte} {r' : Reader} (opcode : ℕ) (hpos : 0 < bs.length)
    (hunread : r.unread = bs ++ r'.unread) (herror : r'.error = r.error)
    (hroom : c.room = text.length+bs.length+is_fin.toNat)
    (hkept : slice c.bytes 0 (text.length+bs.length) = text ++ maskFrom key 0 bs)
    (hread : readPayload host opcode is_fin key
      ⟨true,r,buf,bs.length,text.length+bs.length,text.length⟩ =
        some ⟨true,r',.chunk c,bs.length,text.length+bs.length,text.length+bs.length⟩) :
    ∃ buf', Joined host opcode is_fin key r buf text bs r' buf' := by
  have hne : text ++ maskFrom key 0 bs ≠ [] := by
    rw [← List.length_pos_iff, List.length_append, maskFrom_length]
    omega
  cases is_fin with
  | true =>
    refine ⟨.chunk ⟨c.room,put c.bytes (text.length+bs.length) [0#8]⟩,hunread,herror,⟨hne,?_⟩,?_⟩
    · have hput := slice_put_append c.bytes (text.length+bs.length) [0#8]
      rw [hkept] at hput
      rw [hroom]
      exact hput
    · simp only [readBody]
      rw [if_pos hpos, hread, Option.bind_eq_bind, Option.bind_some,
        if_pos (by simp only [Bool.true_and, decide_eq_true_eq]; omega),
        terminate_stores opcode hpos rfl (by rw [hroom]; exact Nat.lt_succ_self _)]
  | false =>
    refine ⟨.chunk c,hunread,herror,⟨hne,?_⟩,?_⟩
    · rw [hroom]
      exact hkept.trans (List.append_nil _).symm
    · simp only [readBody]
      rw [if_pos hpos, hread, Option.bind_eq_bind, Option.bind_some]
      rfl

/-- A fragment that is empty changes nothing, unless it is the last of a message that is not. -/
theorem readBody_empty (host : Host) (is_fin : Bool) (key : Fin 4 → Byte) (r : Reader)
    (hopcode : isControlFrame opcode = false) (hbuf : Holds buf false text)
    (hsmall : text.length ≤ MAX_FRAME_LENGTH) :
    Refused (readBody host opcode is_fin key ⟨true,r,buf,0,text.length+0,text.length⟩) ∧
        (∃ size, host.malloc size = false) ∨
      ∃ buf', Joined host opcode is_fin key r buf text [] r buf' := by
  have hbody : readBody host opcode is_fin key ⟨true,r,buf,0,text.length+0,text.length⟩ =
      if (true && is_fin && decide (0 < text.length)) = true then
        terminate host opcode ⟨true,r,buf,0,text.length+0,text.length⟩
      else some ⟨true,r,buf,0,text.length+0,text.length⟩ := by
    simp only [readBody]
    rw [if_neg (Nat.lt_irrefl 0), Option.bind_eq_bind, Option.bind_some]
    rfl
  by_cases hlast : is_fin = true ∧ text ≠ []
  · obtain ⟨rfl, hne⟩ := hlast
    rw [if_pos (by simp only [Bool.true_and, decide_eq_true_eq]
                   exact List.length_pos_iff.mpr hne)] at hbody
    obtain ⟨hrefused, hmalloc⟩ | ⟨p, hholds, hread⟩ := terminate_empty host
      (s := ⟨true,r,buf,0,text.length+0,text.length⟩) hopcode rfl hbuf hne rfl hsmall
    · left
      rw [hbody]
      exact ⟨hrefused,hmalloc⟩
    · right
      refine ⟨p,rfl,rfl,?_,hbody.trans hread⟩
      rw [maskFrom, List.append_nil]
      exact hholds
  · right
    refine ⟨buf,rfl,rfl,?_,?_⟩
    · rw [maskFrom, List.append_nil]
      cases is_fin with
      | true =>
        have hnil : text = [] := by
          by_contra hne
          exact hlast ⟨rfl,hne⟩
        cases buf with
        | null => exact hbuf
        | chunk c => exact absurd hnil hbuf.1
        | dangling => exact hbuf
      | false => exact hbuf
    · rw [List.length_nil, hbody, if_neg (by
        rw [Bool.true_and, Bool.and_eq_true, decide_eq_true_eq, List.length_pos_iff]
        exact hlast)]
      rfl

theorem readBody_stops {s t : Read} (hpos : 0 < s.frame_length)
    (hread : readPayload host opcode is_fin key s = some t) (hok : t.ok = false) :
    readBody host opcode is_fin key s = some t := by
  simp only [readBody]
  rw [if_pos hpos, hread, Option.bind_eq_bind, Option.bind_some, hok]
  rfl

theorem readBody_fragment (host : Host) (is_fin : Bool) (key : Fin 4 → Byte) (r : Reader)
    (hopcode : isControlFrame opcode = false) (hbuf : Holds buf false text)
    (hsmall : text.length+n ≤ MAX_FRAME_LENGTH) :
    Refused (readBody host opcode is_fin key ⟨true,r,buf,n,text.length+n,text.length⟩) ∧
        (r.unread.length < n ∨ ∃ size, host.malloc size = false) ∨
      ∃ bs r' buf', bs.length = n ∧ Joined host opcode is_fin key r buf text bs r' buf' := by
  by_cases hn : 0 < n
  · obtain ⟨⟨s, hread, hok, hbad⟩, hreason⟩ | ⟨bs, r', c, hlen, hunread, herror, hroom, hkept, hread⟩ :=
      readPayload_fragment host is_fin key r hopcode hbuf hn hsmall (text.length+n)
    · left
      exact ⟨⟨s,readBody_stops hn hread hok,hok,hbad⟩,hreason⟩
    · right
      subst hlen
      obtain ⟨buf', hjoined⟩ := readBody_copied opcode hn hunread herror hroom hkept hread
      exact ⟨bs,r',buf',rfl,hjoined⟩
  · obtain rfl : n = 0 := by omega
    obtain ⟨hrefused, hmalloc⟩ | ⟨buf', hjoined⟩ :=
      readBody_empty host is_fin key r hopcode hbuf hsmall
    · exact Or.inl ⟨hrefused,Or.inr hmalloc⟩
    · exact Or.inr ⟨[],r,buf',rfl,hjoined⟩

/-! ## A length that is too long for the sum -/

def Corrupts (t : Option Read) : Prop :=
  t = none ∨ ∃ s, t = some s ∧ s.ok = false ∧ s.reader.error = true ∧ s.buf = .dangling

def Overruns (host : Host) (is_fin : Bool) (text : List Byte) (n : ℕ) (unread : List Byte) : Prop :=
  text.length+n+is_fin.toNat = 2^64 ∨
    host.malloc (text.length+n+is_fin.toNat-2^64) = true ∧ unread ≠ []

/-- The memory becomes smaller than the message is, and its payload is put behind it. -/
theorem readBody_overruns (key : Fin 4 → Byte) (r : Reader)
    (hopcode : isControlFrame opcode = false) (hpos : 0 < n) {c c' : Chunk} (size : ℕ)
    (halloc : realloc host (.chunk c) ((text.length+n+is_fin.toNat) % 2^64) =
      some (some c',.chunk c)) (hroom : c'.room ≤ text.length) :
    Refused (readBody host opcode is_fin key ⟨true,r,.chunk c,n,size,text.length⟩) ∧
        r.unread = [] ∨
      readBody host opcode is_fin key ⟨true,r,.chunk c,n,size,text.length⟩ = none ∧
        r.unread ≠ [] := by
  obtain ⟨hcopy, hunread⟩ | ⟨r', hcopy, herror, hunread⟩ := copyPayload_beyond key
    text.length (i := 0) (c := c') (r := r) (n := n) hpos hroom
  · right
    refine ⟨?_,hunread⟩
    simp only [readBody, readPayload, allocate, hopcode, Bool.not_false, if_true, halloc,
      Option.bind_eq_bind, Option.bind_some, hcopy, Option.bind_none]
    exact if_pos hpos
  · left
    exact ⟨⟨_,readBody_stops hpos (readPayload_copies hopcode halloc hcopy) rfl,rfl,herror,
      fun h => by cases h⟩,hunread⟩

theorem readBody_wraps (host : Host) (is_fin : Bool) (key : Fin 4 → Byte) (r : Reader)
    (hopcode : isControlFrame opcode = false) (hbuf : Holds buf false text)
    (htext : text.length ≤ MAX_FRAME_LENGTH) (hn : n < 2^64) (hwrap : 2^64 ≤ text.length+n)
    (size : ℕ) :
    Refused (readBody host opcode is_fin key ⟨true,r,buf,n,size,text.length⟩) ∧
        ¬Overruns host is_fin text n r.unread ∨
      Corrupts (readBody host opcode is_fin key ⟨true,r,buf,n,size,text.length⟩) ∧
        Overruns host is_fin text n r.unread := by
  have hbool : is_fin.toNat ≤ 1 := Bool.toNat_le is_fin
  have hmax : MAX_FRAME_LENGTH < 2^32 := by decide
  have hpos : 0 < n := by omega
  have hsize : (text.length+n+is_fin.toNat) % 2^64 = text.length+n+is_fin.toNat-2^64 := by
    rw [Nat.mod_eq_sub_mod (by omega), Nat.mod_eq_of_lt (by omega)]
  cases buf with
  | null =>
    have hnil : text = [] := hbuf
    rw [hnil, List.length_nil] at hwrap
    omega
  | dangling => exact hbuf.elim
  | chunk c =>
    by_cases hzero : text.length+n+is_fin.toNat = 2^64
    · right
      have halloc : realloc host (.chunk c) ((text.length+n+is_fin.toNat) % 2^64) =
          some (none,.dangling) := by
        rw [hsize, hzero]
        rfl
      exact ⟨Or.inr ⟨_,readBody_stops hpos (readPayload_starved hopcode halloc) rfl,rfl,rfl,rfl⟩,
        Or.inl hzero⟩
    · cases hmalloc : host.malloc (text.length+n+is_fin.toNat-2^64) with
      | false =>
        left
        have halloc : realloc host (.chunk c) ((text.length+n+is_fin.toNat) % 2^64) =
            some (none,.chunk c) := by
          rw [hsize, WebSocket.realloc, if_neg (by omega), hmalloc]
          rfl
        refine ⟨⟨_,readBody_stops hpos (readPayload_starved hopcode halloc) rfl,rfl,rfl,
          fun h => by cases h⟩,fun hover => ?_⟩
        exact Bool.false_ne_true (hmalloc.symm.trans (hover.resolve_left hzero).1)
      | true =>
        obtain ⟨c', halloc, hroom⟩ : ∃ c', realloc host (.chunk c)
            ((text.length+n+is_fin.toNat) % 2^64) = some (some c',.chunk c) ∧
              c'.room = text.length+n+is_fin.toNat-2^64 := by
          rw [hsize, WebSocket.realloc, if_neg (by omega), hmalloc]
          exact ⟨_,rfl,rfl⟩
        obtain ⟨hrefused, hunread⟩ | ⟨hnone, hunread⟩ := readBody_overruns key r hopcode hpos
          size halloc (by omega)
        · exact Or.inl ⟨hrefused,fun hover => (hover.resolve_left hzero).2 hunread⟩
        · exact Or.inr ⟨Or.inl hnone,Or.inr ⟨hmalloc,hunread⟩⟩

/-! ## A control frame -/

theorem readBody_ctrl (host : Host) (key : Fin 4 → Byte) (r : Reader)
    (hopcode : isControlFrame opcode = true) (hn : n ≤ 125) (mem : Mem) :
    Refused (readBody host opcode true key ⟨true,r,.chunk ⟨CTRL_ROOM,mem⟩,n,n,0⟩) ∧
        r.unread.length < n ∨
      ∃ bs r' mem', bs.length = n ∧ r.unread = bs ++ r'.unread ∧ r'.error = r.error ∧
        slice mem' 0 n = maskFrom key 0 bs ∧
        readBody host opcode true key ⟨true,r,.chunk ⟨CTRL_ROOM,mem⟩,n,n,0⟩ =
          some ⟨true,r',.chunk ⟨CTRL_ROOM,mem'⟩,n,n,n⟩ := by
  have hroom : CTRL_ROOM = 128 := rfl
  by_cases hpos : 0 < n
  · by_cases hshort : r.unread.length < n
    · left
      obtain ⟨r', c', idx', hcopy, herror⟩ := copyPayload_short key 0 (i := 0)
        (c := ⟨CTRL_ROOM,mem⟩) hshort (by show 0+n ≤ CTRL_ROOM; omega)
      refine ⟨⟨⟨false,r',.chunk c',n,n,idx'⟩,?_,rfl,herror,fun h => by cases h⟩,hshort⟩
      simp only [readBody, readPayload, allocate, hopcode, Bool.not_true, Bool.false_eq_true,
        if_false, Option.bind_eq_bind, Option.bind_some, hcopy]
      rw [if_pos hpos]
      rfl
    · right
      have hlen : (r.unread.take n).length = n := by
        rw [List.length_take]
        omega
      obtain ⟨r', hcopy, hrest, herror⟩ := copyPayload_full key 0 (i := 0)
        (c := ⟨CTRL_ROOM,mem⟩) (List.take_append_drop n r.unread).symm
        (by show 0+(r.unread.take n).length ≤ CTRL_ROOM; omega)
      rw [hlen, Nat.zero_add] at hcopy
      refine ⟨r.unread.take n,r',put (put mem 0 (maskFrom key 0 (r.unread.take n))) n [0#8],hlen,?_,
        herror,?_,?_⟩
      · rw [hrest, List.take_append_drop]
      · rw [slice_put_apart _ _ _ _ _ (Or.inl (by omega)),
          slice_put _ _ _ _ (by rw [maskFrom_length, hlen])]
      · simp only [readBody, readPayload, allocate, hopcode, Bool.not_true, Bool.false_eq_true,
          if_false, Option.bind_eq_bind, Option.bind_some, hcopy]
        rw [if_pos hpos, if_pos (by
          simp only [Bool.true_and, decide_eq_true_eq]
          exact hpos), terminate_stores opcode hpos rfl (by show n < CTRL_ROOM; omega)]
  · right
    obtain rfl : n = 0 := by omega
    refine ⟨[],r,mem,rfl,rfl,rfl,rfl,?_⟩
    simp only [readBody]
    rw [if_neg hpos, Option.bind_eq_bind, Option.bind_some]
    rfl

end Pauline.WebSocket
