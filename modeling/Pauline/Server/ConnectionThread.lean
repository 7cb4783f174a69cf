import Mathlib.Data.List.TakeWhile
import Pauline.Library.DoWhile
import Pauline.Server.LineBuffer

/-!
# The thread of a command connection

The thread cuts what it receives into lines and pushes them to the command
queue. What it has of a line it keeps until the rest of it is received.
-/

set_option autoImplicit false

namespace Pauline.ConnectionThread
open Pauline.Messages Pauline.LineBuffer

def defaultBufLen : ℕ := 512

structure Connection where
  /-- The first `line_index` characters. -/
  fullline : List Char
  /-- The strings given to `msg_push_in_msg`. -/
  pushed : List (List Char)
  closed : Bool
  /-- The highest place of `fullline` that was given a 0; the characters are below it. -/
  highest : ℕ
  /-- `recvbuf` was read behind its last place. -/
  outside : Bool

def scan (fullline : List Char) : List Char → List Char × List Char
  | [] => (fullline,[])
  | c::rest => if c ≠ '\n' then scan (store fullline c) rest else (fullline,c::rest)

def endLine (fullline : List Char) (s : Connection) : Connection :=
  let s := { s with fullline := fullline, highest := max s.highest fullline.length }
  if kills fullline then { s with closed := true }
  else { s with fullline := [], pushed := s.pushed ++ [cString fullline] }

def body (iResult : ℕ) (s : List Char × Connection) : List Char × Connection :=
  let line := scan s.2.fullline s.1
  match line.2 with
  | [] =>
    ([],{ s.2 with fullline := line.1, outside := s.2.outside || defaultBufLen ≤ iResult })
  | _::rest => (rest,endLine line.1 s.2)

def again (s : List Char × Connection) : Prop := s.1 ≠ [] ∧ s.2.closed = false

instance : DecidablePred again := fun _ => inferInstanceAs (Decidable (_ ∧ _))

theorem scan_length (fullline text : List Char) :
    (scan fullline text).2.length ≤ text.length := by
  induction text generalizing fullline with
  | nil => exact le_rfl
  | cons c text ih =>
    rw [scan]
    split_ifs
    · exact (ih _).trans (Nat.le_succ _)
    · exact le_rfl

theorem body_length (iResult : ℕ) (s : List Char × Connection) (h : again (body iResult s)) :
    (body iResult s).1.length < s.1.length := by
  have hlength := scan_length s.2.fullline s.1
  revert h
  unfold body
  dsimp only
  cases hline : (scan s.2.fullline s.1).2 with
  | nil => exact fun h => absurd rfl h.1
  | cons c rest =>
    rw [hline] at hlength
    exact fun _ => hlength

def loop (iResult : ℕ) (s : List Char × Connection) : List Char × Connection :=
  DoWhile.loop (body iResult) again (fun s => s.1.length) (body_length iResult) s

def receive (s : Connection) (segment : List Char) : Connection :=
  if s.closed then s else (loop segment.length (segment,s)).2

def Connection.start : Connection := ⟨[],[],false,0,false⟩

def run (segments : List (List Char)) : Connection := segments.foldl receive Connection.start

/-! ## What is asked -/

def lines (stream : List Char) : List (List Char) := (Lines.split '\n' stream).1

def delivered (stream : List Char) : List (List Char) :=
  (lines stream).takeWhile fun line => !kills line

def Framed (segments : List (List Char)) : Prop :=
  (run segments).pushed = (delivered segments.flatten).map cut ∧
    (run segments).highest < maxLineSize ∧ (run segments).outside = false

/-! ## One segment -/

theorem scan_end {fullline line : List Char} (hfull : fullline.length ≤ maxLineSize)
    (hline : '\n' ∉ line) : scan fullline line = (cut (fullline ++ line),[]) := by
  induction line generalizing fullline with
  | nil => rw [scan, List.append_nil, cut_of_short hfull]
  | cons c line ih =>
    rw [List.mem_cons, not_or] at hline
    rw [scan, if_pos (Ne.symm hline.1), ih (store_length_le hfull c) hline.2, cut_store hfull]

theorem scan_line {fullline line : List Char} (hfull : fullline.length ≤ maxLineSize)
    (hline : '\n' ∉ line) (rest : List Char) :
    scan fullline (line ++ '\n'::rest) = (cut (fullline ++ line),'\n'::rest) := by
  induction line generalizing fullline with
  | nil =>
    rw [List.nil_append, scan, if_neg (not_not.mpr rfl), List.append_nil, cut_of_short hfull]
  | cons c line ih =>
    rw [List.mem_cons, not_or] at hline
    rw [List.cons_append, scan, if_pos (Ne.symm hline.1), ih (store_length_le hfull c) hline.2,
      cut_store hfull]

def ended (lines : List (List Char)) : List (List Char) :=
  match lines with
  | [] => []
  | line::lines => line::if kills line then [] else ended lines

def unended (segment : List Char) : Bool := segment.getLast?.any (· ≠ '\n')

structure Received (iResult : ℕ) (rest segment : List Char) (s t : Connection) : Prop where
  pushed : t.pushed = s.pushed ++ (delivered (rest ++ segment)).map (fun line => cString (cut line))
  closed : t.closed = (lines (rest ++ segment)).any kills
  fullline : t.closed = false → t.fullline = cut (Lines.split '\n' (rest ++ segment)).2
  highest : t.highest < maxLineSize ↔ s.highest < maxLineSize ∧
    ∀ line ∈ ended (lines (rest ++ segment)), line.length < maxLineSize
  outside : t.outside = (s.outside ||
    (!t.closed && decide (defaultBufLen ≤ iResult) && unended segment))

theorem body_line {s : Connection} {rest line : List Char} (hfull : s.fullline = cut rest)
    (hline : '\n' ∉ line) (iResult : ℕ) (text : List Char) :
    body iResult (line ++ '\n'::text,s) = (text,endLine (cut (rest ++ line)) s) := by
  have hscan := scan_line (cut_length_le rest) hline text
  rw [cut_cut_append] at hscan
  rw [body, hfull, hscan]

theorem endLine_kills {line : List Char} (s : Connection) (h : kills line = true) :
    endLine (cut line) s =
      { s with
        fullline := cut line
        highest := max s.highest (cut line).length
        closed := true } := by
  rw [endLine, kills_cut, if_pos h]

theorem endLine_pushes {line : List Char} (s : Connection) (h : kills line = false) :
    endLine (cut line) s =
      { s with
        fullline := []
        highest := max s.highest (cut line).length
        pushed := s.pushed ++ [cString (cut line)] } := by
  rw [endLine, kills_cut, if_neg (by rw [h]; decide)]

theorem split_lines {rest line : List Char} (hrest : '\n' ∉ rest) (hline : '\n' ∉ line)
    (text : List Char) : Lines.split '\n' (rest ++ (line ++ '\n'::text)) =
      ((rest ++ line)::lines text,(Lines.split '\n' text).2) := by
  rw [← List.append_assoc, Lines.split_line _ (by rw [List.mem_append]; tauto)]
  rfl

theorem unended_line (line text : List Char) : unended (line ++ '\n'::text) = unended text := by
  cases text with
  | nil => simp [unended]
  | cons c text => rw [unended, unended, List.getLast?_append_cons, List.getLast?_cons_cons]

theorem loop_rest {s : Connection} {rest text : List Char} (hfull : s.fullline = cut rest)
    (hrest : '\n' ∉ rest) (hclosed : s.closed = false) (htext : '\n' ∉ text) (hne : text ≠ [])
    (iResult : ℕ) : Received iResult rest text s (loop iResult (text,s)).2 := by
  have hscan := scan_end (cut_length_le rest) htext
  rw [cut_cut_append] at hscan
  have hbody : body iResult (text,s) =
      ([],{ s with
        fullline := cut (rest ++ text)
        outside := s.outside || defaultBufLen ≤ iResult }) := by
    rw [body, hfull, hscan]
  have hexit : ¬again (body iResult (text,s)) := by
    rw [hbody]
    exact fun h => h.1 rfl
  have hsplit : Lines.split '\n' (rest ++ text) = ([],rest ++ text) :=
    Lines.split_rest (by rw [List.mem_append]; tauto)
  rw [loop, DoWhile.loop_exit _ _ hexit, hbody]
  constructor
  · rw [delivered, lines, hsplit]
    exact (List.append_nil _).symm
  · rw [lines, hsplit]
    exact hclosed
  · rw [hsplit]
    exact fun _ => rfl
  · rw [lines, hsplit]
    exact (and_iff_left fun line hline => absurd hline List.not_mem_nil).symm
  · have hunended : unended text = true := by
      rw [unended, List.getLast?_eq_some_getLast hne, Option.any_some, decide_eq_true_eq]
      exact fun hlast => htext (hlast ▸ List.getLast_mem hne)
    rw [hunended, hclosed, Bool.not_false, Bool.true_and, Bool.and_true]

theorem received_nil {s : Connection} (hfull : s.fullline = cut []) (hclosed : s.closed = false)
    (iResult : ℕ) : Received iResult [] [] s s where
  pushed := (List.append_nil _).symm
  closed := hclosed
  fullline := fun _ => hfull
  highest := (and_iff_left fun line hline => absurd hline List.not_mem_nil).symm
  outside := by
    rw [show unended [] = false from rfl, Bool.and_false, Bool.or_false]

/-- The line ends the connection, whatever is behind it. -/
theorem loop_kills {s : Connection} {rest line : List Char} (hfull : s.fullline = cut rest)
    (hrest : '\n' ∉ rest) (hline : '\n' ∉ line) (hkills : kills (rest ++ line) = true)
    (iResult : ℕ) (text : List Char) :
    Received iResult rest (line ++ '\n'::text) s (loop iResult (line ++ '\n'::text,s)).2 := by
  have hbody := body_line hfull hline iResult text
  rw [endLine_kills s hkills] at hbody
  have hexit : ¬again (body iResult (line ++ '\n'::text,s)) := by
    rw [hbody]
    exact fun h => Bool.noConfusion h.2
  have hlines : lines (rest ++ (line ++ '\n'::text)) = (rest ++ line)::lines text :=
    congrArg Prod.fst (split_lines hrest hline text)
  rw [loop, DoWhile.loop_exit _ _ hexit, hbody]
  constructor
  · rw [delivered, hlines, List.takeWhile_cons_of_neg (by simp [hkills])]
    exact (List.append_nil _).symm
  · rw [hlines, List.any_cons, hkills]
    rfl
  · exact fun h => Bool.noConfusion h
  · rw [hlines, ended, if_pos hkills, List.forall_mem_singleton, max_lt_iff, cut_length_lt]
  · rw [Bool.not_true, Bool.false_and, Bool.false_and, Bool.or_false]

/-- A line is pushed, and the rest of the segment follows. -/
theorem received_line {iResult : ℕ} {s t : Connection} {rest line text : List Char}
    (hrest : '\n' ∉ rest) (hline : '\n' ∉ line) (hkills : kills (rest ++ line) = false)
    (h : Received iResult [] text (endLine (cut (rest ++ line)) s) t) :
    Received iResult rest (line ++ '\n'::text) s t := by
  have hsplit := split_lines hrest hline text
  have hlines : lines (rest ++ (line ++ '\n'::text)) = (rest ++ line)::lines text :=
    congrArg Prod.fst hsplit
  rw [endLine_pushes s hkills] at h
  constructor
  · rw [h.pushed, delivered, delivered, hlines, List.takeWhile_cons_of_pos (by simp [hkills]),
      List.map_cons, List.append_assoc, List.singleton_append, List.nil_append]
  · rw [h.closed, hlines, List.any_cons, hkills, Bool.false_or, List.nil_append]
  · rw [hsplit]
    exact h.fullline
  · rw [h.highest, hlines, ended, hkills, if_neg (by decide), List.forall_mem_cons, max_lt_iff,
      cut_length_lt, and_assoc, List.nil_append]
  · rw [h.outside, unended_line]

theorem loop_received {s : Connection} {rest text : List Char} (hfull : s.fullline = cut rest)
    (hrest : '\n' ∉ rest) (hclosed : s.closed = false) (hne : text ≠ []) (iResult : ℕ) :
    Received iResult rest text s (loop iResult (text,s)).2 := by
  induction text using @Lines.recLines _ _ '\n' generalizing rest s with
  | hrest text h => exact loop_rest hfull hrest hclosed h hne iResult
  | hline line text h ih =>
    cases hkills : kills (rest ++ line) with
    | true => exact loop_kills hfull hrest h hkills iResult text
    | false =>
      have hbody := body_line hfull h iResult text
      have hnext : (endLine (cut (rest ++ line)) s).fullline = cut [] ∧
          (endLine (cut (rest ++ line)) s).closed = false := by
        rw [endLine_pushes s hkills]
        exact ⟨rfl,hclosed⟩
      apply received_line hrest h hkills
      by_cases htext : text = []
      · have hexit : ¬again (body iResult (line ++ '\n'::text,s)) := by
          rw [hbody]
          exact fun hgo => hgo.1 htext
        rw [loop, DoWhile.loop_exit _ _ hexit, hbody, htext]
        exact received_nil hnext.1 hnext.2 iResult
      · have hagain : again (body iResult (line ++ '\n'::text,s)) := by
          rw [hbody]
          exact ⟨htext,hnext.2⟩
        rw [loop, DoWhile.loop_again _ _ hagain, hbody]
        exact ih hnext.1 List.not_mem_nil hnext.2 htext

/-! ## All segments -/

theorem ended_append (first second : List (List Char)) :
    ended (first ++ second) = ended first ++ if first.any kills then [] else ended second := by
  induction first with
  | nil => rfl
  | cons line first ih =>
    rw [List.cons_append, ended, ended, List.any_cons]
    cases hkills : kills line with
    | true => rfl
    | false => simp only [ih, Bool.false_eq_true, if_false, Bool.false_or, List.cons_append]

theorem lines_append (first second : List Char) :
    lines (first ++ second) = lines first ++ lines ((Lines.split '\n' first).2 ++ second) :=
  congrArg Prod.fst (Lines.split_append first second)

theorem takeWhile_append (first second : List (List Char)) :
    (first ++ second).takeWhile (fun line => !kills line) =
      first.takeWhile (fun line => !kills line) ++
        if first.any kills then [] else second.takeWhile fun line => !kills line := by
  induction first with
  | nil => rfl
  | cons line first ih =>
    rw [List.cons_append, List.takeWhile_cons, List.takeWhile_cons, List.any_cons]
    cases hkills : kills line with
    | true => rfl
    | false => simp only [ih, Bool.not_false, if_true, Bool.false_or, List.cons_append]

theorem delivered_append (first second : List Char) : delivered (first ++ second) =
    delivered first ++ if (lines first).any kills then []
      else delivered ((Lines.split '\n' first).2 ++ second) := by
  rw [delivered, delivered, delivered, lines_append, takeWhile_append]

structure Ran (segments : List (List Char)) (t : Connection) : Prop where
  pushed : t.pushed = (delivered segments.flatten).map fun line => cString (cut line)
  closed : t.closed = (lines segments.flatten).any kills
  fullline : t.closed = false → t.fullline = cut (Lines.split '\n' segments.flatten).2
  highest : t.highest < maxLineSize ↔
    ∀ line ∈ ended (lines segments.flatten), line.length < maxLineSize
  outside : t.outside = false ↔
    ∀ before segment, before ++ [segment] <+: segments → defaultBufLen ≤ segment.length →
      (lines (before ++ [segment]).flatten).any kills = false → unended segment = false

theorem receive_closed {s : Connection} (h : s.closed = true) (segment : List Char) :
    receive s segment = s := if_pos h

theorem receive_open {s : Connection} (h : s.closed = false) (segment : List Char) :
    receive s segment = (loop segment.length (segment,s)).2 := if_neg (by rw [h]; decide)

theorem last_or_before {before segments : List (List Char)} {segment last : List Char} :
    before ++ [segment] <+: segments ++ [last] ↔
      before = segments ∧ segment = last ∨ before ++ [segment] <+: segments := by
  rw [List.prefix_concat_iff, ← List.concat_eq_append, ← List.concat_eq_append, List.concat_inj]

/-- What is received of a connection that is closed changes nothing. -/
theorem ran_closed {segments : List (List Char)} {s : Connection} (h : Ran segments s)
    (hclosed : s.closed = true) (segment : List Char) :
    Ran (segments ++ [segment]) s := by
  have hkills : (lines segments.flatten).any kills = true := h.closed.symm.trans hclosed
  have hflatten : (segments ++ [segment]).flatten = segments.flatten ++ segment := by simp
  constructor
  · rw [hflatten, delivered_append, if_pos hkills, List.append_nil]
    exact h.pushed
  · rw [hflatten, lines_append, List.any_append, hkills]
    exact hclosed
  · exact fun hopen => absurd (hopen.symm.trans hclosed) (by decide)
  · rw [hflatten, lines_append, ended_append, if_pos hkills, List.append_nil]
    exact h.highest
  · rw [h.outside]
    constructor
    · rintro hsafe before last hbefore hlen hany
      obtain ⟨rfl, rfl⟩ | hbefore := last_or_before.mp hbefore
      · rw [hflatten, lines_append, List.any_append, hkills] at hany
        exact Bool.noConfusion hany
      · exact hsafe before last hbefore hlen hany
    · exact fun hsafe before last hbefore => hsafe before last (last_or_before.mpr (Or.inr hbefore))

theorem ran_open {segments : List (List Char)} {s t : Connection} (h : Ran segments s)
    (hclosed : s.closed = false) {segment : List Char}
    (ht : Received segment.length (Lines.split '\n' segments.flatten).2 segment s t) :
    Ran (segments ++ [segment]) t := by
  have hkills : (lines segments.flatten).any kills = false := h.closed.symm.trans hclosed
  have hflatten : (segments ++ [segment]).flatten = segments.flatten ++ segment := by simp
  have hany : t.closed = (lines (segments ++ [segment]).flatten).any kills := by
    rw [hflatten, lines_append, List.any_append, hkills, Bool.false_or]
    exact ht.closed
  constructor
  · rw [hflatten, delivered_append, hkills, if_neg (by decide), List.map_append, ← h.pushed]
    exact ht.pushed
  · exact hany
  · rw [hflatten, Lines.split_append]
    exact ht.fullline
  · rw [hflatten, lines_append, ended_append, hkills, if_neg (by decide), List.forall_mem_append,
      ← h.highest]
    exact ht.highest
  · rw [ht.outside, hany, Bool.or_eq_false_iff, h.outside]
    constructor
    · rintro ⟨hsafe, hlast⟩ before last hbefore hlen hopen
      obtain ⟨rfl, rfl⟩ | hbefore := last_or_before.mp hbefore
      · simpa only [hopen, decide_eq_true hlen, Bool.not_false, Bool.true_and] using hlast
      · exact hsafe before last hbefore hlen hopen
    · intro hsafe
      refine ⟨fun before last hbefore => hsafe before last (last_or_before.mpr (Or.inr hbefore)),?_⟩
      have hlast := hsafe segments segment List.prefix_rfl
      cases hopen : (lines (segments ++ [segment]).flatten).any kills with
      | true => rfl
      | false =>
        by_cases hlen : defaultBufLen ≤ segment.length
        · rw [hlast hlen hopen, Bool.and_false]
        · rw [decide_eq_false hlen]
          rfl

theorem ran_receive {segments : List (List Char)} {s : Connection} (h : Ran segments s)
    {segment : List Char} (hne : segment ≠ []) :
    Ran (segments ++ [segment]) (receive s segment) := by
  cases hclosed : s.closed with
  | true =>
    rw [receive_closed hclosed]
    exact ran_closed h hclosed segment
  | false =>
    rw [receive_open hclosed]
    apply ran_open h hclosed
    exact loop_received (h.fullline hclosed) (Lines.sep_notMem_rest _) hclosed hne _

theorem ran_run (segments : List (List Char)) (hne : ∀ segment ∈ segments, segment ≠ []) :
    Ran segments (run segments) := by
  induction segments using List.reverseRecOn with
  | nil =>
    have hnone : ∀ (before : List (List Char)) segment, ¬before ++ [segment] <+: [] :=
      fun before segment h => List.append_ne_nil_of_right_ne_nil _ (List.cons_ne_nil _ _)
        (List.prefix_nil.mp h)
    have hroom : 0 < maxLineSize := by decide
    exact ⟨rfl,rfl,fun _ => rfl,
      iff_of_true hroom fun line hline => absurd hline List.not_mem_nil,
      iff_of_true rfl fun before segment h => absurd h (hnone before segment)⟩
  | append_singleton segments segment ih =>
    rw [List.forall_mem_append, List.forall_mem_singleton] at hne
    rw [run, List.foldl_append]
    exact ran_receive (ih hne.1) hne.2

/-- Every line up to the end of the connection fits with its 0, has no 0 of its own,
and a segment that fills `recvbuf` ends with a line. -/
structure Regular (segments : List (List Char)) : Prop where
  fits : ∀ line ∈ ended (lines segments.flatten), line.length < maxLineSize
  printed : ∀ line ∈ delivered segments.flatten, nul ∉ cut line
  whole : ∀ before segment, before ++ [segment] <+: segments →
    defaultBufLen ≤ segment.length →
      (lines (before ++ [segment]).flatten).any kills = false → unended segment = false

theorem cString_eq_iff {line : List Char} : cString line = line ↔ nul ∉ line := by
  refine ⟨fun h => ?_,cString_eq_self⟩
  rw [← h]
  exact nul_notMem_cString line

/-- What is pushed depends on the stream only; it is the lines, and the buffers
are kept, if and only if the segments are regular. -/
theorem framed_iff (segments : List (List Char))
    (hne : ∀ segment ∈ segments, segment ≠ [] ∧ segment.length ≤ defaultBufLen) :
    (run segments).pushed = (delivered segments.flatten).map (fun line => cString (cut line)) ∧
      (Framed segments ↔ Regular segments) := by
  have hran := ran_run segments fun segment h => (hne segment h).1
  refine ⟨hran.pushed,?_⟩
  have hprinted : (run segments).pushed = (delivered segments.flatten).map cut ↔
      ∀ line ∈ delivered segments.flatten, nul ∉ cut line := by
    rw [hran.pushed, List.map_inj_left]
    exact forall₂_congr fun line _ => cString_eq_iff
  rw [Framed, hprinted, hran.highest, hran.outside]
  exact ⟨fun h => ⟨h.2.1,h.1,h.2.2⟩,fun h => ⟨h.printed,h.fits,h.whole⟩⟩

theorem framed_iff_help : (run ["help\nre".toList,"set\n".toList]).pushed =
      (delivered ["help\nre".toList,"set\n".toList].flatten).map (fun line => cString (cut line)) ∧
    (Framed ["help\nre".toList,"set\n".toList] ↔ Regular ["help\nre".toList,"set\n".toList]) :=
  framed_iff _ fun segment h => by
    rw [List.mem_cons, List.mem_singleton] at h
    obtain rfl | rfl := h
    · exact ⟨by decide,by decide⟩
    · exact ⟨by decide,by decide⟩

/-- A segment of 512 characters without a newline: the place behind `recvbuf` is read. -/
theorem full_segment_outside : ¬Framed [List.replicate defaultBufLen 'a'] := by
  intro h
  have hne : ∀ segment ∈ [List.replicate defaultBufLen 'a'], segment ≠ [] := by
    intro segment hsegment
    rw [List.mem_singleton.mp hsegment]
    exact List.ne_nil_of_length_pos (by rw [List.length_replicate]; decide)
  have hnl : '\n' ∉ ([] ++ [List.replicate defaultBufLen 'a']).flatten := by
    rw [List.nil_append, List.flatten_singleton, List.mem_replicate]
    exact fun hmem => absurd hmem.2 (by decide)
  have hopen : (lines ([] ++ [List.replicate defaultBufLen 'a']).flatten).any kills = false := by
    rw [lines, Lines.split_rest hnl]
    rfl
  have hended := (ran_run _ hne).outside.mp h.2.2 [] _ List.prefix_rfl List.length_replicate.ge hopen
  rw [unended, List.getLast?_replicate] at hended
  exact absurd hended (by decide)

end Pauline.ConnectionThread
