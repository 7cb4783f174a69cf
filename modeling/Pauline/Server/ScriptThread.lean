import Mathlib.Data.List.TakeWhile
import Pauline.Library.DoWhile
import Pauline.Server.LineBuffer

/-!
# The script thread

The thread takes a message from the command queue and executes its lines. It
keeps what it has collected of a line from one message to the next.
-/

set_option autoImplicit false

namespace Pauline.ScriptThread
open Pauline.Messages Pauline.LineBuffer

structure Script where
  /-- The first `line_index` characters. -/
  fullline : List Char
  executed : List (List Char)
  /-- The highest place of `fullline` that was given a 0; the characters are below it. -/
  highest : ℕ

def readLine (fullline : List Char) : List Char → List Char × List Char
  | [] => (fullline,[])
  | c::rest =>
    if c ≠ '\n' ∧ c ≠ nul then readLine (store fullline c) rest else (fullline,c::rest)

def endLine (fullline : List Char) (s : Script) : Script :=
  let s := { s with highest := max s.highest fullline.length }
  if kills fullline then { s with fullline := fullline }
  else { s with fullline := [], executed := s.executed ++ [fullline] }

def body (s : List Char × Script) : List Char × Script :=
  let line := readLine s.2.fullline s.1
  (line.2.tail,endLine line.1 s.2)

def again (s : List Char × Script) : Prop := s.1 ≠ [] ∧ s.1.head? ≠ some nul

instance : DecidablePred again := fun _ => inferInstanceAs (Decidable (_ ∧ _))

theorem readLine_length (fullline text : List Char) :
    (readLine fullline text).2.length ≤ text.length := by
  induction text generalizing fullline with
  | nil => exact le_rfl
  | cons c text ih =>
    rw [readLine]
    split_ifs
    · exact (ih _).trans (Nat.le_succ _)
    · exact le_rfl

theorem body_length (s : List Char × Script) (h : again (body s)) :
    (body s).1.length < s.1.length := by
  have hlength := readLine_length s.2.fullline s.1
  have hpos := List.length_pos_of_ne_nil h.1
  simp only [body, List.length_tail] at hpos ⊢
  omega

def loop (s : List Char × Script) : List Char × Script :=
  DoWhile.loop body again (fun s => s.1.length) body_length s

def recvbuf (last : Char) (msg : List Char) : List Char :=
  strncpy (maxMessagesSize - 1) msg ++ [last]

def onMessage (last : Char) (msg : List Char) (s : Script) : Script :=
  (loop (recvbuf last msg,{ s with executed := [] })).2

def serve (last : Char) : List (List Char) → Script → List (List (List Char)) × Script
  | [], s => ([],s)
  | msg::msgs, s =>
    let next := serve last msgs (onMessage last msg s)
    ((onMessage last msg s).executed::next.1,next.2)

def Script.start : Script := ⟨[],[],0⟩

/-! ## What is asked -/

def commands (msg : List Char) : List (List Char) :=
  (Lines.all '\n' msg).filter fun line => !kills line

def Independent (last : Char) (msgs : List (List Char)) : Prop :=
  (serve last msgs Script.start).1 = msgs.map commands ∧
    (serve last msgs Script.start).2.highest < maxLineSize

def Message (msg : List Char) : Prop := nul ∉ msg ∧ msg.length < maxMessagesSize - 1

/-! ## Line by line -/

def hear (s : Script) (line : List Char) : Script := endLine (cut (s.fullline ++ line)) s

/-- A message of 510 characters without a last newline: behind its 0 the thread
finds the place of `recvbuf` that was never written. -/
def stray (last : Char) (msg : List Char) : List (List Char) :=
  if msg.length = maxMessagesSize - 2 ∧ (Lines.split '\n' msg).2 ≠ [] ∧ last ≠ nul then
    [if last = '\n' then [] else [last]]
  else []

def heard (last : Char) (msg : List Char) : List (List Char) :=
  (if msg = [] then [[]] else Lines.all '\n' msg) ++ stray last msg

theorem readLine_end {fullline line : List Char} (hfull : fullline.length ≤ maxLineSize)
    (hline : '\n' ∉ line) (hnul : nul ∉ line) :
    readLine fullline line = (cut (fullline ++ line),[]) := by
  induction line generalizing fullline with
  | nil => rw [readLine, List.append_nil, cut_of_short hfull]
  | cons c line ih =>
    rw [List.mem_cons, not_or] at hline hnul
    rw [readLine, if_pos ⟨Ne.symm hline.1,Ne.symm hnul.1⟩,
      ih (store_length_le hfull c) hline.2 hnul.2, cut_store hfull]

theorem readLine_line {fullline line : List Char} (hfull : fullline.length ≤ maxLineSize)
    (hline : '\n' ∉ line) (hnul : nul ∉ line) {c : Char} (hc : c = '\n' ∨ c = nul)
    (rest : List Char) :
    readLine fullline (line ++ c::rest) = (cut (fullline ++ line),c::rest) := by
  induction line generalizing fullline with
  | nil =>
    have hstop : ¬(c ≠ '\n' ∧ c ≠ nul) := by tauto
    rw [List.nil_append, readLine, if_neg hstop, List.append_nil, cut_of_short hfull]
  | cons d line ih =>
    rw [List.mem_cons, not_or] at hline hnul
    rw [List.cons_append, readLine, if_pos ⟨Ne.symm hline.1,Ne.symm hnul.1⟩,
      ih (store_length_le hfull d) hline.2 hnul.2, cut_store hfull]

theorem body_line {s : Script} {line : List Char} (hfull : s.fullline.length ≤ maxLineSize)
    (hline : '\n' ∉ line) (hnul : nul ∉ line) {c : Char} (hc : c = '\n' ∨ c = nul)
    (rest : List Char) : body (line ++ c::rest,s) = (rest,hear s line) := by
  rw [body, readLine_line hfull hline hnul hc]
  rfl

theorem endLine_fullline {fullline : List Char} (s : Script)
    (h : fullline.length ≤ maxLineSize) : (endLine fullline s).fullline.length ≤ maxLineSize := by
  unfold endLine
  dsimp only
  split_ifs
  · exact h
  · exact Nat.zero_le _

theorem hear_fullline (s : Script) (line : List Char) :
    (hear s line).fullline.length ≤ maxLineSize :=
  endLine_fullline s (cut_length_le _)

/-- The lines of a text before the 0, and then what is behind the 0 if the thread
runs into it. -/
theorem loop_text {text : List Char} (hnul : nul ∉ text) (pad : List Char) (s : Script)
    (hfull : s.fullline.length ≤ maxLineSize) :
    (loop (text ++ nul::pad,s)).2 =
      if again (pad,s) ∧ ((Lines.split '\n' text).2 ≠ [] ∨ text = []) then
        (loop (pad,(if text = [] then [[]] else Lines.all '\n' text).foldl hear s)).2
      else (if text = [] then [[]] else Lines.all '\n' text).foldl hear s := by
  induction text using @Lines.recLines _ _ '\n' generalizing s with
  | hrest text h =>
    have hbody := body_line hfull h hnul (Or.inr rfl) pad
    have hlines : (if text = [] then [[]] else Lines.all '\n' text) = [text] := by
      split_ifs with he
      · rw [he]
      · rw [Lines.all, Lines.split_rest h, if_neg he, List.nil_append]
    have hends : (Lines.split '\n' text).2 ≠ [] ∨ text = [] := by
      rw [Lines.split_rest h]
      tauto
    rw [hlines, List.foldl_cons, List.foldl_nil]
    by_cases hgo : again (pad,s)
    · have hagain : again (body (text ++ nul::pad,s)) := hbody.symm ▸ hgo
      rw [if_pos ⟨hgo,hends⟩, loop, DoWhile.loop_again _ _ hagain, hbody]
      rfl
    · have hagain : ¬again (body (text ++ nul::pad,s)) := hbody.symm ▸ hgo
      rw [if_neg (fun h => hgo h.1), loop, DoWhile.loop_exit _ _ hagain, hbody]
  | hline line text h ih =>
    rw [List.mem_append, List.mem_cons, not_or, not_or] at hnul
    have hbody : body (line ++ '\n'::(text ++ nul::pad),s) = (text ++ nul::pad,hear s line) :=
      body_line hfull h hnul.1 (Or.inl rfl) _
    have hne : line ++ '\n'::text ≠ [] := by simp
    rw [List.append_assoc, List.cons_append, if_neg hne, Lines.all, Lines.split_line _ h,
      List.cons_append, List.foldl_cons]
    cases text with
    | nil =>
      have hagain : ¬again (body (line ++ '\n'::([] ++ nul::pad),s)) := by
        rw [hbody]
        exact fun hgo => hgo.2 rfl
      rw [loop, DoWhile.loop_exit _ _ hagain, hbody]
      simp [Lines.split_nil]
    | cons c text =>
      have hc : c ≠ nul := fun he => hnul.2.2 (he ▸ List.mem_cons_self)
      have hagain : again (body (line ++ '\n'::(c::text ++ nul::pad),s)) := by
        rw [hbody]
        exact ⟨by simp,by simpa using hc⟩
      have hnext := ih hnul.2.2 (hear s line) (hear_fullline s line)
      rw [if_neg (List.cons_ne_nil c text)] at hnext
      rw [loop, DoWhile.loop_again _ _ hagain, hbody]
      refine hnext.trans ?_
      simp only [again, Lines.all, hne, or_false, List.cons_ne_nil]

theorem loop_last {last : Char} (hlast : last ≠ nul) (s : Script)
    (hfull : s.fullline.length ≤ maxLineSize) :
    (loop ([last],s)).2 = hear s (if last = '\n' then [] else [last]) := by
  by_cases hnl : last = '\n'
  · have hbody : body ([last],s) = ([],hear s []) :=
      @body_line s [] hfull List.not_mem_nil List.not_mem_nil last (Or.inl hnl) []
    rw [loop, DoWhile.loop_exit _ _ (by rw [hbody]; exact fun h => h.1 rfl), hbody, if_pos hnl]
  · have hread : readLine s.fullline [last] = (cut (s.fullline ++ [last]),[]) :=
      readLine_end hfull (by simpa using Ne.symm hnl) (by simpa using Ne.symm hlast)
    have hbody : body ([last],s) = ([],hear s [last]) := by
      rw [body, hread]
      rfl
    rw [loop, DoWhile.loop_exit _ _ (by rw [hbody]; exact fun h => h.1 rfl), hbody, if_neg hnl]

theorem recvbuf_eq {msg : List Char} (hm : Message msg) (last : Char) : recvbuf last msg =
    msg ++ nul::(List.replicate (maxMessagesSize - 2 - msg.length) nul ++ [last]) := by
  have hread : cString msg = msg := cString_eq_self hm.1
  have hlen := hm.2
  rw [recvbuf, strncpy, hread, List.take_of_length_le hlen.le, List.append_assoc,
    show maxMessagesSize - 1 - msg.length = maxMessagesSize - 2 - msg.length + 1 by
      unfold maxMessagesSize at *; omega,
    List.replicate_succ, List.cons_append]

/-- The thread runs into the last place of `recvbuf` behind a message of 510
characters only. -/
theorem again_pad (k : ℕ) (last : Char) (s : Script) :
    again (List.replicate k nul ++ [last],s) ↔ k = 0 ∧ last ≠ nul := by
  cases k with
  | zero => simp [again]
  | succ k => simp [again, List.replicate_succ]

theorem foldl_hear_fullline (lines : List (List Char)) (s : Script)
    (hfull : s.fullline.length ≤ maxLineSize) :
    (lines.foldl hear s).fullline.length ≤ maxLineSize := by
  induction lines generalizing s with
  | nil => exact hfull
  | cons line lines ih => exact ih _ (hear_fullline s line)

theorem onMessage_heard {msg : List Char} (hm : Message msg) (last : Char) (s : Script)
    (hfull : s.fullline.length ≤ maxLineSize) :
    onMessage last msg s = (heard last msg).foldl hear { s with executed := [] } := by
  have hlen := hm.2
  have hagain := again_pad (maxMessagesSize - 2 - msg.length) last { s with executed := [] }
  rw [onMessage, recvbuf_eq hm, loop_text hm.1 _ { s with executed := [] } hfull, heard,
    List.foldl_append]
  by_cases hstray : msg.length = maxMessagesSize - 2 ∧ (Lines.split '\n' msg).2 ≠ [] ∧ last ≠ nul
  · obtain ⟨hlong, hrest, hlast⟩ := hstray
    have hzero : maxMessagesSize - 2 - msg.length = 0 := by omega
    have hone : stray last msg = [if last = '\n' then [] else [last]] :=
      if_pos ⟨hlong,hrest,hlast⟩
    rw [if_pos ⟨hagain.mpr ⟨hzero,hlast⟩,Or.inl hrest⟩, hzero, hone, List.foldl_cons,
      List.foldl_nil]
    exact loop_last hlast _ (foldl_hear_fullline _ _ hfull)
  · have hnone : stray last msg = [] := if_neg hstray
    rw [hnone, List.foldl_nil, if_neg]
    rintro ⟨hgo, hrest⟩
    obtain ⟨hzero, hlast⟩ := hagain.mp hgo
    obtain hrest | hnil := hrest
    · exact hstray ⟨by omega,hrest,hlast⟩
    · rw [hnil] at hzero
      exact absurd hzero (by decide)

/-! ## Behind a line that kills -/

structure Dead (s : Script) : Prop where
  kills : kills s.fullline = true
  fits : s.fullline.length ≤ maxLineSize
  highest : s.fullline.length ≤ s.highest

structure Fresh (s : Script) : Prop where
  fullline : s.fullline = []
  highest : s.highest < maxLineSize

theorem hear_dead {s : Script} (h : Dead s) (line : List Char) : hear s line =
    { s with
      fullline := cut (s.fullline ++ line)
      highest := max s.highest (cut (s.fullline ++ line)).length } := by
  have hkills : kills (cut (s.fullline ++ line)) = true := by
    rw [kills_cut]
    exact kills_append line h.kills
  rw [hear, endLine, if_pos hkills]

theorem dead_hear {s : Script} (h : Dead s) (line : List Char) : Dead (hear s line) := by
  rw [hear_dead h]
  refine ⟨?_,cut_length_le _,le_max_right _ _⟩
  rw [kills_cut]
  exact kills_append line h.kills

/-- Nothing is executed, and the line grows until it leaves the buffer. -/
theorem foldl_dead (lines : List (List Char)) {s : Script} (h : Dead s) :
    Dead (lines.foldl hear s) ∧ (lines.foldl hear s).executed = s.executed ∧
      (lines.foldl hear s).fullline = cut (s.fullline ++ lines.flatten) ∧
      ((lines.foldl hear s).highest < maxLineSize ↔
        s.highest < maxLineSize ∧ (s.fullline ++ lines.flatten).length < maxLineSize) := by
  induction lines generalizing s with
  | nil =>
    have hlow := h.highest
    refine ⟨h,rfl,?_,?_⟩
    · rw [List.flatten_nil, List.append_nil, cut_of_short h.fits]
      rfl
    · simp only [List.foldl_nil, List.flatten_nil, List.append_nil]
      omega
  | cons line lines ih =>
    obtain ⟨hdead, hexecuted, hfullline, hhighest⟩ := ih (dead_hear h line)
    refine ⟨hdead,?_,?_,?_⟩
    · rw [List.foldl_cons, hexecuted, hear_dead h]
    · rw [List.foldl_cons, hfullline, hear_dead h, cut_cut_append, List.append_assoc,
        List.flatten_cons]
    · rw [List.foldl_cons, hhighest, hear_dead h]
      dsimp only
      rw [max_lt_iff, cut_length_lt, List.flatten_cons, ← List.append_assoc, and_assoc,
        cut_append_lt]

/-- The lines before the first one that kills are executed. -/
theorem foldl_fresh (lines : List (List Char)) {s : Script} (h : Fresh s)
    (hshort : ∀ line ∈ lines, line.length < maxLineSize) :
    (lines.foldl hear s).executed = s.executed ++ lines.takeWhile (fun line => !kills line) ∧
    ((lines.dropWhile fun line => !kills line) = [] → Fresh (lines.foldl hear s)) ∧
    ((lines.dropWhile fun line => !kills line) ≠ [] → Dead (lines.foldl hear s) ∧
      (lines.foldl hear s).fullline = cut (lines.dropWhile fun line => !kills line).flatten ∧
      ((lines.foldl hear s).highest < maxLineSize ↔
        (lines.dropWhile fun line => !kills line).flatten.length < maxLineSize)) := by
  induction lines generalizing s with
  | nil => exact ⟨(List.append_nil _).symm,fun _ => h,fun hne => absurd rfl hne⟩
  | cons line lines ih =>
    have hline := hshort line List.mem_cons_self
    have hcut : cut (s.fullline ++ line) = line := by
      rw [h.fullline, List.nil_append, cut_of_short hline.le]
    cases hk : kills line with
    | true =>
      have hhear : hear s line =
          { s with fullline := line, highest := max s.highest line.length } := by
        rw [hear, hcut, endLine, if_pos hk]
      have hlow : max s.highest line.length < maxLineSize := max_lt h.highest hline
      have hdead : Dead (hear s line) := by
        rw [hhear]
        exact ⟨hk,hline.le,le_max_right _ _⟩
      obtain ⟨hd, hexecuted, hfullline, hhighest⟩ := foldl_dead lines hdead
      have htake : (line::lines).takeWhile (fun line => !kills line) = [] :=
        List.takeWhile_cons_of_neg (by simp [hk])
      have hdrop : (line::lines).dropWhile (fun line => !kills line) = line::lines :=
        List.dropWhile_cons_of_neg (by simp [hk])
      rw [htake, hdrop, List.foldl_cons]
      refine ⟨?_,fun hnil => absurd hnil (List.cons_ne_nil _ _),fun _ => ⟨hd,?_,?_⟩⟩
      · rw [hexecuted, hhear, List.append_nil]
      · rw [hfullline, hhear, List.flatten_cons]
      · rw [hhighest, hhear, List.flatten_cons]
        exact and_iff_right hlow
    | false =>
      have hhear : hear s line =
          { s with
            highest := max s.highest line.length
            fullline := []
            executed := s.executed ++ [line] } := by
        rw [hear, hcut, endLine, if_neg (by simp [hk])]
      have hfresh : Fresh (hear s line) := by
        rw [hhear]
        exact ⟨rfl,max_lt h.highest hline⟩
      obtain ⟨hexecuted, hnone, hsome⟩ :=
        ih hfresh fun l hl => hshort l (List.mem_cons_of_mem _ hl)
      have htake : (line::lines).takeWhile (fun line => !kills line) =
          line::lines.takeWhile fun line => !kills line :=
        List.takeWhile_cons_of_pos (by simp [hk])
      have hdrop : (line::lines).dropWhile (fun line => !kills line) =
          lines.dropWhile fun line => !kills line :=
        List.dropWhile_cons_of_pos (by simp [hk])
      rw [htake, hdrop, List.foldl_cons]
      refine ⟨?_,hnone,hsome⟩
      rw [hexecuted, hhear, List.append_assoc, List.singleton_append]

/-! ## The condition -/

def spared (msg : List Char) : Bool := (Lines.all '\n' msg).all fun line => !kills line

def fromKill (lines : List (List Char)) : List (List Char) := lines.dropWhile fun line => !kills line

/-- A message before the first one with a line that kills is not empty, and is
not followed by a last place of `recvbuf` that is no 0; from the first such line
on all lines kill, and fit the buffer one behind the other. -/
structure Harmless (last : Char) (msgs : List (List Char)) : Prop where
  before : ∀ msg ∈ msgs.takeWhile spared, msg ≠ [] ∧ stray last msg = []
  after : ∀ line ∈ fromKill ((msgs.dropWhile spared).flatMap (Lines.all '\n')), kills line = true
  room : (fromKill ((msgs.dropWhile spared).flatMap (heard last))).flatten.length < maxLineSize

section Proof
variable {last : Char} {msg : List Char} {msgs : List (List Char)} {s : Script}

theorem fromKill_append {first : List (List Char)} (h : fromKill first ≠ [])
    (second : List (List Char)) : fromKill (first ++ second) = fromKill first ++ second := by
  rw [fromKill, List.dropWhile_append, if_neg]
  · rfl
  · rw [List.isEmpty_iff]
    exact h

theorem fromKill_eq_nil_iff (lines : List (List Char)) :
    fromKill lines = [] ↔ ∀ line ∈ lines, kills line = false := by
  simp [fromKill, List.dropWhile_eq_nil_iff]

/-- The lines to be executed are those before the first one that kills only if
all behind it kill. -/
theorem takeWhile_eq_filter_iff (lines : List (List Char)) :
    lines.takeWhile (fun line => !kills line) = lines.filter (fun line => !kills line) ↔
      ∀ line ∈ fromKill lines, kills line = true := by
  have hfilter : lines.filter (fun line => !kills line) =
      lines.takeWhile (fun line => !kills line) ++
        (fromKill lines).filter fun line => !kills line := by
    have hall : (lines.takeWhile fun line => !kills line).filter (fun line => !kills line) =
        lines.takeWhile fun line => !kills line :=
      List.filter_eq_self.mpr fun line hline => List.all_eq_true.mp List.all_takeWhile line hline
    conv_lhs => rw [← List.takeWhile_append_dropWhile (p := fun line => !kills line) (l := lines)]
    rw [List.filter_append, hall]
    rfl
  rw [hfilter, List.self_eq_append_right, List.filter_eq_nil_iff]
  simp

theorem stray_short : ∀ line ∈ stray last msg, line.length ≤ 1 := by
  intro line hline
  unfold stray at hline
  split at hline
  · rw [List.mem_singleton] at hline
    rw [hline]
    split_ifs <;> simp
  · exact absurd hline List.not_mem_nil

theorem heard_short (hm : Message msg) : ∀ line ∈ heard last msg, line.length < maxLineSize := by
  intro line hline
  have hlen := hm.2
  unfold maxMessagesSize at hlen
  rw [heard, List.mem_append] at hline
  unfold maxLineSize
  obtain hline | hline := hline
  · split_ifs at hline with he
    · rw [List.mem_singleton.mp hline]
      decide
    · have := Lines.all_length_le msg line hline
      omega
  · have := stray_short line hline
    omega

theorem stray_spared : ∀ line ∈ stray last msg, kills line = false := fun line hline =>
  not_kills_of_short (lt_of_le_of_lt (stray_short line hline) (by decide))

theorem heard_ne_nil (hne : msg ≠ []) : heard last msg = Lines.all '\n' msg ++ stray last msg := by
  rw [heard, if_neg hne]

theorem heard_eq_all_iff : heard last msg = Lines.all '\n' msg ↔ msg ≠ [] ∧ stray last msg = [] := by
  by_cases hne : msg = []
  · rw [hne]
    simp [heard, Lines.all_nil]
  · rw [heard_ne_nil hne, List.append_right_eq_self]
    exact (and_iff_right hne).symm

theorem commands_eq_nil_iff : commands msg = [] ↔ ∀ line ∈ Lines.all '\n' msg, kills line = true := by
  rw [commands, List.filter_eq_nil_iff]
  simp

variable (last) in
/-- Behind a line that kills nothing is executed any more. -/
theorem serve_dead (hmsgs : ∀ msg ∈ msgs, Message msg) (h : Dead s) :
    (serve last msgs s).1 = msgs.map (fun _ => []) ∧
      ((serve last msgs s).2.highest < maxLineSize ↔ s.highest < maxLineSize ∧
        (s.fullline ++ (msgs.flatMap (heard last)).flatten).length < maxLineSize) := by
  induction msgs generalizing s with
  | nil =>
    have hlow := h.highest
    refine ⟨rfl,?_⟩
    simp only [serve, List.flatMap_nil, List.flatten_nil, List.append_nil]
    omega
  | cons msg msgs ih =>
    have hdead : Dead { s with executed := [] } := ⟨h.kills,h.fits,h.highest⟩
    obtain ⟨hnext, hexecuted, hfullline, hhighest⟩ := foldl_dead (heard last msg) hdead
    have hheard := onMessage_heard (hmsgs msg List.mem_cons_self) last s h.fits
    rw [← hheard] at hnext hexecuted hfullline hhighest
    obtain ⟨hresults, hend⟩ := ih (fun m hm => hmsgs m (List.mem_cons_of_mem _ hm)) hnext
    refine ⟨?_,?_⟩
    · rw [serve, hresults, hexecuted]
      rfl
    · rw [serve]
      dsimp only
      rw [hend, hhighest, hfullline, and_assoc, cut_append_lt, List.flatMap_cons,
        List.flatten_append, List.append_assoc]

theorem harmless_spared (hs : spared msg = true) :
    Harmless last (msg::msgs) ↔ (msg ≠ [] ∧ stray last msg = []) ∧ Harmless last msgs := by
  have htake : (msg::msgs).takeWhile spared = msg::msgs.takeWhile spared :=
    List.takeWhile_cons_of_pos hs
  have hdrop : (msg::msgs).dropWhile spared = msgs.dropWhile spared :=
    List.dropWhile_cons_of_pos hs
  constructor
  · rintro ⟨hbefore, hafter, hroom⟩
    rw [htake] at hbefore
    rw [hdrop] at hafter hroom
    exact ⟨hbefore msg List.mem_cons_self,
      ⟨fun m hm => hbefore m (List.mem_cons_of_mem _ hm),hafter,hroom⟩⟩
  · rintro ⟨hmsg, hbefore, hafter, hroom⟩
    refine ⟨?_,by rwa [hdrop],by rwa [hdrop]⟩
    rw [htake]
    exact List.forall_mem_cons.mpr ⟨hmsg,hbefore⟩

variable (last) in
theorem serve_spared (hm : Message msg) (h : Fresh s) (hs : spared msg = true) :
    Fresh (onMessage last msg s) ∧ ((onMessage last msg s).executed = commands msg ↔
      msg ≠ [] ∧ stray last msg = []) := by
  have hordinary : ∀ line ∈ Lines.all '\n' msg, kills line = false := by
    intro line hline
    simpa using List.all_eq_true.mp hs line hline
  have hheard : fromKill (heard last msg) = [] := by
    rw [fromKill_eq_nil_iff]
    intro line hline
    rw [heard, List.mem_append] at hline
    obtain hline | hline := hline
    · split_ifs at hline with he
      · rw [List.mem_singleton.mp hline]
        exact not_kills_of_short (by decide)
      · exact hordinary line hline
    · exact stray_spared line hline
  have hall : (heard last msg).takeWhile (fun line => !kills line) = heard last msg := by
    have happend := List.takeWhile_append_dropWhile (p := fun line => !kills line)
      (l := heard last msg)
    rw [show (heard last msg).dropWhile (fun line => !kills line) = [] from hheard,
      List.append_nil] at happend
    exact happend
  have hcommands : commands msg = Lines.all '\n' msg :=
    List.filter_eq_self.mpr fun line hline => by simp [hordinary line hline]
  have hfresh : Fresh { s with executed := [] } := ⟨h.fullline,h.highest⟩
  obtain ⟨hexecuted, hnext, -⟩ := foldl_fresh (heard last msg) hfresh (heard_short hm)
  rw [← onMessage_heard hm last s (by rw [h.fullline]; exact Nat.zero_le _)] at hexecuted hnext
  refine ⟨hnext hheard,?_⟩
  rw [hexecuted, List.nil_append, hall, hcommands, heard_eq_all_iff]

theorem fromKill_of_killing (hs : spared msg = false) : fromKill (Lines.all '\n' msg) ≠ [] := by
  intro hnil
  rw [fromKill_eq_nil_iff] at hnil
  rw [spared, ← Bool.not_eq_true, List.all_eq_true] at hs
  exact hs fun line hline => by simp [hnil line hline]

theorem harmless_killing (hs : spared msg = false) : Harmless last (msg::msgs) ↔
    (∀ line ∈ fromKill (Lines.all '\n' msg), kills line = true) ∧
      (∀ m ∈ msgs, ∀ line ∈ Lines.all '\n' m, kills line = true) ∧
      (fromKill (heard last msg) ++ msgs.flatMap (heard last)).flatten.length < maxLineSize := by
  have hkill := fromKill_of_killing hs
  have hne : msg ≠ [] := by
    rintro rfl
    exact absurd hs (by decide)
  have htake : (msg::msgs).takeWhile spared = [] := List.takeWhile_cons_of_neg (by simp [hs])
  have hdrop : (msg::msgs).dropWhile spared = msg::msgs := List.dropWhile_cons_of_neg (by simp [hs])
  have hlines : fromKill ((msg::msgs).flatMap (Lines.all '\n')) =
      fromKill (Lines.all '\n' msg) ++ msgs.flatMap (Lines.all '\n') :=
    fromKill_append hkill _
  have hheard : fromKill ((msg::msgs).flatMap (heard last)) =
      fromKill (heard last msg) ++ msgs.flatMap (heard last) := by
    refine fromKill_append ?_ _
    rw [heard_ne_nil hne, fromKill_append hkill]
    exact fun hnil => hkill (List.append_eq_nil_iff.mp hnil).1
  constructor
  · rintro ⟨-, hafter, hroom⟩
    rw [hdrop, hlines, List.forall_mem_append] at hafter
    rw [hdrop, hheard] at hroom
    exact ⟨hafter.1,fun m hm line hline => hafter.2 line (List.mem_flatMap.mpr ⟨m,hm,hline⟩),hroom⟩
  · rintro ⟨hfirst, hrest, hroom⟩
    refine ⟨?_,?_,?_⟩
    · rw [htake]
      exact fun m hm => absurd hm List.not_mem_nil
    · rw [hdrop, hlines, List.forall_mem_append]
      refine ⟨hfirst,fun line hline => ?_⟩
      obtain ⟨m, hm, hline⟩ := List.mem_flatMap.mp hline
      exact hrest m hm line hline
    · rwa [hdrop, hheard]

variable (last) in
theorem serve_killing (hm : Message msg) (h : Fresh s) (hs : spared msg = false) :
    Dead (onMessage last msg s) ∧
      ((onMessage last msg s).executed = commands msg ↔
        ∀ line ∈ fromKill (Lines.all '\n' msg), kills line = true) ∧
      (onMessage last msg s).fullline = cut (fromKill (heard last msg)).flatten ∧
      ((onMessage last msg s).highest < maxLineSize ↔
        (fromKill (heard last msg)).flatten.length < maxLineSize) := by
  have hkill := fromKill_of_killing hs
  have hne : msg ≠ [] := by
    rintro rfl
    exact absurd hs (by decide)
  have hheard : fromKill (heard last msg) ≠ [] := by
    rw [heard_ne_nil hne, fromKill_append hkill]
    exact fun hnil => hkill (List.append_eq_nil_iff.mp hnil).1
  have htake : (heard last msg).takeWhile (fun line => !kills line) =
      (Lines.all '\n' msg).takeWhile fun line => !kills line := by
    rw [heard_ne_nil hne, List.takeWhile_append, if_neg]
    intro hlen
    have happend := List.takeWhile_append_dropWhile (p := fun line => !kills line)
      (l := Lines.all '\n' msg)
    have hlength := congrArg List.length happend
    rw [List.length_append, hlen] at hlength
    exact hkill (List.eq_nil_of_length_eq_zero (Nat.add_eq_left.mp hlength))
  have hfresh : Fresh { s with executed := [] } := ⟨h.fullline,h.highest⟩
  obtain ⟨hexecuted, -, hnext⟩ := foldl_fresh (heard last msg) hfresh (heard_short hm)
  obtain ⟨hdead, hfullline, hhighest⟩ := hnext hheard
  have hmessage := onMessage_heard hm last s (by rw [h.fullline]; exact Nat.zero_le _)
  rw [← hmessage] at hexecuted hdead hfullline hhighest
  refine ⟨hdead,?_,hfullline,hhighest⟩
  rw [hexecuted, List.nil_append, htake, commands, takeWhile_eq_filter_iff]

theorem serve_fresh (hmsgs : ∀ msg ∈ msgs, Message msg) (h : Fresh s) :
    ((serve last msgs s).1 = msgs.map commands ∧
      (serve last msgs s).2.highest < maxLineSize) ↔ Harmless last msgs := by
  induction msgs generalizing s with
  | nil =>
    have hpos : 0 < maxLineSize := by decide
    exact iff_of_true ⟨rfl,h.highest⟩ ⟨fun m hm => absurd hm List.not_mem_nil,
      fun line hline => absurd hline List.not_mem_nil,hpos⟩
  | cons msg msgs ih =>
    have hm := hmsgs msg List.mem_cons_self
    have hrest : ∀ m ∈ msgs, Message m := fun m hm => hmsgs m (List.mem_cons_of_mem _ hm)
    rw [serve]
    dsimp only
    rw [List.map_cons, List.cons.injEq]
    cases hs : spared msg with
    | true =>
      obtain ⟨hfresh, hexecuted⟩ := serve_spared last hm h hs
      rw [hexecuted, harmless_spared hs, and_assoc, ih hrest hfresh]
    | false =>
      obtain ⟨hdead, hexecuted, hfullline, hhighest⟩ := serve_killing last hm h hs
      obtain ⟨hresults, hend⟩ := serve_dead last hrest hdead
      have hsilent : msgs.map (fun _ => []) = msgs.map commands ↔
          ∀ m ∈ msgs, ∀ line ∈ Lines.all '\n' m, kills line = true := by
        rw [List.map_inj_left]
        exact forall₂_congr fun m _ => eq_comm.trans commands_eq_nil_iff
      rw [hexecuted, hresults, hsilent, hend, hhighest, hfullline, cut_append_lt,
        harmless_killing hs, and_assoc, List.flatten_append]

end Proof

/-- Each message executes its own lines, whatever came before it, and the line
buffer is kept, if and only if the messages are harmless. -/
theorem independent_iff (last : Char) (msgs : List (List Char))
    (hmsgs : ∀ msg ∈ msgs, Message msg) : Independent last msgs ↔ Harmless last msgs :=
  serve_fresh hmsgs ⟨rfl,by decide⟩

/-- A client that sends `kill_server` silences all that comes after it. -/
theorem kill_server_silences :
    (∀ msg ∈ ["kill_server".toList,"help".toList], Message msg) ∧
      ¬Independent nul ["kill_server".toList,"help".toList] := by
  have hmsgs : ∀ msg ∈ ["kill_server".toList,"help".toList], Message msg := by
    intro msg hmsg
    rw [List.mem_cons, List.mem_singleton] at hmsg
    obtain rfl | rfl := hmsg
    · exact ⟨by decide,by decide⟩
    · exact ⟨by decide,by decide⟩
  refine ⟨hmsgs,fun h => ?_⟩
  have hharmless := (serve_fresh hmsgs ⟨rfl,by decide⟩).mp h
  exact absurd (hharmless.after "help".toList (by decide)) (by decide)

theorem independent_iff_script :
    Independent nul ["index 0\nreset".toList] ↔ Harmless nul ["index 0\nreset".toList] :=
  independent_iff nul _ fun msg hmsg => by
    rw [List.mem_singleton.mp hmsg]
    exact ⟨by decide,by decide⟩

end Pauline.ScriptThread
