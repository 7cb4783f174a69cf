import Pauline.Control.CommandLine
import Pauline.Server.Messages

/-!
# Printing to the clients

`msg_printf` puts a severity before a text and a carriage return before each of
its newlines. `print_socket` does the latter once more for the clients of a
socket; a web client gets the message as it is.
-/

set_option autoImplicit false

namespace Pauline.Printing
open Pauline.CommandLine Pauline.Messages

inductive MsgType where
  | none | info0 | info1 | warning | error | debug
deriving DecidableEq

def MsgType.severity : MsgType → List Char
  | .none => []
  | .info0 => "OK : ".toList
  | .info1 => "OK : ".toList
  | .warning => "WARNING : ".toList
  | .error => "ERROR : ".toList
  | .debug => "DEBUG : ".toList

def expand : List Char → List Char
  | [] => []
  | c::temp => if c = '\n' then '\r' :: '\n' :: expand temp else c::expand temp

def msgPrintf (type : MsgType) (temp : List Char) : Option (List Char) :=
  if type ≠ .debug then some (type.severity ++ expand temp) else none

def printSocket (temp str : List Char) : List Char :=
  expand (cString (strncpy (defaultBufLen - 1) str ++ temp.drop (defaultBufLen - 1)))

def networkTxthread (msg temp : List Char) (b : MsgBuffer) : List Char :=
  printSocket temp (b.copyMsg msg)

def websocketTxthread (msg : List Char) (b : MsgBuffer) : List Char := cString (b.copyMsg msg)

/-! ## What is asked -/

structure Fits (type : MsgType) (text : List Char) : Prop where
  temp : text.length < maxMessagesSize
  textbuf : (type.severity ++ expand text).length < maxMessagesSize
  socket : (expand (type.severity ++ expand text)).length < defaultBufLen

instance (type : MsgType) (text : List Char) : Decidable (Fits type text) :=
  decidable_of_iff (text.length < maxMessagesSize ∧
      (type.severity ++ expand text).length < maxMessagesSize ∧
      (expand (type.severity ++ expand text)).length < defaultBufLen)
    ⟨fun h => ⟨h.1,h.2.1,h.2.2⟩,fun h => ⟨h.temp,h.textbuf,h.socket⟩⟩

structure Next (m : List Char) (b : MsgBuffer) : Prop where
  valid : b.ring.Valid
  head : b.pending.head? = some (entry m)

def encoded (type : MsgType) (text : List Char) : List Char :=
  type.severity ++ text.flatMap fun c => if c = '\n' then ['\r','\n'] else [c]

structure Agree (type : MsgType) (text : List Char) : Prop where
  socket : ∀ m ∈ msgPrintf type text, ∀ (b : MsgBuffer) (msg temp : List Char),
    msg.length = maxMessagesSize → temp.length = defaultBufLen → Next m b →
      networkTxthread msg temp b = encoded type text
  web : ∀ m ∈ msgPrintf type text, ∀ (b : MsgBuffer) (msg : List Char),
    msg.length = maxMessagesSize → Next m b → websocketTxthread msg b = encoded type text

/-! ## Newlines -/

theorem expand_append (s t : List Char) : expand (s ++ t) = expand s ++ expand t := by
  induction s with
  | nil => rfl
  | cons c s ih =>
    rw [List.cons_append, expand, expand, ih]
    split_ifs <;> rfl

theorem expand_length (s : List Char) : (expand s).length = s.length + s.count '\n' := by
  induction s with
  | nil => rfl
  | cons c s ih =>
    rw [expand, List.count_cons]
    split_ifs with hc <;> simp_all <;> omega

theorem expand_plain {s : List Char} (h : '\n' ∉ s) : expand s = s := by
  induction s with
  | nil => rfl
  | cons c s ih =>
    rw [List.mem_cons, not_or] at h
    rw [expand, if_neg (Ne.symm h.1), ih h.2]

theorem expand_eq_self_iff (s : List Char) : expand s = s ↔ '\n' ∉ s := by
  refine ⟨fun h => ?_,expand_plain⟩
  have hlength := expand_length s
  rw [h] at hlength
  exact List.count_eq_zero.mp (by omega)

theorem mem_expand_of_mem {s : List Char} {c : Char} (h : c ∈ s) : c ∈ expand s := by
  induction s with
  | nil => cases h
  | cons d s ih =>
    rw [expand]
    rcases List.mem_cons.mp h with rfl | hs
    · split_ifs with hc
      · rw [hc]
        exact List.mem_cons_of_mem _ List.mem_cons_self
      · exact List.mem_cons_self
    · split_ifs
      · exact List.mem_cons_of_mem _ (List.mem_cons_of_mem _ (ih hs))
      · exact List.mem_cons_of_mem _ (ih hs)

theorem nul_notMem_expand {s : List Char} (h : nul ∉ s) : nul ∉ expand s := by
  induction s with
  | nil => exact h
  | cons c s ih =>
    rw [List.mem_cons, not_or] at h
    rw [expand]
    split_ifs
    · simp only [List.mem_cons, not_or]
      exact ⟨by decide,by decide,ih h.2⟩
    · rw [List.mem_cons, not_or]
      exact ⟨h.1,ih h.2⟩

theorem expand_eq_flatMap (s : List Char) :
    expand s = s.flatMap fun c => if c = '\n' then ['\r','\n'] else [c] := by
  induction s with
  | nil => rfl
  | cons c s ih =>
    rw [expand, List.flatMap_cons, ← ih]
    split_ifs <;> rfl

theorem encoded_eq (type : MsgType) (text : List Char) :
    encoded type text = type.severity ++ expand text := by
  rw [encoded, expand_eq_flatMap]

theorem nul_notMem_severity (type : MsgType) : nul ∉ type.severity := by
  cases type <;> decide

theorem nul_notMem_encoded (type : MsgType) {text : List Char} (h : nul ∉ text) :
    nul ∉ encoded type text := by
  rw [encoded_eq, List.mem_append]
  exact not_or.mpr ⟨nul_notMem_severity type,nul_notMem_expand h⟩

theorem newline_notMem_severity (type : MsgType) : '\n' ∉ type.severity := by
  cases type <;> decide

/-! ## The way to a client -/

theorem strncpy_cString {s t : List Char} (size : ℕ) (h : cString s = cString t) :
    strncpy size s = strncpy size t := by
  rw [strncpy, strncpy, h]

/-- Behind a short text there is a 0. -/
theorem cString_strncpy_short {s : List Char} (hnul : nul ∉ s) {size : ℕ} (h : s.length < size)
    (rest : List Char) : cString (strncpy size s ++ rest) = s := by
  obtain ⟨k, hk⟩ : ∃ k, size - s.length = k+1 := ⟨size-s.length-1,by omega⟩
  rw [strncpy, cString_eq_self hnul, hk, List.replicate_succ, List.take_of_length_le h.le,
    List.append_assoc, List.cons_append]
  exact cString_append_nul s _ hnul

/-- Behind a text that takes all places there is what was there before. -/
theorem cString_strncpy_full {s : List Char} (hnul : nul ∉ s) {last : Char} (hlast : last ≠ nul) :
    cString (strncpy s.length s ++ [last]) = s ++ [last] := by
  rw [strncpy, cString_eq_self hnul, Nat.sub_self, List.replicate_zero, List.append_nil,
    List.take_length]
  refine cString_eq_self fun h => ?_
  rw [List.mem_append, List.mem_singleton] at h
  exact h.elim hnul fun h => hlast h.symm

theorem Next.place {m : List Char} {b : MsgBuffer} (h : Next m b) :
    b.messages b.out_index = entry m := by
  have hne : b.out_index ≠ b.in_index := fun heq => by
    have hhead := h.head
    rw [(pending_eq_nil_iff b h.valid).mpr heq] at hhead
    cases hhead
  have hhead := h.head
  rw [pending_dropMsg b h.valid hne] at hhead
  exact Option.some.inj hhead

theorem Next.copyMsg {m : List Char} {b : MsgBuffer} (h : Next m b) (msg : List Char) :
    b.copyMsg msg = strncpy (maxMessagesSize - 1) m ++ msg.drop (maxMessagesSize - 1) := by
  rw [MsgBuffer.copyMsg, h.place, strncpy_entry]

theorem web_short {m msg : List Char} {b : MsgBuffer} (h : Next m b) (hnul : nul ∉ m)
    (hlength : m.length < maxMessagesSize - 1) : websocketTxthread msg b = m := by
  rw [websocketTxthread, h.copyMsg]
  exact cString_strncpy_short hnul hlength _

theorem socket_short {m msg temp : List Char} {b : MsgBuffer} (h : Next m b) (hnul : nul ∉ m)
    (hlength : m.length < maxMessagesSize - 1) : networkTxthread msg temp b = expand m := by
  have hread : cString (b.copyMsg msg) = cString m := by
    rw [h.copyMsg, cString_strncpy_short hnul hlength, cString_eq_self hnul]
  rw [networkTxthread, printSocket, strncpy_cString _ hread]
  exact congrArg expand (cString_strncpy_short hnul hlength _)

def opened : MsgBuffer := ⟨true,0,0,fun _ => [],⟨false,false⟩⟩

theorem opened_valid : opened.ring.Valid := ⟨by decide,by decide⟩

theorem opened_next (m : List Char) : Next m (opened.putMsg m) where
  valid := by
    rw [ring_putMsg m opened opened_valid]
    exact CircularBuffer.push_valid opened_valid _
  head := by
    have hempty : opened.pending = [] := (pending_eq_nil_iff opened opened_valid).mpr rfl
    rw [pending_putMsg m opened opened_valid, hempty]
    rfl

/-! ## The encoding -/

theorem msgPrintf_mem {type : MsgType} {text m : List Char} :
    m ∈ msgPrintf type text ↔ type ≠ .debug ∧ m = encoded type text := by
  rw [msgPrintf, encoded_eq, Option.mem_def]
  split_ifs with h
  · rw [Option.some.injEq]
    exact ⟨fun heq => ⟨h,heq.symm⟩,fun heq => heq.2.symm⟩
  · constructor
    · intro heq
      cases heq
    · exact fun heq => absurd heq.1 h

theorem agree_short {type : MsgType} {text : List Char} (hnul : nul ∉ text) (hplain : '\n' ∉ text)
    (hlength : (type.severity ++ text).length < maxMessagesSize - 1) : Agree type text := by
  have henc : encoded type text = type.severity ++ text := by rw [encoded_eq, expand_plain hplain]
  have hterm := nul_notMem_encoded type hnul
  have hshort : (encoded type text).length < maxMessagesSize - 1 := by rw [henc]; exact hlength
  have hexpand : expand (encoded type text) = encoded type text := by
    refine expand_plain fun hin => ?_
    rw [henc, List.mem_append] at hin
    exact hin.elim (newline_notMem_severity type) hplain
  constructor
  · intro m hm b msg temp _ _ hnext
    obtain ⟨-, rfl⟩ := msgPrintf_mem.mp hm
    exact (socket_short hnext hterm hshort).trans hexpand
  · intro m hm b msg _ hnext
    obtain ⟨-, rfl⟩ := msgPrintf_mem.mp hm
    exact web_short hnext hterm hshort

/-- A message of all the places but one runs into what the array held before. -/
theorem Agree.length_ne {type : MsgType} {text : List Char} (h : Agree type text)
    (htype : type ≠ .debug) (hnul : nul ∉ text) :
    (encoded type text).length ≠ maxMessagesSize - 1 := fun hlength => by
  have hnext := opened_next (encoded type text)
  have hweb := h.web _ (msgPrintf_mem.mpr ⟨htype,rfl⟩) _ (List.replicate maxMessagesSize 'x')
    List.length_replicate hnext
  have hlast : (List.replicate maxMessagesSize 'x').drop (maxMessagesSize - 1) = ['x'] := by
    rw [List.drop_replicate]
    rfl
  rw [websocketTxthread, hnext.copyMsg, hlast, ← hlength,
    cString_strncpy_full (nul_notMem_encoded type hnul) (by decide)] at hweb
  have hmore := congrArg List.length hweb
  rw [List.length_append, List.length_singleton] at hmore
  omega

theorem Agree.plain {type : MsgType} {text : List Char} (h : Agree type text)
    (htype : type ≠ .debug) (hnul : nul ∉ text)
    (hlength : (encoded type text).length < maxMessagesSize - 1) : '\n' ∉ text := fun hin => by
  have hsocket := h.socket _ (msgPrintf_mem.mpr ⟨htype,rfl⟩) _ (List.replicate maxMessagesSize 'x')
    (List.replicate defaultBufLen 'x') List.length_replicate List.length_replicate
    (opened_next (encoded type text))
  rw [socket_short (opened_next _) (nul_notMem_encoded type hnul) hlength,
    expand_eq_self_iff, encoded_eq] at hsocket
  exact hsocket (List.mem_append_right _ (mem_expand_of_mem hin))

/-- Clients of both kinds get the same of a text exactly when it has no newline
and leaves a place for the last 0 of the copy. -/
theorem agree_iff (type : MsgType) (text : List Char) (hnul : nul ∉ text) (hfits : Fits type text) :
    Agree type text ↔ type = .debug ∨
      '\n' ∉ text ∧ (type.severity ++ text).length < maxMessagesSize - 1 := by
  constructor
  · intro h
    by_cases htype : type = .debug
    · exact Or.inl htype
    · have hroom := hfits.textbuf
      have hne := h.length_ne htype hnul
      rw [encoded_eq] at hne
      have hplain := h.plain htype hnul (by rw [encoded_eq]; omega)
      rw [expand_plain hplain] at hroom hne
      exact Or.inr ⟨hplain,by omega⟩
  · rintro (rfl | ⟨hplain, hlength⟩)
    · exact ⟨fun m hm => absurd rfl (msgPrintf_mem.mp hm).1,
        fun m hm => absurd rfl (msgPrintf_mem.mp hm).1⟩
    · exact agree_short hnul hplain hlength

theorem agree_iff_ready : Agree .info0 "Ready".toList :=
  (agree_iff .info0 "Ready".toList (by decide) (by decide)).mpr (Or.inr ⟨by decide,by decide⟩)

/-- A client of a socket gets two carriage returns before a newline. -/
theorem newline_doubled : ∃ text, nul ∉ text ∧ Fits .info0 text ∧ ¬Agree .info0 text := by
  refine ⟨"Done...\n".toList,by decide,by decide,fun h => ?_⟩
  exact h.plain (by decide) (by decide) (by decide) (by decide)

end Pauline.Printing
