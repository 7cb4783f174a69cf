import Pauline.Library.Lines
import Pauline.Server.Messages

/-!
# The line buffer

Both threads that read commands collect a line in `fullline` and look for a
line that starts with `kill_server`.
-/

set_option autoImplicit false

namespace Pauline.LineBuffer
open Pauline.Messages

def maxLineSize : ℕ := 2048

def killServer : List Char := "kill_server".toList

def kills (line : List Char) : Bool := killServer.isPrefixOf line

def store (fullline : List Char) (c : Char) : List Char :=
  if fullline.length < maxLineSize then fullline ++ [c] else fullline

def cut (line : List Char) : List Char := line.take maxLineSize

theorem cut_of_short {line : List Char} (h : line.length ≤ maxLineSize) : cut line = line :=
  List.take_of_length_le h

theorem cut_length_le (line : List Char) : (cut line).length ≤ maxLineSize := by
  rw [cut, List.length_take]
  exact Nat.min_le_left _ _

theorem cut_store {fullline : List Char} (h : fullline.length ≤ maxLineSize) (c : Char)
    (rest : List Char) : cut (store fullline c ++ rest) = cut (fullline ++ c::rest) := by
  unfold store
  split_ifs with hroom
  · rw [List.append_assoc, List.singleton_append]
  · have hfull : fullline.length = maxLineSize := by omega
    rw [cut, cut, List.take_append_of_le_length hfull.ge, List.take_append_of_le_length hfull.ge]

theorem store_length_le {fullline : List Char} (h : fullline.length ≤ maxLineSize) (c : Char) :
    (store fullline c).length ≤ maxLineSize := by
  unfold store
  split_ifs with hroom
  · rw [List.length_append, List.length_singleton]
    omega
  · exact h

theorem cut_cut_append (first second : List Char) : cut (cut first ++ second) = cut (first ++ second) := by
  by_cases h : first.length ≤ maxLineSize
  · rw [cut_of_short h]
  · have hlen : (first.take maxLineSize).length = maxLineSize := by
      rw [List.length_take]
      omega
    rw [cut, cut, cut, List.take_append_of_le_length hlen.ge, List.take_take, Nat.min_self,
      List.take_append_of_le_length (by omega)]

theorem cut_length_lt (line : List Char) :
    (cut line).length < maxLineSize ↔ line.length < maxLineSize := by
  rw [cut, List.length_take]
  omega

theorem cut_append_lt (first second : List Char) :
    first.length < maxLineSize ∧ (cut first ++ second).length < maxLineSize ↔
      (first ++ second).length < maxLineSize := by
  by_cases h : first.length < maxLineSize
  · rw [cut_of_short h.le]
    exact and_iff_right h
  · have hlong : first.length ≤ (first ++ second).length := by
      rw [List.length_append]
      exact Nat.le_add_right _ _
    omega

theorem kills_append {line : List Char} (rest : List Char) (h : kills line = true) :
    kills (line ++ rest) = true := by
  rw [kills, List.isPrefixOf_iff_prefix] at h ⊢
  exact h.trans (List.prefix_append _ _)

theorem kills_cut (line : List Char) : kills (cut line) = kills line := by
  rw [Bool.eq_iff_iff, kills, kills, List.isPrefixOf_iff_prefix, List.isPrefixOf_iff_prefix, cut,
    List.prefix_take_iff]
  exact and_iff_left (by decide)

theorem not_kills_of_short {line : List Char} (h : line.length < killServer.length) :
    kills line = false := by
  rw [← Bool.not_eq_true, kills, List.isPrefixOf_iff_prefix]
  exact fun hp => absurd hp.length_le (by omega)

end Pauline.LineBuffer
