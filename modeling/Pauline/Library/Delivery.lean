import Mathlib.Data.List.Perm.Subperm
import Mathlib.Data.List.Nodup
import Mathlib.Data.List.Range
import Mathlib.Tactic

/-!
# Delivery in order, with losses

Items enter a line one after the other. Those that are not lost on the way
leave it in the order they came in.
-/

set_option autoImplicit false

structure Delivery {α : Type} (all delivered underway lost : List α) : Prop where
  in_order : (delivered ++ underway).Sublist all
  account : (delivered ++ underway ++ lost).Perm all

namespace Delivery
variable {α : Type} {all delivered underway lost : List α}

theorem nil : Delivery ([] : List α) [] [] [] := ⟨List.Sublist.refl [], List.Perm.refl []⟩

theorem move {delivered' underway' : List α} (h : Delivery all delivered underway lost)
    (hmove : delivered' ++ underway' = delivered ++ underway) :
    Delivery all delivered' underway' lost := by
  obtain ⟨hsub, hperm⟩ := h
  rw [← hmove] at hsub hperm
  exact ⟨hsub, hperm⟩

/-- The last items of the line are lost. -/
theorem lose {last : List α} (h : Delivery all delivered (underway ++ last) lost) :
    Delivery all delivered underway (lost ++ last) where
  in_order := by
    refine List.Sublist.trans ?_ h.in_order
    rw [← List.append_assoc]
    exact List.sublist_append_left _ _
  account := by
    refine List.Perm.trans ?_ h.account
    rw [← List.append_assoc delivered, List.append_assoc _ last]
    exact List.Perm.append_left _ List.perm_append_comm

theorem enter (more : List α) (h : Delivery all delivered underway lost) :
    Delivery (all ++ more) delivered (underway ++ more) lost where
  in_order := by
    rw [← List.append_assoc]
    exact h.in_order.append (List.Sublist.refl more)
  account := by
    refine List.Perm.trans ?_ (h.account.append_right more)
    rw [← List.append_assoc delivered, List.append_assoc _ more, List.append_assoc _ lost]
    exact List.Perm.append_left _ List.perm_append_comm

theorem length_eq (h : Delivery all delivered underway lost) :
    delivered.length + underway.length + lost.length = all.length := by
  have := h.account.length_eq
  rwa [List.length_append, List.length_append] at this

/-- Without losses the items delivered are the first ones. -/
theorem delivered_isPrefix (h : Delivery all delivered underway []) : delivered <+: all := by
  have hlength := h.length_eq
  rw [← h.in_order.eq_of_length (by rw [List.length_append]; exact hlength)]
  exact List.prefix_append _ _

end Delivery
