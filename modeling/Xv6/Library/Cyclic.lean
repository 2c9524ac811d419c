import Mathlib.Data.List.Cycle
import Mathlib.Tactic

/-! # Rings of links

A link from each element to the next one, around a cyclic list.
-/
namespace Xv6.Library

variable {α : Type*} {next next' : α → α} {l l' : List α} {p b t z : α}

/-- The links go once around the list. -/
def Linked (next : α → α) (l : List α) : Prop :=
  Cycle.Chain (fun a b => next a = b) (l : Cycle α)

/-- The link of the last element of a chain does not matter. -/
theorem isChain_congr (h : (l ++ [z]).IsChain fun a b => next a = b)
    (heq : ∀ a ∈ l, next' a = next a) : (l ++ [z]).IsChain fun a b => next' a = b := by
  induction l with
  | nil => exact List.isChain_singleton z
  | cons a l ih =>
    rw [List.cons_append, List.isChain_cons] at h ⊢
    refine ⟨?_, ih h.2 fun b hb => heq b (List.mem_cons_of_mem _ hb)⟩
    intro y hy
    rw [heq a List.mem_cons_self]
    exact h.1 y hy

/-- Following the links of a chain comes to all of it. -/
theorem exists_iterate_of_isChain {q a : α} {zs : List α}
    (h : (q :: zs).IsChain fun a b => next a = b) (ha : a ∈ q :: zs) : ∃ k, next^[k] q = a := by
  induction zs generalizing q with
  | nil => exact ⟨0, (List.mem_singleton.mp ha).symm⟩
  | cons y zs ih =>
    rw [List.isChain_cons_cons] at h
    rcases List.mem_cons.mp ha with rfl | ha
    · exact ⟨0, rfl⟩
    · obtain ⟨k, hk⟩ := ih h.2 ha
      refine ⟨k + 1, ?_⟩
      rw [Function.iterate_succ_apply, h.1]
      exact hk

namespace Linked

theorem cons_iff :
    Linked next (p :: l) ↔ (∀ y ∈ (l ++ [p]).head?, next p = y) ∧
      (l ++ [p]).IsChain fun a b => next a = b := by
  unfold Linked
  rw [Cycle.chain_coe_cons, List.isChain_cons]

theorem isChain (h : Linked next (p :: l)) :
    (p :: (l ++ [p])).IsChain fun a b => next a = b := (Cycle.chain_coe_cons _ _ _).mp h

theorem rotate (h : Linked next (l ++ l')) : Linked next (l' ++ l) := by
  unfold Linked at *
  rwa [Cycle.coe_eq_coe.mpr List.isRotated_append]

theorem congr (h : Linked next l) (heq : ∀ a ∈ l, next' a = next a) : Linked next' l := by
  cases l with
  | nil => exact h
  | cons p l =>
    rw [cons_iff] at h ⊢
    refine ⟨?_, isChain_congr h.2 fun a ha => heq a (List.mem_cons_of_mem _ ha)⟩
    rw [heq p List.mem_cons_self]
    exact h.1

theorem next_mem (h : Linked next l) (ha : z ∈ l) : next z ∈ l := by
  obtain ⟨pre, post, rfl⟩ := List.append_of_mem ha
  have hring := (cons_iff.mp h.rotate).1
  cases hhead : (post ++ pre ++ [z]).head? with
  | none => simp at hhead
  | some y =>
    rw [hring y hhead]
    have hy := List.mem_of_mem_head? hhead
    simp only [List.mem_append, List.mem_cons, List.not_mem_nil, or_false] at hy ⊢
    tauto

/-- The links from an element of the ring lead to its elements and to nothing else. -/
theorem exists_iterate_iff (h : Linked next l) (hp : p ∈ l) : (∃ k, next^[k] p = z) ↔ z ∈ l := by
  constructor
  · rintro ⟨k, rfl⟩
    induction k with
    | zero => exact hp
    | succ k ih =>
      rw [Function.iterate_succ_apply']
      exact h.next_mem ih
  · intro hz
    obtain ⟨pre, post, rfl⟩ := List.append_of_mem hp
    have hring : Linked next (p :: (post ++ pre)) := h.rotate
    refine exists_iterate_of_isChain hring.isChain ?_
    simp only [List.mem_append, List.mem_cons, List.not_mem_nil, or_false] at hz ⊢
    tauto

section
variable [DecidableEq α]

theorem insert (h : Linked next (p :: l)) (hp : p ∉ l) (hb : b ∉ p :: l) :
    Linked (Function.update (Function.update next b (next p)) p b) (p :: b :: l) := by
  rw [List.mem_cons, not_or] at hb
  rw [cons_iff] at h ⊢
  refine ⟨?_, ?_⟩
  · rintro y hy
    cases hy
    exact Function.update_self _ _ _
  · rw [List.cons_append, List.isChain_cons]
    refine ⟨?_, isChain_congr h.2 ?_⟩
    · rw [Function.update_of_ne hb.1, Function.update_self]
      exact h.1
    · intro a ha
      rw [Function.update_of_ne (ne_of_mem_of_not_mem ha hp),
        Function.update_of_ne (ne_of_mem_of_not_mem ha hb.2)]

theorem remove (h : Linked next (p :: t :: l)) (hp : p ∉ l) :
    Linked (Function.update next p (next t)) (p :: l) := by
  rw [cons_iff, List.cons_append, List.isChain_cons] at h
  rw [cons_iff, Function.update_self]
  refine ⟨h.2.1, isChain_congr h.2.2 fun a ha => ?_⟩
  exact Function.update_of_ne (ne_of_mem_of_not_mem ha hp) _ _

end

end Linked

end Xv6.Library
