import Mathlib.Tactic
import Mathlib.Data.Multiset.Count
import Mathlib.Algebra.Order.Group.Multiset

/-! # Counted references to allocated resources

A resource is free or carries a count.  The references that the rest of a
program holds form a multiset, and the counts are exact when they are the
multiplicities of that multiset.
-/
namespace Xv6.Library.RefCount

variable {α : Type*} [DecidableEq α]

/-- The free list and the counts describe exactly the references `refs`. -/
structure Exact (valid : α → Prop) (free : List α) (cnt : α → ℤ) (refs : Multiset α) : Prop where
  count_eq : ∀ a, valid a → cnt a = refs.count a
  mem_free : ∀ a, a ∈ free ↔ valid a ∧ a ∉ refs
  nodup : free.Nodup
  valid_of_mem : ∀ a ∈ refs, valid a

variable {valid : α → Prop} {free : List α} {cnt cnt' : α → ℤ} {refs : Multiset α}

/-- Taking the head of the free list and counting it creates one reference to
a resource that nothing referred to. -/
theorem Exact.alloc {a : α} (h : Exact valid (a :: free) cnt refs) (hself : cnt' a = cnt a + 1)
    (hother : ∀ b, valid b → b ≠ a → cnt' b = cnt b) :
    Exact valid free cnt' (a ::ₘ refs) := by
  obtain ⟨hva, hnot⟩ := (h.mem_free a).mp List.mem_cons_self
  obtain ⟨hafree, hnodup⟩ := List.nodup_cons.mp h.nodup
  refine ⟨?_, ?_, hnodup, ?_⟩
  · intro b hb
    by_cases hba : b = a
    · subst hba
      rw [hself, h.count_eq b hb, Multiset.count_cons_self]
      push_cast
      ring
    · rw [hother b hb hba, h.count_eq b hb, Multiset.count_cons_of_ne hba]
  · intro b
    have hb := h.mem_free b
    rw [List.mem_cons] at hb
    rw [Multiset.mem_cons]
    by_cases hba : b = a
    · subst hba
      exact iff_of_false hafree (fun hc => hc.2 (Or.inl rfl))
    · simpa [hba] using hb
  · intro b hb
    rcases Multiset.mem_cons.mp hb with rfl | hb
    · exact hva
    · exact h.valid_of_mem b hb

theorem Exact.not_mem_of_free {a : α} (h : Exact valid free cnt refs) (ha : a ∈ free) :
    a ∉ refs := ((h.mem_free a).mp ha).2

theorem Exact.perm {free' : List α} (h : Exact valid free cnt refs) (hp : free.Perm free') :
    Exact valid free' cnt refs :=
  ⟨h.count_eq, fun a => hp.mem_iff.symm.trans (h.mem_free a), hp.nodup_iff.1 h.nodup,
    h.valid_of_mem⟩

/-- Counting a resource once more creates a second reference to it. -/
theorem Exact.retain {a : α} (h : Exact valid free cnt refs) (ha : a ∈ refs)
    (hself : cnt' a = cnt a + 1) (hother : ∀ b, valid b → b ≠ a → cnt' b = cnt b) :
    Exact valid free cnt' (a ::ₘ refs) := by
  refine ⟨?_, ?_, h.nodup, ?_⟩
  · intro b hb
    by_cases hba : b = a
    · subst hba
      rw [hself, h.count_eq b hb, Multiset.count_cons_self]
      push_cast
      ring
    · rw [hother b hb hba, h.count_eq b hb, Multiset.count_cons_of_ne hba]
  · intro b
    rw [h.mem_free b, Multiset.mem_cons]
    by_cases hba : b = a
    · subst hba
      simp [ha]
    · simp [hba]
  · intro b hb
    rcases Multiset.mem_cons.mp hb with rfl | hb
    · exact h.valid_of_mem b ha
    · exact h.valid_of_mem b hb

/-- Dropping a reference that is not the last keeps the resource allocated. -/
theorem Exact.release {a : α} (h : Exact valid free cnt (a ::ₘ refs)) (hself : cnt' a = cnt a - 1)
    (hother : ∀ b, valid b → b ≠ a → cnt' b = cnt b) (hmore : cnt' a ≠ 0) :
    Exact valid free cnt' refs := by
  have hva := h.valid_of_mem a (Multiset.mem_cons_self a refs)
  have hcount : cnt' a = refs.count a := by
    rw [hself, h.count_eq a hva, Multiset.count_cons_self]
    push_cast
    ring
  have hmem : a ∈ refs := by
    rw [hcount] at hmore
    exact Multiset.count_pos.mp (by omega)
  refine ⟨?_, ?_, h.nodup, fun b hb => h.valid_of_mem b (Multiset.mem_cons_of_mem hb)⟩
  · intro b hb
    by_cases hba : b = a
    · subst hba
      exact hcount
    · rw [hother b hb hba, h.count_eq b hb, Multiset.count_cons_of_ne hba]
  · intro b
    rw [h.mem_free b, Multiset.mem_cons]
    by_cases hba : b = a
    · subst hba
      simp [hmem]
    · simp [hba]

theorem Exact.release_last {a : α} (h : Exact valid free cnt (a ::ₘ refs))
    (hself : cnt' a = cnt a - 1) (hother : ∀ b, valid b → b ≠ a → cnt' b = cnt b)
    (hlast : cnt' a = 0) : Exact valid (a :: free) cnt' refs := by
  have hva := h.valid_of_mem a (Multiset.mem_cons_self a refs)
  have hcount : cnt' a = refs.count a := by
    rw [hself, h.count_eq a hva, Multiset.count_cons_self]
    push_cast
    ring
  have hnot : a ∉ refs := by
    rw [hlast] at hcount
    exact Multiset.count_eq_zero.mp (by omega)
  have hfree : a ∉ free := fun ha => ((h.mem_free a).mp ha).2 (Multiset.mem_cons_self a refs)
  refine ⟨?_, ?_, List.nodup_cons.mpr ⟨hfree, h.nodup⟩,
    fun b hb => h.valid_of_mem b (Multiset.mem_cons_of_mem hb)⟩
  · intro b hb
    by_cases hba : b = a
    · subst hba
      exact hcount
    · rw [hother b hb hba, h.count_eq b hb, Multiset.count_cons_of_ne hba]
  · intro b
    rw [List.mem_cons, h.mem_free b, Multiset.mem_cons]
    by_cases hba : b = a
    · subst hba
      simp [hva, hnot]
    · simp [hba]

/-! ## Sharing -/

/-- Going from `refs` to `refs'` gives no resource a second reference. -/
def NoNewSharing (refs refs' : Multiset α) : Prop := ∀ a, refs'.count a ≤ max (refs.count a) 1

namespace NoNewSharing

variable {refs refs' refs'' : Multiset α}

theorem of_le (h : refs' ≤ refs) : NoNewSharing refs refs' := by
  intro a
  have := Multiset.le_iff_count.mp h a
  omega

theorem refl (refs : Multiset α) : NoNewSharing refs refs := of_le le_rfl

theorem trans (h : NoNewSharing refs refs') (h' : NoNewSharing refs' refs'') :
    NoNewSharing refs refs'' := by
  intro a
  have h1 := h a
  have h2 := h' a
  omega

theorem cons {a : α} (ha : a ∉ refs) : NoNewSharing refs (a ::ₘ refs) := by
  intro b
  rw [Multiset.count_cons]
  split
  · next hb =>
    rw [hb, Multiset.count_eq_zero.mpr ha]
    omega
  · omega

/-- A resource with at most one reference before, and some reference after,
has exactly one reference after. -/
theorem count_eq_one {a : α} (h : NoNewSharing refs refs') (hle : refs.count a ≤ 1)
    (hmem : a ∈ refs') : refs'.count a = 1 := by
  have h1 := h a
  have h2 := Multiset.count_pos.mpr hmem
  omega

end NoNewSharing

end Xv6.Library.RefCount
