import Mathlib.Tactic
import Mathlib.Algebra.BigOperators.Group.Finset.Piecewise

/-! # Sums over a table with one changed entry -/
namespace Xv6.Library

/-- Two sums whose terms differ at `i` only exchange that one term. -/
theorem sum_add_of_eq_off {ι M : Type*} [DecidableEq ι] [AddCommMonoid M] {s : Finset ι}
    {f g : ι → M} {i : ι} (hi : i ∈ s) (h : ∀ j ∈ s, j ≠ i → g j = f j) :
    (∑ j ∈ s, g j) + f i = g i + ∑ j ∈ s, f j := by
  have hrest : ∑ j ∈ s.erase i, g j = ∑ j ∈ s.erase i, f j :=
    Finset.sum_congr rfl fun j hj => h j (Finset.mem_of_mem_erase hj) (Finset.ne_of_mem_erase hj)
  rw [← Finset.add_sum_erase s g hi, ← Finset.add_sum_erase s f hi, hrest]
  abel

variable {ι M : Type*} [Fintype ι] [DecidableEq ι] [AddCommMonoid M]

/-- Changing one entry of a table exchanges its contribution to a sum of values
computed from the entries. -/
theorem sum_comp_update_add {β : Type*} (g : β → M) (f : ι → β) (i : ι) (b : β) :
    (∑ j, g (Function.update f i b j)) + g (f i) = g b + ∑ j, g (f j) := by
  have h := sum_add_of_eq_off (s := Finset.univ) (f := fun j => g (f j))
    (g := fun j => g (Function.update f i b j)) (Finset.mem_univ i)
    (fun j _ hj => by simp [Function.update_of_ne hj])
  simpa using h

omit [AddCommMonoid M] in
/-- The same for the number of entries with a property. -/
theorem card_filter_update {β : Type*} (q : β → Bool) (f : ι → β) (i : ι) (b : β) :
    (Finset.univ.filter fun j => q (Function.update f i b j)).card + (if q (f i) then 1 else 0) =
      (Finset.univ.filter fun j => q (f j)).card + if q b then 1 else 0 := by
  have h := sum_comp_update_add (fun x => if q x then 1 else 0) f i b
  simp only [Finset.card_filter]
  omega

end Xv6.Library
