import Mathlib.Data.Int.Cast.Basic
import Mathlib.Tactic.Common

/-! # Copying a range of a memory

A memory gives each address a value.  Addresses are counted with wrap-around, so they form a
group.  The two loops copy a range from its first value on or from its last one on.
-/
namespace Xv6.Library

section
variable {A V : Type} [AddCommGroupWithOne A] [DecidableEq A] {mem mem' : A → V} {dst src : A} {n : ℕ}

/-- The loop `*dst++ = *src++`, `n` times. -/
def copyUp (mem : A → V) : ℕ → A → A → A → V
  | 0, _, _ => mem
  | n + 1, dst, src => copyUp (Function.update mem dst (mem src)) n (dst + 1) (src + 1)

/-- The loop `*--dst = *--src`, `n` times. -/
def copyDown (mem : A → V) : ℕ → A → A → A → V
  | 0, _, _ => mem
  | n + 1, dst, src => copyDown (Function.update mem (dst - 1) (mem (src - 1))) n (dst - 1) (src - 1)

/-- `mem'` is `mem` after the `n` values at `src` went to `dst`. -/
structure Moved (mem mem' : A → V) (dst src : A) (n : ℕ) : Prop where
  inside : ∀ i < n, mem' (dst + i) = mem (src + i)
  outside : ∀ a, (∀ i < n, a ≠ dst + i) → mem' a = mem a

/-- The `n` addresses from `a` on are different ones. -/
def Distinct (a : A) (n : ℕ) : Prop := ∀ i j : ℕ, i < j → j < n → a + i ≠ a + j

omit [DecidableEq A] in
theorem Moved.zero (mem : A → V) (dst src : A) : Moved mem mem dst src 0 :=
  ⟨fun _ h => absurd h (Nat.not_lt_zero _), fun _ _ => rfl⟩

omit [DecidableEq A] in
theorem add_one_add (a : A) (i : ℕ) : a + 1 + i = a + (i + 1 : ℕ) := by
  rw [Nat.cast_add, Nat.cast_one, add_assoc, add_comm (1 : A)]

omit [DecidableEq A] in
theorem add_succ_sub_one (a : A) (n : ℕ) : a + (n + 1 : ℕ) - 1 = a + n := by
  rw [Nat.cast_add, Nat.cast_one, ← add_assoc, add_sub_cancel_right]

/-- From the first value on: no value is overwritten before it is read. -/
theorem copyUp_moved (hd : Distinct dst n) (hs : ∀ i j : ℕ, i < j → j < n → dst + i ≠ src + j) :
    Moved mem (copyUp mem n dst src) dst src n := by
  induction n generalizing mem dst src with
  | zero => exact Moved.zero mem dst src
  | succ n ih =>
    have hrest := @ih (Function.update mem dst (mem src)) (dst + 1) (src + 1)
      (fun i j hij hj => by
        rw [add_one_add, add_one_add]
        exact hd _ _ (by omega) (by omega))
      (fun i j hij hj => by
        rw [add_one_add, add_one_add]
        exact hs _ _ (by omega) (by omega))
    have hfirst (i : ℕ) (hi : i < n) : dst ≠ dst + 1 + i := by
      have := hd 0 (i + 1) (by omega) (by omega)
      rwa [Nat.cast_zero, add_zero, ← add_one_add] at this
    rw [copyUp]
    constructor
    · intro i hi
      cases i with
      | zero =>
        rw [Nat.cast_zero, add_zero, add_zero, hrest.outside dst hfirst, Function.update_self]
      | succ i =>
        have hread : src + 1 + i ≠ dst := by
          have := hs 0 (i + 1) (by omega) hi
          rw [Nat.cast_zero, add_zero, ← add_one_add] at this
          exact this.symm
        rw [← add_one_add, ← add_one_add, hrest.inside i (by omega), Function.update_of_ne hread]
    · intro a ha
      have hne : a ≠ dst := by
        have := ha 0 (by omega)
        rwa [Nat.cast_zero, add_zero] at this
      rw [hrest.outside a fun i hi => by rw [add_one_add]; exact ha (i + 1) (by omega),
        Function.update_of_ne hne]

theorem copyDown_moved (hd : Distinct dst n) (hs : ∀ i j : ℕ, i < j → j < n → src + i ≠ dst + j) :
    Moved mem (copyDown mem n (dst + n) (src + n)) dst src n := by
  induction n generalizing mem with
  | zero => exact Moved.zero mem dst src
  | succ n ih =>
    have hrest := @ih (Function.update mem (dst + n) (mem (src + n)))
      (fun i j hij hj => hd i j hij (by omega)) (fun i j hij hj => hs i j hij (by omega))
    rw [copyDown, add_succ_sub_one, add_succ_sub_one]
    constructor
    · intro i hi
      rcases Nat.lt_succ_iff_lt_or_eq.mp hi with hi | rfl
      · rw [hrest.inside i hi, Function.update_of_ne (hs i n hi (by omega))]
      · rw [hrest.outside _ fun j hj => (hd j i hj (by omega)).symm, Function.update_self]
    · intro a ha
      rw [hrest.outside a fun i hi => ha i (by omega), Function.update_of_ne (ha n (by omega))]

end

end Xv6.Library
