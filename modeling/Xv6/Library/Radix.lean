import Xv6.Library.Sums
import Mathlib.Algebra.Order.Group.Multiset

/-! # Radix trees with tagged nodes

A tree of height `n` is indexed by `n + 1` digits, most significant first.
Interior slots are empty or hold a subtree; the slots of the bottom nodes hold
values.  Every node carries a tag, such as the address of the page it fills.
-/
namespace Xv6.Library

variable {ι τ v : Type}

/-- Radix trees of height `n`. -/
def Radix (ι τ v : Type) : ℕ → Type
  | 0 => τ × (ι → v)
  | n + 1 => τ × (ι → Option (Radix ι τ v n))

namespace Radix

/-- The tree with one node, all of whose slots are empty. -/
def empty (z : v) (a : τ) : (n : ℕ) → Radix ι τ v n
  | 0 => (a, fun _ => z)
  | _ + 1 => (a, fun _ => none)

/-- The value in the slot that the digits `d n, …, d 0` lead to. -/
def get : (n : ℕ) → Radix ι τ v n → (ℕ → ι) → Option v
  | 0, t, d => some (t.2 (d 0))
  | n + 1, t, d => (t.2 (d (n + 1))).bind fun c => get n c d

theorem get_congr {n : ℕ} (t : Radix ι τ v n) {d e : ℕ → ι} (h : ∀ l ≤ n, d l = e l) :
    get n t d = get n t e := by
  induction n with
  | zero => rw [get, get, h 0 le_rfl]
  | succ n ih =>
    rw [get, get, h (n + 1) le_rfl]
    congr 1
    funext c
    exact ih c fun l hl => h l (by omega)

variable [DecidableEq ι]

/-- Put `c` in slot `i` of the top node. -/
def graft {n : ℕ} (t : Radix ι τ v (n + 1)) (i : ι) (c : Radix ι τ v n) : Radix ι τ v (n + 1) :=
  (t.1, Function.update t.2 i (some c))

/-- Store `x` in the slot that the digits lead to, if it is there. -/
def set : (n : ℕ) → Radix ι τ v n → (ℕ → ι) → v → Radix ι τ v n
  | 0, t, d, x => (t.1, Function.update t.2 (d 0) x)
  | n + 1, t, d, x =>
    match t.2 (d (n + 1)) with
    | none => t
    | some c => graft t (d (n + 1)) (set n c d x)

theorem get_graft {n : ℕ} (t : Radix ι τ v (n + 1)) (i : ι) (c : Radix ι τ v n) (d : ℕ → ι) :
    get (n + 1) (graft t i c) d = if d (n + 1) = i then get n c d else get (n + 1) t d := by
  by_cases h : d (n + 1) = i
  · simp [get, graft, h]
  · simp [get, graft, h]

theorem graft_self {n : ℕ} (t : Radix ι τ v (n + 1)) (i : ι) (c : Radix ι τ v n)
    (h : t.2 i = some c) : graft t i c = t := by
  apply Prod.ext
  · rfl
  · exact (congrArg (Function.update t.2 i) h.symm).trans (Function.update_eq_self i t.2)

theorem get_set_self {n : ℕ} (t : Radix ι τ v n) (d : ℕ → ι) (x : v)
    (h : (get n t d).isSome) : get n (set n t d x) d = some x := by
  induction n with
  | zero => simp [get, set]
  | succ n ih =>
    cases hc : t.2 (d (n + 1)) with
    | none => simp [get, hc] at h
    | some c =>
      rw [set, hc]
      rw [get_graft, if_pos rfl]
      exact ih c (by simpa [get, hc] using h)

theorem get_set_of_ne {n : ℕ} (t : Radix ι τ v n) (d e : ℕ → ι) (x : v)
    (h : ∃ l ≤ n, d l ≠ e l) : get n (set n t d x) e = get n t e := by
  induction n with
  | zero =>
    obtain ⟨l, hl, hne⟩ := h
    have hl0 : l = 0 := by omega
    subst hl0
    simp [get, set, Ne.symm hne]
  | succ n ih =>
    cases hc : t.2 (d (n + 1)) with
    | none => rw [set, hc]
    | some c =>
      rw [set, hc]
      rw [get_graft]
      by_cases he : e (n + 1) = d (n + 1)
      · rw [if_pos he, ih c]
        · simp [get, he, hc]
        · obtain ⟨l, hl, hne⟩ := h
          refine ⟨l, ?_, hne⟩
          by_contra hgt
          have : l = n + 1 := by omega
          exact hne (this ▸ he.symm)
      · rw [if_neg he]

def tag : (n : ℕ) → Radix ι τ v n → τ
  | 0, t => t.1
  | _ + 1, t => t.1

theorem tag_set {n : ℕ} (t : Radix ι τ v n) (d : ℕ → ι) (x : v) : tag n (set n t d x) = tag n t := by
  cases n with
  | zero => rfl
  | succ n =>
    rw [set]
    split <;> rfl

variable [Fintype ι]

def tags : (n : ℕ) → Radix ι τ v n → Multiset τ
  | 0, t => {t.1}
  | n + 1, t => {t.1} + ∑ i, (t.2 i).elim 0 (tags n)

omit [DecidableEq ι] in
theorem tags_zero (t : Radix ι τ v 0) : tags 0 t = {t.1} := rfl

omit [DecidableEq ι] in
theorem tags_succ {n : ℕ} (t : Radix ι τ v (n + 1)) :
    tags (n + 1) t = {t.1} + ∑ i, (t.2 i).elim 0 (tags n) := rfl

omit [DecidableEq ι] in
@[simp] theorem tags_empty (z : v) (a : τ) (n : ℕ) : tags n (empty z a n : Radix ι τ v n) = {a} := by
  cases n <;> simp [tags, empty]

/-- Replacing a subtree exchanges its tags for those of the new one. -/
theorem tags_graft {n : ℕ} (t : Radix ι τ v (n + 1)) (i : ι) (c : Radix ι τ v n) :
    tags (n + 1) (graft t i c) + (t.2 i).elim 0 (tags n) = tags n c + tags (n + 1) t := by
  have h := sum_comp_update_add (fun o : Option (Radix ι τ v n) => o.elim 0 (tags n)) t.2 i (some c)
  simp only [Option.elim_some] at h
  simp only [tags, graft]
  rw [add_assoc, h]
  abel

theorem tags_set {n : ℕ} (t : Radix ι τ v n) (d : ℕ → ι) (x : v) :
    tags n (set n t d x) = tags n t := by
  induction n with
  | zero => rfl
  | succ n ih =>
    cases hc : t.2 (d (n + 1)) with
    | none => rw [set, hc]
    | some c =>
      rw [set, hc]
      have h := tags_graft t (d (n + 1)) (set n c d x)
      rw [ih c, hc, Option.elim_some, add_comm] at h
      exact add_left_cancel h

/-! ## Nodes -/

/-- The tag of the bottom node that the digits lead to. -/
def bottom : (n : ℕ) → Radix ι τ v n → (ℕ → ι) → Option τ
  | 0, t, _ => some t.1
  | n + 1, t, d => (t.2 (d (n + 1))).bind fun c => bottom n c d

/-- The tags of the nodes below the slots of the top node other than `i`. -/
def branches {n : ℕ} (t : Radix ι τ v (n + 1)) (i : ι) : Multiset τ :=
  ∑ j ∈ Finset.univ.erase i, (t.2 j).elim 0 (tags n)

/-- The tags of all nodes but those below slot `i` of the top node. -/
def beside {n : ℕ} (t : Radix ι τ v (n + 1)) (i : ι) : Multiset τ := {t.1} + branches t i

omit [DecidableEq ι] in
theorem tag_mem_tags {n : ℕ} (t : Radix ι τ v n) : tag n t ∈ tags n t := by
  cases n with
  | zero => exact Multiset.mem_singleton_self _
  | succ n => exact Multiset.mem_add.mpr (Or.inl (Multiset.mem_singleton_self _))

theorem tag_mem_beside {n : ℕ} (t : Radix ι τ v (n + 1)) (i : ι) : t.1 ∈ beside t i :=
  Multiset.mem_add.mpr (Or.inl (Multiset.mem_singleton_self _))

theorem tags_eq_add_beside {n : ℕ} (t : Radix ι τ v (n + 1)) (i : ι) :
    tags (n + 1) t = (t.2 i).elim 0 (tags n) + beside t i := by
  rw [tags, beside, branches, ← Finset.add_sum_erase _ _ (Finset.mem_univ i)]
  abel

theorem beside_graft {n : ℕ} (t : Radix ι τ v (n + 1)) (i : ι) (c : Radix ι τ v n) :
    beside (graft t i c) i = beside t i := by
  have hsum : branches (graft t i c) i = branches t i := by
    refine Finset.sum_congr rfl fun j hj => ?_
    simp [graft, Finset.ne_of_mem_erase hj]
  rw [beside, beside, hsum]
  rfl

theorem tags_graft_eq {n : ℕ} (t : Radix ι τ v (n + 1)) (i : ι) (c : Radix ι τ v n) :
    tags (n + 1) (graft t i c) = tags n c + beside t i := by
  have hself : (graft t i c).2 i = some c := Function.update_self _ _ _
  rw [tags_eq_add_beside _ i, beside_graft, hself, Option.elim_some]

/-- Another subtree of the top node is among the branches. -/
theorem tags_le_branches {n : ℕ} (t : Radix ι τ v (n + 1)) {i j : ι} (hne : j ≠ i)
    {c : Radix ι τ v n} (hc : t.2 j = some c) : tags n c ≤ branches t i := by
  have h := Finset.single_le_sum (f := fun j => (t.2 j).elim 0 (tags n))
    (fun _ _ => Multiset.zero_le _) (Finset.mem_erase.mpr ⟨hne, Finset.mem_univ j⟩)
  simp only [hc, Option.elim_some] at h
  exact h

theorem branches_le_beside {n : ℕ} (t : Radix ι τ v (n + 1)) (i : ι) :
    branches t i ≤ beside t i := Multiset.le_add_left _ _

omit [Fintype ι] in
theorem bottom_graft {n : ℕ} (t : Radix ι τ v (n + 1)) (c : Radix ι τ v n) (d : ℕ → ι) :
    bottom (n + 1) (graft t (d (n + 1)) c) d = bottom n c d := by
  simp [bottom, graft]

omit [Fintype ι] [DecidableEq ι] in
theorem bottom_isSome {n : ℕ} (t : Radix ι τ v n) (d : ℕ → ι) :
    (bottom n t d).isSome = (get n t d).isSome := by
  induction n with
  | zero => rfl
  | succ n ih =>
    cases hc : t.2 (d (n + 1)) with
    | none => simp [bottom, get, hc]
    | some c => simp [bottom, get, hc, ih c]

theorem mem_tags_of_bottom {n : ℕ} {t : Radix ι τ v n} {d : ℕ → ι} {a : τ}
    (h : bottom n t d = some a) : a ∈ tags n t := by
  induction n with
  | zero =>
    cases h
    exact Multiset.mem_singleton_self _
  | succ n ih =>
    obtain ⟨c, hc, hb⟩ := Option.bind_eq_some_iff.mp h
    rw [tags_eq_add_beside t (d (n + 1)), hc]
    exact Multiset.mem_add.mpr (Or.inl (ih hb))

/-- When no two nodes have the same tag, a bottom node determines the digits above it. -/
theorem bottom_inj {n : ℕ} {t : Radix ι τ v n} (hnodup : (tags n t).Nodup) {d e : ℕ → ι} {a : τ}
    (hd : bottom n t d = some a) (he : bottom n t e = some a) (l : ℕ) (hl : 0 < l) (hln : l ≤ n) :
    d l = e l := by
  induction n with
  | zero => omega
  | succ n ih =>
    obtain ⟨c, hc, hbc⟩ := Option.bind_eq_some_iff.mp hd
    obtain ⟨c', hc', hbc'⟩ := Option.bind_eq_some_iff.mp he
    have hsplit := tags_eq_add_beside t (d (n + 1))
    rw [hc, Option.elim_some] at hsplit
    rw [hsplit] at hnodup
    obtain ⟨hnc, -, hdis⟩ := Multiset.nodup_add.mp hnodup
    have htop : e (n + 1) = d (n + 1) := by
      by_contra hne
      have hmem := Multiset.mem_of_le ((tags_le_branches t hne hc').trans
        (branches_le_beside t _)) (mem_tags_of_bottom hbc')
      exact Multiset.disjoint_left.mp hdis (mem_tags_of_bottom hbc) hmem
    rcases Nat.lt_or_ge n l with hlt | hle
    · obtain rfl : l = n + 1 := by omega
      exact htop.symm
    · rw [htop, hc] at hc'
      cases hc'
      exact ih hnc hbc hbc' hle

-- Membership in one of these sums would otherwise be unfolded term by term.
attribute [irreducible] tags branches beside

end Radix

end Xv6.Library
