import Mathlib.Data.List.ReduceOption
import Mathlib.Data.List.Nodup
import Mathlib.Logic.Function.Basic

/-! # Tables of slots

A finite map that is kept in a list of slots, some of them free.  The bindings are those in the
slots in use, in any order; no key has two of them.
-/
namespace Xv6.Library

/-! ## Filling and clearing a slot -/

section
variable {α : Type*} {t : List (Option α)} {i : ℕ} {x : α}

/-- Put `x` into slot `i`, which may be one past the end. -/
def fillSlot (t : List (Option α)) (i : ℕ) (x : α) : List (Option α) :=
  t.take i ++ some x :: t.drop (i + 1)

def clearSlot (t : List (Option α)) (i : ℕ) : List (Option α) :=
  t.take i ++ none :: t.drop (i + 1)

theorem take_cons_drop {y : Option α} (h : t[i]? = some y) : t = t.take i ++ y :: t.drop (i + 1) := by
  obtain ⟨hlt, rfl⟩ := List.getElem?_eq_some_iff.mp h
  rw [← List.drop_eq_getElem_cons hlt, List.take_append_drop]

theorem getElem?_replace_of_ne (y : Option α) (hi : i ≤ t.length) {j : ℕ} (hj : j ≠ i) :
    (t.take i ++ y :: t.drop (i + 1))[j]? = t[j]? := by
  have hlen : (t.take i).length = i := List.length_take_of_le hi
  rcases Nat.lt_or_gt_of_ne hj with hlt | hgt
  · rw [List.getElem?_append_left (by omega), List.getElem?_take, if_pos hlt]
  · rw [List.getElem?_append_right (by omega), hlen, show j - i = (j - (i + 1)) + 1 by omega,
      List.getElem?_cons_succ, List.getElem?_drop, show i + 1 + (j - (i + 1)) = j by omega]

theorem getElem?_fillSlot_of_ne (hi : i ≤ t.length) {j : ℕ} (hj : j ≠ i) :
    (fillSlot t i x)[j]? = t[j]? :=
  getElem?_replace_of_ne _ hi hj

theorem getElem?_clearSlot_of_ne (hi : i ≤ t.length) {j : ℕ} (hj : j ≠ i) :
    (clearSlot t i)[j]? = t[j]? :=
  getElem?_replace_of_ne _ hi hj

theorem fillSlot_perm (h : t[i]? = some none ∨ i = t.length) (x : α) :
    (fillSlot t i x).reduceOption.Perm (x :: t.reduceOption) := by
  have hsplit : t.reduceOption = (t.take i).reduceOption ++ (t.drop (i + 1)).reduceOption := by
    rcases h with h | rfl
    · conv_lhs => rw [take_cons_drop h]
      rw [List.reduceOption_append, List.reduceOption_cons_of_none]
    · rw [List.take_length, List.drop_eq_nil_of_le (Nat.le_succ _), List.reduceOption_nil,
        List.append_nil]
  unfold fillSlot
  rw [List.reduceOption_append, List.reduceOption_cons_of_some, hsplit]
  exact List.perm_middle

theorem clearSlot_perm (h : t[i]? = some (some x)) :
    t.reduceOption.Perm (x :: (clearSlot t i).reduceOption) := by
  conv_lhs => rw [take_cons_drop h]
  unfold clearSlot
  rw [List.reduceOption_append, List.reduceOption_append, List.reduceOption_cons_of_some,
    List.reduceOption_cons_of_none]
  exact List.perm_middle

theorem mem_bindings_of_slot (h : t[i]? = some (some x)) : x ∈ t.reduceOption :=
  List.reduceOption_mem_iff.mpr (List.mem_of_getElem? h)

theorem exists_slot (h : x ∈ t.reduceOption) : ∃ i : ℕ, t[i]? = some (some x) :=
  List.mem_iff_getElem?.mp (List.reduceOption_mem_iff.mp h)

end

/-! ## The map -/

section
variable {κ ν : Type*} [DecidableEq κ] {l l' : List (κ × ν)} {k : κ} {v : ν}

def valueOf (l : List (κ × ν)) (k : κ) : Option ν := (l.find? (·.1 = k)).map (·.2)

/-- No key has two bindings. -/
def Keyed (l : List (κ × ν)) : Prop := (l.map (·.1)).Nodup

omit [DecidableEq κ] in
theorem Keyed.perm (h : Keyed l) (hp : l.Perm l') : Keyed l' :=
  (hp.map _).nodup_iff.mp h

omit [DecidableEq κ] in
theorem Keyed.value_unique {v' : ν} (h : Keyed l) (hv : (k, v) ∈ l) (hv' : (k, v') ∈ l) : v = v' :=
  (Prod.ext_iff.mp (List.inj_on_of_nodup_map h hv hv' rfl)).2

theorem mem_of_valueOf (hv : valueOf l k = some v) : (k, v) ∈ l := by
  obtain ⟨⟨k', v'⟩, hfind, rfl⟩ := Option.map_eq_some_iff.mp hv
  have hk : k' = k := by simpa using List.find?_some hfind
  rw [← hk]
  exact List.mem_of_find?_eq_some hfind

theorem valueOf_eq_some (h : Keyed l) : valueOf l k = some v ↔ (k, v) ∈ l := by
  refine ⟨mem_of_valueOf, fun hmem => ?_⟩
  unfold valueOf
  · cases hfind : l.find? (·.1 = k) with
    | none =>
      have := List.find?_eq_none.mp hfind _ hmem
      simp at this
    | some x =>
      have hk : x.1 = k := by simpa using List.find?_some hfind
      have hx : (k, x.2) ∈ l := by
        rw [← hk]
        exact List.mem_of_find?_eq_some hfind
      rw [Option.map_some, h.value_unique hx hmem]

theorem valueOf_eq_none : valueOf l k = none ↔ ∀ v, (k, v) ∉ l := by
  unfold valueOf
  rw [Option.map_eq_none_iff, List.find?_eq_none]
  constructor
  · intro h v hv
    exact h _ hv (by simp)
  · rintro h ⟨k', v⟩ hx hk
    have : k' = k := by simpa using hk
    exact h v (this ▸ hx)

theorem valueOf_perm (h : Keyed l) (hp : l.Perm l') : valueOf l' = valueOf l := by
  funext k
  apply Option.ext
  intro v
  rw [valueOf_eq_some h, valueOf_eq_some (h.perm hp), hp.mem_iff]

theorem valueOf_cons (k : κ) (v : ν) (l : List (κ × ν)) :
    valueOf ((k, v) :: l) = Function.update (valueOf l) k (some v) := by
  funext k'
  unfold valueOf
  by_cases h : k = k'
  · subst h
    rw [Function.update_self, List.find?_cons_of_pos (by simp), Option.map_some]
  · rw [Function.update_of_ne (Ne.symm h), List.find?_cons_of_neg (by simpa using h)]

theorem find?_eq_valueOf {ι : Type*} {b : ι → Option (κ × ν)} {wanted : ι → Bool} {value : ι → ν}
    (h : ∀ i v, wanted i = true ∧ value i = v ↔ b i = some (k, v)) (is : List ι) :
    (is.find? wanted).map value = valueOf ((is.map b).reduceOption) k := by
  induction is with
  | nil => rfl
  | cons i is ih =>
    rw [List.map_cons]
    by_cases hi : wanted i = true
    · rw [(h i (value i)).mp ⟨hi, rfl⟩, List.reduceOption_cons_of_some, valueOf_cons,
        Function.update_self, List.find?_cons_of_pos hi, Option.map_some]
    · rw [List.find?_cons_of_neg hi, ih]
      cases hb : b i with
      | none => rw [List.reduceOption_cons_of_none]
      | some x =>
        obtain ⟨k', v⟩ := x
        have hne : k ≠ k' := by
          rintro rfl
          exact hi ((h i v).mpr hb).1
        rw [List.reduceOption_cons_of_some, valueOf_cons, Function.update_of_ne hne]

omit [DecidableEq κ] in
theorem keyed_cons : Keyed ((k, v) :: l) ↔ (∀ v', (k, v') ∉ l) ∧ Keyed l := by
  unfold Keyed
  rw [List.map_cons, List.nodup_cons, List.mem_map]
  constructor
  · rintro ⟨hk, hl⟩
    exact ⟨fun v' hm => hk ⟨_, hm, rfl⟩, hl⟩
  · rintro ⟨hk, hl⟩
    refine ⟨?_, hl⟩
    rintro ⟨⟨k', v'⟩, hm, rfl⟩
    exact hk v' hm

theorem Keyed.insert (h : Keyed l) (hk : valueOf l k = none) (hp : l'.Perm ((k, v) :: l)) :
    Keyed l' ∧ valueOf l' = Function.update (valueOf l) k (some v) := by
  have hcons : Keyed ((k, v) :: l) := keyed_cons.mpr ⟨valueOf_eq_none.mp hk, h⟩
  refine ⟨hcons.perm hp.symm, ?_⟩
  rw [valueOf_perm hcons hp.symm, valueOf_cons]

theorem Keyed.remove (h : Keyed l) (hp : l.Perm ((k, v) :: l')) :
    Keyed l' ∧ valueOf l' = Function.update (valueOf l) k none := by
  have hcons := h.perm hp
  obtain ⟨hk, hl'⟩ := keyed_cons.mp hcons
  refine ⟨hl', ?_⟩
  have hnone : Function.update (valueOf l') k none = valueOf l' := by
    rw [← valueOf_eq_none.mpr hk, Function.update_eq_self]
  rw [← valueOf_perm h hp, valueOf_cons, Function.update_idem, hnone]

omit [DecidableEq κ] in
theorem Keyed.slot_unique {t : List (Option (κ × ν))} (h : Keyed t.reduceOption) {i j : ℕ}
    {v v' : ν} (hi : t[i]? = some (some (k, v))) (hj : t[j]? = some (some (k, v'))) : i = j := by
  have hcons := keyed_cons.mp (h.perm (clearSlot_perm hi))
  by_contra hne
  apply hcons.1 v'
  apply mem_bindings_of_slot (i := j)
  have hlt := (List.getElem?_eq_some_iff.mp hi).1
  rw [getElem?_clearSlot_of_ne (Nat.le_of_lt hlt) (Ne.symm hne), hj]

end

end Xv6.Library
