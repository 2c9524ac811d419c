import Xv6.Library.Radix
import Xv6.Vm.Kalloc

/-! # Three-level page tables and `walk`

A page table is a radix tree of height two whose nodes carry the physical
address of the page that holds them.  Seen from outside it is a map from
virtual page numbers to entries, together with the pages it occupies.
-/
namespace Xv6.Vm
open Library Library.Exec

abbrev Table (n : ℕ) := Radix (Fin 512) ℕ Pte n
abbrev PageTable := Table 2

/-- The loop of `walk` from level `n` down.  The result says whether the slot
for `va` exists; interior pages are allocated on the way when `alloc` is set. -/
def walkFrom (alloc : Bool) (va : ℕ) : (n : ℕ) → Table n → VmM (Bool × Table n)
  | 0, t => pure (true, t)
  | n + 1, t =>
    match t.2 (px va (n + 1)) with
    | some c => do
      let (found, c) ← walkFrom alloc va n c
      pure (found, Radix.graft t (px va (n + 1)) c)
    | none =>
      if alloc then do
        match ← kalloc with
        | none => pure (false, t)
        | some pa =>
          let (found, c) ← walkFrom alloc va n (Radix.empty 0 pa n)
          pure (found, Radix.graft t (px va (n + 1)) c)
      else pure (false, t)

/-- Find the slot for `va`, creating any required page-table pages if `alloc`
is set.  The slot pointer that C returns is represented by `va` itself and is
null when the first component is `false`. -/
def walk (pt : PageTable) (va : ℕ) (alloc : Bool) : VmM (Bool × PageTable) :=
  if MAXVA ≤ va then throw .walk else walkFrom alloc va 2 pt

/-- The contents of the slot for `va`. -/
def slot (pt : PageTable) (va : ℕ) : Option Pte := Radix.get 2 pt (px va)

/-- `*pte = x` for the slot of `va`. -/
def setSlot (pt : PageTable) (va : ℕ) (x : Pte) : PageTable := Radix.set 2 pt (px va) x

/-! ## The map that a page table denotes -/

/-- The entry for virtual page `v`; a missing slot counts as an invalid entry. -/
def leaf (pt : PageTable) (v : ℕ) : Pte := (slot pt (v * PGSIZE)).getD 0

/-- The page that holds the top of the table. -/
def root (pt : PageTable) : ℕ := Radix.tag 2 pt

/-- The pages that the table itself occupies. -/
def tables (pt : PageTable) : Multiset ℕ := Radix.tags 2 pt

theorem px_page (va : ℕ) : px (va / PGSIZE * PGSIZE) = px va := by
  funext l
  have h : va / PGSIZE * PGSIZE / 2 ^ (12 + 9 * l) = va / 2 ^ (12 + 9 * l) := by
    rw [Nat.pow_add, ← Nat.div_div_eq_div_mul, ← Nat.div_div_eq_div_mul]
    simp [PGSIZE]
  rw [px, px, h]

theorem slot_page (pt : PageTable) (va : ℕ) : slot pt (va / PGSIZE * PGSIZE) = slot pt va := by
  rw [slot, slot, px_page]

theorem slot_eq_leaf {pt : PageTable} {va : ℕ} (h : (slot pt va).isSome) :
    slot pt va = some (leaf pt (va / PGSIZE)) := by
  obtain ⟨x, hx⟩ := Option.isSome_iff_exists.mp h
  rw [leaf, slot_page, hx]
  rfl

theorem px_ne {v w : ℕ} (hv : v < 2 ^ 27) (hw : w < 2 ^ 27) (hne : v ≠ w) :
    ∃ l ≤ 2, px (v * PGSIZE) l ≠ px (w * PGSIZE) l := by
  by_contra hall
  push Not at hall
  have h0 := congrArg Fin.val (hall 0 (by omega))
  have h1 := congrArg Fin.val (hall 1 (by omega))
  have h2 := congrArg Fin.val (hall 2 (by omega))
  simp only [px, Fin.ofNat, PGSIZE] at h0 h1 h2
  norm_num at h0 h1 h2
  omega

theorem leaf_setSlot {pt : PageTable} {v w : ℕ} (x : Pte) (hv : v < 2 ^ 27) (hw : w < 2 ^ 27)
    (hs : (slot pt (v * PGSIZE)).isSome) :
    leaf (setSlot pt (v * PGSIZE) x) w = if w = v then x else leaf pt w := by
  by_cases h : w = v
  · subst h
    simp only [leaf, slot, setSlot, if_true]
    rw [Radix.get_set_self _ _ _ hs]
    rfl
  · rw [if_neg h, leaf, leaf, slot, setSlot, Radix.get_set_of_ne _ _ _ _ (px_ne hv hw (Ne.symm h))]
    rfl

@[simp] theorem tables_setSlot (pt : PageTable) (va : ℕ) (x : Pte) :
    tables (setSlot pt va x) = tables pt := Radix.tags_set pt (px va) x

@[simp] theorem root_setSlot (pt : PageTable) (va : ℕ) (x : Pte) :
    root (setSlot pt va x) = root pt := Radix.tag_set pt (px va) x

/-! ## What `walk` does -/

theorem walkFrom_find (va n : ℕ) (t : Table n) (k : Phys) :
    walkFrom false va n t k = .ok (((Radix.get n t (px va)).isSome, t), k) := by
  induction n with
  | zero => rfl
  | succ n ih =>
    rw [walkFrom]
    cases hc : t.2 (px va (n + 1)) with
    | none => simp [Radix.get, hc, pure_run]
    | some c =>
      change (walkFrom false va n c >>= _) k = _
      rw [bind_of_ok (ih c)]
      simp [Radix.get, hc, pure_run, Radix.graft_self t _ c hc]

theorem walk_find {pt : PageTable} {va : ℕ} (hva : va < MAXVA) (k : Phys) :
    walk pt va false k = .ok (((slot pt va).isSome, pt), k) := by
  rw [walk, if_neg (by omega)]
  exact walkFrom_find va 2 pt k

section
variable [KernelImage]

/-- The effect of a walk that allocates: the entries are unchanged, and the
table has grown by pages that nothing referred to. -/
structure Grown {n : ℕ} (t t' : Table n) (k k' : Phys) (new refs : Multiset ℕ) : Prop where
  step : Step k k' refs (new + refs)
  fresh : RefCount.NoNewSharing refs (new + refs)
  tags_eq : Radix.tags n t' = new + Radix.tags n t
  get_eq : ∀ d, (Radix.get n t' d).getD 0 = (Radix.get n t d).getD 0
  slots : ∀ d, (Radix.get n t d).isSome → (Radix.get n t' d).isSome
  length_eq : k'.freelist.length + new.card = k.freelist.length
  root_eq : Radix.tag n t' = Radix.tag n t

theorem Grown.refl {n : ℕ} (t : Table n) {k : Phys} {refs : Multiset ℕ} (h : Acct k refs) :
    Grown t t k k 0 refs where
  step := by simpa using Step.refl h refs
  fresh := by simpa using RefCount.NoNewSharing.refl refs
  tags_eq := by simp
  get_eq := fun _ => rfl
  slots := fun _ h => h
  length_eq := by simp
  root_eq := rfl

theorem walkFrom_alloc (va n : ℕ) (t : Table n) {k : Phys} {refs : Multiset ℕ} (h : Acct k refs) :
    ∃ found t' k' new, walkFrom true va n t k = .ok ((found, t'), k') ∧
      Grown t t' k k' new refs ∧
      (found = true → (Radix.get n t' (px va)).isSome) ∧ (found = false → k'.oom = true) := by
  induction n generalizing k refs with
  | zero => exact ⟨true, t, k, 0, rfl, Grown.refl t h, fun _ => rfl, by simp⟩
  | succ n ih =>
    rw [walkFrom]
    cases hc : t.2 (px va (n + 1)) with
    | some c =>
      obtain ⟨found, c', k', new, hrun, hg, hyes, hno⟩ := ih c h
      refine ⟨found, Radix.graft t (px va (n + 1)) c', k', new, ?_, ?_, ?_, hno⟩
      · change (walkFrom true va n c >>= _) k = _
        rw [bind_of_ok hrun]
        rfl
      · refine ⟨hg.step, hg.fresh, ?_, ?_, ?_, hg.length_eq, rfl⟩
        · have htags := Radix.tags_graft t (px va (n + 1)) c'
          rw [hc, Option.elim_some, hg.tags_eq, add_assoc, add_comm (Radix.tags n c),
            ← add_assoc] at htags
          exact add_right_cancel htags
        · intro d
          rw [Radix.get_graft]
          split
          · next hd => rw [hg.get_eq d]; simp [Radix.get, hd, hc]
          · rfl
        · intro d hd
          rw [Radix.get_graft]
          split
          · next he => exact hg.slots d (by simpa [Radix.get, he, hc] using hd)
          · exact hd
      · intro hf
        rw [Radix.get_graft, if_pos rfl]
        exact hyes hf
    | none =>
      simp only [if_true]
      rcases kalloc_spec h with ⟨hrun, hnil⟩ | ⟨pa, k₁, hrun, hstep, hfresh, _, hlist, _⟩
      · refine ⟨false, t, { k with oom := true }, 0, ?_, ?_, by simp, fun _ => rfl⟩
        · rw [bind_of_ok hrun]
          rfl
        · have hacct : Acct { k with oom := true } (0 + refs) := by
            rw [zero_add]
            exact h
          exact ⟨⟨hacct, SameOn.refl _ _, fun _ => rfl⟩,
            by simpa using RefCount.NoNewSharing.refl refs, by simp, fun _ => rfl, fun _ h => h,
            by simp, rfl⟩
      · obtain ⟨found, c', k', new, hrun', hg, hyes, hno⟩ := ih (Radix.empty 0 pa n) hstep.acct
        refine ⟨found, Radix.graft t (px va (n + 1)) c', k', pa ::ₘ new, ?_, ?_, ?_, hno⟩
        · rw [bind_of_ok hrun]
          change (walkFrom true va n _ >>= _) k₁ = _
          rw [bind_of_ok hrun']
          rfl
        · refine ⟨?_, ?_, ?_, ?_, ?_, ?_, rfl⟩
          · refine (hstep.trans (hg.step.mono (Multiset.subset_cons refs pa))).congr ?_
            rw [Multiset.cons_add, Multiset.add_cons]
          · have hmore := (RefCount.NoNewSharing.cons hfresh).trans hg.fresh
            rwa [Multiset.add_cons, ← Multiset.cons_add] at hmore
          · have htags := Radix.tags_graft t (px va (n + 1)) c'
            rw [hc, Option.elim_none, add_zero, hg.tags_eq, Radix.tags_empty] at htags
            rw [htags, ← Multiset.singleton_add, add_comm {pa} new]
          · intro d
            rw [Radix.get_graft]
            split
            · next hd =>
              rw [hg.get_eq d]
              cases n <;> simp [Radix.get, Radix.empty, hd, hc]
            · rfl
          · intro d hd
            rw [Radix.get_graft]
            split
            · next he => simp [Radix.get, he, hc] at hd
            · exact hd
          · rw [Multiset.card_cons, hlist, List.length_cons]
            have := hg.length_eq
            omega
        · intro hf
          rw [Radix.get_graft, if_pos rfl]
          exact hyes hf

theorem walk_alloc (pt : PageTable) {va : ℕ} (hva : va < MAXVA) {k : Phys} {refs : Multiset ℕ}
    (h : Acct k refs) :
    ∃ found pt' k' new, walk pt va true k = .ok ((found, pt'), k') ∧
      Grown pt pt' k k' new refs ∧
      (found = true → (slot pt' va).isSome) ∧ (found = false → k'.oom = true) := by
  rw [walk, if_neg (by omega)]
  exact walkFrom_alloc va 2 pt h

theorem Grown.leaf_eq {pt pt' : PageTable} {k k' : Phys} {new refs : Multiset ℕ}
    (h : Grown pt pt' k k' new refs) (v : ℕ) : leaf pt' v = leaf pt v := h.get_eq _

end

end Xv6.Vm
