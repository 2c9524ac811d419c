import Xv6.Vm.TableWords
import Xv6.Vm.FreeSpec

/-! # The tables in memory refine the radix trees

A tree is held by a memory when every entry of every node is the word that vm.c would find
there.  The functions on words keep up with those on trees step by step.
-/
namespace Xv6.Vm.Words
open Library Library.Exec

section
variable {mem mem' mem'' : ℕ → UInt8} {n : ℕ} {t : Table n} {a b va : ℕ}
  {S T : Multiset ℕ}

/-- `mem` has the tables of the tree `t`. -/
def Holds (mem : ℕ → UInt8) : (n : ℕ) → Table n → Prop
  | 0, t => ∀ i, wordAt mem (slotAt t.1 i) = t.2 i
  | n + 1, t => ∀ i, match t.2 i with
    | none => (wordAt mem (slotAt t.1 i)).has PTE_V = false
    | some c => wordAt mem (slotAt t.1 i) = pa2pte (Radix.tag n c) ||| PTE_V ∧ Holds mem n c

/-- Both memories have the same bytes on the pages `S`. -/
def Fixed (S : Multiset ℕ) (mem mem' : ℕ → UInt8) : Prop :=
  ∀ a ∈ S, ∀ i < PGSIZE, mem' (a + i) = mem (a + i)

/-- The address of the entry for `va`. -/
def slotPtr (n : ℕ) (t : Table n) (va : ℕ) : Option ℕ :=
  (Radix.bottom n t (px va)).map fun a => slotAt a (px va 0)

theorem Fixed.refl (S : Multiset ℕ) (mem : ℕ → UInt8) : Fixed S mem mem := fun _ _ _ _ => rfl

theorem Fixed.trans (h : Fixed S mem mem') (h' : Fixed S mem' mem'') : Fixed S mem mem'' :=
  fun a ha i hi => (h' a ha i hi).trans (h a ha i hi)

theorem Fixed.mono (h : Fixed T mem mem') (hsub : S ≤ T) : Fixed S mem mem' :=
  fun a ha => h a (Multiset.mem_of_le hsub ha)

theorem slotAt_lt (a : ℕ) (i : Fin 512) {j : ℕ} (hj : j < 8) :
    slotAt a i + j = a + (8 * i.val + j) ∧ 8 * i.val + j < PGSIZE := by
  simp only [slotAt, PGSIZE]
  omega

theorem Fixed.wordAt_eq (h : Fixed S mem mem') (ha : a ∈ S) (i : Fin 512) :
    wordAt mem' (slotAt a i) = wordAt mem (slotAt a i) := by
  apply wordAt_congr
  intro j hj
  obtain ⟨heq, hlt⟩ := slotAt_lt a i hj
  rw [heq]
  exact h a ha _ hlt

theorem Holds.child {t : Table (n + 1)} (h : Holds mem (n + 1) t) {i : Fin 512} {c : Table n}
    (hc : t.2 i = some c) :
    wordAt mem (slotAt t.1 i) = pa2pte (Radix.tag n c) ||| PTE_V ∧ Holds mem n c := by
  have hi := h i
  rw [hc] at hi
  exact hi

theorem Holds.absent {t : Table (n + 1)} (h : Holds mem (n + 1) t) {i : Fin 512}
    (hc : t.2 i = none) : (wordAt mem (slotAt t.1 i)).has PTE_V = false := by
  have hi := h i
  rw [hc] at hi
  exact hi

theorem holds_succ {t : Table (n + 1)}
    (hnone : ∀ i, t.2 i = none → (wordAt mem (slotAt t.1 i)).has PTE_V = false)
    (hsome : ∀ i c, t.2 i = some c →
      wordAt mem (slotAt t.1 i) = pa2pte (Radix.tag n c) ||| PTE_V ∧ Holds mem n c) :
    Holds mem (n + 1) t := by
  intro i
  cases hc : t.2 i with
  | none => exact hnone i hc
  | some c => exact hsome i c hc

/-- What memory holds depends only on the pages of the tree. -/
theorem Holds.congr (h : Holds mem n t) (hfix : Fixed (Radix.tags n t) mem mem') :
    Holds mem' n t := by
  induction n with
  | zero =>
    intro i
    have hword : wordAt mem' (slotAt t.1 i) = wordAt mem (slotAt t.1 i) :=
      hfix.wordAt_eq (Radix.tag_mem_tags t) i
    exact hword.trans (h i)
  | succ n ih =>
    have hword (i : Fin 512) : wordAt mem' (slotAt t.1 i) = wordAt mem (slotAt t.1 i) :=
      hfix.wordAt_eq (Radix.tag_mem_tags t) i
    refine holds_succ (fun i hc => ?_) fun i c hc => ?_
    · rw [hword]
      exact h.absent hc
    · have hle : Radix.tags n c ≤ Radix.tags (n + 1) t := by
        rw [Radix.tags_eq_add_beside t i, hc]
        exact Multiset.le_add_right _ _
      rw [hword]
      exact ⟨(h.child hc).1, ih (h.child hc).2 (hfix.mono hle)⟩

/-- Putting a subtree that memory holds in a slot whose word points to it. -/
theorem Holds.graft {t : Table (n + 1)} (h : Holds mem (n + 1) t) {i : Fin 512} {c : Table n}
    (hfix : Fixed (Radix.branches t i) mem mem')
    (hword : ∀ j ≠ i, wordAt mem' (slotAt t.1 j) = wordAt mem (slotAt t.1 j))
    (hptr : wordAt mem' (slotAt t.1 i) = pa2pte (Radix.tag n c) ||| PTE_V) (hc : Holds mem' n c) :
    Holds mem' (n + 1) (Radix.graft t i c) := by
  have hself : (Radix.graft t i c).2 i = some c := Function.update_self _ _ _
  have hother (j : Fin 512) (hj : j ≠ i) : (Radix.graft t i c).2 j = t.2 j :=
    Function.update_of_ne hj _ _
  have htop : (Radix.graft t i c).1 = t.1 := rfl
  refine holds_succ (fun j hn => ?_) fun j c' hs => ?_
  · have hj : j ≠ i := by
      rintro rfl
      rw [hself] at hn
      cases hn
    rw [hother j hj] at hn
    rw [htop, hword j hj]
    exact h.absent hn
  · by_cases hj : j = i
    · subst hj
      rw [hself] at hs
      cases hs
      exact ⟨hptr, hc⟩
    · rw [hother j hj] at hs
      rw [htop, hword j hj]
      exact ⟨(h.child hs).1, (h.child hs).2.congr (hfix.mono (Radix.tags_le_branches t hj hs))⟩

theorem holds_empty (hzero : ∀ i < PGSIZE, mem (a + i) = 0) :
    Holds mem n (Radix.empty 0 a n) := by
  have hword (i : Fin 512) : wordAt mem (slotAt a i) = 0 := by
    apply wordAt_zero
    intro j hj
    obtain ⟨heq, hlt⟩ := slotAt_lt a i hj
    rw [heq]
    exact hzero _ hlt
  cases n with
  | zero => exact hword
  | succ n =>
    intro i
    change (wordAt mem (slotAt a i)).has PTE_V = false
    rw [hword, has_zero]

theorem Holds.read (h : Holds mem n t) (hptr : slotPtr n t va = some a) :
    Radix.get n t (px va) = some (wordAt mem a) := by
  induction n with
  | zero =>
    cases hptr
    exact congrArg some (h _).symm
  | succ n ih =>
    obtain ⟨page, hb, rfl⟩ := Option.map_eq_some_iff.mp hptr
    obtain ⟨c, hc, hbc⟩ := Option.bind_eq_some_iff.mp hb
    rw [Radix.get, hc, Option.bind_some]
    exact ih (h.child hc).2 (by rw [slotPtr, hbc]; rfl)

theorem slotPtr_isSome (n : ℕ) (t : Table n) (va : ℕ) :
    (slotPtr n t va).isSome = (Radix.get n t (px va)).isSome := by
  rw [slotPtr, Option.isSome_map, Radix.bottom_isSome]

theorem slotPtr_graft (t : Table (n + 1)) (c : Table n) (va : ℕ) :
    slotPtr (n + 1) (Radix.graft t (px va (n + 1)) c) va = slotPtr n c va := by
  rw [slotPtr, Radix.bottom_graft]
  rfl

theorem memset_outside (x : UInt8) (mem : ℕ → UInt8) {pa j : ℕ} (hpa : pa % PGSIZE = 0)
    (hb : b % PGSIZE = 0) (hne : b ≠ pa) (hj : j < PGSIZE) :
    memset pa x PGSIZE mem (b + j) = mem (b + j) :=
  if_neg (pages_disjoint hpa hb (Ne.symm hne) hj)

/-- A word of a page is stored without a change to other pages. -/
theorem fixed_setWord (ha : a % PGSIZE = 0) (i : Fin 512) (x : Pte)
    (hS : ∀ b ∈ S, b % PGSIZE = 0 ∧ b ≠ a) (mem : ℕ → UInt8) :
    Fixed S mem (setWord (slotAt a i) x mem) := by
  intro b hb j hj
  obtain ⟨hal, hne⟩ := hS b hb
  have hdis := pages_disjoint ha hal (Ne.symm hne) hj
  apply setWord_outside
  simp only [slotAt, PGSIZE] at *
  omega

theorem wordAt_setWord_slot (x : Pte) (mem : ℕ → UInt8) {i j : Fin 512} (hne : j ≠ i) :
    wordAt (setWord (slotAt a i) x mem) (slotAt a j) = wordAt mem (slotAt a j) := by
  have hval : j.val ≠ i.val := fun h => hne (Fin.ext h)
  apply wordAt_setWord_of_disjoint
  simp only [slotAt]
  omega

end

section
variable [KernelImage] {n : ℕ} {t t' : Table n} {T G : Multiset ℕ} {kr kr' k k' : Phys} {a va : ℕ}

/-- The memory `k` runs along with the tree `t` and the memory `kr` of the functions on
trees.  They differ on table pages only; `T` are the table pages outside of `t`, and `G` are
the references that the rest of the kernel holds. -/
structure Sim (n : ℕ) (t : Table n) (T G : Multiset ℕ) (kr k : Phys) : Prop where
  acct : Acct kr (Radix.tags n t + T + G)
  nodup : (Radix.tags n t + T).Nodup
  holds : Holds k.mem n t
  rest : k = { kr with mem := k.mem }
  data : ∀ x, pgrounddown x ∉ Radix.tags n t + T → k.mem x = kr.mem x

theorem Sim.page (h : Sim n t T G kr k) {a : ℕ} (ha : a ∈ Radix.tags n t + T) : PageAddr a :=
  h.acct.valid_of_mem a (Multiset.mem_add.mpr (Or.inl ha))

theorem Sim.sub {t : Table (n + 1)} (h : Sim (n + 1) t T G kr k) {i : Fin 512} {c : Table n}
    (hc : t.2 i = some c) : Sim n c (Radix.beside t i + T) G kr k := by
  have htags : Radix.tags (n + 1) t + T = Radix.tags n c + (Radix.beside t i + T) := by
    rw [Radix.tags_eq_add_beside t i, hc, Option.elim_some, add_assoc]
  exact ⟨htags ▸ h.acct, htags ▸ h.nodup, (h.holds.child hc).2, h.rest, htags ▸ h.data⟩

theorem Sim.graft {t : Table (n + 1)} (h : Holds k.mem (n + 1) t) {i : Fin 512} {c : Table n}
    (hsub : Sim n c (Radix.beside t i + T) G kr' k')
    (hfix : Fixed (Radix.beside t i + T) k.mem k'.mem)
    (hptr : wordAt k.mem (slotAt t.1 i) = pa2pte (Radix.tag n c) ||| PTE_V) :
    Sim (n + 1) (Radix.graft t i c) T G kr' k' := by
  have htags : Radix.tags n c + (Radix.beside t i + T) =
      Radix.tags (n + 1) (Radix.graft t i c) + T := by
    rw [Radix.tags_graft_eq, add_assoc]
  have hmem : t.1 ∈ Radix.beside t i + T :=
    Multiset.mem_add.mpr (Or.inl (Radix.tag_mem_beside t i))
  refine ⟨htags ▸ hsub.acct, htags ▸ hsub.nodup, ?_, hsub.rest, htags ▸ hsub.data⟩
  exact h.graft (hfix.mono ((Radix.branches_le_beside t i).trans (Multiset.le_add_right _ _)))
    (fun j _ => hfix.wordAt_eq hmem j) ((hfix.wordAt_eq hmem i).trans hptr) hsub.holds

/-! ## Allocation -/

omit [KernelImage] in
theorem kalloc_rest (hrest : k = { kr with mem := k.mem }) :
    (kalloc kr = .ok (none, { kr with oom := true }) ∧
      kalloc k = .ok (none, { k with oom := true })) ∨
    ∃ pa kr₁, kalloc kr = .ok (some pa, kr₁) ∧ kr₁.mem = memset pa 5 PGSIZE kr.mem ∧
      kalloc k = .ok (some pa, { kr₁ with mem := memset pa 5 PGSIZE k.mem }) := by
  rw [hrest]
  unfold kalloc
  cases hf : kr.freelist with
  | nil => exact Or.inl ⟨rfl, rfl⟩
  | cons pa next => exact Or.inr ⟨pa, _, rfl, rfl, rfl⟩

/-- A fresh page, cleared, under a slot of the top table. -/
theorem Sim.fresh {t : Table (n + 1)} (h : Sim (n + 1) t T G kr k) {i : Fin 512}
    (hc : t.2 i = none) {pa : ℕ} {kr₁ : Phys} (hrun : kalloc kr = .ok (some pa, kr₁))
    (hmem : kr₁.mem = memset pa 5 PGSIZE kr.mem) {mem₃ : ℕ → UInt8}
    (hmem₃ : mem₃ = setWord (slotAt t.1 i) (pa2pte pa ||| PTE_V)
      (memset pa 0 PGSIZE (memset pa 5 PGSIZE k.mem))) :
    Sim n (Radix.empty 0 pa n) (Radix.beside t i + T) G kr₁ { kr₁ with mem := mem₃ } ∧
    Fixed (Radix.branches t i) k.mem mem₃ ∧
    (∀ j ≠ i, wordAt mem₃ (slotAt t.1 j) = wordAt k.mem (slotAt t.1 j)) ∧ Fixed T k.mem mem₃ := by
  have htags : Radix.beside t i + T = Radix.tags (n + 1) t + T := by
    rw [Radix.tags_eq_add_beside t i, hc, Option.elim_none, zero_add]
  obtain ⟨hstep, hnot, hpa⟩ : Step kr kr₁ (Radix.tags (n + 1) t + T + G)
      (pa ::ₘ (Radix.tags (n + 1) t + T + G)) ∧ pa ∉ Radix.tags (n + 1) t + T + G ∧ PageAddr pa := by
    rcases kalloc_spec h.acct with ⟨hno, -⟩ | ⟨pa', k', hrun', hstep, hnot, hpage, -, -⟩
    · rw [hrun] at hno
      cases hno
    · rw [hrun] at hrun'
      cases hrun'
      exact ⟨hstep, hnot, hpage⟩
  have htop : t.1 ∈ Radix.tags (n + 1) t + T :=
    Multiset.mem_add.mpr (Or.inl (Radix.tag_mem_tags t))
  have hpaT : pa ∉ Radix.tags (n + 1) t + T := fun hin => hnot (Multiset.mem_add.mpr (Or.inl hin))
  have hne : pa ≠ t.1 := fun heq => hpaT (heq ▸ htop)
  have hal := (h.page htop).1
  -- Both fills are confined to the fresh page.
  have hfill : Fixed (Radix.tags (n + 1) t + T) k.mem
      (memset pa 0 PGSIZE (memset pa 5 PGSIZE k.mem)) := by
    intro b hb j hj
    have hb' := (h.page hb).1
    have hbne : b ≠ pa := fun heq => hpaT (heq ▸ hb)
    exact (memset_outside 0 _ hpa.1 hb' hbne hj).trans (memset_outside 5 _ hpa.1 hb' hbne hj)
  have hset (S : Multiset ℕ) (hS : ∀ b ∈ S, b ∈ Radix.tags (n + 1) t + T ∧ b ≠ t.1) :
      Fixed S k.mem mem₃ := by
    rw [hmem₃]
    refine Fixed.trans (fun b hb => hfill b (hS b hb).1) (fixed_setWord hal i _ ?_ _)
    exact fun b hb => ⟨(h.page (hS b hb).1).1, (hS b hb).2⟩
  have hnd := h.nodup
  rw [← htags, Radix.beside, add_assoc] at hnd
  obtain ⟨-, -, hdis⟩ := Multiset.nodup_add.mp hnd
  have htopNot : t.1 ∉ (Radix.branches t i) + T :=
    Multiset.disjoint_left.mp hdis (Multiset.mem_singleton_self _)
  have hcover : (Radix.branches t i) + T ≤
      Radix.tags (n + 1) t + T := by
    rw [← htags, Radix.beside, add_assoc]
    exact Multiset.le_add_left _ _
  have hout : Fixed ((Radix.branches t i) + T) k.mem mem₃ :=
    hset _ fun b hb => ⟨Multiset.mem_of_le hcover hb, fun heq => htopNot (heq ▸ hb)⟩
  refine ⟨⟨?_, ?_, ?_, rfl, ?_⟩, hout.mono (Multiset.le_add_right _ _), fun j hj => ?_,
    hout.mono (Multiset.le_add_left _ _)⟩
  · rw [Radix.tags_empty, htags, add_assoc, Multiset.singleton_add]
    exact hstep.acct
  · rw [Radix.tags_empty, htags, Multiset.singleton_add]
    exact Multiset.nodup_cons.mpr ⟨hpaT, h.nodup⟩
  · apply holds_empty
    intro j hj
    have hdj := pages_disjoint hal hpa.1 hne.symm hj
    change mem₃ (pa + j) = 0
    rw [hmem₃, setWord_outside]
    · exact memmove_inside pa _ _ hj
    · simp only [slotAt, PGSIZE] at *
      omega
  · intro x hx
    rw [Radix.tags_empty, htags, Multiset.singleton_add, Multiset.mem_cons, not_or] at hx
    have hxt : pgrounddown x ≠ t.1 := fun heq => hx.2 (heq ▸ htop)
    have hpx : ¬ (pa ≤ x ∧ x < pa + PGSIZE) := by
      have h1 := hx.1
      have h2 := hpa.1
      simp only [pgrounddown, PGSIZE] at *
      omega
    have hw : x < slotAt t.1 i ∨ slotAt t.1 i + 8 ≤ x := by
      simp only [pgrounddown, slotAt, PGSIZE] at *
      omega
    change mem₃ x = kr₁.mem x
    rw [hmem₃, setWord_outside _ _ hw, hmem]
    simp only [memset, memmove, if_neg hpx]
    exact h.data x hx.2
  · rw [hmem₃, wordAt_setWord_slot _ _ hj]
    exact hfill.wordAt_eq htop j

/-! ## walk -/

theorem child_word {c : Table n} (hpage : PageAddr (Radix.tag n c)) :
    (pa2pte (Radix.tag n c) ||| PTE_V).has PTE_V = true ∧
      pte2pa (pa2pte (Radix.tag n c) ||| PTE_V) = Radix.tag n c := by
  refine ⟨?_, pte2pa_pa2pte_or _ _ hpage.1 hpage.lt (flagsOnly_one_shift (by omega))⟩
  rw [Pte.has_V, getLsbD_pa2pte_or _ _ _ (by omega)]
  simp

theorem walkLoop_child {alloc : Bool} {t : Table (n + 1)} {c : Table n} (h : Holds k.mem (n + 1) t)
    (hc : t.2 (px va (n + 1)) = some c) (hpage : PageAddr (Radix.tag n c)) :
    walkLoop alloc va (n + 1) (Radix.tag (n + 1) t) k = walkLoop alloc va n (Radix.tag n c) k := by
  obtain ⟨hV, hpa⟩ := child_word hpage
  have hload : load (slotAt (Radix.tag (n + 1) t) (px va (n + 1))) k =
      .ok (pa2pte (Radix.tag n c) ||| PTE_V, k) :=
    congrArg (fun x => Except.ok (x, k)) (h.child hc).1
  rw [walkLoop, bind_of_ok hload, if_pos hV, hpa]

omit [KernelImage] in
theorem slotPtr_child {t : Table (n + 1)} {c : Table n} (hc : t.2 (px va (n + 1)) = some c) :
    slotPtr (n + 1) t va = slotPtr n c va := by
  rw [slotPtr, Radix.bottom, hc]
  rfl

omit [KernelImage] in
theorem slotPtr_absent {t : Table (n + 1)} (hc : t.2 (px va (n + 1)) = none) :
    slotPtr (n + 1) t va = none := by
  rw [slotPtr, Radix.bottom, hc]
  rfl

/-- The pointer walk without allocation finds the address of the entry. -/
theorem walkLoop_find (va n : ℕ) (t : Table n) (h : Holds k.mem n t)
    (hpage : ∀ a ∈ Radix.tags n t, PageAddr a) :
    walkLoop false va n (Radix.tag n t) k = .ok (slotPtr n t va, k) := by
  induction n with
  | zero => rfl
  | succ n ih =>
    cases hc : t.2 (px va (n + 1)) with
    | some c =>
      have hle : Radix.tags n c ≤ Radix.tags (n + 1) t := by
        rw [Radix.tags_eq_add_beside t (px va (n + 1)), hc]
        exact Multiset.le_add_right _ _
      have hsub (a : ℕ) (ha : a ∈ Radix.tags n c) : PageAddr a := hpage a (Multiset.mem_of_le hle ha)
      rw [walkLoop_child h hc (hsub _ (Radix.tag_mem_tags c)), slotPtr_child hc]
      exact ih c (h.child hc).2 hsub
    | none =>
      have hload : load (slotAt (Radix.tag (n + 1) t) (px va (n + 1))) k =
          .ok (wordAt k.mem (slotAt t.1 (px va (n + 1))), k) := rfl
      rw [walkLoop, bind_of_ok hload, slotPtr_absent hc]
      simp only [h.absent hc, Bool.false_eq_true, if_false]
      rfl

/-- The pointer walk with allocation keeps up with the walk on the tree, and finds the
address of the entry. -/
theorem walkLoop_sim (va n : ℕ) (t : Table n) {T : Multiset ℕ} {kr k : Phys}
    (h : Sim n t T G kr k) :
    ∃ t' kr' k', walkFrom true va n t kr = .ok (((slotPtr n t' va).isSome, t'), kr') ∧
      walkLoop true va n (Radix.tag n t) k = .ok (slotPtr n t' va, k') ∧
      Sim n t' T G kr' k' ∧ Fixed T k.mem k'.mem ∧ Radix.tag n t' = Radix.tag n t := by
  induction n generalizing T kr k with
  | zero => exact ⟨t, kr, k, rfl, rfl, h, Fixed.refl _ _, rfl⟩
  | succ n ih =>
    cases hc : t.2 (px va (n + 1)) with
    | some c =>
      have hsub := h.sub hc
      obtain ⟨c', kr', k', hr, hw, hsim, hfix, htag⟩ := ih c hsub
      have hptr : wordAt k.mem (slotAt t.1 (px va (n + 1))) =
          pa2pte (Radix.tag n c') ||| PTE_V := htag ▸ (h.holds.child hc).1
      refine ⟨Radix.graft t (px va (n + 1)) c', kr', k', ?_, ?_, Sim.graft h.holds hsim hfix hptr,
        hfix.mono (Multiset.le_add_left _ _), rfl⟩
      · rw [walkFrom, hc]
        change (walkFrom true va n c >>= _) kr = _
        rw [bind_of_ok hr, slotPtr_graft]
        rfl
      · rw [walkLoop_child h.holds hc
          (hsub.page (Multiset.mem_add.mpr (Or.inl (Radix.tag_mem_tags c)))), hw, slotPtr_graft]
    | none =>
      have hload : load (slotAt (Radix.tag (n + 1) t) (px va (n + 1))) k =
          .ok (wordAt k.mem (slotAt t.1 (px va (n + 1))), k) := rfl
      rw [walkFrom, hc, walkLoop]
      dsimp only
      rw [bind_of_ok hload]
      simp only [h.holds.absent hc, Bool.false_eq_true, if_false, if_true]
      rcases kalloc_rest h.rest with ⟨hr, hw⟩ | ⟨pa, kr₁, hr, hmem, hw⟩
      · refine ⟨t, { kr with oom := true }, { k with oom := true }, ?_, ?_,
          ⟨h.acct, h.nodup, h.holds, ?_, h.data⟩, Fixed.refl _ _, rfl⟩
        · rw [bind_of_ok hr, slotPtr_absent hc]
          rfl
        · rw [bind_of_ok hw, slotPtr_absent hc]
          rfl
        · rw [h.rest]
      · obtain ⟨hsim₁, hfix₁, hword₁, hT⟩ := h.fresh hc hr hmem rfl
        obtain ⟨c', kr', k', hr', hw', hsim', hfix', htag⟩ := ih (Radix.empty 0 pa n) hsim₁
        have htop : t.1 ∈ Radix.beside t (px va (n + 1)) + T :=
          Multiset.mem_add.mpr (Or.inl (Radix.tag_mem_beside t _))
        have htagpa : Radix.tag n (Radix.empty 0 pa n : Table n) = pa := by cases n <;> rfl
        rw [htagpa] at htag hw'
        refine ⟨Radix.graft t (px va (n + 1)) c', kr', k', ?_, ?_, ?_,
          hT.trans (hfix'.mono (Multiset.le_add_left _ _)), rfl⟩
        · rw [bind_of_ok hr]
          dsimp only
          rw [bind_of_ok hr', slotPtr_graft]
          rfl
        · rw [bind_of_ok hw]
          dsimp only
          rw [bind_of_ok (setMem_run _ _), store, bind_of_ok (setMem_run _ _), slotPtr_graft]
          exact hw'
        · have htags : Radix.tags n c' + (Radix.beside t (px va (n + 1)) + T) =
              Radix.tags (n + 1) (Radix.graft t (px va (n + 1)) c') + T := by
            rw [Radix.tags_graft_eq, add_assoc]
          refine ⟨htags ▸ hsim'.acct, htags ▸ hsim'.nodup, ?_, hsim'.rest, htags ▸ hsim'.data⟩
          refine h.holds.graft (hfix₁.trans (hfix'.mono ((Radix.branches_le_beside t _).trans
            (Multiset.le_add_right _ _)))) (fun j hj => ?_) ?_ hsim'.holds
          · exact (hfix'.wordAt_eq htop j).trans (hword₁ j hj)
          · rw [hfix'.wordAt_eq htop, htag]
            exact wordAt_setWord_self _ _

theorem Sim.store (h : Sim n t T G kr k) (hptr : slotPtr n t va = some a) (x : Pte) :
    Sim n (Radix.set n t (px va) x) T G kr { k with mem := setWord a x k.mem } ∧
      Fixed T k.mem (setWord a x k.mem) := by
  induction n generalizing T with
  | zero =>
    obtain rfl : slotAt t.1 (px va 0) = a := Option.some.inj hptr
    have htags : Radix.tags 0 (Radix.set 0 t (px va) x) = Radix.tags 0 t := Radix.tags_set t _ x
    have htop : t.1 ∈ Radix.tags 0 t + T :=
      Multiset.mem_add.mpr (Or.inl (Radix.tag_mem_tags t))
    have hal := (h.page htop).1
    have hnd := h.nodup
    rw [Radix.tags_zero] at hnd
    have hnot : t.1 ∉ T :=
      Multiset.disjoint_left.mp (Multiset.nodup_add.mp hnd).2.2 (Multiset.mem_singleton_self _)
    refine ⟨⟨htags ▸ h.acct, htags ▸ h.nodup, fun i => ?_, ?_, fun y hy => ?_⟩,
      fixed_setWord hal _ x (fun b hb => ⟨(h.page (Multiset.mem_add.mpr (Or.inr hb))).1,
        fun heq => hnot (heq ▸ hb)⟩) _⟩
    · change wordAt (setWord (slotAt t.1 (px va 0)) x k.mem) (slotAt t.1 i) =
        Function.update t.2 (px va 0) x i
      by_cases hi : i = px va 0
      · rw [hi, Function.update_self, wordAt_setWord_self]
      · rw [Function.update_of_ne hi, wordAt_setWord_slot _ _ hi]
        exact h.holds i
    · rw [h.rest]
    · rw [htags] at hy
      have hne : pgrounddown y ≠ t.1 := fun heq => hy (heq ▸ htop)
      change setWord _ x k.mem y = kr.mem y
      rw [setWord_outside]
      · exact h.data y hy
      · simp only [pgrounddown, slotAt, PGSIZE] at *
        omega
  | succ n ih =>
    obtain ⟨page, hb, rfl⟩ := Option.map_eq_some_iff.mp hptr
    obtain ⟨c, hc, hbc⟩ := Option.bind_eq_some_iff.mp hb
    obtain ⟨hsim, hfix⟩ := ih (h.sub hc) (by rw [slotPtr, hbc]; rfl)
    have hset : Radix.set (n + 1) t (px va) x =
        Radix.graft t (px va (n + 1)) (Radix.set n c (px va) x) := by
      rw [Radix.set, hc]
    rw [hset]
    refine ⟨Sim.graft h.holds hsim hfix ?_, hfix.mono (Multiset.le_add_left _ _)⟩
    rw [Radix.tag_set]
    exact (h.holds.child hc).1

end

/-! ## The functions of vm.c -/

section
variable [KernelImage] {pt pt' : PageTable} {G : Multiset ℕ} {kr kr' k k' : Phys} {a va v pa : ℕ}
  {perm : Pte}

theorem walk_sim_find (h : Sim 2 pt 0 G kr k) (hva : va < MAXVA) :
    walk (root pt) va false k = .ok (slotPtr 2 pt va, k) := by
  rw [walk, if_neg (not_le.mpr hva)]
  exact walkLoop_find va 2 pt h.holds fun a ha => h.page (Multiset.mem_add.mpr (Or.inl ha))

theorem walk_sim (h : Sim 2 pt 0 G kr k) (hva : va < MAXVA) :
    ∃ pt' kr' k', Vm.walk pt va true kr = .ok (((slotPtr 2 pt' va).isSome, pt'), kr') ∧
      walk (root pt) va true k = .ok (slotPtr 2 pt' va, k') ∧ Sim 2 pt' 0 G kr' k' ∧
      root pt' = root pt := by
  obtain ⟨pt', kr', k', hr, hw, hsim, -, htag⟩ := walkLoop_sim va 2 pt h
  refine ⟨pt', kr', k', ?_, ?_, hsim, htag⟩
  · rw [Vm.walk, if_neg (not_le.mpr hva)]
    exact hr
  · rw [walk, if_neg (not_le.mpr hva)]
    exact hw

omit [KernelImage] in
theorem slotPtr_slot (pt : PageTable) (va : ℕ) : (slotPtr 2 pt va).isSome = (slot pt va).isSome :=
  slotPtr_isSome 2 pt va

theorem load_sim (h : Sim 2 pt 0 G kr k) (hptr : slotPtr 2 pt va = some a) :
    readSlot pt va kr = .ok (wordAt k.mem a, kr) := by
  have hget : slot pt va = some (wordAt k.mem a) := h.holds.read hptr
  rw [readSlot, hget]
  rfl

/-- Both versions of `mappages` stop in the same way. -/
theorem mappagesLoop_sim (perm : Pte) (n a pa : ℕ) (h : Sim 2 pt 0 G kr k) :
    (∃ e, Vm.mappagesLoop perm n pt a pa kr = .error e ∧
      mappagesLoop (root pt) perm n a pa k = .error e) ∨
    ∃ ok pt' kr' k', Vm.mappagesLoop perm n pt a pa kr = .ok ((ok, pt'), kr') ∧
      mappagesLoop (root pt) perm n a pa k = .ok (ok, k') ∧ Sim 2 pt' 0 G kr' k' ∧
      root pt' = root pt := by
  induction n generalizing a pa pt kr k with
  | zero => exact Or.inr ⟨true, pt, kr, k, rfl, rfl, h, rfl⟩
  | succ n ih =>
    rw [Vm.mappagesLoop, mappagesLoop]
    by_cases hva : a < MAXVA
    · obtain ⟨pt₁, kr₁, k₁, hr, hw, hsim, hroot⟩ := walk_sim h hva
      rw [bind_of_ok hr, bind_of_ok hw]
      cases hptr : slotPtr 2 pt₁ a with
      | none => exact Or.inr ⟨false, pt₁, kr₁, k₁, rfl, rfl, hsim, hroot⟩
      | some slot =>
        have hload : load slot k₁ = .ok (wordAt k₁.mem slot, k₁) := rfl
        simp only [Option.isSome_some, Bool.not_true, Bool.false_eq_true, if_false]
        rw [bind_of_ok (load_sim hsim hptr), bind_of_ok hload]
        by_cases hV : (wordAt k₁.mem slot).has PTE_V
        · rw [if_pos hV, if_pos hV]
          exact Or.inl ⟨_, rfl, rfl⟩
        · rw [if_neg hV, if_neg hV, store, bind_of_ok (setMem_run _ _), ← hroot]
          have hstore := (hsim.store hptr (mapPte pa perm)).1
          have hroot' : root (setSlot pt₁ a (mapPte pa perm)) = root pt₁ := root_setSlot _ _ _
          rcases ih (a + PGSIZE) (pa + PGSIZE) hstore with
            ⟨e, he⟩ | ⟨ok, pt', kr', k', h1, h2, h3, h4⟩
          · rw [← hroot']
            exact Or.inl ⟨e, he⟩
          · refine Or.inr ⟨ok, pt', kr', k', h1, ?_, h3, h4.trans hroot'⟩
            rw [← hroot']
            exact h2
    · have hr : Vm.walk pt a true kr = .error .walk := by
        rw [Vm.walk, if_pos (not_lt.mp hva)]
        rfl
      have hw : walk (root pt) a true k = .error .walk := by
        rw [walk, if_pos (not_lt.mp hva)]
        rfl
      exact Or.inl ⟨.walk, bind_of_error hr, bind_of_error hw⟩

theorem mappages_sim (va size pa : ℕ) (perm : Pte) (h : Sim 2 pt 0 G kr k) :
    (∃ e, Vm.mappages pt va size pa perm kr = .error e ∧
      mappages (root pt) va size pa perm k = .error e) ∨
    ∃ ok pt' kr' k', Vm.mappages pt va size pa perm kr = .ok ((ok, pt'), kr') ∧
      mappages (root pt) va size pa perm k = .ok (ok, k') ∧ Sim 2 pt' 0 G kr' k' ∧
      root pt' = root pt := by
  rw [Vm.mappages, mappages]
  by_cases hva : va % PGSIZE ≠ 0
  · rw [if_pos hva, if_pos hva]
    exact Or.inl ⟨_, rfl, rfl⟩
  rw [if_neg hva, if_neg hva]
  by_cases hsize : size % PGSIZE ≠ 0
  · rw [if_pos hsize, if_pos hsize]
    exact Or.inl ⟨_, rfl, rfl⟩
  rw [if_neg hsize, if_neg hsize]
  by_cases hzero : size = 0
  · rw [if_pos hzero, if_pos hzero]
    exact Or.inl ⟨_, rfl, rfl⟩
  rw [if_neg hzero, if_neg hzero]
  exact mappagesLoop_sim perm _ va pa h

/-! ## uvmunmap -/

theorem kfree_rest (hrest : k = { kr with mem := k.mem }) (hrun : kfree pa kr = .ok ((), kr')) :
    ∃ mem', kfree pa k = .ok ((), { kr' with mem := mem' }) ∧
      (kr'.mem = kr.mem ∧ mem' = k.mem ∨ kr'.mem = memset pa 1 PGSIZE kr.mem ∧
        mem' = memset pa 1 PGSIZE k.mem ∧ pa ∈ kr'.freelist) := by
  unfold kfree at *
  by_cases hbad : pa % PGSIZE ≠ 0 ∨ pa < kend ∨ PHYSTOP ≤ pa
  · rw [if_pos hbad] at hrun
    cases hrun
  rw [if_neg hbad] at hrun ⊢
  have href : (k.addRef pa (-1)).refcnt = (kr.addRef pa (-1)).refcnt := by rw [hrest]; rfl
  dsimp only at hrun ⊢
  rw [href]
  split at hrun
  · next hz =>
    cases hrun
    refine ⟨memset pa 1 PGSIZE k.mem, ?_, Or.inr ⟨rfl, rfl, List.mem_cons_self⟩⟩
    rw [if_pos hz]
    rw [hrest]
    rfl
  · next hz =>
    cases hrun
    refine ⟨k.mem, ?_, Or.inl ⟨rfl, rfl⟩⟩
    rw [if_neg hz]
    rw [hrest]
    rfl

/-- Dropping a reference that the rest of the kernel holds. -/
theorem Sim.kfree (h : Sim 2 pt 0 (pa ::ₘ G) kr k) :
    ∃ kr' k', kfree pa kr = .ok ((), kr') ∧ kfree pa k = .ok ((), k') ∧ Sim 2 pt 0 G kr' k' := by
  have hacct : Acct kr (pa ::ₘ (Radix.tags 2 pt + 0 + G)) := by
    have h1 := h.acct
    rwa [Multiset.add_cons] at h1
  have hpa := hacct.valid_of_mem pa (Multiset.mem_cons_self _ _)
  obtain ⟨kr', hrun, hstep, -⟩ := kfree_spec hacct
  obtain ⟨mem', hrun', hmem⟩ := kfree_rest h.rest hrun
  refine ⟨kr', _, hrun, hrun', hstep.acct, h.nodup, ?_, rfl, fun x hx => ?_⟩
  · rcases hmem with ⟨-, hm⟩ | ⟨-, hm, hfree⟩
    · exact hm ▸ h.holds
    · have hnot := hstep.acct.not_mem_of_free hfree
      refine h.holds.congr fun b hb j hj => ?_
      have hb' : b ∈ Radix.tags 2 pt + 0 := Multiset.mem_add.mpr (Or.inl hb)
      change mem' (b + j) = k.mem (b + j)
      rw [hm]
      exact memset_outside 1 _ hpa.1 (h.page hb').1
        (fun heq => hnot (heq ▸ Multiset.mem_add.mpr (Or.inl hb'))) hj
  · change mem' x = kr'.mem x
    rcases hmem with ⟨hr, hm⟩ | ⟨hr, hm, -⟩
    · rw [hm, hr]
      exact h.data x hx
    · rw [hm, hr]
      simp only [memset, memmove]
      split
      · rfl
      · exact h.data x hx

/-- The references that `uvmunmap` drops for the page `v`. -/
def freed (doFree : Bool) (pt : PageTable) (v : ℕ) : Multiset ℕ :=
  if doFree then pteRef (leaf pt v) else 0

theorem uvmunmapPage_sim (doFree : Bool) (hv : v < 2 ^ 26)
    (h : Sim 2 pt 0 (freed doFree pt v + G) kr k) :
    ∃ pt' kr' k', Vm.uvmunmapPage doFree pt (v * PGSIZE) kr = .ok (pt', kr') ∧
      uvmunmapPage (root pt) doFree (v * PGSIZE) k = .ok ((), k') ∧ Sim 2 pt' 0 G kr' k' ∧
      root pt' = root pt ∧
      ∀ w < 2 ^ 27, leaf pt' w = if w = v ∧ (leaf pt v).has PTE_V then 0 else leaf pt w := by
  have hw := walk_sim_find h (page_lt_maxva hv)
  rw [uvmunmapPage, bind_of_ok hw]
  cases hV : (leaf pt v).has PTE_V with
  | false =>
    have hnone : freed doFree pt v = 0 := by
      cases doFree with
      | false => rfl
      | true => exact pteRef_invalid hV
    rw [hnone, zero_add] at h
    refine ⟨pt, kr, k, uvmunmapPage_skip hv hV, ?_, h, rfl, fun w _ => by simp⟩
    cases hptr : slotPtr 2 pt (v * PGSIZE) with
    | none => rfl
    | some slot =>
      have hget : Vm.slot pt (v * PGSIZE) = some (wordAt k.mem slot) := h.holds.read hptr
      have hleaf : leaf pt v = wordAt k.mem slot := by rw [leaf, hget]; rfl
      have hload : load slot k = .ok (wordAt k.mem slot, k) := rfl
      rw [hleaf] at hV
      dsimp only
      rw [bind_of_ok hload, if_neg (by rw [hV]; simp)]
      rfl
  | true =>
    have hsome : (slotPtr 2 pt (v * PGSIZE)).isSome := by
      rw [slotPtr_slot]
      exact slot_isSome_of_valid (by rwa [page_div])
    obtain ⟨slot, hptr⟩ := Option.isSome_iff_exists.mp hsome
    have hget : Vm.slot pt (v * PGSIZE) = some (wordAt k.mem slot) := h.holds.read hptr
    have hleaf : leaf pt v = wordAt k.mem slot := by rw [leaf, hget]; rfl
    have hload : load slot k = .ok (wordAt k.mem slot, k) := rfl
    have hset := setLeaf_clear hv hV
    obtain ⟨kr₁, k₁, hr₁, hw₁, hsim₁⟩ : ∃ kr₁ k₁,
        (if doFree then kfree (pte2pa (leaf pt v)) else pure ()) kr = .ok ((), kr₁) ∧
        (if doFree then kfree (pte2pa (leaf pt v)) else pure ()) k = .ok ((), k₁) ∧
        Sim 2 pt 0 G kr₁ k₁ := by
      cases doFree with
      | false =>
        rw [freed, if_neg (by simp), zero_add] at h
        exact ⟨kr, k, rfl, rfl, h⟩
      | true =>
        rw [freed, if_pos rfl, pteRef_valid hV, Multiset.singleton_add] at h
        exact h.kfree
    refine ⟨setSlot pt (v * PGSIZE) 0, kr₁, { k₁ with mem := setWord slot 0 k₁.mem }, ?_, ?_,
      (hsim₁.store hptr 0).1, root_setSlot _ _ _, fun w hw => ?_⟩
    · rw [uvmunmapPage_valid hv hV, bind_of_ok hr₁]
      rfl
    · rw [hleaf] at hV hw₁
      rw [hptr]
      dsimp only
      rw [bind_of_ok hload, if_pos hV]
      cases doFree with
      | false =>
        cases hw₁
        rfl
      | true =>
        simp only [if_true] at hw₁ ⊢
        rw [bind_of_ok hw₁]
        rfl
    · rw [hset w hw]
      simp

theorem uvmunmapLoop_sim (doFree : Bool) (n v : ℕ) (hn : v + n ≤ 2 ^ 26)
    (h : Sim 2 pt 0 (∑ w ∈ Finset.Ico v (v + n), freed doFree pt w + G) kr k) :
    ∃ pt' kr' k', Vm.uvmunmapLoop doFree n pt (v * PGSIZE) kr = .ok (pt', kr') ∧
      uvmunmapLoop (root pt) doFree n (v * PGSIZE) k = .ok ((), k') ∧ Sim 2 pt' 0 G kr' k' ∧
      root pt' = root pt ∧
      ∀ w < 2 ^ 27, leaf pt' w =
        if (v ≤ w ∧ w < v + n) ∧ (leaf pt w).has PTE_V then 0 else leaf pt w := by
  induction n generalizing v pt kr k with
  | zero =>
    rw [Nat.add_zero, Finset.Ico_self, Finset.sum_empty, zero_add] at h
    refine ⟨pt, kr, k, rfl, rfl, h, rfl, fun w _ => ?_⟩
    rw [if_neg fun hc => absurd hc.1 (by omega)]
  | succ n ih =>
    rw [Finset.sum_eq_sum_Ico_succ_bot (by omega), add_assoc] at h
    obtain ⟨pt₁, kr₁, k₁, hr, hw, hsim, hroot, hleaf⟩ := uvmunmapPage_sim doFree (by omega) h
    have hsum : ∑ w ∈ Finset.Ico (v + 1) (v + (n + 1)), freed doFree pt w =
        ∑ w ∈ Finset.Ico (v + 1) (v + 1 + n), freed doFree pt₁ w := by
      rw [show v + (n + 1) = v + 1 + n by omega]
      refine Finset.sum_congr rfl fun w hwin => ?_
      obtain ⟨hlo, hhi⟩ := Finset.mem_Ico.mp hwin
      have hsame : leaf pt₁ w = leaf pt w := by
        rw [hleaf w (by omega), if_neg fun hc => absurd hc.1 (by omega)]
      rw [freed, freed, hsame]
    rw [hsum] at hsim
    obtain ⟨pt', kr', k', hr', hw', hsim', hroot', hleaf'⟩ := ih (v + 1) (by omega) hsim
    refine ⟨pt', kr', k', ?_, ?_, hsim', hroot'.trans hroot, fun w hwlt => ?_⟩
    · rw [Vm.uvmunmapLoop, bind_of_ok hr, page_succ]
      exact hr'
    · rw [uvmunmapLoop, bind_of_ok hw, page_succ, ← hroot]
      exact hw'
    · rw [hleaf' w hwlt, hleaf w hwlt]
      by_cases hwv : w = v
      · subst hwv
        rw [if_neg fun hc => absurd hc.1 (by omega)]
        simp
      · have hiff : (v + 1 ≤ w ∧ w < v + 1 + n) ↔ (v ≤ w ∧ w < v + (n + 1)) := by omega
        simp only [hwv, false_and, if_false, hiff]

/-! ## freewalk -/

/-- What `freewalk` needs of slot `i` of a table: the word of a subtree that memory holds, or
an invalid one. -/
def SlotOk (mem : ℕ → UInt8) {n : ℕ} (t : Table (n + 1)) (i : Fin 512) : Prop :=
  (t.2 i = none → (wordAt mem (slotAt t.1 i)).has PTE_V = false) ∧
  ∀ c, t.2 i = some c →
    wordAt mem (slotAt t.1 i) = pa2pte (Radix.tag n c) ||| PTE_V ∧ Holds mem n c

/-- The tags below slot `i`. -/
@[irreducible] def below {n : ℕ} (t : Table (n + 1)) (i : Fin 512) : Multiset ℕ := (t.2 i).elim 0 (Radix.tags n)

/-- The body of the loop of `freewalk`. -/
def freewalkSlot (depth pagetable : ℕ) (i : Fin 512) : VmM Unit := do
  let x ← load (slotAt pagetable i)
  if x.has PTE_V then
    if (x &&& (PTE_R ||| PTE_W ||| PTE_X)) = 0 then do
      freewalk depth (pte2pa x)
      store (slotAt pagetable i) 0
    else throw .freewalkLeaf
  else pure ()

theorem freewalk_eq (depth pagetable : ℕ) : freewalk (depth + 1) pagetable =
    (List.finRange 512).forM (freewalkSlot depth pagetable) >>= fun _ => kfree pagetable := rfl

omit [KernelImage] in
/-- A word for a subtree has no permissions. -/
theorem child_word_perm (pa : ℕ) :
    (pa2pte pa ||| PTE_V) &&& (PTE_R ||| PTE_W ||| PTE_X) = 0 := by
  apply BitVec.eq_of_getLsbD_eq
  intro i hi
  simp only [BitVec.getLsbD_and, BitVec.getLsbD_or, getLsbD_PTE_R, getLsbD_PTE_W, getLsbD_PTE_X,
    getLsbD_PTE_V]
  by_cases hlow : i < 10
  · rw [pa2pte_low pa i hlow]
    by_cases h0 : i = 0 <;> simp [h0]
  · simp
    omega

/-- A run of `freewalk` on the table at `page` ends with the references `T + G`, and leaves the
other tables `T` alone. -/
def Frees (depth page : ℕ) (T G : Multiset ℕ) (k : Phys) : Prop :=
  ∃ k', freewalk depth page k = .ok ((), k') ∧ Acct k' (T + G) ∧ Fixed T k.mem k'.mem

section
variable {n : ℕ}

theorem freewalkSlot_run {t : Table (n + 1)} {T : Multiset ℕ} {i : Fin 512}
    (hsub : ∀ c, t.2 i = some c → ∀ {T k}, Acct k (Radix.tags n c + T + G) →
      (Radix.tags n c + T).Nodup → Holds k.mem n c → Frees (n + 1) (Radix.tag n c) T G k)
    (hacct : Acct k (below t i + T + G)) (hnodup : (below t i + T).Nodup) (htop : t.1 ∈ T)
    (hslot : SlotOk k.mem t i) :
    ∃ k', freewalkSlot (n + 1) t.1 i k = .ok ((), k') ∧ Acct k' (T + G) ∧
      (∀ S, S ≤ T → t.1 ∉ S → Fixed S k.mem k'.mem) ∧
      ∀ j ≠ i, wordAt k'.mem (slotAt t.1 j) = wordAt k.mem (slotAt t.1 j) := by
  have hload : load (slotAt t.1 i) k = .ok (wordAt k.mem (slotAt t.1 i), k) := rfl
  rw [freewalkSlot, bind_of_ok hload]
  cases hc : t.2 i with
  | none =>
    rw [below, hc, Option.elim_none, zero_add] at hacct
    simp only [hslot.1 hc, Bool.false_eq_true, if_false]
    exact ⟨k, rfl, hacct, fun S _ _ => Fixed.refl _ _, fun _ _ => rfl⟩
  | some c =>
    obtain ⟨hword, hholds⟩ := hslot.2 c hc
    rw [below, hc, Option.elim_some] at hacct hnodup
    have hvalid (b : ℕ) (hb : b ∈ Radix.tags n c + T) : PageAddr b :=
      hacct.valid_of_mem b (Multiset.mem_add.mpr (Or.inl hb))
    have hpage := hvalid _ (Multiset.mem_add.mpr (Or.inl (Radix.tag_mem_tags c)))
    obtain ⟨hV, hpa⟩ := child_word hpage
    obtain ⟨k₁, hrun, hacct₁, hfix₁⟩ := hsub c hc hacct hnodup hholds
    have hal := (hvalid _ (Multiset.mem_add.mpr (Or.inr htop))).1
    refine ⟨{ k₁ with mem := setWord (slotAt t.1 i) 0 k₁.mem }, ?_, hacct₁, fun S hS hnot => ?_,
      fun j hj => ?_⟩
    · rw [hword, if_pos hV, if_pos (child_word_perm _), hpa, bind_of_ok hrun]
      rfl
    · refine (hfix₁.mono hS).trans (fixed_setWord hal i 0 (fun b hb => ⟨?_, ?_⟩) _)
      · exact (hvalid _ (Multiset.mem_add.mpr (Or.inr (Multiset.mem_of_le hS hb)))).1
      · exact fun heq => hnot (heq ▸ hb)
    · change wordAt (setWord _ _ k₁.mem) _ = _
      rw [wordAt_setWord_slot _ _ hj]
      exact hfix₁.wordAt_eq htop j

theorem freewalk_loop {t : Table (n + 1)} {T : Multiset ℕ} (l : List (Fin 512)) (hl : l.Nodup)
    (hsub : ∀ i c, t.2 i = some c → ∀ {T k}, Acct k (Radix.tags n c + T + G) →
      (Radix.tags n c + T).Nodup → Holds k.mem n c → Frees (n + 1) (Radix.tag n c) T G k)
    (hacct : Acct k ((l.map (below t)).sum + ({t.1} + T) + G))
    (hnodup : ((l.map (below t)).sum + ({t.1} + T)).Nodup) (hslots : ∀ i ∈ l, SlotOk k.mem t i) :
    ∃ k', l.forM (freewalkSlot (n + 1) t.1) k = .ok ((), k') ∧ Acct k' ({t.1} + T + G) ∧
      Fixed T k.mem k'.mem := by
  induction l generalizing k with
  | nil =>
    rw [List.map_nil, List.sum_nil, zero_add] at hacct
    exact ⟨k, rfl, hacct, Fixed.refl _ _⟩
  | cons i l ih =>
    obtain ⟨hil, hl'⟩ := List.nodup_cons.mp hl
    rw [List.map_cons, List.sum_cons, add_assoc (below t i)] at hacct hnodup
    have hnd := (Multiset.nodup_add.mp hnodup).2.1
    have htopNot : t.1 ∉ (l.map (below t)).sum + T := by
      rw [add_left_comm] at hnd
      exact Multiset.disjoint_left.mp (Multiset.nodup_add.mp hnd).2.2
        (Multiset.mem_singleton_self _)
    have hle : (l.map (below t)).sum + T ≤ (l.map (below t)).sum + ({t.1} + T) :=
      add_le_add_right (Multiset.le_add_left _ _) _
    have htop : t.1 ∈ (l.map (below t)).sum + ({t.1} + T) := Multiset.mem_add.mpr (Or.inr
      (Multiset.mem_add.mpr (Or.inl (Multiset.mem_singleton_self _))))
    obtain ⟨k₁, hrun, hacct₁, hfix, hword⟩ := freewalkSlot_run (hsub i) hacct hnodup htop
      (hslots i List.mem_cons_self)
    have hfix₁ := hfix _ hle htopNot
    have hslots₁ (j : Fin 512) (hj : j ∈ l) : SlotOk k₁.mem t j := by
      have hne : j ≠ i := fun heq => hil (heq ▸ hj)
      obtain ⟨hnone, hsome⟩ := hslots j (List.mem_cons_of_mem i hj)
      rw [SlotOk, hword j hne]
      refine ⟨hnone, fun c hc => ⟨(hsome c hc).1, (hsome c hc).2.congr (hfix₁.mono ?_)⟩⟩
      have hmem : below t j ≤ (l.map (below t)).sum :=
        List.single_le_sum (fun _ _ => Multiset.zero_le _) _ (List.mem_map_of_mem hj)
      rw [below, hc, Option.elim_some] at hmem
      exact hmem.trans (Multiset.le_add_right _ _)
    obtain ⟨k', hrun', hacct', hfix'⟩ := ih hl' hacct₁ hnd hslots₁
    refine ⟨k', ?_, hacct', (hfix₁.mono (Multiset.le_add_left _ _)).trans hfix'⟩
    change (freewalkSlot (n + 1) t.1 i >>= fun _ => l.forM (freewalkSlot (n + 1) t.1)) k = _
    rw [bind_of_ok hrun, hrun']

end

theorem Frees.of_loop {n page : ℕ} {T : Multiset ℕ} {k₁ : Phys}
    (hloop : (List.finRange 512).forM (freewalkSlot n page) k = .ok ((), k₁))
    (hacct : Acct k₁ ({page} + T + G)) (hfix : Fixed T k.mem k₁.mem) :
    Frees (n + 1) page T G k := by
  rw [add_assoc, Multiset.singleton_add] at hacct
  obtain ⟨k', hrun, hstep, -⟩ := kfree_spec hacct
  refine ⟨k', ?_, hstep.acct, hfix.trans fun b hb => ?_⟩
  · rw [freewalk_eq, bind_of_ok hloop, hrun]
  · exact hstep.same.page b (Multiset.mem_add.mpr (Or.inl hb))

/-- `freewalk` on a tree without leaves drops one reference to each of its pages. -/
theorem freewalk_run (n : ℕ) (t : Table n) {T G : Multiset ℕ} {k : Phys}
    (hleaf : ∀ d, ((Radix.get n t d).getD 0).has PTE_V = false)
    (hacct : Acct k (Radix.tags n t + T + G)) (hnodup : (Radix.tags n t + T).Nodup)
    (hholds : Holds k.mem n t) : Frees (n + 1) (Radix.tag n t) T G k := by
  induction n generalizing T k with
  | zero =>
    have hslot (i : Fin 512) : freewalkSlot 0 (Radix.tag 0 t) i k = .ok ((), k) := by
      have hi : (t.2 i).has PTE_V = false := hleaf fun _ => i
      have hload : load (slotAt (Radix.tag 0 t) i) k = .ok (t.2 i, k) :=
        congrArg (fun x => Except.ok (x, k)) (hholds i)
      rw [freewalkSlot, bind_of_ok hload, if_neg (by rw [hi]; simp)]
      rfl
    have hloop (l : List (Fin 512)) : l.forM (freewalkSlot 0 (Radix.tag 0 t)) k = .ok ((), k) := by
      induction l with
      | nil => rfl
      | cons i l ih =>
        change (freewalkSlot 0 _ i >>= fun _ => l.forM _) k = _
        rw [bind_of_ok (hslot i), ih]
    rw [Radix.tags_zero] at hacct
    exact Frees.of_loop (hloop _) hacct (Fixed.refl _ _)
  | succ n ih =>
    have hsub (i : Fin 512) (c : Table n) (hc : t.2 i = some c) {T : Multiset ℕ} {k : Phys}
        (hacct : Acct k (Radix.tags n c + T + G)) (hnodup : (Radix.tags n c + T).Nodup)
        (hholds : Holds k.mem n c) :
        Frees (n + 1) (Radix.tag n c) T G k := by
      refine ih c (fun d => ?_) hacct hnodup hholds
      have hd := hleaf (Function.update d (n + 1) i)
      rw [Radix.get, Function.update_self, hc, Option.bind_some, Radix.get_congr c (e := d)] at hd
      · exact hd
      · intro l hl
        rw [Function.update_of_ne (by omega)]
    have htags : Radix.tags (n + 1) t = ((List.finRange 512).map (below t)).sum + {t.1} := by
      rw [Radix.tags_succ, ← Fin.sum_univ_def, add_comm]
      simp only [below]
    rw [htags, add_assoc _ {t.1}] at hacct hnodup
    have hslots (i : Fin 512) : SlotOk k.mem t i :=
      ⟨hholds.absent, fun c hc => hholds.child hc⟩
    obtain ⟨l, hl⟩ : ∃ l, l = List.finRange 512 := ⟨_, rfl⟩
    rw [← hl] at hacct hnodup
    have hnd : l.Nodup := by
      rw [hl]
      exact List.nodup_finRange 512
    obtain ⟨k₁, hloop, hacct₁, hfix₁⟩ := freewalk_loop l hnd hsub hacct hnodup fun i _ => hslots i
    rw [hl] at hloop
    exact Frees.of_loop hloop hacct₁ hfix₁

end

end Xv6.Vm.Words
