import Xv6.Vm.UvmSpec

/-! # Page faults and copies between kernel and user

A fault that is served changes nothing that the user can see: a lazily
allocated page reads as zeros, and a copied page has the old contents and
rights.
-/
namespace Xv6.Vm
open Library Library.Exec Library.RefCount

variable [KernelImage] {G : Multiset ℕ} {pt pt₁ pt' : PageTable} {k k₁ k' : Phys}

def lazyRights : Rights := ⟨true, false, true, true⟩

/-- A page table maps what it mapped before with the same rights; new pages are in `S`.  Only
an entry marked copy-on-write may have changed. -/
structure Remap (S : ℕ → Prop) (pt pt' : PageTable) : Prop where
  keeps : ∀ v < UPAGES, (leaf pt v).has PTE_V →
    (leaf pt' v).has PTE_V ∧ rights (leaf pt' v) = rights (leaf pt v)
  adds : ∀ v < UPAGES, (leaf pt' v).has PTE_V →
    (leaf pt v).has PTE_V ∨ S v ∧ rights (leaf pt' v) = lazyRights
  fixed : ∀ v < UPAGES, (leaf pt v).has PTE_V → (leaf pt v).has PTE_COW = false →
    leaf pt' v = leaf pt v

omit [KernelImage] in
theorem Remap.refl (S : ℕ → Prop) (pt : PageTable) : Remap S pt pt :=
  ⟨fun _ _ hV => ⟨hV, rfl⟩, fun _ _ hV => Or.inl hV, fun _ _ _ _ => rfl⟩

omit [KernelImage] in
theorem Remap.trans {S : ℕ → Prop} (h : Remap S pt pt₁) (h' : Remap S pt₁ pt') :
    Remap S pt pt' where
  keeps := by
    intro v hv hV
    obtain ⟨hV₁, hr₁⟩ := h.keeps v hv hV
    obtain ⟨hV', hr'⟩ := h'.keeps v hv hV₁
    exact ⟨hV', hr'.trans hr₁⟩
  adds := by
    intro v hv hV
    rcases h'.adds v hv hV with hV₁ | hnew
    · rcases h.adds v hv hV₁ with hV₀ | ⟨hS, hr⟩
      · exact Or.inl hV₀
      · exact Or.inr ⟨hS, (h'.keeps v hv hV₁).2.trans hr⟩
    · exact Or.inr hnew
  fixed := by
    intro v hv hV hC
    have h₁ := h.fixed v hv hV hC
    rw [h'.fixed v hv (h₁ ▸ hV) (h₁ ▸ hC), h₁]

omit [KernelImage] in
theorem Remap.mono {S T : ℕ → Prop} (h : Remap S pt pt') (hST : ∀ v, S v → T v) :
    Remap T pt pt' :=
  { h with adds := fun v hv hV => (h.adds v hv hV).imp_right fun hS => ⟨hST v hS.1, hS.2⟩ }

/-- The user sees no change: pages may have been copied, and those in `S` allocated. -/
structure Quiet (G : Multiset ℕ) (S : ℕ → Prop) (pt : PageTable) (k : Phys) (pt' : PageTable)
    (k' : Phys) : Prop extends Remap S pt pt' where
  evolve : Evolve G pt k pt' k'
  view_eq : ∀ v < UPAGES, ∀ i < PGSIZE, view pt' k'.mem v i = view pt k.mem v i

theorem Quiet.refl (h : UserSpace pt k G) (S : ℕ → Prop) : Quiet G S pt k pt k :=
  ⟨Remap.refl S pt, Evolve.refl h, fun _ _ _ _ => rfl⟩

theorem Quiet.oom (h : UserSpace pt k G) (S : ℕ → Prop) :
    Quiet G S pt k pt { k with oom := true } :=
  ⟨Remap.refl S pt, Evolve.oom h, fun _ _ _ _ => rfl⟩

theorem Quiet.trans {S : ℕ → Prop} (h : Quiet G S pt k pt₁ k₁) (h' : Quiet G S pt₁ k₁ pt' k') :
    Quiet G S pt k pt' k' where
  toRemap := h.toRemap.trans h'.toRemap
  evolve := h.evolve.trans h'.evolve
  view_eq := fun v hv i hi => (h'.view_eq v hv i hi).trans (h.view_eq v hv i hi)

theorem Quiet.mono {S T : ℕ → Prop} (h : Quiet G S pt k pt' k') (hST : ∀ v, S v → T v) :
    Quiet G T pt k pt' k' :=
  { h with toRemap := h.toRemap.mono hST }

theorem NoPage.quiet {S : ℕ → Prop} (h : NoPage G pt k pt' k') : Quiet G S pt k pt' k' := by
  have hU := UPAGES_eq
  refine ⟨⟨?_, ?_, fun v hv _ _ => h.leaves v (by omega)⟩, h.evolve, ?_⟩
  · intro v hv hV
    rw [h.leaves v (by omega)]
    exact ⟨hV, rfl⟩
  · intro v hv hV
    rw [h.leaves v (by omega)] at hV
    exact Or.inl hV
  · intro v hv i hi
    exact view_of_sameOn (h.leaves v (by omega)) h.same
      (fun hV => Multiset.mem_add.mpr (Or.inl (mem_own hv hV))) hi

theorem NewPage.quiet {v mem : ℕ} {perm : Pte} (h : NewPage G v mem perm pt k pt' k')
    (hfree : (leaf pt v).has PTE_V = false) (hr : rights perm = lazyRights) :
    Quiet G (· = v) pt k pt' k' := by
  have hU := UPAGES_eq
  have hold (w : ℕ) (hw : w < UPAGES) (hV : (leaf pt w).has PTE_V) : leaf pt' w = leaf pt w := by
    rw [h.stored w (by omega), if_neg]
    rintro rfl
    rw [hfree] at hV
    cases hV
  refine ⟨⟨?_, ?_, fun w hw hV _ => hold w hw hV⟩, h.evolve, ?_⟩
  · intro w hw hV
    rw [hold w hw hV]
    exact ⟨hV, rfl⟩
  · intro w hw hV
    by_cases hwv : w = v
    · subst hwv
      rw [h.stored w (by omega), if_pos rfl, rights_mapPte]
      exact Or.inr ⟨rfl, hr⟩
    · rw [h.stored w (by omega), if_neg hwv] at hV
      exact Or.inl hV
  · intro w hw i hi
    by_cases hwv : w = v
    · subst hwv
      rw [view_of_invalid hfree, view, h.stored w (by omega), if_pos rfl, if_pos mapPte_flags.1,
        h.addr]
      exact h.zero i hi
    · exact view_of_sameOn (by rw [h.stored w (by omega), if_neg hwv]) h.same
        (fun hV => Multiset.mem_add.mpr (Or.inl (mem_own hw hV))) hi

/-! ## Copy-on-write -/

omit [KernelImage] in
theorem rights_copiedPte {mem : ℕ} {pte : Pte} (h : pte.has PTE_COW) :
    rights (copiedPte mem pte) = rights pte := by
  simp [rights, h]

theorem cowCopy_spec {v mem : ℕ} (h : UserSpace pt k G) (hv : v < UPAGES)
    (hV : (leaf pt v).has PTE_V) (hC : (leaf pt v).has PTE_COW)
    (hrun : kalloc k = .ok (some mem, k₁)) :
    ∃ k', kfree (pte2pa (leaf pt v)) { k₁ with
        mem := memmove mem (fun i => k₁.mem (pte2pa (leaf pt v) + i)) PGSIZE k₁.mem } =
          .ok ((), k') ∧
      SetLeaf pt (setSlot pt (v * PGSIZE) (copiedPte mem (leaf pt v))) v
        (copiedPte mem (leaf pt v)) ∧
      pte2pa (copiedPte mem (leaf pt v)) = mem ∧
      Quiet G (fun _ => False) pt k (setSlot pt (v * PGSIZE) (copiedPte mem (leaf pt v))) k' := by
  have hU := UPAGES_eq
  rcases kalloc_spec h.acct with ⟨hnone, -⟩ | ⟨mem', k₁', hsome, hstep, hnot, hpage, -, -⟩
  · rw [hnone] at hrun
    cases hrun
  rw [hsome] at hrun
  obtain ⟨rfl, rfl⟩ : mem' = mem ∧ k₁' = k₁ := by
    simpa using hrun
  set pa := pte2pa (leaf pt v) with hpa
  set pt' := setSlot pt (v * PGSIZE) (copiedPte mem' (leaf pt v)) with hpt'
  have hset : SetLeaf pt pt' v (copiedPte mem' (leaf pt v)) :=
    setLeaf_setSlot (by omega) (slot_isSome_of_valid (by rwa [page_div])) _
  have haddr : pte2pa (copiedPte mem' (leaf pt v)) = mem' := pte2pa_copiedPte hpage.1 hpage.lt
  have hpaMem : pa ∈ own pt + G := Multiset.mem_add.mpr (Or.inl (mem_own hv hV))
  -- The new page replaces the old one among the references.
  have hown := own_setLeaf 0 hv hset (by simp [hpt'])
  rw [pteRef_valid hV, pteRef_valid (by simpa using hV), haddr, add_zero] at hown
  have hrefs : mem' ::ₘ (own pt + G) = pa ::ₘ (own pt' + G) := by
    rw [← Multiset.singleton_add, ← Multiset.singleton_add, ← add_assoc, ← add_assoc, ← hown,
      add_comm (own pt')]
  have hkeep : ∀ q ∈ own pt + G, q % PGSIZE = 0 ∧ q ≠ mem' := fun q hq =>
    ⟨(h.acct.valid_of_mem q hq).1, fun he => hnot (he ▸ hq)⟩
  let k₂ : Phys := { k₁' with
    mem := memmove mem' (fun i => k₁'.mem (pa + i)) PGSIZE k₁'.mem }
  have hsame₂ : SameOn (own pt + G) k.mem k₂.mem :=
    hstep.same.trans (sameOn_memmove_page (fun i => k₁'.mem (pa + i)) hpage hkeep)
  have hacct₂ : Acct k₂ (pa ::ₘ (own pt' + G)) := hrefs ▸ hstep.acct
  obtain ⟨k', hfree, hstep', hoom'⟩ := kfree_spec hacct₂
  have hmem' : mem' ∈ own pt' + G := by
    have hin : mem' ∈ pa ::ₘ (own pt' + G) := hrefs ▸ Multiset.mem_cons_self _ _
    rcases Multiset.mem_cons.mp hin with he | hin
    · exact absurd (he ▸ hpaMem) hnot
    · exact hin
  have hsharing : NoNewSharing (own pt + G) (own pt' + G) :=
    (NoNewSharing.cons hnot).trans (NoNewSharing.of_le (hrefs ▸ Multiset.le_cons_self _ _))
  have hcopied (i : ℕ) (hi : i < PGSIZE) : k'.mem (mem' + i) = k.mem (pa + i) := by
    rw [hstep'.same.page mem' hmem' i hi, ← hstep.same.page pa hpaMem i hi]
    exact memmove_inside mem' (fun i => k₁'.mem (pa + i)) k₁'.mem hi
  have hremap : Remap (fun _ => False) pt pt' := by
    refine ⟨fun w hw hVw => ?_, fun w hw hVw => ?_, fun w hw _ hCw => ?_⟩
    · rw [hset w (by omega)]
      split
      · next hwv =>
        subst hwv
        exact ⟨by simpa using hV, rights_copiedPte hC⟩
      · exact ⟨hVw, rfl⟩
    · rw [hset w (by omega)] at hVw
      split at hVw
      · next hwv =>
        subst hwv
        exact Or.inl hV
      · exact Or.inl hVw
    · rw [hset w (by omega), if_neg]
      rintro rfl
      rw [hC] at hCw
      cases hCw
  refine ⟨k', hfree, hset, haddr, hremap, ⟨⟨hstep'.acct, ?_⟩, ?_, ?_, ?_, hsharing,
    root_setSlot ..⟩, ?_⟩
  · refine h.wf.setLeaf hv hset hsharing (Multiset.le_add_right _ _) ⟨?_, by simp, ?_⟩
    · simpa using (h.wf.entry v hv).readable
    · intro _ _
      rw [haddr]
      exact hsharing.count_eq_one (by rw [Multiset.count_eq_zero.mpr hnot]; omega) hmem'
  · exact (hsame₂.mono (Multiset.subset_of_le (Multiset.le_add_left _ _))).trans
      (hstep'.same.mono (Multiset.subset_of_le (Multiset.le_add_left _ _)))
  · exact fun ho => hoom'.trans (hstep.oom_mono ho)
  · intro w hw hlt
    rw [hset w hlt, if_neg (by omega)]
  · intro w hw i hi
    have hleaf := hset w (by omega)
    by_cases hwv : w = v
    · subst hwv
      rw [if_pos rfl] at hleaf
      rw [view, hleaf, if_pos (by simpa using hV), haddr, hcopied i hi, view, if_pos hV]
    · rw [if_neg hwv] at hleaf
      have hafter : view pt' k'.mem w i = view pt' k₂.mem w i := view_of_sameOn rfl hstep'.same
        (fun hVw => Multiset.mem_add.mpr (Or.inl (mem_own hw hVw))) hi
      rw [hafter]
      exact view_of_sameOn hleaf hsame₂
        (fun hVw => Multiset.mem_add.mpr (Or.inl (mem_own hw hVw))) hi

/-! ## vmfault -/

omit [KernelImage] in
theorem ismapped_run {v : ℕ} (hv : v < 2 ^ 26) (k : Phys) :
    ismapped pt (v * PGSIZE) k = .ok ((leaf pt v).has PTE_V, k) := by
  rw [ismapped, bind_of_ok (walk_find (page_lt_maxva hv) k)]
  cases hs : slot pt (v * PGSIZE) with
  | none =>
    have hleaf : leaf pt v = 0 := by rw [leaf, hs]; rfl
    rw [hleaf, has_zero]
    rfl
  | some x =>
    have hsome : (slot pt (v * PGSIZE)).isSome := by rw [hs]; rfl
    have hread := readSlot_run hsome k
    rw [page_div] at hread
    change (readSlot pt (v * PGSIZE) >>= _) k = _
    rw [bind_of_ok hread]
    rfl

/-- What a call of `vmfault` has done. -/
structure Faulted (G : Multiset ℕ) (sz va : ℕ) (read : Bool) (pt : PageTable) (k : Phys)
    (r : Option ℕ) (pt' : PageTable) (k' : Phys) : Prop where
  quiet : Quiet G (fun v => v = va / PGSIZE ∧ va < sz) pt k pt' k'
  hit : ∀ pa, r = some pa → va < sz ∧ (leaf pt' (va / PGSIZE)).has PTE_V ∧
    (leaf pt' (va / PGSIZE)).has PTE_W ∧ (leaf pt' (va / PGSIZE)).has PTE_COW = false ∧
    pte2pa (leaf pt' (va / PGSIZE)) = pa
  miss : r = none → sz ≤ va ∨ k'.oom = true ∨ (leaf pt (va / PGSIZE)).has PTE_V ∧
    (read = true ∨ (leaf pt (va / PGSIZE)).has PTE_COW = false)
  cause : ∀ pa, r = some pa → (leaf pt (va / PGSIZE)).has PTE_V = false ∨
    read = false ∧ (leaf pt (va / PGSIZE)).has PTE_COW
  starved : r = none → va < sz → (leaf pt (va / PGSIZE)).has PTE_V → read = false →
    (leaf pt (va / PGSIZE)).has PTE_COW → k.freelist = []

omit [KernelImage] in
theorem permOk_lazy : PermOk (PTE_W ||| PTE_U ||| PTE_R) where
  flags := ((flagsOnly_one_shift (by omega)).or (flagsOnly_one_shift (by omega))).or
    (flagsOnly_one_shift (by omega))
  readable := by decide
  not_cow := by decide

theorem vmfault_spec {sz : ℕ} (va : ℕ) (read : Bool) (hsz : sz ≤ TRAPFRAME)
    (h : UserSpace pt k G) :
    ∃ r pt' k', vmfault pt sz va read k = .ok ((r, pt'), k') ∧
      Faulted G sz va read pt k r pt' k' := by
  have hU := UPAGES_eq
  by_cases hva : sz ≤ va
  · refine ⟨none, pt, k, ?_, Quiet.refl h _, by simp, fun _ => Or.inl hva, by simp,
      fun _ hlt => absurd hva (not_le.mpr hlt)⟩
    rw [vmfault, if_pos hva]
    rfl
  rw [vmfault, if_neg hva]
  have hv : va / PGSIZE < UPAGES := (div_lt_npages (not_le.mp hva)).trans_le (npages_le hsz)
  have hdown : pgrounddown va = va / PGSIZE * PGSIZE := rfl
  generalize hdiv : va / PGSIZE = v at hv hdown
  dsimp only
  rw [hdown, bind_of_ok (ismapped_run (by omega) k)]
  cases hV : (leaf pt v).has PTE_V with
  | false =>
    simp only [Bool.not_false, if_true]
    rcases allocPage_spec h hv hV permOk_lazy with
      hrun | ⟨mem, k₁, hrun, ok, pt₁, k₃, hmap, hnew, hno⟩
    · refine ⟨none, pt, { k with oom := true }, ?_, Quiet.oom h _, by simp,
        fun _ => Or.inr (Or.inl rfl), by simp, by simp [hdiv, hV]⟩
      rw [bind_of_ok hrun]
      rfl
    rw [bind_of_ok hrun]
    dsimp only
    rw [bind_of_ok (setMem_run _ _), bind_of_ok hmap]
    cases ok with
    | false =>
      obtain ⟨k₄, hfree, hnp⟩ := hno rfl
      refine ⟨none, pt₁, k₄, ?_, hnp.quiet, by simp, fun _ => Or.inr (Or.inl hnp.oom), by simp,
        by simp [hdiv, hV]⟩
      simp only [Bool.not_false, if_true]
      rw [bind_of_ok hfree]
      rfl
    | true =>
      have hpage := hnew rfl
      refine ⟨some mem, pt₁, k₃, rfl, (hpage.quiet hV (by decide)).mono ?_, ?_, by simp,
        fun _ _ => Or.inl (hdiv ▸ hV), by simp⟩
      · exact fun w hw => ⟨hw.trans hdiv.symm, not_le.mp hva⟩
      · intro pa hpa
        cases hpa
        rw [hdiv, hpage.stored v (by omega), if_pos rfl, hpage.addr]
        exact ⟨not_le.mp hva, by simp, by simp; decide, by simp; decide, rfl⟩
  | true =>
    simp only [Bool.not_true, Bool.false_eq_true, if_false]
    have hs : (slot pt (v * PGSIZE)).isSome := slot_isSome_of_valid (by rwa [page_div])
    have hread := readSlot_run hs k
    rw [page_div] at hread
    rw [bind_of_ok (walk_find (page_lt_maxva (by omega)) k)]
    dsimp only
    rw [bind_of_ok hread]
    cases hcow : (!read && (leaf pt v).has PTE_COW) with
    | false =>
      refine ⟨none, pt, k, ?_, Quiet.refl h _, by simp, fun _ => Or.inr (Or.inr ?_), by simp, ?_⟩
      · simp only [Bool.false_eq_true, if_false]
        rfl
      · rw [hdiv]
        cases read with
        | true => exact ⟨hV, Or.inl rfl⟩
        | false => exact ⟨hV, Or.inr hcow⟩
      · rw [hdiv]
        rintro - - - rfl hC
        rw [hC] at hcow
        cases hcow
    | true =>
      simp only [Bool.and_eq_true, Bool.not_eq_true'] at hcow
      simp only [if_true]
      rcases kalloc_spec h.acct with ⟨hrun, hlist⟩ | ⟨mem, k₁, hrun, -⟩
      · refine ⟨none, pt, { k with oom := true }, ?_, Quiet.oom h _, by simp,
          fun _ => Or.inr (Or.inl rfl), by simp, fun _ _ _ _ _ => hlist⟩
        rw [bind_of_ok hrun]
        rfl
      · obtain ⟨k', hfree, hset, haddr, hq⟩ := cowCopy_spec h hv hV hcow.2 hrun
        refine ⟨some mem, _, k', ?_, hq.mono (fun _ => False.elim), ?_, by simp,
          fun _ _ => Or.inr ⟨hcow.1, by rw [hdiv]; exact hcow.2⟩, by simp⟩
        · rw [bind_of_ok hrun]
          dsimp only
          rw [bind_of_ok (setMem_run _ _), bind_of_ok hfree]
          rfl
        · intro pa hpa
          cases hpa
          rw [hdiv, hset v (by omega), if_pos rfl]
          exact ⟨not_le.mp hva, by simpa using hV, by simp, by simp, haddr⟩

/-! ## Finding a page for copyin and copyout -/

omit [KernelImage] in
theorem walkaddr_run (va : ℕ) (k : Phys) :
    walkaddr pt va k = .ok (if va < MAXVA ∧ (leaf pt (va / PGSIZE)).has PTE_V ∧
      (leaf pt (va / PGSIZE)).has PTE_U then some (pte2pa (leaf pt (va / PGSIZE))) else none,
      k) := by
  by_cases hva : MAXVA ≤ va
  · rw [walkaddr, if_pos hva, if_neg (by omega)]
    rfl
  rw [walkaddr, if_neg hva, bind_of_ok (walk_find (not_le.mp hva) k)]
  cases hs : (slot pt va).isSome with
  | false =>
    have hV : (leaf pt (va / PGSIZE)).has PTE_V = false := by
      by_contra hV
      rw [slot_isSome_of_valid (by simpa using hV)] at hs
      cases hs
    rw [if_neg (by simp [hV])]
    rfl
  | true =>
    simp only [Bool.not_true, Bool.false_eq_true, if_false]
    rw [bind_of_ok (readSlot_run hs k)]
    cases hV : (leaf pt (va / PGSIZE)).has PTE_V with
    | false => simp; rfl
    | true =>
      cases hUs : (leaf pt (va / PGSIZE)).has PTE_U with
      | false => simp; rfl
      | true => simp [not_le.mp hva]; rfl

/-- An access to `len` bytes at `va` touches page `v`, which lies below `sz`. -/
def Touched (sz va len v : ℕ) : Prop := v < npages sz ∧ ∃ j < len, (va + j) / PGSIZE = v

omit [KernelImage] in
theorem Touched.head {sz va len v : ℕ} (h : Touched sz (pgrounddown va) 1 v) (hlen : 0 < len) :
    Touched sz va len v := by
  obtain ⟨hv, j, hj, hpage⟩ := h
  refine ⟨hv, 0, hlen, ?_⟩
  rw [← hpage, Nat.lt_one_iff.mp hj, Nat.add_zero, Nat.add_zero]
  exact (page_div _).symm

omit [KernelImage] in
theorem Touched.tail {sz va n len v : ℕ} (h : Touched sz (va + n) (len - n) v) :
    Touched sz va len v := by
  obtain ⟨hv, j, hj, hpage⟩ := h
  exact ⟨hv, n + j, by omega, by rw [← hpage, Nat.add_assoc]⟩

/-- What `copyin` and `copyout` ask of a page: if it is mapped, it is a user page or
marked copy-on-write. -/
def Permitted (pt : PageTable) (v : ℕ) : Prop :=
  (leaf pt v).has PTE_V → (leaf pt v).has PTE_U ∨ (leaf pt v).has PTE_COW

structure FoundIn (G : Multiset ℕ) (sz va : ℕ) (pt : PageTable) (k : Phys) (r : Option ℕ)
    (pt' : PageTable) (k' : Phys) : Prop where
  quiet : Quiet G (Touched sz va 1) pt k pt' k'
  hit : ∀ pa, r = some pa → va / PGSIZE < UPAGES ∧ (leaf pt' (va / PGSIZE)).has PTE_V ∧
    pte2pa (leaf pt' (va / PGSIZE)) = pa
  permitted : r.isSome → Permitted pt (va / PGSIZE)
  miss : r = none → sz ≤ va ∨ k'.oom = true ∨ (leaf pt (va / PGSIZE)).has PTE_V ∧
    (leaf pt (va / PGSIZE)).has PTE_U = false

theorem Faulted.quiet_touched {sz va : ℕ} {read : Bool} {r : Option ℕ}
    (h : Faulted G sz va read pt k r pt' k') : Quiet G (Touched sz va 1) pt k pt' k' :=
  h.quiet.mono fun v hv => by
    rw [hv.1]
    exact ⟨div_lt_npages hv.2, 0, by omega, rfl⟩

theorem faultIn_spec {sz : ℕ} (va : ℕ) (hsz : sz ≤ TRAPFRAME) (h : UserSpace pt k G) :
    ∃ r pt' k', faultIn pt sz va k = .ok ((r, pt'), k') ∧ FoundIn G sz va pt k r pt' k' := by
  have hU := UPAGES_eq
  have hM : MAXVA = 274877906944 := rfl
  have hT : TRAPFRAME = 274877898752 := rfl
  rw [faultIn, bind_of_ok (walkaddr_run va k)]
  split
  · next hok =>
    obtain ⟨hva, hV, hUs⟩ := hok
    have hv : va / PGSIZE < UPAGES := by
      by_contra hge
      have hpage : va / PGSIZE < 2 ^ 27 := by
        simp only [PGSIZE]
        omega
      rw [h.wf.supervisor _ (not_lt.mp hge) hpage] at hUs
      cases hUs
    refine ⟨some (pte2pa (leaf pt (va / PGSIZE))), pt, k, rfl, Quiet.refl h _, ?_,
      fun _ _ => Or.inl hUs, by simp⟩
    intro pa hpa
    cases hpa
    exact ⟨hv, hV, rfl⟩
  · next hno =>
    obtain ⟨r, pt', k', hrun, hf⟩ := vmfault_spec va false hsz h
    refine ⟨r, pt', k', hrun, hf.quiet_touched, ?_, ?_, ?_⟩
    · intro pa hpa
      obtain ⟨hlt, hV, -, -, heq⟩ := hf.hit pa hpa
      exact ⟨(div_lt_npages hlt).trans_le (npages_le hsz), hV, heq⟩
    · intro hsome hV
      obtain ⟨pa, hpa⟩ := Option.isSome_iff_exists.mp hsome
      rcases hf.cause pa hpa with hV' | ⟨-, hC⟩
      · rw [hV] at hV'
        cases hV'
      · exact Or.inr hC
    · intro hr
      rcases hf.miss hr with hle | hoom | ⟨hV, -⟩
      · exact Or.inl hle
      · exact Or.inr (Or.inl hoom)
      · by_cases hva : va < MAXVA
        · exact Or.inr (Or.inr ⟨hV, by simpa [hva, hV] using hno⟩)
        · exact Or.inl (by omega)

/-! ## copyin -/

/-- The byte that the user finds at address `a`. -/
def byteAt (pt : PageTable) (mem : ℕ → UInt8) (a : ℕ) : UInt8 :=
  view pt mem (a / PGSIZE) (a % PGSIZE)

def bytesAt (pt : PageTable) (mem : ℕ → UInt8) (a n : ℕ) : List UInt8 :=
  (List.range n).map fun j => byteAt pt mem (a + j)

theorem Quiet.byteAt_eq {S : ℕ → Prop} (h : Quiet G S pt k pt' k') {a : ℕ}
    (ha : a / PGSIZE < UPAGES) : byteAt pt' k'.mem a = byteAt pt k.mem a :=
  h.view_eq _ ha _ (Nat.mod_lt a (by decide))

section
variable {va len i : ℕ}

omit [KernelImage] in
theorem chunk_pos (va : ℕ) (h : 0 < len) : 0 < chunk va len := by
  simp only [chunk, pgrounddown, PGSIZE]
  omega

omit [KernelImage] in
theorem chunk_le : chunk va len ≤ len := min_le_right _ _

omit [KernelImage] in
theorem chunk_fits : va - pgrounddown va + chunk va len ≤ PGSIZE := by
  simp only [chunk, pgrounddown, PGSIZE]
  omega

omit [KernelImage] in
theorem chunk_next (h : chunk va len < len) : pgrounddown va + PGSIZE = va + chunk va len := by
  simp only [chunk, pgrounddown, PGSIZE] at *
  omega

omit [KernelImage] in
theorem chunk_page (h : i < chunk va len) : (va + i) / PGSIZE = va / PGSIZE := by
  simp only [chunk, pgrounddown, PGSIZE] at *
  omega

omit [KernelImage] in
theorem chunk_offset (h : i < chunk va len) :
    (va + i) % PGSIZE = va - pgrounddown va + i := by
  simp only [chunk, pgrounddown, PGSIZE] at *
  omega

end

/-- Every mapped page that an access to `len` bytes at `va` touches may be used
by the user, and the access stays below `sz`. -/
def Accessible (pt : PageTable) (sz va len : ℕ) : Prop :=
  ∀ j < len, va + j < sz ∧
    ((leaf pt ((va + j) / PGSIZE)).has PTE_V → (leaf pt ((va + j) / PGSIZE)).has PTE_U)

theorem Accessible.quiet {S : ℕ → Prop} {sz va len : ℕ} (hsz : sz ≤ TRAPFRAME)
    (h : Accessible pt sz va len) (hq : Quiet G S pt k pt' k') : Accessible pt' sz va len := by
  intro j hj
  obtain ⟨hlt, hUs⟩ := h j hj
  have hv := (div_lt_npages hlt).trans_le (npages_le hsz)
  refine ⟨hlt, fun hV' => ?_⟩
  rcases hq.adds _ hv hV' with hV | ⟨-, hr⟩
  · exact (congrArg Rights.user (hq.keeps _ hv hV).2).trans (hUs hV)
  · exact congrArg Rights.user hr

/-- What `copyin` has done: `bytes` were copied before it stopped. -/
structure CopiedIn (G : Multiset ℕ) (sz va len : ℕ) (pt : PageTable) (k : Phys) (ok : Bool)
    (bytes : List UInt8) (pt' : PageTable) (k' : Phys) : Prop where
  quiet : Quiet G (Touched sz va len) pt k pt' k'
  bytes_eq : bytes = bytesAt pt k.mem va bytes.length
  inside : ∀ j < bytes.length, (va + j) / PGSIZE < UPAGES
  permitted : ∀ j < bytes.length, Permitted pt ((va + j) / PGSIZE)
  length_le : bytes.length ≤ len
  complete : ok = true → bytes.length = len
  progress : Accessible pt sz va len → k'.oom = false → ok = true

omit [KernelImage] in
theorem readMem_run (a n : ℕ) (k : Phys) :
    readMem a n k = .ok ((List.range n).map fun i => k.mem (a + i), k) := rfl

omit [KernelImage] in
theorem readMem_chunk {va len : ℕ} (hV : (leaf pt (va / PGSIZE)).has PTE_V) :
    (List.range (chunk va len)).map
        (fun i => k.mem (pte2pa (leaf pt (va / PGSIZE)) + (va - pgrounddown va) + i)) =
      bytesAt pt k.mem va (chunk va len) := by
  apply List.map_congr_left
  intro i hi
  have hlt := List.mem_range.mp hi
  rw [byteAt, chunk_page hlt, chunk_offset hlt, view, if_pos hV, Nat.add_assoc]

omit [KernelImage] in
theorem bytesAt_add (pt : PageTable) (mem : ℕ → UInt8) (a n m : ℕ) :
    bytesAt pt mem a (n + m) = bytesAt pt mem a n ++ bytesAt pt mem (a + n) m := by
  simp [bytesAt, List.range_add, Nat.add_assoc]

theorem Quiet.bytesAt_eq {S : ℕ → Prop} (h : Quiet G S pt k pt' k') {a n : ℕ}
    (ha : ∀ j < n, (a + j) / PGSIZE < UPAGES) :
    bytesAt pt' k'.mem a n = bytesAt pt k.mem a n :=
  List.map_congr_left fun j hj => h.byteAt_eq (ha j (List.mem_range.mp hj))

omit [KernelImage] in
/-- Only pages marked copy-on-write lose or get that mark. -/
theorem Permitted.of_remap {S : ℕ → Prop} {v : ℕ} (hv : v < UPAGES) (hmap : Remap S pt pt')
    (h : Permitted pt' v) : Permitted pt v := by
  intro hV
  by_contra hno
  obtain ⟨hUs, hC⟩ := not_or.mp hno
  have heq := hmap.fixed v hv hV (by simpa using hC)
  exact hno (heq ▸ h (heq ▸ hV))

/-- The bytes of the first page in front of those of the following pages. -/
theorem CopiedIn.cons {sz va va' len : ℕ} {ok : Bool} {rest : List UInt8}
    (hc : CopiedIn G sz va' (len - chunk va len) pt₁ k₁ ok rest pt' k')
    (hq : Quiet G (Touched sz va len) pt k pt₁ k₁) (hv : va / PGSIZE < UPAGES)
    (hperm : Permitted pt (va / PGSIZE)) (hnext : chunk va len < len → va' = va + chunk va len) (hsz : sz ≤ TRAPFRAME) :
    CopiedIn G sz va len pt k ok (bytesAt pt₁ k₁.mem va (chunk va len) ++ rest) pt' k' := by
  have hle : chunk va len ≤ len := chunk_le
  have hlen : (bytesAt pt₁ k₁.mem va (chunk va len)).length = chunk va len := by
    simp [bytesAt]
  have hrestLen := hc.length_le
  have hinside (j : ℕ) (hj : j < chunk va len + rest.length) : (va + j) / PGSIZE < UPAGES := by
    by_cases hjn : j < chunk va len
    · rw [chunk_page hjn]
      exact hv
    · have hin := hc.inside (j - chunk va len) (by omega)
      rw [hnext (by omega)] at hin
      rwa [show va + j = va + chunk va len + (j - chunk va len) by omega]
  have hfirst : bytesAt pt₁ k₁.mem va (chunk va len) = bytesAt pt k.mem va (chunk va len) :=
    hq.bytesAt_eq fun j hj => hinside j (by omega)
  have hrest : rest = bytesAt pt k.mem (va + chunk va len) rest.length := by
    rcases Nat.eq_zero_or_pos rest.length with hz | hpos
    · rw [List.length_eq_zero_iff.mp hz]
      rfl
    · have heq := hc.bytes_eq
      rw [hnext (by omega)] at heq
      rw [← hq.bytesAt_eq fun j hj => ?_]
      · exact heq
      · rw [Nat.add_assoc]
        exact hinside _ (by omega)
  refine ⟨hq.trans (hc.quiet.mono fun v hT => ?_), ?_, ?_, ?_, ?_, ?_, ?_⟩
  · have hmore : chunk va len < len := by
      obtain ⟨-, j, hj, -⟩ := hT
      omega
    rw [hnext hmore] at hT
    exact hT.tail
  · rw [List.length_append, hlen, bytesAt_add, hfirst]
    exact congrArg _ hrest
  · rw [List.length_append, hlen]
    exact hinside
  · rw [List.length_append, hlen]
    intro j hj
    by_cases hjn : j < chunk va len
    · rw [chunk_page hjn]
      exact hperm
    · refine Permitted.of_remap (hinside j hj) hq.toRemap ?_
      have := hc.permitted (j - chunk va len) (by omega)
      rwa [hnext (by omega), show va + chunk va len + (j - chunk va len) = va + j by omega] at this
  · rw [List.length_append, hlen]
    omega
  · intro hok
    have := hc.complete hok
    rw [List.length_append, hlen]
    omega
  · intro hacc hoom
    apply hc.progress _ hoom
    intro j hj
    rw [hnext (by omega), Nat.add_assoc]
    exact hacc.quiet hsz hq _ (by omega)

theorem copyinLoop_spec {sz : ℕ} (hsz : sz ≤ TRAPFRAME) (fuel va len : ℕ) (hfuel : len ≤ fuel)
    (h : UserSpace pt k G) :
    ∃ ok bytes pt' k', copyinLoop sz fuel pt va len k = .ok ((ok, bytes, pt'), k') ∧
      CopiedIn G sz va len pt k ok bytes pt' k' := by
  have hU := UPAGES_eq
  induction fuel generalizing va len pt k with
  | zero =>
    refine ⟨true, [], pt, k, rfl, Quiet.refl h _, rfl, by simp, by simp, by simp, ?_,
      fun _ _ => rfl⟩
    intro _
    exact (Nat.le_zero.mp hfuel).symm
  | succ fuel ih =>
    by_cases hlen : len = 0
    · refine ⟨true, [], pt, k, ?_, Quiet.refl h _, rfl, by simp, by simp, by simp,
        fun _ => hlen.symm, fun _ _ => rfl⟩
      rw [copyinLoop, if_pos hlen]
      rfl
    have hdiv : pgrounddown va / PGSIZE = va / PGSIZE := page_div _
    have hdown : pgrounddown va ≤ va := Nat.div_mul_le_self va PGSIZE
    obtain ⟨r, pt₁, k₁, hrun, hf⟩ := faultIn_spec (pgrounddown va) hsz h
    rw [copyinLoop, if_neg hlen]
    dsimp only
    rw [bind_of_ok hrun]
    cases r with
    | none =>
      refine ⟨false, [], pt₁, k₁, rfl, hf.quiet.mono fun v hT => hT.head (by omega), rfl, by simp,
        by simp, by simp, by simp, ?_⟩
      intro hacc hoom
      obtain ⟨hlt, hUs⟩ := hacc 0 (by omega)
      rw [Nat.add_zero] at hlt hUs
      rcases hf.miss rfl with hle | ho | ⟨hV, hno⟩
      · omega
      · rw [hoom] at ho
        cases ho
      · rw [hdiv] at hV hno
        rw [hUs hV] at hno
        cases hno
    | some pa =>
      obtain ⟨hv, hV, hpa⟩ := hf.hit pa rfl
      have hperm := hf.permitted rfl
      rw [hdiv] at hv hV hpa hperm
      have hn := chunk_pos va (Nat.pos_of_ne_zero hlen)
      have hle : chunk va len ≤ len := chunk_le
      obtain ⟨ok, rest, pt', k', hrun', hc⟩ :=
        ih (u64 (pgrounddown va + PGSIZE)) (len - chunk va len) (by omega) hf.quiet.evolve.space
      refine ⟨ok, _, pt', k', ?_, hc.cons (hf.quiet.mono fun v hT => hT.head (by omega)) hv
        hperm (fun hlt => ?_) hsz⟩
      · dsimp only
        rw [bind_of_ok (readMem_run _ _ _), bind_of_ok hrun', ← hpa, readMem_chunk hV]
        rfl
      · rw [chunk_next hlt, u64]
        simp only [chunk, PGSIZE, pgrounddown] at *
        omega

theorem copyin_spec {sz : ℕ} (hsz : sz ≤ TRAPFRAME) (va len : ℕ) (h : UserSpace pt k G) :
    ∃ ok bytes pt' k', copyin pt sz va len k = .ok ((ok, bytes, pt'), k') ∧
      CopiedIn G sz va len pt k ok bytes pt' k' :=
  copyinLoop_spec hsz len va len le_rfl h

end Xv6.Vm
