import Xv6.Vm.UvmSpec

/-! # Sharing memory at fork

`uvmcopy` maps every page of the parent in the child and takes the write
permission from both.  Its loop keeps one invariant on the two tables, also
when it stops half way.
-/
namespace Xv6.Vm
open Library Library.Exec Library.RefCount

/-- `pt'` maps the same pages as `pt`, with the same rights. -/
structure SameMap (pt pt' : PageTable) : Prop where
  valid : ∀ v < 2 ^ 27, (leaf pt' v).has PTE_V = (leaf pt v).has PTE_V
  addr : ∀ v < 2 ^ 27, pte2pa (leaf pt' v) = pte2pa (leaf pt v)
  rights : ∀ v < 2 ^ 27, rights (leaf pt' v) = rights (leaf pt v)
  kernel : ∀ v, UPAGES ≤ v → v < 2 ^ 27 → leaf pt' v = leaf pt v

theorem SameMap.refl (pt : PageTable) : SameMap pt pt :=
  ⟨fun _ _ => rfl, fun _ _ => rfl, fun _ _ => rfl, fun _ _ _ => rfl⟩

theorem SameMap.trans {pt pt₁ pt₂ : PageTable} (h : SameMap pt pt₁) (h' : SameMap pt₁ pt₂) :
    SameMap pt pt₂ where
  valid := fun v hv => (h'.valid v hv).trans (h.valid v hv)
  addr := fun v hv => (h'.addr v hv).trans (h.addr v hv)
  rights := fun v hv => (h'.rights v hv).trans (h.rights v hv)
  kernel := fun v hv hlt => (h'.kernel v hv hlt).trans (h.kernel v hv hlt)

/-- The entry that both tables get for a page: writable entries become
copy-on-write. -/
def sharedPte (pte : Pte) : Pte := if pte.has PTE_W then sharePte pte else pte

section
variable {pte : Pte}

@[simp] theorem sharedPte_flags :
    (sharedPte pte).has PTE_V = pte.has PTE_V ∧ (sharedPte pte).has PTE_R = pte.has PTE_R ∧
    (sharedPte pte).has PTE_W = false := by
  unfold sharedPte
  split
  · simp
  · next h => simpa using h

theorem pte2pa_sharedPte : pte2pa (sharedPte pte) = pte2pa pte := by
  unfold sharedPte
  split
  · exact pte2pa_sharePte
  · rfl

theorem rights_sharedPte : rights (sharedPte pte) = rights pte := by
  unfold sharedPte
  split
  · next h => simp [rights, h]
  · rfl

theorem rights_pteFlags : rights (pteFlags pte) = rights pte := by
  simp [rights]

end

theorem SetLeaf.sameMap {pt pt' : PageTable} {v : ℕ} (hv : v < UPAGES)
    (h : SetLeaf pt pt' v (sharedPte (leaf pt v))) : SameMap pt pt' := by
  have hcases (w : ℕ) (hw : w < 2 ^ 27) :
      leaf pt' w = sharedPte (leaf pt w) ∨ leaf pt' w = leaf pt w := by
    rw [h w hw]
    split
    · next he =>
      rw [he]
      exact Or.inl rfl
    · exact Or.inr rfl
  refine ⟨?_, ?_, ?_, ?_⟩
  · intro w hw
    rcases hcases w hw with he | he <;> rw [he]
    exact sharedPte_flags.1
  · intro w hw
    rcases hcases w hw with he | he <;> rw [he]
    exact pte2pa_sharedPte
  · intro w hw
    rcases hcases w hw with he | he <;> rw [he]
    exact rights_sharedPte
  · intro w hw hlt
    rw [h w hlt, if_neg (by omega)]

variable [KernelImage] {G : Multiset ℕ} {old old₁ old' new new₁ new' : PageTable} {k k₁ k' : Phys}

/-- The invariant on parent and child during `uvmcopy`: the child has no
writable entries yet. -/
structure Sharing (G : Multiset ℕ) (old new : PageTable) (k : Phys) : Prop where
  acct : Acct k (own old + (own new + G))
  wfOld : Wf old (own old + (own new + G))
  wfNew : Wf new (own old + (own new + G))
  readonly : ∀ v < UPAGES, (leaf new v).has PTE_V → (leaf new v).has PTE_W = false

/-- The pages from `lo` to `hi` of `old` have been shared with `new`. -/
structure Shared (G : Multiset ℕ) (lo hi : ℕ) (old new : PageTable) (k : Phys)
    (old' new' : PageTable) (k' : Phys) : Prop where
  sharing : Sharing G old' new' k'
  same : SameOn (own old + (own new + G)) k.mem k'.mem
  oom_mono : k.oom = true → k'.oom = true
  sameMap : SameMap old old'
  own_eq : own old' = own old
  grown : ∃ more, own new' = more + own new
  copied : ∀ v, lo ≤ v → v < hi → v < UPAGES →
    (leaf new' v).has PTE_V = (leaf old v).has PTE_V ∧ ((leaf old v).has PTE_V →
      pte2pa (leaf new' v) = pte2pa (leaf old v) ∧ rights (leaf new' v) = rights (leaf old v))
  rest : ∀ v < 2 ^ 27, ¬ (lo ≤ v ∧ v < hi) → leaf new' v = leaf new v
  single : ∀ a ∈ G, (own old + (own new + G)).count a = 1 →
    (own old' + (own new' + G)).count a = 1

theorem Shared.refl (h : Sharing G old new k) {lo hi : ℕ} (hle : hi ≤ lo) :
    Shared G lo hi old new k old new k where
  sharing := h
  same := SameOn.refl _ _
  oom_mono := id
  sameMap := SameMap.refl old
  own_eq := rfl
  grown := ⟨0, (zero_add _).symm⟩
  copied := fun v _ _ _ => by omega
  rest := fun _ _ _ => rfl
  single := fun _ _ h => h

theorem Shared.trans {lo mid hi : ℕ} (h : Shared G lo mid old new k old₁ new₁ k₁)
    (h' : Shared G mid hi old₁ new₁ k₁ old' new' k') (hlo : lo ≤ mid) (hhi : mid ≤ hi) :
    Shared G lo hi old new k old' new' k' := by
  have hU := UPAGES_eq
  obtain ⟨more, hmore⟩ := h.grown
  obtain ⟨more', hmore'⟩ := h'.grown
  refine ⟨h'.sharing, ?_, fun ho => h'.oom_mono (h.oom_mono ho), h.sameMap.trans h'.sameMap,
    h'.own_eq.trans h.own_eq, ⟨more' + more, by rw [hmore', hmore, add_assoc]⟩, ?_, ?_, ?_⟩
  · refine h.same.trans (h'.same.mono (Multiset.subset_of_le ?_))
    rw [h.own_eq, hmore]
    exact Multiset.add_le_add_left
      (Multiset.add_le_add_right (Multiset.le_add_left _ _))
  · intro v hv hvhi hvU
    by_cases hmid : v < mid
    · rw [h'.rest v (by omega) (by omega)]
      exact h.copied v hv hmid hvU
    · obtain ⟨hval, hrest⟩ := h'.copied v (by omega) hvhi hvU
      rw [h.sameMap.valid v (by omega)] at hval hrest
      rw [h.sameMap.addr v (by omega), h.sameMap.rights v (by omega)] at hrest
      exact ⟨hval, hrest⟩
  · intro v hv hout
    rw [h'.rest v hv (by omega), h.rest v hv (by omega)]
  · exact fun a ha hone => h'.single a ha (h.single a ha hone)

/-! ## One page -/

omit [KernelImage] in
theorem uvmcopyPage_skip {v : ℕ} (hv : v < UPAGES) (h : (leaf old v).has PTE_V = false) :
    uvmcopyPage old new (v * PGSIZE) k = .ok ((true, old, new), k) := by
  have hU := UPAGES_eq
  rw [uvmcopyPage, bind_of_ok (walk_find (page_lt_maxva (by omega)) k)]
  cases hs : (slot old (v * PGSIZE)).isSome with
  | false => rfl
  | true =>
    have hread := readSlot_run hs k
    rw [page_div] at hread
    change (readSlot old (v * PGSIZE) >>= _) k = _
    rw [bind_of_ok hread]
    simp only [h]
    rfl

omit [KernelImage] in
theorem uvmcopyPage_valid {v : ℕ} (hv : v < UPAGES) (h : (leaf old v).has PTE_V) :
    ∃ old', SetLeaf old old' v (sharedPte (leaf old v)) ∧ tables old' = tables old ∧
      uvmcopyPage old new (v * PGSIZE) k =
        (mappages new (v * PGSIZE) PGSIZE (pte2pa (leaf old v)) (pteFlags (sharedPte (leaf old v)))
          >>= fun r => if !r.1 then pure (false, old', r.2)
            else incRefcnt (pte2pa (leaf old v)) >>= fun _ => pure (true, old', r.2)) k := by
  have hU := UPAGES_eq
  have hs : (slot old (v * PGSIZE)).isSome := slot_isSome_of_valid (by rwa [page_div])
  have hread := readSlot_run hs k
  rw [page_div] at hread
  rw [uvmcopyPage, bind_of_ok (walk_find (page_lt_maxva (by omega)) k), hs]
  simp only [Bool.not_true, Bool.false_eq_true, if_false]
  rw [bind_of_ok hread]
  simp only [h, Bool.not_true, Bool.false_eq_true, if_false]
  cases hW : (leaf old v).has PTE_W with
  | true =>
    have hsh : sharedPte (leaf old v) = sharePte (leaf old v) := if_pos hW
    rw [hsh]
    exact ⟨setSlot old (v * PGSIZE) (sharePte (leaf old v)), setLeaf_setSlot (by omega) hs _,
      tables_setSlot _ _ _, rfl⟩
  | false =>
    have hsh : sharedPte (leaf old v) = leaf old v := if_neg (by simp [hW])
    rw [hsh]
    refine ⟨old, fun w _ => ?_, rfl, rfl⟩
    split
    · next he => rw [he]
    · rfl

omit [KernelImage] in
/-- The page that is being shared gets one more reference; the pages with a
single reference are others. -/
theorem count_shared {R tabs : Multiset ℕ} {pa a : ℕ} (hfresh : NoNewSharing R (tabs + R))
    (hne : a ≠ pa) (hone : R.count a = 1) : (pa ::ₘ (tabs + R)).count a = 1 := by
  rw [Multiset.count_cons_of_ne hne]
  refine hfresh.count_eq_one hone.le ?_
  exact Multiset.mem_add.mpr (Or.inr (Multiset.count_pos.mp (by omega)))

theorem uvmcopyPage_spec {v : ℕ} (hv : v < UPAGES) (hs : Sharing G old new k)
    (hfree : (leaf new v).has PTE_V = false) :
    ∃ ok old' new' k', uvmcopyPage old new (v * PGSIZE) k = .ok ((ok, old', new'), k') ∧
      Shared G v (if ok then v + 1 else v) old new k old' new' k' ∧
      (ok = false → k'.oom = true) := by
  have hU := UPAGES_eq
  cases hV : (leaf old v).has PTE_V with
  | false =>
    refine ⟨true, old, new, k, uvmcopyPage_skip hv hV, ?_, by simp⟩
    refine { Shared.refl hs (le_refl v) with copied := ?_, rest := fun _ _ _ => rfl }
    intro w hlo hhi _
    have hwv : w = v := by
      simp only [if_true] at hhi
      omega
    subst hwv
    simp [hV, hfree]
  | true =>
    obtain ⟨old', hset, htab, hcode⟩ := uvmcopyPage_valid hv hV
    set R := own old + (own new + G) with hR
    set pa := pte2pa (leaf old v) with hpa
    have hown : own old' = own old := by
      have := own_setLeaf 0 hv hset (by rw [zero_add, htab])
      rw [pteRef_valid hV, pteRef_valid (by simpa using hV), pte2pa_sharedPte, add_zero,
        add_comm] at this
      exact add_left_cancel this
    have hpaR : pa ∈ R := Multiset.mem_add.mpr (Or.inl (mem_own hv hV))
    have hpage := hs.acct.valid_of_mem pa hpaR
    obtain ⟨ok, new', k₁, tabs, hrun, hm⟩ :=
      mappages_page pa (pteFlags (sharedPte (leaf old v))) (by omega) hfree hs.acct
    rw [hcode, bind_of_ok hrun]
    have hentry : PteOk R (sharedPte (leaf old v)) := by
      refine ⟨?_, by simp, by simp⟩
      simpa using (hs.wfOld.entry v hv).readable
    have hshare := hset.sameMap hv
    cases ok with
    | false =>
      obtain ⟨hleaves, hoom⟩ := hm.failed rfl
      have hownNew := own_sameLeaves tabs hleaves hm.tables_eq
      have hrefs : tabs + R = own old' + (own new' + G) := by
        rw [hown, hownNew, hR]
        abel
      have hfresh := hm.fresh
      rw [hrefs] at hfresh
      refine ⟨false, old', new', k₁, rfl, ⟨⟨hrefs ▸ hm.step.acct, ?_, ?_, ?_⟩, hm.step.same,
        hm.step.oom_mono, hshare, hown, ⟨tabs, hownNew⟩, ?_, fun w hw _ => hleaves w hw, ?_⟩,
        fun _ => hoom⟩
      · refine hs.wfOld.setLeaf hv hset hfresh (Multiset.le_add_right _ _) ?_
        exact ⟨hentry.readable, hentry.cow_ro, by simp⟩
      · refine hs.wfNew.sameLeaves hleaves hfresh ?_
        exact (Multiset.le_add_right _ _).trans (Multiset.le_add_left _ _)
      · intro w hw hVw
        rw [hleaves w (by omega)] at hVw ⊢
        exact hs.readonly w hw hVw
      · intro w hlo hhi
        simp only [Bool.false_eq_true, if_false] at hhi
        omega
      · intro a ha hone
        refine hfresh.count_eq_one hone.le ?_
        exact Multiset.mem_add.mpr (Or.inr (Multiset.mem_add.mpr (Or.inr ha)))
    | true =>
      have hnew := hm.stored rfl
      set x := mapPte pa (pteFlags (sharedPte (leaf old v))) with hx
      have haddr : pte2pa x = pa := pte2pa_mapPte hpage.1 hpage.lt (flagsOnly_pteFlags _)
      have hxr : rights x = rights (leaf old v) := by
        rw [hx, rights_mapPte, rights_pteFlags, rights_sharedPte]
      have hownNew := own_setLeaf tabs hv hnew hm.tables_eq
      rw [pteRef_invalid hfree, pteRef_valid mapPte_flags.1, haddr, add_zero] at hownNew
      obtain ⟨k', hinc, hstep, -⟩ := incRefcnt_spec hm.step.acct
        (Multiset.mem_add.mpr (Or.inr hpaR)) R
      have hrefs : pa ::ₘ (tabs + R) = own old' + (own new' + G) := by
        rw [hown, hownNew, hR, ← Multiset.singleton_add]
        abel
      have hsingle (a : ℕ) (hne : a ≠ pa) (hone : R.count a = 1) :
          (own old' + (own new' + G)).count a = 1 := hrefs ▸ count_shared hm.fresh hne hone
      refine ⟨true, old', new', k', ?_, ⟨⟨hrefs ▸ hstep.acct, ?_, ?_, ?_⟩, ?_, ?_, hshare, hown,
        ⟨{pa} + tabs, hownNew⟩, ?_, ?_, ?_⟩, by simp⟩
      · simp only [Bool.not_true, Bool.false_eq_true, if_false]
        rw [bind_of_ok hinc]
        rfl
      · refine hs.wfOld.of_entries ?_ hshare.kernel
        intro w hw
        rw [hset w (by omega)]
        split
        · exact ⟨hentry.readable, hentry.cow_ro, by simp⟩
        · next hne =>
          have hok := hs.wfOld.entry w hw
          refine ⟨hok.readable, hok.cow_ro, fun hVw hWw => ?_⟩
          have hone := hok.writable hVw hWw
          exact hsingle _ (page_ne_of_private (Multiset.le_add_right _ _) hw hv (Ne.symm hne) hVw
            hV hone).symm hone
      · refine hs.wfNew.of_entries ?_ fun w hw hlt => by rw [hnew w hlt, if_neg (by omega)]
        intro w hw
        rw [hnew w (by omega)]
        split
        · refine ⟨?_, by simp [hx], by simp [hx]⟩
          intro _
          have := (hs.wfOld.entry v hv).readable hV
          simpa [hx] using this
        · have hok := hs.wfNew.entry w hw
          refine ⟨hok.readable, hok.cow_ro, fun hVw hWw => ?_⟩
          rw [hs.readonly w hw hVw] at hWw
          cases hWw
      · intro w hw hVw
        rw [hnew w (by omega)] at hVw ⊢
        split
        · simp [hx]
        · next hne =>
          rw [if_neg hne] at hVw
          exact hs.readonly w hw hVw
      · exact hm.step.same.trans hstep.same
      · exact fun ho => hstep.oom_mono (hm.step.oom_mono ho)
      · intro w hlo hhi _
        have hwv : w = v := by
          simp only [if_true] at hhi
          omega
        subst hwv
        rw [hnew w (by omega), if_pos rfl]
        exact ⟨by simp [hx, hV], fun _ => ⟨haddr, hxr⟩⟩
      · intro w hw hout
        rw [hnew w hw, if_neg]
        simp only [if_true] at hout
        omega
      · intro a ha hone
        refine hsingle a ?_ hone
        rintro rfl
        have h1 : 0 < (own old).count pa := Multiset.count_pos.mpr (mem_own hv hV)
        have h2 := Multiset.count_pos.mpr ha
        rw [Multiset.count_add, Multiset.count_add] at hone
        omega

/-! ## The loop -/

theorem Sharing.child (h : Sharing G old new k) : UserSpace new k (own old + G) := by
  have hcomm : own old + (own new + G) = own new + (own old + G) := add_left_comm _ _ _
  exact ⟨hcomm ▸ h.acct, hcomm ▸ h.wfNew⟩

/-- The result of a failed `uvmcopy`: the child has no pages, and the parent
has lost nothing but write permissions. -/
structure ShareFailed (G : Multiset ℕ) (old new : PageTable) (k : Phys) (old' new' : PageTable)
    (k' : Phys) : Prop where
  child : UserSpace new' k' (own old' + G)
  parent : UserSpace old' k' (own new' + G)
  same : SameOn (own old + G) k.mem k'.mem
  oom : k'.oom = true
  sameMap : SameMap old old'
  own_eq : own old' = own old
  empty : ∀ v < UPAGES, (leaf new' v).has PTE_V = false
  kernel : ∀ v, UPAGES ≤ v → v < 2 ^ 27 → leaf new' v = leaf new v
  single : ∀ a ∈ G, (own old + (own new + G)).count a = 1 →
    (own old' + (own new' + G)).count a = 1

/-- The error path of `uvmcopy`, taken at page `v`. -/
theorem uvmcopy_undo {v : ℕ} (hv : v ≤ UPAGES) (hs : Shared G v v old new k old₁ new₁ k₁)
    (hoom : k₁.oom = true)
    (hfree : ∀ w, v ≤ w → w < UPAGES → (leaf new w).has PTE_V = false) :
    ∃ new' k', uvmunmap new₁ 0 (v * PGSIZE / PGSIZE) true k₁ = .ok (new', k') ∧
      ShareFailed G old new k old₁ new' k' := by
  have hU := UPAGES_eq
  obtain ⟨new', k', hrun, hun⟩ := uvmunmap_spec 0 v (by omega) hs.sharing.child
  rw [zero_mul] at hrun
  rw [zero_add] at hun
  have hle : own old₁ + (own new' + G) ≤ own old₁ + (own new₁ + G) :=
    Multiset.add_le_add_left (Multiset.add_le_add_right hun.own_le)
  have hcomm : own new' + (own old₁ + G) = own old₁ + (own new' + G) := add_left_comm _ _ _
  refine ⟨new', k', by rw [page_div, hrun], ?_⟩
  refine ⟨hun.space, ⟨hcomm ▸ hun.space.acct, ?_⟩, ?_, hun.oom_eq.trans hoom, hs.sameMap, hs.own_eq,
    ?_, ?_, ?_⟩
  · exact hs.sharing.wfOld.sameLeaves (fun _ _ => rfl) (NoNewSharing.of_le hle)
      (Multiset.le_add_right _ _)
  · have h1 : SameOn (own old + G) k.mem k₁.mem := hs.same.mono (Multiset.subset_of_le
      (Multiset.add_le_add_left (Multiset.le_add_left _ _)))
    have h2 : SameOn (own old + G) k₁.mem k'.mem := by
      rw [← hs.own_eq]
      exact hun.same.mono (Multiset.subset_of_le (Multiset.le_add_left _ _))
    exact h1.trans h2
  · intro w hw
    by_cases hlt : w < v
    · rw [hun.leaf_eq w (by omega)]
      split
      · exact has_zero _
      · next hno => simpa [hlt] using hno
    · rw [hun.leaf_eq w (by omega), if_neg (by omega), hs.rest w (by omega) (by omega)]
      exact hfree w (by omega) hw
  · intro w hw hlt
    rw [hun.leaf_eq w hlt, if_neg (by omega), hs.rest w hlt (by omega)]
  · intro a ha hone
    refine (NoNewSharing.of_le hle).count_eq_one (hs.single a ha hone).le ?_
    exact Multiset.mem_add.mpr (Or.inr (Multiset.mem_add.mpr (Or.inr ha)))

/-- What went before a failure in the loop. -/
theorem ShareFailed.of_shared {lo hi : ℕ} (h : Shared G lo hi old new k old₁ new₁ k₁)
    (hhi : hi ≤ UPAGES) (hf : ShareFailed G old₁ new₁ k₁ old' new' k') :
    ShareFailed G old new k old' new' k' where
  child := hf.child
  parent := hf.parent
  same := by
    have h1 : SameOn (own old + G) k.mem k₁.mem := h.same.mono (Multiset.subset_of_le
      (Multiset.add_le_add_left (Multiset.le_add_left _ _)))
    exact h1.trans (h.own_eq ▸ hf.same)
  oom := hf.oom
  sameMap := h.sameMap.trans hf.sameMap
  own_eq := hf.own_eq.trans h.own_eq
  empty := hf.empty
  kernel := fun v hv hlt => (hf.kernel v hv hlt).trans (h.rest v hlt (by omega))
  single := fun a ha hone => hf.single a ha (h.single a ha hone)

theorem uvmcopyLoop_spec (n v : ℕ) (hn : v + n ≤ UPAGES) (hs : Sharing G old new k)
    (hfree : ∀ w, v ≤ w → w < UPAGES → (leaf new w).has PTE_V = false) :
    ∃ ok old' new' k', uvmcopyLoop n old new (v * PGSIZE) k = .ok ((ok, old', new'), k') ∧
      (ok = true → Shared G v (v + n) old new k old' new' k') ∧
      (ok = false → ShareFailed G old new k old' new' k') := by
  have hU := UPAGES_eq
  induction n generalizing v old new k with
  | zero => exact ⟨true, old, new, k, rfl, fun _ => Shared.refl hs (by omega), by simp⟩
  | succ n ih =>
    obtain ⟨ok, old₁, new₁, k₁, hrun, hone, hoom⟩ :=
      uvmcopyPage_spec (by omega) hs (hfree v le_rfl (by omega))
    rw [uvmcopyLoop, bind_of_ok hrun]
    cases ok with
    | false =>
      simp only [Bool.false_eq_true, if_false] at hone
      obtain ⟨new', k', hrun', hf⟩ := uvmcopy_undo (by omega) hone (hoom rfl) hfree
      refine ⟨false, old₁, new', k', ?_, by simp, fun _ => hf⟩
      simp only [Bool.false_eq_true, if_false]
      rw [bind_of_ok hrun']
      rfl
    | true =>
      simp only [if_true] at hone
      obtain ⟨ok, old', new', k', hrun', hyes, hno⟩ := ih (v + 1) (by omega) hone.sharing
        (fun w hw hwU => by
          rw [hone.rest w (by omega) (by omega)]
          exact hfree w (by omega) hwU)
      refine ⟨ok, old', new', k', ?_, ?_, ?_⟩
      · simp only [if_true]
        rw [page_succ, hrun']
      · intro hok
        have hall := hone.trans (hyes hok) (by omega) (by omega)
        rwa [Nat.add_assoc, Nat.add_comm 1 n] at hall
      · exact fun hok => (hno hok).of_shared hone (by omega)

theorem uvmcopy_spec {sz : ℕ} (hsz : sz ≤ TRAPFRAME) (hs : Sharing G old new k)
    (hfree : ∀ v < UPAGES, (leaf new v).has PTE_V = false) :
    ∃ ok old' new' k', uvmcopy old new sz k = .ok ((ok, old', new'), k') ∧
      (ok = true → Shared G 0 (npages sz) old new k old' new' k') ∧
      (ok = false → ShareFailed G old new k old' new' k') := by
  have hn : pagesBetween 0 sz = npages sz := rfl
  have h := uvmcopyLoop_spec (npages sz) 0 (by have := npages_le hsz; omega) hs
    (fun v _ hv => hfree v hv)
  rw [zero_add, zero_mul] at h
  rw [uvmcopy, hn]
  exact h

end Xv6.Vm
