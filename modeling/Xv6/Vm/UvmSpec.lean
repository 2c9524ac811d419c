import Xv6.Vm.Space

/-! # Specifications of the user memory operations

Every operation on a well-formed address space returns, keeps the page
accounting exact, and leaves the pages of all other references alone.
-/
namespace Xv6.Vm
open Library Library.Exec Library.RefCount

variable [KernelImage]

/-- A well-formed address space in a kernel that holds the references `G`
elsewhere. -/
structure UserSpace (pt : PageTable) (k : Phys) (G : Multiset ℕ) : Prop where
  acct : Acct k (own pt + G)
  wf : Wf pt (own pt + G)

/-- What every operation on one address space guarantees to the rest of the
kernel. -/
structure Evolve (G : Multiset ℕ) (pt : PageTable) (k : Phys) (pt' : PageTable) (k' : Phys) :
    Prop where
  space : UserSpace pt' k' G
  same : SameOn G k.mem k'.mem
  oom_mono : k.oom = true → k'.oom = true
  kernel : ∀ v, UPAGES ≤ v → v < 2 ^ 27 → leaf pt' v = leaf pt v
  sharing : NoNewSharing (own pt + G) (own pt' + G)
  root_eq : root pt' = root pt

variable {G : Multiset ℕ} {pt pt₁ pt' : PageTable} {k k₁ k' : Phys}

theorem Evolve.refl (h : UserSpace pt k G) : Evolve G pt k pt k :=
  ⟨h, SameOn.refl _ _, id, fun _ _ _ => rfl, NoNewSharing.refl _, rfl⟩

theorem Evolve.trans (h : Evolve G pt k pt₁ k₁) (h' : Evolve G pt₁ k₁ pt' k') :
    Evolve G pt k pt' k' where
  space := h'.space
  same := h.same.trans h'.same
  oom_mono := fun hk => h'.oom_mono (h.oom_mono hk)
  kernel := fun v hv hlt => (h'.kernel v hv hlt).trans (h.kernel v hv hlt)
  sharing := h.sharing.trans h'.sharing
  root_eq := h'.root_eq.trans h.root_eq

theorem Evolve.oom (h : UserSpace pt k G) : Evolve G pt k pt { k with oom := true } :=
  ⟨⟨h.acct, h.wf⟩, SameOn.refl _ _, fun _ => rfl, fun _ _ _ => rfl, NoNewSharing.refl _, rfl⟩

omit [KernelImage] in
theorem setMem_run (f : (ℕ → UInt8) → ℕ → UInt8) (k : Phys) :
    setMem f k = .ok ((), { k with mem := f k.mem }) := rfl

/-! ## mappages -/

/-- The effect of `mappages` on one page. -/
structure Mapped (pt pt' : PageTable) (k k' : Phys) (refs new : Multiset ℕ) (ok : Bool) (v : ℕ)
    (x : Pte) : Prop where
  step : Step k k' refs (new + refs)
  fresh : NoNewSharing refs (new + refs)
  tables_eq : tables pt' = new + tables pt
  stored : ok = true → SetLeaf pt pt' v x
  failed : ok = false → SameLeaves pt pt' ∧ k'.oom = true
  length_le : k'.freelist.length ≤ k.freelist.length
  root_eq : root pt' = root pt

theorem mappages_page {v : ℕ} (pa : ℕ) (perm : Pte) (hv : v < 2 ^ 26)
    (hfree : (leaf pt v).has PTE_V = false) {refs : Multiset ℕ} (h : Acct k refs) :
    ∃ ok pt' k' new, mappages pt (v * PGSIZE) PGSIZE pa perm k = .ok ((ok, pt'), k') ∧
      Mapped pt pt' k k' refs new ok v (mapPte pa perm) := by
  have hcall : mappages pt (v * PGSIZE) PGSIZE pa perm =
      mappagesLoop perm 1 pt (v * PGSIZE) pa := by
    rw [mappages, if_neg (by simp), if_neg (by simp), if_neg (by decide)]
    rfl
  obtain ⟨found, pt₁, k₁, new, hrun, hg, hyes, hno⟩ := walk_alloc pt (page_lt_maxva hv) h
  have hlen : k₁.freelist.length ≤ k.freelist.length := by
    have := hg.length_eq
    omega
  rw [hcall, mappagesLoop, bind_of_ok hrun]
  cases found with
  | false =>
    refine ⟨false, pt₁, k₁, new, rfl, hg.step, hg.fresh, hg.tags_eq, by simp, ?_, hlen,
      hg.root_eq⟩
    exact fun _ => ⟨fun w _ => hg.leaf_eq w, hno rfl⟩
  | true =>
    have hs : (slot pt₁ (v * PGSIZE)).isSome := hyes rfl
    have hread := readSlot_run hs k₁
    rw [page_div, hg.leaf_eq] at hread
    refine ⟨true, setSlot pt₁ (v * PGSIZE) (mapPte pa perm), k₁, new, ?_, hg.step, hg.fresh, ?_,
      ?_, by simp, hlen, ?_⟩
    · change (readSlot pt₁ (v * PGSIZE) >>= _) k₁ = _
      rw [bind_of_ok hread]
      simp only [hfree]
      rfl
    · rw [tables_setSlot]
      exact hg.tags_eq
    · intro _ w hw
      rw [setLeaf_setSlot (by omega) hs _ w hw, hg.leaf_eq]
    · rw [root_setSlot]
      exact hg.root_eq

/-! ## uvmunmap and uvmdealloc -/

section
variable {v : ℕ} {doFree : Bool}

theorem uvmunmapPage_skip (hv : v < 2 ^ 26) (h : (leaf pt v).has PTE_V = false) :
    uvmunmapPage doFree pt (v * PGSIZE) k = .ok (pt, k) := by
  rw [uvmunmapPage, bind_of_ok (walk_find (page_lt_maxva hv) k)]
  cases hs : (slot pt (v * PGSIZE)).isSome with
  | false => rfl
  | true =>
    have hread := readSlot_run hs k
    rw [page_div] at hread
    change (readSlot pt (v * PGSIZE) >>= _) k = _
    rw [bind_of_ok hread]
    simp only [h]
    rfl

theorem uvmunmapPage_valid (hv : v < 2 ^ 26) (h : (leaf pt v).has PTE_V) :
    uvmunmapPage doFree pt (v * PGSIZE) k =
      ((if doFree then kfree (pte2pa (leaf pt v)) else pure ()) >>= fun _ =>
        pure (setSlot pt (v * PGSIZE) 0)) k := by
  have hs : (slot pt (v * PGSIZE)).isSome := slot_isSome_of_valid (by rwa [page_div])
  have hread := readSlot_run hs k
  rw [page_div] at hread
  rw [uvmunmapPage, bind_of_ok (walk_find (page_lt_maxva hv) k), hs]
  change (readSlot pt (v * PGSIZE) >>= _) k = _
  rw [bind_of_ok hread]
  simp only [h]
  cases doFree <;> rfl

omit [KernelImage] in
theorem setLeaf_clear (hv : v < 2 ^ 26) (h : (leaf pt v).has PTE_V) :
    SetLeaf pt (setSlot pt (v * PGSIZE) 0) v 0 :=
  setLeaf_setSlot (by omega) (slot_isSome_of_valid (by rwa [page_div])) 0

theorem uvmunmapPage_clear (hv : v < 2 ^ 26) (h : (leaf pt v).has PTE_V) :
    uvmunmapPage false pt (v * PGSIZE) k = .ok (setSlot pt (v * PGSIZE) 0, k) := by
  rw [uvmunmapPage_valid hv h]
  rfl

end

/-- The pages from `lo` to `hi` have been unmapped and their references
dropped. -/
structure Unmapped (G : Multiset ℕ) (lo hi : ℕ) (pt : PageTable) (k : Phys) (pt' : PageTable)
    (k' : Phys) : Prop where
  space : UserSpace pt' k' G
  same : SameOn (own pt' + G) k.mem k'.mem
  oom_eq : k'.oom = k.oom
  dropped : ∃ gone, own pt = gone + own pt'
  leaf_eq : ∀ w < 2 ^ 27, leaf pt' w =
    if lo ≤ w ∧ w < hi ∧ (leaf pt w).has PTE_V then 0 else leaf pt w
  root_eq : root pt' = root pt

theorem Unmapped.own_le {lo hi : ℕ} (h : Unmapped G lo hi pt k pt' k') : own pt' ≤ own pt := by
  obtain ⟨gone, hgone⟩ := h.dropped
  rw [hgone]
  exact Multiset.le_add_left _ _

theorem Unmapped.refl (h : UserSpace pt k G) {lo hi : ℕ} (hle : hi ≤ lo) :
    Unmapped G lo hi pt k pt k := by
  refine ⟨h, SameOn.refl _ _, rfl, ⟨0, (zero_add _).symm⟩, fun w _ => ?_, rfl⟩
  rw [if_neg]
  omega

theorem Unmapped.evolve {lo hi : ℕ} (h : Unmapped G lo hi pt k pt' k') (hhi : hi ≤ UPAGES) :
    Evolve G pt k pt' k' where
  space := h.space
  same := h.same.mono (Multiset.subset_of_le (Multiset.le_add_left _ _))
  oom_mono := fun hk => h.oom_eq.trans hk
  kernel := fun v hv hlt => by
    rw [h.leaf_eq v hlt, if_neg]
    omega
  sharing := NoNewSharing.of_le (Multiset.add_le_add_right h.own_le)
  root_eq := h.root_eq

theorem uvmunmapPage_spec (v : ℕ) (hv : v < UPAGES) (h : UserSpace pt k G) :
    ∃ pt' k', uvmunmapPage true pt (v * PGSIZE) k = .ok (pt', k') ∧
      Unmapped G v (v + 1) pt k pt' k' := by
  have hU := UPAGES_eq
  cases hV : (leaf pt v).has PTE_V with
  | false =>
    refine ⟨pt, k, uvmunmapPage_skip (by omega) hV, h, SameOn.refl _ _, rfl,
      ⟨0, (zero_add _).symm⟩, ?_, rfl⟩
    intro w _
    split
    · next hw =>
      have hwv : w = v := by omega
      rw [hwv, hV] at hw
      simp at hw
    · rfl
  | true =>
    have hset := setLeaf_clear (by omega) hV
    have hown := own_setLeaf 0 hv hset (by simp)
    rw [pteRef_valid hV, pteRef_invalid (has_zero _), zero_add, zero_add] at hown
    have hrefs : own pt + G =
        pte2pa (leaf pt v) ::ₘ (own (setSlot pt (v * PGSIZE) 0) + G) := by
      rw [← hown, ← Multiset.singleton_add]
      abel
    obtain ⟨k', hrun, hstep, hoom⟩ := kfree_spec (hrefs ▸ h.acct)
    have hle : own (setSlot pt (v * PGSIZE) 0) ≤ own pt := by
      rw [← hown]
      exact Multiset.le_add_right _ _
    refine ⟨setSlot pt (v * PGSIZE) 0, k', ?_, ⟨hstep.acct, ?_⟩, hstep.same, hoom,
      ⟨{pte2pa (leaf pt v)}, by rw [← hown, add_comm]⟩, ?_, root_setSlot ..⟩
    · rw [uvmunmapPage_valid (by omega) hV]
      simp only [if_true]
      rw [bind_of_ok hrun]
      rfl
    · exact h.wf.setLeaf hv hset (NoNewSharing.of_le (Multiset.add_le_add_right hle))
        (Multiset.le_add_right _ _) (PteOk.of_invalid (has_zero _))
    · intro w hw
      rw [hset w hw]
      by_cases hwv : w = v
      · subst hwv
        rw [if_pos rfl, if_pos ⟨le_rfl, by omega, hV⟩]
      · rw [if_neg hwv, if_neg]
        omega

theorem uvmunmapLoop_spec (n v : ℕ) (hn : v + n ≤ UPAGES) (h : UserSpace pt k G) :
    ∃ pt' k', uvmunmapLoop true n pt (v * PGSIZE) k = .ok (pt', k') ∧
      Unmapped G v (v + n) pt k pt' k' := by
  induction n generalizing v pt k with
  | zero => exact ⟨pt, k, rfl, Unmapped.refl h (by omega)⟩
  | succ n ih =>
    obtain ⟨pt₁, k₁, hrun, hone⟩ := uvmunmapPage_spec v (by omega) h
    obtain ⟨pt', k', hrun', hrest⟩ := ih (v + 1) (by omega) hone.space
    obtain ⟨gone₁, hgone₁⟩ := hone.dropped
    obtain ⟨gone₂, hgone₂⟩ := hrest.dropped
    refine ⟨pt', k', ?_, hrest.space, ?_, hrest.oom_eq.trans hone.oom_eq,
      ⟨gone₁ + gone₂, by rw [hgone₁, hgone₂, add_assoc]⟩, ?_, hrest.root_eq.trans hone.root_eq⟩
    · rw [uvmunmapLoop, bind_of_ok hrun, page_succ, hrun']
    · refine (hone.same.mono (Multiset.subset_of_le ?_)).trans hrest.same
      exact Multiset.add_le_add_right hrest.own_le
    · intro w hw
      rw [hrest.leaf_eq w hw, hone.leaf_eq w hw]
      by_cases hwv : w = v
      · subst hwv
        rw [if_neg (by omega)]
        by_cases hV : (leaf pt w).has PTE_V
        · rw [if_pos ⟨le_rfl, by omega, hV⟩, if_pos ⟨le_rfl, by omega, hV⟩]
        · rw [if_neg (by tauto), if_neg (by tauto)]
      · rw [if_neg (by omega : ¬ (v ≤ w ∧ w < v + 1 ∧ _))]
        congr 1
        apply propext
        constructor <;> rintro ⟨h1, h2, h3⟩ <;> exact ⟨by omega, by omega, h3⟩

theorem uvmunmap_spec (v n : ℕ) (hn : v + n ≤ UPAGES) (h : UserSpace pt k G) :
    ∃ pt' k', uvmunmap pt (v * PGSIZE) n true k = .ok (pt', k') ∧
      Unmapped G v (v + n) pt k pt' k' := by
  have hU := UPAGES_eq
  have hu : u64 (v * PGSIZE + n * PGSIZE) = (v + n) * PGSIZE := by
    simp only [u64, PGSIZE]
    omega
  rw [uvmunmap, if_neg (by simp), hu, pagesBetween_page]
  exact uvmunmapLoop_spec n v hn h

theorem uvmdealloc_spec {oldsz : ℕ} (newsz : ℕ) (hsz : oldsz ≤ TRAPFRAME) (h : UserSpace pt k G) :
    ∃ pt' k', uvmdealloc pt oldsz newsz k = .ok ((min oldsz newsz, pt'), k') ∧
      Unmapped G (npages newsz) (npages oldsz) pt k pt' k' := by
  have hU := UPAGES_eq
  have hT : TRAPFRAME = 274877898752 := rfl
  have hM : MAXVA = 274877906944 := rfl
  by_cases hle : oldsz ≤ newsz
  · refine ⟨pt, k, ?_, Unmapped.refl h (npages_mono hle)⟩
    rw [uvmdealloc, if_pos hle, min_eq_left hle]
    rfl
  · have hold : pgroundup oldsz = npages oldsz * PGSIZE := pgroundup_eq (by omega)
    have hnew : pgroundup newsz = npages newsz * PGSIZE := pgroundup_eq (by omega)
    have hold' := npages_le hsz
    rw [uvmdealloc, if_neg hle, min_eq_right (by omega), hold, hnew]
    by_cases hlt : npages newsz * PGSIZE < npages oldsz * PGSIZE
    · have hn : (npages oldsz * PGSIZE - npages newsz * PGSIZE) / PGSIZE =
          npages oldsz - npages newsz := by
        rw [← Nat.sub_mul, page_div]
      have hpos : npages newsz < npages oldsz := Nat.lt_of_mul_lt_mul_right hlt
      rw [if_pos hlt, hn, intToU64_of_lt (by omega)]
      obtain ⟨pt', k', hrun, hun⟩ :=
        uvmunmap_spec (npages newsz) (npages oldsz - npages newsz) (by omega) h
      rw [Nat.add_sub_cancel' hpos.le] at hun
      exact ⟨pt', k', by rw [bind_of_ok hrun]; rfl, hun⟩
    · rw [if_neg hlt]
      refine ⟨pt, k, rfl, Unmapped.refl h ?_⟩
      exact Nat.le_of_mul_le_mul_right (not_lt.mp hlt) (by decide)

/-! ## Fresh pages -/

/-- A page whose entry and contents are kept looks the same to the user. -/
theorem view_of_sameOn {mem mem' : ℕ → UInt8} {keep : Multiset ℕ} {v : ℕ}
    (hleaf : leaf pt' v = leaf pt v) (hsame : SameOn keep mem mem')
    (hmem : (leaf pt v).has PTE_V → pte2pa (leaf pt v) ∈ keep) {i : ℕ} (hi : i < PGSIZE) :
    view pt' mem' v i = view pt mem v i := by
  unfold view
  rw [hleaf]
  split
  · next hV => exact hsame.page _ (hmem hV) i hi
  · rfl

omit [KernelImage] in
theorem view_of_invalid {mem : ℕ → UInt8} {v : ℕ} (h : (leaf pt v).has PTE_V = false) (i : ℕ) :
    view pt mem v i = 0 := by
  simp [view, h]

/-- Permissions that a new user page may get. -/
structure PermOk (perm : Pte) : Prop where
  flags : FlagsOnly perm
  readable : perm.has PTE_R
  not_cow : perm.has PTE_COW = false

/-- Page `v` is now mapped to the zero-filled page `mem`. -/
structure NewPage (G : Multiset ℕ) (v mem : ℕ) (perm : Pte) (pt : PageTable) (k : Phys)
    (pt' : PageTable) (k' : Phys) : Prop where
  evolve : Evolve G pt k pt' k'
  stored : SetLeaf pt pt' v (mapPte mem perm)
  same : SameOn (own pt + G) k.mem k'.mem
  fresh : mem ∉ own pt + G
  grown : ∃ more, own pt' = more + own pt
  addr : pte2pa (mapPte mem perm) = mem
  zero : ∀ i < PGSIZE, k'.mem (mem + i) = 0
  length_lt : k'.freelist.length < k.freelist.length

/-- Nothing was mapped for lack of memory. -/
structure NoPage (G : Multiset ℕ) (pt : PageTable) (k : Phys) (pt' : PageTable) (k' : Phys) :
    Prop where
  evolve : Evolve G pt k pt' k'
  leaves : SameLeaves pt pt'
  same : SameOn (own pt + G) k.mem k'.mem
  oom : k'.oom = true

/-- `kalloc`, `memset` and `mappages` for one page, with the `kfree` that
follows a failed `mappages`. -/
theorem allocPage_spec {v : ℕ} {perm : Pte} (h : UserSpace pt k G) (hv : v < UPAGES)
    (hfree : (leaf pt v).has PTE_V = false) (hp : PermOk perm) :
    kalloc k = .ok (none, { k with oom := true }) ∨
    ∃ mem k₁, kalloc k = .ok (some mem, k₁) ∧
      ∃ ok pt' k₃, mappages pt (v * PGSIZE) PGSIZE mem perm
          { k₁ with mem := memset mem 0 PGSIZE k₁.mem } = .ok ((ok, pt'), k₃) ∧
        (ok = true → NewPage G v mem perm pt k pt' k₃) ∧
        (ok = false → ∃ k₄, kfree mem k₃ = .ok ((), k₄) ∧ NoPage G pt k pt' k₄) := by
  have hU := UPAGES_eq
  rcases kalloc_spec h.acct with ⟨hrun, -⟩ | ⟨mem, k₁, hrun, hstep, hnot, hpage, hlist, -⟩
  · exact Or.inl hrun
  refine Or.inr ⟨mem, k₁, hrun, ?_⟩
  -- The page is filled before anything else refers to it.
  let k₂ : Phys := { k₁ with mem := memset mem 0 PGSIZE k₁.mem }
  have hkeep : ∀ q ∈ own pt + G, q % PGSIZE = 0 ∧ q ≠ mem := fun q hq =>
    ⟨(h.acct.valid_of_mem q hq).1, fun he => hnot (he ▸ hq)⟩
  have hsame₂ : SameOn (own pt + G) k.mem k₂.mem :=
    hstep.same.trans (sameOn_memset 0 hpage hkeep)
  have hzero₂ (i : ℕ) (hi : i < PGSIZE) : k₂.mem (mem + i) = 0 :=
    memmove_inside mem (fun _ => 0) k₁.mem hi
  have hacct₂ : Acct k₂ (mem ::ₘ (own pt + G)) := hstep.acct
  obtain ⟨ok, pt', k₃, new, hrun', hm⟩ := mappages_page mem perm (by omega) hfree hacct₂
  have haddr := pte2pa_mapPte hpage.1 hpage.lt hp.flags
  have hsub : own pt + G ⊆ mem ::ₘ (own pt + G) := Multiset.subset_cons _ _
  have hsame₃ : SameOn (own pt + G) k.mem k₃.mem := hsame₂.trans (hm.step.same.mono hsub)
  have hsharing := (NoNewSharing.cons hnot).trans hm.fresh
  have hG : G ⊆ own pt + G := Multiset.subset_of_le (Multiset.le_add_left _ _)
  have hoom : k.oom = true → k₃.oom = true := fun ho => hm.step.oom_mono (hstep.oom_mono ho)
  refine ⟨ok, pt', k₃, hrun', ?_, ?_⟩
  · intro hok
    have hset := hm.stored hok
    have hown := own_setLeaf new hv hset hm.tables_eq
    rw [pteRef_invalid hfree, pteRef_valid mapPte_flags.1, haddr, add_zero] at hown
    have hrefs : new + mem ::ₘ (own pt + G) = own pt' + G := by
      rw [hown, ← Multiset.singleton_add]
      abel
    rw [hrefs] at hsharing
    have hmem : mem ∈ own pt' + G := by
      rw [hown]
      simp
    refine ⟨⟨⟨hrefs ▸ hm.step.acct, ?_⟩, hsame₃.mono hG, hoom, ?_, hsharing, hm.root_eq⟩, hset, hsame₃, hnot,
      ⟨_, hown⟩, haddr, ?_, ?_⟩
    · refine h.wf.setLeaf hv hset hsharing (Multiset.le_add_right _ _) ⟨?_, ?_, ?_⟩
      · simp [hp.readable]
      · simp [hp.not_cow]
      · intro _ _
        rw [haddr]
        exact hsharing.count_eq_one (by rw [Multiset.count_eq_zero.mpr hnot]; omega) hmem
    · intro w hw hlt
      rw [hset w hlt, if_neg (by omega)]
    · intro i hi
      rw [hm.step.same.page mem (Multiset.mem_cons_self _ _) i hi]
      exact hzero₂ i hi
    · have h1 := hm.length_le
      rw [hlist, List.length_cons]
      exact Nat.lt_succ_of_le h1
  · intro hok
    obtain ⟨hleaves, hfail⟩ := hm.failed hok
    have hown := own_sameLeaves new hleaves hm.tables_eq
    have hrefs : new + mem ::ₘ (own pt + G) = mem ::ₘ (own pt' + G) := by
      rw [hown, ← Multiset.singleton_add, ← Multiset.singleton_add]
      abel
    rw [hrefs] at hsharing
    obtain ⟨k₄, hrun₄, hstep₄, hoom₄⟩ := kfree_spec (hrefs ▸ hm.step.acct)
    have hsharing₄ : NoNewSharing (own pt + G) (own pt' + G) :=
      hsharing.trans (NoNewSharing.of_le (Multiset.le_cons_self _ _))
    have hsub₄ : own pt + G ⊆ own pt' + G := by
      rw [hown, add_assoc]
      exact Multiset.subset_of_le (Multiset.le_add_left _ _)
    have hsame₄ := hsame₃.trans (hstep₄.same.mono hsub₄)
    refine ⟨k₄, hrun₄, ⟨⟨hstep₄.acct, ?_⟩, hsame₄.mono hG, fun ho => ?_, ?_, hsharing₄,
      hm.root_eq⟩, hleaves,
      hsame₄, hoom₄.trans hfail⟩
    · exact h.wf.sameLeaves hleaves hsharing₄ (Multiset.le_add_right _ _)
    · exact hoom₄.trans (hoom ho)
    · exact fun w _ hlt => hleaves w hlt

/-! ## uvmalloc -/

/-- The pages from `lo` to `hi` are mapped to zero-filled pages, or on failure
none of them is; the other pages are as before. -/
structure Alloced (G : Multiset ℕ) (lo hi : ℕ) (perm : Pte) (pt : PageTable) (k : Phys) (ok : Bool)
    (pt' : PageTable) (k' : Phys) : Prop where
  evolve : Evolve G pt k pt' k'
  other : ∀ w < UPAGES, w < lo ∨ hi ≤ w → leaf pt' w = leaf pt w ∧
    ∀ i < PGSIZE, view pt' k'.mem w i = view pt k.mem w i
  bound : ok = true → hi ≤ UPAGES ∧ hi + k'.freelist.length ≤ lo + k.freelist.length
  mapped : ok = true → ∀ w, lo ≤ w → w < hi → (leaf pt' w).has PTE_V ∧
    rights (leaf pt' w) = rights perm ∧ pte2pa (leaf pt' w) ∉ own pt + G ∧
    ∀ i < PGSIZE, view pt' k'.mem w i = 0
  undone : ok = false → ∀ w < UPAGES, lo ≤ w → w < hi → (leaf pt' w).has PTE_V = false
  failed : ok = false → k'.oom = true

/-- When nothing was mapped from `lo` on, nothing is above what was allocated. -/
theorem Alloced.above {lo hi : ℕ} {perm : Pte} {ok : Bool} (h : Alloced G lo hi perm pt k ok pt' k')
    (hle : lo ≤ hi) (habove : ∀ w, lo ≤ w → w < UPAGES → (leaf pt w).has PTE_V = false) (w : ℕ)
    (hw : (if ok then hi else lo) ≤ w) (hwU : w < UPAGES) : (leaf pt' w).has PTE_V = false := by
  by_cases hhi : hi ≤ w
  · rw [(h.other w hwU (Or.inr hhi)).1]
    exact habove w (by omega) hwU
  · cases ok with
    | true => exact absurd hw hhi
    | false => exact h.undone rfl w hwU hw (not_le.mp hhi)

/-- A failed allocation has changed no page of the process. -/
structure GaveUp (G : Multiset ℕ) (pt : PageTable) (k : Phys) (pt' : PageTable) (k' : Phys) :
    Prop where
  evolve : Evolve G pt k pt' k'
  keeps : ∀ w < UPAGES, (leaf pt w).has PTE_V → leaf pt' w = leaf pt w
  adds : ∀ w < UPAGES, (leaf pt' w).has PTE_V → (leaf pt w).has PTE_V
  view_eq : ∀ w < UPAGES, ∀ i < PGSIZE, view pt' k'.mem w i = view pt k.mem w i
  oom : k'.oom = true

theorem Alloced.gaveUp {lo hi : ℕ} {perm : Pte} (h : Alloced G lo hi perm pt k false pt' k')
    (hfree : ∀ w < UPAGES, lo ≤ w → w < hi → (leaf pt w).has PTE_V = false) :
    GaveUp G pt k pt' k' := by
  have hout (w : ℕ) (hw : w < UPAGES) (hV : (leaf pt w).has PTE_V) : w < lo ∨ hi ≤ w := by
    by_contra hin
    rw [hfree w hw (by omega) (by omega)] at hV
    cases hV
  refine ⟨h.evolve, fun w hw hV => (h.other w hw (hout w hw hV)).1, fun w hw hV => ?_,
    fun w hw i hi' => ?_, h.failed rfl⟩
  · by_contra hV'
    by_cases hin : w < lo ∨ hi ≤ w
    · rw [(h.other w hw hin).1] at hV
      exact hV' hV
    · rw [h.undone rfl w hw (by omega) (by omega)] at hV
      cases hV
  · by_cases hin : w < lo ∨ hi ≤ w
    · exact (h.other w hw hin).2 i hi'
    · rw [view, h.undone rfl w hw (by omega) (by omega), view, hfree w hw (by omega) (by omega)]
      rfl

omit [KernelImage] in
theorem rights_mapPte (pa : ℕ) (perm : Pte) : rights (mapPte pa perm) = rights perm := by
  simp [rights]

omit [KernelImage] in
theorem permOk_user {xperm : Pte} (hf : FlagsOnly xperm) (hc : xperm.has PTE_COW = false) :
    PermOk (PTE_R ||| PTE_U ||| xperm) where
  flags := ((flagsOnly_one_shift (by omega)).or (flagsOnly_one_shift (by omega))).or hf
  readable := by
    rw [Pte.has_R, BitVec.getLsbD_or, BitVec.getLsbD_or]
    simp
  not_cow := by
    rw [Pte.has_COW] at hc
    rw [Pte.has_COW, BitVec.getLsbD_or, BitVec.getLsbD_or, hc, getLsbD_PTE_R, getLsbD_PTE_U]
    rfl

/-- Giving up in the loop of `uvmalloc`: the pages from `start` to `v` go. -/
theorem uvmalloc_undo {start v : ℕ} (hle : start ≤ v) (hv : v ≤ UPAGES) (h : Evolve G pt k pt₁ k₁)
    (hleaves : SameLeaves pt pt₁) (hsame : SameOn (own pt + G) k.mem k₁.mem)
    (hoom : k₁.oom = true) {hi : ℕ} (hhi : v ≤ hi)
    (habove : ∀ w, v ≤ w → w < hi → w < UPAGES → (leaf pt w).has PTE_V = false) (perm : Pte) :
    ∃ pt' k', uvmdealloc pt₁ (v * PGSIZE) (start * PGSIZE) k₁ =
        .ok ((start * PGSIZE, pt'), k') ∧ Alloced G start hi perm pt k false pt' k' := by
  have hU := UPAGES_eq
  have hT : TRAPFRAME = 274877898752 := rfl
  have hsz : v * PGSIZE ≤ TRAPFRAME := by
    simp only [PGSIZE]
    omega
  obtain ⟨pt', k', hrun, hun⟩ := uvmdealloc_spec (start * PGSIZE) hsz h.space
  rw [npages_page, npages_page] at hun
  rw [min_eq_right (Nat.mul_le_mul_right _ hle)] at hrun
  refine ⟨pt', k', hrun, h.trans (hun.evolve hv), ?_, by simp, by simp, ?_,
    fun _ => hun.oom_eq.trans hoom⟩
  · intro w hwU hw
    have hleaf : leaf pt' w = leaf pt w := by
      rw [hun.leaf_eq w (by omega), if_neg (by omega), hleaves w (by omega)]
    refine ⟨hleaf, fun i hi => ?_⟩
    have hmem (hV : (leaf pt w).has PTE_V) : pte2pa (leaf pt w) ∈ own pt' + G := by
      rw [← hleaf] at hV ⊢
      exact Multiset.mem_add.mpr (Or.inl (mem_own hwU hV))
    rw [view_of_sameOn (hleaf.trans (hleaves w (by omega)).symm) hun.same
      (by rwa [hleaves w (by omega)]) hi]
    exact view_of_sameOn (hleaves w (by omega)) hsame
      (fun hV => Multiset.mem_add.mpr (Or.inl (mem_own hwU hV))) hi
  · intro _ w hwU hw hwhi
    rw [hun.leaf_eq w (by omega), hleaves w (by omega)]
    by_cases hwv : w < v
    · split
      · exact has_zero _
      · next hno => simpa [hw, hwv] using hno
    · rw [if_neg (by omega)]
      exact habove w (by omega) hwhi hwU

/-- One more page in front of those that the rest of the loop has mapped. -/
theorem Alloced.cons {start v mem hi : ℕ} {perm : Pte} {ok : Bool} (hle : start ≤ v)
    (hv : v < UPAGES) (hhi : v < hi) (hpage : NewPage G v mem perm pt k pt₁ k₁)
    (h : Alloced G (if ok then v + 1 else start) hi perm pt₁ k₁ ok pt' k') :
    Alloced G (if ok then v else start) hi perm pt k ok pt' k' := by
  have hU := UPAGES_eq
  have hview (w i : ℕ) (hwv : w ≠ v) (hw : w < UPAGES) (hi : i < PGSIZE) :
      view pt₁ k₁.mem w i = view pt k.mem w i :=
    view_of_sameOn (by rw [hpage.stored w (by omega), if_neg hwv]) hpage.same
      (fun hV => Multiset.mem_add.mpr (Or.inl (mem_own hw hV))) hi
  refine ⟨hpage.evolve.trans h.evolve, ?_, ?_, ?_, ?_, h.failed⟩
  · intro w hwU hw
    have hne : w ≠ v := by
      cases ok <;> simp at hw <;> omega
    obtain ⟨hleaf, hsame⟩ := h.other w hwU (by cases ok <;> simp at hw ⊢ <;> omega)
    refine ⟨by rw [hleaf, hpage.stored w (by omega), if_neg hne], fun i hi => ?_⟩
    rw [hsame i hi, hview w i hne hwU hi]
  · rintro rfl
    obtain ⟨h1, h2⟩ := h.bound rfl
    have h3 := hpage.length_lt
    simp only [if_true] at h2 ⊢
    omega
  · rintro rfl w hw hlt
    obtain ⟨h1, h2⟩ := h.bound rfl
    simp only [if_true] at hw
    by_cases hwv : w = v
    · subst hwv
      obtain ⟨hleaf, hsame⟩ := h.other w hv (by simp)
      have hentry : leaf pt' w = mapPte mem perm := by
        rw [hleaf, hpage.stored w (by omega), if_pos rfl]
      refine ⟨by simp [hentry], by rw [hentry, rights_mapPte], ?_, fun i hi => ?_⟩
      · rw [hentry, hpage.addr]
        exact hpage.fresh
      rw [hsame i hi, view, hpage.stored w (by omega), if_pos rfl, if_pos mapPte_flags.1,
        hpage.addr]
      exact hpage.zero i hi
    · obtain ⟨hV, hr, hfresh, hzero⟩ := h.mapped rfl w (by simp; omega) hlt
      refine ⟨hV, hr, fun hmem => hfresh ?_, hzero⟩
      obtain ⟨more, hmore⟩ := hpage.grown
      rw [hmore, add_assoc]
      exact Multiset.mem_add.mpr (Or.inr hmem)
  · rintro rfl
    exact h.undone rfl

theorem uvmallocLoop_spec {start : ℕ} {xperm : Pte} (hp : PermOk (PTE_R ||| PTE_U ||| xperm))
    (n v : ℕ) (hle : start ≤ v)
    (hroom : v + n ≤ UPAGES ∨ v + k.freelist.length ≤ UPAGES) (h : UserSpace pt k G)
    (habove : ∀ w, v ≤ w → w < v + n → w < UPAGES → (leaf pt w).has PTE_V = false) :
    ∃ ok pt' k', uvmallocLoop (start * PGSIZE) xperm n pt (v * PGSIZE) k = .ok ((ok, pt'), k') ∧
      Alloced G (if ok then v else start) (v + n) (PTE_R ||| PTE_U ||| xperm) pt k ok pt' k' := by
  have hU := UPAGES_eq
  induction n generalizing v pt k with
  | zero =>
    refine ⟨true, pt, k, rfl, Evolve.refl h, fun _ _ _ => ⟨rfl, fun _ _ => rfl⟩, ?_, ?_,
      by simp, by simp⟩
    · simp
      omega
    · intro _ w hw hlt
      simp at hw
      omega
  | succ n ih =>
    have hv : v ≤ UPAGES := by omega
    rw [uvmallocLoop]
    -- With no page left the loop stops before it looks at page `v`.
    rcases Classical.em (k.freelist = []) with hnil | hcons
    · have hrun : kalloc k = .ok (none, { k with oom := true }) := by rw [kalloc, hnil]
      obtain ⟨pt', k', hrun', hal⟩ := uvmalloc_undo hle hv (Evolve.oom h) (fun _ _ => rfl)
        (SameOn.refl _ _) rfl (Nat.le_add_right v (n + 1)) habove (PTE_R ||| PTE_U ||| xperm)
      refine ⟨false, pt', k', ?_, hal⟩
      rw [bind_of_ok hrun]
      change (uvmdealloc pt (v * PGSIZE) (start * PGSIZE) >>= _) _ = _
      rw [bind_of_ok hrun']
      rfl
    have hlen : 0 < k.freelist.length := List.length_pos_iff.mpr hcons
    have hvU : v < UPAGES := by omega
    have hfree := habove v le_rfl (by omega) hvU
    rcases allocPage_spec h hvU hfree hp with
      hrun | ⟨mem, k₁, hrun, ok, pt₁, k₃, hmap, hnew, hno⟩
    · obtain ⟨hd, tl, hk⟩ := List.exists_cons_of_ne_nil hcons
      rw [kalloc, hk] at hrun
      cases hrun
    rw [bind_of_ok hrun]
    dsimp only
    rw [bind_of_ok (setMem_run _ _), bind_of_ok hmap]
    dsimp only
    cases ok with
    | false =>
      obtain ⟨k₄, hfree, hnp⟩ := hno rfl
      obtain ⟨pt', k', hrun', hal⟩ := uvmalloc_undo hle hv hnp.evolve hnp.leaves hnp.same hnp.oom
        (Nat.le_add_right v (n + 1)) habove (PTE_R ||| PTE_U ||| xperm)
      refine ⟨false, pt', k', ?_, hal⟩
      simp only [Bool.false_eq_true, if_false]
      rw [bind_of_ok hfree, bind_of_ok hrun']
      rfl
    | true =>
      have hpage := hnew rfl
      have hshort := hpage.length_lt
      obtain ⟨ok, pt', k', hrun', hal⟩ := ih (v + 1) (by omega) (by omega) hpage.evolve.space
        (fun w hw hwn hwU => by
          rw [hpage.stored w (by omega), if_neg (by omega)]
          exact habove w (by omega) (by omega) hwU)
      rw [Nat.add_assoc, Nat.add_comm 1 n] at hal
      refine ⟨ok, pt', k', ?_, ?_⟩
      · rw [if_pos rfl, page_succ, hrun']
      · exact hal.cons hle hvU (by omega) hpage

theorem uvmalloc_spec {oldsz : ℕ} (newsz : ℕ) {xperm : Pte} (hp : PermOk (PTE_R ||| PTE_U ||| xperm))
    (hold : oldsz ≤ TRAPFRAME)
    (hroom : newsz ≤ TRAPFRAME ∨ npages oldsz + k.freelist.length ≤ UPAGES)
    (h : UserSpace pt k G)
    (habove : ∀ w, npages oldsz ≤ w → w < UPAGES → (leaf pt w).has PTE_V = false) :
    ∃ ok pt' k', uvmalloc pt oldsz newsz xperm k =
        .ok ((if ok then max oldsz newsz else 0, pt'), k') ∧
      Alloced G (npages oldsz) (npages (max oldsz newsz)) (PTE_R ||| PTE_U ||| xperm) pt k ok
        pt' k' := by
  have hU := UPAGES_eq
  have hT : TRAPFRAME = 274877898752 := rfl
  have hM : MAXVA = 274877906944 := rfl
  have hpg := npages_le hold
  by_cases hlt : newsz < oldsz
  · rw [max_eq_left hlt.le]
    refine ⟨true, pt, k, ?_, Evolve.refl h, fun _ _ _ => ⟨rfl, fun _ _ => rfl⟩, ?_, ?_,
      by simp, by simp⟩
    · rw [uvmalloc, if_pos hlt]
      rfl
    · exact fun _ => ⟨hpg, le_rfl⟩
    · intro _ w hw hlt
      omega
  · have hn : pagesBetween (npages oldsz * PGSIZE) newsz = npages newsz - npages oldsz := by
      simp only [pagesBetween, npages, PGSIZE]
      omega
    have hle : npages oldsz ≤ npages newsz := npages_mono (by omega)
    have hroom' : npages oldsz + (npages newsz - npages oldsz) ≤ UPAGES ∨
        npages oldsz + k.freelist.length ≤ UPAGES := by
      rcases hroom with hnew | hlen
      · have := npages_le hnew
        omega
      · exact Or.inr hlen
    obtain ⟨ok, pt', k', hrun, hal⟩ := uvmallocLoop_spec hp (npages newsz - npages oldsz)
      (npages oldsz) le_rfl hroom' h (fun w hw _ hwU => habove w hw hwU)
    rw [ite_self, Nat.add_sub_cancel' hle] at hal
    rw [max_eq_right (by omega)]
    refine ⟨ok, pt', k', ?_, hal⟩
    rw [uvmalloc, if_neg hlt, pgroundup_eq (by omega), hn]
    dsimp only
    rw [bind_of_ok hrun]
    rfl

end Xv6.Vm
