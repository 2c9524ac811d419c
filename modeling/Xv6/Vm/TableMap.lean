import Xv6.Vm.TableRefine

/-! # A page table is a finite map

Whatever calls of `walk`, `mappages` and `uvmunmap` have built a page table, it maps page
numbers to entries, each call changes the entries it is asked to change, and the pages of
the table form a tree.
-/
namespace Xv6.Vm.Words
open Library Library.Exec

section
variable {mem : ℕ → UInt8} {k k' : Phys} {pagetable va v : ℕ}

/-- The pages of the table at `page`, found by following its entries. -/
def tablePages (mem : ℕ → UInt8) : (n : ℕ) → (page : ℕ) → Multiset ℕ
  | 0, page => {page}
  | n + 1, page => {page} + ∑ i : Fin 512,
      if (wordAt mem (slotAt page i)).has PTE_V then
        tablePages mem n (pte2pa (wordAt mem (slotAt page i)))
      else 0

attribute [irreducible] tablePages

/-- The entry for page `v`, as `walk` finds it. -/
def entry (k : Phys) (pagetable v : ℕ) : Pte :=
  match walk pagetable (v * PGSIZE) false k with
  | .ok (some pte, _) => wordAt k.mem pte
  | _ => 0

/-- The references of the entries for `n` pages from `v` on. -/
def entryRefs (k : Phys) (pagetable v n : ℕ) : Multiset ℕ :=
  ∑ w ∈ Finset.Ico v (v + n), pteRef (entry k pagetable w)

end

section
variable [KernelImage] {pt pt' : PageTable} {G : Multiset ℕ} {kr kr' k k' : Phys}
  {pagetable va v pa : ℕ} {perm : Pte}

/-- A page table that calls of vm.c have built, with the references `G` that the rest of the
kernel holds.  In between, the rest of the kernel may do anything but write to the pages of
the table; `uvmunmap` frees only pages to which the mapping holds a reference. -/
inductive Built (pagetable : ℕ) : Phys → Multiset ℕ → Prop
  | create {k k' : Phys} {G : Multiset ℕ} (h : Acct k G)
      (hrun : uvmcreate k = .ok (some pagetable, k')) : Built pagetable k' G
  | walk {k k' : Phys} {G : Multiset ℕ} {va : ℕ} {r : Option ℕ} (h : Built pagetable k G)
      (hva : va < MAXVA) (hrun : walk pagetable va true k = .ok (r, k')) : Built pagetable k' G
  | mappages {k k' : Phys} {G : Multiset ℕ} {va size pa : ℕ} {perm : Pte} {ok : Bool}
      (h : Built pagetable k G) (hend : va + size ≤ MAXVA)
      (hrun : mappages pagetable va size pa perm k = .ok (ok, k')) : Built pagetable k' G
  | unmap {k k' : Phys} {G : Multiset ℕ} {va npages : ℕ} (h : Built pagetable k G)
      (hend : va + npages * PGSIZE ≤ MAXVA)
      (hrun : uvmunmap pagetable va npages false k = .ok ((), k')) : Built pagetable k' G
  | free {k k' : Phys} {G : Multiset ℕ} {va npages : ℕ}
      (h : Built pagetable k (entryRefs k pagetable (va / PGSIZE) npages + G))
      (hend : va + npages * PGSIZE ≤ MAXVA)
      (hrun : uvmunmap pagetable va npages true k = .ok ((), k')) : Built pagetable k' G
  | other {k k' : Phys} {G G' : Multiset ℕ} (h : Built pagetable k G)
      (hacct : Acct k' (tablePages k.mem 2 pagetable + G'))
      (hsame : Fixed (tablePages k.mem 2 pagetable) k.mem k'.mem) : Built pagetable k' G'

/-- Entries without `PTE_V` are zero, and there are none from `MAXVA` on. -/
structure Tidy (pt : PageTable) : Prop where
  zero : ∀ v < 2 ^ 27, (leaf pt v).has PTE_V = false → leaf pt v = 0
  above : ∀ v, 2 ^ 26 ≤ v → v < 2 ^ 27 → leaf pt v = 0

/-! ## Reading the tree off the memory -/

theorem Holds.tablePages_eq {n : ℕ} {t : Table n} (h : Holds k.mem n t)
    (hpage : ∀ a ∈ Radix.tags n t, PageAddr a) :
    tablePages k.mem n (Radix.tag n t) = Radix.tags n t := by
  induction n with
  | zero =>
    rw [tablePages, Radix.tags_zero]
    rfl
  | succ n ih =>
    rw [tablePages, Radix.tags_succ]
    refine congrArg _ (Finset.sum_congr rfl fun i _ => ?_)
    change (if (wordAt k.mem (slotAt t.1 i)).has PTE_V then
      tablePages k.mem n (pte2pa (wordAt k.mem (slotAt t.1 i))) else 0) = _
    cases hc : t.2 i with
    | none =>
      rw [h.absent hc]
      rfl
    | some c =>
      have hle : Radix.tags n c ≤ Radix.tags (n + 1) t := by
        rw [Radix.tags_eq_add_beside t i, hc]
        exact Multiset.le_add_right _ _
      have hsub (a : ℕ) (ha : a ∈ Radix.tags n c) : PageAddr a := hpage a (Multiset.mem_of_le hle ha)
      obtain ⟨hV, hpa⟩ := child_word (hsub _ (Radix.tag_mem_tags c))
      rw [(h.child hc).1, if_pos hV, hpa, ih (h.child hc).2 hsub]
      rfl

theorem Sim.tablePages_eq (h : Sim 2 pt 0 G kr k) : tablePages k.mem 2 (root pt) = tables pt :=
  h.holds.tablePages_eq fun _ ha => h.page (Multiset.mem_add.mpr (Or.inl ha))

theorem Sim.entry_eq (h : Sim 2 pt 0 G kr k) (hv : v < 2 ^ 26) :
    entry k (root pt) v = leaf pt v := by
  rw [entry, walk_sim_find h (page_lt_maxva hv)]
  cases hptr : slotPtr 2 pt (v * PGSIZE) with
  | none =>
    have hnone : slot pt (v * PGSIZE) = none := by
      rw [← Option.not_isSome_iff_eq_none, ← slotPtr_slot, hptr]
      simp
    rw [leaf, hnone]
    rfl
  | some pte =>
    have hget : slot pt (v * PGSIZE) = some (wordAt k.mem pte) := h.holds.read hptr
    rw [leaf, hget]
    rfl

theorem Sim.entryRefs_eq (h : Sim 2 pt 0 G kr k) {n : ℕ} (hn : v + n ≤ 2 ^ 26) :
    entryRefs k (root pt) v n = ∑ w ∈ Finset.Ico v (v + n), freed true pt w := by
  refine Finset.sum_congr rfl fun w hw => ?_
  have hlt := (Finset.mem_Ico.mp hw).2
  rw [h.entry_eq (by omega)]
  rfl

/-- The addresses of entries depend on the page, and different pages have different ones. -/
theorem Sim.slotPtr_inj (h : Sim 2 pt 0 G kr k) {wa pte : ℕ} (hva : va < MAXVA) (hwa : wa < MAXVA)
    (hv : slotPtr 2 pt va = some pte) (hw : slotPtr 2 pt wa = some pte) :
    wa / PGSIZE = va / PGSIZE := by
  obtain ⟨a, ha, rfl⟩ := Option.map_eq_some_iff.mp hv
  obtain ⟨b, hb, heq⟩ := Option.map_eq_some_iff.mp hw
  have halign (c : ℕ) (d : ℕ → Fin 512) (hc : Radix.bottom 2 pt d = some c) : c % PGSIZE = 0 :=
    (h.page (Multiset.mem_add.mpr (Or.inl (Radix.mem_tags_of_bottom hc)))).1
  have h1 := halign a _ ha
  have h2 := halign b _ hb
  obtain ⟨rfl, hzero⟩ : b = a ∧ px wa 0 = px va 0 := by
    have := (px va 0).isLt
    have := (px wa 0).isLt
    rw [Fin.ext_iff]
    simp only [slotAt, PGSIZE] at *
    omega
  have hnd : (Radix.tags 2 pt).Nodup := (Multiset.nodup_add.mp h.nodup).1
  by_contra hne
  have hM : MAXVA = 274877906944 := rfl
  have hlt (x : ℕ) (hx : x < MAXVA) : x / PGSIZE < 2 ^ 27 := by
    simp only [PGSIZE]
    omega
  obtain ⟨l, hl, hlne⟩ := px_ne (hlt wa hwa) (hlt va hva) hne
  rw [px_page, px_page] at hlne
  rcases Nat.eq_zero_or_pos l with rfl | hpos
  · exact hlne hzero
  · exact hlne (Radix.bottom_inj hnd hb ha l hpos hl)

omit [KernelImage] in
theorem slotPtr_page (pt : PageTable) {wa : ℕ} (h : wa / PGSIZE = va / PGSIZE) :
    slotPtr 2 pt wa = slotPtr 2 pt va := by
  have hpx : px wa = px va := by rw [← px_page wa, h, px_page]
  rw [slotPtr, slotPtr, hpx]

/-! ## What the calls do to the tree -/

theorem walk_leaf {found : Bool} (h : Sim 2 pt 0 G kr k) (hva : va < MAXVA)
    (hr : Vm.walk pt va true kr = .ok ((found, pt'), kr')) :
    (∀ w, leaf pt' w = leaf pt w) ∧ (found = false → kr'.oom = true) := by
  obtain ⟨found', pt₁, kr₁, new, hrun, hg, -, hoom⟩ := walk_alloc pt hva h.acct
  rw [hr] at hrun
  cases hrun
  exact ⟨hg.leaf_eq, hoom⟩

/-- `mappages` fills the first `m` of the pages it is given. -/
theorem mappagesLoop_leaf (perm : Pte) (n v pa : ℕ) {refs : Multiset ℕ} (h : Acct kr refs)
    {ok : Bool}
    (hrun : Vm.mappagesLoop perm n pt (v * PGSIZE) pa kr = .ok ((ok, pt'), kr')) :
    ∃ m ≤ n, (ok = true → m = n) ∧ (ok = false → m < n) ∧ ∀ w < 2 ^ 27, leaf pt' w =
      if v ≤ w ∧ w < v + m then mapPte (pa + (w - v) * PGSIZE) perm else leaf pt w := by
  induction n generalizing v pa pt kr refs with
  | zero =>
    cases hrun
    refine ⟨0, le_rfl, fun _ => rfl, by simp, fun w _ => ?_⟩
    rw [if_neg (by omega)]
  | succ n ih =>
    rw [Vm.mappagesLoop] at hrun
    obtain ⟨⟨found, pt₁⟩, kr₁, hwalk, hrun⟩ := bind_ok hrun
    have hva : v * PGSIZE < MAXVA := by
      by_contra hge
      rw [Vm.walk, if_pos (not_lt.mp hge)] at hwalk
      cases hwalk
    have hv : v < 2 ^ 26 := by
      simp only [PGSIZE, MAXVA] at hva
      omega
    obtain ⟨found', pt₂, kr₂, new, hwalk', hg, hyes, -⟩ := walk_alloc pt hva h
    rw [hwalk] at hwalk'
    cases hwalk'
    cases hf : found with
    | false =>
      rw [hf] at hrun
      obtain ⟨hres, -⟩ := pure_ok hrun
      cases hres
      refine ⟨0, by omega, by simp, by simp, fun w _ => ?_⟩
      rw [if_neg (by omega), hg.leaf_eq]
    | true =>
      have hs := hyes hf
      rw [hf] at hrun
      simp only [Bool.not_true, Bool.false_eq_true, if_false] at hrun
      obtain ⟨pte, kr₂, hread, hrun⟩ := bind_ok hrun
      rw [readSlot_run hs] at hread
      cases hread
      split at hrun
      · cases hrun
      · rw [page_succ] at hrun
        obtain ⟨m, hm, hok, hno, hleaf⟩ := ih (v + 1) (pa + PGSIZE) hg.step.acct hrun
        refine ⟨m + 1, by omega, fun hc => by rw [hok hc], fun hc => by have := hno hc; omega,
          fun w hw => ?_⟩
        have hset := setLeaf_setSlot (by omega) hs (mapPte pa perm) w hw
        rw [hleaf w hw, hset, hg.leaf_eq]
        by_cases hwv : w = v
        · subst hwv
          rw [if_neg (by omega), if_pos rfl, if_pos (by omega), Nat.sub_self, Nat.zero_mul,
            Nat.add_zero]
        · rw [if_neg hwv]
          by_cases hin : v + 1 ≤ w ∧ w < v + 1 + m
          · have hpage : pa + PGSIZE + (w - (v + 1)) * PGSIZE = pa + (w - v) * PGSIZE := by
              simp only [PGSIZE]
              omega
            rw [if_pos hin, if_pos (by omega), hpage]
          · rw [if_neg hin, if_neg (by omega)]

theorem mappages_map {size : ℕ} {ok : Bool} (h : Sim 2 pt 0 G kr k) (hend : va + size ≤ MAXVA)
    (hrun : mappages (root pt) va size pa perm k = .ok (ok, k')) :
    ∃ pt' kr' m, Sim 2 pt' 0 G kr' k' ∧ root pt' = root pt ∧ va % PGSIZE = 0 ∧
      va / PGSIZE + m ≤ 2 ^ 26 ∧ (ok = true → m = size / PGSIZE) ∧
      (ok = false → m < size / PGSIZE) ∧ ∀ w < 2 ^ 27, leaf pt' w =
        if va / PGSIZE ≤ w ∧ w < va / PGSIZE + m then mapPte (pa + (w - va / PGSIZE) * PGSIZE) perm
        else leaf pt w := by
  rcases mappages_sim va size pa perm h with ⟨e, -, he⟩ | ⟨ok', pt', kr', k₁, hr, hw, hsim, hroot⟩
  · rw [hrun] at he
    cases he
  rw [hrun] at hw
  cases hw
  rw [Vm.mappages] at hr
  split at hr
  · cases hr
  next hal =>
  split at hr
  · cases hr
  next hsz =>
  split at hr
  · cases hr
  have hva : va = va / PGSIZE * PGSIZE := by
    simp only [PGSIZE] at *
    omega
  rw [hva] at hr
  obtain ⟨m, hm, hok, hno, hleaf⟩ := mappagesLoop_leaf perm _ _ pa h.acct hr
  refine ⟨pt', kr', m, hsim, hroot, not_not.mp hal, ?_, hok, hno, hleaf⟩
  simp only [PGSIZE, MAXVA] at *
  omega

theorem uvmunmap_map {npages : ℕ} (doFree : Bool) (hend : va + npages * PGSIZE ≤ MAXVA)
    (h : Sim 2 pt 0 (∑ w ∈ Finset.Ico (va / PGSIZE) (va / PGSIZE + npages), freed doFree pt w + G)
      kr k)
    (hrun : uvmunmap (root pt) va npages doFree k = .ok ((), k')) :
    ∃ pt' kr', Sim 2 pt' 0 G kr' k' ∧ root pt' = root pt ∧ ∀ w < 2 ^ 27, leaf pt' w =
      if (va / PGSIZE ≤ w ∧ w < va / PGSIZE + npages) ∧ (leaf pt w).has PTE_V then 0
      else leaf pt w := by
  rw [uvmunmap] at hrun
  split at hrun
  · cases hrun
  next hal =>
  have hva : va = va / PGSIZE * PGSIZE := by
    simp only [PGSIZE] at *
    omega
  have hu : u64 (va + npages * PGSIZE) = (va / PGSIZE + npages) * PGSIZE := by
    simp only [u64, PGSIZE, MAXVA] at *
    omega
  have hn : va / PGSIZE + npages ≤ 2 ^ 26 := by
    simp only [PGSIZE, MAXVA] at *
    omega
  have hcount : pagesBetween va (u64 (va + npages * PGSIZE)) = npages := by
    rw [hu]
    have hb := pagesBetween_page (va / PGSIZE) npages
    rwa [← hva] at hb
  rw [hcount, hva] at hrun
  obtain ⟨pt', kr', k₁, -, hw, hsim, hroot, hleaf⟩ := uvmunmapLoop_sim doFree npages _ hn h
  rw [hrun] at hw
  cases hw
  exact ⟨pt', kr', hsim, hroot, hleaf⟩

omit [KernelImage] in
theorem Tidy.uvmunmap (h : Tidy pt) {lo hi : ℕ} (hleaf : ∀ w < 2 ^ 27, leaf pt' w =
    if (lo ≤ w ∧ w < hi) ∧ (leaf pt w).has PTE_V then 0 else leaf pt w) : Tidy pt' := by
  constructor
  · intro v hv hV
    rw [hleaf v hv] at hV ⊢
    split
    · rfl
    · next hno =>
      rw [if_neg hno] at hV
      exact h.zero v hv hV
  · intro v hlo hv
    rw [hleaf v hv, h.above v hlo hv]
    simp

/-- Every table that has been built is held by its memory as a tidy tree. -/
theorem Built.sim (h : Built pagetable k G) :
    ∃ pt kr, Sim 2 pt 0 G kr k ∧ root pt = pagetable ∧ Tidy pt := by
  induction h with
  | @create k k' G hacct hrun =>
    rw [uvmcreate] at hrun
    rcases kalloc_spec hacct with ⟨hno, -⟩ | ⟨pa, k₁, hyes, hstep, hnot, hpa, -, -⟩
    · rw [bind_of_ok hno] at hrun
      cases hrun
    · rw [bind_of_ok hyes] at hrun
      cases hrun
      have hleaf (v : ℕ) : leaf (Radix.empty 0 pagetable 2 : PageTable) v = 0 := rfl
      refine ⟨Radix.empty 0 pagetable 2, { k₁ with mem := memset pagetable 0 PGSIZE k₁.mem },
        ⟨?_, ?_, ?_, rfl, fun _ _ => rfl⟩, rfl, fun v _ _ => hleaf v, fun v _ _ => hleaf v⟩
      · rw [Radix.tags_empty, add_zero, Multiset.singleton_add]
        exact hstep.acct
      · rw [Radix.tags_empty, add_zero]
        exact Multiset.nodup_singleton _
      · exact holds_empty fun i hi => memmove_inside pagetable (fun _ => 0) _ hi
  | walk _ hva hrun ih =>
    obtain ⟨pt, kr, hsim, rfl, htidy⟩ := ih
    obtain ⟨pt', kr', k', hr, hw, hsim', hroot⟩ := walk_sim hsim hva
    rw [hrun] at hw
    cases hw
    have hleaf := (walk_leaf hsim hva hr).1
    exact ⟨pt', kr', hsim', hroot, by simpa only [hleaf] using htidy.zero,
      by simpa only [hleaf] using htidy.above⟩
  | mappages _ hend hrun ih =>
    obtain ⟨pt, kr, hsim, rfl, htidy⟩ := ih
    obtain ⟨pt', kr', m, hsim', hroot, -, hm, -, -, hleaf⟩ := mappages_map hsim hend hrun
    refine ⟨pt', kr', hsim', hroot, fun v hv hV => ?_, fun v hlo hv => ?_⟩
    · rw [hleaf v hv] at hV ⊢
      split at hV
      · simp at hV
      · next hno =>
        rw [if_neg hno]
        exact htidy.zero v hv hV
    · rw [hleaf v hv, if_neg (by omega)]
      exact htidy.above v hlo hv
  | unmap _ hend hrun ih =>
    obtain ⟨pt, kr, hsim, rfl, htidy⟩ := ih
    obtain ⟨pt', kr', hsim', hroot, hleaf⟩ := uvmunmap_map false hend
      (by simpa only [freed, Bool.false_eq_true, if_false, Finset.sum_const_zero, zero_add] using
        hsim) hrun
    exact ⟨pt', kr', hsim', hroot, htidy.uvmunmap hleaf⟩
  | free _ hend hrun ih =>
    obtain ⟨pt, kr, hsim, rfl, htidy⟩ := ih
    rw [hsim.entryRefs_eq (by simp only [PGSIZE, MAXVA] at *; omega)] at hsim
    obtain ⟨pt', kr', hsim', hroot, hleaf⟩ := uvmunmap_map true hend hsim hrun
    exact ⟨pt', kr', hsim', hroot, htidy.uvmunmap hleaf⟩
  | @other k k' G G' _ hacct hsame ih =>
    obtain ⟨pt, kr, hsim, rfl, htidy⟩ := ih
    rw [hsim.tablePages_eq] at hacct hsame
    refine ⟨pt, k', ⟨?_, hsim.nodup, hsim.holds.congr hsame, rfl, fun _ _ => rfl⟩, rfl, htidy⟩
    rw [add_zero]
    exact hacct

/-! ## The map -/

/-- What it means that the table at `pagetable` is a map from pages below `MAXVA` to
entries. -/
structure IsMap (pagetable : ℕ) (k : Phys) (G : Multiset ℕ) : Prop where
  find : ∀ va < MAXVA, ∃ r, walk pagetable va false k = .ok (r, k)
  same_slot : ∀ va < MAXVA, ∀ wa < MAXVA, wa / PGSIZE = va / PGSIZE →
    walk pagetable wa false k = walk pagetable va false k
  slot_inj : ∀ va < MAXVA, ∀ wa < MAXVA, ∀ pte, walk pagetable va false k = .ok (some pte, k) →
    walk pagetable wa false k = .ok (some pte, k) → wa / PGSIZE = va / PGSIZE
  walk_alloc : ∀ va < MAXVA, ∃ r k', walk pagetable va true k = .ok (r, k') ∧
    (r = none → k'.oom = true) ∧ ∀ v < MAXVA / PGSIZE, entry k' pagetable v = entry k pagetable v
  mappages : ∀ va size pa perm ok k', va + size ≤ MAXVA →
    mappages pagetable va size pa perm k = .ok (ok, k') →
    ∃ m, (ok = true → m = size / PGSIZE) ∧ (ok = false → m < size / PGSIZE) ∧
      ∀ v < MAXVA / PGSIZE, entry k' pagetable v =
        if va ≤ v * PGSIZE ∧ v * PGSIZE < va + m * PGSIZE then mapPte (pa + (v * PGSIZE - va)) perm
        else entry k pagetable v
  uvmunmap : ∀ va npages doFree k', va + npages * PGSIZE ≤ MAXVA →
    (doFree = true → entryRefs k pagetable (va / PGSIZE) npages ≤ G) →
    uvmunmap pagetable va npages doFree k = .ok ((), k') →
    ∀ v < MAXVA / PGSIZE, entry k' pagetable v =
      if va ≤ v * PGSIZE ∧ v * PGSIZE < va + npages * PGSIZE then 0 else entry k pagetable v
  tree : (tablePages k.mem 2 pagetable).Nodup
  freewalk : (∀ v < MAXVA / PGSIZE, (entry k pagetable v).has PTE_V = false) →
    ∃ k', freewalk 3 pagetable k = .ok ((), k') ∧ ∀ pa, PageAddr pa →
      k'.refcnt (pa / PGSIZE) =
        k.refcnt (pa / PGSIZE) - (tablePages k.mem 2 pagetable).count pa

theorem Sim.acct_mem (h : Sim 2 pt 0 G kr k) : Acct k (tables pt + G) := by
  have hacct := h.acct
  rw [add_zero] at hacct
  rw [h.rest]
  exact hacct

theorem Sim.mappages_entry (h : Sim 2 pt 0 G kr k) {size : ℕ} {ok : Bool}
    (hend : va + size ≤ MAXVA) (hrun : mappages (root pt) va size pa perm k = .ok (ok, k')) :
    ∃ m, (ok = true → m = size / PGSIZE) ∧ (ok = false → m < size / PGSIZE) ∧
      ∀ v < MAXVA / PGSIZE, entry k' (root pt) v =
        if va ≤ v * PGSIZE ∧ v * PGSIZE < va + m * PGSIZE then mapPte (pa + (v * PGSIZE - va)) perm
        else entry k (root pt) v := by
  have hpages : MAXVA / PGSIZE = 2 ^ 26 := rfl
  obtain ⟨pt', kr', m, hsim', hroot, hal, -, hok, hno, hleaf⟩ := mappages_map h hend hrun
  refine ⟨m, hok, hno, fun v hv => ?_⟩
  rw [hpages] at hv
  rw [← hroot, hsim'.entry_eq hv, hleaf v (by omega), hroot, h.entry_eq hv]
  have hiff : (va / PGSIZE ≤ v ∧ v < va / PGSIZE + m) ↔
      (va ≤ v * PGSIZE ∧ v * PGSIZE < va + m * PGSIZE) := by
    simp only [PGSIZE] at *
    omega
  by_cases hin : va / PGSIZE ≤ v ∧ v < va / PGSIZE + m
  · have hpa : (v - va / PGSIZE) * PGSIZE = v * PGSIZE - va := by
      simp only [PGSIZE] at *
      omega
    rw [if_pos hin, if_pos (hiff.mp hin), hpa]
  · rw [if_neg hin, if_neg fun hc => hin (hiff.mpr hc)]

theorem Sim.uvmunmap_entry (h : Sim 2 pt 0 G kr k) (htidy : Tidy pt) {npages : ℕ} {doFree : Bool}
    (hend : va + npages * PGSIZE ≤ MAXVA)
    (hfree : doFree = true → entryRefs k (root pt) (va / PGSIZE) npages ≤ G)
    (hrun : uvmunmap (root pt) va npages doFree k = .ok ((), k')) (v : ℕ)
    (hv : v < MAXVA / PGSIZE) : entry k' (root pt) v =
      if va ≤ v * PGSIZE ∧ v * PGSIZE < va + npages * PGSIZE then 0 else entry k (root pt) v := by
  have hpages : MAXVA / PGSIZE = 2 ^ 26 := rfl
  rw [hpages] at hv
  have hn : va / PGSIZE + npages ≤ 2 ^ 26 := by
    simp only [PGSIZE, MAXVA] at *
    omega
  have hal : va % PGSIZE = 0 := by
    by_contra hal
    rw [uvmunmap, if_pos hal] at hrun
    cases hrun
  obtain ⟨G', hG⟩ : ∃ G', G =
      ∑ w ∈ Finset.Ico (va / PGSIZE) (va / PGSIZE + npages), freed doFree pt w + G' := by
    cases doFree with
    | false => exact ⟨G, by simp [freed]⟩
    | true =>
      have hle := hfree rfl
      rw [h.entryRefs_eq hn] at hle
      obtain ⟨G', hG'⟩ := Multiset.le_iff_exists_add.mp hle
      exact ⟨G', hG'⟩
  have hsim : Sim 2 pt 0 (∑ w ∈ Finset.Ico (va / PGSIZE) (va / PGSIZE + npages),
      freed doFree pt w + G') kr k := hG ▸ h
  obtain ⟨pt', kr', hsim', hroot, hleaf⟩ := uvmunmap_map doFree hend hsim hrun
  rw [← hroot, hsim'.entry_eq hv, hleaf v (by omega), hroot, h.entry_eq hv]
  have hiff : (va / PGSIZE ≤ v ∧ v < va / PGSIZE + npages) ↔
      (va ≤ v * PGSIZE ∧ v * PGSIZE < va + npages * PGSIZE) := by
    simp only [PGSIZE] at *
    omega
  by_cases hin : va / PGSIZE ≤ v ∧ v < va / PGSIZE + npages
  · rw [if_pos (hiff.mp hin)]
    split
    · rfl
    · next hno =>
      refine htidy.zero v (by omega) ?_
      simpa [hin] using hno
  · rw [if_neg fun hc => hin hc.1, if_neg fun hc => hin (hiff.mpr hc)]

theorem Sim.freewalk_once (h : Sim 2 pt 0 G kr k) (htidy : Tidy pt)
    (hleaf : ∀ v < MAXVA / PGSIZE, (entry k (root pt) v).has PTE_V = false) :
    ∃ k', freewalk 3 (root pt) k = .ok ((), k') ∧ ∀ pa, PageAddr pa →
      k'.refcnt (pa / PGSIZE) =
        k.refcnt (pa / PGSIZE) - (tablePages k.mem 2 (root pt)).count pa := by
  have hpages : MAXVA / PGSIZE = 2 ^ 26 := rfl
  have hinvalid (v : ℕ) (hv : v < 2 ^ 27) : (leaf pt v).has PTE_V = false := by
    by_cases hlow : v < 2 ^ 26
    · rw [← h.entry_eq hlow]
      exact hleaf v (hpages ▸ hlow)
    · rw [htidy.above v (by omega) hv, has_zero]
  have hall (d : ℕ → Fin 512) : ((Radix.get 2 pt d).getD 0).has PTE_V = false := by
    obtain ⟨v, hv, hd⟩ := exists_page d
    have hone := hinvalid v hv
    rw [leaf, slot, Radix.get_congr pt hd] at hone
    exact hone
  have hacct := h.acct_mem
  have hacct₀ : Acct k (Radix.tags 2 pt + 0 + G) := by
    rw [add_zero]
    exact hacct
  obtain ⟨k', hrun, hacct', -⟩ := freewalk_run 2 pt hall hacct₀ h.nodup h.holds
  refine ⟨k', hrun, fun pa hpa => ?_⟩
  have hbefore := hacct.count_eq pa hpa
  have hafter := hacct'.count_eq pa hpa
  rw [Multiset.count_add, Multiset.count_zero, zero_add] at hafter
  rw [Multiset.count_add] at hbefore
  rw [h.tablePages_eq]
  push_cast at hbefore
  linarith

omit [KernelImage] in
theorem pteFlags_mapPte (pa : ℕ) (hp : FlagsOnly perm) :
    pteFlags (mapPte pa perm) = perm ||| PTE_V := by
  apply BitVec.eq_of_getLsbD_eq
  intro i hi
  rw [getLsbD_pteFlags, BitVec.getLsbD_or, getLsbD_PTE_V]
  by_cases hlow : i < 10
  · rw [getLsbD_mapPte hlow]
    simp [hlow]
  · have h0 : i ≠ 0 := by omega
    simp [hlow, h0, hp i (by omega)]

end

theorem trampoline_aligned : 0x80007000 % PGSIZE = 0 := by decide

/-- A machine with one page of memory, and all of it free. -/
abbrev onePage : KernelImage where
  kend := 0x87fff000
  trampoline := 0x80007000
  kernbase_le_kend := by decide
  kend_le_phystop := by decide
  trampoline_aligned := trampoline_aligned
  trampoline_lt_kend := by decide

def allFree : Phys := ⟨[0x87fff000], fun _ => 0, fun _ => 0, false⟩

theorem allFree_acct : @Acct onePage allFree 0 where
  count_eq := fun _ _ => rfl
  mem_free := fun pa => by
    have hp : PHYSTOP = 2281701376 := rfl
    have hiff : pa = 0x87fff000 ↔ pa % 4096 = 0 ∧ 0x87fff000 ≤ pa ∧ pa < PHYSTOP := by omega
    have hnot : pa ∉ (0 : Multiset ℕ) := Multiset.notMem_zero pa
    exact List.mem_singleton.trans (hiff.trans (and_iff_left hnot).symm)
  nodup := List.nodup_singleton _
  valid_of_mem := fun _ h => absurd h (Multiset.notMem_zero _)

end Xv6.Vm.Words
