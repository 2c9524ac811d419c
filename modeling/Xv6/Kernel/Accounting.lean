import Xv6.Kernel.Reach

/-! # Physical pages over whole runs

Every page is free or has exactly as many owners as its count says, and a page that some
process may write has one owner.
-/
namespace Xv6.Kernel
open Library Library.Exec Library.RefCount Vm

section
variable [KernelImage] {s : State} {p q : ProcId} {pt pt' : PageTable} {v w : ℕ}

/-! ## Counting owners -/

/-- The pages of an entry of the process table: what its page table maps below the trapframe,
the pages of that table and the trapframe page. -/
def procPages (pr : Proc) : Multiset ℕ :=
  if pr.state = .unused then 0 else pr.pagetable.elim 0 own + pr.trapframe.elim 0 ({·})

/-- The owners of pages: boot-time allocations, processes and pipe buffers. -/
def pageOwners (s : State) : Multiset ℕ :=
  s.bootPages + ∑ p, procPages (s.proc p) + (pipePages s.ftable).val

omit [KernelImage] in
theorem trapframe_counted {tf : ℕ} (hst : (s.proc p).state ≠ .unused)
    (htf : (s.proc p).trapframe = some tf) : 0 < (pageOwners s).count tf := by
  have hmem : tf ∈ procPages (s.proc p) := by
    rw [procPages, if_neg hst, htf, Option.elim_some]
    exact Multiset.mem_add.mpr (Or.inr (Multiset.mem_singleton_self _))
  have hsum : procPages (s.proc p) ≤ ∑ p, procPages (s.proc p) :=
    Finset.single_le_sum (f := fun p => procPages (s.proc p)) (fun _ _ => Multiset.zero_le _)
      (Finset.mem_univ p)
  refine Multiset.count_pos.mpr (Multiset.mem_add.mpr (Or.inl (Multiset.mem_add.mpr (Or.inr ?_))))
  exact Multiset.mem_of_le hsum hmem

/-- A process that has its trapframe page owns it. -/
theorem Inv.procPages_eq (h : Inv s 0) (hw : (s.proc p).state ≠ .unused → Whole (s.proc p)) :
    procPages (s.proc p) = procRefs (s.proc p) := by
  by_cases hs : (s.proc p).state = .unused
  · rw [procPages, procRefs, if_pos hs, if_pos hs]
  · obtain ⟨pt, tf, hl⟩ := h.live (hw hs)
    rw [hl.procRefs_eq, procPages, if_neg hs, hl.pagetable, hl.trapframe, Option.elim_some,
      Option.elim_some]

theorem Inv.pageOwners_eq (h : Inv s 0) (hw : Standing s) : pageOwners s = owners s := by
  unfold pageOwners owners
  rw [Finset.sum_congr rfl fun p _ => h.procPages_eq (hw p)]

/-- Counts are exact when no process grows above the trapframe. -/
theorem page_accounting_exact (h : TameReachable s) :
    (∀ pa, PageAddr pa → s.phys.refcnt (pa / PGSIZE) = (pageOwners s).count pa ∧
      (pa ∈ s.phys.freelist ↔ (pageOwners s).count pa = 0)) ∧ s.phys.freelist.Nodup := by
  obtain ⟨hinv, -, hw⟩ := h.invs
  rw [hinv.pageOwners_eq hw]
  refine ⟨fun pa hpa => ⟨hinv.acct.count_eq pa hpa, ?_⟩, hinv.acct.nodup⟩
  rw [hinv.acct.mem_free pa, Multiset.count_eq_zero]
  exact and_iff_right hpa

end

/-- The first process forks; the child writes to its stack, which copies the page. -/
theorem page_accounting_copied :
    (after [(0, .fork), (1, .store 8000 1)]).phys.refcnt (0x87fff000 / PGSIZE) =
      (pageOwners (after [(0, .fork), (1, .store 8000 1)])).count 0x87fff000 :=
  ((@page_accounting_exact twentyPages _ (tame_after (by decide +kernel))).1 0x87fff000
    (by decide)).1

/-- Grow lazily to one byte above the trapframe, and give the byte back. -/
def growAndShrink : List (ProcId × Op) :=
  List.replicate 127 (0, .sbrk (2 ^ 31 - 1) false) ++
    [(0, .sbrk 2147467392 false), (0, .sbrk (-1) false)]

/-- The trapframe page is free although the process still has it. -/
theorem growAndShrink_freed : @Reachable twentyPages (after growAndShrink) ∧
    ∃ tf, ((after growAndShrink).proc 0).trapframe = some tf ∧
      ((after growAndShrink).proc 0).state ≠ .unused ∧ @PageAddr twentyPages tf ∧
      tf ∈ (after growAndShrink).phys.freelist ∧
      (after growAndShrink).phys.refcnt (tf / PGSIZE) = 0 ∧
      0 < (pageOwners (after growAndShrink)).count tf := by
  refine ⟨reachable_after (by decide +kernel), ?_⟩
  have htf : ((after growAndShrink).proc 0).trapframe = some 0x87fff000 := by decide +kernel
  have hst : ((after growAndShrink).proc 0).state ≠ .unused := by decide +kernel
  exact ⟨0x87fff000, htf, hst, by decide, by decide +kernel, by decide +kernel,
    trapframe_counted hst htf⟩

section
variable [KernelImage] {s : State} {p q : ProcId} {pt pt' : PageTable} {v w : ℕ}

/-! ## Writable pages -/

theorem Inv.wf (h : Inv s 0) (hpt : (s.proc p).pagetable = some pt) :
    Wf pt (owners s) ∧ own pt ≤ procRefs (s.proc p) := by
  rcases h.procs p with he | ⟨pt', tf, hl⟩ | ⟨pt', hst⟩
  · rw [he] at hpt
    cases hpt
  · obtain rfl : pt' = pt := Option.some.inj (hl.pagetable.symm.trans hpt)
    refine ⟨hl.wf, ?_⟩
    rw [hl.procRefs_eq]
    exact Multiset.le_add_right _ _
  · obtain rfl : pt' = pt := Option.some.inj (hst.pagetable.symm.trans hpt)
    exact ⟨hst.wf, hst.procRefs_eq.ge⟩

/-- A page with one owner is mapped by one entry. -/
theorem Inv.mapped_once (h : Inv s 0) (hpt : (s.proc p).pagetable = some pt) (hv : v < UPAGES)
    (hV : (leaf pt v).has PTE_V) (hone : (owners s).count (pte2pa (leaf pt v)) = 1)
    (hpt' : (s.proc q).pagetable = some pt') (hw : w < UPAGES) (hV' : (leaf pt' w).has PTE_V)
    (heq : pte2pa (leaf pt' w) = pte2pa (leaf pt v)) : q = p ∧ w = v := by
  obtain ⟨-, hown⟩ := h.wf hpt
  obtain ⟨-, hown'⟩ := h.wf hpt'
  have hqp : q = p := by
    by_contra hqp
    have h1 := Multiset.count_pos.mpr (Multiset.mem_of_le hown (mem_own hv hV))
    have h2 := Multiset.count_pos.mpr
      (Multiset.mem_of_le (procRefs_le_others (s := s) hqp) (Multiset.mem_of_le hown' (mem_own hw hV')))
    rw [owners_eq s p, Multiset.count_add] at hone
    rw [heq] at h2
    omega
  subst hqp
  obtain rfl : pt = pt' := Option.some.inj (hpt.symm.trans hpt')
  refine ⟨rfl, ?_⟩
  by_contra hne
  exact page_ne_of_private (hown.trans (procRefs_le_owners s q)) hv hw hne hV hV' hone heq

end

section
variable [KernelImage] {s : State} {p : ProcId}

/-! ## A fork that gives up -/

theorem Inv.freelist_congr {s' : State} (h : Inv s 0) (h' : Inv s' 0)
    (howners : owners s' = owners s) {pa : ℕ} (hpa : PageAddr pa) :
    s'.phys.refcnt (pa / PGSIZE) = s.phys.refcnt (pa / PGSIZE) ∧
      (pa ∈ s'.phys.freelist ↔ pa ∈ s.phys.freelist) := by
  rw [h'.acct.mem_free pa, h.acct.mem_free pa, howners]
  refine ⟨?_, Iff.rfl⟩
  have hcount := h'.acct.count_eq pa hpa
  have hcount₀ := h.acct.count_eq pa hpa
  rw [howners] at hcount
  exact hcount.trans hcount₀.symm

/-- The slot that `allocproc` picks is not in use. -/
theorem Inv.slot_unused {s₁ : State} {np : ProcId} (h : Inv s 0)
    (hrun : allocproc s = .ok (some np, s₁)) : (s.proc np).state = .unused := by
  rcases allocproc_spec h with ⟨n, k', hnone, -⟩ | ⟨np', n, pid, new, tfn, k₁, hsome, hfresh⟩
  · rw [hnone] at hrun
    cases hrun
  · rw [hsome] at hrun
    cases hrun
    exact congrArg Proc.state hfresh.unused

/-- `kfork` never panics below the trapframe.  When it gives up it returns -1, and neither the
accounting of pages nor the process table nor what the parent sees and may write has changed.
The only other way to return -1 is a child whose pid has wrapped around to -1. -/
theorem failed_fork_traceless (h : Inv s 0) (ha : Alive s p) (hsz : (s.proc p).sz ≤ TRAPFRAME) :
    ∃ r s', kfork p s = .ok (r, s') ∧
      (r = -1 → forkStops p s ∨ ∃ np, (s.proc np).state = .unused ∧
        (s'.proc np).state = .runnable ∧ (s'.proc np).pid = -1) ∧
      (forkStops p s → r = -1 ∧
        (∀ pa, PageAddr pa → s'.phys.refcnt (pa / PGSIZE) = s.phys.refcnt (pa / PGSIZE) ∧
          (pa ∈ s'.phys.freelist ↔ pa ∈ s.phys.freelist)) ∧
        (∀ q, (s'.proc q).state = (s.proc q).state) ∧
        (∀ np s₁, allocproc s = .ok (some np, s₁) → (s'.proc np).state = .unused) ∧
        (s'.proc p).sz = (s.proc p).sz ∧
        ∀ v < UPAGES, (pteOf s' p v).has PTE_V = (pteOf s p v).has PTE_V ∧
          ((pteOf s p v).has PTE_V → rights (pteOf s' p v) = rights (pteOf s p v)) ∧
          ∀ i < PGSIZE, byteOf s' p v i = byteOf s p v i) := by
  obtain ⟨pt, tf, hl⟩ := h.live ha.whole
  obtain ⟨r, s', hrun, hinv, -, -, -, hend⟩ :=
    (kfork_spec h hl ha.not_zombie).resolve_left fun hbig => absurd hbig.1 (by omega)
  refine ⟨r, s', hrun, ?_⟩
  rcases hend with ⟨np, hr, hf⟩ | ⟨hr, hf⟩
  · constructor
    · intro hneg
      exact Or.inr ⟨np, congrArg Proc.state hf.unused, hf.child_state, hr.symm.trans hneg⟩
    · intro hstop
      rw [hf.ran] at hstop
      cases hstop
  · have hstate (q : ProcId) : (s'.proc q).state = (s.proc q).state := by
      by_cases hq : q = p
      · rw [hq]
        exact congrArg (fun pr => pr.state) hf.parent_rest
      · exact (hf.frame q hq).state_eq
    refine ⟨fun _ => Or.inl hf.stops, fun _ => ⟨hr, fun pa hpa => ?_, hstate, ?_, ?_, ?_⟩⟩
    · exact h.freelist_congr hinv hf.owners_eq hpa
    · intro np s₁ halloc
      rw [hstate, h.slot_unused halloc]
    · exact hf.parent.sz_eq
    · intro v hv
      exact ⟨hf.parent.valid v hv, hf.parent.rights_eq v hv, hf.parent.byte_eq v hv⟩

end

/-- Six pages stay free, and the first process has a page above two megabytes. -/
def almostFull : List (ProcId × Op) :=
  [(0, .sbrk 16384 true), (0, .sbrk (2 ^ 21) false), (0, .store (2 ^ 21 + 4096) 7)]

/-- The child's table takes all free pages before the page above two megabytes is reached. -/
theorem failed_fork_traceless_copying : @forkStops twentyPages 0 (after almostFull) = true ∧
    ∃ r s', @kfork twentyPages 0 (after almostFull) = .ok (r, s') ∧ r = -1 ∧
      s'.phys.refcnt (0x87ffc000 / PGSIZE) =
        (after almostFull).phys.refcnt (0x87ffc000 / PGSIZE) := by
  have hstop : @forkStops twentyPages 0 (after almostFull) = true := by decide +kernel
  have hreach : @Reachable twentyPages (after almostFull) := reachable_after (by decide +kernel)
  obtain ⟨r, s', hrun, -, hfail⟩ := @failed_fork_traceless twentyPages (after almostFull) 0
    (@Reachable.inv twentyPages _ hreach) (by decide +kernel) (by decide +kernel)
  exact ⟨hstop, r, s', hrun, (hfail hstop).1, ((hfail hstop).2.1 _ (by decide)).1⟩

end Xv6.Kernel
