import Xv6.Kernel.Reach

/-! # Sizes and mappings over whole runs

A process has no pages above its size.  Nothing in sys_sbrk keeps that size below the
trapframe, though: a run of lazy calls takes it beyond the end of the address space.
-/
namespace Xv6.Kernel
open Library Library.Exec Library.RefCount Vm

section
variable [KernelImage] {s s' : State} {p q : ProcId} {pt : PageTable} {tf : ℕ}

/-! ## Sizes -/

/-- When every growing call of sbrk stays below the trapframe, so does every size, and
the only panic is that init exits. -/
theorem sizes_below_trapframe (h : TameReachable s) :
    (∀ q, (s.proc q).sz ≤ TRAPFRAME) ∧
      ∀ p op e, Tame s (p, op) → exec p op s = .error e → e = .initExiting := by
  obtain ⟨hinv, hsized⟩ := h.inv_sized
  exact ⟨hsized, fun p op e ht hrun => (error_of_tame hinv hsized ht hrun).1⟩

end

/-- The first process forks, and both grow. -/
def forkAndGrow : List (ProcId × Op) := [(0, .fork), (0, .sbrk 5000 true), (1, .sbrk 10000 false)]

theorem forkAndGrow_sized : ((after forkAndGrow).proc 0).sz ≤ TRAPFRAME ∧
    ((after forkAndGrow).proc 1).sz ≤ TRAPFRAME := by
  have h := @sizes_below_trapframe twentyPages (after forkAndGrow) (tame_after (by decide +kernel))
  exact ⟨h.1 0, h.1 1⟩

/-- The first process asks for all but one byte of 2 GiB, lazily, 129 times. -/
def growForEver : List (ProcId × Op) := List.replicate 129 (0, .sbrk (2 ^ 31 - 1) false)

/-- Then it reads the byte at MAXVA. -/
theorem growForEver_walk : @Reachable twentyPages (after growForEver) ∧
    TRAPFRAME < ((after growForEver).proc 0).sz ∧
    Enabled (after growForEver) (0, .load MAXVA) ∧
    @exec twentyPages 0 (.load MAXVA) (after growForEver) = .error .walk :=
  ⟨reachable_after (by decide +kernel), by decide +kernel, by decide +kernel,
    eq_error_of_stopOf (by decide +kernel)⟩

section
variable [KernelImage] {s s' : State} {p q : ProcId} {pt : PageTable} {tf : ℕ}

/-! ## Mappings -/

theorem Inv.above (h : Inv s 0) (hpt : (s.proc p).pagetable = some pt) {v : ℕ}
    (hv : npages (s.proc p).sz ≤ v) (hlt : v < UPAGES) : (leaf pt v).has PTE_V = false := by
  rcases h.procs p with he | ⟨pt', tf, hl⟩ | ⟨pt', hst⟩
  · rw [he] at hpt
    cases hpt
  · obtain rfl : pt' = pt := Option.some.inj (hl.pagetable.symm.trans hpt)
    exact hl.above v hv hlt
  · obtain rfl : pt' = pt := Option.some.inj (hst.pagetable.symm.trans hpt)
    exact hst.above v hv hlt

theorem Inv.inside (h : Inv s 0) (hpt : (s.proc p).pagetable = some pt)
    (hsz : (s.proc p).sz ≤ TRAPFRAME) {v : ℕ} (hlt : v < UPAGES) (hV : (leaf pt v).has PTE_V) :
    v * PGSIZE < pgroundup (s.proc p).sz := by
  have hT : TRAPFRAME = 274877898752 := rfl
  have hM : MAXVA = 274877906944 := rfl
  rw [pgroundup_eq (by omega)]
  by_contra hge
  have hpages : npages (s.proc p).sz ≤ v := by
    simp only [PGSIZE] at hge
    omega
  rw [h.above hpt hpages hlt] at hV
  cases hV

/-- The process `p` has the size, mappings and memory that it had. -/
structure Unresized (s s' : State) (p : ProcId) : Prop where
  sz_eq : (s'.proc p).sz = (s.proc p).sz
  valid_eq : ∀ v < 2 ^ 27, (pteOf s' p v).has PTE_V = (pteOf s p v).has PTE_V
  pte_eq : ∀ v < 2 ^ 27, (pteOf s p v).has PTE_V → pteOf s' p v = pteOf s p v
  byte_eq : ∀ v < UPAGES, ∀ i < PGSIZE, byteOf s' p v i = byteOf s p v i

theorem SbrkFailed.unresized {n : ℤ} {pt' : PageTable} {k' : Phys}
    (hs : SbrkFailed s p pt tf n pt' k') (hl : Live (owners s) (s.proc p) pt tf) :
    Unresized s (s.setSpace p pt' (s.proc p).sz k') p := by
  have hproc : (s.setSpace p pt' (s.proc p).sz k').proc p = { s.proc p with pagetable := some pt' } :=
    put_proc_self
  have hpt' : ((s.setSpace p pt' (s.proc p).sz k').proc p).pagetable = some pt' := by rw [hproc]
  have hleaf (v : ℕ) (hv : v < 2 ^ 27) (hV : (leaf pt v).has PTE_V) : leaf pt' v = leaf pt v := by
    rcases lt_or_ge v UPAGES with hlt | hge
    · exact hs.keeps v hlt hV
    · exact hs.evolve.kernel v hge hv
  refine ⟨by rw [hproc], fun v hv => ?_, fun v hv hV => ?_, fun v hv i hi => ?_⟩
  · rw [pteOf_eq hpt', pteOf_eq hl.pagetable]
    cases hV : (leaf pt v).has PTE_V with
    | true => rw [hleaf v hv hV, hV]
    | false =>
      rcases lt_or_ge v UPAGES with hlt | hge
      · cases hV' : (leaf pt' v).has PTE_V with
        | false => rfl
        | true => exact (hs.adds v hlt hV').symm.trans hV
      · rw [hs.evolve.kernel v hge hv, hV]
  · rw [pteOf_eq hl.pagetable] at hV ⊢
    rw [pteOf_eq hpt', hleaf v hv hV]
  · rw [byteOf_eq hpt', byteOf_eq hl.pagetable]
    exact hs.view_eq v hv i hi

theorem Inv.sbrk_end (h : Inv s 0) (ha : Alive s p) {n : ℤ} (hmin : -2 ^ 31 ≤ n)
    (hmax : n < 2 ^ 31) (eager : Bool) :
    ∃ pt tf r, Live (owners s) (s.proc p) pt tf ∧ SbrkEnd s p pt tf n r ∧
      sysSbrk p n eager s = r.map fun (ok, s') => (if ok then ((s.proc p).sz : ℤ) else -1, s') := by
  obtain ⟨pt, tf, hl⟩ := h.live ha.whole
  obtain ⟨r, hend, hrun⟩ := sysSbrk_spec h hl hmin hmax eager
  exact ⟨pt, tf, r, hl, hend, hrun⟩

theorem Inv.sbrk_ok (h : Inv s 0) (ha : Alive s p) (hsz : (s.proc p).sz ≤ TRAPFRAME) {n : ℤ}
    (hmin : -2 ^ 31 ≤ n) (hmax : n < 2 ^ 31) (hfit : 0 < n → (s.proc p).sz + n ≤ TRAPFRAME)
    (eager : Bool) (e : Panic) : sysSbrk p n eager s ≠ .error e := by
  obtain ⟨pt, tf, r, hl, hend, hrun⟩ := h.sbrk_end ha hmin hmax eager
  rw [hrun]
  cases hend with
  | panics e' hbig => exact absurd hbig (not_lt.mpr (max_le hsz (resize_le hsz hfit)))
  | failed pt' k' hs => simp [Except.map]
  | done pt' k' hs => simp [Except.map]
  | cut pt' k' hs => simp [Except.map]

theorem Inv.sbrk_size (h : Inv s 0) (ha : Alive s p) {n : ℤ} (hmin : -2 ^ 31 ≤ n)
    (hmax : n < 2 ^ 31) {eager : Bool} {r : ℤ} (hrun : sysSbrk p n eager s = .ok (r, s'))
    (hr : r ≠ -1) : Inv s' 0 ∧ (s'.proc p).sz = resize (s.proc p).sz n := by
  obtain ⟨pt, tf, r', hl, hend, hrun'⟩ := h.sbrk_end ha hmin hmax eager
  rw [hrun'] at hrun
  cases hend with
  | panics e hbig => cases hrun
  | failed pt' k' hs =>
    cases hrun
    exact absurd rfl hr
  | done pt' k' hs =>
    cases hrun
    exact ⟨hs.inv h hl, by rw [State.setSpace, put_proc_self]⟩
  | cut pt' k' hs =>
    cases hrun
    exact ⟨hs.inv h hl ha.1, by rw [State.setSpace, put_proc_self]⟩

theorem Inv.sbrk_failed (h : Inv s 0) (ha : Alive s p) {n : ℤ} (hmin : -2 ^ 31 ≤ n)
    (hmax : n < 2 ^ 31) {eager : Bool} (hrun : sysSbrk p n eager s = .ok (-1, s')) :
    Unresized s s' p := by
  obtain ⟨pt, tf, r', hl, hend, hrun'⟩ := h.sbrk_end ha hmin hmax eager
  have hne : ¬ ((s.proc p).sz : ℤ) = -1 := by omega
  rw [hrun'] at hrun
  cases hend with
  | panics e hbig => cases hrun
  | failed pt' k' hs =>
    cases hrun
    exact hs.unresized hl
  | done pt' k' hs => exact absurd (congrArg Prod.fst (Except.ok.inj hrun)) hne
  | cut pt' k' hs => exact absurd (congrArg Prod.fst (Except.ok.inj hrun)) hne

/-- A process whose size is below the trapframe has no pages above that size.  So it can be
torn down and grown without a panic, a shrink leaves nothing above the new size, and a call
of sbrk that fails leaves everything as it was. -/
theorem mappings_inside_size (h : Reachable s) (hpt : (s.proc p).pagetable = some pt)
    (hsz : (s.proc p).sz ≤ TRAPFRAME) :
    (∀ v < UPAGES, (leaf pt v).has PTE_V → v * PGSIZE < pgroundup (s.proc p).sz) ∧
    (Alive s p → ∀ status, kexit p status s ≠ .error .freewalkLeaf) ∧
    (Alive s p → ∀ path uargv lookup, sysExec p path uargv lookup s ≠ .error .freewalkLeaf) ∧
    (∀ q addr, Alive s q → (∀ c, (s.proc c).parent = some q → (s.proc c).state = .zombie →
      (s.proc c).sz ≤ TRAPFRAME) → kwait q addr s ≠ .error .freewalkLeaf) ∧
    (Alive s p → ∀ n : ℤ, 0 < n → n < 2 ^ 31 → (s.proc p).sz + n ≤ TRAPFRAME →
      sysSbrk p n true s ≠ .error .mappagesRemap) ∧
    (Alive s p → ∀ n : ℤ, -2 ^ 31 ≤ n → n < 0 → ∀ eager r s', sysSbrk p n eager s = .ok (r, s') →
      r ≠ -1 → (s'.proc p).sz = resize (s.proc p).sz n ∧
        ∀ v < UPAGES, pgroundup (s'.proc p).sz ≤ v * PGSIZE → (pteOf s' p v).has PTE_V = false) ∧
    (Alive s p → ∀ n : ℤ, -2 ^ 31 ≤ n → n < 2 ^ 31 → ∀ eager s',
      sysSbrk p n eager s = .ok (-1, s') → Unresized s s' p) := by
  have hinv := h.inv
  refine ⟨fun v hv hV => hinv.inside hpt hsz hv hV, fun ha status hrun => ?_,
    fun ha path uargv lookup hrun => ?_, fun q addr ha hchild hrun => ?_,
    fun ha n hn hmax hfit => hinv.sbrk_ok ha hsz (by omega) hmax (fun _ => hfit) true _,
    fun ha n hmin hneg eager r s' hrun hr => ?_,
    fun ha n hmin hmax eager s' hrun => hinv.sbrk_failed ha hmin hmax hrun⟩
  · obtain ⟨pt', tf', hl⟩ := hinv.live ha.whole
    rcases kexit_spec hinv hl status with ⟨-, he⟩ | ⟨-, s', hok, -⟩
    · rw [hrun] at he
      cases he
    · rw [hrun] at hok
      cases hok
  · obtain ⟨pt', tf', hl⟩ := hinv.live ha.whole
    have hend := sysExec_spec hinv hl path uargv lookup
    rw [hrun] at hend
    cases hend with
    | panics e hbig => exact absurd hbig (not_lt.mpr hsz)
  · obtain ⟨pt', tf', hl⟩ := hinv.live ha.whole
    rcases kwait_spec hinv hl ha.not_zombie addr with ⟨pp, e, hparent, hzombie, hbig, -⟩ |
      ⟨r, s', hok, -⟩
    · exact absurd hbig (not_lt.mpr (hchild pp hparent hzombie))
    · rw [hrun] at hok
      cases hok
  · obtain ⟨hinv', hsize⟩ := hinv.sbrk_size ha hmin (by omega) hrun hr
    refine ⟨hsize, fun v hv hge => ?_⟩
    have hsz' : (s'.proc p).sz ≤ TRAPFRAME := by
      rw [hsize]
      exact resize_le hsz (by omega)
    cases hpt' : (s'.proc p).pagetable with
    | none =>
      rw [pteOf, hpt', Option.elim_none]
      exact has_zero _
    | some pt' =>
      rw [pteOf_eq hpt']
      by_contra hV
      have := hinv'.inside hpt' hsz' hv (by simpa using hV)
      omega

end

/-- The first process after it has shrunk into its stack page. -/
theorem mappings_inside_shrunk : ∃ pt, ((after [(0, .sbrk (-100) true)]).proc 0).pagetable = some pt ∧
    ∀ v < UPAGES, (leaf pt v).has PTE_V →
      v * PGSIZE < pgroundup ((after [(0, .sbrk (-100) true)]).proc 0).sz := by
  have hpt : (((after [(0, .sbrk (-100) true)]).proc 0).pagetable).isSome := by decide +kernel
  obtain ⟨pt, hpt⟩ := Option.isSome_iff_exists.mp hpt
  exact ⟨pt, hpt, (@mappings_inside_size twentyPages _ 0 pt (reachable_after (by decide +kernel)) hpt
    (by decide +kernel)).1⟩

end Xv6.Kernel
