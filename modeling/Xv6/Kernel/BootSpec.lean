import Xv6.Kernel.StepSpec

/-! # Boot

`kinit` puts every managed page on the free list, the kernel takes some of them, and the
first process executes /init.
-/
namespace Xv6.Kernel
open Library Library.Exec Library.RefCount Vm

variable [KernelImage]

/-- The pages below `lim` are accounted for, and nothing refers to them. -/
def FreeBelow (lim : ℕ) (k : Phys) : Prop :=
  Exact (fun q => PageAddr q ∧ q < lim) k.freelist (fun q => k.refcnt (q / PGSIZE)) 0

theorem freerange_page {k : Phys} {pa : ℕ} (hpa : PageAddr pa) (h : FreeBelow pa k) :
    ∃ k', kfree pa { k with refcnt := Function.update k.refcnt (pa / PGSIZE) 1 } = .ok ((), k') ∧
      FreeBelow (pa + PGSIZE) k' ∧ k'.oom = k.oom := by
  have hguard : ¬ (pa % PGSIZE ≠ 0 ∨ pa < kend ∨ PHYSTOP ≤ pa) := by
    obtain ⟨h1, h2, h3⟩ := hpa
    omega
  have hother (q : ℕ) (hq : PageAddr q) (hne : q ≠ pa) : q / PGSIZE ≠ pa / PGSIZE :=
    hpa.div_ne hq hne
  have hlt (q : ℕ) (hq : PageAddr q) : q < pa + PGSIZE ↔ q < pa ∨ q = pa := by
    have h1 := hpa.1
    have h2 := hq.1
    simp only [PGSIZE] at *
    omega
  let k₁ := Phys.addRef { k with refcnt := Function.update k.refcnt (pa / PGSIZE) 1 } pa (-1)
  have hzero : k₁.refcnt (pa / PGSIZE) = 0 := by simp [k₁, Phys.addRef]
  refine ⟨{ k₁ with freelist := pa :: k₁.freelist, mem := memset pa 1 PGSIZE k₁.mem },
    ?_, ⟨?_, ?_, ?_, ?_⟩, rfl⟩
  · rw [kfree, if_neg hguard]
    exact if_pos hzero
  · rintro q ⟨hq, hq'⟩
    by_cases hne : q = pa
    · rw [hne]
      exact hzero
    · have hcount := h.count_eq q ⟨hq, ((hlt q hq).1 hq').resolve_right hne⟩
      simpa [k₁, Phys.addRef, hother q hq hne] using hcount
  · intro q
    change q ∈ pa :: k.freelist ↔ _
    rw [List.mem_cons, h.mem_free q]
    constructor
    · rintro (heq | ⟨⟨hq, hq'⟩, hnot⟩)
      · rw [heq]
        exact ⟨⟨hpa, (hlt pa hpa).2 (Or.inr rfl)⟩, by simp⟩
      · exact ⟨⟨hq, (hlt q hq).2 (Or.inl hq')⟩, hnot⟩
    · rintro ⟨⟨hq, hq'⟩, hnot⟩
      exact ((hlt q hq).1 hq').symm.imp id fun h' => ⟨⟨hq, h'⟩, hnot⟩
  · refine List.nodup_cons.2 ⟨fun hmem => ?_, h.nodup⟩
    exact absurd ((h.mem_free pa).1 hmem).1.2 (lt_irrefl pa)
  · intro q hq
    simp at hq

theorem freerangeLoop_spec {n pa : ℕ} {k : Phys} (hal : pa % PGSIZE = 0) (hlo : kend ≤ pa)
    (hhi : pa + n * PGSIZE ≤ PHYSTOP) (h : FreeBelow pa k) :
    ∃ k', freerangeLoop n pa k = .ok ((), k') ∧ FreeBelow (pa + n * PGSIZE) k' ∧
      k'.oom = k.oom := by
  induction n generalizing pa k with
  | zero => exact ⟨k, rfl, by simpa using h, rfl⟩
  | succ n ih =>
    have hpa : PageAddr pa := ⟨hal, hlo, by simp only [PGSIZE] at *; omega⟩
    obtain ⟨k₁, hrun, h₁, hoom₁⟩ := freerange_page hpa h
    have hal' : (pa + PGSIZE) % PGSIZE = 0 := by rw [Nat.add_mod_right]; exact hal
    obtain ⟨k', hrest, h', hoom⟩ := ih hal' (by omega) (by rw [Nat.succ_mul] at hhi; omega) h₁
    refine ⟨k', ?_, by rw [Nat.succ_mul, Nat.add_comm (n * PGSIZE), ← Nat.add_assoc]; exact h',
      hoom.trans hoom₁⟩
    rw [freerangeLoop, bind_of_ok (rfl : _ = Except.ok ((), _)), bind_of_ok hrun, hrest]

theorem kinit_spec {k : Phys} (hfree : k.freelist = []) :
    ∃ k', kinit k = .ok ((), k') ∧ Acct k' 0 ∧ k'.oom = k.oom := by
  have hk := KernelImage.kend_le_phystop
  have hb := KernelImage.kernbase_le_kend
  have hround : pgroundup kend % PGSIZE = 0 ∧ kend ≤ pgroundup kend ∧
      pgroundup kend < kend + PGSIZE ∧ pgroundup kend ≤ PHYSTOP := by
    have hp : PHYSTOP = 2281701376 := rfl
    simp only [pgroundup, u64, PGSIZE]
    omega
  obtain ⟨hal, hlo, hclose, hhi⟩ := hround
  have hnone (q : ℕ) : ¬ (PageAddr q ∧ q < pgroundup kend) := by
    rintro ⟨⟨h1, h2, -⟩, h3⟩
    simp only [PGSIZE] at *
    omega
  have hstart : FreeBelow (pgroundup kend) k :=
    ⟨fun q hq => absurd hq (hnone q),
      fun q => by rw [hfree]; exact iff_of_false List.not_mem_nil fun h => hnone q h.1,
      by rw [hfree]; exact List.nodup_nil, fun q hq => by simp at hq⟩
  have hcover : pgroundup kend + (PHYSTOP - pgroundup kend) / PGSIZE * PGSIZE = PHYSTOP := by
    have hp : PHYSTOP % PGSIZE = 0 := by decide
    simp only [PGSIZE] at *
    omega
  obtain ⟨k', hrun, h', hoom⟩ := freerangeLoop_spec hal hlo hcover.le hstart
  refine ⟨k', hrun, ?_, hoom⟩
  rw [hcover] at h'
  have hvalid : (fun q => PageAddr q ∧ q < PHYSTOP) = PageAddr := by
    funext q
    exact propext (and_iff_left_of_imp fun hq => hq.2.2)
  unfold FreeBelow at h'
  rw [hvalid] at h'
  exact h'

/-! ## The first process -/

variable {s s' : State} {p : ProcId}

theorem start_inv (mem : ℕ → UInt8) {k : Phys} (hacct : Acct k 0) :
    Inv { State.start mem with phys := k } 0 := by
  have hpipe : pipePages (State.start mem).ftable = ∅ := rfl
  have howners : owners { State.start mem with phys := k } = 0 := by
    have hsum : ∑ p : ProcId, procRefs ((State.start mem).proc p) = 0 :=
      Finset.sum_eq_zero fun p _ => procRefs_empty
    unfold owners
    dsimp only
    rw [hsum, hpipe]
    rfl
  refine ⟨by rw [howners]; exact hacct, fun p => Or.inl rfl,
    fun p hz => (by cases hz), ?_, ?_⟩
  · refine ⟨fun f => ?_, fun f _ => rfl, fun pi hpi => ?_, fun f g pi w hf => (by cases hf.type)⟩
    · simp [slots, fileCount, State.start, Proc.empty]
    · rw [hpipe] at hpi
      simp at hpi
  · intro pi hpi
    rw [hpipe] at hpi
    simp at hpi

theorem Inv.bootPage {pa : ℕ} {k : Phys} (h : Inv s 0)
    (hstep : Step s.phys k (owners s) (pa ::ₘ owners s)) (hpa : pa ∉ owners s) :
    Inv { s with phys := k, bootPages := pa :: s.bootPages } 0 := by
  have howners : owners { s with phys := k, bootPages := pa :: s.bootPages } = pa ::ₘ owners s := by
    unfold owners
    dsimp only
    rw [← Multiset.cons_coe, Multiset.cons_add, Multiset.cons_add]
  have hone (a : ℕ) (ha : (owners s).count a = 1) : (pa ::ₘ owners s).count a = 1 :=
    (NoNewSharing.cons hpa).count_eq_one ha.le
      (Multiset.mem_cons_of_mem (Multiset.count_pos.mp (by omega)))
  refine ⟨?_, fun p => ?_, h.zombie, h.files, fun pi hpi => ?_⟩
  · rw [howners]
    exact hstep.acct
  · rw [howners]
    exact (h.procs p).mono fun a _ => hone a
  · rw [howners]
    exact hone pi (h.pipes pi hpi)

theorem bootAlloc_spec (n : ℕ) (h : Inv s 0) (hrun : bootAlloc n s = .ok ((), s')) :
    Inv s' 0 ∧ s'.proc = s.proc := by
  induction n generalizing s with
  | zero =>
    cases hrun
    exact ⟨h, rfl⟩
  | succ n ih =>
    rw [bootAlloc] at hrun
    rcases kalloc_spec h.acct with ⟨hnone, -⟩ | ⟨pa, k, hsome, hstep, hpa, -, -, -⟩
    · rw [bind_of_ok (vm_run hnone)] at hrun
      cases hrun
    · rw [bind_of_ok (vm_run hsome)] at hrun
      exact ih (s := { s with phys := k, bootPages := pa :: s.bootPages }) (h.bootPage hstep hpa) hrun

omit [KernelImage] in
theorem alive_of_table (pt : PageTable) (hst : (s.proc p).state = .runnable)
    (hpt : (s.proc p).pagetable = some pt) (hV : (leaf pt UPAGES).has PTE_V) : Alive s p := by
  unfold UPAGES at hV
  exact ⟨by simp [hst], pt, hpt, hV⟩

theorem Inv.setInitproc (h : Inv s 0) (p : ProcId) : Inv { s with initproc := p } 0 := by
  have howners : owners { s with initproc := p } = owners s := owners_congr rfl (fun _ => rfl) rfl
  exact ⟨by rw [howners]; exact h.acct, by rw [howners]; exact h.procs, h.zombie, h.files,
    by rw [howners]; exact h.pipes⟩

/-- The only process is the first one, and it can run. -/
structure Ready (s : State) : Prop where
  inv : Inv s 0
  state : (s.proc s.initproc).state = .runnable
  alive : Alive s s.initproc
  sz_le : (s.proc s.initproc).sz ≤ TRAPFRAME
  empty : ∀ q, q ≠ s.initproc → s.proc q = Proc.empty

theorem Ready.sized (h : Ready s) : Sized s := by
  intro q
  by_cases hq : q = s.initproc
  · rw [hq]
    exact h.sz_le
  · rw [h.empty q hq]
    exact Nat.zero_le _

theorem Ready.standing (h : Ready s) : Standing s := by
  intro q hst
  by_cases hq : q = s.initproc
  · rw [hq]
    exact h.alive.whole
  · rw [h.empty q hq] at hst
    exact absurd rfl hst

theorem userinit_spec (h : Inv s 0) (hempty : ∀ q, s.proc q = Proc.empty)
    (hrun : userinit s = .ok ((), s')) : Ready s' := by
  rw [userinit] at hrun
  rcases allocproc_spec h with ⟨n, k, hnone, -⟩ | ⟨np, n, pid, pt, tf, k, hsome, hfresh⟩
  · rw [bind_of_ok hnone] at hrun
    cases hrun
  · rw [bind_of_ok hsome] at hrun
    set t : State := { State.put { s with nextpid := n } np (newProc pid (some pt) (some tf)) k with
      initproc := np }
    have hproc : t.proc np = newProc pid (some pt) (some tf) := Function.update_self ..
    have hinv : Inv t 0 := (hfresh.inv 0 (h.setNextpid n)).setInitproc np
    obtain ⟨pt', tf', hl⟩ := hinv.live (p := np) (whole_used (by rw [hproc]; rfl))
    let pr : Proc := { t.proc np with state := .runnable }
    have hs' : s' = t.put np pr t.phys := by
      cases hrun
      rfl
    have hofile (q : ProcId) : (Function.update t.proc np pr q).ofile = (t.proc q).ofile := by
      by_cases hq : q = np
      · rw [hq, Function.update_self]
      · rw [Function.update_of_ne hq]
    have hst : ((t.put np pr t.phys).proc np).state = .runnable := by rw [put_proc_self]
    have hinit : (t.put np pr t.phys).initproc = np := rfl
    rw [hs']
    refine ⟨hinv.reshape hl rfl rfl rfl (by simp [pr]) (by simp [pr]) (hinv.files.congr hofile),
      hst, alive_of_table pt' hst ?_ hl.tfValid, ?_, fun q hq => ?_⟩
    · rw [hinit, put_proc_self]
      exact hl.pagetable
    · have hsz : (t.proc np).sz = 0 := by
        rw [hproc]
        rfl
      rw [hinit, put_proc_self]
      exact hsz.le.trans (Nat.zero_le _)
    · rw [hinit] at hq
      rw [put_proc_of_ne hq]
      exact (Function.update_of_ne hq ..).trans (hempty q)

theorem forkret_spec {init : ℕ × List UInt8} (h : Ready s)
    (hrun : forkret init s = .ok ((), s')) : Ready s' := by
  rw [forkret, bind_of_ok (get_run s)] at hrun
  obtain ⟨argc, s₁, hexec, hend⟩ := bind_ok hrun
  obtain ⟨pt, tf, hl⟩ := h.inv.live h.alive.whole
  have hargs : ∀ a ∈ [initPath], a.length < PGSIZE := by simp [initPath, PGSIZE]
  rcases kexec_spec (h.inv.runs hl) initPath [initPath] (by decide) hargs fun _ => some init with
    ⟨-, -, e, -, he⟩ | ⟨k', hfail, -⟩ | ⟨pt', sz', k', -, hok, hc, -⟩
  · rw [hexec] at he
    cases he
  · rw [hexec] at hfail
    cases hfail
    rw [if_pos rfl] at hend
    cases hend
  · rw [hexec] at hok
    cases hok
    have hne : ¬ (([initPath].length : ℕ) : ℤ) = -1 := by decide
    rw [if_neg hne] at hend
    cases hend
    have hst : ((s.put s.initproc ((s.proc s.initproc).execed initPath pt' sz') k').proc
        s.initproc).state = .runnable := by
      rw [put_proc_self]
      exact h.state
    refine ⟨hc.inv h.inv hl initPath, hst, alive_of_table pt' hst ?_ ?_, ?_, fun q hq => ?_⟩
    · rw [put_initproc, put_proc_self]
      rfl
    · rw [hc.trapframe]
      exact mapPte_flags.1
    · rw [put_initproc, put_proc_self]
      exact le_trapframe_of_npages hc.image.bound
    · rw [put_initproc] at hq
      rw [put_proc_of_ne hq]
      exact h.empty q hq

/-- After boot the invariant holds, and the first process can run. -/
theorem booted_spec (hboot : Booted s) : Ready s := by
  obtain ⟨mem, n, init, hrun⟩ := hboot
  rw [boot] at hrun
  obtain ⟨k, hk, hacct, -⟩ := kinit_spec (k := (State.start mem).phys) rfl
  rw [bind_of_ok (vm_run hk)] at hrun
  obtain ⟨⟨⟩, s₁, hrun₁, hrun⟩ := bind_ok hrun
  obtain ⟨⟨⟩, s₂, hrun₂, hrun⟩ := bind_ok hrun
  obtain ⟨hinv₁, hproc₁⟩ := bootAlloc_spec n (start_inv mem hacct) hrun₁
  exact forkret_spec (userinit_spec hinv₁ (fun q => by rw [hproc₁]; rfl) hrun₂) hrun

end Xv6.Kernel
