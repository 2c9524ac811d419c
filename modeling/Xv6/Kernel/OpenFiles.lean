import Xv6.Kernel.Reach

/-! # Open files and exec over whole runs

The counts in the file table and the flags of pipes are exact between any two
operations, and a failed exec leaves the caller as it was.
-/
namespace Xv6.Kernel
open Library Library.Exec Library.RefCount Vm

section
variable [KernelImage] {s s' : State} {p : ProcId}

/-! ## The file table -/

theorem Inv.ref_pos (h : Inv s 0) {f : FileId} {pi : ℕ} {w : Bool} (hend : IsEnd s.ftable f pi w) :
    0 < (s.ftable f).ref := by
  have hnonneg : 0 ≤ (s.ftable f).ref := by
    rw [h.files.ref_eq f]
    simpa using slots_nonneg s.proc f
  rcases hnonneg.lt_or_eq with hpos | hzero
  · exact hpos
  · have := h.files.closed f hzero.symm
    rw [hend.type] at this
    cases this

theorem Inv.isOpen_iff (h : Inv s 0) {pi : ℕ} (hpi : pi ∈ pipePages s.ftable) (w : Bool) :
    (s.pipe pi).isOpen w = true ↔ ∃ f, 0 < (s.ftable f).ref ∧ IsEnd s.ftable f pi w := by
  rw [h.files.ends pi hpi w]
  constructor
  · rintro ⟨f, hend⟩
    exact ⟨f, h.ref_pos hend, hend⟩
  · rintro ⟨f, -, hend⟩
    exact ⟨f, hend⟩

/-- The page of a pipe is counted once and not free. -/
theorem Inv.pipe_page (h : Inv s 0) {pi : ℕ} (hpi : pi ∈ pipePages s.ftable) :
    s.phys.refcnt (pi / PGSIZE) = 1 ∧ pi ∉ s.phys.freelist := by
  have hone := h.pipes pi hpi
  have hmem : pi ∈ owners s := Multiset.count_pos.mp (by omega)
  refine ⟨?_, fun hfree => h.acct.not_mem_of_free hfree hmem⟩
  have hcount := h.acct.count_eq pi (h.acct.valid_of_mem pi hmem)
  rw [hone] at hcount
  exact hcount

theorem Inv.refcnt_free (h : Inv s 0) {pa : ℕ} (hfree : pa ∈ s.phys.freelist) :
    s.phys.refcnt (pa / PGSIZE) = 0 := by
  obtain ⟨hpa, hnot⟩ := (h.acct.mem_free pa).mp hfree
  have hcount := h.acct.count_eq pa hpa
  rw [Multiset.count_eq_zero.mpr hnot] at hcount
  exact hcount

/-- The file table counts descriptors exactly, the flags of a pipe say which ends are open,
and the page of a pipe is given back when both are closed. -/
theorem open_files_exact (h : TameReachable s) :
    (∀ f, (s.ftable f).ref = slots s.proc f) ∧
    (∀ f, (s.ftable f).ref = 0 → (s.ftable f).type = .none) ∧
    (∀ pi ∈ pipePages s.ftable,
      ((s.pipe pi).readopen = true ↔ ∃ f, 0 < (s.ftable f).ref ∧ IsEnd s.ftable f pi false) ∧
      ((s.pipe pi).writeopen = true ↔ ∃ f, 0 < (s.ftable f).ref ∧ IsEnd s.ftable f pi true) ∧
      s.phys.refcnt (pi / PGSIZE) = 1 ∧ pi ∉ s.phys.freelist) ∧
    s.phys.freelist.Nodup ∧
    ∀ p op, Tame s (p, op) →
      (∀ e, exec p op s = .error e → e = .initExiting) ∧
      ∀ o s', exec p op s = .ok (o, s') → ∀ pi ∈ pipePages s.ftable, pi ∉ pipePages s'.ftable →
        pi ∈ s'.phys.freelist ∧ s'.phys.refcnt (pi / PGSIZE) = 0 := by
  obtain ⟨hinv, hsized⟩ := h.inv_sized
  refine ⟨fun f => ?_, hinv.files.closed, fun pi hpi => ?_, hinv.acct.nodup, fun p op ht => ?_⟩
  · rw [hinv.files.ref_eq f]
    simp
  · obtain ⟨hcount, hfree⟩ := hinv.pipe_page hpi
    exact ⟨hinv.isOpen_iff hpi false, hinv.isOpen_iff hpi true, hcount, hfree⟩
  · refine ⟨fun e hrun => (error_of_tame hinv hsized ht hrun).1, fun o s' hrun pi hpi hgone => ?_⟩
    obtain ⟨pt, tf, hl, hend⟩ := exec_spec hinv ht.1.1 ht.1.2
    rw [hrun] at hend
    have hfree := (hend.pipesKept hinv hl pi hpi).resolve_left hgone
    exact ⟨hfree, (hend.inv hinv hl ht.1.1).refcnt_free hfree⟩

end

/-- The first process makes a pipe and forks; the child closes its end for reading. -/
def pipeAndFork : List (ProcId × Op) := [(0, .pipe 4096), (0, .fork), (1, .close 0)]

theorem pipeAndFork_refs :
    ((after pipeAndFork).ftable 0).ref = 1 ∧ ((after pipeAndFork).ftable 1).ref = 2 ∧
      slots (after pipeAndFork).proc 0 = 1 ∧ slots (after pipeAndFork).proc 1 = 2 := by
  have h := (@open_files_exact twentyPages (after pipeAndFork) (tame_after (by decide +kernel))).1
  have href : ((after pipeAndFork).ftable 0).ref = 1 ∧ ((after pipeAndFork).ftable 1).ref = 2 := by
    decide +kernel
  exact ⟨href.1, href.2, (h 0).symm.trans href.1, (h 1).symm.trans href.2⟩

/-! ## exec that fails -/

section
variable [KernelImage] {s s' : State} {p : ProcId}

/-- The process `p` is as before, and every page that was free is free again unless `p` needs
it for memory that it has touched. -/
structure Unharmed (s s' : State) (p : ProcId) : Prop where
  proc_eq : { s'.proc p with pagetable := none } = { s.proc p with pagetable := none }
  root_eq : (s'.proc p).pagetable.map root = (s.proc p).pagetable.map root
  byte_eq : ∀ v < UPAGES, ∀ i < PGSIZE, byteOf s' p v i = byteOf s p v i
  trapframe_eq : ∀ tf, (s.proc p).trapframe = some tf →
    ∀ i < PGSIZE, s'.phys.mem (tf + i) = s.phys.mem (tf + i)
  iref_eq : s'.iref = s.iref
  given_back : ∀ pa ∈ s.phys.freelist, pa ∈ s'.phys.freelist ∨
    ∃ pt, (s'.proc p).pagetable = some pt ∧ pa ∈ own pt

theorem Accessed.unharmed {a : ℕ} (h : Inv s 0) (ha : Accessed s p a [] s') : Unharmed s s' p := by
  have hpatched := ha.patched
  have hinv' := ha.inv h
  obtain ⟨pt, tf, pt', k', hl, hw, rfl⟩ := ha
  have hproc : (s.setSpace p pt' (s.proc p).sz k').proc p = { s.proc p with pagetable := some pt' } :=
    put_proc_self
  refine ⟨by rw [hproc], ?_, fun v hv i hi => ?_, fun tf' htf' i hi => ?_, rfl, fun pa hpa => ?_⟩
  · rw [hproc, hl.pagetable]
    exact congrArg some hw.evolve.root_eq
  · rw [hpatched.byte_eq v hv i hi, patch_nil]
  · rw [hl.trapframe] at htf'
    cases htf'
    exact hw.evolve.same.page tf (Multiset.mem_cons_self _ _) i hi
  · obtain ⟨hpage, hnot⟩ := (h.acct.mem_free pa).mp hpa
    by_cases hown : pa ∈ own pt'
    · exact Or.inr ⟨pt', by rw [hproc], hown⟩
    · refine Or.inl ((hinv'.acct.mem_free pa).mpr ⟨hpage, ?_⟩)
      rw [owners_setSpace hl (hl.tfValid_evolve hw.evolve)]
      rw [hl.owners_eq] at hnot
      intro hc
      rcases Multiset.mem_add.mp hc with hc | hc
      · exact hown hc
      · exact hnot (Multiset.mem_add.mpr (Or.inr hc))

/-- exec ends without a panic whatever the file holds, and a caller to which it returns -1 is
as before. -/
theorem exec_atomic (h : Reachable s) (ha : Alive s p) (hsz : (s.proc p).sz ≤ TRAPFRAME)
    (path uargv : ℕ) (lookup : List UInt8 → Option (ℕ × List UInt8)) :
    ∃ r s', sysExec p path uargv lookup s = .ok (r, s') ∧ (r = -1 → Unharmed s s' p) := by
  have hinv := h.inv
  obtain ⟨pt, tf, hl⟩ := hinv.live ha.whole
  have hend := sysExec_spec hinv hl path uargv lookup
  generalize sysExec p path uargv lookup s = r at hend
  cases hend with
  | panics e hbig => exact absurd hbig (not_lt.mpr hsz)
  | failed s' hacc => exact ⟨-1, s', rfl, fun _ => hacc.unharmed hinv⟩
  | done name argc pt' sz' k' hc =>
    refine ⟨argc, _, rfl, fun hneg => ?_⟩
    omega

end

/-- The first process executes a file that is no executable. -/
theorem exec_atomic_first : ∃ s',
    @sysExec twentyPages 0 4096 4096 (fun _ => some (1, [0])) (after []) = .ok (-1, s') ∧
      Unharmed (after []) s' 0 := by
  obtain ⟨r, s', hrun, hfail⟩ := @exec_atomic twentyPages (after []) 0
    (reachable_after (by decide +kernel)) (by decide +kernel) (by decide +kernel) 4096 4096
    fun _ => some (1, [0])
  have hr : (@sysExec twentyPages 0 4096 4096 (fun _ => some (1, [0])) (after [])).toOption.map
      Prod.fst = some (-1) := by decide +kernel
  rw [hrun] at hr
  cases hr
  exact ⟨s', hrun, hfail rfl⟩

end Xv6.Kernel
