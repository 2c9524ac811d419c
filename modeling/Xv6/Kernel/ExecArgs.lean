import Xv6.Kernel.Reach

/-! # The arguments of a new program

A program that exec has started finds exactly the arguments it was given, on a stack of one page.
-/
namespace Xv6.Kernel
open Library Library.Exec Library.RefCount Vm

section
variable [KernelImage] {s : State} {p : ProcId}

/-- The stack of a process as `main(argc, argv)` expects it.  The pointers lie at `sp`, which the
process also has in `a1`; the strings and the array of pointers lie apart from each other in the
last page, which the program may read and write. -/
structure Started (s : State) (p : ProcId) (argv : List (List UInt8)) (pt : PageTable)
    (tf sp : ℕ) (ptrs : List ℕ) : Prop where
  pagetable : (s.proc p).pagetable = some pt
  trapframe : (s.proc p).trapframe = some tf
  sp_eq : (wordAt s.phys.mem (tf + Trapframe.sp)).toNat = sp
  a1_eq : (wordAt s.phys.mem (tf + Trapframe.a1)).toNat = sp
  sp_aligned : sp % 16 = 0
  sp_inside : (s.proc p).sz - PGSIZE ≤ sp ∧ sp < (s.proc p).sz
  page : (s.proc p).sz = ((s.proc p).sz / PGSIZE - 1) * PGSIZE + PGSIZE
  valid : (leaf pt ((s.proc p).sz / PGSIZE - 1)).has PTE_V
  rights_eq : rights (leaf pt ((s.proc p).sz / PGSIZE - 1)) = ⟨true, false, true, true⟩
  length_eq : ptrs.length = argv.length
  word : ∀ i ≤ argv.length,
    leNat (bytesAt pt s.phys.mem (sp + 8 * i) 8) = (ptrs ++ [0]).getD i 0
  strings : List.Forall₂ (fun a arg => bytesAt pt s.phys.mem a (arg.length + 1) = arg ++ [0]) ptrs
    argv
  apart : ((sp, (argv.length + 1) * 8) :: stringRanges ptrs argv).Pairwise Apart
  inside : ∀ r ∈ (sp, (argv.length + 1) * 8) :: stringRanges ptrs argv,
    (s.proc p).sz - PGSIZE ≤ r.1 ∧ r.1 + r.2 ≤ (s.proc p).sz

omit [KernelImage] in
theorem Delivered.started {argv : List (List UInt8)} {pt : PageTable} {tf sz sp : ℕ} {k : Phys}
    (hd : Delivered tf argv pt sz k.mem sp) (hsz : sz < 2 ^ 64)
    (htf : (s.proc p).trapframe = some tf) (path : List UInt8) :
    Started (s.put p ((s.proc p).execed path pt sz) k) p argv pt tf sp (stringAddrs sz argv) := by
  have hargs := hd.args
  have hroom := hargs.room
  have hsp := hargs.sp_eq
  have hstack := hd.stack
  have hmod := argRoom_mod argv
  have hpos : 0 < argRoom argv := by
    unfold argRoom padded
    omega
  have hsp64 : (BitVec.ofNat 64 sp).toNat = sp := by
    rw [BitVec.toNat_ofNat]
    exact Nat.mod_eq_of_lt (by omega)
  have hproc : (s.put p ((s.proc p).execed path pt sz) k).proc p = (s.proc p).execed path pt sz :=
    put_proc_self
  obtain ⟨hapart, hinside⟩ := hargs.ranges hstack
  obtain ⟨n, hn⟩ := hd.aligned
  have hpages : sz = (sz / PGSIZE - 1) * PGSIZE + PGSIZE := by
    simp only [PGSIZE] at *
    omega
  have hsz16 : sz % 16 = 0 := by
    simp only [PGSIZE] at *
    omega
  refine ⟨?_, ?_, ?_, ?_, by omega, ?_, ?_, ?_, ?_, length_stringAddrs sz argv, ?_, ?_, hapart, ?_⟩
  · rw [hproc]
    rfl
  · rw [hproc]
    exact htf
  · rw [put_phys, hd.sp_eq, hsp64]
  · rw [put_phys, hd.a1_eq, hsp64]
  · rw [hproc]
    change sz - PGSIZE ≤ sp ∧ sp < sz
    omega
  · rw [hproc]
    exact hpages
  · rw [hproc]
    exact hargs.valid
  · rw [hproc]
    exact hargs.rights_eq
  · intro i hi
    exact hargs.word hsz hi
  · exact hargs.strings
  · rw [hproc]
    exact hinside

/-- A new program gets exactly the arguments given to exec.  When these do not fit in the stack
page exec returns -1; it never writes past the end of `ustack`. -/
theorem exec_delivers_arguments (h : Inv s 0) (ha : Alive s p) (path : List UInt8)
    (argv : List (List UInt8)) (hargc : argv.length ≤ MAXARG - 1)
    (hargs : ∀ a ∈ argv, a.length < PGSIZE) (lookup : List UInt8 → Option (ℕ × List UInt8)) :
    kexec p path argv lookup s ≠ .error .ustackOverrun ∧
    (PGSIZE < argRoom argv → ∃ s', kexec p path argv lookup s = .ok (-1, s')) ∧
    ∀ r s', kexec p path argv lookup s = .ok (r, s') → r ≠ -1 →
      r = argv.length ∧ ∃ pt tf sp ptrs, Started s' p argv pt tf sp ptrs := by
  have hT : TRAPFRAME = 274877898752 := rfl
  have hargc' : argv.length < MAXARG := by
    unfold MAXARG at *
    omega
  obtain ⟨pt, tf, hl⟩ := h.live ha.whole
  rcases kexec_spec (h.runs hl) path argv hargc' hargs lookup with
    ⟨-, hroom, e, hne, he⟩ | ⟨k', hrun, -⟩ | ⟨pt', sz', k', sp, hrun, hc, hd⟩
  · rw [he]
    refine ⟨fun hc => hne (Except.error.inj hc), fun hbig => absurd hbig (not_lt.mpr hroom), ?_⟩
    intro r s' hc
    cases hc
  · rw [hrun]
    refine ⟨by simp, fun _ => ⟨_, rfl⟩, fun r s' hok hr => ?_⟩
    cases hok
    exact absurd rfl hr
  · rw [hrun]
    refine ⟨by simp, fun hbig => absurd hbig (not_lt.mpr hd.args.room), fun r s' hok _ => ?_⟩
    cases hok
    have hsz := le_trapframe_of_npages hc.image.bound
    exact ⟨rfl, pt', tf, sp, _, hd.started (by omega) hl.trapframe path⟩

end

/-- The first process executes the empty program with two arguments. -/
theorem exec_delivers_two : ∃ r s', @kexec twentyPages 0 initPath [[104, 105], []]
      (fun _ => some (1, emptyProgram)) (after []) = .ok (r, s') ∧ r = 2 ∧
    ∃ pt tf sp ptrs, Started s' 0 [[104, 105], []] pt tf sp ptrs := by
  have hret : (@kexec twentyPages 0 initPath [[104, 105], []]
      (fun _ => some (1, emptyProgram)) (after [])).toOption.map Prod.fst = some 2 := by
    decide +kernel
  obtain ⟨-, -, hdone⟩ := @exec_delivers_arguments twentyPages (after []) 0
    (@Reachable.inv twentyPages _ (reachable_after (by decide +kernel))) (by decide +kernel)
    initPath [[104, 105], []] (by decide) (by decide) fun _ => some (1, emptyProgram)
  generalize @kexec twentyPages 0 initPath [[104, 105], []] (fun _ => some (1, emptyProgram))
    (after []) = run at hret hdone
  cases run with
  | error e => cases hret
  | ok a =>
    obtain ⟨r, s'⟩ := a
    cases hret
    exact ⟨2, s', rfl, rfl, (hdone 2 s' rfl (by decide)).2⟩

end Xv6.Kernel
