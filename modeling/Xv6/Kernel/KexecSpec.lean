import Xv6.Kernel.DescSpec
import Xv6.Kernel.ProcSpec

/-! # exec

`sys_exec` copies the argument strings to pages of its own, builds the new image
beside the old one and commits to it at the end.  What it holds on the way is given
back on every path.
-/
namespace Xv6.Kernel
open Library Library.Exec Library.RefCount Vm

section
variable [KernelImage] {s s₁ s' : State} {held : FileId → ℤ} {p q : ProcId}
  {pt pt₁ pt' : PageTable} {tf : ℕ} {G H R : Multiset ℕ} {k k₁ k' : Phys} {S : ℕ → Prop}

/-- Process `p` with its memory, when `G` is what everybody else owns. -/
structure Runs (G : Multiset ℕ) (s : State) (p : ProcId) (pt : PageTable) (tf : ℕ) : Prop where
  live : Live (own pt + tf ::ₘ G) (s.proc p) pt tf
  acct : Acct s.phys (own pt + tf ::ₘ G)

theorem Runs.space (h : Runs G s p pt tf) : UserSpace pt s.phys (tf ::ₘ G) := ⟨h.acct, h.live.wf⟩

theorem Inv.runs (h : Inv s held) (hl : Live (owners s) (s.proc p) pt tf) :
    Runs (others s p) s p pt tf := by
  have hacct := h.acct
  have hlive := hl
  rw [hl.owners_eq] at hacct hlive
  exact ⟨hlive, hacct⟩

/-! ## The arguments -/

/-- The memory of a process after pages of it were read and the pages `H` were allocated on
its behalf. -/
structure Fetched (tf : ℕ) (G : Multiset ℕ) (S : ℕ → Prop) (pt : PageTable) (k : Phys)
    (H : Multiset ℕ) (pt' : PageTable) (k' : Phys) : Prop extends Remap S pt pt' where
  space : UserSpace pt' k' (tf ::ₘ (H + G))
  same : SameOn (tf ::ₘ G) k.mem k'.mem
  oom_mono : k.oom = true → k'.oom = true
  kernel : ∀ v, UPAGES ≤ v → v < 2 ^ 27 → leaf pt' v = leaf pt v
  sharing : NoNewSharing (own pt + tf ::ₘ G) (own pt' + tf ::ₘ (H + G))
  root_eq : root pt' = root pt
  view_eq : ∀ v < UPAGES, ∀ i < PGSIZE, view pt' k'.mem v i = view pt k.mem v i

theorem Fetched.refl (h : UserSpace pt k (tf ::ₘ G)) : Fetched tf G S pt k 0 pt k := by
  refine ⟨Remap.refl S pt, ?_, SameOn.refl _ _, id, fun _ _ _ => rfl, ?_, rfl,
    fun _ _ _ _ => rfl⟩
  · rw [zero_add]
    exact h
  · rw [zero_add]
    exact NoNewSharing.refl _

omit [KernelImage] in
theorem subset_held (tf : ℕ) (H G : Multiset ℕ) : tf ::ₘ G ⊆ tf ::ₘ (H + G) :=
  Multiset.subset_of_le (Multiset.cons_le_cons _ (Multiset.le_add_left _ _))

theorem Fetched.quiet (hf : Fetched tf G S pt k H pt₁ k₁)
    (hq : Quiet (tf ::ₘ (H + G)) S pt₁ k₁ pt' k') : Fetched tf G S pt k H pt' k' where
  toRemap := hf.toRemap.trans hq.toRemap
  space := hq.evolve.space
  same := hf.same.trans (hq.evolve.same.mono (subset_held tf H G))
  oom_mono := fun ho => hq.evolve.oom_mono (hf.oom_mono ho)
  kernel := fun v hv hlt => (hq.evolve.kernel v hv hlt).trans (hf.kernel v hv hlt)
  sharing := hf.sharing.trans hq.evolve.sharing
  root_eq := hq.evolve.root_eq.trans hf.root_eq
  view_eq := fun v hv i hi => (hq.view_eq v hv i hi).trans (hf.view_eq v hv i hi)

theorem Fetched.setPhys {H' : Multiset ℕ} (hf : Fetched tf G S pt k H pt₁ k₁)
    (hs : Step k₁ k' (own pt₁ + tf ::ₘ G) (own pt₁ + tf ::ₘ (H' + G)))
    (hsh : NoNewSharing (own pt₁ + tf ::ₘ (H + G)) (own pt₁ + tf ::ₘ (H' + G))) :
    Fetched tf G S pt k H' pt₁ k' where
  toRemap := hf.toRemap
  space := ⟨hs.acct, hf.space.wf.mono fun a ha hone =>
    hsh.count_eq_one hone.le (Multiset.mem_add.mpr (Or.inl ha))⟩
  same := hf.same.trans (hs.same.mono (Multiset.subset_of_le (Multiset.le_add_left _ _)))
  oom_mono := fun ho => hs.oom_mono (hf.oom_mono ho)
  kernel := hf.kernel
  sharing := hf.sharing.trans hsh
  root_eq := hf.root_eq
  view_eq := by
    intro v hv i hi
    rw [← hf.view_eq v hv i hi]
    exact view_of_sameOn rfl hs.same (fun hV => Multiset.mem_add.mpr (Or.inl (mem_own hv hV))) hi

omit [KernelImage] in
theorem refs_held (pt : PageTable) (tf pa : ℕ) (H G : Multiset ℕ) :
    own pt + tf ::ₘ (pa ::ₘ H + G) = pa ::ₘ (own pt + tf ::ₘ (H + G)) := by
  rw [Multiset.cons_add, Multiset.cons_swap, Multiset.add_cons]

theorem Fetched.alloc (hf : Fetched tf G S pt k H pt₁ k₁) :
    (kalloc k₁ = .ok (none, { k₁ with oom := true }) ∧
      Fetched tf G S pt k H pt₁ { k₁ with oom := true }) ∨
    ∃ pa k', kalloc k₁ = .ok (some pa, k') ∧ Fetched tf G S pt k (pa ::ₘ H) pt₁ k' := by
  rcases kalloc_spec hf.space.acct with ⟨hrun, -⟩ | ⟨pa, k', hrun, hstep, hpa, -, -, -⟩
  · exact Or.inl ⟨hrun, hf.setPhys ⟨hf.space.acct, SameOn.refl _ _, fun _ => rfl⟩
      (NoNewSharing.refl _)⟩
  · refine Or.inr ⟨pa, k', hrun, hf.setPhys ?_ ?_⟩
    · rw [refs_held]
      exact hstep.mono (Multiset.subset_of_le (add_le_add_right
        (Multiset.cons_le_cons _ (Multiset.le_add_left _ _)) _))
    · rw [refs_held]
      exact NoNewSharing.cons hpa

theorem Fetched.done (hf : Fetched tf G S pt k 0 pt' k') : Quiet (tf ::ₘ G) S pt k pt' k' := by
  have hspace := hf.space
  have hsh := hf.sharing
  rw [zero_add] at hspace hsh
  exact ⟨hf.toRemap, ⟨hspace, hf.same, hf.oom_mono, hf.kernel, hsh, hf.root_eq⟩, hf.view_eq⟩

/-- The process goes on with its memory as it is now. -/
theorem Fetched.runs (hl : Live (own pt + tf ::ₘ G) (s.proc p) pt tf)
    (hf : Fetched tf G (· < npages (s.proc p).sz) pt k H pt' k') :
    Runs (H + G) (s.setSpace p pt' (s.proc p).sz k') p pt' tf := by
  have hU := UPAGES_eq
  refine ⟨?_, hf.space.acct⟩
  rw [State.setSpace, put_proc_self]
  refine ⟨hl.state, rfl, hl.trapframe, hf.space.wf, ?_, hl.sz_lt, fun v hge hv => ?_, ?_, ?_⟩
  · refine hf.sharing.count_eq_one hl.single.le (Multiset.mem_add.mpr (Or.inr ?_))
    exact Multiset.mem_cons_self _ _
  · by_contra hV
    rcases hf.adds v hv (by simpa using hV) with hold | ⟨hlt, -⟩
    · rw [hl.above v hge hv] at hold
      cases hold
    · exact absurd hge (not_le.mpr hlt)
  · rw [hf.kernel _ le_rfl (by omega), hl.tfLeaf]
  · rw [hf.kernel _ (by omega) (by omega), hl.trampolineLeaf]

theorem fetchaddr_spec (hr : Runs G s p pt tf) (addr : ℕ) :
    (TRAPFRAME < (s.proc p).sz ∧ fetchaddr p addr s = .error .walk) ∨
      ∃ r pt' k', fetchaddr p addr s = .ok (r, s.setSpace p pt' (s.proc p).sz k') ∧
        Quiet (tf ::ₘ G) (· < npages (s.proc p).sz) pt s.phys pt' k' := by
  rw [fetchaddr, bind_of_ok (getProc_run p s)]
  split
  · refine Or.inr ⟨none, pt, s.phys, ?_, Quiet.refl hr.space _⟩
    rw [State.setSpace, ← hr.live.pagetable, put_self]
    rfl
  · rcases copyin_min (s.proc p).sz addr 8 hr.space hr.live.kernelPages with ⟨hbig, he⟩ | heq
    · refine Or.inl ⟨hbig, bind_of_error ?_⟩
      exact onSpace_error hr.live.pagetable (bind_of_error he)
    · obtain ⟨ok, bytes, pt', k', hrun, hc⟩ :=
        copyin_spec (min_le_right (s.proc p).sz TRAPFRAME) addr 8 hr.space
      have hon : copyinFrom p addr 8 s = .ok ((ok, bytes), s.setSpace p pt' (s.proc p).sz k') := by
        refine onSpace_run hr.live.pagetable ?_
        rw [bind_of_ok (heq.trans hrun)]
        rfl
      refine Or.inr ⟨if ok then some (leNat bytes) else none, pt', k', ?_, hc.quiet.mono fun v hv =>
        hv.1.trans_le (npages_mono (min_le_left _ _))⟩
      rw [bind_of_ok hon]
      rfl

theorem fetchArgs_spec (hl : Live (own pt + tf ::ₘ G) (s.proc p) pt tf) (uargv n i : ℕ)
    (pages : List ℕ) (argv : List (List UInt8))
    (hf : Fetched tf G (· < npages (s.proc p).sz) pt k pages pt₁ k₁)
    (hargs : ∀ a ∈ argv, a.length < PGSIZE) :
    (TRAPFRAME < (s.proc p).sz ∧ fetchArgs p uargv n i pages argv
      (s.setSpace p pt₁ (s.proc p).sz k₁) = .error .walk) ∨
    ∃ ok pages' argv' pt' k', fetchArgs p uargv n i pages argv (s.setSpace p pt₁ (s.proc p).sz k₁) =
        .ok ((ok, pages', argv'), s.setSpace p pt' (s.proc p).sz k') ∧
      Fetched tf G (· < npages (s.proc p).sz) pt k pages' pt' k' ∧
      (∀ a ∈ argv', a.length < PGSIZE) ∧ (ok = true → argv'.length < argv.length + n) := by
  induction n generalizing i pages argv pt₁ k₁ with
  | zero => exact Or.inr ⟨false, pages, argv, pt₁, k₁, rfl, hf, hargs, by simp⟩
  | succ n ih =>
    have hsz : ((s.setSpace p pt₁ (s.proc p).sz k₁).proc p).sz = (s.proc p).sz := by
      rw [State.setSpace, put_proc_self]
    rw [fetchArgs]
    rcases fetchaddr_spec (hf.runs hl) (u64 (uargv + 8 * i)) with
      ⟨hbig, he⟩ | ⟨r, pt₂, k₂, hrun, hq⟩
    · exact Or.inl ⟨hsz ▸ hbig, bind_of_error he⟩
    rw [hsz, setSpace_setSpace] at hrun
    rw [hsz] at hq
    have hf₂ := hf.quiet hq
    rw [bind_of_ok hrun]
    cases r with
    | none => exact Or.inr ⟨false, pages, argv, pt₂, k₂, rfl, hf₂, hargs, by simp⟩
    | some uarg =>
      dsimp only
      by_cases huarg : uarg = 0
      · rw [if_pos huarg]
        exact Or.inr ⟨true, pages, argv, pt₂, k₂, rfl, hf₂, hargs, by simp⟩
      rw [if_neg huarg]
      rcases hf₂.alloc with ⟨hrun₃, hf₃⟩ | ⟨pa, k₃, hrun₃, hf₃⟩
      · have hvm : vm kalloc (s.setSpace p pt₂ (s.proc p).sz k₂) =
            .ok (none, s.setSpace p pt₂ (s.proc p).sz { k₂ with oom := true }) := vm_run hrun₃
        rw [bind_of_ok hvm]
        exact Or.inr ⟨false, pages, argv, pt₂, _, rfl, hf₃, hargs, by simp⟩
      · have hvm : vm kalloc (s.setSpace p pt₂ (s.proc p).sz k₂) =
            .ok (some pa, s.setSpace p pt₂ (s.proc p).sz k₃) := vm_run hrun₃
        rw [bind_of_ok hvm]
        have hpages : ((pages ++ [pa] : List ℕ) : Multiset ℕ) = pa ::ₘ pages := by
          rw [← Multiset.coe_add, add_comm, Multiset.coe_singleton, Multiset.singleton_add]
        rw [← hpages] at hf₃
        obtain ⟨str, hrun₄, hlen⟩ := fetchstr_spec (hf₃.runs hl).live uarg PGSIZE
        dsimp only
        rw [bind_of_ok hrun₄]
        cases str with
        | none => exact Or.inr ⟨false, pages ++ [pa], argv, pt₂, k₃, rfl, hf₃, hargs, by simp⟩
        | some str =>
          have hargs' (a : List UInt8) (ha : a ∈ argv ++ [str]) : a.length < PGSIZE := by
            rcases List.mem_append.mp ha with hold | hnew
            · exact hargs a hold
            · rw [List.mem_singleton.mp hnew]
              exact hlen str rfl
          refine (ih (i + 1) (pages ++ [pa]) (argv ++ [str]) hf₃ hargs').imp_right ?_
          rintro ⟨ok, pages', argv', pt', k', hrun', hf', hlen', hcount⟩
          refine ⟨ok, pages', argv', pt', k', hrun', hf', hlen', fun hok => ?_⟩
          have := hcount hok
          rw [List.length_append, List.length_singleton] at this
          omega

theorem freePages_spec (pages : List ℕ) (hacct : Acct s.phys (pages + R)) :
    ∃ k', freePages pages s = .ok ((), { s with phys := k' }) ∧ Step s.phys k' R R ∧
      k'.oom = s.phys.oom := by
  induction pages generalizing s with
  | nil => exact ⟨s.phys, rfl, Step.refl (by simpa using hacct) R, rfl⟩
  | cons pa rest ih =>
    rw [← Multiset.cons_coe, Multiset.cons_add] at hacct
    obtain ⟨k₁, hrun₁, hstep₁, hoom₁⟩ := kfree_spec hacct
    obtain ⟨k', hrun', hstep', hoom'⟩ := ih (s := { s with phys := k₁ }) hstep₁.acct
    refine ⟨k', ?_, (hstep₁.mono (Multiset.subset_of_le (Multiset.le_add_left _ _))).trans hstep',
      hoom'.trans hoom₁⟩
    rw [freePages, bind_of_ok (vm_run hrun₁)]
    exact hrun'

/-! ## kexec -/

/-- The state while system code holds a reference to inode `i`. -/
def State.openInode (s : State) (i : ℕ) (k : Phys) : State :=
  { s with phys := k, iref := Function.update s.iref i (s.iref i + 1) }

omit [KernelImage] in
theorem iunlockput_run (s : State) (i : ℕ) (k : Phys) :
    iunlockput i (s.openInode i k) = .ok ((), { s with phys := k }) := by
  rw [iunlockput]
  simp [State.openInode]

theorem execBad_inode (s : State) (i : ℕ) (k : Phys) :
    execBad none (some i) (s.openInode i k) = .ok (-1, { s with phys := k }) := by
  change (iunlockput i >>= fun _ => pure (-1)) (s.openInode i k) = _
  rw [bind_of_ok (iunlockput_run s i k)]
  rfl

/-- What `kexec` has done when it commits. -/
structure Committed (G : Multiset ℕ) (tf : ℕ) (pt : PageTable) (k : Phys) (pt' : PageTable)
    (sz' : ℕ) (k' : Phys) : Prop where
  image : Image (tf ::ₘ G) sz' pt' k'
  same : SameOn G k.mem k'.mem
  oom_mono : k.oom = true → k'.oom = true
  sharing : NoNewSharing (own pt + tf ::ₘ G) (own pt' + tf ::ₘ G)
  trapframe : leaf pt' UPAGES = mapPte tf (PTE_R ||| PTE_W)
  trampoline : leaf pt' (UPAGES + 1) = mapPte trampoline (PTE_R ||| PTE_X)

/-- What the new program finds: its arguments on the stack, and their address in `sp` and
`a1`. -/
structure Delivered (tf : ℕ) (argv : List (List UInt8)) (pt : PageTable) (sz : ℕ)
    (mem : ℕ → UInt8) (sp : ℕ) : Prop where
  aligned : PGSIZE ∣ sz
  stack : PGSIZE ≤ sz
  args : HasArgs pt mem sz argv sp
  sp_eq : wordAt mem (tf + Trapframe.sp) = BitVec.ofNat 64 sp
  a1_eq : wordAt mem (tf + Trapframe.a1) = BitVec.ofNat 64 sp

/-- The entry of the process table after `kexec`. -/
def Proc.execed (pr : Proc) (path : List UInt8) (pt : PageTable) (sz : ℕ) : Proc :=
  { pr with name := (lastName path).take 15, pagetable := some pt, sz := sz }

omit [KernelImage] in
theorem refs_image (a b : Multiset ℕ) (tf : ℕ) (G : Multiset ℕ) :
    a + (b + tf ::ₘ G) = b + (a + tf ::ₘ G) := add_left_comm _ _ _

theorem execCommit_spec (hr : Runs G s p pt tf) {npt : PageTable} {nsz : ℕ}
    (hnew : NewImage (own pt + tf ::ₘ G) tf s.phys npt nsz k₁) (path : List UInt8) (entry : Entry)
    {argv : List (List UInt8)} (hdvd : PGSIZE ∣ nsz) (hstack : PGSIZE ≤ nsz)
    (hhas : HasArgs npt k₁.mem nsz argv entry.sp) :
    (TRAPFRAME < (s.proc p).sz ∧ ∃ e ≠ .ustackOverrun,
      execCommit p path npt nsz entry { s with phys := k₁ } = .error e) ∨
    ∃ k', execCommit p path npt nsz entry { s with phys := k₁ } =
        .ok (entry.argc, s.put p ((s.proc p).execed path npt nsz) k') ∧
      Committed G tf pt s.phys npt nsz k' ∧ Delivered tf argv npt nsz k'.mem entry.sp := by
  have hacct := hnew.image.space.acct
  have hone : (own npt + (own pt + tf ::ₘ G)).count tf = 1 :=
    hnew.sharing.count_eq_one hr.live.single.le (by simp)
  have htf : PageAddr tf := hacct.valid_of_mem tf (by simp)
  -- Only the trapframe page is written.
  have hkeep (a : ℕ) (ha : a ∈ own npt + (own pt + G)) : a % PGSIZE = 0 ∧ a ≠ tf := by
    have hout : own npt + (own pt + tf ::ₘ G) = tf ::ₘ (own npt + (own pt + G)) := by
      rw [Multiset.add_cons, Multiset.add_cons]
    rw [hout] at hone hacct
    rw [Multiset.count_cons_self] at hone
    refine ⟨(hacct.valid_of_mem a (Multiset.mem_cons_of_mem ha)).1, ?_⟩
    rintro rfl
    exact Multiset.count_eq_zero.mp (by omega) ha
  obtain ⟨k₂, hrun₂, hpoke₂⟩ := storeReg_spec (k := k₁) entry.sp htf hkeep
    (by decide : Trapframe.a1 + 8 ≤ PGSIZE)
  obtain ⟨k₃, hrun₃, hpoke₃⟩ := storeReg_spec (k := k₂) entry.epc htf hkeep
    (by decide : Trapframe.epc + 8 ≤ PGSIZE)
  obtain ⟨k₄, hrun₄, hpoke₄⟩ := storeReg_spec (k := k₃) entry.sp htf hkeep
    (by decide : Trapframe.sp + 8 ≤ PGSIZE)
  have hpoke := (hpoke₂.trans hpoke₃).trans hpoke₄
  have hold : UserSpace pt k₄ (own npt + tf ::ₘ G) := by
    refine ⟨?_, hr.live.wf.mono fun a ha h1 => ?_⟩
    · rw [← refs_image]
      exact hpoke.acct hacct
    · rw [← refs_image]
      exact hnew.sharing.count_eq_one h1.le
        (Multiset.mem_add.mpr (Or.inr (Multiset.mem_add.mpr (Or.inl ha))))
  let pr' := (s.proc p).execed path npt nsz
  have hset : setProc p (fun pr => { pr with
      name := (lastName path).take 15, pagetable := some npt, sz := nsz }) { s with phys := k₂ } =
        .ok ((), s.put p pr' k₂) := rfl
  have hvm₂ : vm (storeReg tf Trapframe.a1 entry.sp) { s with phys := k₁ } =
    .ok ((), { s with phys := k₂ }) := vm_run hrun₂
  have hvm₃ : vm (storeReg tf Trapframe.epc entry.epc) (s.put p pr' k₂) =
    .ok ((), s.put p pr' k₃) := vm_run hrun₃
  have hvm₄ : vm (storeReg tf Trapframe.sp entry.sp) (s.put p pr' k₃) =
    .ok ((), s.put p pr' k₄) := vm_run hrun₄
  rw [execCommit, bind_of_ok (getProc_run p _)]
  dsimp only
  rw [hr.live.pagetable, hr.live.trapframe]
  dsimp only
  rw [bind_of_ok hvm₂, bind_of_ok hset, bind_of_ok hvm₃, bind_of_ok hvm₄]
  rcases procFreepagetable_spec hr.live.sz_lt hold hr.live.above with
    ⟨hbig, e, he⟩ | ⟨k', hrun', hstep, hoom⟩
  · refine Or.inl ⟨hbig, e, ?_, bind_of_error (vm_error he)⟩
    rintro rfl
    exact procFreepagetable_avoids _ _ _ he
  have hvm' : vm (procFreepagetable pt (s.proc p).sz) (s.put p pr' k₄) =
    .ok ((), s.put p pr' k') := vm_run hrun'
  have hle : own npt + tf ::ₘ G ≤ own npt + (own pt + tf ::ₘ G) :=
    add_le_add_right (Multiset.le_add_left _ _) _
  have htfword (reg : ℕ) (hreg : reg + 8 ≤ PGSIZE) :
      wordAt k'.mem (tf + reg) = wordAt k₄.mem (tf + reg) := by
    apply wordAt_congr
    intro i hi
    rw [Nat.add_assoc]
    exact hstep.same.page tf (by simp) _ (by omega)
  refine Or.inr ⟨k', by rw [bind_of_ok hvm']; rfl, ⟨⟨⟨hstep.acct, ?_⟩, hnew.image.above,
    hnew.image.bound, hnew.image.kernel⟩, ?_, fun ho => ?_, ?_, hnew.trapframe, hnew.trampoline⟩,
    hdvd, hstack, ?_, ?_, ?_⟩
  · exact hnew.image.space.wf.mono fun a ha h1 =>
      count_eq_one_of_le hle (Multiset.mem_add.mpr (Or.inl ha)) h1
  · refine (hnew.same.mono ?_).trans ((hpoke.same.mono ?_).trans (hstep.same.mono ?_))
    · exact fun a ha => Multiset.mem_add.mpr (Or.inr (Multiset.mem_cons_of_mem ha))
    · exact fun a ha => Multiset.mem_add.mpr (Or.inr (Multiset.mem_add.mpr (Or.inr ha)))
    · exact fun a ha => Multiset.mem_add.mpr (Or.inr (Multiset.mem_cons_of_mem ha))
  · rw [hoom, hpoke.oom_eq]
    exact hnew.oom_mono ho
  · exact hnew.sharing.trans (NoNewSharing.of_le hle)
  · -- The pages of the image are not written any more.
    have hsame : SameOn (own npt) k₁.mem k'.mem :=
      (hpoke.same.mono (Multiset.subset_of_le (Multiset.le_add_right _ _))).trans
        (hstep.same.mono (Multiset.subset_of_le (Multiset.le_add_right _ _)))
    refine hhas.congr hstack fun a n _ hn => List.map_congr_left fun j hj => ?_
    have hpage : (a + j) / PGSIZE < UPAGES := by
      have hbound := le_npages_mul nsz
      have hU := Nat.mul_le_mul_right PGSIZE hnew.image.bound
      have hj := List.mem_range.mp hj
      exact Nat.div_lt_of_lt_mul (by rw [Nat.mul_comm]; omega)
    exact view_of_sameOn rfl hsame (fun hV => mem_own hpage hV) (Nat.mod_lt _ (by decide))
  · rw [htfword Trapframe.sp (by decide), (storeReg_word (b := 0) hrun₄).1]
  · rw [htfword Trapframe.a1 (by decide), (storeReg_word hrun₄).2 (by
      simp only [Trapframe.sp, Trapframe.a1]; omega), (storeReg_word hrun₃).2 (by
      simp only [Trapframe.epc, Trapframe.a1]; omega), (storeReg_word (b := 0) hrun₂).1]

/-- How the parts of `kexec` end: with a panic, without a change, or with a new image. -/
def ExecEnd (G : Multiset ℕ) (tf : ℕ) (s : State) (p : ProcId) (pt : PageTable) (path : List UInt8)
    (argv : List (List UInt8)) (r : Except Panic (ℤ × State)) : Prop :=
  (TRAPFRAME < (s.proc p).sz ∧ argRoom argv ≤ PGSIZE ∧ ∃ e ≠ .ustackOverrun, r = .error e) ∨
  (∃ k', r = .ok (-1, { s with phys := k' }) ∧
    Step s.phys k' (own pt + tf ::ₘ G) (own pt + tf ::ₘ G)) ∨
  ∃ pt' sz' k' sp, r = .ok (argv.length, s.put p ((s.proc p).execed path pt' sz') k') ∧
    Committed G tf pt s.phys pt' sz' k' ∧ Delivered tf argv pt' sz' k'.mem sp

theorem execStack_spec (hr : Runs G s p pt tf) {npt : PageTable} {nsz : ℕ} {k₀ : Phys}
    {pt₀ : PageTable} (hnew : NewTable (own pt + tf ::ₘ G) tf s.phys pt₀ k₀)
    (hev : Evolve (own pt + tf ::ₘ G) pt₀ k₀ npt k₁)
    (hload : Loading (own pt + tf ::ₘ G) nsz npt k₁) (path : List UInt8) (argv : List (List UInt8))
    (hargc : argv.length < MAXARG) (hargs : ∀ a ∈ argv, a.length < PGSIZE) (epc : ℕ) :
    ExecEnd G tf s p pt path argv (execStack p path argv epc npt nsz { s with phys := k₁ }) := by
  obtain ⟨entry, npt', nsz', k₂, hrun, himg, hev', hentry⟩ :=
    buildStack_spec epc (s.proc p).sz argv hargc hargs hload
  have hvm : vm (buildStack epc (s.proc p).sz argv npt nsz) { s with phys := k₁ } =
    .ok ((entry, npt', nsz'), { s with phys := k₂ }) := vm_run hrun
  have himage := hnew.newImage (hev.trans hev') himg
  rw [execStack, bind_of_ok (getProc_run p _)]
  dsimp only
  rw [bind_of_ok hvm]
  cases entry with
  | none =>
    obtain ⟨k', hrun', hstep⟩ := himage.discard
    have hvm' : vm (procFreepagetable npt' nsz') { s with phys := k₂ } =
      .ok ((), { s with phys := k' }) := vm_run hrun'
    refine Or.inr (Or.inl ⟨k', ?_, hstep⟩)
    dsimp only
    rw [execBad, bind_of_ok hvm']
    rfl
  | some entry =>
    obtain ⟨hcount, hdvd, hstack, hhas⟩ := hentry entry rfl
    rcases execCommit_spec hr himage path entry hdvd hstack hhas with
      ⟨hbig, he⟩ | ⟨k', hrun', hc, hd⟩
    · exact Or.inl ⟨hbig, hhas.room, he⟩
    · rw [hcount] at hrun'
      exact Or.inr (Or.inr ⟨npt', nsz', k', entry.sp, hrun', hc, hd⟩)

theorem execFile_spec (hr : Runs G s p pt tf) (path : List UInt8) (argv : List (List UInt8))
    (hargc : argv.length < MAXARG) (hargs : ∀ a ∈ argv, a.length < PGSIZE) (i : ℕ)
    (f : List UInt8) :
    ExecEnd G tf s p pt path argv (execFile p path argv i f (s.openInode i s.phys)) := by
  -- Nothing but the inode is open yet.
  have hbad : ExecEnd G tf s p pt path argv (execBad none (some i) (s.openInode i s.phys)) :=
    Or.inr (Or.inl ⟨s.phys, execBad_inode s i s.phys, Step.refl hr.acct _⟩)
  rw [execFile]
  split
  · exact hbad
  split
  · exact hbad
  rw [bind_of_ok (getProc_run p _)]
  dsimp only
  rw [show (s.openInode i s.phys).proc p = s.proc p from rfl, hr.live.trapframe]
  dsimp only
  obtain ⟨r, k₀, hrun₀, hnone, hsome⟩ := procPagetable_spec tf hr.acct
  have hvm₀ : vm (procPagetable tf) (s.openInode i s.phys) = .ok (r, s.openInode i k₀) :=
    vm_run hrun₀
  rw [bind_of_ok hvm₀]
  cases r with
  | none => exact Or.inr (Or.inl ⟨k₀, execBad_inode s i k₀, (hnone rfl).1⟩)
  | some pt₀ =>
    have hnew := hsome pt₀ rfl
    obtain ⟨ok, npt, nsz, k₁, hrun₁, himg, hev, hload⟩ := loadSegments_spec f
      (ElfHdr.decode (readFile f 0 ElfHdr.size)).phnum
      (u32 (ElfHdr.decode (readFile f 0 ElfHdr.size)).phoff) hnew.loading
    have hvm₁ : vm (loadSegments f (ElfHdr.decode (readFile f 0 ElfHdr.size)).phnum
        (u32 (ElfHdr.decode (readFile f 0 ElfHdr.size)).phoff) pt₀ 0) (s.openInode i k₀) =
      .ok ((ok, npt, nsz), s.openInode i k₁) := vm_run hrun₁
    dsimp only
    rw [bind_of_ok hvm₁]
    cases ok with
    | false =>
      obtain ⟨k', hrun', hstep⟩ := (hnew.newImage hev himg).discard
      have hvm' : vm (procFreepagetable npt nsz) (s.openInode i k₁) = .ok ((), s.openInode i k') :=
        vm_run hrun'
      refine Or.inr (Or.inl ⟨k', ?_, hstep⟩)
      simp only [Bool.not_false, if_true]
      rw [execBad, bind_of_ok hvm']
      exact execBad_inode s i k'
    | true =>
      simp only [Bool.not_true, Bool.false_eq_true, if_false]
      rw [bind_of_ok (iunlockput_run s i k₁)]
      exact execStack_spec hr hnew hev (hload rfl) path argv hargc hargs _

theorem kexec_spec (hr : Runs G s p pt tf) (path : List UInt8) (argv : List (List UInt8))
    (hargc : argv.length < MAXARG) (hargs : ∀ a ∈ argv, a.length < PGSIZE)
    (lookup : List UInt8 → Option (ℕ × List UInt8)) :
    ExecEnd G tf s p pt path argv (kexec p path argv lookup s) := by
  rw [kexec]
  cases hfind : lookup path with
  | none =>
    have hnamei : namei lookup path s = .ok (none, s) := by rw [namei, hfind]
    rw [bind_of_ok hnamei]
    exact Or.inr (Or.inl ⟨s.phys, rfl, Step.refl hr.acct _⟩)
  | some file =>
    obtain ⟨i, f⟩ := file
    have hnamei : namei lookup path s = .ok (some (i, f), s.openInode i s.phys) := by
      rw [namei, hfind]
      rfl
    rw [bind_of_ok hnamei]
    exact execFile_spec hr path argv hargc hargs i f

/-! ## sys_exec -/

omit [KernelImage] in
theorem refs_pages (pt : PageTable) (tf : ℕ) (pages : List ℕ) (G : Multiset ℕ) :
    own pt + tf ::ₘ (pages + G) = pages + (own pt + tf ::ₘ G) := by
  rw [← Multiset.add_cons, add_left_comm]

theorem Fetched.release {pages : List ℕ} (hf : Fetched tf G S pt k pages pt₁ k₁)
    (hs : Step k₁ k' (own pt₁ + tf ::ₘ G) (own pt₁ + tf ::ₘ G)) :
    Quiet (tf ::ₘ G) S pt k pt₁ k' := by
  refine Fetched.done (hf.setPhys ?_ ?_)
  · rw [zero_add]
    exact hs
  · rw [zero_add, refs_pages]
    exact NoNewSharing.of_le (Multiset.le_add_left _ _)

/-- The pages of the arguments are given back, and the new image runs. -/
theorem Committed.release {pages : List ℕ} {sz : ℕ} {k₂ : Phys}
    (hf : Fetched tf G S pt k pages pt₁ k₁) (hc : Committed (pages + G) tf pt₁ k₁ pt' sz k₂)
    (hs : Step k₂ k' (own pt' + tf ::ₘ G) (own pt' + tf ::ₘ G)) :
    Committed G tf pt k pt' sz k' where
  image := by
    refine ⟨⟨hs.acct, hc.image.space.wf.mono fun a ha h1 => ?_⟩, hc.image.above, hc.image.bound,
      hc.image.kernel⟩
    rw [refs_pages] at h1
    exact count_eq_one_of_le (Multiset.le_add_left _ _) (Multiset.mem_add.mpr (Or.inl ha)) h1
  same := by
    refine (hf.same.mono ?_).trans ((hc.same.mono ?_).trans (hs.same.mono ?_))
    · exact Multiset.subset_cons _ _
    · exact Multiset.subset_of_le (Multiset.le_add_left _ _)
    · exact fun a ha => Multiset.mem_add.mpr (Or.inr (Multiset.mem_cons_of_mem ha))
  oom_mono := fun ho => hs.oom_mono (hc.oom_mono (hf.oom_mono ho))
  sharing := by
    refine (hf.sharing.trans hc.sharing).trans ?_
    rw [refs_pages]
    exact NoNewSharing.of_le (Multiset.le_add_left _ _)
  trapframe := hc.trapframe
  trampoline := hc.trampoline

theorem Committed.live {pr : Proc} {sz : ℕ} (hl : Live R pr pt tf)
    (hone : (own pt + tf ::ₘ G).count tf = 1) (hc : Committed G tf pt k pt' sz k')
    (path : List UInt8) : Live (own pt' + tf ::ₘ G) (pr.execed path pt' sz) pt' tf := by
  have hT : TRAPFRAME = 274877898752 := rfl
  have hsz : sz ≤ TRAPFRAME := le_trapframe_of_npages hc.image.bound
  refine ⟨hl.state, rfl, hl.trapframe, hc.image.space.wf, ?_, ?_, hc.image.above, hc.trapframe,
    hc.trampoline⟩
  · refine hc.sharing.count_eq_one hone.le (Multiset.mem_add.mpr (Or.inr ?_))
    exact Multiset.mem_cons_self _ _
  · change sz < 2 ^ 64
    omega

/-- How `exec` by `p` ends: with a panic, with a failure that the program cannot see in its
memory, or with a new image. -/
inductive Execed (s : State) (p : ProcId) (pt : PageTable) (tf : ℕ) :
    Except Panic (ℤ × State) → Prop
  | panics (e : Panic) (hbig : TRAPFRAME < (s.proc p).sz) : Execed s p pt tf (.error e)
  | failed (s' : State) (h : Accessed s p 0 [] s') : Execed s p pt tf (.ok (-1, s'))
  | done (path : List UInt8) (argc : ℕ) (pt' : PageTable) (sz' : ℕ) (k' : Phys)
      (h : Committed (others s p) tf pt s.phys pt' sz' k') :
      Execed s p pt tf (.ok (argc, s.put p ((s.proc p).execed path pt' sz') k'))

theorem sysExec_spec (h : Inv s held) (hl : Live (owners s) (s.proc p) pt tf) (path uargv : ℕ)
    (lookup : List UInt8 → Option (ℕ × List UInt8)) :
    Execed s p pt tf (sysExec p path uargv lookup s) := by
  have hr := h.runs hl
  obtain ⟨str, hrun, -⟩ := fetchstr_spec hl path MAXPATH
  rw [sysExec, bind_of_ok hrun]
  cases str with
  | none => exact .failed s (Accessed.refl h hl 0)
  | some str =>
    dsimp only
    have hstart : s.setSpace p pt (s.proc p).sz s.phys = s := by
      rw [State.setSpace, ← hl.pagetable, put_self]
    have hargs := fetchArgs_spec hr.live uargv MAXARG 0 [] [] (Fetched.refl hr.space) (by simp)
    rw [hstart] at hargs
    rcases hargs with ⟨hbig, he⟩ | ⟨ok, pages, argv, pt₁, k₁, hrun₁, hf, hlen, hcount⟩
    · rw [bind_of_error he]
      exact .panics _ hbig
    rw [bind_of_ok hrun₁]
    -- However the call fails, freeing the pages ends it.
    have hfail {k₂ : Phys} (hs : Step k₁ k₂ (own pt₁ + tf ::ₘ (pages + others s p))
        (own pt₁ + tf ::ₘ (pages + others s p))) :
        Execed s p pt tf ((freePages pages >>= fun _ => pure (-1))
          (s.setSpace p pt₁ (s.proc p).sz k₂)) := by
      rw [refs_pages] at hs
      obtain ⟨k₃, hrun₃, hstep₃, -⟩ :=
        freePages_spec (s := s.setSpace p pt₁ (s.proc p).sz k₂) pages hs.acct
      rw [bind_of_ok hrun₃]
      refine .failed _ (hl.accessed ((hf.release ?_).wrote 0) fun _ hv => hv)
      exact (hs.mono (Multiset.subset_of_le (Multiset.le_add_left _ _))).trans hstep₃
    cases ok with
    | false => exact hfail (Step.refl hf.space.acct _)
    | true =>
      simp only [if_true]
      have hargc : argv.length < MAXARG := by simpa using hcount rfl
      rcases kexec_spec (hf.runs hr.live) str argv hargc hlen lookup with
        ⟨hbig, -, e, -, he⟩ | ⟨k₂, hrun₂, hstep⟩ | ⟨pt', sz', k₂, -, hrun₂, hc, -⟩
      · rw [bind_of_error he]
        rw [State.setSpace, put_proc_self] at hbig
        exact .panics e hbig
      · rw [bind_of_ok hrun₂]
        exact hfail hstep
      · have hput : (s.setSpace p pt₁ (s.proc p).sz k₁).put p
            (((s.setSpace p pt₁ (s.proc p).sz k₁).proc p).execed str pt' sz') k₂ =
            s.put p ((s.proc p).execed str pt' sz') k₂ := by
          rw [State.setSpace, put_put, put_proc_self]
          rfl
        rw [bind_of_ok hrun₂, hput]
        have hacct := hc.image.space.acct
        rw [refs_pages] at hacct
        obtain ⟨k₃, hrun₃, hstep₃, -⟩ :=
          freePages_spec (s := s.put p ((s.proc p).execed str pt' sz') k₂) pages hacct
        rw [bind_of_ok hrun₃]
        exact .done str argv.length pt' sz' k₃ (hc.release hf hstep₃)

variable {sz' : ℕ}

theorem Committed.owners_eq (hl : Live (owners s) (s.proc p) pt tf)
    (hc : Committed (others s p) tf pt s.phys pt' sz' k') (path : List UInt8) :
    procRefs ((s.proc p).execed path pt' sz') + others s p = own pt' + tf ::ₘ others s p := by
  have hV : (leaf pt' UPAGES).has PTE_V := by
    rw [hc.trapframe]
    exact mapPte_flags.1
  have hrefs : procRefs ((s.proc p).execed path pt' sz') = own pt' + {tf} :=
    procRefs_of_table hl.state rfl hl.trapframe hV
  rw [hrefs, ← Multiset.singleton_add, add_assoc]

theorem Committed.inv (h : Inv s held) (hl : Live (owners s) (s.proc p) pt tf)
    (hc : Committed (others s p) tf pt s.phys pt' sz' k') (path : List UInt8) :
    Inv (s.put p ((s.proc p).execed path pt' sz') k') held := by
  have hr := h.runs hl
  have heq := hc.owners_eq hl path
  refine h.put ?_ ?_ ?_ rfl (h.zombie p)
  · rw [heq]
    exact hc.image.space.acct
  · rw [heq]
    exact Or.inr (Or.inl ⟨pt', tf, hc.live hl hr.live.single path⟩)
  · intro a ha h1
    rw [heq]
    rw [hl.owners_eq] at h1
    exact hc.sharing.count_eq_one h1.le
      (Multiset.mem_add.mpr (Or.inr (Multiset.mem_cons_of_mem ha)))

end

end Xv6.Kernel
