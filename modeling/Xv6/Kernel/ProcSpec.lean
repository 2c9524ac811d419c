import Xv6.Kernel.AccessSpec
import Xv6.Kernel.FileSpec

/-! # Creating and destroying processes -/
namespace Xv6.Kernel
open Library Library.Exec Library.RefCount Vm

section
variable [KernelImage] {s s' : State} {held held' : FileId → ℤ} {p q np : ProcId}
  {pt pt' : PageTable} {tf : ℕ} {R R' : Multiset ℕ} {k k' : Phys}

/-! ## The trapframe -/

/-- Only the contents of memory have changed, and not on the pages in `keep`. -/
structure Poked (keep : Multiset ℕ) (k k' : Phys) : Prop where
  freelist_eq : k'.freelist = k.freelist
  refcnt_eq : k'.refcnt = k.refcnt
  oom_eq : k'.oom = k.oom
  same : SameOn keep k.mem k'.mem

theorem Poked.trans {keep : Multiset ℕ} {k₁ : Phys} (h : Poked keep k k₁) (h' : Poked keep k₁ k') :
    Poked keep k k' :=
  ⟨h'.freelist_eq.trans h.freelist_eq, h'.refcnt_eq.trans h.refcnt_eq, h'.oom_eq.trans h.oom_eq,
    h.same.trans h'.same⟩

theorem Poked.acct {keep : Multiset ℕ} (h : Poked keep k k') (hacct : Acct k R) : Acct k' R := by
  unfold Acct
  rw [h.freelist_eq, h.refcnt_eq]
  exact hacct

theorem storeReg_spec {keep : Multiset ℕ} {reg : ℕ} (n : ℕ) (htf : PageAddr tf)
    (hkeep : ∀ a ∈ keep, a % PGSIZE = 0 ∧ a ≠ tf) (hreg : reg + 8 ≤ PGSIZE) :
    ∃ k', storeReg tf reg n k = .ok ((), k') ∧ Poked keep k k' := by
  refine ⟨_, rfl, rfl, rfl, rfl, ?_⟩
  exact sameOn_memmove (fun i => (uint64Bytes n).getD i 0) htf hkeep hreg

omit [KernelImage] in
/-- The register has the value stored, and the words beside it stay. -/
theorem storeReg_word {reg n b : ℕ} (h : storeReg tf reg n k = .ok ((), k')) :
    wordAt k'.mem (tf + reg) = BitVec.ofNat 64 n ∧
      (b + 8 ≤ tf + reg ∨ tf + reg + 8 ≤ b → wordAt k'.mem b = wordAt k.mem b) := by
  have hbytes (i : ℕ) (hi : i < 8) : (uint64Bytes n).getD i 0 = UInt8.ofNat (n / 256 ^ i) := by
    rw [List.getD_eq_getElem?_getD, List.getElem?_eq_getElem (by rw [length_uint64Bytes]; exact hi)]
    simp [uint64Bytes]
  cases h
  constructor
  · have hword : (List.range 8).map (fun i => memmove (tf + reg)
        (fun i => (uint64Bytes n).getD i 0) 8 k.mem (tf + reg + i)) = uint64Bytes n := by
      apply List.map_congr_left
      intro i hi
      have hi := List.mem_range.mp hi
      rw [memmove_inside _ _ _ hi, hbytes i hi]
    change BitVec.ofNat 64 (leNat ((List.range 8).map _)) = _
    rw [hword, leNat_uint64Bytes]
    apply BitVec.eq_of_toNat_eq
    simp
  · intro hb
    apply wordAt_congr
    intro i hi
    exact if_neg (by omega)

theorem copyTrapframe_spec {keep : Multiset ℕ} {tfn : ℕ} (htf : PageAddr tfn)
    (hkeep : ∀ a ∈ keep, a % PGSIZE = 0 ∧ a ≠ tfn) :
    ∃ k', copyTrapframe tf tfn k = .ok ((), k') ∧ Poked keep k k' := by
  have hsize : 0 + Trapframe.size ≤ PGSIZE := by decide
  have hcopy : Poked keep k
      { k with mem := memmove tfn (fun i => k.mem (tf + i)) Trapframe.size k.mem } := by
    refine ⟨rfl, rfl, rfl, ?_⟩
    exact sameOn_memmove (fun i => k.mem (tf + i)) htf hkeep hsize
  obtain ⟨k', hrun, hpoke⟩ := storeReg_spec 0 htf hkeep
    (by decide : Trapframe.a0 + 8 ≤ PGSIZE)
  exact ⟨k', hrun, hcopy.trans hpoke⟩

/-- The other pages of the kernel are not the trapframe page. -/
theorem Inv.tf_apart (h : Inv s held) (hl : Live (owners s) (s.proc p) pt tf) (a : ℕ)
    (ha : a ∈ own pt + others s p) : a % PGSIZE = 0 ∧ a ≠ tf := by
  have hone := hl.single
  rw [hl.owners_eq, outside, ← Multiset.singleton_add, add_left_comm, Multiset.singleton_add,
    Multiset.count_cons_self] at hone
  have hout : tf ∉ own pt + others s p := Multiset.count_eq_zero.mp (by omega)
  refine ⟨(h.acct.valid_of_mem a ?_).1, fun hc => hout (hc ▸ ha)⟩
  rw [hl.owners_eq, outside, ← Multiset.singleton_add, add_left_comm]
  exact Multiset.mem_add.mpr (Or.inr ha)

/-- What the kernel writes to the trapframe page of a process is no memory of any process. -/
theorem Inv.poke (h : Inv s held) (hl : Live (owners s) (s.proc p) pt tf)
    (hpoke : Poked (own pt + others s p) s.phys k') :
    Inv { s with phys := k' } held ∧ Calm s { s with phys := k' } := by
  refine ⟨h.setPhys (hpoke.acct h.acct), ⟨rfl, rfl, fun q => ?_, ?_⟩, rfl⟩
  · by_cases hq : q = p
    · subst hq
      refine ⟨rfl, fun v hv i hi => ?_⟩
      rw [byteOf_eq hl.pagetable v i, byteOf_eq (s := { s with phys := k' }) hl.pagetable]
      exact view_of_sameOn rfl hpoke.same
        (fun hV => Multiset.mem_add.mpr (Or.inl (mem_own hv hV))) hi
    · exact Frame.of_sameOn rfl h.pagetable_none (hpoke.same.mono fun a ha => Multiset.mem_add.mpr
        (Or.inr (Multiset.mem_of_le (procRefs_le_others hq) ha)))
  · intro ho
    exact hpoke.oom_eq.trans ho

/-! ## freeproc -/

omit [KernelImage] in
/-- A page with one owner keeps it when other owners go away. -/
theorem count_eq_one_of_le {a : ℕ} (hle : R' ≤ R) (ha : a ∈ R') (hone : R.count a = 1) :
    R'.count a = 1 :=
  (NoNewSharing.of_le hle).count_eq_one hone.le ha

omit [KernelImage] in
theorem Proc.clear_eq {pr : Proc} (h : pr.ofile = fun _ => none) : pr.clear = Proc.empty := by
  rw [Proc.clear, h]
  rfl

theorem freeSpace_spec (hl : Live R (s.proc p) pt tf) (hacct : Acct k (own pt + outside s p tf))
    (hwf : Wf pt (own pt + outside s p tf)) :
    ∃ k₁, kfree tf k = .ok ((), k₁) ∧
      ((TRAPFRAME < (s.proc p).sz ∧ ∃ e, procFreepagetable pt (s.proc p).sz k₁ = .error e) ∨
        ∃ k', procFreepagetable pt (s.proc p).sz k₁ = .ok ((), k') ∧
          Step k k' (others s p) (others s p) ∧ k'.oom = k.oom) := by
  have heq : own pt + outside s p tf = tf ::ₘ (own pt + others s p) := by
    rw [outside, ← Multiset.singleton_add, ← Multiset.singleton_add]
    abel
  rw [heq] at hacct hwf
  obtain ⟨k₁, hrun₁, hstep₁, hoom₁⟩ := kfree_spec hacct
  have hspace : UserSpace pt k₁ (others s p) := by
    refine ⟨hstep₁.acct, hwf.mono fun a ha hone => ?_⟩
    exact count_eq_one_of_le (Multiset.le_cons_self _ _) (Multiset.mem_add.mpr (Or.inl ha)) hone
  refine ⟨k₁, hrun₁, ?_⟩
  rcases procFreepagetable_spec hl.sz_lt hspace hl.above with he | ⟨k', hrun', hstep', hoom'⟩
  · exact Or.inl he
  refine Or.inr ⟨k', hrun', ⟨hstep'.acct, ?_, fun ho => hstep'.oom_mono (hstep₁.oom_mono ho)⟩,
    hoom'.trans hoom₁⟩
  exact (hstep₁.same.mono (Multiset.subset_of_le (Multiset.le_add_left _ _))).trans hstep'.same

theorem freeproc_spec (h : Inv s held) (hl : Live (owners s) (s.proc p) pt tf)
    (hfile : (s.proc p).ofile = fun _ => none) :
    (TRAPFRAME < (s.proc p).sz ∧ ∃ e, freeproc p s = .error e) ∨
    ∃ k', freeproc p s = .ok ((), s.put p Proc.empty k') ∧ Inv (s.put p Proc.empty k') held ∧
      (∀ q, q ≠ p → Frame s (s.put p Proc.empty k') q) ∧ k'.oom = s.phys.oom := by
  have hspace := h.space hl
  obtain ⟨k₁, hrun₁, hfree⟩ := freeSpace_spec hl hspace.acct hspace.wf
  rw [freeproc, bind_of_ok (getProc_run p s), hl.trapframe]
  dsimp only
  rw [bind_of_ok (vm_run hrun₁), hl.pagetable]
  dsimp only
  rcases hfree with ⟨hbig, e, he⟩ | ⟨k', hrun', hstep, hoom⟩
  · exact Or.inl ⟨hbig, e, bind_of_error (vm_error he)⟩
  refine Or.inr ⟨k', ?_, ?_, fun q hq => h.frame_put hq _ hstep.same, hoom⟩
  · rw [bind_of_ok (vm_run hrun'), setProc_run]
    rw [← Proc.clear_eq hfile]
    rfl
  · refine h.put ?_ (Or.inl rfl) ?_ hfile.symm (fun _ => rfl)
    · rw [procRefs_empty, zero_add]
      exact hstep.acct
    · rw [procRefs_empty, zero_add]
      exact fun a ha hone => count_eq_one_of_le (others_le_owners s p) ha hone

/-! ## allocproc -/

/-- The entry that `allocproc` sets up. -/
def newProc (pid : ℤ) (pt : Option PageTable) (tf : Option ℕ) : Proc :=
  { Proc.empty with state := .used, pid := pid, pagetable := pt, trapframe := tf }

omit [KernelImage] in
theorem owners_setNextpid (s : State) (n : ℤ) : owners { s with nextpid := n } = owners s :=
  owners_congr rfl (fun _ => rfl) rfl

theorem Inv.setNextpid (h : Inv s held) (n : ℤ) : Inv { s with nextpid := n } held := by
  have howners := owners_setNextpid s n
  exact ⟨by rw [howners]; exact h.acct, by rw [howners]; exact h.procs, h.zombie, h.files,
    by rw [howners]; exact h.pipes⟩

omit [KernelImage] in
theorem calm_setNextpid (s : State) (n : ℤ) : Calm s { s with nextpid := n } :=
  ⟨⟨rfl, rfl, fun _ => ⟨rfl, fun _ _ _ _ => rfl⟩, id⟩, rfl⟩

/-- Undoing `allocproc` before there is a page table. -/
theorem freeproc_new (hempty : s.proc np = Proc.empty) (pid : ℤ) {tf : Option ℕ}
    (hfree : ∀ pa, tf = some pa → kfree pa k = .ok ((), k')) (hnone : tf = none → k' = k) :
    freeproc np (s.put np (newProc pid none tf) k) = .ok ((), { s with phys := k' }) := by
  have hstate : (s.put np (newProc pid none tf) k').put np Proc.empty k' = { s with phys := k' } := by
    rw [put_put, State.put, ← hempty, Function.update_eq_self]
  have hrest : (setProc np Proc.clear) (s.put np (newProc pid none tf) k') =
      .ok ((), { s with phys := k' }) := by
    rw [setProc_run, put_proc_self, put_phys, ← hstate]
    rfl
  rw [freeproc, bind_of_ok (getProc_run np _), put_proc_self]
  cases tf with
  | none =>
    rw [hnone rfl] at hrest ⊢
    exact hrest
  | some pa =>
    have hrun : vm (kfree pa) (s.put np (newProc pid none (some pa)) k) =
      .ok ((), s.put np (newProc pid none (some pa)) k') := vm_run (hfree pa rfl)
    change (vm (kfree pa) >>= _) _ = _
    rw [bind_of_ok hrun]
    exact hrest

/-- A process as `allocproc` returns it. -/
structure Fresh (s : State) (np : ProcId) (pid : ℤ) (pt : PageTable) (tf : ℕ) (k' : Phys) :
    Prop where
  unused : s.proc np = Proc.empty
  inv : ∀ held, Inv s held → Inv (s.put np (newProc pid (some pt) (some tf)) k') held
  live : Live (own pt + outside s np tf) (newProc pid (some pt) (some tf)) pt tf
  same : SameOn (owners s) s.phys.mem k'.mem
  empty : ∀ v < UPAGES, (leaf pt v).has PTE_V = false
  oom_mono : s.phys.oom = true → k'.oom = true

theorem Fresh.of_newTable {pid : ℤ} {k₁ : Phys} (hempty : s.proc np = Proc.empty)
    (hstep : Step s.phys k₁ (owners s) (tf ::ₘ owners s)) (htf : tf ∉ owners s)
    (hnew : NewTable (tf ::ₘ owners s) tf k₁ pt k') : Fresh s np pid pt tf k' := by
  have howners : owners s = others s np := by
    rw [owners_eq s np, hempty, procRefs_empty, zero_add]
  have hout : outside s np tf = tf ::ₘ owners s := by rw [outside, howners]
  have hlive : Live (own pt + outside s np tf) (newProc pid (some pt) (some tf)) pt tf := by
    rw [hout]
    have hone : (tf ::ₘ owners s).count tf = 1 := by
      rw [Multiset.count_cons_self, Multiset.count_eq_zero.mpr htf]
    exact ⟨by simp [newProc], rfl, rfl, hnew.space.wf, hnew.sharing.count_eq_one hone.le
      (Multiset.mem_add.mpr (Or.inr (Multiset.mem_cons_self _ _))), Nat.two_pow_pos 64,
      fun v _ hv => hnew.empty v hv, hnew.trapframe, hnew.trampoline⟩
  have hrefs : procRefs (newProc pid (some pt) (some tf)) + others s np =
      own pt + (tf ::ₘ owners s) := by
    rw [hlive.procRefs_eq, ← howners, ← Multiset.singleton_add, add_assoc]
  refine ⟨hempty, fun held h => h.put ?_ ?_ ?_ ?_ (by simp [newProc]), hlive, ?_, hnew.empty,
    fun ho => hnew.oom_mono (hstep.oom_mono ho)⟩
  · rw [hrefs]
    exact hnew.space.acct
  · rw [hrefs, ← hout]
    exact Or.inr (Or.inl ⟨pt, tf, hlive⟩)
  · intro a ha hone
    rw [hrefs]
    refine ((NoNewSharing.cons htf).trans hnew.sharing).count_eq_one hone.le ?_
    rw [← howners] at ha
    exact Multiset.mem_add.mpr (Or.inr (Multiset.mem_cons_of_mem ha))
  · rw [hempty]
    rfl
  · exact hstep.same.trans (hnew.same.mono (Multiset.subset_cons _ _))

theorem allocproc_spec (h : Inv s held) :
    (∃ n k', allocproc s = .ok (none, { s with nextpid := n, phys := k' }) ∧
      Step s.phys k' (owners s) (owners s) ∧
      (k'.oom = true ∨ ∀ q, (s.proc q).state ≠ .unused)) ∨
    ∃ np n pid pt tf k', allocproc s =
        .ok (some np, State.put { s with nextpid := n } np (newProc pid (some pt) (some tf)) k') ∧
      Fresh { s with nextpid := n } np pid pt tf k' := by
  rw [allocproc, bind_of_ok (get_run s)]
  cases hfind : (List.finRange NPROC).find? fun q => decide ((s.proc q).state = .unused) with
  | none =>
    refine Or.inl ⟨s.nextpid, s.phys, rfl, Step.refl h.acct _, Or.inr fun q hq => ?_⟩
    have := List.find?_eq_none.mp hfind q (List.mem_finRange q)
    simp [hq] at this
  | some np =>
    have hempty : s.proc np = Proc.empty :=
      (h.procs np).empty (by simpa using List.find?_some hfind)
    let s₁ : State := { s with nextpid := (s.nextpid + 1).bmod (2 ^ 32) }
    have hempty₁ : s₁.proc np = Proc.empty := hempty
    have hstart : setProc np (fun pr => { pr with pid := s.nextpid, state := .used }) s₁ =
        .ok ((), s₁.put np (newProc s.nextpid none none) s₁.phys) := by
      rw [setProc_run, hempty₁]
      rfl
    dsimp only
    rw [bind_of_ok (rfl : allocpid s = .ok (s.nextpid, s₁)), bind_of_ok hstart]
    rcases kalloc_spec h.acct with ⟨hrun, -⟩ | ⟨tf, k₁, hrun, hstep, htf, -, -, -⟩
    · left
      refine ⟨s₁.nextpid, { s.phys with oom := true }, ?_,
        ⟨h.acct, SameOn.refl _ _, fun _ => rfl⟩, Or.inl rfl⟩
      have hrun' : vm kalloc (s₁.put np (newProc s.nextpid none none) s₁.phys) =
        .ok (none, s₁.put np (newProc s.nextpid none none) { s.phys with oom := true }) :=
        vm_run hrun
      rw [bind_of_ok hrun']
      dsimp only
      rw [bind_of_ok (freeproc_new hempty₁ s.nextpid (by simp) fun _ => rfl)]
      rfl
    have hrun' : vm kalloc (s₁.put np (newProc s.nextpid none none) s₁.phys) =
      .ok (some tf, s₁.put np (newProc s.nextpid none none) k₁) := vm_run hrun
    have hset : setProc np (fun pr => { pr with trapframe := some tf })
        (s₁.put np (newProc s.nextpid none none) k₁) =
          .ok ((), s₁.put np (newProc s.nextpid none (some tf)) k₁) := by
      rw [setProc_run, put_proc_self, put_phys, put_put]
      rfl
    rw [bind_of_ok hrun']
    dsimp only
    rw [bind_of_ok hset]
    obtain ⟨r, k₂, hpt, hnone, hsome⟩ := procPagetable_spec tf hstep.acct
    have hpt' : vm (procPagetable tf) (s₁.put np (newProc s.nextpid none (some tf)) k₁) =
      .ok (r, s₁.put np (newProc s.nextpid none (some tf)) k₂) := vm_run hpt
    rw [bind_of_ok hpt']
    cases r with
    | none =>
      left
      obtain ⟨hstep₂, hoom⟩ := hnone rfl
      obtain ⟨k₃, hfree, hstep₃, hoom₃⟩ := kfree_spec hstep₂.acct
      refine ⟨s₁.nextpid, k₃, ?_, ⟨hstep₃.acct, ?_, fun ho =>
        hstep₃.oom_mono (hstep₂.oom_mono (hstep.oom_mono ho))⟩, Or.inl (hoom₃.trans hoom)⟩
      · dsimp only
        rw [bind_of_ok (freeproc_new hempty₁ s.nextpid
          (by rintro pa ⟨⟩; exact hfree) (by simp))]
        rfl
      · exact (hstep.same.trans (hstep₂.same.mono (Multiset.subset_cons _ _))).trans hstep₃.same
    | some pt =>
      right
      have hnew := hsome pt rfl
      rw [← owners_setNextpid s ((s.nextpid + 1).bmod (2 ^ 32))] at hstep htf hnew
      refine ⟨np, s₁.nextpid, s.nextpid, pt, tf, k₂, ?_, Fresh.of_newTable hempty₁ hstep htf hnew⟩
      dsimp only
      rw [bind_of_ok (setProc_run np _ _), put_proc_self, put_phys, put_put]
      rfl

end

end Xv6.Kernel
