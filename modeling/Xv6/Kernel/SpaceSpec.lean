import Xv6.Kernel.Invariant

/-! # Operations on the memory of one process

Code of vm.c runs on the address space of one process.  Its specifications give
the new table and physical memory; here they become statements about the whole
kernel: the invariant is kept and the other processes see nothing.
-/
namespace Xv6.Kernel
open Library Library.Exec Library.RefCount Vm

theorem slots_congr {proc proc' : ProcId → Proc} (h : ∀ q, (proc' q).ofile = (proc q).ofile)
    (f : FileId) : slots proc' f = slots proc f :=
  Finset.sum_congr rfl fun q _ => by rw [h q]

theorem FilesOk.congr {proc proc' : ProcId → Proc} {ft : FileId → File} {pipe : ℕ → Pipe}
    {held : FileId → ℤ} (h : FilesOk proc ft pipe held)
    (hfile : ∀ q, (proc' q).ofile = (proc q).ofile) : FilesOk proc' ft pipe held :=
  { h with ref_eq := fun f => by rw [slots_congr hfile]; exact h.ref_eq f }

section
variable [KernelImage] {s s₁ s' : State} {held : FileId → ℤ} {p q : ProcId} {pr : Proc} {k' : Phys}

theorem Inv.pagetable_none (h : Inv s held) (hs : (s.proc q).state = .unused) :
    (s.proc q).pagetable = none := by
  rw [(h.procs q).empty hs]
  rfl

theorem Inv.put (h : Inv s held) (hacct : Acct k' (procRefs pr + others s p))
    (hok : ProcOk (procRefs pr + others s p) pr)
    (hone : ∀ a ∈ others s p, (owners s).count a = 1 →
      (procRefs pr + others s p).count a = 1)
    (hfile : pr.ofile = (s.proc p).ofile)
    (hz : pr.state = .zombie → pr.ofile = fun _ => none) : Inv (s.put p pr k') held where
  acct := by
    rw [owners_put]
    exact hacct
  procs := by
    intro q
    rw [owners_put]
    by_cases hq : q = p
    · subst hq
      rw [put_proc_self]
      exact hok
    · rw [put_proc_of_ne hq]
      exact (h.procs q).mono fun a ha => hone a (Multiset.mem_of_le (procRefs_le_others hq) ha)
  zombie := by
    intro q
    by_cases hq : q = p
    · subst hq
      rw [put_proc_self]
      exact hz
    · rw [put_proc_of_ne hq]
      exact h.zombie q
  files := by
    refine h.files.congr fun q => ?_
    by_cases hq : q = p
    · subst hq
      rw [put_proc_self, hfile]
    · rw [put_proc_of_ne hq]
  pipes := by
    intro pi hpi
    rw [owners_put]
    exact hone pi (Multiset.mem_of_le (pipePages_le_others s p) hpi) (h.pipes pi hpi)

theorem Inv.frame_put (h : Inv s held) (hq : q ≠ p) (pr : Proc)
    (hsame : SameOn (others s p) s.phys.mem k'.mem) : Frame s (s.put p pr k') q :=
  Frame.of_sameOn (by rw [put_proc_of_ne hq]) h.pagetable_none
    (hsame.mono (Multiset.subset_of_le (procRefs_le_others hq)))

/-! ## Changing the address space of a process -/

/-- Process `p` with another page table, size and physical memory. -/
def State.setSpace (s : State) (p : ProcId) (pt : PageTable) (sz : ℕ) (k : Phys) : State :=
  s.put p { s.proc p with pagetable := some pt, sz := sz } k

variable {pt pt' : PageTable} {tf sz : ℕ}

theorem owners_setSpace (hl : Live (owners s) (s.proc p) pt tf)
    (hV : (leaf pt' UPAGES).has PTE_V) (sz : ℕ) (k' : Phys) :
    owners (s.setSpace p pt' sz k') = own pt' + outside s p tf := by
  have hrefs : procRefs { s.proc p with pagetable := some pt', sz := sz } = own pt' + {tf} :=
    procRefs_of_table hl.state rfl hl.trapframe hV
  rw [State.setSpace, owners_put, hrefs, outside, ← Multiset.singleton_add, add_assoc]

/-- Code of vm.c leaves the trapframe page mapped. -/
theorem Live.tfValid_evolve {R G : Multiset ℕ} {k : Phys} (hl : Live R pr pt tf)
    (hev : Evolve G pt k pt' k') : (leaf pt' UPAGES).has PTE_V := by
  have hU := UPAGES_eq
  rw [hev.kernel _ le_rfl (by omega)]
  exact hl.tfValid

theorem Live.evolved {G : Multiset ℕ} {k : Phys} (hl : Live (own pt + tf ::ₘ G) pr pt tf)
    (hev : Evolve (tf ::ₘ G) pt k pt' k') (hsz : sz < 2 ^ 64)
    (habove : ∀ v, npages sz ≤ v → v < UPAGES → (leaf pt' v).has PTE_V = false) :
    Live (own pt' + tf ::ₘ G) { pr with pagetable := some pt', sz := sz } pt' tf := by
  have hU := UPAGES_eq
  refine ⟨hl.state, rfl, hl.trapframe, hev.space.wf, ?_, hsz, habove, ?_, ?_⟩
  · refine hev.sharing.count_eq_one hl.single.le (Multiset.mem_add.mpr (Or.inr ?_))
    exact Multiset.mem_cons_self _ _
  · rw [hev.kernel _ le_rfl (by omega), hl.tfLeaf]
  · rw [hev.kernel _ (by omega) (by omega), hl.trampolineLeaf]

theorem Live.evolve (hl : Live (owners s) (s.proc p) pt tf)
    (hev : Evolve (outside s p tf) pt s.phys pt' k') (hsz : sz < 2 ^ 64)
    (habove : ∀ v, npages sz ≤ v → v < UPAGES → (leaf pt' v).has PTE_V = false) :
    Live (owners (s.setSpace p pt' sz k')) ((s.setSpace p pt' sz k').proc p) pt' tf := by
  have hl' := hl
  rw [hl.owners_eq] at hl'
  rw [owners_setSpace hl (hl.tfValid_evolve hev), State.setSpace, put_proc_self]
  exact hl'.evolved hev hsz habove

omit [KernelImage] in
theorem others_le_outside (s : State) (p : ProcId) (tf : ℕ) : others s p ≤ outside s p tf :=
  Multiset.le_cons_self _ _

theorem Inv.evolve (h : Inv s held) (hl : Live (owners s) (s.proc p) pt tf)
    (hev : Evolve (outside s p tf) pt s.phys pt' k') (hsz : sz < 2 ^ 64)
    (habove : ∀ v, npages sz ≤ v → v < UPAGES → (leaf pt' v).has PTE_V = false) :
    Inv (s.setSpace p pt' sz k') held := by
  have hlive := hl.evolve hev hsz habove
  have heq := owners_setSpace hl (hl.tfValid_evolve hev) sz k'
  rw [heq] at hlive
  rw [State.setSpace, owners_put] at heq
  rw [State.setSpace, put_proc_self] at hlive
  refine h.put ?_ ?_ ?_ rfl (h.zombie p)
  · rw [heq]
    exact hev.space.acct
  · rw [heq]
    exact Or.inr (Or.inl ⟨pt', tf, hlive⟩)
  · intro a ha hone
    rw [heq]
    rw [hl.owners_eq] at hone
    refine hev.sharing.count_eq_one hone.le (Multiset.mem_add.mpr (Or.inr ?_))
    exact Multiset.mem_of_le (others_le_outside s p tf) ha

theorem Inv.frame_evolve (h : Inv s held) (hq : q ≠ p)
    (hev : Evolve (outside s p tf) pt s.phys pt' k') (sz : ℕ) :
    Frame s (s.setSpace p pt' sz k') q :=
  h.frame_put hq _ (hev.same.mono (Multiset.subset_of_le (others_le_outside s p tf)))

/-! ## Running code of vm.c -/

omit [KernelImage] in
theorem vm_run {α : Type} {m : VmM α} {a : α} (h : m s.phys = .ok (a, k')) :
    vm m s = .ok (a, { s with phys := k' }) := by
  rw [vm, h]

omit [KernelImage] in
theorem vm_error {α : Type} {m : VmM α} {e : Panic} (h : m s.phys = .error e) :
    vm m s = .error e := by
  rw [vm, h]

omit [KernelImage] in
theorem getProc_run (p : ProcId) (s : State) : getProc p s = .ok (s.proc p, s) := rfl

omit [KernelImage] in
theorem get_run (s : State) : (get : KM State) s = .ok (s, s) := rfl

omit [KernelImage] in
theorem setProc_run (p : ProcId) (f : Proc → Proc) (s : State) :
    setProc p f s = .ok ((), s.put p (f (s.proc p)) s.phys) := rfl

omit [KernelImage] in
theorem onSpace_run {α : Type} {f : PageTable → ℕ → VmM (α × PageTable)} {a : α}
    (hpt : (s.proc p).pagetable = some pt)
    (hrun : f pt (s.proc p).sz s.phys = .ok ((a, pt'), k')) :
    onSpace p f s = .ok (a, s.setSpace p pt' (s.proc p).sz k') := by
  rw [onSpace, bind_of_ok (getProc_run p s), hpt]
  dsimp only
  rw [bind_of_ok (vm_run hrun)]
  rfl

omit [KernelImage] in
theorem onSpace_error {α : Type} {f : PageTable → ℕ → VmM (α × PageTable)} {e : Panic}
    (hpt : (s.proc p).pagetable = some pt) (hrun : f pt (s.proc p).sz s.phys = .error e) :
    onSpace p f s = .error e := by
  rw [onSpace, bind_of_ok (getProc_run p s), hpt]
  exact bind_of_error (vm_error hrun)

/-! ## Reading and writing user memory -/

/-- Process `p` has written `bytes` at address `a`, and perhaps pages of its
memory were allocated or copied. -/
def Accessed (s : State) (p : ProcId) (a : ℕ) (bytes : List UInt8) (s' : State) : Prop :=
  ∃ pt tf pt' k', Live (owners s) (s.proc p) pt tf ∧
    Wrote (outside s p tf) (· < npages (s.proc p).sz) a bytes pt s.phys pt' k' ∧
    s' = s.setSpace p pt' (s.proc p).sz k'

variable {a : ℕ} {bytes : List UInt8}

theorem Live.above_wrote (hl : Live (owners s) (s.proc p) pt tf)
    (hw : Wrote (outside s p tf) (· < npages (s.proc p).sz) a bytes pt s.phys pt' k') (v : ℕ)
    (hv : npages (s.proc p).sz ≤ v) (hlt : v < UPAGES) : (leaf pt' v).has PTE_V = false := by
  by_contra hV
  rcases hw.adds v hlt (by simpa using hV) with hV' | ⟨hlow, -⟩
  · rw [hl.above v hv hlt] at hV'
    cases hV'
  · exact absurd hv (not_le.mpr hlow)

theorem Accessed.inv (h : Inv s held) (ha : Accessed s p a bytes s') : Inv s' held := by
  obtain ⟨pt, tf, pt', k', hl, hw, rfl⟩ := ha
  exact h.evolve hl hw.evolve hl.sz_lt (hl.above_wrote hw)

theorem Accessed.frame (h : Inv s held) (ha : Accessed s p a bytes s') (hq : q ≠ p) :
    Frame s s' q := by
  obtain ⟨pt, tf, pt', k', hl, hw, rfl⟩ := ha
  exact h.frame_evolve hq hw.evolve _

theorem Accessed.oom_mono (ha : Accessed s p a bytes s') (ho : s.phys.oom = true) :
    s'.phys.oom = true := by
  obtain ⟨pt, tf, pt', k', hl, hw, rfl⟩ := ha
  exact hw.evolve.oom_mono ho

omit [KernelImage] in
theorem outside_setSpace (s : State) (p : ProcId) (pt : PageTable) (sz : ℕ) (k : Phys) (tf : ℕ) :
    outside (s.setSpace p pt sz k) p tf = outside s p tf := by
  rw [outside, outside, State.setSpace, others_put]

omit [KernelImage] in
theorem setSpace_setSpace (s : State) (p : ProcId) (pt pt' : PageTable) (sz sz' : ℕ)
    (k k' : Phys) : (s.setSpace p pt sz k).setSpace p pt' sz' k' = s.setSpace p pt' sz' k' := by
  rw [State.setSpace, State.setSpace, put_put, put_proc_self]
  rfl

theorem Accessed.trans {ys : List UInt8} {b : ℕ} (h : Accessed s p a bytes s₁)
    (h' : Accessed s₁ p b ys s') (hb : ys ≠ [] → b = a + bytes.length) :
    Accessed s p a (bytes ++ ys) s' := by
  obtain ⟨pt, tf, pt₁, k₁, hl, hw, rfl⟩ := h
  obtain ⟨pt₁', tf', pt', k', hl', hw', rfl⟩ := h'
  have hpt : pt₁ = pt₁' := by
    have := hl'.pagetable
    rw [State.setSpace, put_proc_self] at this
    exact Option.some.inj this
  have htf : tf = tf' := by
    have := hl'.trapframe
    rw [State.setSpace, put_proc_self, hl.trapframe] at this
    exact Option.some.inj this
  subst hpt htf
  have hsz : ((s.setSpace p pt₁ (s.proc p).sz k₁).proc p).sz = (s.proc p).sz := by
    rw [State.setSpace, put_proc_self]
  rw [outside_setSpace, hsz] at hw'
  rw [hsz, setSpace_setSpace]
  exact ⟨pt, tf, pt', k', hl, hw.trans hw' hb, rfl⟩

theorem Accessed.refl (h : Inv s held) (hl : Live (owners s) (s.proc p) pt tf) (a : ℕ) :
    Accessed s p a [] s := by
  refine ⟨pt, tf, pt, s.phys, hl, (Quiet.refl (h.space hl) _).wrote a, ?_⟩
  rw [State.setSpace, ← hl.pagetable, put_self]

/-- What the program notices of writing `bytes` at address `a`. -/
structure Patched (s s' : State) (p : ProcId) (a : ℕ) (bytes : List UInt8) : Prop where
  rest_eq : (s'.proc p).rest = (s.proc p).rest
  sz_eq : (s'.proc p).sz = (s.proc p).sz
  byte_eq : ∀ v < UPAGES, ∀ i < PGSIZE, byteOf s' p v i = patch (byteOf s p) a bytes v i
  keeps : ∀ v < UPAGES, (pteOf s p v).has PTE_V →
    (pteOf s' p v).has PTE_V ∧ rights (pteOf s' p v) = rights (pteOf s p v)
  adds : ∀ v < UPAGES, (pteOf s' p v).has PTE_V →
    (pteOf s p v).has PTE_V ∨ v < npages (s.proc p).sz ∧ rights (pteOf s' p v) = lazyRights
  through : ∀ j < bytes.length, (a + j) / PGSIZE < UPAGES ∧
    (pteOf s' p ((a + j) / PGSIZE)).has PTE_V ∧
    (rights (pteOf s' p ((a + j) / PGSIZE))).writable = true

theorem Accessed.patched (ha : Accessed s p a bytes s') : Patched s s' p a bytes := by
  obtain ⟨pt, tf, pt', k', hl, hw, rfl⟩ := ha
  have hproc : (s.setSpace p pt' (s.proc p).sz k').proc p = { s.proc p with pagetable := some pt' } :=
    put_proc_self
  have hpt' : ((s.setSpace p pt' (s.proc p).sz k').proc p).pagetable = some pt' := by rw [hproc]
  have hold (v : ℕ) : pteOf s p v = leaf pt v := pteOf_eq hl.pagetable v
  have hnew (v : ℕ) : pteOf (s.setSpace p pt' (s.proc p).sz k') p v = leaf pt' v := pteOf_eq hpt' v
  refine ⟨by rw [hproc]; rfl, by rw [hproc], ?_, ?_, ?_, ?_⟩
  · intro v hv i hi
    have hview : byteOf s p = view pt s.phys.mem := by
      funext v i
      exact byteOf_eq hl.pagetable v i
    rw [byteOf_eq hpt', hview]
    exact hw.view_eq v hv i hi
  · simpa only [hold, hnew] using hw.keeps
  · simpa only [hold, hnew] using hw.adds
  · simpa only [hold, hnew] using hw.through

omit [KernelImage] in
/-- Nothing is written to a page without write permission. -/
theorem Patched.readonly (h : Patched s s' p a bytes) (v : ℕ) (hv : v < UPAGES)
    (hV : (pteOf s p v).has PTE_V) (hro : (rights (pteOf s p v)).writable = false) (i : ℕ)
    (hi : i < PGSIZE) : byteOf s' p v i = byteOf s p v i := by
  rw [h.byte_eq v hv i hi, patch]
  refine if_neg ?_
  rintro ⟨hlo, hhi⟩
  obtain ⟨-, -, hw⟩ := h.through (v * PGSIZE + i - a) (by omega)
  have hdiv : (a + (v * PGSIZE + i - a)) / PGSIZE = v := by
    rw [Nat.add_sub_cancel' hlo, Nat.mul_comm, Nat.mul_add_div (by decide), Nat.div_eq_of_lt hi,
      Nat.add_zero]
  rw [hdiv, (h.keeps v hv hV).2, hro] at hw
  cases hw

end

end Xv6.Kernel
