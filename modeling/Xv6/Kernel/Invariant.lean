import Xv6.Kernel.Syscall
import Xv6.Vm.ExecSpec
import Xv6.Vm.ShareSpec

/-! # The invariant of the kernel

Who owns which physical page, what every process looks like, and how the file
table counts open files.  The invariant holds between operations; inside one,
some references to open files are in the hands of the code, and `held` says how
many.
-/
namespace Xv6.Kernel
open Library Library.Exec Library.RefCount Vm

/-! ## Owners of pages -/

/-- The trapframe page of a process is its own as long as it is mapped: a process that
shrinks its memory from a size above `TRAPFRAME` has freed it. -/
def ownsTrapframe (pr : Proc) : Bool :=
  pr.pagetable.elim true fun pt => (leaf pt UPAGES).has PTE_V

/-- The pages that an entry of the process table owns. -/
def procRefs (pr : Proc) : Multiset ℕ :=
  if pr.state = .unused then 0
  else pr.pagetable.elim 0 own + if ownsTrapframe pr then pr.trapframe.elim 0 ({·}) else 0

def pipePages (ft : FileId → File) : Finset ℕ :=
  (Finset.univ.filter fun f => (ft f).type = .pipe).image fun f => (ft f).pipe

/-- Every owner of a page: the kernel since boot, processes and pipes. -/
@[irreducible] def owners (s : State) : Multiset ℕ :=
  s.bootPages + ∑ p, procRefs (s.proc p) + (pipePages s.ftable).val

/-- All owners but the process `p`. -/
@[irreducible] def others (s : State) (p : ProcId) : Multiset ℕ :=
  s.bootPages + ∑ q ∈ Finset.univ.erase p, procRefs (s.proc q) + (pipePages s.ftable).val

/-- All owners but the processes `p` and `q`. -/
@[irreducible] def others₂ (s : State) (p q : ProcId) : Multiset ℕ :=
  s.bootPages + ∑ r ∈ (Finset.univ.erase p).erase q, procRefs (s.proc r) + (pipePages s.ftable).val

def State.put (s : State) (p : ProcId) (pr : Proc) (k : Phys) : State :=
  { s with phys := k, proc := Function.update s.proc p pr }

section
variable {s s' : State} {p q : ProcId} {pr : Proc} {k : Phys}

@[simp] theorem put_phys : (s.put p pr k).phys = k := rfl

@[simp] theorem put_proc_self : (s.put p pr k).proc p = pr := Function.update_self ..

theorem put_proc_of_ne (h : q ≠ p) : (s.put p pr k).proc q = s.proc q := Function.update_of_ne h ..

@[simp] theorem put_initproc : (s.put p pr k).initproc = s.initproc := rfl

theorem put_put (pr₁ : Proc) (k₁ : Phys) : (s.put p pr₁ k₁).put p pr k = s.put p pr k := by
  simp [State.put]

theorem put_self (s : State) (p : ProcId) : s.put p (s.proc p) s.phys = s := by
  simp [State.put]

theorem owners_congr (hboot : s'.bootPages = s.bootPages)
    (hproc : ∀ q, procRefs (s'.proc q) = procRefs (s.proc q))
    (hpipe : pipePages s'.ftable = pipePages s.ftable) : owners s' = owners s := by
  unfold owners
  rw [hboot, hpipe, Finset.sum_congr rfl fun q _ => hproc q]

theorem owners_eq (s : State) (p : ProcId) : owners s = procRefs (s.proc p) + others s p := by
  unfold owners others
  rw [← Finset.add_sum_erase _ _ (Finset.mem_univ p)]
  abel

theorem others_put (s : State) (p : ProcId) (pr : Proc) (k : Phys) :
    others (s.put p pr k) p = others s p := by
  unfold others
  congr 2
  exact Finset.sum_congr rfl fun q hq => by rw [put_proc_of_ne (Finset.ne_of_mem_erase hq)]

theorem owners_put (s : State) (p : ProcId) (pr : Proc) (k : Phys) :
    owners (s.put p pr k) = procRefs pr + others s p := by
  rw [owners_eq _ p, others_put, put_proc_self]

theorem procRefs_le_others (h : q ≠ p) : procRefs (s.proc q) ≤ others s p := by
  unfold others
  have hsum := Finset.single_le_sum (f := fun q => procRefs (s.proc q))
    (fun _ _ => Multiset.zero_le _) (Finset.mem_erase.mpr ⟨h, Finset.mem_univ q⟩)
  exact hsum.trans ((Multiset.le_add_left _ _).trans (Multiset.le_add_right _ _))

theorem procRefs_le_owners (s : State) (p : ProcId) : procRefs (s.proc p) ≤ owners s := by
  rw [owners_eq s p]
  exact Multiset.le_add_right _ _

theorem others_le_owners (s : State) (p : ProcId) : others s p ≤ owners s := by
  rw [owners_eq s p]
  exact Multiset.le_add_left _ _

theorem pipePages_le_others (s : State) (p : ProcId) : (pipePages s.ftable).val ≤ others s p := by
  unfold others
  exact Multiset.le_add_left _ _

theorem others_eq (h : q ≠ p) : others s p = procRefs (s.proc q) + others₂ s p q := by
  unfold others others₂
  rw [← Finset.add_sum_erase _ _ (Finset.mem_erase.mpr ⟨h, Finset.mem_univ q⟩)]
  abel

theorem procRefs_le_others₂ {r : ProcId} (hp : r ≠ p) (hq : r ≠ q) :
    procRefs (s.proc r) ≤ others₂ s p q := by
  unfold others₂
  have hsum := Finset.single_le_sum (f := fun q => procRefs (s.proc q))
    (fun _ _ => Multiset.zero_le _)
    (Finset.mem_erase.mpr ⟨hq, Finset.mem_erase.mpr ⟨hp, Finset.mem_univ r⟩⟩)
  exact hsum.trans ((Multiset.le_add_left _ _).trans (Multiset.le_add_right _ _))

theorem pipePages_le_others₂ (s : State) (p q : ProcId) :
    (pipePages s.ftable).val ≤ others₂ s p q := by
  unfold others₂
  exact Multiset.le_add_left _ _

/-- The owners after two entries of the process table have changed. -/
theorem owners_put₂ (h : q ≠ p) (prq : Proc) :
    owners ((s.put p pr k).put q prq k) = procRefs pr + (procRefs prq + others₂ s p q) := by
  have hmid : others (s.put p pr k) q = procRefs pr + others₂ s p q := by
    have h1 := owners_put s p pr k
    rw [others_eq h, owners_eq _ q, put_proc_of_ne h, add_left_comm] at h1
    exact add_left_cancel h1
  rw [owners_put, hmid, add_left_comm]

end

/-! ## Processes -/

section
variable [KernelImage]

/-- A process with page table `pt` and trapframe page `tf`, when `R` are all
owners of pages. -/
structure Live (R : Multiset ℕ) (pr : Proc) (pt : PageTable) (tf : ℕ) : Prop where
  state : pr.state ≠ .unused
  pagetable : pr.pagetable = some pt
  trapframe : pr.trapframe = some tf
  wf : Wf pt R
  single : R.count tf = 1
  sz_lt : pr.sz < 2 ^ 64
  above : ∀ v, npages pr.sz ≤ v → v < UPAGES → (leaf pt v).has PTE_V = false
  tfLeaf : leaf pt UPAGES = mapPte tf (PTE_R ||| PTE_W)
  trampolineLeaf : leaf pt (UPAGES + 1) = mapPte trampoline (PTE_R ||| PTE_X)

/-- A process whose trapframe page is no longer mapped.  It never runs again. -/
structure Stuck (R : Multiset ℕ) (pr : Proc) (pt : PageTable) : Prop where
  state : pr.state ∉ [.unused, .used, .zombie]
  pagetable : pr.pagetable = some pt
  wf : Wf pt R
  above : ∀ v, npages pr.sz ≤ v → v < UPAGES → (leaf pt v).has PTE_V = false
  gone : (leaf pt UPAGES).has PTE_V = false
  sz_le : pr.sz ≤ TRAPFRAME
  trampolineLeaf : leaf pt (UPAGES + 1) = mapPte trampoline (PTE_R ||| PTE_X)

/-- Every entry of the process table is empty or a process. -/
def ProcOk (R : Multiset ℕ) (pr : Proc) : Prop :=
  pr = Proc.empty ∨ (∃ pt tf, Live R pr pt tf) ∨ ∃ pt, Stuck R pr pt

/-- A process that has its trapframe page. -/
def Whole (pr : Proc) : Prop :=
  pr.state ≠ .unused ∧ (pr.state = .used ∨ pr.state = .zombie ∨
    ∃ pt, pr.pagetable = some pt ∧ (leaf pt UPAGES).has PTE_V)

variable {R R' : Multiset ℕ} {pr : Proc} {pt : PageTable} {tf : ℕ}

theorem Live.tfValid (h : Live R pr pt tf) : (leaf pt UPAGES).has PTE_V := by
  rw [h.tfLeaf]
  exact mapPte_flags.1

theorem Live.kernelPages (h : Live R pr pt tf) : KernelPages pt :=
  kernelPages_of_leaves h.tfLeaf h.trampolineLeaf

theorem Live.whole (h : Live R pr pt tf) : Whole pr :=
  ⟨h.state, Or.inr (Or.inr ⟨pt, h.pagetable, h.tfValid⟩)⟩

omit [KernelImage] in
theorem whole_used (h : pr.state = .used) : Whole pr := ⟨by simp [h], Or.inl h⟩

omit [KernelImage] in
theorem whole_zombie (h : pr.state = .zombie) : Whole pr := ⟨by simp [h], Or.inr (Or.inl h)⟩

omit [KernelImage] in
theorem procRefs_of_table (hs : pr.state ≠ .unused) (hpt : pr.pagetable = some pt)
    (htf : pr.trapframe = some tf) (hV : (leaf pt UPAGES).has PTE_V) :
    procRefs pr = own pt + {tf} := by
  rw [procRefs, if_neg hs, ownsTrapframe, hpt, htf, Option.elim_some, Option.elim_some,
    Option.elim_some, if_pos hV]

theorem Live.procRefs_eq (h : Live R pr pt tf) : procRefs pr = own pt + {tf} :=
  procRefs_of_table h.state h.pagetable h.trapframe h.tfValid

theorem Stuck.procRefs_eq (h : Stuck R pr pt) : procRefs pr = own pt := by
  have hs : pr.state ≠ .unused := fun hs => h.state (by simp [hs])
  rw [procRefs, if_neg hs, ownsTrapframe, h.pagetable, Option.elim_some, Option.elim_some,
    h.gone, if_neg (by simp), add_zero]

omit [KernelImage] in
theorem procRefs_empty : procRefs Proc.empty = 0 := rfl

/-- Other owners may change as long as pages with one owner keep one. -/
theorem Live.mono (h : Live R pr pt tf)
    (hone : ∀ a ∈ own pt + {tf}, R.count a = 1 → R'.count a = 1) : Live R' pr pt tf :=
  { h with
    wf := h.wf.mono fun a ha => hone a (Multiset.mem_add.mpr (Or.inl ha))
    single := hone tf (by simp) h.single }

theorem ProcOk.mono (h : ProcOk R pr) (hone : ∀ a ∈ procRefs pr, R.count a = 1 → R'.count a = 1) :
    ProcOk R' pr := by
  rcases h with h | ⟨pt, tf, h⟩ | ⟨pt, h⟩
  · exact Or.inl h
  · rw [h.procRefs_eq] at hone
    exact Or.inr (Or.inl ⟨pt, tf, h.mono hone⟩)
  · rw [h.procRefs_eq] at hone
    exact Or.inr (Or.inr ⟨pt, { h with wf := h.wf.mono hone }⟩)

theorem ProcOk.live (h : ProcOk R pr) (hw : Whole pr) : ∃ pt tf, Live R pr pt tf := by
  obtain ⟨hs, hw⟩ := hw
  rcases h with rfl | h | ⟨pt, h⟩
  · exact absurd rfl hs
  · exact h
  · rcases hw with hu | hz | ⟨pt', hpt, hV⟩
    · exact absurd (by simp [hu]) h.state
    · exact absurd (by simp [hz]) h.state
    · rw [h.pagetable] at hpt
      cases hpt
      rw [h.gone] at hV
      cases hV

theorem ProcOk.empty (h : ProcOk R pr) (hs : pr.state = .unused) : pr = Proc.empty := by
  rcases h with h | ⟨pt, tf, h⟩ | ⟨pt, h⟩
  · exact h
  · exact absurd hs h.state
  · exact absurd (by simp [hs]) h.state

end

/-! ## Open files -/

/-- How many descriptors in one table refer to file `f`. -/
def fileCount (ofile : Fin NOFILE → Option FileId) (f : FileId) : ℤ :=
  ∑ fd, if ofile fd = some f then 1 else 0

/-- How many descriptors of all processes refer to file `f`. -/
def slots (proc : ProcId → Proc) (f : FileId) : ℤ := ∑ p, fileCount (proc p).ofile f

/-- File `f` is the open end of the pipe at `pi` for writing or for reading. -/
structure IsEnd (ft : FileId → File) (f : FileId) (pi : ℕ) (w : Bool) : Prop where
  type : (ft f).type = .pipe
  pipe : (ft f).pipe = pi
  writable : (ft f).writable = w

def Pipe.isOpen (pipe : Pipe) (w : Bool) : Bool := if w then pipe.writeopen else pipe.readopen

/-- The file table counts the descriptors, plus `held` further references, and
a pipe knows which of its ends are open. -/
structure FilesOk (proc : ProcId → Proc) (ft : FileId → File) (pipe : ℕ → Pipe)
    (held : FileId → ℤ) : Prop where
  ref_eq : ∀ f, (ft f).ref = slots proc f + held f
  closed : ∀ f, (ft f).ref = 0 → (ft f).type = .none
  ends : ∀ pi ∈ pipePages ft, ∀ w, (pipe pi).isOpen w = true ↔ ∃ f, IsEnd ft f pi w
  unique : ∀ f g pi w, IsEnd ft f pi w → IsEnd ft g pi w → f = g

section
variable [KernelImage]

structure Inv (s : State) (held : FileId → ℤ) : Prop where
  acct : Acct s.phys (owners s)
  procs : ∀ p, ProcOk (owners s) (s.proc p)
  zombie : ∀ p, (s.proc p).state = .zombie → (s.proc p).ofile = fun _ => none
  files : FilesOk s.proc s.ftable s.pipe held
  pipes : ∀ pi ∈ pipePages s.ftable, (owners s).count pi = 1

variable {s s' : State} {held : FileId → ℤ} {p q : ProcId} {pt pt' : PageTable} {tf : ℕ}
  {pr : Proc} {k' : Phys}

/-- What the rest of the kernel owns from the point of view of the address
space of `p`. -/
def outside (s : State) (p : ProcId) (tf : ℕ) : Multiset ℕ := tf ::ₘ others s p

theorem Live.owners_eq (h : Live R (s.proc p) pt tf) :
    owners s = own pt + outside s p tf := by
  rw [Kernel.owners_eq s p, h.procRefs_eq, outside, ← Multiset.singleton_add, add_assoc]

theorem Inv.live (h : Inv s held) (hw : Whole (s.proc p)) :
    ∃ pt tf, Live (owners s) (s.proc p) pt tf := (h.procs p).live hw

theorem Inv.pageAddr_tf (h : Inv s held) (hl : Live (owners s) (s.proc p) pt tf) : PageAddr tf := by
  refine h.acct.valid_of_mem tf (Multiset.count_pos.mp ?_)
  rw [hl.single]
  exact Nat.one_pos

theorem Inv.pte2pa_tf (h : Inv s held) (hl : Live (owners s) (s.proc p) pt tf) :
    pte2pa (leaf pt UPAGES) = tf := by
  have hpa := h.pageAddr_tf hl
  rw [hl.tfLeaf]
  exact pte2pa_mapPte hpa.1 hpa.lt
    ((flagsOnly_one_shift (by omega)).or (flagsOnly_one_shift (by omega)))

theorem Inv.space (h : Inv s held) (hl : Live (owners s) (s.proc p) pt tf) :
    UserSpace pt s.phys (outside s p tf) := by
  have heq := hl.owners_eq
  have hacct := h.acct
  have hwf := hl.wf
  rw [heq] at hacct hwf
  exact ⟨hacct, hwf⟩

end

/-! ## What processes see -/

/-- The entry for page `v` in the page table of `p`. -/
def pteOf (s : State) (p : ProcId) (v : ℕ) : Pte := (s.proc p).pagetable.elim 0 fun pt => leaf pt v

/-- Byte `i` of page `v` in the memory of `p`. -/
def byteOf (s : State) (p : ProcId) (v i : ℕ) : UInt8 :=
  if (pteOf s p v).has PTE_V then s.phys.mem (pte2pa (pteOf s p v) + i) else 0

def Proc.core (pr : Proc) : Proc := { pr with parent := none, ofile := fun _ => none }

/-- The fields of a process that neither its memory nor other processes
concern. -/
def Proc.rest (pr : Proc) : Proc := { pr.core with pagetable := none, sz := 0 }

/-- The process `q` and its memory are as before. -/
structure Frame (s s' : State) (q : ProcId) : Prop where
  core_eq : (s'.proc q).core = (s.proc q).core
  byte_eq : ∀ v < UPAGES, ∀ i < PGSIZE, byteOf s' q v i = byteOf s q v i

section
variable {s s₁ s' : State} {q : ProcId} {pt : PageTable}

theorem pteOf_eq (h : (s.proc q).pagetable = some pt) (v : ℕ) : pteOf s q v = leaf pt v := by
  rw [pteOf, h, Option.elim_some]

theorem byteOf_eq (h : (s.proc q).pagetable = some pt) (v i : ℕ) :
    byteOf s q v i = view pt s.phys.mem v i := by
  rw [byteOf, pteOf_eq h, view]

theorem Frame.refl (s : State) (q : ProcId) : Frame s s q := ⟨rfl, fun _ _ _ _ => rfl⟩

theorem Frame.trans (h : Frame s s₁ q) (h' : Frame s₁ s' q) : Frame s s' q :=
  ⟨h'.core_eq.trans h.core_eq, fun v hv i hi => (h'.byte_eq v hv i hi).trans (h.byte_eq v hv i hi)⟩

theorem Frame.pagetable_eq (h : Frame s s' q) : (s'.proc q).pagetable = (s.proc q).pagetable :=
  (congrArg Proc.pagetable h.core_eq :)

theorem Frame.sz_eq (h : Frame s s' q) : (s'.proc q).sz = (s.proc q).sz :=
  (congrArg Proc.sz h.core_eq :)

theorem Frame.state_eq (h : Frame s s' q) : (s'.proc q).state = (s.proc q).state :=
  (congrArg Proc.state h.core_eq :)

theorem Frame.pte_eq (h : Frame s s' q) (v : ℕ) : pteOf s' q v = pteOf s q v := by
  rw [pteOf, pteOf, h.pagetable_eq]

theorem Frame.whole (h : Frame s s' q) (hw : Whole (s.proc q)) : Whole (s'.proc q) := by
  rw [Whole, h.state_eq, h.pagetable_eq]
  exact hw

variable [KernelImage]

/-- Memory that agrees on the pages of `q` looks the same to `q`. -/
theorem Frame.of_sameOn (hcore : (s'.proc q).core = (s.proc q).core)
    (hstate : (s.proc q).state = .unused → (s.proc q).pagetable = none)
    (hsame : SameOn (procRefs (s.proc q)) s.phys.mem s'.phys.mem) : Frame s s' q := by
  refine ⟨hcore, fun v hv i hi => ?_⟩
  have hpt' : (s'.proc q).pagetable = (s.proc q).pagetable := (congrArg Proc.pagetable hcore :)
  cases hpt : (s.proc q).pagetable with
  | none => rw [byteOf, byteOf, pteOf, pteOf, hpt', hpt, Option.elim_none, has_zero]; rfl
  | some pt =>
    rw [byteOf_eq (hpt'.trans hpt), byteOf_eq hpt]
    refine view_of_sameOn rfl hsame (fun hV => ?_) hi
    have hused : (s.proc q).state ≠ .unused := by
      intro hs
      rw [hstate hs] at hpt
      cases hpt
    rw [procRefs, if_neg hused, hpt, Option.elim_some]
    exact Multiset.mem_add.mpr (Or.inl (mem_own hv hV))

end

/-- The memory of `q` in `s'` looks as that of `p` did in `s`. -/
structure SameSpace (s s' : State) (p q : ProcId) : Prop where
  sz_eq : (s'.proc q).sz = (s.proc p).sz
  valid : ∀ v < UPAGES, (pteOf s' q v).has PTE_V = (pteOf s p v).has PTE_V
  rights_eq : ∀ v < UPAGES, (pteOf s p v).has PTE_V → rights (pteOf s' q v) = rights (pteOf s p v)
  byte_eq : ∀ v < UPAGES, ∀ i < PGSIZE, byteOf s' q v i = byteOf s p v i

section
variable {s s₁ s' : State} {p q np : ProcId}

theorem Frame.sameSpace (h : Frame s s' q) : SameSpace s s' q q :=
  ⟨h.sz_eq, fun v _ => by rw [h.pte_eq], fun v _ _ => by rw [h.pte_eq], h.byte_eq⟩

theorem SameSpace.trans {r : ProcId} (h : SameSpace s s₁ p q) (h' : SameSpace s₁ s' q r) :
    SameSpace s s' p r where
  sz_eq := h'.sz_eq.trans h.sz_eq
  valid := fun v hv => (h'.valid v hv).trans (h.valid v hv)
  rights_eq := fun v hv hV =>
    (h'.rights_eq v hv ((h.valid v hv).trans hV)).trans (h.rights_eq v hv hV)
  byte_eq := fun v hv i hi => (h'.byte_eq v hv i hi).trans (h.byte_eq v hv i hi)

variable [KernelImage]

/-- A table that maps the same pages with the same rights. -/
theorem SameSpace.of_tables {t t' : PageTable} (hpt : (s.proc p).pagetable = some t)
    (hpt' : (s'.proc q).pagetable = some t') (hsz : (s'.proc q).sz = (s.proc p).sz)
    (hmap : ∀ v < UPAGES, (leaf t' v).has PTE_V = (leaf t v).has PTE_V ∧ ((leaf t v).has PTE_V →
      pte2pa (leaf t' v) = pte2pa (leaf t v) ∧ rights (leaf t' v) = rights (leaf t v)))
    (hmem : SameOn (own t) s.phys.mem s'.phys.mem) : SameSpace s s' p q := by
  refine ⟨hsz, fun v hv => ?_, fun v hv hV => ?_, fun v hv i hi => ?_⟩
  · rw [pteOf_eq hpt, pteOf_eq hpt']
    exact (hmap v hv).1
  · rw [pteOf_eq hpt] at hV ⊢
    rw [pteOf_eq hpt']
    exact ((hmap v hv).2 hV).2
  · rw [byteOf_eq hpt, byteOf_eq hpt']
    unfold view
    rw [(hmap v hv).1]
    split
    · next hV =>
      rw [((hmap v hv).2 hV).1]
      exact hmem.page _ (mem_own hv hV) i hi
    · rfl

end

end Xv6.Kernel
