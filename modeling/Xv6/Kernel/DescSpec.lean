import Xv6.Kernel.AccessSpec
import Xv6.Kernel.FileSpec
import Xv6.Vm.StringSpec

/-! # System calls on file descriptors

`close`, `dup`, `pipe` and `open` keep the invariant on every path, and the caller's
memory keeps its rights.
-/
namespace Xv6.Kernel
open Library Library.Exec Library.RefCount Vm

section
variable [KernelImage] {s s₁ s' : State} {held : FileId → ℤ} {p q : ProcId} {pt : PageTable}
  {tf : ℕ} {R : Multiset ℕ}

/-- The process is still one when only its files and its parent have changed. -/
theorem Inv.live_again (h' : Inv s' held) (hl : Live R (s.proc p) pt tf)
    (hcore : (s'.proc p).core = (s.proc p).core) : Live (owners s') (s'.proc p) pt tf := by
  have hstate : (s'.proc p).state = (s.proc p).state := (congrArg Proc.state hcore :)
  have hpt : (s'.proc p).pagetable = (s.proc p).pagetable := (congrArg Proc.pagetable hcore :)
  have htf : (s'.proc p).trapframe = (s.proc p).trapframe := (congrArg Proc.trapframe hcore :)
  rw [hl.pagetable] at hpt
  rw [hl.trapframe] at htf
  have hw : Whole (s'.proc p) := ⟨hstate ▸ hl.state, Or.inr (Or.inr ⟨pt, hpt, hl.tfValid⟩)⟩
  obtain ⟨pt', tf', hl'⟩ := h'.live hw
  have hpt' := hl'.pagetable
  have htf' := hl'.trapframe
  rw [hpt] at hpt'
  rw [htf] at htf'
  cases hpt'
  cases htf'
  exact hl'

theorem Accessed.live {a : ℕ} {bytes : List UInt8} (ha : Accessed s p a bytes s') :
    ∃ pt' tf', Live (owners s') (s'.proc p) pt' tf' := by
  obtain ⟨pt, tf, pt', k', hl, hw, rfl⟩ := ha
  exact ⟨pt', tf, hl.evolve hw.evolve hl.sz_lt (hl.above_wrote hw)⟩

/-- What a system call that reads or writes the memory of `p` leaves as it was. -/
structure Retained (s s' : State) (p : ProcId) : Prop where
  initproc_eq : s'.initproc = s.initproc
  rest_eq : (s'.proc p).rest = (s.proc p).rest
  sz_eq : (s'.proc p).sz = (s.proc p).sz
  keeps : ∀ v < UPAGES, (pteOf s p v).has PTE_V →
    (pteOf s' p v).has PTE_V ∧ rights (pteOf s' p v) = rights (pteOf s p v)
  adds : ∀ v < UPAGES, (pteOf s' p v).has PTE_V →
    (pteOf s p v).has PTE_V ∨ v < npages (s.proc p).sz ∧ rights (pteOf s' p v) = lazyRights
  readonly : ∀ v < UPAGES, (pteOf s p v).has PTE_V → (rights (pteOf s p v)).writable = false →
    ∀ i < PGSIZE, byteOf s' p v i = byteOf s p v i
  whole : Whole (s.proc p) → Whole (s'.proc p)
  frame : ∀ q, q ≠ p → Frame s s' q
  oom_mono : s.phys.oom = true → s'.phys.oom = true

omit [KernelImage] in
theorem Still.retained (h : Still s s') (p : ProcId) : Retained s s' p where
  initproc_eq := h.initproc_eq
  rest_eq := by rw [Proc.rest, Proc.rest, (h.frame p).core_eq]
  sz_eq := (h.frame p).sz_eq
  keeps := fun v _ hV => by rw [(h.frame p).pte_eq]; exact ⟨hV, rfl⟩
  adds := fun v _ hV => by rw [(h.frame p).pte_eq] at hV; exact Or.inl hV
  readonly := fun v hv _ _ => (h.frame p).byte_eq v hv
  whole := (h.frame p).whole
  frame := fun q _ => h.frame q
  oom_mono := h.oom_mono

theorem Accessed.retained {a : ℕ} {bytes : List UInt8} (h : Inv s held)
    (ha : Accessed s p a bytes s') : Retained s s' p := by
  have hp := ha.patched
  obtain ⟨pt₁, tf₁, hl₁⟩ := ha.live
  refine ⟨?_, hp.rest_eq, hp.sz_eq, hp.keeps, hp.adds, hp.readonly, fun _ => hl₁.whole,
    fun q hq => ha.frame h hq, ha.oom_mono⟩
  obtain ⟨pt, tf, pt', k', -, -, rfl⟩ := ha
  rfl

omit [KernelImage] in
theorem Retained.trans (h : Retained s s₁ p) (h' : Retained s₁ s' p) : Retained s s' p where
  initproc_eq := h'.initproc_eq.trans h.initproc_eq
  rest_eq := h'.rest_eq.trans h.rest_eq
  sz_eq := h'.sz_eq.trans h.sz_eq
  keeps := by
    intro v hv hV
    obtain ⟨hV₁, hr₁⟩ := h.keeps v hv hV
    obtain ⟨hV', hr'⟩ := h'.keeps v hv hV₁
    exact ⟨hV', hr'.trans hr₁⟩
  adds := by
    intro v hv hV'
    rcases h'.adds v hv hV' with hV₁ | ⟨hlt, hr'⟩
    · have hr' := (h'.keeps v hv hV₁).2
      exact (h.adds v hv hV₁).imp id fun hr₁ => ⟨hr₁.1, hr'.trans hr₁.2⟩
    · exact Or.inr ⟨h.sz_eq ▸ hlt, hr'⟩
  readonly := by
    intro v hv hV hro i hi
    obtain ⟨hV₁, hr₁⟩ := h.keeps v hv hV
    rw [h'.readonly v hv hV₁ (hr₁ ▸ hro) i hi, h.readonly v hv hV hro i hi]
  whole := fun hw => h'.whole (h.whole hw)
  frame := fun q hq => (h.frame q hq).trans (h'.frame q hq)
  oom_mono := fun ho => h'.oom_mono (h.oom_mono ho)

/-! ## close and dup -/

theorem Inv.one_le_ref_of_slot (h : Inv s 0) {f : FileId} {fd : Fin NOFILE}
    (hfd : (s.proc p).ofile fd = some f) : 1 ≤ (s.ftable f).ref := by
  rw [h.files.ref_eq f]
  simpa using one_le_slots hfd

theorem sysClose_spec (h : Inv s 0) (hl : Live (owners s) (s.proc p) pt tf) (fd : Fin NOFILE) :
    ∃ r s', sysClose p fd s = .ok (r, s') ∧ Inv s' 0 ∧ Still s s' := by
  rw [sysClose, bind_of_ok (getProc_run p s)]
  cases hfd : (s.proc p).ofile fd with
  | none => exact ⟨-1, s, rfl, h, Still.refl s⟩
  | some f =>
    have hinv := h.setSlot hl fd none (fun _ => rfl)
    rw [hfd, refOf_some, refOf_none, zero_add, sub_zero] at hinv
    have hset : setProc p (fun pr => { pr with ofile := Function.update pr.ofile fd none }) s =
        .ok ((), s.setSlot p fd none) := rfl
    obtain ⟨s', hrun, hinv', hcalm⟩ := fileclose_spec hinv (h.one_le_ref_of_slot hfd)
    rw [sub_self] at hinv'
    refine ⟨0, s', ?_, hinv', (still_setSlot s p fd none).trans hcalm.toStill⟩
    dsimp only
    rw [bind_of_ok hset, bind_of_ok hrun]
    rfl

theorem sysDup_spec (h : Inv s 0) (hl : Live (owners s) (s.proc p) pt tf)
    (hz : (s.proc p).state ≠ .zombie) (fd : Fin NOFILE) :
    ∃ r s', sysDup p fd s = .ok (r, s') ∧ Inv s' 0 ∧ Still s s' := by
  rw [sysDup, bind_of_ok (getProc_run p s)]
  cases hfd : (s.proc p).ofile fd with
  | none => exact ⟨-1, s, rfl, h, Still.refl s⟩
  | some f =>
    dsimp only
    rcases fdalloc_spec h hl hz f with hrun | ⟨fd', hrun, -, hinv⟩
    · exact ⟨-1, s, by rw [bind_of_ok hrun]; rfl, h, Still.refl s⟩
    · obtain ⟨s', hrun', hinv', hcalm⟩ := filedup_spec hinv (h.one_le_ref_of_slot hfd)
      rw [zero_sub, neg_add_cancel] at hinv'
      refine ⟨fd', s', ?_, hinv', (still_setSlot s p fd' (some f)).trans hcalm.toStill⟩
      rw [bind_of_ok hrun]
      dsimp only
      rw [bind_of_ok hrun']
      rfl

/-! ## open -/

omit [KernelImage] in
/-- A file that is no pipe becomes an open file of another kind. -/
theorem FilesOk.setKind {proc : ProcId → Proc} {ft : FileId → File} {pipe : ℕ → Pipe}
    (h : FilesOk proc ft pipe held) {f : FileId} (file : File) (hr : (ft f).ref ≠ 0)
    (href : file.ref = (ft f).ref) (ht : (ft f).type ≠ .pipe) (ht' : file.type ≠ .pipe) :
    FilesOk proc (Function.update ft f file) pipe held ∧
      pipePages (Function.update ft f file) = pipePages ft := by
  have hend (g : FileId) (pi : ℕ) (w : Bool) :
      IsEnd (Function.update ft f file) g pi w ↔ IsEnd ft g pi w := by
    by_cases hg : g = f
    · subst hg
      refine iff_of_false (fun hc => ht' ?_) (fun hc => ht hc.type)
      simpa using hc.type
    · apply IsEnd.congr <;> rw [Function.update_of_ne hg]
  have hpages := pipePages_congr hend
  refine ⟨⟨fun g => ?_, fun g hg => ?_, fun pi hpi w => ?_, fun g g' pi w hg hg' => ?_⟩, hpages⟩
  · rw [← h.ref_eq g]
    by_cases hg : g = f
    · rw [hg, Function.update_self, href]
    · rw [Function.update_of_ne hg]
  · by_cases hgf : g = f
    · rw [hgf, Function.update_self, href] at hg
      exact absurd hg hr
    · rw [Function.update_of_ne hgf] at hg ⊢
      exact h.closed g hg
  · rw [hpages] at hpi
    rw [h.ends pi hpi w]
    exact exists_congr fun g => (hend g pi w).symm
  · exact h.unique g g' pi w ((hend g pi w).mp hg) ((hend g' pi w).mp hg')

theorem openFile_spec (h : Inv s 0) (hl : Live (owners s) (s.proc p) pt tf)
    (hz : (s.proc p).state ≠ .zombie) (isDevice : Bool) (omode : ℕ) :
    ∃ r s', openFile p isDevice omode s = .ok (r, s') ∧ Inv s' 0 ∧ Still s s' := by
  rw [openFile]
  rcases filealloc_spec h with hrun | ⟨f, s₁, hrun, hinv₁, hcalm₁, -, ht, hs₁⟩
  · exact ⟨-1, s, by rw [bind_of_ok hrun]; rfl, h, Still.refl s⟩
  rw [zero_add] at hinv₁
  rw [bind_of_ok hrun]
  dsimp only
  have hproc : s₁.proc = s.proc := hcalm₁.proc_eq
  have hl₁ := hinv₁.live_again (p := p) hl (by rw [hproc])
  have hz₁ : (s₁.proc p).state ≠ .zombie := by rwa [hproc]
  have href : 1 ≤ (s₁.ftable f).ref := hinv₁.one_le_ref (by simp)
  rcases fdalloc_spec hinv₁ hl₁ hz₁ f with hrun₂ | ⟨fd, hrun₂, -, hinv₂⟩
  · obtain ⟨s', hrun', hinv', hcalm'⟩ := fileclose_spec hinv₁ href
    rw [sub_self] at hinv'
    refine ⟨-1, s', ?_, hinv', hcalm₁.toStill.trans hcalm'.toStill⟩
    rw [bind_of_ok hrun₂]
    dsimp only
    rw [bind_of_ok hrun']
    rfl
  · rw [sub_self] at hinv₂
    have hfile₁ : s₁.ftable f = { s.ftable f with ref := 1 } := by
      rw [hs₁]
      exact Function.update_self ..
    have hfile : (s₁.ftable f).type = .none := by
      rw [hfile₁]
      exact ht
    let file : File := { s₁.ftable f with
      type := if isDevice then .device else .inode, readable := !omode.testBit 0
      writable := omode.testBit 0 || omode.testBit 1 }
    have hsame : (s₁.setSlot p fd (some f)).ftable f = s₁.ftable f := rfl
    obtain ⟨hfiles, hpages⟩ := hinv₂.files.setKind (f := f) file (by rw [hsame]; omega) rfl
      (by rw [hsame, hfile]; simp) (by cases isDevice <;> simp [file])
    refine ⟨fd, _, ?_, hinv₂.setTable hpages hfiles,
      (hcalm₁.toStill.trans (still_setSlot s₁ p fd (some f))).trans (calm_setTable _ _ _).toStill⟩
    rw [bind_of_ok hrun₂]
    rfl

/-- A string that the user has passed ends within `max` bytes. -/
theorem fetchstr_spec (hl : Live R (s.proc p) pt tf) (addr max : ℕ) :
    ∃ r, fetchstr p addr max s = .ok (r, s) ∧ ∀ str, r = some str → str.length < max := by
  obtain ⟨n, hn, htext, -, hrun⟩ := copyinstr_run pt addr max s.phys
  generalize hres : (if n < max ∧ Readable pt (addr + n) then
    (true, bytesAt pt s.phys.mem addr n ++ [0]) else (false, bytesAt pt s.phys.mem addr n)) = res
    at hrun
  have hon : fetchstr p addr max s =
      .ok (if res.1 then some (res.2.takeWhile (· != 0)) else none,
        s.setSpace p pt (s.proc p).sz s.phys) := by
    refine onSpace_run hl.pagetable ?_
    rw [bind_of_ok hrun]
    rfl
  rw [State.setSpace, ← hl.pagetable, put_self] at hon
  refine ⟨_, hon, fun str hstr => ?_⟩
  rw [← hres] at hstr
  split at hstr
  · next hin =>
    have hlen := length_bytesAt pt s.phys.mem addr n
    simp only [if_true, htext.takeWhile, Option.some.injEq] at hstr
    rw [← hstr]
    simpa [hlen] using hin.1
  · simp at hstr

theorem sysOpen_spec (h : Inv s 0) (hl : Live (owners s) (s.proc p) pt tf)
    (hz : (s.proc p).state ≠ .zombie) (path omode : ℕ) (find : List UInt8 → Option Bool) :
    ∃ r s', sysOpen p path omode find s = .ok (r, s') ∧ Inv s' 0 ∧ Still s s' := by
  obtain ⟨r, hrun, -⟩ := fetchstr_spec hl path MAXPATH
  rw [sysOpen, bind_of_ok hrun]
  cases r with
  | none => exact ⟨-1, s, rfl, h, Still.refl s⟩
  | some str =>
    dsimp only
    cases find str with
    | none => exact ⟨-1, s, rfl, h, Still.refl s⟩
    | some isDevice => exact openFile_spec h hl hz isDevice omode

/-! ## pipe -/

local instance lawfulBEq_fd : LawfulBEq (Fin NOFILE) := inferInstance

/-- Process `p` without the descriptors `fds`. -/
def State.clearSlots (s : State) (p : ProcId) (fds : List (Fin NOFILE)) : State :=
  s.put p { s.proc p with ofile := fun fd => if fd ∈ fds then none else (s.proc p).ofile fd } s.phys

/-- The references that the descriptors `fds` hold. -/
def slotRefs (ofile : Fin NOFILE → Option FileId) (fds : List (Fin NOFILE)) : FileId → ℤ :=
  (fds.map fun fd => refOf (ofile fd)).sum

omit [KernelImage] in
theorem clearSlots_nil (s : State) (p : ProcId) : s.clearSlots p [] = s := by
  simp only [State.clearSlots, List.not_mem_nil, if_false]
  exact put_self s p

omit [KernelImage] in
theorem clearSlots_cons (s : State) (p : ProcId) (fd : Fin NOFILE) (fds : List (Fin NOFILE)) :
    s.clearSlots p (fd :: fds) = (s.clearSlots p fds).setSlot p fd none := by
  have hofile : (fun fd' => if fd' ∈ fd :: fds then none else (s.proc p).ofile fd') =
      Function.update (fun fd' => if fd' ∈ fds then none else (s.proc p).ofile fd') fd none := by
    funext fd'
    by_cases hfd : fd' = fd
    · rw [hfd, Function.update_self, if_pos List.mem_cons_self]
    · rw [Function.update_of_ne hfd]
      simp only [List.mem_cons, hfd, false_or]
  rw [State.setSlot, State.clearSlots, State.clearSlots, put_proc_self, put_put, put_phys, hofile]

/-- The caller takes over the references of the descriptors. -/
theorem clearSlots_spec (h : Inv s held) (hl : Live (owners s) (s.proc p) pt tf)
    (fds : List (Fin NOFILE)) (hnd : fds.Nodup) :
    Inv (s.clearSlots p fds) (held + slotRefs (s.proc p).ofile fds) ∧
      Still s (s.clearSlots p fds) := by
  induction fds with
  | nil =>
    rw [clearSlots_nil, slotRefs, List.map_nil, List.sum_nil, add_zero]
    exact ⟨h, Still.refl s⟩
  | cons fd fds ih =>
    obtain ⟨hfd, hnd'⟩ := List.nodup_cons.mp hnd
    obtain ⟨hinv, hstill⟩ := ih hnd'
    have hl' := hinv.live_again hl (hstill.frame p).core_eq
    have hslot : ((s.clearSlots p fds).proc p).ofile fd = (s.proc p).ofile fd := by
      rw [State.clearSlots, put_proc_self]
      exact if_neg hfd
    have hinv' := hinv.setSlot hl' fd none (fun _ => rfl)
    rw [hslot, refOf_none, sub_zero, add_assoc, add_comm (slotRefs _ _)] at hinv'
    rw [clearSlots_cons, slotRefs, List.map_cons, List.sum_cons]
    exact ⟨hinv', hstill.trans (still_setSlot _ p fd none)⟩

theorem pipeBad_spec (fds : List (Fin NOFILE)) (rf wf : FileId) (h : Inv s held)
    (hl : Live (owners s) (s.proc p) pt tf) (hnd : fds.Nodup)
    (hheld : held + slotRefs (s.proc p).ofile fds = Pi.single rf 1 + Pi.single wf 1) :
    ∃ s', pipeBad p fds rf wf s = .ok (-1, s') ∧ Inv s' 0 ∧ Still s s' := by
  obtain ⟨hinv, hstill⟩ := clearSlots_spec h hl fds hnd
  rw [hheld] at hinv
  obtain ⟨s₁, s', hrun₁, hrun', hinv', hcalm⟩ := fileclose_two hinv
  refine ⟨s', ?_, hinv', hstill.trans hcalm.toStill⟩
  have hset : setProc p (fun pr => { pr with
      ofile := fun fd => if fd ∈ fds then none else pr.ofile fd }) s =
        .ok ((), s.clearSlots p fds) := rfl
  rw [pipeBad, bind_of_ok hset, bind_of_ok hrun₁, bind_of_ok hrun']
  rfl

/-- What `sys_pipe` has done: an existing pipe is not touched. -/
structure Piped (s s' : State) (p : ProcId) : Prop where
  inv : Inv s' 0
  retained : Retained s s' p
  kept : PipesKept s s'

/-- `sys_pipe` once both descriptors are there. -/
theorem sysPipe_copyout {fd₀ fd₁ : Fin NOFILE} (rf wf : FileId) (h : Inv s 0)
    (hl : Live (owners s) (s.proc p) pt tf) (hne : fd₀ ≠ fd₁) (h₀ : (s.proc p).ofile fd₀ = some rf)
    (h₁ : (s.proc p).ofile fd₁ = some wf) (fdarray : ℕ) :
    let m : KM ℤ := do
      if ← copyoutTo p fdarray (intBytes fd₀) then
        if ← copyoutTo p (u64 (fdarray + 4)) (intBytes fd₁) then pure 0
        else pipeBad p [fd₀, fd₁] rf wf
      else pipeBad p [fd₀, fd₁] rf wf
    ∃ r s', m s = .ok (r, s') ∧ Piped s s' p := by
  -- The error path is the same wherever it is taken from.
  have hbad {s₁ : State} (hinv : Inv s₁ 0) (hftable : s₁.ftable = s.ftable) (ht : Retained s s₁ p)
      (hlive : ∃ pt tf, Live (owners s₁) (s₁.proc p) pt tf)
      (hofile : (s₁.proc p).ofile = (s.proc p).ofile) :
      ∃ r s', pipeBad p [fd₀, fd₁] rf wf s₁ = .ok (r, s') ∧ Piped s s' p := by
    obtain ⟨pt₁, tf₁, hl₁⟩ := hlive
    obtain ⟨s', hrun, hinv', hstill⟩ := pipeBad_spec [fd₀, fd₁] rf wf hinv hl₁
      (by simpa using hne)
      (by simp [slotRefs, hofile, h₀, h₁, refOf_some])
    refine ⟨-1, s', hrun, hinv', ht.trans (hstill.retained p), fun pi hpi => ?_⟩
    rw [← hftable] at hpi
    exact hstill.pipesKept hinv hinv' pi hpi
  have hsame {t t' : State} {a : ℕ} {bytes : List UInt8} (ha : Accessed t p a bytes t') :
      t'.ftable = t.ftable ∧ (t'.proc p).ofile = (t.proc p).ofile := by
    obtain ⟨_, _, _, _, -, -, rfl⟩ := ha
    refine ⟨rfl, ?_⟩
    rw [State.setSpace, put_proc_self]
  intro m
  obtain ⟨ok, n, s₁, hrun₁, hc₁⟩ := copyoutTo_spec h hl fdarray (intBytes fd₀)
  have hinv₁ := hc₁.accessed.inv h
  have ht₁ := hc₁.accessed.retained h
  obtain ⟨hft₁, hof₁⟩ := hsame hc₁.accessed
  obtain ⟨pt₁, tf₁, hl₁⟩ := hc₁.accessed.live
  simp only [m]
  rw [bind_of_ok hrun₁]
  cases ok with
  | false => exact hbad hinv₁ hft₁ ht₁ ⟨pt₁, tf₁, hl₁⟩ hof₁
  | true =>
    simp only [if_true]
    obtain ⟨ok, n, s₂, hrun₂, hc₂⟩ := copyoutTo_spec hinv₁ hl₁ (u64 (fdarray + 4)) (intBytes fd₁)
    have hinv₂ := hc₂.accessed.inv hinv₁
    have ht₂ := ht₁.trans (hc₂.accessed.retained hinv₁)
    obtain ⟨hft₂, hof₂⟩ := hsame hc₂.accessed
    rw [bind_of_ok hrun₂]
    cases ok with
    | false => exact hbad hinv₂ (hft₂.trans hft₁) ht₂ hc₂.accessed.live (hof₂.trans hof₁)
    | true => exact ⟨0, s₂, rfl, hinv₂, ht₂, PipesKept.of_eq (hft₂.trans hft₁)⟩

theorem sysPipe_spec (h : Inv s 0) (hl : Live (owners s) (s.proc p) pt tf)
    (hz : (s.proc p).state ≠ .zombie) (fdarray : ℕ) :
    ∃ r s', sysPipe p fdarray s = .ok (r, s') ∧ Piped s s' p := by
  obtain ⟨r, s₁, hrun₁, hcalm₁, hnone, hsome⟩ := pipealloc_spec h
  rw [sysPipe, bind_of_ok hrun₁]
  cases r with
  | none =>
    have hinv₁ := hnone rfl
    exact ⟨-1, s₁, rfl, hinv₁, hcalm₁.toStill.retained p, hcalm₁.toStill.pipesKept h hinv₁⟩
  | some files =>
    obtain ⟨rf, wf⟩ := files
    obtain ⟨hinv₁, hsub⟩ := hsome rf wf rfl
    dsimp only
    have hl₁ := hinv₁.live_again (p := p) hl (by rw [hcalm₁.proc_eq])
    have hz₁ : (s₁.proc p).state ≠ .zombie := by rwa [hcalm₁.proc_eq]
    rcases fdalloc_spec hinv₁ hl₁ hz₁ rf with hrun₂ | ⟨fd₀, hrun₂, hfree₀, hinv₂⟩
    · obtain ⟨s', hrun', hinv', hstill⟩ := pipeBad_spec [] rf wf hinv₁ hl₁ List.nodup_nil
        (by rw [slotRefs, List.map_nil, List.sum_nil, add_zero])
      refine ⟨-1, s', ?_, hinv', (hcalm₁.toStill.trans hstill).retained p,
        fun pi hpi => hstill.pipesKept hinv₁ hinv' pi (hsub hpi)⟩
      rw [bind_of_ok hrun₂]
      exact hrun'
    rw [bind_of_ok hrun₂]
    dsimp only
    rw [add_sub_cancel_left] at hinv₂
    set s₂ := s₁.setSlot p fd₀ (some rf) with hs₂
    have hstill₂ : Still s s₂ := hcalm₁.toStill.trans (still_setSlot s₁ p fd₀ (some rf))
    have hl₂ := hinv₂.live_again hl (hstill₂.frame p).core_eq
    have hslot₀ : (s₂.proc p).ofile fd₀ = some rf := by
      rw [hs₂, State.setSlot, put_proc_self]
      exact Function.update_self ..
    have hz₂ : (s₂.proc p).state ≠ .zombie := by rwa [(hstill₂.frame p).state_eq]
    rcases fdalloc_spec hinv₂ hl₂ hz₂ wf with hrun₃ | ⟨fd₁, hrun₃, hfree₁, hinv₃⟩
    · obtain ⟨s', hrun', hinv', hstill⟩ := pipeBad_spec [fd₀] rf wf hinv₂ hl₂
        (List.nodup_singleton _) (by simp [slotRefs, hslot₀, refOf_some, add_comm])
      refine ⟨-1, s', ?_, hinv', (hstill₂.trans hstill).retained p,
        fun pi hpi => hstill.pipesKept hinv₂ hinv' pi (hsub hpi)⟩
      rw [bind_of_ok hrun₃]
      exact hrun'
    rw [bind_of_ok hrun₃]
    dsimp only
    rw [sub_self] at hinv₃
    set s₃ := s₂.setSlot p fd₁ (some wf) with hs₃
    have hstill₃ : Still s s₃ := hstill₂.trans (still_setSlot s₂ p fd₁ (some wf))
    have hl₃ := hinv₃.live_again hl (hstill₃.frame p).core_eq
    have hne : fd₀ ≠ fd₁ := by
      rintro rfl
      rw [hslot₀] at hfree₁
      cases hfree₁
    have hofile₃ : (s₃.proc p).ofile = Function.update (s₂.proc p).ofile fd₁ (some wf) := by
      rw [hs₃, State.setSlot, put_proc_self]
    obtain ⟨r, s', hrun', hp⟩ := sysPipe_copyout rf wf hinv₃ hl₃ hne
      (by rw [hofile₃, Function.update_of_ne hne, hslot₀]) (by rw [hofile₃, Function.update_self])
      fdarray
    exact ⟨r, s', hrun', hp.inv, (hstill₃.retained p).trans hp.retained,
      fun pi hpi => hp.kept pi (hsub hpi)⟩

end

end Xv6.Kernel
