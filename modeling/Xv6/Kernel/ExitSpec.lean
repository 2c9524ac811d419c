import Xv6.Kernel.DescSpec
import Xv6.Kernel.ProcSpec

/-! # exit and wait

A process that exits closes its files and stays in the process table, with its
memory, until its parent waits for it.
-/
namespace Xv6.Kernel
open Library Library.Exec Library.RefCount Vm

section
variable [KernelImage] {s s₁ s' : State} {held : FileId → ℤ} {p q pp : ProcId} {pt : PageTable}
  {tf : ℕ} {R : Multiset ℕ} {k' : Phys}

/-! ## exit -/

theorem closeFiles_spec (l : List (Fin NOFILE)) (h : Inv s 0)
    (hl : Live (owners s) (s.proc p) pt tf) :
    ∃ s', closeFiles p l s = .ok ((), s') ∧ Inv s' 0 ∧ Still s s' ∧
      (∀ fd, (s.proc p).ofile fd = none → (s'.proc p).ofile fd = none) ∧
      ∀ fd ∈ l, (s'.proc p).ofile fd = none := by
  induction l generalizing s with
  | nil => exact ⟨s, rfl, h, Still.refl s, fun _ => id, by simp⟩
  | cons fd rest ih =>
    rw [closeFiles, bind_of_ok (getProc_run p s)]
    cases hfd : (s.proc p).ofile fd with
    | none =>
      obtain ⟨s', hrun, hinv, hstill, hkeep, hall⟩ := ih h hl
      refine ⟨s', hrun, hinv, hstill, hkeep, fun fd' hfd' => ?_⟩
      rcases List.mem_cons.mp hfd' with rfl | hin
      · exact hkeep fd' hfd
      · exact hall fd' hin
    | some f =>
      obtain ⟨s₁, hrun₁, hinv₁, hcalm₁⟩ := fileclose_spec h (h.one_le_ref_of_slot hfd)
      have hl₁ := hinv₁.live_again (p := p) hl (by rw [hcalm₁.proc_eq])
      have hinv₂ := hinv₁.setSlot hl₁ fd none (fun _ => rfl)
      rw [hcalm₁.proc_eq, hfd, refOf_some, refOf_none, zero_sub, neg_add_cancel, sub_zero] at hinv₂
      have hstill₂ := hcalm₁.toStill.trans (still_setSlot s₁ p fd none)
      have hl₂ := hinv₂.live_again hl (hstill₂.frame p).core_eq
      have hofile : ((s₁.setSlot p fd none).proc p).ofile =
          Function.update (s.proc p).ofile fd none := by
        rw [State.setSlot, put_proc_self, hcalm₁.proc_eq]
      obtain ⟨s', hrun', hinv', hstill', hkeep', hall'⟩ := ih hinv₂ hl₂
      have hself : (s'.proc p).ofile fd = none := hkeep' fd (by rw [hofile, Function.update_self])
      refine ⟨s', ?_, hinv', hstill₂.trans hstill', fun fd' hfd' => ?_, fun fd' hfd' => ?_⟩
      · dsimp only
        rw [bind_of_ok hrun₁, bind_of_ok (setProc_run p _ _)]
        exact hrun'
      · by_cases heq : fd' = fd
        · rw [heq]
          exact hself
        · exact hkeep' fd' (by rw [hofile, Function.update_of_ne heq]; exact hfd')
      · rcases List.mem_cons.mp hfd' with rfl | hin
        · exact hself
        · exact hall' fd' hin

/-- An entry of the process table whose parent changes is still in order. -/
theorem ProcOk.setParent {pr : Proc} (h : ProcOk R pr) (hs : pr.state ≠ .unused)
    (x : Option ProcId) : ProcOk R { pr with parent := x } := by
  rcases h with rfl | ⟨pt, tf, h⟩ | ⟨pt, h⟩
  · exact absurd rfl hs
  · exact Or.inr (Or.inl ⟨pt, tf, h.state, h.pagetable, h.trapframe, h.wf, h.single, h.sz_lt, h.above,
      h.tfLeaf, h.trampolineLeaf⟩)
  · exact Or.inr (Or.inr ⟨pt, h.state, h.pagetable, h.wf, h.above, h.gone, h.sz_le,
      h.trampolineLeaf⟩)

theorem reparent_spec (h : Inv s held) (p : ProcId) :
    ∃ s', reparent p s = .ok ((), s') ∧ Inv s' held ∧ Still s s' ∧
      ∀ q, (s'.proc q).ofile = (s.proc q).ofile := by
  let give (pr : Proc) : Proc :=
    if pr.parent = some p then { pr with parent := some s.initproc } else pr
  have hcases (pr : Proc) : give pr = pr ∨
      pr.parent = some p ∧ give pr = { pr with parent := some s.initproc } := by
    by_cases hp : pr.parent = some p
    · exact Or.inr ⟨hp, if_pos hp⟩
    · exact Or.inl (if_neg hp)
  have hrefs (pr : Proc) : procRefs (give pr) = procRefs pr := by
    rcases hcases pr with hg | ⟨-, hg⟩
    · rw [hg]
    · rw [hg]
      rfl
  have hcore (pr : Proc) : (give pr).core = pr.core := by
    rcases hcases pr with hg | ⟨-, hg⟩
    · rw [hg]
    · rw [hg]
      rfl
  have hofile (pr : Proc) : (give pr).ofile = pr.ofile := by
    rcases hcases pr with hg | ⟨-, hg⟩ <;> rw [hg]
  have howners : owners { s with proc := fun pp => give (s.proc pp) } = owners s :=
    owners_congr rfl (fun q => hrefs (s.proc q)) rfl
  refine ⟨{ s with proc := fun pp => give (s.proc pp) }, rfl, ⟨?_, fun q => ?_, fun q hz => ?_,
    h.files.congr fun q => hofile (s.proc q), ?_⟩, ⟨rfl, rfl, fun q => ?_, id⟩,
    fun q => hofile (s.proc q)⟩
  · rw [howners]
    exact h.acct
  · rw [howners]
    dsimp only
    rcases hcases (s.proc q) with hg | ⟨hparent, hg⟩ <;> rw [hg]
    · exact h.procs q
    · refine (h.procs q).setParent (fun hs => ?_) _
      rw [(h.procs q).empty hs] at hparent
      cases hparent
  · have hstate : (give (s.proc q)).state = (s.proc q).state :=
      (congrArg Proc.state (hcore (s.proc q)) :)
    dsimp only at hz ⊢
    rw [hstate] at hz
    rw [hofile]
    exact h.zombie q hz
  · rw [howners]
    exact h.pipes
  · refine ⟨hcore (s.proc q), fun v _ i _ => ?_⟩
    have hpt : (give (s.proc q)).pagetable = (s.proc q).pagetable :=
      (congrArg Proc.pagetable (hcore (s.proc q)) :)
    rw [byteOf, byteOf, pteOf, pteOf]
    dsimp only
    rw [hpt]

/-- What the exit of `p` has done: the memory of `p` is still there. -/
structure Exited (s s' : State) (p : ProcId) (status : ℤ) : Prop where
  initproc_eq : s'.initproc = s.initproc
  state : (s'.proc p).state = .zombie
  xstate_eq : (s'.proc p).xstate = status
  space : SameSpace s s' p p
  frame : ∀ q, q ≠ p → Frame s s' q
  oom_mono : s.phys.oom = true → s'.phys.oom = true
  kept : PipesKept s s'

theorem kexit_spec (h : Inv s 0) (hl : Live (owners s) (s.proc p) pt tf) (status : ℤ) :
    (p = s.initproc ∧ kexit p status s = .error .initExiting) ∨
      p ≠ s.initproc ∧ ∃ s', kexit p status s = .ok ((), s') ∧ Inv s' 0 ∧
        Exited s s' p status := by
  rw [kexit, bind_of_ok (get_run s)]
  by_cases hinit : p = s.initproc
  · rw [if_pos hinit]
    exact Or.inl ⟨hinit, rfl⟩
  refine Or.inr ⟨hinit, ?_⟩
  rw [if_neg hinit]
  obtain ⟨s₁, hrun₁, hinv₁, hstill₁, -, hall₁⟩ := closeFiles_spec (List.finRange NOFILE) h hl
  obtain ⟨s₂, hrun₂, hinv₂, hstill₂, hofile₂⟩ := reparent_spec hinv₁ p
  have hstill := hstill₁.trans hstill₂
  have hl₂ := hinv₂.live_again hl (hstill.frame p).core_eq
  let pr : Proc := { s₂.proc p with xstate := status, state := .zombie }
  have hnone : pr.ofile = fun _ => none := by
    funext fd
    exact (congrFun (hofile₂ p) fd).trans (hall₁ fd (List.mem_finRange fd))
  have hfiles : FilesOk (Function.update s₂.proc p pr) s₂.ftable s₂.pipe 0 :=
    hinv₂.files.congr fun q => by
      by_cases hq : q = p
      · rw [hq, Function.update_self]
      · rw [Function.update_of_ne hq]
  have hinv' : Inv (s₂.put p pr s₂.phys) 0 :=
    hinv₂.reshape hl₂ rfl rfl rfl (by simp [pr]) (fun _ => hnone) hfiles
  have hlast (q : ProcId) (hq : q ≠ p) : Frame s₂ (s₂.put p pr s₂.phys) q :=
    hinv₂.frame_put hq pr (SameOn.refl _ _)
  have hself : SameSpace s₂ (s₂.put p pr s₂.phys) p p := by
    refine SameSpace.of_tables hl₂.pagetable ?_ ?_ (fun _ _ => ⟨rfl, fun _ => ⟨rfl, rfl⟩⟩)
      (SameOn.refl _ _)
    · rw [put_proc_self]
      exact hl₂.pagetable
    · rw [put_proc_self]
  refine ⟨s₂.put p pr s₂.phys, ?_, hinv', ⟨hstill.initproc_eq, by rw [put_proc_self],
    by rw [put_proc_self], (hstill.frame p).sameSpace.trans hself, fun q hq => (hstill.frame q).trans (hlast q hq),
    hstill.oom_mono, fun pi hpi => ?_⟩⟩
  · rw [bind_of_ok hrun₁, bind_of_ok hrun₂]
    rfl
  · exact hstill.pipesKept h hinv₂ pi hpi

/-! ## wait -/

/-- The exit status has been copied to the parent, unless the address is 0. -/
def Reported (s : State) (p : ProcId) (pt : PageTable) (addr : ℕ) (xstate : ℤ) (ok : Bool)
    (s' : State) : Prop :=
  (addr = 0 ∧ ok = true ∧ s' = s) ∨
    addr ≠ 0 ∧ ∃ m, CopyoutDone s p pt addr (intBytes xstate) ok m s'

theorem reportStatus_spec (h : Inv s held) (hl : Live (owners s) (s.proc p) pt tf) (addr : ℕ)
    (xstate : ℤ) :
    ∃ ok s', reportStatus p addr xstate s = .ok (ok, s') ∧ Reported s p pt addr xstate ok s' := by
  rw [reportStatus]
  by_cases haddr : addr = 0
  · rw [if_neg (not_not.mpr haddr)]
    exact ⟨true, s, rfl, Or.inl ⟨haddr, rfl, rfl⟩⟩
  · rw [if_pos haddr]
    obtain ⟨ok, m, s', hrun, hc⟩ := copyoutTo_spec h hl addr (intBytes xstate)
    exact ⟨ok, s', hrun, Or.inr ⟨haddr, m, hc⟩⟩

theorem Reported.accessed {addr : ℕ} {xstate : ℤ} {ok : Bool}
    (hr : Reported s p pt addr xstate ok s') (h : Inv s held)
    (hl : Live (owners s) (s.proc p) pt tf) :
    ∃ m, Accessed s p addr ((intBytes xstate).take m) s' := by
  rcases hr with ⟨-, -, rfl⟩ | ⟨-, m, hc⟩
  · exact ⟨0, Accessed.refl h hl addr⟩
  · exact ⟨m, hc.accessed⟩

/-- The ways in which wait ends: nothing has happened, the status could not be copied, or a
child is gone. -/
inductive WaitEnd (s : State) (p : ProcId) (pt : PageTable) (addr : ℕ) : Option ℤ → State → Prop
  | nothing (r : Option ℤ) (hr : r = none ∨ r = some (-1)) : WaitEnd s p pt addr r s
  | failed (pp : ProcId) (s₁ : State) (hparent : (s.proc pp).parent = some p)
      (hzombie : (s.proc pp).state = .zombie)
      (hrep : Reported s p pt addr (s.proc pp).xstate false s₁) :
      WaitEnd s p pt addr (some (-1)) s₁
  | reaped (pp : ProcId) (s₁ : State) (k' : Phys) (hparent : (s.proc pp).parent = some p)
      (hzombie : (s.proc pp).state = .zombie)
      (hrep : Reported s p pt addr (s.proc pp).xstate true s₁) (hinv : Inv (s₁.put pp Proc.empty k') 0)
      (hframe : ∀ q, q ≠ pp → Frame s₁ (s₁.put pp Proc.empty k') q)
      (hoom : k'.oom = s₁.phys.oom) :
      WaitEnd s p pt addr (some (s.proc pp).pid) (s₁.put pp Proc.empty k')

theorem kwait_spec (h : Inv s 0) (hl : Live (owners s) (s.proc p) pt tf)
    (hz : (s.proc p).state ≠ .zombie) (addr : ℕ) :
    (∃ pp e, (s.proc pp).parent = some p ∧ (s.proc pp).state = .zombie ∧
      TRAPFRAME < (s.proc pp).sz ∧ kwait p addr s = .error e) ∨
      ∃ r s', kwait p addr s = .ok (r, s') ∧ WaitEnd s p pt addr r s' := by
  rw [kwait, bind_of_ok (get_run s)]
  cases hfind : (List.finRange NPROC).find? fun pp =>
      decide ((s.proc pp).parent = some p ∧ (s.proc pp).state = .zombie) with
  | none =>
    refine Or.inr ⟨_, s, rfl, .nothing _ ?_⟩
    split <;> simp
  | some pp =>
    obtain ⟨hparent, hzombie⟩ : (s.proc pp).parent = some p ∧ (s.proc pp).state = .zombie := by
      simpa using List.find?_some hfind
    have hne : pp ≠ p := by
      rintro rfl
      exact hz hzombie
    obtain ⟨ok, s₁, hrun, hrep⟩ := reportStatus_spec h hl addr (s.proc pp).xstate
    dsimp only
    rw [bind_of_ok hrun]
    cases ok with
    | false => exact Or.inr ⟨_, s₁, rfl, .failed pp s₁ hparent hzombie hrep⟩
    | true =>
      obtain ⟨m, hacc⟩ := hrep.accessed h hl
      have hinv₁ := hacc.inv h
      have hproc : s₁.proc pp = s.proc pp := by
        obtain ⟨_, _, _, _, -, -, rfl⟩ := hacc
        exact put_proc_of_ne hne
      obtain ⟨ptc, tfc, hlc⟩ := hinv₁.live (p := pp) (by rw [hproc]; exact whole_zombie hzombie)
      have hnone : (s₁.proc pp).ofile = fun _ => none := by
        rw [hproc]
        exact h.zombie pp hzombie
      simp only [if_true]
      rcases freeproc_spec hinv₁ hlc hnone with ⟨hbig, e, he⟩ | ⟨k', hfree, hinv', hframe, hoom⟩
      · rw [hproc] at hbig
        exact Or.inl ⟨pp, e, hparent, hzombie, hbig, bind_of_error he⟩
      · refine Or.inr ⟨_, _, ?_, .reaped pp s₁ k' hparent hzombie hrep hinv' hframe hoom⟩
        rw [bind_of_ok hfree]
        rfl

end

end Xv6.Kernel
