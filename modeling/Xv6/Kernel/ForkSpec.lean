import Xv6.Kernel.ProcSpec

/-! # fork -/
namespace Xv6.Kernel
open Library Library.Exec Library.RefCount Vm

section
variable [KernelImage] {s s₁ s' : State} {held : FileId → ℤ} {p q np : ProcId} {pr npr : Proc}
  {k' : Phys} {old new old' new' : PageTable} {tf tfn : ℕ}

/-- Two entries of the process table change, with their pages. -/
theorem Inv.put₂ (h : Inv s held) (hne : np ≠ p)
    (hacct : Acct k' (procRefs pr + (procRefs npr + others₂ s p np)))
    (hok : ProcOk (procRefs pr + (procRefs npr + others₂ s p np)) pr)
    (hokn : ProcOk (procRefs pr + (procRefs npr + others₂ s p np)) npr)
    (hone : ∀ a ∈ others₂ s p np, (owners s).count a = 1 →
      (procRefs pr + (procRefs npr + others₂ s p np)).count a = 1)
    (hfile : pr.ofile = (s.proc p).ofile) (hfilen : npr.ofile = (s.proc np).ofile)
    (hz : pr.state ≠ .zombie) (hzn : npr.state ≠ .zombie) :
    Inv ((s.put p pr k').put np npr k') held := by
  have hcases {P : Proc → Prop} (q : ProcId) (h1 : P pr) (h2 : P npr)
      (h3 : q ≠ p → q ≠ np → P (s.proc q)) : P (((s.put p pr k').put np npr k').proc q) := by
    by_cases hq : q = np
    · rw [hq, put_proc_self]
      exact h2
    · rw [put_proc_of_ne hq]
      by_cases hq' : q = p
      · rw [hq', put_proc_self]
        exact h1
      · rw [put_proc_of_ne hq']
        exact h3 hq' hq
  refine ⟨?_, fun q => ?_, fun q => ?_, h.files.congr fun q => ?_, fun pi hpi => ?_⟩
  · rw [owners_put₂ hne]
    exact hacct
  · rw [owners_put₂ hne]
    exact hcases q hok hokn fun hp hn => (h.procs q).mono fun a ha =>
      hone a (Multiset.mem_of_le (procRefs_le_others₂ hp hn) ha)
  · exact hcases (P := fun pr => pr.state = .zombie → pr.ofile = fun _ => none) q
      (fun hc => absurd hc hz) (fun hc => absurd hc hzn) fun _ _ => h.zombie q
  · by_cases hq : q = np
    · rw [hq, put_proc_self, hfilen]
    · rw [put_proc_of_ne hq]
      by_cases hq' : q = p
      · rw [hq', put_proc_self, hfile]
      · rw [put_proc_of_ne hq']
  · rw [owners_put₂ hne]
    exact hone pi (Multiset.mem_of_le (pipePages_le_others₂ s p np) hpi) (h.pipes pi hpi)

theorem Inv.frame_put₂ (h : Inv s held) (hp : q ≠ p) (hn : q ≠ np) (pr npr : Proc)
    (hsame : SameOn (others₂ s p np) s.phys.mem k'.mem) :
    Frame s ((s.put p pr k').put np npr k') q :=
  Frame.of_sameOn (by rw [put_proc_of_ne hn, put_proc_of_ne hp]) h.pagetable_none
    (hsame.mono (Multiset.subset_of_le (procRefs_le_others₂ hp hn)))

/-! ## Copying user memory -/

/-- What everybody but the address spaces of parent and child owns. -/
def forkRest (s : State) (p np : ProcId) (tf tfn : ℕ) : Multiset ℕ := tf ::ₘ tfn ::ₘ others₂ s p np

omit [KernelImage] in
theorem refs_fork (a b : Multiset ℕ) (s : State) (p np : ProcId) (tf tfn : ℕ) :
    (a + {tf}) + ((b + {tfn}) + others₂ s p np) = a + (b + forkRest s p np tf tfn) := by
  rw [forkRest, ← Multiset.singleton_add, ← Multiset.singleton_add]
  abel

/-- Parent and child right after `allocproc`. -/
structure Forking (s : State) (p np : ProcId) (old new : PageTable) (tf tfn : ℕ) : Prop where
  ne : np ≠ p
  parent : Live (owners s) (s.proc p) old tf
  child : Live (owners s) (s.proc np) new tfn
  empty : ∀ v < UPAGES, (leaf new v).has PTE_V = false
  awake : (s.proc p).state ≠ .zombie
  awaken : (s.proc np).state ≠ .zombie

theorem Forking.owners_eq (hf : Forking s p np old new tf tfn) :
    owners s = own old + (own new + forkRest s p np tf tfn) := by
  rw [Kernel.owners_eq s p, others_eq hf.ne, hf.parent.procRefs_eq, hf.child.procRefs_eq, refs_fork]

theorem Forking.sharing (hf : Forking s p np old new tf tfn) (h : Inv s held) :
    Sharing (forkRest s p np tf tfn) old new s.phys := by
  have heq := hf.owners_eq
  have hacct := h.acct
  have hold := hf.parent.wf
  have hnew := hf.child.wf
  rw [heq] at hacct hold hnew
  exact ⟨hacct, hold, hnew, fun v hv hV => by rw [hf.empty v hv] at hV; cases hV⟩

/-- The process table after `copySpace`, with a size for the child. -/
def State.fork (s : State) (p np : ProcId) (old new : PageTable) (sz : ℕ) (k : Phys) : State :=
  (s.put p { s.proc p with pagetable := some old } k).put np
    { s.proc np with pagetable := some new, sz := sz } k

theorem copySpace_spec (h : Inv s held) (hf : Forking s p np old new tf tfn) :
    (TRAPFRAME < (s.proc p).sz ∧ ∃ e, copySpace p np s = .error e) ∨
    ∃ ok old' new' k', copySpace p np s =
        .ok (ok, s.fork p np old' new' (s.proc np).sz k') ∧
      (ok = true → (s.proc p).sz ≤ TRAPFRAME ∧ Shared (forkRest s p np tf tfn) 0 (npages (s.proc p).sz) old new s.phys old' new'
        k') ∧
      (ok = false → ShareFailed (forkRest s p np tf tfn) old new s.phys old' new' k') := by
  have hcopy : (TRAPFRAME < (s.proc p).sz ∧ ∃ e, uvmcopy old new (s.proc p).sz s.phys = .error e) ∨
      ∃ ok old' new' k', uvmcopy old new (s.proc p).sz s.phys = .ok ((ok, old', new'), k') ∧
        (ok = true → (s.proc p).sz ≤ TRAPFRAME ∧ Shared (forkRest s p np tf tfn) 0
          (npages (s.proc p).sz) old new s.phys old' new' k') ∧
        (ok = false → ShareFailed (forkRest s p np tf tfn) old new s.phys old' new' k') := by
    rcases Nat.lt_or_ge TRAPFRAME (s.proc p).sz with hbig | hsz
    · rcases uvmcopy_big hbig (hf.sharing h) hf.empty hf.parent.tfValid hf.child.tfValid with
        he | ⟨old', new', k', hrun, hfail⟩
      · exact Or.inl ⟨hbig, he⟩
      · exact Or.inr ⟨false, old', new', k', hrun, by simp, fun _ => hfail⟩
    · obtain ⟨ok, old', new', k', hrun, hok, hfail⟩ := uvmcopy_spec hsz (hf.sharing h) hf.empty
      exact Or.inr ⟨ok, old', new', k', hrun, fun ho => ⟨hsz, hok ho⟩, hfail⟩
  rw [copySpace, bind_of_ok (getProc_run p s), bind_of_ok (getProc_run np s), hf.parent.pagetable,
    hf.child.pagetable]
  dsimp only
  rcases hcopy with ⟨hbig, e, he⟩ | ⟨ok, old', new', k', hrun, hok, hfail⟩
  · exact Or.inl ⟨hbig, e, bind_of_error (vm_error he)⟩
  refine Or.inr ⟨ok, old', new', k', ?_, hok, hfail⟩
  have hvm : vm (uvmcopy old new (s.proc p).sz) s = .ok ((ok, old', new'), { s with phys := k' }) :=
    vm_run hrun
  have hset : setProc p (fun pr => { pr with pagetable := some old' }) { s with phys := k' } =
      .ok ((), s.put p { s.proc p with pagetable := some old' } k') := rfl
  rw [bind_of_ok hvm, bind_of_ok hset, bind_of_ok (setProc_run np _ _), put_proc_of_ne hf.ne]
  rfl

omit [KernelImage] in
theorem fork_proc_parent (hne : np ≠ p) (sz : ℕ) :
    (s.fork p np old' new' sz k').proc p = { s.proc p with pagetable := some old' } := by
  rw [State.fork, put_proc_of_ne hne.symm, put_proc_self]

omit [KernelImage] in
theorem fork_proc_child (sz : ℕ) : (s.fork p np old' new' sz k').proc np =
    { s.proc np with pagetable := some new', sz := sz } := put_proc_self

/-- The invariant after `copySpace`, when both tables are good. -/
theorem Inv.fork (h : Inv s held) (hf : Forking s p np old new tf tfn) {sz : ℕ}
    (hacct : Acct k' (own old' + (own new' + forkRest s p np tf tfn)))
    (hold : Live (own old' + (own new' + forkRest s p np tf tfn))
      { s.proc p with pagetable := some old' } old' tf)
    (hnew : Live (own old' + (own new' + forkRest s p np tf tfn))
      { s.proc np with pagetable := some new', sz := sz } new' tfn)
    (hone : ∀ a ∈ forkRest s p np tf tfn,
      (own old + (own new + forkRest s p np tf tfn)).count a = 1 →
      (own old' + (own new' + forkRest s p np tf tfn)).count a = 1) :
    let t := s.fork p np old' new' sz k'
    Inv t held ∧ Live (owners t) (t.proc p) old' tf ∧ Live (owners t) (t.proc np) new' tfn := by
  intro t
  have hrefs : procRefs { s.proc p with pagetable := some old' } +
      (procRefs { s.proc np with pagetable := some new', sz := sz } + others₂ s p np) =
        own old' + (own new' + forkRest s p np tf tfn) := by
    rw [hold.procRefs_eq, hnew.procRefs_eq, refs_fork]
  have howners : owners t = own old' + (own new' + forkRest s p np tf tfn) :=
    (owners_put₂ hf.ne _).trans hrefs
  refine ⟨h.put₂ hf.ne ?_ ?_ ?_ ?_ rfl rfl hf.awake hf.awaken, ?_, ?_⟩
  · rw [hrefs]
    exact hacct
  · rw [hrefs]
    exact Or.inr (Or.inl ⟨old', tf, hold⟩)
  · rw [hrefs]
    exact Or.inr (Or.inl ⟨new', tfn, hnew⟩)
  · intro a ha hcount
    rw [hrefs]
    rw [hf.owners_eq] at hcount
    exact hone a (Multiset.mem_cons_of_mem (Multiset.mem_cons_of_mem ha)) hcount
  · rw [howners, fork_proc_parent hf.ne]
    exact hold
  · rw [howners, fork_proc_child]
    exact hnew

/-- The parent after `uvmcopy`: only copy-on-write marks may have changed. -/
theorem Live.sameMap {R R' : Multiset ℕ} (hl : Live R pr old tf) (hmap : SameMap old old')
    (hwf : Wf old' R') (hone : R'.count tf = 1) : Live R' { pr with pagetable := some old' } old' tf := by
  have hU := UPAGES_eq
  refine ⟨hl.state, rfl, hl.trapframe, hwf, hone, hl.sz_lt, fun v hge hv => ?_, ?_, ?_⟩
  · rw [hmap.valid v (by omega)]
    exact hl.above v hge hv
  · rw [hmap.kernel _ le_rfl (by omega), hl.tfLeaf]
  · rw [hmap.kernel _ (by omega) (by omega), hl.trampolineLeaf]

/-- The trapframe pages of parent and child keep one owner. -/
theorem Forking.single (hf : Forking s p np old new tf tfn)
    (hone : ∀ a ∈ forkRest s p np tf tfn,
      (own old + (own new + forkRest s p np tf tfn)).count a = 1 →
      (own old' + (own new' + forkRest s p np tf tfn)).count a = 1) :
    (own old' + (own new' + forkRest s p np tf tfn)).count tf = 1 ∧
      (own old' + (own new' + forkRest s p np tf tfn)).count tfn = 1 := by
  have hp := hf.parent.single
  have hn := hf.child.single
  rw [hf.owners_eq] at hp hn
  exact ⟨hone tf (by simp [forkRest]) hp, hone tfn (by simp [forkRest]) hn⟩

theorem Inv.fork_shared (h : Inv s held) (hf : Forking s p np old new tf tfn)
    (hsz : (s.proc p).sz ≤ TRAPFRAME)
    (hs : Shared (forkRest s p np tf tfn) 0 (npages (s.proc p).sz) old new s.phys old' new' k') :
    let t := s.fork p np old' new' (s.proc p).sz k'
    Inv t held ∧ Live (owners t) (t.proc p) old' tf ∧ Live (owners t) (t.proc np) new' tfn := by
  have hU := UPAGES_eq
  have hle := npages_le hsz
  obtain ⟨hone, honen⟩ := hf.single hs.single
  refine h.fork hf hs.sharing.acct (hf.parent.sameMap hs.sameMap hs.sharing.wfOld hone) ?_ hs.single
  refine ⟨hf.child.state, rfl, hf.child.trapframe, hs.sharing.wfNew, honen, hf.parent.sz_lt,
    fun v hge hv => ?_, ?_, ?_⟩
  · dsimp only at hge
    rw [hs.rest v (by omega) (by omega)]
    exact hf.empty v hv
  · rw [hs.rest _ (by omega) (by omega), hf.child.tfLeaf]
  · rw [hs.rest _ (by omega) (by omega), hf.child.trampolineLeaf]

theorem Inv.fork_failed (h : Inv s held) (hf : Forking s p np old new tf tfn)
    (hs : ShareFailed (forkRest s p np tf tfn) old new s.phys old' new' k') :
    let t := s.fork p np old' new' (s.proc np).sz k'
    Inv t held ∧ Live (owners t) (t.proc p) old' tf ∧ Live (owners t) (t.proc np) new' tfn := by
  have hU := UPAGES_eq
  have hwfn := hs.child.wf
  rw [add_left_comm] at hwfn
  obtain ⟨hone, honen⟩ := hf.single hs.single
  refine h.fork hf hs.parent.acct (hf.parent.sameMap hs.sameMap hs.parent.wf hone) ?_ hs.single
  refine ⟨hf.child.state, rfl, hf.child.trapframe, hwfn, honen, hf.child.sz_lt,
    fun v _ hv => hs.empty v hv, ?_, ?_⟩
  · rw [hs.kernel _ le_rfl (by omega), hf.child.tfLeaf]
  · rw [hs.kernel _ (by omega) (by omega), hf.child.trampolineLeaf]

/-! ## kfork -/

theorem dupFiles_spec (l : List (Fin NOFILE)) (hnd : l.Nodup) (h : Inv s 0) (hne : np ≠ p)
    (hst : (s.proc np).state = .used) (hfree : ∀ fd ∈ l, (s.proc np).ofile fd = none) :
    ∃ s', dupFiles np (s.proc p).ofile l s = .ok ((), s') ∧ Inv s' 0 ∧ Still s s' ∧
      ∀ q, q ≠ np → s'.proc q = s.proc q := by
  induction l generalizing s with
  | nil => exact ⟨s, rfl, h, Still.refl s, fun _ _ => rfl⟩
  | cons fd rest ih =>
    obtain ⟨hfd, hnd'⟩ := List.nodup_cons.mp hnd
    rw [dupFiles]
    cases hfile : (s.proc p).ofile fd with
    | none => exact ih hnd' h hst fun fd' hfd' => hfree fd' (List.mem_cons_of_mem _ hfd')
    | some f =>
      have href : 1 ≤ (s.ftable f).ref := by
        rw [h.files.ref_eq f]
        simpa using one_le_slots hfile
      obtain ⟨s₁, hrun₁, hinv₁, hcalm₁⟩ := filedup_spec h href
      rw [zero_add] at hinv₁
      have hproc₁ : s₁.proc = s.proc := hcalm₁.proc_eq
      obtain ⟨pt, tf, hl⟩ := hinv₁.live (p := np) (by rw [hproc₁]; exact whole_used hst)
      have hinv₂ := hinv₁.setSlot hl fd (some f) (fun hz => by
        rw [hproc₁, hst] at hz
        cases hz)
      rw [hproc₁, hfree fd List.mem_cons_self, refOf_none, add_zero, refOf_some, sub_self] at hinv₂
      have hp₂ : (s₁.setSlot np fd (some f)).proc p = s.proc p := by
        rw [State.setSlot, put_proc_of_ne hne.symm, hproc₁]
      obtain ⟨s', hrun', hinv', hstill', hother'⟩ := ih (s := s₁.setSlot np fd (some f)) hnd' hinv₂
        (by rw [State.setSlot, put_proc_self, hproc₁]; exact hst)
        (fun fd' hfd' => by
          rw [State.setSlot, put_proc_self, hproc₁]
          dsimp only
          rw [Function.update_of_ne (fun hc : fd' = fd => hfd (hc ▸ hfd'))]
          exact hfree fd' (List.mem_cons_of_mem _ hfd'))
      rw [hp₂] at hrun'
      refine ⟨s', ?_, hinv', (hcalm₁.toStill.trans (still_setSlot s₁ np fd (some f))).trans hstill',
        fun q hq => ?_⟩
      · dsimp only
        rw [bind_of_ok hrun₁, bind_of_ok (setProc_run np _ _)]
        exact hrun'
      · rw [hother' q hq, State.setSlot, put_proc_of_ne hq, hproc₁]

theorem fork_parent (hf : Forking s p np old new tf tfn) (hmap : SameMap old old')
    (hmem : SameOn (own old) s.phys.mem k'.mem) (sz : ℕ) :
    SameSpace s (s.fork p np old' new' sz k') p p := by
  have hU := UPAGES_eq
  have hproc : (s.fork p np old' new' sz k').proc p = _ := fork_proc_parent hf.ne sz
  refine SameSpace.of_tables hf.parent.pagetable (by rw [hproc]) (by rw [hproc]) (fun v hv => ?_) hmem
  exact ⟨hmap.valid v (by omega), fun _ => ⟨hmap.addr v (by omega), hmap.rights v (by omega)⟩⟩

theorem fork_child (hf : Forking s p np old new tf tfn)
    (hs : Shared (forkRest s p np tf tfn) 0 (npages (s.proc p).sz) old new s.phys old' new' k') :
    SameSpace s (s.fork p np old' new' (s.proc p).sz k') p np := by
  have hU := UPAGES_eq
  refine SameSpace.of_tables hf.parent.pagetable (by rw [fork_proc_child]) (by rw [fork_proc_child])
    (fun v hv => ?_) (hs.same.mono (Multiset.subset_of_le (Multiset.le_add_right _ _)))
  rcases Nat.lt_or_ge v (npages (s.proc p).sz) with hlt | hge
  · exact hs.copied v (Nat.zero_le v) hlt hv
  · rw [hs.rest v (by omega) (by omega), hf.parent.above v hge hv, hf.empty v hv]
    simp

theorem forkTrapframe_spec (h : Inv s held) (hl : Live (owners s) (s.proc p) old tf)
    (hln : Live (owners s) (s.proc np) new tfn) :
    ∃ s', forkTrapframe p np s = .ok ((), s') ∧ Inv s' held ∧ Calm s s' := by
  obtain ⟨k', hrun, hpoke⟩ := copyTrapframe_spec (h.pageAddr_tf hln) (h.tf_apart hln)
  obtain ⟨hinv, hcalm⟩ := h.poke hln hpoke
  refine ⟨_, ?_, hinv, hcalm⟩
  rw [forkTrapframe, bind_of_ok (getProc_run p s), bind_of_ok (getProc_run np s), hl.trapframe,
    hln.trapframe]
  exact vm_run hrun

/-- `kfork` gives up: `allocproc` finds no slot or no memory, or `uvmcopy` fails. -/
def forkStops (p : ProcId) (s : State) : Bool :=
  match allocproc s with
  | .ok (none, _) => true
  | .ok (some np, s₁) =>
    match copySpace p np s₁ with
    | .ok (copied, _) => !copied
    | .error _ => false
  | .error _ => false

theorem forkStops_copied {s₁ s₂ : State} {copied : Bool} (hrun : allocproc s = .ok (some np, s₁))
    (hcopy : copySpace p np s₁ = .ok (copied, s₂)) : forkStops p s = !copied := by
  simp only [forkStops, hrun, hcopy]

/-- What a successful fork has done. -/
structure Forked (s s' : State) (p np : ProcId) : Prop where
  ran : forkStops p s = false
  unused : s.proc np = Proc.empty
  parent : SameSpace s s' p p
  parent_rest : (s'.proc p).rest = (s.proc p).rest
  child : SameSpace s s' p np
  child_state : (s'.proc np).state = .runnable
  parent_whole : Whole (s'.proc p)
  child_whole : Whole (s'.proc np)
  frame : ∀ q, q ≠ p → q ≠ np → Frame s s' q

/-- What a failed fork has done. -/
structure ForkFailed (s s' : State) (p : ProcId) : Prop where
  stops : forkStops p s = true
  owners_eq : owners s' = owners s
  parent : SameSpace s s' p p
  parent_rest : (s'.proc p).rest = (s.proc p).rest
  parent_whole : Whole (s'.proc p)
  frame : ∀ q, q ≠ p → Frame s s' q
  reason : s'.phys.oom = true ∨ ∀ q, (s.proc q).state ≠ .unused

theorem finishFork_spec (h : Inv s 0) (hf : Forking s p np old new tf tfn)
    (hst : (s.proc np).state = .used) (hfree : (s.proc np).ofile = fun _ => none)
    (hsz : (s.proc p).sz ≤ TRAPFRAME)
    (hs : Shared (forkRest s p np tf tfn) 0 (npages (s.proc p).sz) old new s.phys old' new' k') :
    ∃ s', finishFork p np (s.fork p np old' new' (s.proc np).sz k') =
        .ok ((s'.proc np).pid, s') ∧ Inv s' 0 ∧ PipesKept s s' ∧ s'.initproc = s.initproc ∧
      (s.phys.oom = true → s'.phys.oom = true) ∧ SameSpace s s' p p ∧
      (s'.proc p).rest = (s.proc p).rest ∧ SameSpace s s' p np ∧
      (s'.proc np).state = .runnable ∧ Whole (s'.proc p) ∧ Whole (s'.proc np) ∧
      ∀ q, q ≠ p → q ≠ np → Frame s s' q := by
  let t := s.fork p np old' new' (s.proc p).sz k'
  have htp : t.proc p = { s.proc p with pagetable := some old' } := fork_proc_parent hf.ne _
  have htn : t.proc np = { s.proc np with pagetable := some new', sz := (s.proc p).sz } :=
    fork_proc_child _
  obtain ⟨hinv, hlp, hlc⟩ := h.fork_shared hf hsz hs
  obtain ⟨t₁, hrun₀, hinv₀, hcalm₀⟩ := forkTrapframe_spec hinv hlp hlc
  obtain ⟨s₁, hrun₁, hinv₁, hstill₁, hother₁⟩ := dupFiles_spec (List.finRange NOFILE)
    (List.nodup_finRange _) hinv₀ hf.ne (by rw [hcalm₀.proc_eq, htn]; exact hst)
    (by rw [hcalm₀.proc_eq, htn]; simp [hfree])
  replace hstill₁ := hcalm₀.toStill.trans hstill₁
  have hst₁ : (s₁.proc np).state = .used := by
    rw [(hstill₁.frame np).state_eq, htn]
    exact hst
  obtain ⟨ptn, tfn', hln⟩ := hinv₁.live (whole_used hst₁)
  let pr' : Proc :=
    { s₁.proc np with name := (s.proc p).name, parent := some p, state := .runnable }
  let s' := s₁.put np pr' s₁.phys
  have hinv' : Inv s' 0 := hinv₁.reshape hln rfl rfl rfl (by simp) (by simp)
    (hinv₁.files.congr fun q => by
      by_cases hq : q = np
      · rw [hq, Function.update_self]
      · rw [Function.update_of_ne hq])
  have hframe (q : ProcId) (hq : q ≠ np) : Frame t s' q :=
    (hstill₁.frame q).trans (hinv₁.frame_put hq pr' (SameOn.refl _ _))
  have hchild : SameSpace t s' np np := by
    refine (hstill₁.frame np).sameSpace.trans ?_
    refine SameSpace.of_tables hln.pagetable ?_ ?_ (fun _ _ => ⟨rfl, fun _ => ⟨rfl, rfl⟩⟩)
      (SameOn.refl _ _)
    · rw [put_proc_self]
      exact hln.pagetable
    · rw [put_proc_self]
  have hmem : SameOn (own old) s.phys.mem k'.mem :=
    hs.same.mono (Multiset.subset_of_le (Multiset.le_add_right _ _))
  have hkept := hstill₁.pipesKept hinv hinv₁
  refine ⟨s', ?_, hinv', fun pi hpi => hkept pi hpi, hstill₁.initproc_eq,
    fun ho => hstill₁.oom_mono (hs.oom_mono ho),
    (fork_parent hf hs.sameMap hmem _).trans (hframe p hf.ne.symm).sameSpace, ?_,
    (fork_child hf hs).trans hchild, ?_, (hframe p hf.ne.symm).whole hlp.whole, ?_,
    fun q hp hn => ?_⟩
  · have hself : s'.proc np = pr' := put_proc_self
    have hpid : (s'.proc np).pid = (s₁.proc np).pid := by rw [hself]
    have hset : setProc np (fun npr => { npr with sz := (s.proc p).sz })
        (s.fork p np old' new' (s.proc np).sz k') = .ok ((), t) := by
      rw [setProc_run, fork_proc_child, State.fork, put_put]
      rfl
    rw [hpid, finishFork, bind_of_ok (getProc_run p _), fork_proc_parent hf.ne]
    dsimp only
    rw [hcalm₀.proc_eq, htp] at hrun₁
    rw [bind_of_ok hset, bind_of_ok hrun₀, bind_of_ok hrun₁, bind_of_ok (getProc_run np _),
      bind_of_ok (setProc_run np _ _)]
    rfl
  · have hcore := (hframe p hf.ne.symm).core_eq
    rw [htp] at hcore
    rw [Proc.rest, hcore]
    rfl
  · exact congrArg Proc.state (put_proc_self : s'.proc np = pr')
  · have hself : s'.proc np = pr' := put_proc_self
    rw [hself]
    exact ⟨by simp [pr'], Or.inr (Or.inr ⟨ptn, hln.pagetable, hln.tfValid⟩)⟩
  · refine (h.frame_put₂ hp hn _ _ (hs.same.mono fun a ha => ?_)).trans (hframe q hn)
    exact Multiset.mem_add.mpr (Or.inr (Multiset.mem_add.mpr (Or.inr
      (Multiset.mem_cons_of_mem (Multiset.mem_cons_of_mem ha)))))

theorem Fresh.forking {n pid : ℤ} {k₁ : Phys} {pt : PageTable} (h : Inv s 0)
    (hfresh : Fresh { s with nextpid := n } np pid new tfn k₁)
    (hl : Live (owners s) (s.proc p) pt tf) (hz : (s.proc p).state ≠ .zombie) :
    let t := State.put { s with nextpid := n } np (newProc pid (some new) (some tfn)) k₁
    ∃ old tf, Inv t 0 ∧ Forking t p np old new tf tfn ∧ t.proc p = s.proc p ∧
      ∀ q, q ≠ np → Frame s t q := by
  intro t
  have hne : np ≠ p := by
    rintro rfl
    exact hl.state (congrArg Proc.state hfresh.unused)
  have hinv : Inv t 0 := hfresh.inv 0 (h.setNextpid n)
  have hproc : t.proc p = s.proc p := put_proc_of_ne hne.symm
  obtain ⟨old, tf', hold⟩ := hinv.live (p := p) (by rw [hproc]; exact hl.whole)
  have hnew : t.proc np = newProc pid (some new) (some tfn) := put_proc_self
  have howners : owners t = own new + outside { s with nextpid := n } np tfn := by
    rw [owners_put, hfresh.live.procRefs_eq, outside, ← Multiset.singleton_add, add_assoc]
  refine ⟨old, tf', hinv, ⟨hne, hold, ?_, hfresh.empty, ?_, ?_⟩, hproc, fun q hq => ?_⟩
  · rw [hnew, howners]
    exact hfresh.live
  · rw [hproc]
    exact hz
  · rw [hnew]
    simp [newProc]
  · exact ((calm_setNextpid s n).frame q).trans ((h.setNextpid n).frame_put hq _
      (hfresh.same.mono (Multiset.subset_of_le (others_le_owners _ _))))

theorem kfork_spec {pt : PageTable} (h : Inv s 0) (hl : Live (owners s) (s.proc p) pt tf)
    (hz : (s.proc p).state ≠ .zombie) :
    (TRAPFRAME < (s.proc p).sz ∧ ∃ e, kfork p s = .error e) ∨
    ∃ r s', kfork p s = .ok (r, s') ∧ Inv s' 0 ∧ PipesKept s s' ∧ s'.initproc = s.initproc ∧
      (s.phys.oom = true → s'.phys.oom = true) ∧
      ((∃ np, r = (s'.proc np).pid ∧ Forked s s' p np) ∨ r = -1 ∧ ForkFailed s s' p) := by
  rcases allocproc_spec h with ⟨n, k', hrun, hstep, hwhy⟩ |
    ⟨np, n, pid, new, tfn, k₁, hrun, hfresh⟩
  · have hstep' : Step s.phys k' (owners { s with nextpid := n }) (owners { s with nextpid := n }) := by
      rw [owners_setNextpid]
      exact hstep
    have hcalm := (calm_setNextpid s n).trans ((h.setNextpid n).calm_setPhys hstep')
    refine Or.inr ⟨-1, _, ?_, (h.setNextpid n).setPhys hstep'.acct,
      PipesKept.of_eq rfl, rfl, hstep.oom_mono, Or.inr ⟨rfl, by rw [forkStops, hrun],
      (owners_setPhys _ _).trans (owners_setNextpid s n), (hcalm.frame p).sameSpace, rfl, hl.whole, fun q _ => hcalm.frame q, hwhy⟩⟩
    rw [kfork, bind_of_ok hrun]
    rfl
  obtain ⟨old, tf', hinv, hf, hproc, hframe⟩ := hfresh.forking h hl hz
  rw [kfork, bind_of_ok hrun]
  dsimp only
  set t := State.put { s with nextpid := n } np (newProc pid (some new) (some tfn)) k₁ with ht
  have htn : t.proc np = newProc pid (some new) (some tfn) := put_proc_self
  rcases copySpace_spec hinv hf with ⟨hbig, e, he⟩ | ⟨ok, old', new', k', hcopy, hok, hfail⟩
  · rw [hproc] at hbig
    exact Or.inl ⟨hbig, e, bind_of_error he⟩
  right
  rw [bind_of_ok hcopy]
  have hparent := (hframe p hf.ne.symm).sameSpace
  cases ok with
  | true =>
    obtain ⟨s', hrun', hinv', hkept', hinit', hoom', hsp, hrest', hsn, hstate', hwp, hwn,
        hframe'⟩ :=
      finishFork_spec hinv hf (by rw [htn]; rfl) (by rw [htn]; rfl) (hok rfl).1 (hok rfl).2
    refine ⟨_, s', hrun', hinv', fun pi hpi => hkept' pi hpi, hinit',
      fun ho => hoom' (hfresh.oom_mono ho), Or.inl ⟨np, rfl, ?_⟩⟩
    exact ⟨forkStops_copied hrun hcopy, hfresh.unused, hparent.trans hsp, by rw [hrest', hproc], hparent.trans hsn, hstate', hwp, hwn,
      fun q hp hn => (hframe q hn).trans (hframe' q hp hn)⟩
  | false =>
    have hs := hfail rfl
    obtain ⟨hinv₁, hlive, hchild⟩ := hinv.fork_failed hf hs
    set t₁ := t.fork p np old' new' (t.proc np).sz k' with ht₁
    have hfile : (t₁.proc np).ofile = fun _ => none := by
      rw [ht₁, fork_proc_child, htn]
      rfl
    have hsmall : (t₁.proc np).sz = 0 := by
      rw [ht₁, fork_proc_child, htn]
      rfl
    obtain ⟨k₂, hfree, hinv₂, hframe₂, hoom₂⟩ := (freeproc_spec hinv₁ hchild hfile).resolve_left
      fun hc => by rw [hsmall] at hc; exact absurd hc.1 (Nat.not_lt_zero _)
    have hpar : SameSpace t t₁ p p := fork_parent hf hs.sameMap
      (hs.same.mono (Multiset.subset_of_le (Multiset.le_add_right _ _))) _
    refine ⟨-1, _, ?_, hinv₂, PipesKept.of_eq rfl, rfl, fun _ => hoom₂.trans hs.oom, Or.inr ⟨rfl,
      forkStops_copied hrun hcopy, ?_, ?_, ?_, (hframe₂ p hf.ne.symm).whole hlive.whole, ?_, Or.inl (hoom₂.trans hs.oom)⟩⟩
    · simp only [Bool.false_eq_true, if_false]
      rw [bind_of_ok hfree]
      rfl
    · refine owners_congr rfl (fun q => ?_) rfl
      by_cases hn : q = np
      · rw [hn, put_proc_self]
        exact congrArg procRefs hfresh.unused.symm
      rw [put_proc_of_ne hn]
      by_cases hp : q = p
      · rw [hp, hlive.procRefs_eq, hs.own_eq, ← hproc, hf.parent.procRefs_eq]
      · rw [ht₁, State.fork, put_proc_of_ne hn, put_proc_of_ne hp, ht, put_proc_of_ne hn]
    · exact (hparent.trans hpar).trans (hframe₂ p hf.ne.symm).sameSpace
    · rw [put_proc_of_ne hf.ne.symm, ht₁, fork_proc_parent hf.ne, hproc]
      rfl
    · intro q hp
      by_cases hn : q = np
      · subst hn
        refine ⟨?_, fun v _ i _ => ?_⟩
        · rw [put_proc_self]
          exact congrArg Proc.core hfresh.unused.symm
        · have h0 : pteOf s q v = 0 := by rw [pteOf, show s.proc q = Proc.empty from hfresh.unused]; rfl
          have h1 : pteOf (t₁.put q Proc.empty k₂) q v = 0 := by rw [pteOf, put_proc_self]; rfl
          rw [byteOf, byteOf, h0, h1, has_zero]
          rfl
      · refine ((hframe q hn).trans (hinv.frame_put₂ hp hn _ _ (hs.same.mono fun a ha => ?_))).trans
          (hframe₂ q hn)
        exact Multiset.mem_add.mpr (Or.inr (Multiset.mem_cons_of_mem (Multiset.mem_cons_of_mem ha)))

end

end Xv6.Kernel
