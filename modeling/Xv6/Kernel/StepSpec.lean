import Xv6.Kernel.ExitSpec
import Xv6.Kernel.ForkSpec
import Xv6.Kernel.KexecSpec

/-! # One operation of a process

Everything that one step of the system can do.  The invariant, the sizes of processes
and the pipes in use after a step follow from this list.
-/
namespace Xv6.Kernel
open Library Library.Exec Library.RefCount Vm

section
variable [KernelImage] {s s₁ s' : State} {p q : ProcId} {pt pt' : PageTable} {tf : ℕ} {op : Op}
  {o : Outcome}

/-- A load, or the store of a byte. -/
def Op.access (va : ℕ) (write : Option UInt8) : Op := write.elim (.load va) (.store va)

/-- The system calls that only concern descriptors. -/
def Op.OnFiles : Op → Prop
  | .opens .. => True
  | .dup _ => True
  | .close _ => True
  | _ => False

/-- How an operation of `p` ends, when `p` has page table `pt` and trapframe page `tf`. -/
inductive OpEnd (s : State) (p : ProcId) (pt : PageTable) (tf : ℕ) :
    Op → Except Panic (Outcome × State) → Prop
  | oversize (op : Op) (e : Panic) (q : ProcId) (hbig : TRAPFRAME < (s.proc q).sz) :
      OpEnd s p pt tf op (.error e)
  | overgrown (n : ℤ) (eager : Bool) (e : Panic)
      (hbig : TRAPFRAME < max (s.proc p).sz (resize (s.proc p).sz n)) :
      OpEnd s p pt tf (.sbrk n eager) (.error e)
  | initExits (op : Op) (hp : p = s.initproc) : OpEnd s p pt tf op (.error .initExiting)
  | forked (r : ℤ) (s' : State) (np : ProcId) (hinv : Inv s' 0) (hkept : PipesKept s s')
      (hinit : s'.initproc = s.initproc) (hoom : s.phys.oom = true → s'.phys.oom = true)
      (hf : Forked s s' p np) : OpEnd s p pt tf .fork (.ok (.int r, s'))
  | forkFailed (s' : State) (hinv : Inv s' 0) (hkept : PipesKept s s')
      (hinit : s'.initproc = s.initproc) (hoom : s.phys.oom = true → s'.phys.oom = true)
      (hf : ForkFailed s s' p) : OpEnd s p pt tf .fork (.ok (.int (-1), s'))
  | exited (status : ℤ) (s' : State) (hinv : Inv s' 0) (he : Exited s s' p status) :
      OpEnd s p pt tf (.exit status) (.ok (.int 0, s'))
  | waited (addr : ℕ) (r : Option ℤ) (s' : State) (hw : WaitEnd s p pt addr r s') :
      OpEnd s p pt tf (.wait addr) (.ok (r.elim .asleep .int, s'))
  | sbrkFailed (n : ℤ) (eager : Bool) (pt' : PageTable) (k' : Phys)
      (hs : SbrkFailed s p pt tf n pt' k') :
      OpEnd s p pt tf (.sbrk n eager) (.ok (.int (-1), s.setSpace p pt' (s.proc p).sz k'))
  | sbrked (n : ℤ) (eager : Bool) (pt' : PageTable) (k' : Phys) (hs : Sbrked s p pt tf n pt' k') :
      OpEnd s p pt tf (.sbrk n eager)
        (.ok (.int (s.proc p).sz, s.setSpace p pt' (resize (s.proc p).sz n) k'))
  | sbrkCut (n : ℤ) (eager : Bool) (pt' : PageTable) (k' : Phys) (hs : SbrkCut s p pt tf n pt' k') :
      OpEnd s p pt tf (.sbrk n eager)
        (.ok (.int (s.proc p).sz, s.setSpace p pt' (resize (s.proc p).sz n) k'))
  | execFailed (path uargv : ℕ) (lookup : List UInt8 → Option (ℕ × List UInt8)) (s' : State)
      (ha : Accessed s p 0 [] s') :
      OpEnd s p pt tf (.exec path uargv lookup) (.ok (.int (-1), s'))
  | execed (path uargv : ℕ) (lookup : List UInt8 → Option (ℕ × List UInt8)) (name : List UInt8)
      (argc : ℕ) (pt' : PageTable) (sz' : ℕ) (k' : Phys)
      (hc : Committed (others s p) tf pt s.phys pt' sz' k') :
      OpEnd s p pt tf (.exec path uargv lookup)
        (.ok (.int argc, s.put p ((s.proc p).execed name pt' sz') k'))
  | accessed (op : Op) (va : ℕ) (write : Option UInt8) (s' : State) (hop : op = .access va write)
      (ha : Accessed s p va write.toList s') (hv : va / PGSIZE < UPAGES)
      (hmay : (leaf pt (va / PGSIZE)).has PTE_V → MayAccess pt va write.isSome) :
      OpEnd s p pt tf op (.ok (.byte (some (write.getD (byteAt pt s.phys.mem va))), s'))
  | killed (op : Op) (va : ℕ) (write : Option UInt8) (s₁ s' : State) (hop : op = .access va write)
      (ha : Accessed s p va [] s₁) (hr : Refused s s₁ p pt va write.isSome) (hinv : Inv s' 0)
      (he : Exited s₁ s' p (-1)) : OpEnd s p pt tf op (.ok (.byte none, s'))
  | copiedIn (va len : ℕ) (ok : Bool) (bytes : List UInt8) (s' : State)
      (hc : CopyinDone s p pt va len ok bytes s') :
      OpEnd s p pt tf (.copyin va len) (.ok (.bytes (if ok then some bytes else none), s'))
  | copiedOut (va : ℕ) (src : List UInt8) (ok : Bool) (m : ℕ) (s' : State)
      (hc : CopyoutDone s p pt va src ok m s') :
      OpEnd s p pt tf (.copyout va src) (.ok (.ok ok, s'))
  | piped (fdarray : ℕ) (r : ℤ) (s' : State) (hp : Piped s s' p) :
      OpEnd s p pt tf (.pipe fdarray) (.ok (.int r, s'))
  | filed (op : Op) (r : ℤ) (s' : State) (hop : op.OnFiles) (hinv : Inv s' 0) (hs : Still s s') :
      OpEnd s p pt tf op (.ok (.int r, s'))

omit [KernelImage] in
theorem Alive.whole (ha : Alive s p) : Whole (s.proc p) := by
  obtain ⟨hs, pt, hpt, hV⟩ := ha
  refine ⟨fun hu => hs (by simp [hu]), Or.inr (Or.inr ⟨pt, hpt, ?_⟩)⟩
  unfold UPAGES
  exact hV

omit [KernelImage] in
theorem Alive.not_zombie (ha : Alive s p) : (s.proc p).state ≠ .zombie :=
  fun hz => ha.1 (by simp [hz])

theorem userAccess_end (h : Inv s 0) (hl : Live (owners s) (s.proc p) pt tf) (va : ℕ)
    (write : Option UInt8) :
    OpEnd s p pt tf (.access va write) ((Outcome.byte <$> userAccess p va write 3) s) := by
  rcases userAccess_spec h hl va write with ⟨hbig, he⟩ | ⟨s', ⟨hrun, hacc, hv, hmay⟩ | ⟨hrun, hacc, hr⟩⟩
  · rw [map_of_error he]
    exact .oversize _ _ p hbig
  · rw [map_of_ok hrun]
    exact .accessed _ va write s' rfl hacc hv hmay
  · have hinv := hacc.inv h
    obtain ⟨pt', tf', hl'⟩ := hacc.live
    have hproc : s'.initproc = s.initproc := (hacc.retained h).initproc_eq
    rcases kexit_spec hinv hl' (-1) with ⟨hp, he⟩ | ⟨-, s'', hexit, hinv', hex⟩
    · rw [bind_of_error he] at hrun
      rw [map_of_error hrun]
      exact .initExits _ (hp.trans hproc)
    · rw [bind_of_ok hexit] at hrun
      rw [map_of_ok hrun]
      exact .killed _ va write s' s'' rfl hacc hr hinv' hex

theorem sbrk_end (h : Inv s 0) (hl : Live (owners s) (s.proc p) pt tf) {n : ℤ} (hmin : -2 ^ 31 ≤ n)
    (hmax : n < 2 ^ 31) (eager : Bool) :
    OpEnd s p pt tf (.sbrk n eager) ((Outcome.int <$> sysSbrk p n eager) s) := by
  obtain ⟨r, hend, hrun⟩ := sysSbrk_spec h hl hmin hmax eager
  cases hend with
  | panics e hbig =>
    rw [map_of_error hrun]
    exact .overgrown n eager e hbig
  | failed pt' k' hs =>
    rw [map_of_ok hrun]
    exact .sbrkFailed n eager pt' k' hs
  | done pt' k' hs =>
    rw [map_of_ok hrun]
    exact .sbrked n eager pt' k' hs
  | cut pt' k' hs =>
    rw [map_of_ok hrun]
    exact .sbrkCut n eager pt' k' hs

theorem exec_end (h : Inv s 0) (hl : Live (owners s) (s.proc p) pt tf) (path uargv : ℕ)
    (lookup : List UInt8 → Option (ℕ × List UInt8)) :
    OpEnd s p pt tf (.exec path uargv lookup)
      ((Outcome.int <$> sysExec p path uargv lookup) s) := by
  have hend := sysExec_spec h hl path uargv lookup
  generalize hrun : sysExec p path uargv lookup s = r at hend
  cases hend with
  | panics e hbig =>
    rw [map_of_error hrun]
    exact .oversize _ e p hbig
  | failed s' ha =>
    rw [map_of_ok hrun]
    exact .execFailed path uargv lookup s' ha
  | done name argc pt' sz' k' hc =>
    rw [map_of_ok hrun]
    exact .execed path uargv lookup name argc pt' sz' k' hc

/-- Every operation of a process that can run ends in one of these ways. -/
theorem exec_spec (h : Inv s 0) (ha : Alive s p) (ht : op.Typed) :
    ∃ pt tf, Live (owners s) (s.proc p) pt tf ∧ OpEnd s p pt tf op (exec p op s) := by
  obtain ⟨pt, tf, hl⟩ := h.live ha.whole
  refine ⟨pt, tf, hl, ?_⟩
  have hz := ha.not_zombie
  cases op with
  | fork =>
    rcases kfork_spec h hl hz with ⟨hbig, e, he⟩ |
      ⟨r, s', hrun, hinv, hkept, hinit, hoom, ⟨np, -, hf⟩ | ⟨rfl, hf⟩⟩
    · rw [exec, map_of_error he]
      exact .oversize _ e p hbig
    · rw [exec, map_of_ok hrun]
      exact .forked r s' np hinv hkept hinit hoom hf
    · rw [exec, map_of_ok hrun]
      exact .forkFailed s' hinv hkept hinit hoom hf
  | exit status =>
    rcases kexit_spec h hl status with ⟨hp, he⟩ | ⟨-, s', hrun, hinv, hex⟩
    · rw [exec, map_of_error he]
      exact .initExits _ hp
    · rw [exec, map_of_ok hrun]
      exact .exited status s' hinv hex
  | wait addr =>
    rcases kwait_spec h hl hz addr with ⟨pp, e, -, -, hbig, he⟩ | ⟨r, s', hrun, hw⟩
    · rw [exec, map_of_error he]
      exact .oversize _ e pp hbig
    · rw [exec, map_of_ok hrun]
      exact .waited addr r s' hw
  | sbrk n eager => exact sbrk_end h hl ht.1 ht.2 eager
  | exec path uargv lookup => exact exec_end h hl path uargv lookup
  | load va => exact userAccess_end h hl va none
  | store va b => exact userAccess_end h hl va (some b)
  | copyin va len =>
    rcases copyinFrom_spec h hl va len with ⟨hbig, he⟩ | ⟨ok, bytes, s', hrun, hc⟩
    · rw [exec, map_of_error he]
      exact .oversize _ _ p hbig
    · rw [exec, map_of_ok hrun]
      exact .copiedIn va len ok bytes s' hc
  | copyout va src =>
    obtain ⟨ok, m, s', hrun, hc⟩ := copyoutTo_spec h hl va src
    rw [exec, map_of_ok hrun]
    exact .copiedOut va src ok m s' hc
  | pipe fdarray =>
    obtain ⟨r, s', hrun, hp⟩ := sysPipe_spec h hl hz fdarray
    rw [exec, map_of_ok hrun]
    exact .piped fdarray r s' hp
  | opens path omode find =>
    obtain ⟨r, s', hrun, hinv, hs⟩ := sysOpen_spec h hl hz path omode find
    rw [exec, map_of_ok hrun]
    exact .filed _ r s' trivial hinv hs
  | dup fd =>
    obtain ⟨r, s', hrun, hinv, hs⟩ := sysDup_spec h hl hz fd
    rw [exec, map_of_ok hrun]
    exact .filed _ r s' trivial hinv hs
  | close fd =>
    obtain ⟨r, s', hrun, hinv, hs⟩ := sysClose_spec h hl fd
    rw [exec, map_of_ok hrun]
    exact .filed _ r s' trivial hinv hs

/-! ## What follows for the state -/

theorem WaitEnd.inv {addr : ℕ} {r : Option ℤ} (hw : WaitEnd s p pt addr r s') (h : Inv s 0)
    (hl : Live (owners s) (s.proc p) pt tf) : Inv s' 0 := by
  cases hw with
  | nothing r hr => exact h
  | failed pp s₁ hparent hzombie hrep =>
    obtain ⟨m, hacc⟩ := hrep.accessed h hl
    exact hacc.inv h
  | reaped pp s₁ k' hparent hzombie hrep hinv hframe hoom => exact hinv

theorem OpEnd.inv (he : OpEnd s p pt tf op (.ok (o, s'))) (h : Inv s 0)
    (hl : Live (owners s) (s.proc p) pt tf) (ha : Alive s p) : Inv s' 0 := by
  cases he with
  | forked r s' np hinv => exact hinv
  | forkFailed s' hinv => exact hinv
  | exited status s' hinv => exact hinv
  | waited addr r s' hw => exact hw.inv h hl
  | sbrkFailed n eager pt' k' hs => exact hs.inv h hl
  | sbrked n eager pt' k' hs => exact hs.inv h hl
  | sbrkCut n eager pt' k' hs => exact hs.inv h hl ha.1
  | execFailed path uargv lookup s' hacc => exact hacc.inv h
  | execed path uargv lookup name argc pt' sz' k' hc => exact hc.inv h hl name
  | accessed op va write s' hop hacc => exact hacc.inv h
  | killed op va write s₁ s' hop hacc hr hinv => exact hinv
  | copiedIn va len ok bytes s' hc => exact hc.accessed.inv h
  | copiedOut va src ok m s' hc => exact hc.accessed.inv h
  | piped fdarray r s' hp => exact hp.inv
  | filed op r s' hop hinv => exact hinv

theorem Accessed.pipesKept {a : ℕ} {bytes : List UInt8} (ha : Accessed s p a bytes s') :
    PipesKept s s' := by
  obtain ⟨pt, tf, pt', k', -, -, rfl⟩ := ha
  exact PipesKept.of_eq rfl

/-- A pipe stays one until its page is free. -/
theorem OpEnd.pipesKept (he : OpEnd s p pt tf op (.ok (o, s'))) (h : Inv s 0)
    (hl : Live (owners s) (s.proc p) pt tf) : PipesKept s s' := by
  cases he with
  | forked r s' np hinv hkept => exact hkept
  | forkFailed s' hinv hkept => exact hkept
  | exited status s' hinv hex => exact hex.kept
  | waited addr r s' hw =>
    cases hw with
    | nothing r hr => exact PipesKept.of_eq rfl
    | failed pp s₁ hparent hzombie hrep =>
      obtain ⟨m, hacc⟩ := hrep.accessed h hl
      exact hacc.pipesKept
    | reaped pp s₁ k' hparent hzombie hrep =>
      obtain ⟨m, pt, tf, pt', k', -, -, rfl⟩ := hrep.accessed h hl
      exact PipesKept.of_eq rfl
  | sbrkFailed n eager pt' k' hs => exact PipesKept.of_eq rfl
  | sbrked n eager pt' k' hs => exact PipesKept.of_eq rfl
  | sbrkCut n eager pt' k' hs => exact PipesKept.of_eq rfl
  | execFailed path uargv lookup s' hacc => exact hacc.pipesKept
  | execed path uargv lookup name argc pt' sz' k' hc => exact PipesKept.of_eq rfl
  | accessed op va write s' hop hacc => exact hacc.pipesKept
  | killed op va write s₁ s' hop hacc hr hinv hex =>
    obtain ⟨pt, tf, pt', k', -, -, rfl⟩ := hacc
    exact hex.kept
  | copiedIn va len ok bytes s' hc => exact hc.accessed.pipesKept
  | copiedOut va src ok m s' hc => exact hc.accessed.pipesKept
  | piped fdarray r s' hp => exact hp.kept
  | filed op r s' hop hinv hs => exact hs.pipesKept h hinv

/-! ## Sizes -/

/-- No process is larger than the address space below the trapframe. -/
def Sized (s : State) : Prop := ∀ q, (s.proc q).sz ≤ TRAPFRAME

/-- The operation does not grow the memory of `p` above the trapframe. -/
def Fits (s : State) (p : ProcId) : Op → Prop
  | .sbrk n _ => 0 < n → (s.proc p).sz + n ≤ TRAPFRAME
  | _ => True

omit [KernelImage] in
theorem resize_le {sz : ℕ} {n : ℤ} (hsz : sz ≤ TRAPFRAME) (hfit : 0 < n → sz + n ≤ TRAPFRAME) :
    resize sz n ≤ TRAPFRAME := by
  unfold resize
  split
  · rcases lt_or_ge 0 n with hn | hn
    · have := hfit hn
      omega
    · omega
  · exact hsz

/-- Only init's exit stops the machine as long as no process is too large. -/
theorem OpEnd.error_eq {e : Panic} (he : OpEnd s p pt tf op (.error e)) (hs : Sized s)
    (hfit : Fits s p op) : e = .initExiting ∧ p = s.initproc := by
  generalize hr : (Except.error e : Except Panic (Outcome × State)) = r at he
  cases he with
  | oversize op e q hbig => exact absurd hbig (not_lt.mpr (hs q))
  | overgrown n eager e hbig =>
    exact absurd hbig (not_lt.mpr (max_le (hs p) (resize_le (hs p) hfit)))
  | initExits op hp =>
    cases hr
    exact ⟨rfl, hp⟩
  | _ => cases hr

omit [KernelImage] in
/-- The process and its memory have kept their size, and so have all others. -/
theorem Retained.sized (hr : Retained s s' p) (hs : Sized s) : Sized s' := by
  intro q
  by_cases hq : q = p
  · rw [hq, hr.sz_eq]
    exact hs p
  · rw [(hr.frame q hq).sz_eq]
    exact hs q

omit [KernelImage] in
theorem Sized.put (hs : Sized s) {pr : Proc} (hsz : pr.sz ≤ TRAPFRAME) (k : Phys) :
    Sized (s.put p pr k) := by
  intro q
  by_cases hq : q = p
  · rw [hq, put_proc_self]
    exact hsz
  · rw [put_proc_of_ne hq]
    exact hs q

omit [KernelImage] in
theorem Sized.setSpace (hs : Sized s) {sz : ℕ} (hsz : sz ≤ TRAPFRAME) (pt : PageTable) (k : Phys) :
    Sized (s.setSpace p pt sz k) := by
  unfold State.setSpace
  exact hs.put hsz k

omit [KernelImage] in
theorem Exited.sized {status : ℤ} (hex : Exited s s' p status) (hs : Sized s) : Sized s' := by
  intro q
  by_cases hq : q = p
  · rw [hq, hex.space.sz_eq]
    exact hs p
  · rw [(hex.frame q hq).sz_eq]
    exact hs q

/-- Every operation but a growing sbrk keeps sizes below the trapframe. -/
theorem OpEnd.sized (he : OpEnd s p pt tf op (.ok (o, s'))) (h : Inv s 0)
    (hl : Live (owners s) (s.proc p) pt tf) (hs : Sized s) (hfit : Fits s p op) : Sized s' := by
  cases he with
  | forked r s' np hinv hkept hinit hoom hf =>
    intro q
    by_cases hp : q = p
    · rw [hp, hf.parent.sz_eq]
      exact hs p
    by_cases hn : q = np
    · rw [hn, hf.child.sz_eq]
      exact hs p
    · rw [(hf.frame q hp hn).sz_eq]
      exact hs q
  | forkFailed s' hinv hkept hinit hoom hf =>
    intro q
    by_cases hp : q = p
    · rw [hp, hf.parent.sz_eq]
      exact hs p
    · rw [(hf.frame q hp).sz_eq]
      exact hs q
  | exited status s' hinv hex => exact hex.sized hs
  | waited addr r s' hw =>
    cases hw with
    | nothing r hr => exact hs
    | failed pp s₁ hparent hzombie hrep =>
      obtain ⟨m, hacc⟩ := hrep.accessed h hl
      exact (hacc.retained h).sized hs
    | reaped pp s₁ k' hparent hzombie hrep =>
      obtain ⟨m, hacc⟩ := hrep.accessed h hl
      exact ((hacc.retained h).sized hs).put (Nat.zero_le _) k'
  | sbrkFailed n eager pt' k' hf => exact hs.setSpace (hs p) pt' k'
  | sbrked n eager pt' k' hf => exact hs.setSpace (resize_le (hs p) hfit) pt' k'
  | sbrkCut n eager pt' k' hf => exact hs.setSpace (resize_le (hs p) hfit) pt' k'
  | execFailed path uargv lookup s' hacc => exact (hacc.retained h).sized hs
  | execed path uargv lookup name argc pt' sz' k' hc =>
    exact hs.put (le_trapframe_of_npages hc.image.bound) k'
  | accessed op va write s' hop hacc => exact (hacc.retained h).sized hs
  | killed op va write s₁ s' hop hacc hr hinv hex => exact hex.sized ((hacc.retained h).sized hs)
  | copiedIn va len ok bytes s' hc => exact (hc.accessed.retained h).sized hs
  | copiedOut va src ok m s' hc => exact (hc.accessed.retained h).sized hs
  | piped fdarray r s' hp => exact hp.retained.sized hs
  | filed op r s' hop hinv hst => exact (hst.retained p).sized hs

/-! ## Trapframe pages -/

def Standing (s : State) : Prop := ∀ q, (s.proc q).state ≠ .unused → Whole (s.proc q)

omit [KernelImage] in
theorem Standing.of_frames (hw : Standing s) (hp : Whole (s'.proc p))
    (hframe : ∀ q, q ≠ p → Frame s s' q) : Standing s' := by
  intro q hq
  by_cases hqp : q = p
  · rw [hqp]
    exact hp
  · have hf := hframe q hqp
    exact hf.whole (hw q (hf.state_eq ▸ hq))

theorem Live.whole_setSpace {k : Phys} {k' : Phys} {sz : ℕ} {G : Multiset ℕ}
    (hl : Live (owners s) (s.proc p) pt tf) (hev : Evolve G pt k pt' k') :
    Whole ((s.setSpace p pt' sz k').proc p) := by
  rw [State.setSpace, put_proc_self]
  exact ⟨hl.state, Or.inr (Or.inr ⟨pt', rfl, hl.tfValid_evolve hev⟩)⟩

/-- As long as sizes are below the trapframe, no process loses its trapframe page. -/
theorem OpEnd.standing (he : OpEnd s p pt tf op (.ok (o, s'))) (h : Inv s 0)
    (hl : Live (owners s) (s.proc p) pt tf) (hs : Sized s) (hw : Standing s) : Standing s' := by
  have hretained {s₁ : State} (hr : Retained s s₁ p) : Standing s₁ :=
    hw.of_frames (hr.whole hl.whole) hr.frame
  cases he with
  | forked r s' np hinv hkept hinit hoom hf =>
    intro q hq
    by_cases hp : q = p
    · rw [hp]
      exact hf.parent_whole
    by_cases hn : q = np
    · rw [hn]
      exact hf.child_whole
    · have hframe := hf.frame q hp hn
      exact hframe.whole (hw q (hframe.state_eq ▸ hq))
  | forkFailed s' hinv hkept hinit hoom hf => exact hw.of_frames hf.parent_whole hf.frame
  | exited status s' hinv hex => exact hw.of_frames (whole_zombie hex.state) hex.frame
  | waited addr r s' hwait =>
    cases hwait with
    | nothing r hr => exact hw
    | failed pp s₁ hparent hzombie hrep =>
      obtain ⟨m, hacc⟩ := hrep.accessed h hl
      exact hretained (hacc.retained h)
    | reaped pp s₁ k' hparent hzombie hrep hinv hframe =>
      obtain ⟨m, hacc⟩ := hrep.accessed h hl
      intro q hq
      by_cases hpp : q = pp
      · rw [hpp, put_proc_self] at hq
        exact absurd rfl hq
      · have hf := hframe q hpp
        exact hf.whole (hretained (hacc.retained h) q (hf.state_eq ▸ hq))
  | sbrkFailed n eager pt' k' hf =>
    exact hw.of_frames (hl.whole_setSpace hf.evolve) fun q hq => h.frame_evolve hq hf.evolve _
  | sbrked n eager pt' k' hf =>
    exact hw.of_frames (hl.whole_setSpace hf.evolve) fun q hq => h.frame_evolve hq hf.evolve _
  | sbrkCut n eager pt' k' hf => exact absurd hf.1 (not_lt.mpr (hs p))
  | execFailed path uargv lookup s' hacc => exact hretained (hacc.retained h)
  | execed path uargv lookup name argc pt' sz' k' hc =>
    refine hw.of_frames ?_ fun q hq => h.frame_put hq _ hc.same
    rw [put_proc_self]
    exact (hc.live hl (h.runs hl).live.single name).whole
  | accessed op va write s' hop hacc => exact hretained (hacc.retained h)
  | killed op va write s₁ s' hop hacc hr hinv hex =>
    exact (hretained (hacc.retained h)).of_frames (whole_zombie hex.state) hex.frame
  | copiedIn va len ok bytes s' hc => exact hretained (hc.accessed.retained h)
  | copiedOut va src ok m s' hc => exact hretained (hc.accessed.retained h)
  | piped fdarray r s' hp => exact hretained hp.retained
  | filed op r s' hop hinv hst => exact hretained (hst.retained p)

end

end Xv6.Kernel
