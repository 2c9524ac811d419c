import Xv6.Kernel.BootSpec

/-! # Runs of the whole system

Processes that can run make system calls and touch their memory in any order.  The
invariant holds in every state between two operations; as long as no call of sbrk asks
for memory at or above the trapframe, all sizes stay below it and nothing but the exit of
init stops the machine.
-/
namespace Xv6.Kernel
open Library Library.Exec Library.RefCount Vm

section
variable [KernelImage] {s s' : State} {p : ProcId} {op : Op} {o : Outcome}

/-- A process that can run makes an operation with arguments of the right types. -/
def Enabled (s : State) (i : ProcId × Op) : Prop := Alive s i.1 ∧ i.2.Typed

/-- Moreover it does not grow above the trapframe. -/
def Tame (s : State) (i : ProcId × Op) : Prop := Enabled s i ∧ Fits s i.1 i.2

/-- The states between operations. -/
def Reachable (s : State) : Prop := Reach step Enabled Booted s

/-- The states between operations of runs in which every growing call of sbrk stays
below the trapframe. -/
def TameReachable (s : State) : Prop := Reach step Tame Booted s

theorem inv_step (h : Inv s 0) (he : Enabled s (p, op)) (hrun : exec p op s = .ok (o, s')) :
    Inv s' 0 := by
  obtain ⟨pt, tf, hl, hend⟩ := exec_spec h he.1 he.2
  rw [hrun] at hend
  exact hend.inv h hl he.1

theorem Reachable.inv (h : Reachable s) : Inv s 0 :=
  Reach.invariant (fun _ hb => (booted_spec hb).inv) (fun _ _ _ _ hi he hrun => inv_step hi he hrun) h

theorem sized_step (h : Inv s 0) (hs : Sized s) (ht : Tame s (p, op))
    (hrun : exec p op s = .ok (o, s')) : Sized s' := by
  obtain ⟨pt, tf, hl, hend⟩ := exec_spec h ht.1.1 ht.1.2
  rw [hrun] at hend
  exact hend.sized h hl hs ht.2

theorem standing_step (h : Inv s 0) (hs : Sized s) (hw : Standing s) (he : Enabled s (p, op))
    (hrun : exec p op s = .ok (o, s')) : Standing s' := by
  obtain ⟨pt, tf, hl, hend⟩ := exec_spec h he.1 he.2
  rw [hrun] at hend
  exact hend.standing h hl hs hw

theorem TameReachable.invs (h : TameReachable s) : Inv s 0 ∧ Sized s ∧ Standing s := by
  refine Reach.invariant (I := fun s => Inv s 0 ∧ Sized s ∧ Standing s) ?_ ?_ h
  · intro s hb
    have hready := booted_spec hb
    exact ⟨hready.inv, hready.sized, hready.standing⟩
  · rintro s ⟨p, op⟩ o s' ⟨hi, hs, hw⟩ ht hrun
    exact ⟨inv_step hi ht.1 hrun, sized_step hi hs ht hrun, standing_step hi hs hw ht.1 hrun⟩

theorem TameReachable.inv_sized (h : TameReachable s) : Inv s 0 ∧ Sized s :=
  ⟨h.invs.1, h.invs.2.1⟩

/-- Nothing but the exit of init stops the machine. -/
theorem error_of_tame {e : Panic} (h : Inv s 0) (hs : Sized s) (ht : Tame s (p, op))
    (hrun : exec p op s = .error e) : e = .initExiting ∧ p = s.initproc := by
  obtain ⟨pt, tf, hl, hend⟩ := exec_spec h ht.1.1 ht.1.2
  rw [hrun] at hend
  exact hend.error_eq hs ht.2

end

/-! ## Guards that can be evaluated -/

instance (s : State) (p : ProcId) : Decidable (Alive s p) :=
  match h : (s.proc p).pagetable with
  | none => .isFalse fun ha => by
    obtain ⟨-, pt, hpt, -⟩ := ha
    rw [h] at hpt
    cases hpt
  | some pt => decidable_of_iff
      ((s.proc p).state ∉ [.unused, .used, .zombie] ∧ (leaf pt (TRAPFRAME / PGSIZE)).has PTE_V)
      (by simp only [Alive, h, Option.some.injEq, exists_eq_left'])

instance : (op : Op) → Decidable op.Typed
  | .sbrk .. => inferInstanceAs (Decidable (_ ∧ _))
  | .wait _ => inferInstanceAs (Decidable (_ < _))
  | .exec .. => inferInstanceAs (Decidable (_ ∧ _))
  | .load _ => inferInstanceAs (Decidable (_ < _))
  | .store .. => inferInstanceAs (Decidable (_ < _))
  | .copyin .. => inferInstanceAs (Decidable (_ ∧ _))
  | .copyout .. => inferInstanceAs (Decidable (_ < _))
  | .pipe _ => inferInstanceAs (Decidable (_ < _))
  | .opens .. => inferInstanceAs (Decidable (_ < _))
  | .fork => .isTrue trivial
  | .exit _ => .isTrue trivial
  | .dup _ => .isTrue trivial
  | .close _ => .isTrue trivial

instance (s : State) (p : ProcId) : (op : Op) → Decidable (Fits s p op)
  | .sbrk .. => inferInstanceAs (Decidable (_ → _))
  | .fork | .exit _ | .wait _ | .exec .. | .load _ | .store .. | .copyin .. | .copyout .. | .pipe _
  | .opens .. | .dup _ | .close _ => .isTrue trivial

instance (s : State) (i : ProcId × Op) : Decidable (Enabled s i) :=
  inferInstanceAs (Decidable (_ ∧ _))

instance (s : State) (i : ProcId × Op) : Decidable (Tame s i) :=
  inferInstanceAs (Decidable (_ ∧ _))

/-! ## A small machine -/

instance : NeZero NPROC := ⟨by decide⟩

instance : NeZero NOFILE := ⟨by decide⟩

instance : NeZero NFILE := ⟨by decide⟩

/-- A kernel that leaves twenty pages free. -/
abbrev twentyPages : KernelImage where
  kend := 0x87fec000
  trampoline := 0x80007000
  kernbase_le_kend := by decide
  kend_le_phystop := by decide
  trampoline_aligned := by decide
  trampoline_lt_kend := by decide

/-- An executable without segments. -/
def emptyProgram : List UInt8 := [0x7f, 0x45, 0x4c, 0x46] ++ List.replicate 60 0

/-- The small machine when its first process runs the empty program. -/
def justStarted : State :=
  match @boot twentyPages 0 (1, emptyProgram) (State.start fun _ => 0) with
  | .ok (_, s) => s
  | .error _ => State.start fun _ => 0

theorem justStarted_booted : @Booted twentyPages justStarted := by
  have hok : (@boot twentyPages 0 (1, emptyProgram) (State.start fun _ => 0)).isOk = true := by
    decide +kernel
  refine ⟨fun _ => 0, 0, (1, emptyProgram), ?_⟩
  unfold justStarted
  generalize @boot twentyPages 0 (1, emptyProgram) (State.start fun _ => 0) = r at hok
  cases r with
  | error e => cases hok
  | ok a => rfl

/-- The state of the small machine after a list of operations. -/
def after (ops : List (ProcId × Op)) : State := drive (@step twentyPages) ops justStarted

theorem reachable_after {ops : List (ProcId × Op)}
    (h : Allowed (@step twentyPages) Enabled ops justStarted) :
    @Reachable twentyPages (after ops) :=
  Reach.drive_allowed justStarted_booted h

theorem tame_after {ops : List (ProcId × Op)}
    (h : Allowed (@step twentyPages) Tame ops justStarted) :
    @TameReachable twentyPages (after ops) :=
  Reach.drive_allowed justStarted_booted h

end Xv6.Kernel
