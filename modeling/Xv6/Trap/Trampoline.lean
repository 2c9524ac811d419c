import Xv6.Library.Riscv
import Xv6.Library.Run

/-! # Traps from user space

`uservec` and `userret` of trampoline.S, instruction by instruction, with
`usertrap`, `syscall` and `prepare_return` between them.  What the rest of the
kernel does during a trap is a parameter.  The page of the trampoline is mapped
at the same address by every page table, so fetching code needs no translation.
-/
namespace Xv6.Trap
open Library Library.Riscv Reg

def TRAPFRAME : Word := 0x3fffffe000

/-- Where the trapframe keeps the registers that `uservec` saves with one `sd`. -/
def frame : List (Reg × Word) :=
  [(ra, 40), (sp, 48), (gp, 56), (tp, 64), (t0, 72), (t1, 80), (t2, 88), (s0, 96), (s1, 104),
    (a1, 120), (a2, 128), (a3, 136), (a4, 144), (a5, 152), (a6, 160), (a7, 168), (s2, 176),
    (s3, 184), (s4, 192), (s5, 200), (s6, 208), (s7, 216), (s8, 224), (s9, 232), (s10, 240),
    (s11, 248), (t3, 256), (t4, 264), (t5, 272), (t6, 280)]

def uservec : List Instr :=
  [.csrw .sscratch a0, .li a0 TRAPFRAME] ++ saves a0 frame ++
    [.csrr t0 .sscratch, .sd t0 112 a0, .ld sp 8 a0, .ld tp 32 a0, .ld t0 16 a0, .ld t1 0 a0,
      .sfence, .csrw .satp t1, .sfence]

def userret : List Instr :=
  [.sfence, .csrw .satp a0, .sfence, .li a0 TRAPFRAME] ++ loads a0 frame ++ [.ld a0 112 a0]

/-- What the code of a process's traps refers to.  The user page table maps the trapframe. -/
structure Kernel where
  tr : Word → Word → Word
  /-- `p->trapframe`, a physical address, which the kernel maps to itself. -/
  tf : Word
  /-- `MAKE_SATP(p->pagetable)`. -/
  satp : Word
  kernelSatp : Word
  kstack : Word
  usertrap : Word
  kernelvec : Word
  /-- `TRAMPOLINE + (uservec - trampoline)`. -/
  uservec : Word
  trapframe : ∀ o : Word, o.toNat < 4096 → tr satp (TRAPFRAME + o) = tf + o

/-- The parts of the kernel that one trap runs. -/
structure Body where
  /-- The entries of `syscalls`. -/
  syscalls : ℕ → Option (Hart → Word × Hart)
  /-- `devintr`, `vmfault` or `setkilled`. -/
  other : Hart → Hart
  yield : Hart → Hart
  killed : Hart → Bool
  /-- What the compiled code leaves in the registers. -/
  scratch : Reg → Word

inductive Stop
  | panic
  /-- `kexit(-1)`. -/
  | exit

section
variable (K : Kernel) (b : Body)

/-- `uservec` up to its `jalr`. -/
def enter (s : Hart) : Hart :=
  let s' := run K.tr uservec s
  { s' with pc := s'.x t0 }

def NELEM : ℤ := 22

/-- The entry of `syscalls` for the contents of `a7`. -/
def Body.lookup (a7 : Word) : Option (Hart → Word × Hart) :=
  let num := (a7.setWidth 32).toInt
  if 0 < num ∧ num < NELEM then b.syscalls num.toNat else none

def syscall (s : Hart) : Hart :=
  match b.lookup (s.mem (K.tf + 168)) with
  | some f => (f s).2.store (K.tf + 112) (f s).1
  | none => s.store (K.tf + 112) (-1)

def prepareReturn (s : Hart) : Hart :=
  let s := s.setCsr .stvec K.uservec
  let s := s.store K.tf (s.csr .satp)
  let s := s.store (K.tf + 8) (K.kstack + 4096)
  let s := s.store (K.tf + 16) K.usertrap
  let s := s.store (K.tf + 32) (s.x tp)
  { s.setCsr .sepc (s.mem (K.tf + 24)) with sstatus := ⟨false, true, false⟩ }

def usertrap (s : Hart) : Except Stop Hart :=
  if s.sstatus.spp then .error .panic else
  let cause := s.csr .scause
  let s := (s.setCsr .stvec K.kernelvec).store (K.tf + 24) (s.csr .sepc)
  if cause = 8 ∧ b.killed s = true then .error .exit else
  let s :=
    if cause = 8 then
      let s := s.store (K.tf + 24) (s.mem (K.tf + 24) + 4)
      syscall K b { s with sstatus := { s.sstatus with sie := true } }
    else b.other s
  if b.killed s then .error .exit else
  .ok (prepareReturn K (if cause = 0x8000000000000005 then b.yield s else s))

/-- `usertrap` returns to `userret` with the user's `satp` in `a0`. -/
def leave (s : Hart) : Hart :=
  (run K.tr userret
    { s with x := Function.update (Function.update b.scratch tp (s.x tp)) a0 K.satp }).sret

/-- A process in user space runs, or traps into the kernel and comes back. -/
inductive Event
  | user (x : Reg → Word) (pc : Word) (mem : Word → Word)
  | trap (cause : Word) (b : Body)

def step : Event → Hart → Except Stop (Unit × Hart)
  | .user x pc mem, s => .ok ((), { s with x, pc, mem })
  | .trap cause b, s => do
    let s ← usertrap K b (enter K (s.trap cause))
    return ((), leave K b s)

end

/-! ## Entry and return -/

/-- In user space, with all that the next trap will need in place. -/
structure Ready (K : Kernel) (s : Hart) : Prop where
  user : s.user = true
  stvec : s.csr .stvec = K.uservec
  satp : s.csr .satp = K.satp
  kernelSatp : s.mem K.tf = K.kernelSatp
  kernelSp : s.mem (K.tf + 8) = K.kstack + 4096
  kernelTrap : s.mem (K.tf + 16) = K.usertrap
  kernelHartid : s.mem (K.tf + 32) = s.id

/-- In the kernel, where `tp` holds the number of the hart. -/
structure InKernel (K : Kernel) (s : Hart) : Prop where
  user : s.user = false
  tp : s.x tp = s.id
  satp : s.csr .satp = K.kernelSatp

/-- The trapframe holds the registers `x`. -/
def Holds (K : Kernel) (mem : Word → Word) (x : Reg → Word) : Prop :=
  ∀ e ∈ (a0, 112) :: frame, mem (K.tf + e.2) = x e.1

structure Entered (K : Kernel) (s : Hart) (cause : Word) (e : Hart) : Prop extends InKernel K e where
  pc : e.pc = K.usertrap
  sp : e.x sp = K.kstack + 4096
  sepc : e.csr .sepc = s.pc
  scause : e.csr .scause = cause
  spp : e.sstatus.spp = false
  holds : Holds K e.mem s.x
  frame : ∀ a, (∀ e ∈ (a0, 112) :: frame, a ≠ K.tf + e.2) → e.mem a = s.mem a

section
variable {K : Kernel} {b : Body} {s s' e : Hart} {cause : Word}

theorem frame_small : ∀ e ∈ frame, e.1 ≠ a0 ∧ e.2.toNat < 4096 := by decide

theorem frame_nodup : (frame.map Prod.fst).Nodup ∧ (frame.map Prod.snd).Nodup := by decide

theorem mem_frame (r : Reg) : ∃ o : Word, (r, o) ∈ (a0, 112) :: frame := by
  cases r <;> simp [frame]

/-- The registers are saved, and those of the kernel come from the trapframe. -/
theorem run_uservec (h : s.csr .satp = K.satp) :
    run K.tr uservec s =
      let mem := Function.update (saved K.tf s.x frame s.mem) (K.tf + 112) (s.x a0)
      { s with
        x := fun r => if r = t1 then mem K.tf else if r = t0 then mem (K.tf + 16) else
          if r = tp then mem (K.tf + 32) else if r = sp then mem (K.tf + 8) else
          if r = a0 then TRAPFRAME else s.x r
        csr := Function.update (Function.update s.csr .sscratch (s.x a0)) .satp (mem K.tf)
        mem := mem } := by
  let s₁ := (s.setCsr .sscratch (s.x a0)).setReg a0 TRAPFRAME
  have hsaves : run K.tr (saves a0 frame) s₁ = { s₁ with mem := saved K.tf s.x frame s.mem } := by
    have hmap : ∀ e ∈ frame, K.tr (s₁.csr .satp) (s₁.x a0 + e.2) = K.tf + e.2 := by
      intro e he
      rw [show s₁.csr .satp = K.satp from h]
      exact K.trapframe _ (frame_small e he).2
    have hx : ∀ e ∈ frame, s₁.x e.1 = s.x e.1 := fun e he =>
      Function.update_of_ne (frame_small e he).1 _ _
    rw [run_saves hmap, saved_congr hx]
    rfl
  have h0 : K.tr K.satp TRAPFRAME = K.tf := by simpa using K.trapframe 0 (by decide)
  have h8 := K.trapframe 8#64 (by decide)
  have h16 := K.trapframe 16#64 (by decide)
  have h32 := K.trapframe 32#64 (by decide)
  have h112 := K.trapframe 112#64 (by decide)
  rw [uservec, run_append, run_append,
    show run K.tr [.csrw .sscratch a0, .li a0 TRAPFRAME] s = s₁ from rfl, hsaves]
  simp [run, exec, s₁, Hart.setReg, Hart.setCsr, Hart.store, h, h0, h8, h16, h32, h112]
  funext r
  cases r <;> simp

/-- A word of the trapframe that `uservec` does not write. -/
theorem saved_kernel {o v : Word} {x : Reg → Word} {mem : Word → Word} (ho : ∀ e ∈ frame, o ≠ e.2)
    (h : o ≠ 112) : Function.update (saved K.tf x frame mem) (K.tf + 112) v (K.tf + o) =
      mem (K.tf + o) := by
  rw [Function.update_of_ne (by simpa using h)]
  exact saved_of_not_mem fun e he => by simpa using ho e he

theorem Ready.entered (h : Ready K s) (cause : Word) :
    Entered K s cause (enter K (s.trap cause)) := by
  have h0 {v : Word} {x : Reg → Word} {mem : Word → Word} :
      Function.update (saved K.tf x frame mem) (K.tf + 112) v K.tf = mem K.tf := by
    simpa using @saved_kernel K 0 v x mem (by decide) (by decide)
  have hsatp : (s.trap cause).csr .satp = K.satp := h.satp
  rw [enter, run_uservec hsatp]
  constructor
  · constructor
    · rfl
    · exact (saved_kernel (by decide) (by decide)).trans h.kernelHartid
    · exact h0.trans h.kernelSatp
  · exact (saved_kernel (by decide) (by decide)).trans h.kernelTrap
  · exact (saved_kernel (by decide) (by decide)).trans h.kernelSp
  · rfl
  · rfl
  · simp [Hart.trap, h.user]
  · intro e he
    rcases List.mem_cons.mp he with rfl | he
    · exact Function.update_self _ _ _
    · have hne : e.2 ≠ 112 := by
        revert e
        decide
      exact (Function.update_of_ne (by simpa using hne) _ _).trans (saved_of_mem frame_nodup.2 he)
  · intro a ha
    exact (Function.update_of_ne (ha _ List.mem_cons_self) _ _).trans
      (saved_of_not_mem fun e he => ha e (List.mem_cons_of_mem _ he))

/-- Every register comes from the trapframe. -/
theorem run_userret (h : s.x a0 = K.satp) :
    run K.tr userret s =
      { s with
        x := Function.update (loaded K.tf s.mem frame s.x) a0 (s.mem (K.tf + 112))
        csr := Function.update s.csr .satp K.satp } := by
  let s₁ := (s.setCsr .satp K.satp).setReg a0 TRAPFRAME
  have hmap : ∀ e ∈ frame, e.1 ≠ a0 ∧ K.tr (s₁.csr .satp) (s₁.x a0 + e.2) = K.tf + e.2 :=
    fun e he => ⟨(frame_small e he).1, K.trapframe _ (frame_small e he).2⟩
  have hinit : run K.tr [.sfence, .csrw .satp a0, .sfence, .li a0 TRAPFRAME] s = s₁ := by
    simp [run, exec, s₁, h]
  have ha0 : loaded K.tf s.mem frame s₁.x a0 = TRAPFRAME :=
    loaded_of_not_mem fun e he => (frame_small e he).1.symm
  have hx : Function.update (loaded K.tf s.mem frame s₁.x) a0 (s.mem (K.tf + 112)) =
      Function.update (loaded K.tf s.mem frame s.x) a0 (s.mem (K.tf + 112)) := by
    funext r
    obtain ⟨o, ho⟩ := mem_frame r
    rcases List.mem_cons.mp ho with heq | ho
    · cases heq
      simp
    · have hr := (frame_small _ ho).1
      rw [Function.update_of_ne hr, Function.update_of_ne hr, loaded_of_mem frame_nodup.1 ho,
        loaded_of_mem frame_nodup.1 ho]
  rw [userret, run_append, run_append, hinit, run_loads hmap, ← hx]
  change Hart.setReg _ a0 (s.mem (K.tr K.satp (loaded K.tf s.mem frame s₁.x a0 + 112))) = _
  rw [ha0, K.trapframe 112 (by decide)]
  rfl

theorem loaded_holds {mem : Word → Word} {x : Reg → Word} :
    Holds K mem (Function.update (loaded K.tf mem frame x) a0 (mem (K.tf + 112))) := by
  intro e he
  rcases List.mem_cons.mp he with rfl | he
  · simp
  · rw [Function.update_of_ne (frame_small e he).1, loaded_of_mem frame_nodup.1 he]

theorem prepareReturn_mem {o : Word} (h : o ∉ [0, 8, 16, 32]) :
    (prepareReturn K e).mem (K.tf + o) = e.mem (K.tf + o) := by
  simp only [List.mem_cons, List.not_mem_nil, or_false, not_or] at h
  obtain ⟨h0, h8, h16, h32⟩ := h
  simp only [prepareReturn, Hart.store, Hart.setCsr]
  rw [Function.update_of_ne (by simpa using h32), Function.update_of_ne (by simpa using h16),
    Function.update_of_ne (by simpa using h8), Function.update_of_ne (by simpa using h0)]

theorem InKernel.leave (h : InKernel K e) (b : Body) :
    Ready K (leave K b (prepareReturn K e)) ∧
      (Trap.leave K b (prepareReturn K e)).pc = e.mem (K.tf + 24) ∧
      Holds K e.mem (Trap.leave K b (prepareReturn K e)).x := by
  have hmem : ∀ o ∈ (a0, 112) :: frame, o.2 ∉ ([0, 8, 16, 32] : List Word) := by decide
  rw [Trap.leave, run_userret (by simp)]
  refine ⟨⟨?_, ?_, ?_, ?_, ?_, ?_, ?_⟩, ?_, fun o ho => ?_⟩
  · simp [Hart.sret, prepareReturn]
  · simp [Hart.sret, prepareReturn, Hart.setCsr, Hart.store]
  · simp [Hart.sret, prepareReturn, Hart.setCsr]
  · simp [Hart.sret, prepareReturn, Hart.setCsr, Hart.store, h.satp]
  · simp [Hart.sret, prepareReturn, Hart.setCsr, Hart.store]
  · simp [Hart.sret, prepareReturn, Hart.setCsr, Hart.store]
  · simp [Hart.sret, prepareReturn, Hart.setCsr, Hart.store, h.tp]
  · simp [Hart.sret, prepareReturn, Hart.setCsr, Hart.store]
  · rw [← prepareReturn_mem (hmem o ho)]
    exact loaded_holds o ho

/-- Code that stays in the kernel and keeps its hands off the trapframe. -/
def Keeps (K : Kernel) (f : Hart → Hart) : Prop :=
  ∀ s, InKernel K s → InKernel K (f s) ∧
    ∀ o : Word, o.toNat < 4096 → (f s).mem (K.tf + o) = s.mem (K.tf + o)

/-- Every part of the kernel does, so `sys_exec` is not among the system calls. -/
structure Tidy (K : Kernel) (b : Body) : Prop where
  syscalls : ∀ n f, b.syscalls n = some f → Keeps K fun s => (f s).2
  other : Keeps K b.other
  yield : Keeps K b.yield

/-- What the system call with number `a7` returns. -/
def Body.result (b : Body) (a7 : Word) (s : Hart) : Word :=
  (b.lookup a7).elim (-1) fun f => (f s).1

theorem Holds.update_a0 {mem : Word → Word} {x : Reg → Word} (h : Holds K mem x) (v : Word) :
    Holds K (Function.update mem (K.tf + 112) v) (Function.update x a0 v) := by
  have hne : ∀ e ∈ frame, e.2 ≠ 112 := by decide
  intro e he
  rcases List.mem_cons.mp he with rfl | he'
  · simp
  · rw [Function.update_of_ne (frame_small e he').1, ← h e he]
    exact Function.update_of_ne (by simpa using hne e he') _ _

theorem Holds.congr {mem mem' : Word → Word} {x : Reg → Word} (h : Holds K mem x)
    (heq : ∀ o : Word, o.toNat < 4096 → o ≠ 24 → mem' (K.tf + o) = mem (K.tf + o)) :
    Holds K mem' x := by
  have hall : ∀ e ∈ (a0, 112) :: frame, e.2.toNat < 4096 ∧ e.2 ≠ 24 := by decide
  intro e he
  rw [heq _ (hall e he).1 (hall e he).2, h e he]

theorem lookup_keeps {f : Hart → Word × Hart} {a7 : Word} (hb : Tidy K b)
    (h : b.lookup a7 = some f) : Keeps K fun s => (f s).2 := by
  rw [Body.lookup] at h
  split at h
  · exact hb.syscalls _ _ h
  · cases h

theorem syscall_spec (hb : Tidy K b) (h : InKernel K e) {x : Reg → Word} (hx : Holds K e.mem x) :
    InKernel K (syscall K b e) ∧
      (syscall K b e).mem (K.tf + 24) = e.mem (K.tf + 24) ∧
      Holds K (syscall K b e).mem (Function.update x a0 (b.result (x a7) e)) := by
  have ha7 : e.mem (K.tf + 168) = x a7 := hx (a7, 168) (by simp [frame])
  rw [syscall, Body.result, ha7]
  cases hf : b.lookup (x a7) with
  | none => exact ⟨⟨h.user, h.tp, h.satp⟩, by simp [Hart.store], hx.update_a0 _⟩
  | some f =>
    obtain ⟨hk, hkeep⟩ := lookup_keeps hb hf e h
    refine ⟨⟨hk.user, hk.tp, hk.satp⟩, ?_, (hx.congr fun o ho _ => hkeep o ho).update_a0 _⟩
    rw [← hkeep 24 (by decide)]
    simp [Hart.store]

theorem Holds.store_epc {mem : Word → Word} {x : Reg → Word} (h : Holds K mem x) (v : Word) :
    Holds K (Function.update mem (K.tf + 24) v) x :=
  h.congr fun _ _ ho => Function.update_of_ne (by simpa using ho) _ _

/-- Where `usertrap` prepares to return: the trapframe has the registers as they were, but for
the program counter and the result of a system call. -/
theorem usertrap_spec (hb : Tidy K b) (he : Entered K s cause e) (h : usertrap K b e = .ok s') :
    ∃ e', s' = prepareReturn K e' ∧ InKernel K e' ∧
      e'.mem (K.tf + 24) = (if cause = 8 then s.pc + 4 else s.pc) ∧
      (cause ≠ 8 → Holds K e'.mem s.x) ∧
      (cause = 8 → ∃ e₁, InKernel K e₁ ∧ Holds K e₁.mem s.x ∧
        Holds K e'.mem (Function.update s.x a0 (b.result (s.x a7) e₁))) := by
  simp only [usertrap, he.spp, he.scause, he.sepc, Bool.false_eq_true, if_false] at h
  by_cases hc : cause = 8
  · subst hc
    simp only [true_and, if_true] at h
    split at h
    · cases h
    split at h
    · cases h
    cases h
    let e₁ : Hart := { e with
      csr := Function.update e.csr .stvec K.kernelvec
      mem := Function.update (Function.update e.mem (K.tf + 24) s.pc) (K.tf + 24) (s.pc + 4)
      sstatus := { e.sstatus with sie := true } }
    have hk : InKernel K e₁ := ⟨he.user, he.tp, he.satp⟩
    have hx : Holds K e₁.mem s.x := (he.holds.store_epc _).store_epc _
    obtain ⟨hk', hpc, hx'⟩ := syscall_spec hb hk hx
    refine ⟨syscall K b e₁, ?_, hk', ?_, fun hne => absurd rfl hne, fun _ => ⟨e₁, hk, hx, hx'⟩⟩
    · simp [e₁, Hart.store, Hart.setCsr]
    · rw [hpc]
      simp [e₁]
  · simp only [hc, false_and, if_false] at h
    split at h
    · cases h
    cases h
    let e₁ : Hart := { e with
      csr := Function.update e.csr .stvec K.kernelvec
      mem := Function.update e.mem (K.tf + 24) s.pc }
    have hk : InKernel K e₁ := ⟨he.user, he.tp, he.satp⟩
    obtain ⟨hk₁, hkeep₁⟩ := hb.other e₁ hk
    have hx₁ : Holds K (b.other e₁).mem s.x :=
      (he.holds.store_epc s.pc).congr fun o ho _ => hkeep₁ o ho
    have hpc₁ : (b.other e₁).mem (K.tf + 24) = if cause = 8 then s.pc + 4 else s.pc := by
      rw [hkeep₁ 24 (by decide), if_neg hc]
      simp [e₁]
    by_cases hy : cause = 0x8000000000000005
    · obtain ⟨hk₂, hkeep₂⟩ := hb.yield _ hk₁
      exact ⟨b.yield (b.other e₁), by rw [if_pos hy]; rfl, hk₂,
        (hkeep₂ 24 (by decide)).trans hpc₁, fun _ => hx₁.congr fun o ho _ => hkeep₂ o ho,
        fun h8 => absurd h8 hc⟩
    · exact ⟨b.other e₁, by rw [if_neg hy]; rfl, hk₁, hpc₁, fun _ => hx₁, fun h8 => absurd h8 hc⟩

/-- User code has no access to the trapframe, which is mapped without `PTE_U`. -/
def Guard (K : Kernel) (s : Hart) : Event → Prop
  | .user _ _ mem => ∀ o : Word, o.toNat < 4096 → mem (K.tf + o) = s.mem (K.tf + o)
  | .trap _ b => Tidy K b

/-- `forkret` returns to user space for the first time. -/
def Init (K : Kernel) (s : Hart) : Prop :=
  ∃ b e, InKernel K e ∧ s = leave K b (prepareReturn K e)

theorem Holds.ext {mem : Word → Word} {x y : Reg → Word} (hx : Holds K mem x) (hy : Holds K mem y) :
    x = y := by
  funext r
  obtain ⟨o, ho⟩ := mem_frame r
  exact (hx _ ho).symm.trans (hy _ ho)

/-- One trap, from user space to user space. -/
theorem Ready.trap (h : Ready K s) (hb : Tidy K b) (hstep : step K (.trap cause b) s = .ok ((), s')) :
    Ready K s' ∧ s'.pc = (if cause = 8 then s.pc + 4 else s.pc) ∧ (cause ≠ 8 → s'.x = s.x) ∧
      (cause = 8 → ∃ e, InKernel K e ∧ Holds K e.mem s.x ∧
        s'.x = Function.update s.x a0 (b.result (s.x a7) e)) := by
  simp only [step] at hstep
  cases hu : usertrap K b (enter K (s.trap cause)) with
  | error e =>
    rw [hu] at hstep
    cases hstep
  | ok s₁ =>
    rw [hu] at hstep
    cases hstep
    obtain ⟨e', rfl, he', hpc, hother, hcall⟩ := usertrap_spec hb (h.entered cause) hu
    obtain ⟨hready, hpc', hx⟩ := he'.leave b
    refine ⟨hready, hpc'.trans hpc, fun hc => hx.ext (hother hc), fun hc => ?_⟩
    obtain ⟨e₁, hk, hx₁, hx'⟩ := hcall hc
    exact ⟨e₁, hk, hx₁, hx.ext hx'⟩

theorem Reach.ready (h : Reach (step K) (Guard K) (Init K) s) : Ready K s := by
  refine h.invariant ?_ ?_
  · rintro _ ⟨b, e, he, rfl⟩
    exact (he.leave b).1
  · intro s i _ s' hs hg hstep
    cases i with
    | user x pc mem =>
      cases hstep
      have hg : ∀ o : Word, o.toNat < 4096 → mem (K.tf + o) = s.mem (K.tf + o) := hg
      refine ⟨hs.user, hs.stvec, hs.satp, ?_, ?_, ?_, ?_⟩
      · simpa using (hg 0 (by decide)).trans (by simpa using hs.kernelSatp)
      · exact (hg 8 (by decide)).trans hs.kernelSp
      · exact (hg 16 (by decide)).trans hs.kernelTrap
      · exact (hg 32 (by decide)).trans hs.kernelHartid
    | trap cause b => exact (hs.trap hg hstep).1

/-- However a process in user space got there, a trap starts `usertrap` on its kernel stack with the
kernel's page table and with all its registers in the trapframe, and it comes back with all its
registers, or with all but the result in `a0` behind its `ecall`. -/
theorem trap_transparent (h : Reach (step K) (Guard K) (Init K) s) (hb : Tidy K b) (cause : Word) :
    Entered K s cause (enter K (s.trap cause)) ∧
      ∀ s', step K (.trap cause b) s = .ok ((), s') → s'.user = true ∧
        (cause ≠ 8 → s'.pc = s.pc ∧ s'.x = s.x) ∧
        (cause = 8 → s'.pc = s.pc + 4 ∧ ∃ e, InKernel K e ∧ Holds K e.mem s.x ∧
          s'.x = Function.update s.x a0 (b.result (s.x a7) e)) := by
  refine ⟨(Reach.ready h).entered cause, fun s' hstep => ?_⟩
  obtain ⟨hready, hpc, hother, hcall⟩ := (Reach.ready h).trap hb hstep
  refine ⟨hready.user, fun hc => ⟨?_, hother hc⟩, fun hc => ⟨?_, hcall hc⟩⟩
  · rw [hpc, if_neg hc]
  · rw [hpc, if_pos hc]

end

/-- A process whose `satp` is 1 and whose trapframe lies at `0x87000000`. -/
def someKernel : Kernel where
  tr satp va := if satp = 1 then va - TRAPFRAME + 0x87000000 else va
  tf := 0x87000000
  satp := 1
  kernelSatp := 2
  kstack := 0x3fffffc000
  usertrap := 0x80002000
  kernelvec := 0x80005000
  uservec := 0x3ffffff000
  trapframe o _ := by
    rw [if_pos rfl]
    unfold TRAPFRAME
    bv_omega

/-- A kernel with no system call but `getpid`. -/
def getpid : Body where
  syscalls n := if n = 11 then some fun s => (3, s) else none
  other := id
  yield := id
  killed _ := false
  scratch _ := 0

/-- In the kernel before the first return to a program that will call `getpid`. -/
def beforeCall : Hart where
  id := 0
  x _ := 0
  csr c := if c = .satp then 2 else 0
  sstatus := ⟨false, false, false⟩
  user := false
  pc := 0
  mem a := if a = 0x870000a8 then 11 else 7

theorem trap_transparent_getpid : ∃ s s', s.x t6 = 7 ∧ s.x a7 = 11 ∧
    step someKernel (.trap 8 getpid) s = .ok ((), s') ∧ s'.pc = s.pc + 4 ∧ s'.x t6 = 7 ∧
    s'.x a0 = 3 := by
  let s := leave someKernel getpid (prepareReturn someKernel beforeCall)
  have hk : InKernel someKernel beforeCall := ⟨rfl, rfl, rfl⟩
  have hid : Keeps someKernel id := fun s hs => ⟨hs, fun _ _ => rfl⟩
  have hb : Tidy someKernel getpid := by
    refine ⟨fun n f hf => ?_, hid, hid⟩
    simp only [getpid] at hf
    split at hf <;> cases hf
    exact hid
  have hreach : Reach (step someKernel) (Guard someKernel) (Init someKernel) s :=
    ⟨s, [], ⟨getpid, beforeCall, hk, rfl⟩, .nil s⟩
  have hx := (hk.leave getpid).2.2
  have ht6 : s.x t6 = 7 := (hx (t6, 280) (by simp [frame])).symm
  have ha7 : s.x a7 = 11 := (hx (a7, 168) (by simp [frame])).symm
  obtain ⟨s', hstep⟩ : ∃ s', step someKernel (.trap 8 getpid) s = .ok ((), s') := ⟨_, rfl⟩
  obtain ⟨hpc, e, -, -, hregs⟩ := ((trap_transparent hreach hb 8).2 s' hstep).2.2 rfl
  refine ⟨s, s', ht6, ha7, hstep, hpc, ?_, ?_⟩
  · rw [hregs, Function.update_of_ne (by decide), ht6]
  · rw [hregs, Function.update_self, ha7]
    rfl

end Xv6.Trap
