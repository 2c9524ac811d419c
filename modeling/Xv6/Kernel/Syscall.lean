import Xv6.Kernel.Proc
import Xv6.Library.Run

/-! # System calls, user memory accesses and boot

One operation is a system call of one process, run to completion, or one user
memory access with the page faults it causes.
-/
namespace Xv6.Kernel
open Library Vm

section
variable [KernelImage]

/-- Change the size of user memory: `eager` is whether the second argument is
`SBRK_EAGER`. -/
def sysSbrk (p : ProcId) (n : ℤ) (eager : Bool) : KM ℤ := do
  let pr ← getProc p
  if eager ∨ n < 0 then do
    if ← growproc p n then pure pr.sz else pure (-1)
  else if addInt pr.sz n < pr.sz then pure (-1)
  else do
    setProc p fun pr => { pr with sz := addInt pr.sz n }
    pure pr.sz

/-! ## Files -/

def sysClose (p : ProcId) (fd : Fin NOFILE) : KM ℤ := do
  let pr ← getProc p
  match pr.ofile fd with
  | none => pure (-1)
  | some f =>
    setProc p fun pr => { pr with ofile := Function.update pr.ofile fd none }
    fileclose f
    pure 0

def sysDup (p : ProcId) (fd : Fin NOFILE) : KM ℤ := do
  let pr ← getProc p
  match pr.ofile fd with
  | none => pure (-1)
  | some f =>
    match ← fdalloc p f with
    | none => pure (-1)
    | some fd =>
      filedup f
      pure fd

/-- Clear the descriptors that `sys_pipe` has allocated and close both files. -/
def pipeBad (p : ProcId) (fds : List (Fin NOFILE)) (rf wf : FileId) : KM ℤ := do
  setProc p fun pr => { pr with ofile := fun fd => if fd ∈ fds then none else pr.ofile fd }
  fileclose rf
  fileclose wf
  pure (-1)

def sysPipe (p : ProcId) (fdarray : ℕ) : KM ℤ := do
  match ← pipealloc with
  | none => pure (-1)
  | some (rf, wf) =>
    match ← fdalloc p rf with
    | none => pipeBad p [] rf wf
    | some fd₀ =>
      match ← fdalloc p wf with
      | none => pipeBad p [fd₀] rf wf
      | some fd₁ =>
        if ← copyoutTo p fdarray (intBytes fd₀) then
          if ← copyoutTo p (u64 (fdarray + 4)) (intBytes fd₁) then pure 0
          else pipeBad p [fd₀, fd₁] rf wf
        else pipeBad p [fd₀, fd₁] rf wf

/-! ## Arguments in user memory -/

def fetchaddr (p : ProcId) (addr : ℕ) : KM (Option ℕ) := do
  let pr ← getProc p
  if pr.sz ≤ addr ∨ pr.sz < u64 (addr + 8) then pure none
  else do
    let (ok, bytes) ← copyinFrom p addr 8
    pure (if ok then some (leNat bytes) else none)

/-- Fetch the null-terminated string at `addr` from process `p`. -/
def fetchstr (p : ProcId) (addr max : ℕ) : KM (Option (List UInt8)) :=
  onSpace p fun pt _ => do
    let (ok, buf) ← copyinstr pt addr max
    pure (if ok then some (buf.takeWhile (· != 0)) else none, pt)

/-- The part of `sys_open` after it has found an inode: an open file for it.  `O_WRONLY` is
bit 0 of `omode` and `O_RDWR` bit 1. -/
def openFile (p : ProcId) (isDevice : Bool) (omode : ℕ) : KM ℤ := do
  match ← filealloc with
  | none => pure (-1)
  | some f =>
    match ← fdalloc p f with
    | none =>
      fileclose f
      pure (-1)
    | some fd =>
      setFile f fun file => { file with
        type := if isDevice then .device else .inode, readable := !omode.testBit 0
        writable := omode.testBit 0 || omode.testBit 1 }
      pure fd

/-- `find` is what `create` or `namei` finds at a path and lets the caller open: whether it
is a device.  It is `none` on every failure before `filealloc`. -/
def sysOpen (p : ProcId) (path omode : ℕ) (find : List UInt8 → Option Bool) : KM ℤ := do
  match ← fetchstr p path MAXPATH with
  | none => pure (-1)
  | some path =>
    match find path with
    | none => pure (-1)
    | some isDevice => openFile p isDevice omode

/-! ## sys_exec -/

/-- The loop of `sys_exec` over `argv`, from index `i` on with `n` entries left.
Each string has a page; the pages allocated so far are in `pages`. -/
def fetchArgs (p : ProcId) (uargv : ℕ) : (n i : ℕ) → (pages : List ℕ) → (argv : List (List UInt8)) →
    KM (Bool × List ℕ × List (List UInt8))
  | 0, _, pages, argv => pure (false, pages, argv)
  | n + 1, i, pages, argv => do
    match ← fetchaddr p (u64 (uargv + 8 * i)) with
    | none => pure (false, pages, argv)
    | some uarg =>
      if uarg = 0 then pure (true, pages, argv)
      else do
        match ← vm kalloc with
        | none => pure (false, pages, argv)
        | some pa =>
          match ← fetchstr p uarg PGSIZE with
          | none => pure (false, pages ++ [pa], argv)
          | some str => fetchArgs p uargv n (i + 1) (pages ++ [pa]) (argv ++ [str])

def freePages : List ℕ → KM Unit
  | [] => pure ()
  | pa :: rest => do
    vm (kfree pa)
    freePages rest

/-- `lookup` gives the inode at a path and its contents. -/
def sysExec (p : ProcId) (path uargv : ℕ) (lookup : List UInt8 → Option (ℕ × List UInt8)) :
    KM ℤ := do
  match ← fetchstr p path MAXPATH with
  | none => pure (-1)
  | some path =>
    let (ok, pages, argv) ← fetchArgs p uargv MAXARG 0 [] []
    if ok then do
      let ret ← kexec p path argv lookup
      freePages pages
      pure ret
    else do
      freePages pages
      pure (-1)

/-! ## User memory accesses -/

/-- What the MMU does with a user access to `va`. -/
def translate (pt : PageTable) (va : ℕ) (write : Bool) : Option ℕ :=
  let pte := leaf pt (va / PGSIZE)
  if va < MAXVA ∧ pte.has PTE_V ∧ pte.has PTE_U ∧ pte.has (if write then PTE_W else PTE_R) then
    some (pte2pa pte + va % PGSIZE)
  else none

def memAccess (pa : ℕ) (write : Option UInt8) : VmM UInt8 :=
  match write with
  | none => fun k => .ok (k.mem pa, k)
  | some b => do
    setMem (memmove pa (fun _ => b) 1)
    pure b

/-- One load or, with a byte, store by the program.  A fault goes through
`usertrap`, and the instruction runs again when `vmfault` has succeeded;
otherwise the process is killed and the result is `none`. -/
def userAccess (p : ProcId) (va : ℕ) (write : Option UInt8) : (tries : ℕ) → KM (Option UInt8)
  | 0 => throw .endlessFault
  | tries + 1 => do
    let pr ← getProc p
    match pr.pagetable with
    | none => throw .nullPointer
    | some pt =>
      match translate pt va write.isSome with
      | some pa =>
        let b ← vm (memAccess pa write)
        pure (some b)
      | none =>
        match ← onSpace p fun pt sz => vmfault pt sz va write.isNone with
        | some _ => userAccess p va write tries
        | none =>
          kexit p (-1)
          pure none

/-! ## Boot -/

/-- The loop of `freerange`, for `n` pages from `pa` on. -/
def freerangeLoop : (n pa : ℕ) → VmM Unit
  | 0, _ => pure ()
  | n + 1, pa => do
    modify fun k => { k with refcnt := Function.update k.refcnt (pa / PGSIZE) 1 }
    kfree pa
    freerangeLoop n (pa + PGSIZE)

def kinit : VmM Unit :=
  freerangeLoop ((PHYSTOP - pgroundup kend) / PGSIZE) (pgroundup kend)

/-- The kernel takes `n` pages for itself: page tables, stacks, disk queues. -/
def bootAlloc : ℕ → KM Unit
  | 0 => pure ()
  | n + 1 => do
    match ← vm kalloc with
    | none => throw .nullPointer
    | some pa =>
      modify fun s => { s with bootPages := pa :: s.bootPages }
      bootAlloc n

def userinit : KM Unit := do
  match ← allocproc with
  | none => throw .nullPointer
  | some p =>
    modify fun s => { s with initproc := p }
    setProc p fun pr => { pr with state := .runnable }

def initPath : List UInt8 := [47, 105, 110, 105, 116]

/-- The first process starts in `forkret`, which executes /init; `init` is its inode and
contents. -/
def forkret (init : ℕ × List UInt8) : KM Unit := do
  let s ← get
  let argc ← kexec s.initproc initPath [initPath] fun _ => some init
  if argc = -1 then throw .exec else pure ()

/-- Everything before the first user instruction. -/
def boot (n : ℕ) (init : ℕ × List UInt8) : KM Unit := do
  vm kinit
  bootAlloc n
  userinit
  forkret init

/-- The data of the kernel before it runs; all but the memory is zero. -/
def State.start (mem : ℕ → UInt8) : State where
  phys := ⟨[], fun _ => 0, mem, false⟩
  proc := fun _ => Proc.empty
  nextpid := 1
  initproc := ⟨0, by decide⟩
  ftable := fun _ => ⟨.none, 0, false, false, 0⟩
  pipe := fun _ => ⟨false, false⟩
  bootPages := []
  iref := fun _ => 0

/-- The states in which the first user instruction runs. -/
def Booted (s : State) : Prop := ∃ mem n init, boot n init (State.start mem) = .ok ((), s)

/-! ## Operations -/

inductive Op
  | fork
  | exit (status : ℤ)
  | wait (addr : ℕ)
  | sbrk (n : ℤ) (eager : Bool)
  | exec (path uargv : ℕ) (lookup : List UInt8 → Option (ℕ × List UInt8))
  | load (va : ℕ)
  | store (va : ℕ) (b : UInt8)
  | copyin (va len : ℕ)
  | copyout (va : ℕ) (src : List UInt8)
  | pipe (fdarray : ℕ)
  | opens (path omode : ℕ) (find : List UInt8 → Option Bool)
  | dup (fd : Fin NOFILE)
  | close (fd : Fin NOFILE)

/-- What an operation gives back: an integer, the byte of a memory access
(`none` when the process was killed), the bytes of a `copyin` or whether a
`copyout` succeeded. -/
inductive Outcome
  | int (n : ℤ)
  | asleep
  | byte (b : Option UInt8)
  | bytes (bs : Option (List UInt8))
  | ok (b : Bool)
  deriving DecidableEq

/-- One operation of process `p`.  An access faults at most twice. -/
def exec (p : ProcId) : Op → KM Outcome
  | .fork => .int <$> kfork p
  | .exit status => (fun _ => .int 0) <$> kexit p status
  | .wait addr => (fun r => r.elim .asleep .int) <$> kwait p addr
  | .sbrk n eager => .int <$> sysSbrk p n eager
  | .exec path uargv lookup => .int <$> sysExec p path uargv lookup
  | .load va => .byte <$> userAccess p va none 3
  | .store va b => .byte <$> userAccess p va (some b) 3
  | .copyin va len => (fun r => .bytes (if r.1 then some r.2 else none)) <$> copyinFrom p va len
  | .copyout va src => .ok <$> copyoutTo p va src
  | .pipe fdarray => .int <$> sysPipe p fdarray
  | .opens path omode find => .int <$> sysOpen p path omode find
  | .dup fd => .int <$> sysDup p fd
  | .close fd => .int <$> sysClose p fd

/-- A process that can run.  A process whose trapframe page is no longer mapped cannot:
`userret` and `uservec` fault on it for ever. -/
def Alive (s : State) (p : ProcId) : Prop :=
  (s.proc p).state ∉ [.unused, .used, .zombie] ∧
    ∃ pt, (s.proc p).pagetable = some pt ∧ (leaf pt (TRAPFRAME / PGSIZE)).has PTE_V

def step (i : ProcId × Op) (s : State) : Except Panic (Outcome × State) := exec i.1 i.2 s

/-- The arguments of a system call are `int`s and 64-bit addresses. -/
def Op.Typed : Op → Prop
  | .sbrk n _ => -2 ^ 31 ≤ n ∧ n < 2 ^ 31
  | .wait addr => addr < 2 ^ 64
  | .exec path uargv _ => path < 2 ^ 64 ∧ uargv < 2 ^ 64
  | .load va => va < 2 ^ 64
  | .store va _ => va < 2 ^ 64
  | .copyin va len => va < 2 ^ 64 ∧ len < 2 ^ 64
  | .copyout va _ => va < 2 ^ 64
  | .pipe fdarray => fdarray < 2 ^ 64
  | .opens path _ _ => path < 2 ^ 64
  | _ => True

end

end Xv6.Kernel
