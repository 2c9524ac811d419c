import Xv6.Kernel.State

/-! # Processes: proc.c, and kexec

`int` results that the kernel returns to the user are integers; -1 reports a
failure.  A system call that would sleep returns `none` and changes nothing: it
is made again later.
-/
namespace Xv6.Kernel
open Library Vm

/-- `a + n` for a `uint64` and an `int`. -/
def addInt (a : ℕ) (n : ℤ) : ℕ := ((a + n) % 2 ^ 64).toNat

/-- An `int` as four little-endian bytes. -/
def intBytes (n : ℤ) : List UInt8 :=
  (List.range 4).map fun i => UInt8.ofNat ((n % 2 ^ 32).toNat / 256 ^ i)

def allocpid : KM ℤ := fun s =>
  .ok (s.nextpid, { s with nextpid := (s.nextpid + 1).bmod (2 ^ 32) })

def Proc.clear (pr : Proc) : Proc := { pr with
  trapframe := none, pagetable := none, sz := 0, pid := 0, parent := none, name := [], xstate := 0
  state := .unused }

/-! ## The trapframe -/

/-- The size of `struct trapframe`, and where it keeps some registers. -/
def Trapframe.size : ℕ := 288
def Trapframe.epc : ℕ := 24
def Trapframe.sp : ℕ := 48
def Trapframe.a0 : ℕ := 112
def Trapframe.a1 : ℕ := 120

def storeReg (tf reg n : ℕ) : VmM Unit :=
  setMem (memmove (tf + reg) (fun i => (uint64Bytes n).getD i 0) 8)

/-- Copy the saved user registers of the parent; fork returns 0 in the child. -/
def copyTrapframe (tf tfn : ℕ) : VmM Unit := do
  setMem fun m => memmove tfn (fun i => m (tf + i)) Trapframe.size m
  storeReg tfn Trapframe.a0 0

section
variable [KernelImage]

def freeproc (p : ProcId) : KM Unit := do
  let pr ← getProc p
  match pr.trapframe with
  | some tf => vm (kfree tf)
  | none => pure ()
  match pr.pagetable with
  | some pt => vm (procFreepagetable pt pr.sz)
  | none => pure ()
  setProc p Proc.clear

/-- Look in the process table for an unused entry and set it up, with a
trapframe page and an empty user page table. -/
def allocproc : KM (Option ProcId) := do
  let s ← get
  match (List.finRange NPROC).find? fun p => (s.proc p).state = .unused with
  | none => pure none
  | some p =>
    let pid ← allocpid
    setProc p fun pr => { pr with pid := pid, state := .used }
    match ← vm kalloc with
    | none =>
      freeproc p
      pure none
    | some tf =>
      setProc p fun pr => { pr with trapframe := some tf }
      match ← vm (procPagetable tf) with
      | none =>
        freeproc p
        pure none
      | some pt =>
        setProc p fun pr => { pr with pagetable := some pt }
        pure (some p)

def growproc (p : ProcId) (n : ℤ) : KM Bool := do
  let pr ← getProc p
  match pr.pagetable with
  | none => throw .nullPointer
  | some pt =>
    if 0 < n then do
      let (sz, pt) ← vm (uvmalloc pt pr.sz (addInt pr.sz n) PTE_W)
      setProc p fun pr => { pr with pagetable := some pt }
      if sz = 0 then pure false
      else do
        setProc p fun pr => { pr with sz := sz }
        pure true
    else if n < 0 then do
      let (sz, pt) ← vm (uvmdealloc pt pr.sz (addInt pr.sz n))
      setProc p fun pr => { pr with pagetable := some pt, sz := sz }
      pure true
    else pure true

/-- The loop of `kfork` over the open files of the parent. -/
def dupFiles (np : ProcId) (ofile : Fin NOFILE → Option FileId) : List (Fin NOFILE) → KM Unit
  | [] => pure ()
  | fd :: rest => do
    match ofile fd with
    | some f =>
      filedup f
      setProc np fun pr => { pr with ofile := Function.update pr.ofile fd (some f) }
      dupFiles np ofile rest
    | none => dupFiles np ofile rest

/-- Copy user memory from the parent to the child. -/
def copySpace (p np : ProcId) : KM Bool := do
  let pr ← getProc p
  let npr ← getProc np
  match pr.pagetable, npr.pagetable with
  | some old, some new =>
    let (ok, old, new) ← vm (uvmcopy old new pr.sz)
    setProc p fun pr => { pr with pagetable := some old }
    setProc np fun npr => { npr with pagetable := some new }
    pure ok
  | _, _ => throw .nullPointer

/-- `*(np->trapframe) = *(p->trapframe)`, with `a0` of the child set to 0. -/
def forkTrapframe (p np : ProcId) : KM Unit := do
  let pr ← getProc p
  let npr ← getProc np
  match pr.trapframe, npr.trapframe with
  | some tf, some tfn => vm (copyTrapframe tf tfn)
  | _, _ => throw .nullPointer

/-- The part of `kfork` after user memory has been copied. -/
def finishFork (p np : ProcId) : KM ℤ := do
  let pr ← getProc p
  setProc np fun npr => { npr with sz := pr.sz }
  forkTrapframe p np
  dupFiles np pr.ofile (List.finRange NOFILE)
  let npr ← getProc np
  setProc np fun npr => { npr with name := pr.name, parent := some p, state := .runnable }
  pure npr.pid

def kfork (p : ProcId) : KM ℤ := do
  match ← allocproc with
  | none => pure (-1)
  | some np =>
    if ← copySpace p np then finishFork p np
    else do
      freeproc np
      pure (-1)

def reparent (p : ProcId) : KM Unit := fun s =>
  let give (pr : Proc) : Proc :=
    if pr.parent = some p then { pr with parent := some s.initproc } else pr
  .ok ((), { s with proc := fun pp => give (s.proc pp) })

def closeFiles (p : ProcId) : List (Fin NOFILE) → KM Unit
  | [] => pure ()
  | fd :: rest => do
    let pr ← getProc p
    match pr.ofile fd with
    | some f =>
      fileclose f
      setProc p fun pr => { pr with ofile := Function.update pr.ofile fd none }
      closeFiles p rest
    | none => closeFiles p rest

def kexit (p : ProcId) (status : ℤ) : KM Unit := do
  let s ← get
  if p = s.initproc then throw .initExiting
  else do
    closeFiles p (List.finRange NOFILE)
    reparent p
    setProc p fun pr => { pr with xstate := status, state := .zombie }

/-- Copy the exit status of a child to user address `addr`, unless that is 0. -/
def reportStatus (p : ProcId) (addr : ℕ) (xstate : ℤ) : KM Bool :=
  if addr ≠ 0 then copyoutTo p addr (intBytes xstate) else pure true

def kwait (p : ProcId) (addr : ℕ) : KM (Option ℤ) := do
  let s ← get
  match (List.finRange NPROC).find? fun pp =>
      (s.proc pp).parent = some p ∧ (s.proc pp).state = .zombie with
  | some pp =>
    if ← reportStatus p addr (s.proc pp).xstate then do
      freeproc pp
      pure (some (s.proc pp).pid)
    else pure (some (-1))
  | none => pure (if ∃ pp, (s.proc pp).parent = some p then none else some (-1))

/-! ## kexec -/

/-- The inode at `path` and its contents, with a reference for the caller.  `lookup` is
what the file system finds at a path. -/
def namei (lookup : List UInt8 → Option (ℕ × List UInt8)) (path : List UInt8) :
    KM (Option (ℕ × List UInt8)) := fun s =>
  match lookup path with
  | none => .ok (none, s)
  | some (i, f) => .ok (some (i, f), { s with iref := Function.update s.iref i (s.iref i + 1) })

def iunlockput (i : ℕ) : KM Unit := fun s =>
  .ok ((), { s with iref := Function.update s.iref i (s.iref i - 1) })

/-- The label `bad` of `kexec`, with the page table built so far and its size, and the
inode while that is open. -/
def execBad (image : Option (PageTable × ℕ)) (ip : Option ℕ) : KM ℤ := do
  match image with
  | some (pt, sz) => vm (procFreepagetable pt sz)
  | none => pure ()
  match ip with
  | some i => iunlockput i
  | none => pure ()
  pure (-1)

/-- What follows the last slash of a path. -/
def lastName (path : List UInt8) : List UInt8 := (path.reverse.takeWhile (· != 47)).reverse

/-- The part of `kexec` that cannot fail any more: commit to the image and free the old
one. -/
def execCommit (p : ProcId) (path : List UInt8) (pt : PageTable) (sz : ℕ) (entry : Entry) :
    KM ℤ := do
  let pr ← getProc p
  match pr.pagetable, pr.trapframe with
  | some oldpt, some tf =>
    vm (storeReg tf Trapframe.a1 entry.sp)
    setProc p fun pr => { pr with name := (lastName path).take 15, pagetable := some pt, sz := sz }
    vm (storeReg tf Trapframe.epc entry.epc)
    vm (storeReg tf Trapframe.sp entry.sp)
    vm (procFreepagetable oldpt pr.sz)
    pure entry.argc
  | _, _ => throw .nullPointer

/-- The part of `kexec` after the program is loaded and its file closed. -/
def execStack (p : ProcId) (path : List UInt8) (argv : List (List UInt8)) (epc : ℕ)
    (pt : PageTable) (sz : ℕ) : KM ℤ := do
  let pr ← getProc p
  let (entry, pt, sz) ← vm (buildStack epc pr.sz argv pt sz)
  match entry with
  | none => execBad (some (pt, sz)) none
  | some entry => execCommit p path pt sz entry

/-- The part of `kexec` with the executable `f` open, whose inode is `i`. -/
def execFile (p : ProcId) (path : List UInt8) (argv : List (List UInt8)) (i : ℕ)
    (f : List UInt8) : KM ℤ := do
  let bytes := readFile f 0 ElfHdr.size
  let hdr := ElfHdr.decode bytes
  if bytes.length ≠ ElfHdr.size then execBad none (some i)
  else if hdr.magic ≠ ELF_MAGIC then execBad none (some i)
  else do
    let pr ← getProc p
    match pr.trapframe with
    | none => throw .nullPointer
    | some tf =>
      match ← vm (procPagetable tf) with
      | none => execBad none (some i)
      | some pt =>
        let (ok, pt, sz) ← vm (loadSegments f hdr.phnum (u32 hdr.phoff) pt 0)
        if !ok then execBad (some (pt, sz)) (some i)
        else do
          iunlockput i
          execStack p path argv hdr.entry pt sz

def kexec (p : ProcId) (path : List UInt8) (argv : List (List UInt8))
    (lookup : List UInt8 → Option (ℕ × List UInt8)) : KM ℤ := do
  match ← namei lookup path with
  | none => pure (-1)
  | some (i, f) => execFile p path argv i f

end

end Xv6.Kernel
