import Xv6.Vm.Exec

/-! # The process table, open files and pipes

The state of the kernel as far as physical pages are concerned: the process
table of proc.c, the file table of file.c and the pipes of pipe.c.  Locks and the
contents of pipes and files play no part in it; of the saved registers in a
trapframe page only those that fork and exec set are written here.
-/
namespace Xv6.Kernel
open Library Vm

def NPROC : ℕ := 64
def NOFILE : ℕ := 16
def NFILE : ℕ := 100
def MAXPATH : ℕ := 128

inductive ProcState
  | unused
  | used
  | sleeping
  | runnable
  | running
  | zombie
  deriving DecidableEq, Repr

abbrev ProcId := Fin NPROC
abbrev FileId := Fin NFILE

structure Proc where
  state : ProcState
  pid : ℤ
  parent : Option ProcId
  xstate : ℤ
  sz : ℕ
  pagetable : Option PageTable
  trapframe : Option ℕ
  ofile : Fin NOFILE → Option FileId
  name : List UInt8

def Proc.empty : Proc :=
  ⟨.unused, 0, none, 0, 0, none, none, fun _ => none, []⟩

inductive FileType
  | none
  | pipe
  | inode
  | device
  deriving DecidableEq, Repr

structure File where
  type : FileType
  ref : ℤ
  readable : Bool
  writable : Bool
  pipe : ℕ

/-- The flags of a `struct pipe`. -/
structure Pipe where
  readopen : Bool
  writeopen : Bool

/-- `pipe pa` is the structure in the page at `pa`.  `bootPages` records the
pages that the kernel allocated for itself at boot.  `iref i` counts the references
to inode `i` that system calls have in their hands; those of open files and current
directories come on top. -/
structure State where
  phys : Phys
  proc : ProcId → Proc
  nextpid : ℤ
  initproc : ProcId
  ftable : FileId → File
  pipe : ℕ → Pipe
  bootPages : List ℕ
  iref : ℕ → ℤ

abbrev KM := StateT State (Except Panic)

/-- Run code of kalloc.c or vm.c. -/
def vm {α : Type} (m : VmM α) : KM α := fun s =>
  match m s.phys with
  | .ok (a, k) => .ok (a, { s with phys := k })
  | .error e => .error e

def getProc (p : ProcId) : KM Proc := fun s => .ok (s.proc p, s)

def setProc (p : ProcId) (f : Proc → Proc) : KM Unit := fun s =>
  .ok ((), { s with proc := Function.update s.proc p (f (s.proc p)) })

def setFile (f : FileId) (g : File → File) : KM Unit := fun s =>
  .ok ((), { s with ftable := Function.update s.ftable f (g (s.ftable f)) })

def setPipe (pi : ℕ) (g : Pipe → Pipe) : KM Unit := fun s =>
  .ok ((), { s with pipe := Function.update s.pipe pi (g (s.pipe pi)) })

/-- Run code of vm.c on the page table of process `p`. -/
def onSpace {α : Type} (p : ProcId) (f : PageTable → ℕ → VmM (α × PageTable)) : KM α := do
  let pr ← getProc p
  match pr.pagetable with
  | none => throw .nullPointer
  | some pt =>
    let (a, pt) ← vm (f pt pr.sz)
    setProc p fun pr => { pr with pagetable := some pt }
    pure a

section
variable [KernelImage]

def copyoutTo (p : ProcId) (va : ℕ) (src : List UInt8) : KM Bool :=
  onSpace p fun pt sz => copyout pt sz va src

/-- `copyin` from the memory of process `p`, with the bytes copied. -/
def copyinFrom (p : ProcId) (va len : ℕ) : KM (Bool × List UInt8) :=
  onSpace p fun pt sz => do
    let (ok, bytes, pt) ← copyin pt sz va len
    pure ((ok, bytes), pt)

/-! ## file.c and pipe.c -/

def filealloc : KM (Option FileId) := do
  let s ← get
  match (List.finRange NFILE).find? fun f => (s.ftable f).ref = 0 with
  | none => pure none
  | some f =>
    setFile f fun file => { file with ref := 1 }
    pure (some f)

def filedup (f : FileId) : KM Unit := do
  let s ← get
  if (s.ftable f).ref < 1 then throw .filedup
  else setFile f fun file => { file with ref := file.ref + 1 }

def pipeclose (pi : ℕ) (writable : Bool) : KM Unit := do
  setPipe pi fun pipe =>
    if writable then { pipe with writeopen := false } else { pipe with readopen := false }
  let s ← get
  if !(s.pipe pi).readopen && !(s.pipe pi).writeopen then vm (kfree pi) else pure ()

/-- Close file `f`: decrement its reference count, close it when that reaches
0.  What happens to an inode is not modelled here. -/
def fileclose (f : FileId) : KM Unit := do
  let s ← get
  let ff := s.ftable f
  if ff.ref < 1 then throw .fileclose
  else if 0 < ff.ref - 1 then setFile f fun file => { file with ref := file.ref - 1 }
  else do
    setFile f fun file => { file with ref := 0, type := .none }
    if ff.type = .pipe then pipeclose ff.pipe ff.writable else pure ()

/-- The error path of `pipealloc`, with the files allocated so far. -/
def pipeallocBad (f₀ f₁ : Option FileId) : KM (Option (FileId × FileId)) := do
  match f₀ with
  | some f => fileclose f
  | none => pure ()
  match f₁ with
  | some f => fileclose f
  | none => pure ()
  pure none

/-- Make a pipe with its two open files. -/
def pipealloc : KM (Option (FileId × FileId)) := do
  match ← filealloc with
  | none => pipeallocBad none none
  | some f₀ =>
    match ← filealloc with
    | none => pipeallocBad (some f₀) none
    | some f₁ =>
      match ← vm kalloc with
      | none => pipeallocBad (some f₀) (some f₁)
      | some pi =>
        setPipe pi fun _ => ⟨true, true⟩
        setFile f₀ fun f => { f with type := .pipe, readable := true, writable := false, pipe := pi }
        setFile f₁ fun f => { f with type := .pipe, readable := false, writable := true, pipe := pi }
        pure (some (f₀, f₁))

def fdalloc (p : ProcId) (f : FileId) : KM (Option (Fin NOFILE)) := do
  let pr ← getProc p
  match (List.finRange NOFILE).find? fun fd => pr.ofile fd = none with
  | none => pure none
  | some fd =>
    setProc p fun pr => { pr with ofile := Function.update pr.ofile fd (some f) }
    pure (some fd)

end

end Xv6.Kernel
