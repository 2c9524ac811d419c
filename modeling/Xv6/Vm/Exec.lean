import Xv6.Vm.Uvm

/-! # Building a process image: exec.c and the page tables of proc.c

An executable is given by its bytes.  Header fields that exec never reads are
left out of the decoded headers.
-/
namespace Xv6.Vm
open Library

def MAXARG : ℕ := 32
def USERSTACK : ℕ := 1
def ELF_MAGIC : ℕ := 0x464C457F
def ELF_PROG_LOAD : ℕ := 1

def u32 (n : ℕ) : ℕ := n % 2 ^ 32

def u64Sub (a b : ℕ) : ℕ := u64 (a + (2 ^ 64 - u64 b))

/-! ## Reading the file -/

/-- What `readi(ip, 0, dst, off, n)` copies from a file with contents `f`. -/
def readFile (f : List UInt8) (off n : ℕ) : List UInt8 :=
  if f.length < off ∨ u32 (off + n) < off then [] else (f.drop off).take n

def leNat (bytes : List UInt8) : ℕ := bytes.foldr (fun b n => b.toNat + 256 * n) 0

def leField (bytes : List UInt8) (off n : ℕ) : ℕ := leNat ((bytes.drop off).take n)

structure ElfHdr where
  magic : ℕ
  entry : ℕ
  phoff : ℕ
  phnum : ℕ
  deriving DecidableEq, Repr

def ElfHdr.size : ℕ := 64

def ElfHdr.decode (bytes : List UInt8) : ElfHdr :=
  ⟨leField bytes 0 4, leField bytes 24 8, leField bytes 32 8, leField bytes 56 2⟩

structure ProgHdr where
  type : ℕ
  flags : ℕ
  off : ℕ
  vaddr : ℕ
  filesz : ℕ
  memsz : ℕ
  deriving DecidableEq, Repr

def ProgHdr.size : ℕ := 56

def ProgHdr.decode (bytes : List UInt8) : ProgHdr :=
  ⟨leField bytes 0 4, leField bytes 4 4, leField bytes 8 8, leField bytes 16 8,
    leField bytes 32 8, leField bytes 40 8⟩

/-- Map ELF permissions to PTE permission bits. -/
def flags2perm (flags : ℕ) : Pte :=
  let perm : Pte := if flags.testBit 0 then PTE_X else 0
  if flags.testBit 1 then perm ||| PTE_W else perm

section
variable [KernelImage]

/-! ## Page tables of a process -/

/-- Create a user page table with no user memory, but with trampoline and
trapframe pages. -/
def procPagetable (tf : ℕ) : VmM (Option PageTable) := do
  match ← uvmcreate with
  | none => pure none
  | some pt =>
    let (ok, pt) ← mappages pt TRAMPOLINE PGSIZE trampoline (PTE_R ||| PTE_X)
    if !ok then do
      uvmfree pt 0
      pure none
    else do
      let (ok, pt) ← mappages pt TRAPFRAME PGSIZE tf (PTE_R ||| PTE_W)
      if !ok then do
        let pt ← uvmunmap pt TRAMPOLINE 1 false
        uvmfree pt 0
        pure none
      else pure (some pt)

/-- Free a process's page table, and the physical memory it refers to. -/
def procFreepagetable (pt : PageTable) (sz : ℕ) : VmM Unit := do
  let pt ← uvmunmap pt TRAMPOLINE 1 false
  let pt ← uvmunmap pt TRAPFRAME 1 false
  uvmfree pt sz

/-! ## kexec -/

/-- One round of the loop of `loadseg`. -/
def loadsegPage (pt : PageTable) (va : ℕ) (f : List UInt8) (offset sz i : ℕ) : VmM Bool := do
  match ← walkaddr pt (u64 (va + i)) with
  | none => throw .loadseg
  | some pa =>
    let n := min PGSIZE (sz - i)
    let bytes := readFile f (u32 (offset + i)) n
    setMem (memmove pa (fun j => bytes.getD j 0) bytes.length)
    pure (bytes.length == n)

def loadsegLoop (pt : PageTable) (va : ℕ) (f : List UInt8) (offset sz : ℕ) :
    (n : ℕ) → ℕ → VmM Bool
  | 0, _ => pure true
  | n + 1, i => do
    if ← loadsegPage pt va f offset sz i then loadsegLoop pt va f offset sz n (i + PGSIZE)
    else pure false

/-- Load a program segment into pages that are already mapped at `va`. -/
def loadseg (pt : PageTable) (va : ℕ) (f : List UInt8) (offset sz : ℕ) : VmM Bool :=
  loadsegLoop pt va f (u32 offset) (u32 sz) (pagesBetween 0 (u32 sz)) 0

/-- The loop of `kexec` over the program headers from offset `off` on.  The
result has the page table and size at the end or at the jump to `bad`. -/
def loadSegments (f : List UInt8) :
    (n : ℕ) → (off : ℕ) → PageTable → (sz : ℕ) → VmM (Bool × PageTable × ℕ)
  | 0, _, pt, sz => pure (true, pt, sz)
  | n + 1, off, pt, sz =>
    let bytes := readFile f off ProgHdr.size
    let ph := ProgHdr.decode bytes
    let next := u32 (off + ProgHdr.size)
    if bytes.length ≠ ProgHdr.size then pure (false, pt, sz)
    else if ph.type ≠ ELF_PROG_LOAD then loadSegments f n next pt sz
    else if ph.memsz < ph.filesz then pure (false, pt, sz)
    else if u64 (ph.vaddr + ph.memsz) < ph.vaddr then pure (false, pt, sz)
    else if ph.vaddr % PGSIZE ≠ 0 then pure (false, pt, sz)
    else do
      let (sz1, pt) ← uvmalloc pt sz (u64 (ph.vaddr + ph.memsz)) (flags2perm ph.flags)
      if sz1 = 0 then pure (false, pt, sz)
      else do
        let ok ← loadseg pt ph.vaddr f ph.off ph.filesz
        if ok then loadSegments f n next pt sz1 else pure (false, pt, sz1)

def uint64Bytes (n : ℕ) : List UInt8 := (List.range 8).map fun i => UInt8.ofNat (n / 256 ^ i)

/-- The 16-byte aligned place for `n` bytes below `sp`. -/
def pushSp (sp n : ℕ) : ℕ := u64Sub sp n - u64Sub sp n % 16

/-- Copy the argument strings to the new stack; `argc` of them are there
already and their addresses are in `ustack`. -/
def pushArgs (stackbase oldsz : ℕ) : (argv : List (List UInt8)) → (argc : ℕ) → PageTable →
    (sp : ℕ) → (ustack : List ℕ) → VmM (Bool × PageTable × ℕ × List ℕ)
  | [], _, pt, sp, ustack => pure (true, pt, sp, ustack)
  | arg :: rest, argc, pt, sp, ustack =>
    if MAXARG ≤ argc then pure (false, pt, sp, ustack)
    else
      let sp := pushSp sp (arg.length + 1)
      if sp < stackbase then pure (false, pt, sp, ustack)
      else do
        let (ok, pt) ← copyout pt oldsz sp (arg ++ [0])
        if ok then pushArgs stackbase oldsz rest (argc + 1) pt sp (ustack ++ [sp])
        else pure (false, pt, sp, ustack)

/-- What a new image hands to the process besides its memory. -/
structure Entry where
  argc : ℕ
  sp : ℕ
  epc : ℕ
  deriving DecidableEq, Repr

/-- The part of `kexec` that fills the stack of an image of size `sz`, whose
last two pages are new: guard page, argument strings and `argv[]`.  `oldsz` is
the size of the calling process, which `vmfault` would look at.  Without an
`Entry` the code jumps to `bad` with this page table and size. -/
def fillStack (epc oldsz : ℕ) (argv : List (List UInt8)) (pt : PageTable) (sz : ℕ) :
    VmM (Option Entry × PageTable × ℕ) := do
  let pt ← uvmclear pt (u64Sub sz ((USERSTACK + 1) * PGSIZE))
  let stackbase := u64Sub sz (USERSTACK * PGSIZE)
  let (ok, pt, sp, ustack) ← pushArgs stackbase oldsz argv 0 pt sz []
  if !ok then pure (none, pt, sz)
  -- `ustack[argc] = 0`, where `ustack` has `MAXARG` entries
  else if MAXARG ≤ argv.length then throw .ustackOverrun
  else
    let sp := pushSp sp ((argv.length + 1) * 8)
    if sp < stackbase then pure (none, pt, sz)
    else do
      let (ok, pt) ← copyout pt oldsz sp ((ustack ++ [0]).flatMap uint64Bytes)
      if !ok then pure (none, pt, sz)
      else pure (some ⟨argv.length, sp, epc⟩, pt, sz)

/-- The part of `kexec` from the loaded program, of size `sz`, to the commit: two more
pages, of which the first becomes the guard page and the second the stack. -/
def buildStack (epc oldsz : ℕ) (argv : List (List UInt8)) (pt : PageTable) (sz : ℕ) :
    VmM (Option Entry × PageTable × ℕ) := do
  let sz := pgroundup sz
  let (sz1, pt) ← uvmalloc pt sz (u64 (sz + (USERSTACK + 1) * PGSIZE)) PTE_W
  if sz1 = 0 then pure (none, pt, sz)
  else fillStack epc oldsz argv pt sz1

end

end Xv6.Vm
