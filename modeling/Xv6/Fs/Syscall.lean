import Xv6.Fs.Path

/-! # File-system system calls

file.c and sysfile.c, and what fork, exec and exit do to files, for calls that run
to completion one after the other.  Pipes and the console are modelled elsewhere.
-/
namespace Xv6.Fs
open Disk

def NDEV : ℕ := 10
def MAXOPBLOCKS : ℕ := 10

def O_RDONLY : BitVec 32 := 0x000
def O_WRONLY : BitVec 32 := 0x001
def O_RDWR : BitVec 32 := 0x002
def O_CREATE : BitVec 32 := 0x200
def O_TRUNC : BitVec 32 := 0x400

/-- Is a major device number out of range? -/
def badMajor (major : BitVec 16) : Bool := major.toInt < 0 || NDEV ≤ major.toInt

def getFile (f : FileId) : FsM File := do
  let s ← get
  pure (s.ftable f)

def setFile (f : FileId) (g : File → File) : FsM Unit :=
  modify fun s => { s with ftable := Function.update s.ftable f (g (s.ftable f)) }

def setProc (p : ProcId) (pr : Option Proc) : FsM Unit :=
  modify fun s => { s with proc := Function.update s.proc p pr }

def setOfile (p : ProcId) (fd : Fin NOFILE) (f : Option FileId) : FsM Unit :=
  modify fun s => { s with
    proc := Function.update s.proc p
      ((s.proc p).map fun pr => { pr with ofile := Function.update pr.ofile fd f }) }

/-! ## file.c -/

/-- Allocate a file structure. -/
def filealloc : FsM (Option FileId) := do
  let s ← get
  match (List.finRange NFILE).find? fun f => (s.ftable f).ref == 0 with
  | none => pure none
  | some f => do
    setFile f fun file => { file with ref := 1 }
    pure (some f)

def filedup (f : FileId) : FsM Unit := do
  let file ← getFile f
  if file.ref < 1 then throw .filedup
  else setFile f fun file => { file with ref := file.ref + 1 }

section
variable [sb : Superblock]

/-- Close file `f`: decrement its reference count, close it when that reaches 0. -/
def fileclose (f : FileId) : FsM Unit := do
  let ff ← getFile f
  if ff.ref < 1 then throw .fileclose
  else if 0 < ff.ref - 1 then setFile f fun file => { file with ref := file.ref - 1 }
  else do
    setFile f fun file => { file with ref := 0, type := .none }
    if ff.type = .none then pure ()
    else do
      beginOp
      iput ff.ip
      endOp

/-- Get metadata about file `f`: false on failure. -/
def filestat (f : FileId) : FsM Bool := do
  let file ← getFile f
  if file.type = .none then pure false
  else do
    ilock file.ip
    iunlock file.ip
    pure true

def fileread (f : FileId) (room n : ℕ) (dev : ℤ) : FsM ℤ := do
  let file ← getFile f
  if file.readable = false then pure (-1)
  else
    match file.type with
    | .none => throw .fileread
    | .device => pure (if badMajor file.major then -1 else dev)
    | .inode => do
      ilock file.ip
      let r ← readi file.ip (some room) file.off n
      setFile f fun file => { file with off := file.off + r.1.toNat }
      iunlock file.ip
      pure r.1

/-- The most that one transaction of `filewrite` writes. -/
def MAXWRITE : ℕ := (MAXOPBLOCKS - 1 - 1 - 2) / 2 * BSIZE

/-- One chunk of `filewrite`: the bytes `src` from position `i` on, `n1` of them. -/
def writeChunk (f : FileId) (src : List UInt8) (i n1 : ℕ) : FsM ℤ := do
  let file ← getFile f
  beginOp
  ilock file.ip
  let r ← writei file.ip (src.drop i) file.off n1
  setFile f fun file => { file with off := file.off + r.toNat }
  iunlock file.ip
  endOp
  pure r

/-- The loop of `filewrite`: how much has been written at the end. -/
def writeChunks (f : FileId) (src : List UInt8) (n : ℕ) : (fuel i : ℕ) → FsM ℕ
  | 0, i => pure i
  | fuel + 1, i =>
    if i < n then do
      let n1 := min (n - i) MAXWRITE
      let r ← writeChunk f src i n1
      if r ≠ n1 then pure i else writeChunks f src n fuel (i + n1)
    else pure i

def filewrite (f : FileId) (src : List UInt8) (n : ℤ) (dev : ℤ) : FsM ℤ := do
  let file ← getFile f
  if file.writable = false then pure (-1)
  else
    match file.type with
    | .none => throw .filewrite
    | .device => pure (if badMajor file.major then -1 else dev)
    | .inode => do
      let i ← writeChunks f src n.toNat n.toNat 0
      pure (if (i : ℤ) = n then n else -1)

/-! ## sysfile.c -/

def argfd (pr : Proc) (fd : ℤ) : Option (Fin NOFILE × FileId) :=
  if h : 0 ≤ fd ∧ fd.toNat < NOFILE then (pr.ofile ⟨fd.toNat, h.2⟩).map fun f => (⟨fd.toNat, h.2⟩, f)
  else none

/-- The first free descriptor. -/
def fdFree (pr : Proc) : Option (Fin NOFILE) :=
  (List.finRange NOFILE).find? fun fd => (pr.ofile fd).isNone

def sysDup (p : ProcId) (pr : Proc) (fd : ℤ) : FsM ℤ :=
  match argfd pr fd, fdFree pr with
  | some (_, f), some new => do
    setOfile p new (some f)
    filedup f
    pure new.val
  | _, _ => pure (-1)

def sysClose (p : ProcId) (pr : Proc) (fd : ℤ) : FsM ℤ :=
  match argfd pr fd with
  | none => pure (-1)
  | some (fd, f) => do
    setOfile p fd none
    fileclose f
    pure 0

def setNlink (ip : InodeId) (g : BitVec 16 → BitVec 16) : FsM Unit := do
  setDinode ip fun d => { d with nlink := g d.nlink }
  iupdate ip

/-- Undo the link count of `sys_link`. -/
def linkBad (ip : InodeId) : FsM ℤ := do
  ilock ip
  setNlink ip (· - 1)
  iunlockput ip
  endOp
  pure (-1)

def sysLink (pr : Proc) (old new : Path) : FsM ℤ := do
  beginOp
  let r ← namei pr.cwd old
  match r with
  | none => do
    endOp
    pure (-1)
  | some ip => do
    ilock ip
    let inode ← getInode ip
    if inode.d.type = T_DIR then do
      iunlockput ip
      endOp
      pure (-1)
    else do
      setNlink ip (· + 1)
      iunlock ip
      let r ← nameiparent pr.cwd new
      match r with
      | none => linkBad ip
      | some (dp, name) => do
        ilock dp
        let ok ← dirlink dp name inode.inum
        iunlockput dp
        if ok then do
          iput ip
          endOp
          pure 0
        else linkBad ip

/-- Is the directory empty except for `.` and `..`? -/
def isdirempty (dp : InodeId) : FsM Bool := do
  let inode ← getInode dp
  let found ← scanDir dp .isdiremptyReadi (fun de => de.inum != 0)
    (List.range' 2 (slots inode.d.size - 2))
  pure found.isNone

/-- Give up on `sys_unlink`. -/
def unlinkBad (dp : InodeId) : FsM ℤ := do
  iunlockput dp
  endOp
  pure (-1)

/-- Count the `..` of a directory of type `type` for its parent `dp`. -/
def countParent (dp : InodeId) (type : BitVec 16) (g : BitVec 16 → BitVec 16) : FsM Unit :=
  if type = T_DIR then setNlink dp g else pure ()

/-- Clear slot `k` of the directory `dp`, which names `ip`, and drop the links. -/
def unlinkEntry (dp ip : InodeId) (k : ℕ) : FsM ℤ := do
  let r ← writei dp (List.replicate DIRENT 0) (DIRENT * k) DIRENT
  if r ≠ DIRENT then throw .unlinkWritei
  else do
    let inode ← getInode ip
    countParent dp inode.d.type (· - 1)
    iunlockput dp
    setNlink ip (· - 1)
    iunlockput ip
    endOp
    pure 0

def sysUnlink (pr : Proc) (path : Path) : FsM ℤ := do
  beginOp
  let r ← nameiparent pr.cwd path
  match r with
  | none => do
    endOp
    pure (-1)
  | some (dp, name) => do
    ilock dp
    if namecmp name DOT = 0 ∨ namecmp name DOTDOT = 0 then unlinkBad dp
    else do
      let found ← dirlookup dp name
      match found with
      | none => unlinkBad dp
      | some (ip, k) => do
        ilock ip
        let inode ← getInode ip
        if inode.d.nlink.toInt < 1 then throw .unlinkNlink
        else if inode.d.type = T_DIR then do
          let empty ← isdirempty ip
          if empty then unlinkEntry dp ip k
          else do
            iunlockput ip
            unlinkBad dp
        else unlinkEntry dp ip k

/-- The entries `.` and `..` of a new directory; false on failure. -/
def linkDots (ip dp : InodeId) : FsM Bool := do
  let inode ← getInode ip
  let parent ← getInode dp
  let ok ← dirlink ip DOT inode.inum
  if ok then dirlink ip DOTDOT parent.inum else pure false

/-- De-allocate the inode of a failed `create`. -/
def createFail (ip dp : InodeId) : FsM (Option InodeId) := do
  setNlink ip fun _ => 0
  iunlockput ip
  iunlockput dp
  pure none

/-- The entry for a new inode in its directory. -/
def createEntry (ip dp : InodeId) (name : Name) (type : BitVec 16) : FsM (Option InodeId) := do
  let inode ← getInode ip
  let ok ← dirlink dp name inode.inum
  if ok then do
    countParent dp type (· + 1)
    iunlockput dp
    pure (some ip)
  else createFail ip dp

def create (pr : Proc) (path : Path) (type major minor : BitVec 16) : FsM (Option InodeId) := do
  let r ← nameiparent pr.cwd path
  match r with
  | none => pure none
  | some (dp, name) => do
    ilock dp
    let found ← dirlookup dp name
    match found with
    | some (ip, _) => do
      iunlockput dp
      ilock ip
      let inode ← getInode ip
      if type = T_FILE ∧ (inode.d.type = T_FILE ∨ inode.d.type = T_DEVICE) then pure (some ip)
      else do
        iunlockput ip
        pure none
    | none => do
      let new ← ialloc type
      match new with
      | none => do
        iunlockput dp
        pure none
      | some ip => do
        ilock ip
        setDinode ip fun d => { d with major := major, minor := minor, nlink := 1 }
        iupdate ip
        if type = T_DIR then do
          let ok ← linkDots ip dp
          if ok then createEntry ip dp name type else createFail ip dp
        else createEntry ip dp name type

/-- The inode that `sys_open` opens, locked. -/
def openInode (pr : Proc) (path : Path) (omode : BitVec 32) : FsM (Option InodeId) :=
  if omode &&& O_CREATE ≠ 0 then create pr path T_FILE 0 0
  else do
    let r ← namei pr.cwd path
    match r with
    | none => pure none
    | some ip => do
      ilock ip
      let inode ← getInode ip
      if inode.d.type = T_DIR ∧ omode ≠ O_RDONLY then do
        iunlockput ip
        pure none
      else pure (some ip)

/-- A file structure and a descriptor for it. -/
def openFile (p : ProcId) (pr : Proc) : FsM (Option (FileId × Fin NOFILE)) := do
  let r ← filealloc
  match r with
  | none => pure none
  | some f =>
    match fdFree pr with
    | none => do
      fileclose f
      pure none
    | some fd => do
      setOfile p fd (some f)
      pure (some (f, fd))

def openBad (ip : InodeId) : FsM ℤ := do
  iunlockput ip
  endOp
  pure (-1)

def openTrunc (ip : InodeId) (omode : BitVec 32) : FsM Unit := do
  let inode ← getInode ip
  if omode &&& O_TRUNC ≠ 0 ∧ inode.d.type = T_FILE then itrunc ip else pure ()

/-- Fill in the file structure for the opened inode. -/
def openWith (ip : InodeId) (f : FileId) (fd : Fin NOFILE) (omode : BitVec 32) : FsM ℤ := do
  let inode ← getInode ip
  setFile f fun file =>
    if inode.d.type = T_DEVICE then { file with type := .device, major := inode.d.major }
    else { file with type := .inode, off := 0 }
  setFile f fun file => { file with
    ip := ip
    readable := omode &&& O_WRONLY == 0
    writable := omode &&& O_WRONLY != 0 || omode &&& O_RDWR != 0 }
  openTrunc ip omode
  iunlock ip
  endOp
  pure fd.val

def sysOpen (p : ProcId) (pr : Proc) (path : Path) (omode : BitVec 32) : FsM ℤ := do
  beginOp
  let r ← openInode pr path omode
  match r with
  | none => do
    endOp
    pure (-1)
  | some ip => do
    let inode ← getInode ip
    if inode.d.type = T_DEVICE ∧ badMajor inode.d.major then openBad ip
    else do
      let r ← openFile p pr
      match r with
      | none => openBad ip
      | some (f, fd) => openWith ip f fd omode

/-- `sys_mkdir` and `sys_mknod`, whose bracket holds `argstr` too. -/
def sysMake (pr : Proc) (path : Option Path) (type major minor : BitVec 16) : FsM ℤ := do
  beginOp
  let r ← match path with
    | none => pure none
    | some path => create pr path type major minor
  match r with
  | none => do
    endOp
    pure (-1)
  | some ip => do
    iunlockput ip
    endOp
    pure 0

def sysMkdir (pr : Proc) (path : Option Path) : FsM ℤ := sysMake pr path T_DIR 0 0

def sysMknod (pr : Proc) (path : Option Path) (major minor : BitVec 32) : FsM ℤ :=
  sysMake pr path T_DEVICE (major.setWidth 16) (minor.setWidth 16)

/-- `argstr` and `namei` of `sys_chdir`. -/
def chdirTarget (pr : Proc) : Option Path → FsM (Option InodeId)
  | none => pure none
  | some path => namei pr.cwd path

def sysChdir (p : ProcId) (pr : Proc) (path : Option Path) : FsM ℤ := do
  beginOp
  let r ← chdirTarget pr path
  match r with
  | none => do
    endOp
    pure (-1)
  | some ip => do
    ilock ip
    let inode ← getInode ip
    if inode.d.type ≠ T_DIR then do
      iunlockput ip
      endOp
      pure (-1)
    else do
      iunlock ip
      iput pr.cwd
      endOp
      setProc p (some { pr with cwd := ip })
      pure 0

/-! ## exec, fork and exit -/

/-- The reads of the executable: they stop at the first short one. -/
def execReads (ip : InodeId) : List (ℕ × ℕ) → FsM Bool
  | [] => pure true
  | (off, n) :: reads => do
    let r ← readi ip none off n
    if r.1 ≠ n then pure false else execReads ip reads

/-- What `kexec` does in its transaction.  `reads` are the offsets and lengths that
it reads: the headers and the segments. -/
def kexec (pr : Proc) (path : Path) (reads : List (ℕ × ℕ)) : FsM ℤ := do
  beginOp
  let r ← namei pr.cwd path
  match r with
  | none => do
    endOp
    pure (-1)
  | some ip => do
    ilock ip
    let ok ← execReads ip reads
    iunlockput ip
    endOp
    pure (if ok then 0 else -1)

/-- The child's reference to one open file. -/
def forkFile (pr : Proc) (fd : Fin NOFILE) : FsM Unit :=
  match pr.ofile fd with
  | none => pure ()
  | some f => filedup f

/-- The files and the current directory of the child `q`. -/
def kfork (pr : Proc) (q : ProcId) : FsM ℤ := do
  let s ← get
  if (s.proc q).isSome then pure (-1)
  else do
    (List.finRange NOFILE).forM (forkFile pr)
    let cwd ← idup pr.cwd
    setProc q (some { pr with cwd := cwd })
    pure 0

def exitFile (p : ProcId) (pr : Proc) (fd : Fin NOFILE) : FsM Unit :=
  match pr.ofile fd with
  | none => pure ()
  | some f => do
    fileclose f
    setOfile p fd none

/-- Close all open files and drop the current directory. -/
def kexit (p : ProcId) (pr : Proc) : FsM ℤ := do
  (List.finRange NOFILE).forM (exitFile p pr)
  beginOp
  iput pr.cwd
  endOp
  setProc p none
  pure 0

/-! ## The system -/

/-- The calls; `none` for a path that `argstr` could not fetch. -/
inductive Call
  | dup (fd : ℤ)
  | read (fd : ℤ) (room n : ℕ) (dev : ℤ)
  | write (fd : ℤ) (src : List UInt8) (n : ℤ) (dev : ℤ)
  | close (fd : ℤ)
  | fstat (fd : ℤ)
  | link (old new : Path)
  | unlink (path : Path)
  | open (path : Path) (omode : BitVec 32)
  | mkdir (path : Option Path)
  | mknod (path : Option Path) (major minor : BitVec 32)
  | chdir (path : Option Path)
  | exec (path : Path) (reads : List (ℕ × ℕ))
  | fork (q : ProcId)
  | exit

def syscall (p : ProcId) (pr : Proc) : Call → FsM ℤ
  | .dup fd => sysDup p pr fd
  | .read fd room n dev =>
    match argfd pr fd with
    | none => pure (-1)
    | some (_, f) => fileread f room n dev
  | .write fd src n dev =>
    match argfd pr fd with
    | none => pure (-1)
    | some (_, f) => filewrite f src n dev
  | .close fd => sysClose p pr fd
  | .fstat fd =>
    match argfd pr fd with
    | none => pure (-1)
    | some (_, f) => do
      let ok ← filestat f
      pure (if ok then 0 else -1)
  | .link old new => sysLink pr old new
  | .unlink path => sysUnlink pr path
  | .open path omode => sysOpen p pr path omode
  | .mkdir path => sysMkdir pr path
  | .mknod path major minor => sysMknod pr path major minor
  | .chdir path => sysChdir p pr path
  | .exec path reads => kexec pr path reads
  | .fork q => kfork pr q
  | .exit => kexit p pr

/-- A call of process `p`; without effect if there is no such process. -/
def call (p : ProcId) (c : Call) : FsM ℤ := do
  let s ← get
  match s.proc p with
  | none => pure (-1)
  | some pr => syscall p pr c

end

end Xv6.Fs
