import Xv6.Fs.Layout

/-! # Blocks and inodes

fs.c up to `writei`, run by one process at a time.  `disk` is what `bread`
returns: the contents of the buffer cache over the disk.  The log is the block
numbers that `log_write` has put into the header since the last commit.
Sleep-locks are never contended in such runs and play no part.
-/
namespace Xv6.Fs
open Disk

def NINODE : ℕ := 50
def NFILE : ℕ := 100
def NOFILE : ℕ := 16
def NPROC : ℕ := 64

abbrev InodeId := Fin NINODE
abbrev FileId := Fin NFILE
abbrev ProcId := Fin NPROC

inductive Panic
  | logWriteOutsideOfTrans
  | freeingFreeBlock
  | igetNoInodes
  | ilock
  | ilockNoType
  | iunlock
  | bmapOutOfRange
  | dirlookupNotDir
  | dirlookupRead
  | dirlinkRead
  | isdiremptyReadi
  | unlinkNlink
  | unlinkWritei
  | filedup
  | fileclose
  | fileread
  | filewrite
  deriving DecidableEq, Repr

/-- In-memory copy of an inode; `d` is the copy of the disk inode. -/
structure Inode where
  inum : ℕ
  ref : ℕ
  valid : Bool
  d : Dinode

inductive FileType
  | none
  | inode
  | device
  deriving DecidableEq, Repr

structure File where
  type : FileType
  ref : ℕ
  readable : Bool
  writable : Bool
  ip : InodeId
  off : ℕ
  major : BitVec 16

structure Proc where
  ofile : Fin NOFILE → Option FileId
  cwd : InodeId

/-- `commits` records the headers that `commit` has written. -/
structure State where
  disk : ℕ → Block
  outstanding : ℕ
  lh : List ℕ
  commits : List (List ℕ)
  itable : InodeId → Inode
  ftable : FileId → File
  proc : ProcId → Option Proc

abbrev FsM := EStateM Panic State

/-! ## Log and buffers -/

def beginOp : FsM Unit := modify fun s => { s with outstanding := s.outstanding + 1 }

/-- Commits if this was the last outstanding operation. -/
def endOp : FsM Unit := modify fun s =>
  if s.outstanding - 1 = 0 then
    { s with outstanding := 0, lh := [], commits := s.commits ++ [s.lh] }
  else { s with outstanding := s.outstanding - 1 }

/-- The test for a full log is left to the model of the log itself. -/
def logWrite (b : ℕ) : FsM Unit := do
  let s ← get
  if s.outstanding < 1 then throw .logWriteOutsideOfTrans
  else set { s with lh := if b ∈ s.lh then s.lh else s.lh ++ [b] }

def bread (b : ℕ) : FsM Block := do
  let s ← get
  pure (s.disk b)

/-- Change the data of the buffer for block `b`. -/
def setData (b : ℕ) (data : Block) : FsM Unit :=
  modify fun s => { s with disk := Function.update s.disk b data }

def bzero (bno : ℕ) : FsM Unit := do
  setData bno Block.zero
  logWrite bno

section
variable [sb : Superblock]

/-! ## Blocks -/

/-- Allocate a zeroed disk block: 0 if out of disk space. -/
def balloc : FsM ℕ := do
  let s ← get
  match (List.range sb.size).find? fun b => !(s.disk (BBLOCK b)).bit (b % BPB) with
  | none => pure 0
  | some b => do
    let data ← bread (BBLOCK b)
    setData (BBLOCK b) (data.setBit (b % BPB))
    logWrite (BBLOCK b)
    bzero b
    pure b

def bfree (b : ℕ) : FsM Unit := do
  let data ← bread (BBLOCK b)
  if data.bit (b % BPB) = false then throw .freeingFreeBlock
  else do
    setData (BBLOCK b) (data.clearBit (b % BPB))
    logWrite (BBLOCK b)

/-! ## Inodes -/

def getInode (ip : InodeId) : FsM Inode := do
  let s ← get
  pure (s.itable ip)

def setInode (ip : InodeId) (f : Inode → Inode) : FsM Unit :=
  modify fun s => { s with itable := Function.update s.itable ip (f (s.itable ip)) }

def setDinode (ip : InodeId) (f : Dinode → Dinode) : FsM Unit :=
  setInode ip fun inode => { inode with d := f inode.d }

/-- The inode `inum` on disk. -/
def State.dinode (s : State) (inum : ℕ) : Dinode :=
  Dinode.read (s.disk (IBLOCK inum)) (inum % IPB)

def iget (inum : ℕ) : FsM InodeId := do
  let s ← get
  match (List.finRange NINODE).find? fun t => 0 < (s.itable t).ref && (s.itable t).inum == inum with
  | some ip => do
    setInode ip fun inode => { inode with ref := inode.ref + 1 }
    pure ip
  | none =>
    match (List.finRange NINODE).find? fun t => (s.itable t).ref == 0 with
    | none => throw .igetNoInodes
    | some ip => do
      setInode ip fun inode => { inode with inum := inum, ref := 1, valid := false }
      pure ip

/-- Allocate an inode and give it the type `type`. -/
def ialloc (type : BitVec 16) : FsM (Option InodeId) := do
  let s ← get
  match (List.range' 1 (sb.ninodes - 1)).find? fun inum => (s.dinode inum).type == 0 with
  | none => pure none
  | some inum => do
    let data ← bread (IBLOCK inum)
    setData (IBLOCK inum) (Dinode.write data (inum % IPB) { Dinode.zero with type := type })
    logWrite (IBLOCK inum)
    let ip ← iget inum
    pure (some ip)

def iupdate (ip : InodeId) : FsM Unit := do
  let inode ← getInode ip
  let data ← bread (IBLOCK inode.inum)
  setData (IBLOCK inode.inum) (Dinode.write data (inode.inum % IPB) inode.d)
  logWrite (IBLOCK inode.inum)

def idup (ip : InodeId) : FsM InodeId := do
  setInode ip fun inode => { inode with ref := inode.ref + 1 }
  pure ip

def ilock (ip : InodeId) : FsM Unit := do
  let s ← get
  if (s.itable ip).ref < 1 then throw .ilock
  else if (s.itable ip).valid then pure ()
  else do
    let d := s.dinode (s.itable ip).inum
    setInode ip fun inode => { inode with valid := true, d := d }
    if d.type = 0 then throw .ilockNoType else pure ()

def iunlock (ip : InodeId) : FsM Unit := do
  let inode ← getInode ip
  if inode.ref < 1 then throw .iunlock else pure ()

/-! ## Inode content -/

/-- The index of the address of the indirect block. -/
def INDIRECT : Fin (NDIRECT + 1) := Fin.last NDIRECT

def setAddr (ip : InodeId) (j : Fin (NDIRECT + 1)) (addr : ℕ) : FsM Unit :=
  setDinode ip fun d => { d with addrs := Function.update d.addrs j addr }

/-- The address in `ip->addrs[j]`, a new block if there is none. -/
def bmapAddr (ip : InodeId) (j : Fin (NDIRECT + 1)) : FsM ℕ := do
  let inode ← getInode ip
  if inode.d.addrs j = 0 then do
    let addr ← balloc
    if addr = 0 then pure 0
    else do
      setAddr ip j addr
      pure addr
  else pure (inode.d.addrs j)

/-- The disk block address of block `bn` of the inode; allocates one if there is
none, and returns 0 if out of disk space. -/
def bmap (ip : InodeId) (bn : ℕ) : FsM ℕ :=
  if h : bn < NDIRECT then bmapAddr ip ⟨bn, Nat.lt_succ_of_lt h⟩
  else if bn - NDIRECT < NINDIRECT then do
    let ind ← bmapAddr ip INDIRECT
    if ind = 0 then pure 0
    else do
      let data ← bread ind
      if data.uint (bn - NDIRECT) = 0 then do
        let addr ← balloc
        if addr = 0 then pure 0
        else do
          let data ← bread ind
          setData ind (data.setUint (bn - NDIRECT) addr)
          logWrite ind
          pure addr
      else pure (data.uint (bn - NDIRECT))
  else throw .bmapOutOfRange

/-- Free the block in `ip->addrs[j]`. -/
def itruncDirect (ip : InodeId) (j : Fin (NDIRECT + 1)) : FsM Unit := do
  let inode ← getInode ip
  if inode.d.addrs j = 0 then pure ()
  else do
    bfree (inode.d.addrs j)
    setAddr ip j 0

/-- Free the block in entry `j` of the indirect block `a`. -/
def itruncEntry (a : Block) (j : ℕ) : FsM Unit :=
  if a.uint j = 0 then pure () else bfree (a.uint j)

/-- Free the blocks in the entries of the indirect block, and the indirect block. -/
def itruncIndirect (ip : InodeId) : FsM Unit := do
  let inode ← getInode ip
  if inode.d.addrs INDIRECT = 0 then pure ()
  else do
    let a ← bread (inode.d.addrs INDIRECT)
    (List.range NINDIRECT).forM (itruncEntry a)
    bfree (inode.d.addrs INDIRECT)
    setAddr ip INDIRECT 0

def itrunc (ip : InodeId) : FsM Unit := do
  (List.finRange NDIRECT).forM fun i => itruncDirect ip i.castSucc
  itruncIndirect ip
  setDinode ip fun d => { d with size := 0 }
  iupdate ip

/-- Truncate and free an inode that has no links and no other references. -/
def ifree (ip : InodeId) : FsM Unit := do
  itrunc ip
  setDinode ip fun d => { d with type := 0 }
  iupdate ip
  setInode ip fun inode => { inode with valid := false }

def decRef (ip : InodeId) : FsM Unit := setInode ip fun inode => { inode with ref := inode.ref - 1 }

/-- Drop a reference to an in-memory inode. -/
def iput (ip : InodeId) : FsM Unit := do
  let inode ← getInode ip
  if inode.ref = 1 ∧ inode.valid = true ∧ inode.d.nlink = 0 then do
    ifree ip
    decRef ip
  else decRef ip

def iunlockput (ip : InodeId) : FsM Unit := do
  iunlock ip
  iput ip

/-- The turn of `ireclaim`'s loop for `inum`: free it if it is an orphan. -/
def reclaim (inum : ℕ) : FsM Unit := do
  let s ← get
  if (s.dinode inum).type ≠ 0 ∧ (s.dinode inum).nlink = 0 then do
    let ip ← iget inum
    beginOp
    ilock ip
    iunlock ip
    iput ip
    endOp
  else pure ()

def ireclaim : FsM Unit := (List.range' 1 (sb.ninodes - 1)).forM reclaim

/-- The loop of `readi`: the number of bytes read, -1 if `dst` cannot take them,
and the bytes stored there.  `room` is how many bytes a user's buffer can take;
`either_copyout` stores what it can before it fails. -/
def readLoop (ip : InodeId) (room : Option ℕ) :
    (fuel off tot n : ℕ) → List UInt8 → FsM (ℤ × List UInt8)
  | 0, _, tot, _, bytes => pure (tot, bytes)
  | fuel + 1, off, tot, n, bytes =>
    if tot < n then do
      let addr ← bmap ip (off / BSIZE)
      if addr = 0 then pure (tot, bytes)
      else do
        let data ← bread addr
        let m := min (n - tot) (BSIZE - off % BSIZE)
        let chunk := (List.range m).map fun j => data.byte (off % BSIZE + j)
        if room.any (· < tot + m) then pure (-1, bytes ++ chunk.take (room.getD 0 - tot))
        else readLoop ip room fuel (off + m) (tot + m) n (bytes ++ chunk)
    else pure (tot, bytes)

def readi (ip : InodeId) (room : Option ℕ) (off n : ℕ) : FsM (ℤ × List UInt8) := do
  let inode ← getInode ip
  if inode.d.size < off ∨ (off + n) % 2 ^ 32 < off then pure (0, [])
  else
    let n := if inode.d.size < off + n then inode.d.size - off else n
    readLoop ip room n off 0 n []

/-- The loop of `writei`: the final `off` and `tot`.  `src` is as much as can be
read of the source; `either_copyin` fails at its end. -/
def writeLoop (ip : InodeId) (src : List UInt8) : (fuel off tot n : ℕ) → FsM (ℕ × ℕ)
  | 0, off, tot, _ => pure (off, tot)
  | fuel + 1, off, tot, n =>
    if tot < n then do
      let addr ← bmap ip (off / BSIZE)
      if addr = 0 then pure (off, tot)
      else do
        let data ← bread addr
        let m := min (n - tot) (BSIZE - off % BSIZE)
        let copied := min m (src.length - tot)
        setData addr (data.move (off % BSIZE) (fun j => src.getD (tot + j) 0) copied)
        if copied < m then pure (off, tot)
        else do
          logWrite addr
          writeLoop ip src fuel (off + m) (tot + m) n
    else pure (off, tot)

def writei (ip : InodeId) (src : List UInt8) (off n : ℕ) : FsM ℤ := do
  let inode ← getInode ip
  if inode.d.size < off ∨ (off + n) % 2 ^ 32 < off then pure (-1)
  else if MAXFILE * BSIZE < (off + n) % 2 ^ 32 then pure (-1)
  else do
    let (off, tot) ← writeLoop ip src n off 0 n
    setDinode ip fun d => { d with size := max d.size off }
    iupdate ip
    pure tot

end

end Xv6.Fs
