import Xv6.Disk.Block
import Xv6.Library.WriteTrace

/-! # The redo log of log.c

The log header block holds the count `n` and the home block numbers of the
logged blocks; the blocks after it hold the logged contents.  The state keeps
the disk, the contents of cached buffers, the in-memory header and the block
writes issued so far.
-/
namespace Xv6.Log
open Disk Library.WriteTrace

def MAXOPBLOCKS : ℕ := 10
def LOGBLOCKS : ℕ := MAXOPBLOCKS * 3

structure LogHeader where
  n : ℤ
  block : ℕ → UInt32

/-- The part of the machine that log.c reads and writes.  `writes` lists the
calls of `virtio_disk_rw` for writing, oldest first. -/
structure LogState where
  start : ℕ
  disk : ℕ → Block
  cache : ℕ → Option Block
  lh : LogHeader
  writes : List (ℕ × Block)

/-- The contents of the buffer that `bread` returns.  A block that is not
cached is read from the disk. -/
def bread (s : LogState) (b : ℕ) : Block := (s.cache b).getD (s.disk b)

/-- Store `data` in the buffer of block `b` and write the buffer to disk. -/
def bwrite (b : ℕ) (data : Block) (s : LogState) : LogState :=
  { s with
    disk := Function.update s.disk b data
    cache := Function.update s.cache b ((s.cache b).map fun _ => data)
    writes := s.writes ++ [(b, data)] }

/-- The loop `for(tail = 0; tail < n; tail++)` that reads block `src tail`,
copies it over block `dst tail` and writes that to disk. -/
def copyBlocks (dst src : ℕ → ℕ) (n : ℕ) (s : LogState) : LogState :=
  (List.range n).foldl (fun s tail => bwrite (dst tail) (bread s (src tail)) s) s

/-- Block number of logged block `tail` in the log. -/
def logBlock (start tail : ℕ) : ℕ := start + tail + 1

def homeBlock (lh : LogHeader) (tail : ℕ) : ℕ := (lh.block tail).toNat

/-- Copy modified blocks from cache to log.  A negative count runs no loop. -/
def writeLog (s : LogState) : LogState :=
  copyBlocks (logBlock s.start) (homeBlock s.lh) s.lh.n.toNat s

/-- Copy committed blocks from log to their home location. -/
def installTrans (s : LogState) : LogState :=
  copyBlocks (homeBlock s.lh) (logBlock s.start) s.lh.n.toNat s

/-- The header fields stored in a block. -/
def decodeHead (b : Block) : LogHeader where
  n := asInt (b.uint 0)
  block i := UInt32.ofNat (b.uint (i + 1))

/-- Store `n` and the first `n` block numbers over the header in `b`; the rest
of the block keeps its old bytes. -/
def encodeHead (lh : LogHeader) (b : Block) : Block :=
  (List.range lh.n.toNat).foldl (fun b i => b.setUint (i + 1) (homeBlock lh i))
    (b.setUint 0 (ofInt lh.n))

def readHead (s : LogState) : LogState :=
  let hb := decodeHead (bread s s.start)
  let block (i : ℕ) := if (i : ℤ) < hb.n then hb.block i else s.lh.block i
  { s with lh := { n := hb.n, block := block } }

def writeHead (s : LogState) : LogState :=
  bwrite s.start (encodeHead s.lh (bread s s.start)) s

def clearHead (s : LogState) : LogState := { s with lh := { s.lh with n := 0 } }

/-- `log.lh.n = 0; write_head();` after the installation. -/
def commit (s : LogState) : LogState :=
  if 0 < s.lh.n then writeHead (clearHead (installTrans (writeHead (writeLog s)))) else s

def recoverFromLog (s : LogState) : LogState :=
  writeHead (clearHead (installTrans (readHead s)))

/-- The machine at boot: nothing is cached and the in-memory header is the
zeroed static variable. -/
def boot (start : ℕ) (d : ℕ → Block) : LogState where
  start := start
  disk := d
  cache := fun _ => none
  lh := { n := 0, block := fun _ => 0 }
  writes := []

/-- The disks a sequence of recoveries can end with, when each one but the
last is cut short after any number of its block writes. -/
inductive Recovers (start : ℕ) : (ℕ → Block) → (ℕ → Block) → Prop
  | done (d : ℕ → Block) : Recovers start d (recoverFromLog (boot start d)).disk
  | crash (d d' : ℕ → Block) (k : ℕ) :
      Recovers start (crashStore d (recoverFromLog (boot start d)).writes k) d' →
      Recovers start d d'

end Xv6.Log
