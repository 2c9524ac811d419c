import Xv6.Log.Basic
import Xv6.Library.Ring
import Xv6.Library.Run
import Xv6.Sched.Machine

/-! # The buffer cache of bio.c

The buffers with their list links, and the calls of `bread`, `bwrite`, `brelse`,
`bpin` and `bunpin` by any number of processes.  A call is cut where it takes or
drops `bcache.lock` or a buffer's sleep lock; between those points the steps of
different processes interleave.
-/
namespace Xv6.Bio
open Disk Library Sched Log

def NBUF : ℕ := MAXOPBLOCKS * 3
def ROOTDEV : BitVec 32 := 1

instance : NeZero NBUF := ⟨by decide⟩

abbrev BlockNo := BitVec 32

/-- `struct buf` without its list links; `lock` is the process that holds the
buffer's sleep lock. -/
structure Buf (n : ℕ) where
  valid : Bool
  dev : BitVec 32
  blockno : BlockNo
  lock : Option (Fin n)
  refcnt : ℕ
  data : Block

/-- A node of the list; `none` is `bcache.head`. -/
abbrev Node := Option (Fin NBUF)

/-- Where a process is inside bio.c. -/
inductive Call
  | idle
  /-- In `bget` for a block, before `acquiresleep(&b->lock)`. -/
  | bget (b : Fin NBUF) (blockno : BlockNo)
  /-- In `bread`, before it looks at `b->valid`. -/
  | bread (b : Fin NBUF) (blockno : BlockNo)
  /-- In `brelse`, before `acquire(&bcache.lock)`. -/
  | brelse (b : Fin NBUF)
  deriving DecidableEq

/-- The buffers, the disk by the first sector of a block, and what the processes
are doing with them.  The last four fields record what happened: how often a
buffer was pinned, what was last stored in the buffer of a block, whether that is
not yet written to the disk, and whether the last reference to the buffer was
dropped before it was. -/
structure Bcache (n : ℕ) where
  buf : Fin NBUF → Buf n
  links : Links Node
  disk : BitVec 32 → Block
  call : Fin n → Call
  /-- The buffers that `bread` has returned to a process, with the block it asked for. -/
  held : Fin n → Fin NBUF → Option BlockNo
  pins : Fin NBUF → ℕ
  stored : BlockNo → Block
  unsaved : BlockNo → Bool
  lost : BlockNo → Bool

/-- `uint64 sector = b->blockno * (BSIZE / 512);` with the product in 32 bits. -/
def sector (blockno : BlockNo) : BitVec 32 := blockno * BitVec.ofNat 32 (BSIZE / 512)

section Sections

variable {n : ℕ}

/-- The list of `binit`, which puts the buffers behind the head one by one. -/
def initLinks : Links Node :=
  (List.finRange NBUF).foldl (fun l b => l.insert none (some b)) ⟨fun _ => none, fun _ => none⟩

/-- After `binit`, with the disk as it was found. -/
def binit (disk : BitVec 32 → Block) : Bcache n where
  buf _ := ⟨false, 0, 0, none, 0, Block.zero⟩
  links := initLinks
  disk := disk
  call _ := .idle
  held _ _ := none
  pins _ := 0
  stored b := disk (sector b)
  unsaved _ := false
  lost _ := false

namespace Bcache

@[simps -fullyApplied]
def setBuf (c : Bcache n) (i : Fin NBUF) (b : Buf n) : Bcache n :=
  { c with buf := Function.update c.buf i b }

@[simps -fullyApplied]
def setCall (c : Bcache n) (p : Fin n) (k : Call) : Bcache n :=
  { c with call := Function.update c.call p k }

@[simps -fullyApplied]
def setHeld (c : Bcache n) (p : Fin n) (i : Fin NBUF) (b : Option BlockNo) : Bcache n :=
  { c with held := Function.update c.held p (Function.update (c.held p) i b) }

def caches (c : Bcache n) (dev : BitVec 32) (blockno : BlockNo) (b : Node) : Bool :=
  b.any fun i => (c.buf i).dev = dev ∧ (c.buf i).blockno = blockno

def unused (c : Bcache n) (b : Node) : Bool := b.any fun i => (c.buf i).refcnt = 0

/-- The first loop of `bget`, from the most recently used buffer on. -/
def findCached (c : Bcache n) (dev : BitVec 32) (blockno : BlockNo) : Option (Option Node) :=
  Links.scan c.links.next none (c.caches dev blockno) (NBUF + 1) (c.links.next none)

/-- The second loop of `bget`, from the least recently used buffer on. -/
def findUnused (c : Bcache n) : Option (Option Node) :=
  Links.scan c.links.prev none c.unused (NBUF + 1) (c.links.prev none)

@[simps! -fullyApplied buf links disk call held pins stored unsaved lost]
def ref (c : Bcache n) (i : Fin NBUF) : Bcache n :=
  c.setBuf i { c.buf i with refcnt := (c.buf i).refcnt + 1 }

/-- What `bget` makes of the buffer it recycles. -/
@[simps! -fullyApplied buf links disk call held pins stored unsaved lost]
def recycle (c : Bcache n) (i : Fin NBUF) (dev : BitVec 32) (blockno : BlockNo) : Bcache n :=
  c.setBuf i { c.buf i with dev := dev, blockno := blockno, valid := false, refcnt := 1 }

/-- `bget` up to its `release(&bcache.lock)`. -/
def bget (c : Bcache n) (dev : BitVec 32) (blockno : BlockNo) :
    Except Stop (Fin NBUF × Bcache n) :=
  match c.findCached dev blockno with
  | some (some (some i)) => .ok (i, c.ref i)
  | some none =>
    match c.findUnused with
    | some (some (some i)) => .ok (i, c.recycle i dev blockno)
    | some none => .error (.panic "bget: no buffers")
    | _ => .error .blocked
  | _ => .error .blocked

/-- Records that the buffer may be recycled now, modified or not. -/
@[simps -fullyApplied]
def noteUnref (c : Bcache n) (i : Fin NBUF) : Bcache n :=
  { c with
    lost := Function.update c.lost (c.buf i).blockno
      (c.lost (c.buf i).blockno || ((c.buf i).refcnt = 0 && c.unsaved (c.buf i).blockno)) }

@[simps! -fullyApplied buf links disk call held pins stored unsaved lost]
def unref (c : Bcache n) (i : Fin NBUF) : Bcache n :=
  (c.setBuf i { c.buf i with refcnt := (c.buf i).refcnt - 1 }).noteUnref i

/-- The section of `brelse` under `bcache.lock`: a buffer that nobody waits for
moves to the head of the list. -/
@[simps! -fullyApplied buf links disk call held pins stored unsaved lost]
def brelse (c : Bcache n) (i : Fin NBUF) : Bcache n :=
  let c := c.unref i
  { c with
    links := if (c.buf i).refcnt = 0 then (c.links.unlink (some i)).insert none (some i)
      else c.links }

@[simps! -fullyApplied buf links disk call held pins stored unsaved lost]
def bpin (c : Bcache n) (i : Fin NBUF) : Bcache n :=
  { c.ref i with pins := Function.update c.pins i (c.pins i + 1) }

@[simps! -fullyApplied buf links disk call held pins stored unsaved lost]
def bunpin (c : Bcache n) (i : Fin NBUF) : Bcache n :=
  { c.unref i with pins := Function.update c.pins i (c.pins i - 1) }

@[simps! -fullyApplied buf links disk call held pins stored unsaved lost]
def setLock (c : Bcache n) (i : Fin NBUF) (o : Option (Fin n)) : Bcache n :=
  c.setBuf i { c.buf i with lock := o }

def holdingsleep (c : Bcache n) (p : Fin n) (i : Fin NBUF) : Bool := (c.buf i).lock = some p

/-- `virtio_disk_rw(b, 0); b->valid = 1;` -/
@[simps! -fullyApplied buf links disk call held pins stored unsaved lost]
def readDisk (c : Bcache n) (i : Fin NBUF) : Bcache n :=
  c.setBuf i { c.buf i with data := c.disk (sector (c.buf i).blockno), valid := true }

@[simps -fullyApplied]
def writeDisk (c : Bcache n) (i : Fin NBUF) : Bcache n :=
  { c with
    disk := Function.update c.disk (sector (c.buf i).blockno) (c.buf i).data
    unsaved := Function.update c.unsaved (c.buf i).blockno false }

/-- A process changes `b->data`. -/
@[simps -fullyApplied]
def setData (c : Bcache n) (i : Fin NBUF) (data : Block) : Bcache n :=
  { c with
    buf := Function.update c.buf i { c.buf i with data := data }
    stored := Function.update c.stored (c.buf i).blockno data
    unsaved := Function.update c.unsaved (c.buf i).blockno true
    lost := Function.update c.lost (c.buf i).blockno false }

end Bcache

end Sections

inductive Event (n : ℕ)
  /-- A call of `bread`, through the first section of `bget`. -/
  | bread (p : Fin n) (dev : BitVec 32) (blockno : BlockNo)
  | acquiresleep (p : Fin n)
  /-- The rest of `bread`. -/
  | fill (p : Fin n)
  /-- A process changes `b->data`. -/
  | store (p : Fin n) (b : Fin NBUF) (data : Block)
  | bwrite (p : Fin n) (b : Fin NBUF)
  /-- A call of `brelse`, through `releasesleep`. -/
  | brelse (p : Fin n) (b : Fin NBUF)
  /-- The rest of `brelse`. -/
  | unref (p : Fin n)
  | bpin (p : Fin n) (b : Fin NBUF)
  /-- Undoes a `bpin`. -/
  | bunpin (b : Fin NBUF)

section Steps

variable {n : ℕ}

def next (e : Event n) (c : Bcache n) : Except Stop (Bcache n) :=
  match e with
  | .bread p dev blockno =>
    match c.call p with
    | .idle => (c.bget dev blockno).map fun r => r.2.setCall p (.bget r.1 blockno)
    | _ => .error .blocked
  | .acquiresleep p =>
    match c.call p with
    | .bget i blockno =>
      if (c.buf i).lock = none then .ok ((c.setLock i (some p)).setCall p (.bread i blockno))
      else .error .blocked
    | _ => .error .blocked
  | .fill p =>
    match c.call p with
    | .bread i blockno =>
      .ok (((if (c.buf i).valid then c else c.readDisk i).setCall p .idle).setHeld p i
        (some blockno))
    | _ => .error .blocked
  | .store p i data =>
    if c.call p = .idle ∧ c.holdingsleep p i then .ok (c.setData i data) else .error .blocked
  | .bwrite p i =>
    if c.call p = .idle then
      if c.holdingsleep p i then .ok (c.writeDisk i) else .error (.panic "bwrite")
    else .error .blocked
  | .brelse p i =>
    if c.call p = .idle then
      if c.holdingsleep p i then .ok (((c.setLock i none).setHeld p i none).setCall p (.brelse i))
      else .error (.panic "brelse")
    else .error .blocked
  | .unref p =>
    match c.call p with
    | .brelse i => .ok ((c.brelse i).setCall p .idle)
    | _ => .error .blocked
  | .bpin p i => if c.call p = .idle ∧ c.holdingsleep p i then .ok (c.bpin i) else .error .blocked
  | .bunpin i => if 0 < c.pins i then .ok (c.bunpin i) else .error .blocked

def step (e : Event n) (c : Bcache n) : Except Stop (Unit × Bcache n) :=
  (next e c).map fun c' => ((), c')

/-- What one step does. -/
inductive Move (c : Bcache n) : Event n → Bcache n → Prop
  | hit {p dev blockno i} (hp : c.call p = .idle)
      (hfind : c.findCached dev blockno = some (some (some i))) :
      Move c (.bread p dev blockno) ((c.ref i).setCall p (.bget i blockno))
  | miss {p dev blockno i} (hp : c.call p = .idle) (hnone : c.findCached dev blockno = some none)
      (hfind : c.findUnused = some (some (some i))) :
      Move c (.bread p dev blockno) ((c.recycle i dev blockno).setCall p (.bget i blockno))
  | acquiresleep {p i blockno} (hp : c.call p = .bget i blockno) (hlock : (c.buf i).lock = none) :
      Move c (.acquiresleep p) ((c.setLock i (some p)).setCall p (.bread i blockno))
  | valid {p i blockno} (hp : c.call p = .bread i blockno) (hvalid : (c.buf i).valid = true) :
      Move c (.fill p) ((c.setCall p .idle).setHeld p i (some blockno))
  | fill {p i blockno} (hp : c.call p = .bread i blockno) (hvalid : (c.buf i).valid = false) :
      Move c (.fill p) (((c.readDisk i).setCall p .idle).setHeld p i (some blockno))
  | store {p i data} (hp : c.call p = .idle) (hlock : (c.buf i).lock = some p) :
      Move c (.store p i data) (c.setData i data)
  | bwrite {p i} (hp : c.call p = .idle) (hlock : (c.buf i).lock = some p) :
      Move c (.bwrite p i) (c.writeDisk i)
  | brelse {p i} (hp : c.call p = .idle) (hlock : (c.buf i).lock = some p) :
      Move c (.brelse p i) (((c.setLock i none).setHeld p i none).setCall p (.brelse i))
  | unref {p i} (hp : c.call p = .brelse i) : Move c (.unref p) ((c.brelse i).setCall p .idle)
  | bpin {p i} (hp : c.call p = .idle) (hlock : (c.buf i).lock = some p) :
      Move c (.bpin p i) (c.bpin i)
  | bunpin {i} (hpin : 0 < c.pins i) : Move c (.bunpin i) (c.bunpin i)

variable {c c' : Bcache n} {e : Event n}

private theorem bread_cases {p : Fin n} {dev : BitVec 32} {blockno : BlockNo}
    (h : next (.bread p dev blockno) c = .ok c') : Move c (.bread p dev blockno) c' := by
  simp only [next] at h
  split at h
  · rename_i hp
    simp only [Bcache.bget] at h
    split at h
    · cases h
      exact .hit hp ‹_›
    · rename_i hnone
      split at h
      · cases h
        exact .miss hp hnone ‹_›
      · cases h
      · cases h
    · cases h
  · cases h

theorem next_cases (h : next e c = .ok c') : Move c e c' := by
  cases e with
  | bread p dev blockno => exact bread_cases h
  | acquiresleep p =>
    simp only [next] at h
    split at h
    · split at h <;> cases h
      exact .acquiresleep ‹_› ‹_›
    · cases h
  | fill p =>
    simp only [next] at h
    split at h
    · rename_i i blockno hp
      cases hv : (c.buf i).valid <;> simp only [hv, if_true] at h <;> cases h
      · exact .fill hp hv
      · exact .valid hp hv
    · cases h
  | store p i data =>
    simp only [next] at h
    split at h <;> cases h
    rename_i hp
    exact .store hp.1 (of_decide_eq_true hp.2)
  | bwrite p i =>
    simp only [next] at h
    split at h
    · split at h <;> cases h
      exact .bwrite ‹_› (of_decide_eq_true ‹_›)
    · cases h
  | brelse p i =>
    simp only [next] at h
    split at h
    · split at h <;> cases h
      exact .brelse ‹_› (of_decide_eq_true ‹_›)
    · cases h
  | unref p =>
    simp only [next] at h
    split at h <;> cases h
    exact .unref ‹_›
  | bpin p i =>
    simp only [next] at h
    split at h <;> cases h
    rename_i hp
    exact .bpin hp.1 (of_decide_eq_true hp.2)
  | bunpin i =>
    simp only [next] at h
    split at h <;> cases h
    exact .bunpin ‹_›

theorem step_cases {u : Unit} (h : step e c = .ok (u, c')) : Move c e c' := by
  cases hn : next e c with
  | error err => simp [step, hn, Except.map] at h
  | ok c₁ =>
    simp only [step, hn, Except.map] at h
    cases h
    exact next_cases hn

end Steps

end Xv6.Bio
