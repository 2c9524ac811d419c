import Xv6.Bio.Bcache
import Xv6.Sched.Machine

/-! # Transactions of log.c

`begin_op`, `log_write`, `end_op` and `commit` as any number of processes run
them, with `log.lock` and `sleep`/`wakeup` on `&log`.  Outside of `log.lock`
the processes use the buffer cache, and `commit` does so without the lock.
-/
namespace Xv6.Log.Transaction
open Disk Sched Bio

/-- A call into bio.c by a process that is not in log.c. -/
inductive Use
  | bread (blockno : BlockNo)
  | acquiresleep
  | fill
  | store (b : Fin NBUF) (data : Block)
  | brelse (b : Fin NBUF)
  | unref

/-- What a process does next where log.c leaves it the choice. -/
inductive Input
  | use (u : Use)
  | beginOp
  | logWrite (b : Fin NBUF)
  | endOp

/-- The points of log.c; `dst` and `src` are the `to` and `from` of `write_log`. -/
inductive Point
  | idle
  -- `begin_op`
  | beginOp
  | beginTest
  | beginSleep
  | beginUnlock
  /-- Between `begin_op` and `end_op`. -/
  | op
  -- `log_write`
  | logWrite (b : Fin NBUF)
  | writeTest (b : Fin NBUF)
  | writeAbsorb (b : Fin NBUF)
  | writeUnlock
  -- `end_op`
  | endOp
  | endCount
  | endWake
  | endUnlock (doCommit : Bool)
  | commit
  -- `write_log`
  | logLoop (tail : ℕ)
  | logTo (tail : ℕ)
  | logFrom (tail : ℕ) (dst : Fin NBUF)
  | logCopy (tail : ℕ) (dst src : Fin NBUF)
  | logBwrite (tail : ℕ) (dst src : Fin NBUF)
  | logBrelseFrom (tail : ℕ) (dst src : Fin NBUF)
  | logBrelseTo (tail : ℕ) (dst : Fin NBUF)
  -- `write_head`, before the installation or after it
  | headRead (clear : Bool)
  | headStore (clear : Bool) (buf : Fin NBUF)
  | headBwrite (clear : Bool) (buf : Fin NBUF)
  | headBrelse (clear : Bool) (buf : Fin NBUF)
  -- `install_trans(0)`
  | instLoop (tail : ℕ)
  | instLbuf (tail : ℕ)
  | instDbuf (tail : ℕ) (lbuf : Fin NBUF)
  | instCopy (tail : ℕ) (lbuf dbuf : Fin NBUF)
  | instBwrite (tail : ℕ) (lbuf dbuf : Fin NBUF)
  | instUnpin (tail : ℕ) (lbuf dbuf : Fin NBUF)
  | instBrelseL (tail : ℕ) (lbuf dbuf : Fin NBUF)
  | instBrelseD (tail : ℕ) (dbuf : Fin NBUF)
  | clear
  -- the rest of `end_op`
  | doneLock
  | doneClear
  | doneWake
  | doneUnlock
  | panic (locked : Bool) (msg : String)
  deriving DecidableEq

/-- `struct log` with the buffer cache.  The last five fields record the blocks
that each running operation has logged, who commits, how many blocks
`install_trans` has unpinned, the blocks of the operations that ended since the
last header was written, and the headers written by commits with the operations
they are for. -/
structure Data (n : ℕ) where
  start : BlockNo
  outstanding : ℤ
  committing : Bool
  lh : List BlockNo
  bcache : Bcache n
  op : Fin n → Option (Finset BlockNo)
  committer : Option (Fin n)
  unpinned : ℕ
  ended : List (Finset BlockNo)
  headers : List (List BlockNo × List (Finset BlockNo))

variable {n : ℕ}

def Use.event (p : Fin n) : Use → Bio.Event n
  | .bread b => .bread p ROOTDEV b
  | .acquiresleep => .acquiresleep p
  | .fill => .fill p
  | .store b data => .store p b data
  | .brelse b => .brelse p b
  | .unref => .unref p

namespace Data

def bio (d : Data n) (e : Bio.Event n) (k : Point) : Option (Data n × Point) :=
  match Bio.next e d.bcache with
  | .ok c => some ({ d with bcache := c }, k)
  | .error (.panic msg) => some (d, .panic false msg)
  | .error .blocked => none

def bread (d : Data n) (p : Fin n) (b : BlockNo) (k : Point) (k' : Fin NBUF → Point) :
    Option (Data n × Point) :=
  match d.bcache.call p with
  | .idle => d.bio (.bread p ROOTDEV b) k
  | .bget _ _ => d.bio (.acquiresleep p) k
  | .bread i _ => d.bio (.fill p) (k' i)
  | .brelse _ => none

def brelse (d : Data n) (p : Fin n) (b : Fin NBUF) (k k' : Point) : Option (Data n × Point) :=
  match d.bcache.call p with
  | .idle => d.bio (.brelse p b) k
  | .brelse _ => d.bio (.unref p) k'
  | _ => none

def data (d : Data n) (b : Fin NBUF) : Block := (d.bcache.buf b).data

def block (d : Data n) (tail : ℕ) : BlockNo := d.lh.getD tail 0

def logBlock (d : Data n) (tail : ℕ) : BlockNo := d.start + BitVec.ofNat 32 tail + 1

def header (d : Data n) : LogHeader where
  n := d.lh.length
  block i := UInt32.ofBitVec (d.block i)

/-- A new operation would fit into the log. -/
def hasRoom (d : Data n) : Bool :=
  (d.lh.length : ℤ) + (d.outstanding + 1) * MAXOPBLOCKS ≤ LOGBLOCKS

/-- The tests of `begin_op`, and `log.outstanding += 1`. -/
def beginStep (d : Data n) (p : Fin n) : Data n × Point :=
  if d.committing then (d, .beginSleep)
  else if d.hasRoom then
    ({ d with
      outstanding := d.outstanding + 1
      op := Function.update d.op p (some ∅) }, .beginUnlock)
  else (d, .beginSleep)

/-- The tests of `log_write`. -/
def writeStep (d : Data n) (b : Fin NBUF) : Point :=
  if LOGBLOCKS ≤ d.lh.length then .panic true "too big a transaction"
  else if d.outstanding < 1 then .panic true "log_write outside of trans"
  else .writeAbsorb b

/-- Absorption: the block number goes where it is already, or to the end; a new
one pins the buffer. -/
def absorb (d : Data n) (p : Fin n) (b : Fin NBUF) : Data n :=
  let blockno := (d.bcache.buf b).blockno
  let i := d.lh.idxOf blockno
  let d := { d with op := Function.update d.op p ((d.op p).map (insert blockno)) }
  if i = d.lh.length then { d with bcache := d.bcache.bpin b, lh := d.lh ++ [blockno] }
  else { d with lh := d.lh.set i blockno }

/-- `end_op` up to its `release(&log.lock)`. -/
def endStep (d : Data n) (p : Fin n) : Data n × Point :=
  let d := { d with
    outstanding := d.outstanding - 1
    op := Function.update d.op p none
    ended := d.ended ++ [(d.op p).getD ∅] }
  if d.committing then (d, .panic true "log.committing")
  else if d.outstanding = 0 then ({ d with committing := true, committer := some p }, .endUnlock true)
  else (d, .endWake)

/-- `write_head` before the installation commits the operations that have ended. -/
def noteHeader (d : Data n) (clear : Bool) : Data n :=
  if clear then d else { d with headers := d.headers ++ [(d.lh, d.ended)], ended := [] }

end Data

/-- What a process does at each point, when its operations log at most `limit`
distinct blocks each. -/
def prog (limit : ℕ) (p : Fin n) : Point → Act (Data n) Unit Input Point
  | .idle => .step fun x d =>
    match x with
    | .use u => d.bio (u.event p) .idle
    | .beginOp => if d.bcache.call p = .idle then some (d, .beginOp) else none
    | _ => none
  | .beginOp => .acquire .beginTest
  | .beginTest => .step fun _ d => some (d.beginStep p)
  | .beginSleep => .sleep () .beginTest
  | .beginUnlock => .release .op
  | .op => .step fun x d =>
    match x with
    | .use u => d.bio (u.event p) .op
    | .logWrite b =>
      match d.bcache.held p b, d.op p with
      | some blockno, some blocks =>
        if d.bcache.call p = .idle ∧ (insert blockno blocks).card ≤ limit then some (d, .logWrite b)
        else none
      | _, _ => none
    | .endOp => if d.bcache.call p = .idle then some (d, .endOp) else none
    | .beginOp => none
  | .logWrite b => .acquire (.writeTest b)
  | .writeTest b => .step fun _ d => some (d, d.writeStep b)
  | .writeAbsorb b => .step fun _ d => some (d.absorb p b, .writeUnlock)
  | .writeUnlock => .release .op
  | .endOp => .acquire .endCount
  | .endCount => .step fun _ d => some (d.endStep p)
  | .endWake => .wakeup () (.endUnlock false)
  | .endUnlock doCommit => .release (if doCommit then .commit else .idle)
  | .commit => .step fun _ d => some (d, if 0 < d.lh.length then .logLoop 0 else .doneLock)
  | .logLoop tail => .step fun _ d =>
    some (d, if tail < d.lh.length then .logTo tail else .headRead false)
  | .logTo tail => .step fun _ d => d.bread p (d.logBlock tail) (.logTo tail) (.logFrom tail)
  | .logFrom tail dst => .step fun _ d =>
    d.bread p (d.block tail) (.logFrom tail dst) (.logCopy tail dst)
  | .logCopy tail dst src => .step fun _ d =>
    d.bio (.store p dst (d.data src)) (.logBwrite tail dst src)
  | .logBwrite tail dst src => .step fun _ d => d.bio (.bwrite p dst) (.logBrelseFrom tail dst src)
  | .logBrelseFrom tail dst src => .step fun _ d =>
    d.brelse p src (.logBrelseFrom tail dst src) (.logBrelseTo tail dst)
  | .logBrelseTo tail dst => .step fun _ d =>
    d.brelse p dst (.logBrelseTo tail dst) (.logLoop (tail + 1))
  | .headRead clear => .step fun _ d => d.bread p d.start (.headRead clear) (.headStore clear)
  | .headStore clear buf => .step fun _ d =>
    d.bio (.store p buf (encodeHead d.header (d.data buf))) (.headBwrite clear buf)
  | .headBwrite clear buf => .step fun _ d =>
    (d.noteHeader clear).bio (.bwrite p buf) (.headBrelse clear buf)
  | .headBrelse clear buf => .step fun _ d =>
    d.brelse p buf (.headBrelse clear buf) (if clear then .doneLock else .instLoop 0)
  | .instLoop tail => .step fun _ d =>
    some (d, if tail < d.lh.length then .instLbuf tail else .clear)
  | .instLbuf tail => .step fun _ d => d.bread p (d.logBlock tail) (.instLbuf tail) (.instDbuf tail)
  | .instDbuf tail lbuf => .step fun _ d =>
    d.bread p (d.block tail) (.instDbuf tail lbuf) (.instCopy tail lbuf)
  | .instCopy tail lbuf dbuf => .step fun _ d =>
    d.bio (.store p dbuf (d.data lbuf)) (.instBwrite tail lbuf dbuf)
  | .instBwrite tail lbuf dbuf => .step fun _ d =>
    d.bio (.bwrite p dbuf) (.instUnpin tail lbuf dbuf)
  | .instUnpin tail lbuf dbuf => .step fun _ d =>
    some ({ d with bcache := d.bcache.bunpin dbuf, unpinned := d.unpinned + 1 },
      .instBrelseL tail lbuf dbuf)
  | .instBrelseL tail lbuf dbuf => .step fun _ d =>
    d.brelse p lbuf (.instBrelseL tail lbuf dbuf) (.instBrelseD tail dbuf)
  | .instBrelseD tail dbuf => .step fun _ d =>
    d.brelse p dbuf (.instBrelseD tail dbuf) (.instLoop (tail + 1))
  | .clear => .step fun _ d => some ({ d with lh := [], unpinned := 0 }, .headRead true)
  | .doneLock => .acquire .doneClear
  | .doneClear => .step fun _ d =>
    some ({ d with committing := false, committer := none }, .doneWake)
  | .doneWake => .wakeup () .doneUnlock
  | .doneUnlock => .release .idle
  | .panic _ msg => .panic msg

/-- An empty log after recovery, with nothing cached. -/
def Data.init (start : BlockNo) (disk : BitVec 32 → Block) : Data n where
  start := start
  outstanding := 0
  committing := false
  lh := []
  bcache := binit disk
  op _ := none
  committer := none
  unpinned := 0
  ended := []
  headers := []

def Initial (s : Machine n (Data n) Unit Point) : Prop :=
  ∃ start disk, s = .start (.init start disk) fun _ => .idle

end Xv6.Log.Transaction
