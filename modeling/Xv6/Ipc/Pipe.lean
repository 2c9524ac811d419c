import Xv6.Sched.Rule
import Xv6.Library.RingBuffer

/-! # Pipes

`pipewrite`, `piperead` and `pipeclose` of pipe.c as programs over one pipe,
with `pi->lock` as the condition lock and the addresses of `nread` and `nwrite`
as channels.  What user memory holds, and whether an address is valid, comes
from outside.  The page of a pipe with both ends closed is not used again, so
that `pipeclose` frees it plays no part here.
-/
namespace Xv6.Ipc
open Library Sched

def PIPESIZE : ℕ := 512

instance : NeZero PIPESIZE := ⟨by decide⟩

/-- `struct pipe`.  The bytes stored and the bytes delivered so far are recorded beside it. -/
structure Pipe where
  data : Fin PIPESIZE → UInt8
  nread : BitVec 32
  nwrite : BitVec 32
  readopen : Bool
  writeopen : Bool
  accepted : List UInt8
  delivered : List UInt8

/-- What `pipealloc` makes of a page. -/
def Pipe.alloc (page : Fin PIPESIZE → UInt8) : Pipe where
  data := page
  nread := 0
  nwrite := 0
  readopen := true
  writeopen := true
  accepted := []
  delivered := []

def Pipe.isEmpty (pi : Pipe) : Bool := pi.nread == pi.nwrite

def Pipe.isFull (pi : Pipe) : Bool := pi.nwrite == pi.nread + BitVec.ofNat 32 PIPESIZE

/-- `pi->data[pi->nwrite++ % PIPESIZE] = ch`. -/
def Pipe.put (pi : Pipe) (ch : UInt8) : Pipe :=
  { pi with
    data := Function.update pi.data (Fin.ofNat PIPESIZE pi.nwrite.toNat) ch
    nwrite := pi.nwrite + 1
    accepted := pi.accepted ++ [ch] }

/-- `ch = pi->data[pi->nread++ % PIPESIZE]`, then `copyout`. -/
def Pipe.take (pi : Pipe) (copied : Bool) : Pipe :=
  { pi with
    nread := pi.nread + 1
    delivered :=
      if copied then pi.delivered ++ [pi.data (Fin.ofNat PIPESIZE pi.nread.toNat)]
      else pi.delivered }

def Pipe.shut (pi : Pipe) (writable : Bool) : Pipe :=
  if writable then { pi with writeopen := false } else { pi with readopen := false }

inductive Chan
  | nread
  | nwrite
  deriving DecidableEq

/-- The channel that `pipeclose` wakes. -/
def Chan.ofEnd (writable : Bool) : Chan := if writable then .nread else .nwrite

/-- The points of the three functions.  In the loop of `pipewrite`, `stored` says
that a byte has been stored since the last `wakeup(&pi->nread)`; the code does
not look at it. -/
inductive Point
  | idle
  | pipewrite (n : ℤ)
  /-- `while(i < n)` and `pi->readopen == 0`. -/
  | wLoop (n i : ℤ) (stored : Bool)
  /-- `killed(pr)`. -/
  | wKilled (n i : ℤ) (stored : Bool)
  /-- The test for a full pipe; `copyin` and the store if there is room. -/
  | wStore (n i : ℤ) (stored : Bool)
  | wWakeFull (n i : ℤ)
  | wSleep (n i : ℤ)
  | wDone (i : ℤ)
  | piperead (n : ℤ)
  /-- `while(pi->nread == pi->nwrite && pi->writeopen)`. -/
  | rLoop (n : ℤ)
  | rKilled (n : ℤ)
  | rSleep (n : ℤ)
  /-- The body of the copying loop. -/
  | rCopy (n i : ℤ)
  | rDone (i : ℤ)
  | pipeclose (writable : Bool)
  | cShut (writable : Bool)
  | cWake (writable : Bool)
  /-- `release(&pi->lock)` before a function returns `r`. -/
  | unlock (r : ℤ)
  deriving DecidableEq

/-- What a process calls, the byte that `copyin` finds, whether `copyout` succeeds. -/
inductive Input
  | write (n : ℤ)
  | read (n : ℤ)
  | close (writable : Bool)
  | copyin (ch : Option UInt8)
  | copyout (ok : Bool)
  deriving DecidableEq

def call : Input → Option Point
  | .write n => some (.pipewrite n)
  | .read n => some (.piperead n)
  | .close writable => some (.pipeclose writable)
  | _ => none

def writeStep (n i : ℤ) (x : Input) (pi : Pipe) : Option (Pipe × Point) :=
  if pi.isFull then some (pi, .wWakeFull n i)
  else
    match x with
    | .copyin none => some (pi, .wDone i)
    | .copyin (some ch) => some (pi.put ch, .wLoop n (i + 1) true)
    | _ => none

def readStep (n i : ℤ) (x : Input) (pi : Pipe) : Option (Pipe × Point) :=
  if i < n then
    if pi.isEmpty then some (pi, .rDone i)
    else
      match x with
      | .copyout true => some (pi.take true, .rCopy n (i + 1))
      | .copyout false => some (pi.take false, .rDone i)
      | _ => none
  else some (pi, .rDone i)

variable {p : ℕ}

def prog (_ : Fin p) : Point → Act Pipe Chan Input Point
  | .idle => .step fun x pi => (call x).map fun k => (pi, k)
  | .pipewrite n => .acquire (.wLoop n 0 false)
  | .wLoop n i stored => .step fun _ pi => some (pi,
      if i < n then if pi.readopen then .wKilled n i stored else .unlock (-1) else .wDone i)
  | .wKilled n i stored => .killed fun k => if k then .unlock (-1) else .wStore n i stored
  | .wStore n i _ => .step (writeStep n i)
  | .wWakeFull n i => .wakeup .nread (.wSleep n i)
  | .wSleep n i => .sleep .nwrite (.wLoop n i false)
  | .wDone i => .wakeup .nread (.unlock i)
  | .piperead n => .acquire (.rLoop n)
  | .rLoop n => .step fun _ pi => some (pi,
      if pi.isEmpty && pi.writeopen then .rKilled n else .rCopy n 0)
  | .rKilled n => .killed fun k => if k then .unlock (-1) else .rSleep n
  | .rSleep n => .sleep .nread (.rLoop n)
  | .rCopy n i => .step (readStep n i)
  | .rDone i => .wakeup .nwrite (.unlock i)
  | .pipeclose writable => .acquire (.cShut writable)
  | .cShut writable => .step fun _ pi => some (pi.shut writable, .cWake writable)
  | .cWake writable => .wakeup (Chan.ofEnd writable) (.unlock 0)
  | .unlock _ => .release .idle

/-- A pipe that no process has used yet. -/
def Initial (s : Machine p Pipe Chan Point) : Prop :=
  ∃ page, s = .start (.alloc page) fun _ => .idle

end Xv6.Ipc
