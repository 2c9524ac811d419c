import Xv6.Library.RingBuffer
import Xv6.Library.Run

/-! # The virtio disk driver

`virtio_disk_rw` and `virtio_disk_intr` of virtio_disk.c with the device between
them.  A step is what a process does under `vdisk_lock` between two sleeps, one turn
of the interrupt handler's loop, or one action of the device, which takes no lock.
A process in a call owns its buffer: `bread` and `bwrite` hold the buffer's
sleep-lock.  Of descriptors only what the driver reads back is kept.
-/
namespace Xv6.Disk.Virtio
open Library

def NUM : ℕ := 8

instance : NeZero NUM := ⟨by decide⟩

abbrev DescId := Fin NUM

/-- `flags & VRING_DESC_F_NEXT` and `next` of a descriptor. -/
structure Desc where
  hasNext : Bool
  next : ℕ

/-- `info[i]`, for a request whose chain starts at `i`. -/
structure Info (B : Type*) where
  b : Option B
  status : UInt8

/-- The three descriptors of a request. -/
structure Chain where
  i0 : DescId
  i1 : DescId
  i2 : DescId

/-- Where a process is in `virtio_disk_rw`. -/
inductive Point (B : Type*)
  | idle
  /-- It needs three descriptors. -/
  | alloc (b : B)
  /-- It waits for `b->disk` to be cleared. -/
  | wait (b : B) (c : Chain)

/-- `seen` counts the entries of the available ring that the device has taken; it
works on the requests in `pending` and has written the status of those in `ready`.
`locked b` is the process that holds the sleep-lock of `b` for its call.
`submitted` and `completed` record all heads put into the two rings, `consumed` and
`handled` how many of them were taken out, and `clears p` how often `b->disk` was
cleared during the request of `p`. -/
structure State (P B : Type*) where
  free : DescId → Bool
  desc : DescId → Desc
  availRing : DescId → DescId
  availIdx : BitVec 16
  usedRing : DescId → DescId
  usedRingIdx : BitVec 16
  usedIdx : BitVec 16
  info : DescId → Info B
  disk : B → Bool
  locked : B → Option P
  handler : Bool
  point : P → Point B
  seen : BitVec 16
  pending : List DescId
  ready : List DescId
  submitted : List DescId
  consumed : ℕ
  completed : List DescId
  handled : ℕ
  clears : P → ℕ

inductive Stop
  | freeDesc1
  | freeDesc2
  | intrStatus
  | nullBuf
  | endlessChain
  | blocked
  deriving DecidableEq

inductive Event (P B : Type*)
  /-- A process calls `virtio_disk_rw`. -/
  | rw (p : P) (b : B)
  /-- A process that waits for descriptors looks again. -/
  | retry (p : P)
  /-- A process whose request is done goes on. -/
  | finish (p : P)
  /-- The device takes the next entry of the available ring. -/
  | fetch
  /-- The device finishes a request and writes its status. -/
  | process (h : DescId)
  /-- The device publishes a finished request. -/
  | publish (h : DescId)
  | intrBegin
  | intrStep
  | intrEnd

variable {P B : Type*} [DecidableEq P] [DecidableEq B]

/-- The ring slot of a 16-bit index. -/
def slot (idx : BitVec 16) : DescId := Fin.ofNat NUM idx.toNat

namespace State

def allocDesc (s : State P B) : Option (DescId × State P B) :=
  ((List.finRange NUM).find? fun i => s.free i).map fun i =>
    (i, { s with free := Function.update s.free i false })

def freeDesc (s : State P B) (i : ℕ) : Except Stop (State P B) :=
  if h : i < NUM then
    if s.free ⟨i, h⟩ then .error .freeDesc2
    else .ok { s with
      desc := Function.update s.desc ⟨i, h⟩ ⟨false, 0⟩
      free := Function.update s.free ⟨i, h⟩ true }
  else .error .freeDesc1

def freeChain (s : State P B) : (fuel i : ℕ) → Except Stop (State P B)
  | 0, _ => .error .endlessChain
  | fuel + 1, i => do
    let d := if h : i < NUM then s.desc ⟨i, h⟩ else ⟨false, 0⟩
    let s ← s.freeDesc i
    if d.hasNext then s.freeChain fuel d.next else pure s

/-- Allocate three descriptors, or give back what was allocated. -/
def alloc3Desc (s : State P B) : Except Stop (Option Chain × State P B) :=
  match s.allocDesc with
  | none => .ok (none, s)
  | some (i0, s) =>
    match s.allocDesc with
    | none => do
      let s ← s.freeDesc i0
      pure (none, s)
    | some (i1, s) =>
      match s.allocDesc with
      | none => do
        let s ← s.freeDesc i0
        let s ← s.freeDesc i1
        pure (none, s)
      | some (i2, s) => .ok (some ⟨i0, i1, i2⟩, s)

/-- Format the descriptors and tell the device. -/
def submit (s : State P B) (p : P) (b : B) (c : Chain) : State P B :=
  { s with
    desc := Function.update (Function.update (Function.update s.desc c.i0 ⟨true, c.i1⟩)
      c.i1 ⟨true, c.i2⟩) c.i2 ⟨false, 0⟩
    info := Function.update s.info c.i0 ⟨some b, 0xff⟩
    disk := Function.update s.disk b true
    availRing := Function.update s.availRing (slot s.availIdx) c.i0
    availIdx := s.availIdx + 1
    point := Function.update s.point p (.wait b c)
    submitted := s.submitted ++ [c.i0]
    clears := Function.update s.clears p 0 }

/-- The part of `virtio_disk_rw` up to its first or second sleep. -/
def request (s : State P B) (p : P) (b : B) : Except Stop (State P B) := do
  let (r, s) ← s.alloc3Desc
  match r with
  | none => pure { s with point := Function.update s.point p (.alloc b) }
  | some c => pure (s.submit p b c)

/-- The end of `virtio_disk_rw`. -/
def finish (s : State P B) (p : P) (b : B) (c : Chain) : Except Stop (State P B) := do
  let s := { s with info := Function.update s.info c.i0 { s.info c.i0 with b := none } }
  let s ← s.freeChain NUM c.i0
  pure { s with
    point := Function.update s.point p .idle
    locked := Function.update s.locked b none }

def waitsFor (s : State P B) (b : B) (p : P) : Bool :=
  match s.point p with
  | .wait b' _ => b' = b
  | _ => false

/-- One turn of the loop of `virtio_disk_intr`. -/
def intrStep (s : State P B) : Except Stop (State P B) :=
  let id := s.usedRing (slot s.usedIdx)
  if (s.info id).status ≠ 0 then .error .intrStatus
  else
    match (s.info id).b with
    | none => .error .nullBuf
    | some b => .ok { s with
        disk := Function.update s.disk b false
        usedIdx := s.usedIdx + 1
        handled := s.handled + 1
        clears := fun p => if s.waitsFor b p then s.clears p + 1 else s.clears p }

end State

def next (e : Event P B) (s : State P B) : Except Stop (State P B) :=
  match e with
  | .rw p b =>
    match s.point p with
    | .idle =>
      if s.handler = false ∧ s.locked b = none then
        State.request { s with locked := Function.update s.locked b (some p) } p b
      else .error .blocked
    | _ => .error .blocked
  | .retry p =>
    match s.point p with
    | .alloc b => if s.handler = false then s.request p b else .error .blocked
    | _ => .error .blocked
  | .finish p =>
    match s.point p with
    | .wait b c => if s.handler = false ∧ s.disk b = false then s.finish p b c else .error .blocked
    | _ => .error .blocked
  | .fetch =>
    if s.seen = s.availIdx then .error .blocked
    else .ok { s with
      pending := s.availRing (slot s.seen) :: s.pending
      seen := s.seen + 1
      consumed := s.consumed + 1 }
  | .process h =>
    if h ∈ s.pending then .ok { s with
      info := Function.update s.info h { s.info h with status := 0 }
      pending := s.pending.erase h
      ready := h :: s.ready }
    else .error .blocked
  | .publish h =>
    if h ∈ s.ready then .ok { s with
      ready := s.ready.erase h
      usedRing := Function.update s.usedRing (slot s.usedRingIdx) h
      usedRingIdx := s.usedRingIdx + 1
      completed := s.completed ++ [h] }
    else .error .blocked
  | .intrBegin => if s.handler then .error .blocked else .ok { s with handler := true }
  | .intrStep =>
    if s.handler = true ∧ s.usedIdx ≠ s.usedRingIdx then s.intrStep else .error .blocked
  | .intrEnd =>
    if s.handler = true ∧ s.usedIdx = s.usedRingIdx then .ok { s with handler := false }
    else .error .blocked

def step (e : Event P B) (s : State P B) : Except Stop (Unit × State P B) :=
  match next e s with
  | .ok s' => .ok ((), s')
  | .error stop => .error stop

/-- The state that `virtio_disk_init` leaves; the buffers are idle. -/
def Initial (s : State P B) : Prop :=
  s.free = (fun _ => true) ∧ s.availIdx = 0 ∧ s.usedRingIdx = 0 ∧ s.usedIdx = 0 ∧ s.seen = 0 ∧
    s.handler = false ∧ s.point = (fun _ => .idle) ∧ s.locked = (fun _ => none) ∧
    s.pending = [] ∧ s.ready = [] ∧ s.submitted = [] ∧ s.consumed = 0 ∧ s.completed = [] ∧
    s.handled = 0

end Xv6.Disk.Virtio
