import Xv6.Sched.Rule

/-! # The life of a process

`kfork`, `kexit` with `reparent`, and `kwait` of proc.c as programs over the
process table, with `wait_lock` as the condition lock and a process's own
`struct proc` as the channel it waits on.  Sections under some `p->lock` alone
are single steps without `wait_lock`.

A live process is `SLEEPING`, `RUNNABLE` or `RUNNING`; the machine underneath
says which.  Beside the table stands a record of what happened: each slot's
current lifetime has a number, and the record lists the lifetimes begun, the
exits with their status, and what each `kwait` returned to whom.
-/
namespace Xv6.Proc
open Sched

inductive Life
  | unused
  | used
  | live
  | zombie
  deriving DecidableEq

/-- What one `kwait` returned. -/
structure Reaped (n : ℕ) where
  waiter : Fin n
  parent : Option (Fin n)
  lifetime : ℕ
  pid : ℤ
  status : ℤ
  deriving DecidableEq

structure Record (n : ℕ) where
  born : List (ℕ × ℤ)
  exited : List (ℕ × ℤ × ℤ)
  reaped : List (Reaped n)

structure ProcTable (n : ℕ) where
  life : Fin n → Life
  pid : Fin n → ℤ
  parent : Fin n → Option (Fin n)
  xstate : Fin n → ℤ
  nextpid : ℤ
  lifetime : Fin n → ℕ
  /-- The process whose `kfork` allocated the slot. -/
  maker : Fin n → Option (Fin n)
  nextLifetime : ℕ
  record : Record n

variable {n : ℕ}

namespace ProcTable

/-- `allocproc` up to the first `release(&np->lock)` of `kfork`, by process `p`. -/
@[simps]
def alloc (t : ProcTable n) (p np : Fin n) : ProcTable n where
  life := Function.update t.life np .used
  pid := Function.update t.pid np t.nextpid
  parent := t.parent
  xstate := t.xstate
  nextpid := (t.nextpid + 1).bmod (2 ^ 32)
  lifetime := Function.update t.lifetime np t.nextLifetime
  maker := Function.update t.maker np (some p)
  nextLifetime := t.nextLifetime + 1
  record := { t.record with born := (t.nextLifetime, t.nextpid) :: t.record.born }

/-- An `allocproc` or `kfork` that runs out of memory gives the slot back and
leaves only a pid behind. -/
@[simps]
def allocFail (t : ProcTable n) : ProcTable n := 
  { t with nextpid := (t.nextpid + 1).bmod (2 ^ 32) }

@[simps]
def setParent (t : ProcTable n) (pp q : Fin n) : ProcTable n :=
  { t with parent := Function.update t.parent pp (some q) }

@[simps]
def start (t : ProcTable n) (np : Fin n) : ProcTable n :=
  { t with life := Function.update t.life np .live }

@[simps]
def exit (t : ProcTable n) (p : Fin n) (status : ℤ) : ProcTable n :=
  { t with
    xstate := Function.update t.xstate p status
    life := Function.update t.life p .zombie
    record :=
      { t.record with exited := (t.lifetime p, t.pid p, status) :: t.record.exited } }

/-- `freeproc(pp)` by a `kwait` of process `p` that returns. -/
@[simps]
def reap (t : ProcTable n) (p pp : Fin n) : ProcTable n :=
  { t with
    life := Function.update t.life pp .unused
    pid := Function.update t.pid pp 0
    parent := Function.update t.parent pp none
    xstate := Function.update t.xstate pp 0
    record :=
      { t.record with
        reaped := ⟨p, t.parent pp, t.lifetime pp, t.pid pp, t.xstate pp⟩ :: t.record.reaped } }

/-- The exited child that the scan of `kwait` finds first. -/
def findZombie (t : ProcTable n) (p : Fin n) : Option (Fin n) :=
  (List.finRange n).find? fun pp => t.parent pp = some p ∧ t.life pp = .zombie

def HasKids (t : ProcTable n) (p : Fin n) : Prop := ∃ pp, t.parent pp = some p

instance (t : ProcTable n) (p : Fin n) : Decidable (t.HasKids p) := by
  unfold HasKids
  infer_instance

end ProcTable

inductive Point (n : ℕ)
  /-- A slot whose process does not run: not yet or no longer. -/
  | absent
  | user
  /-- `kfork` before `acquire(&wait_lock)`. -/
  | forkLock (np : Fin n)
  | forkParent (np : Fin n)
  | forkUnlock (np : Fin n)
  /-- `kfork` before `np->state = RUNNABLE`. -/
  | forkStart (np : Fin n)
  | kexit (status : ℤ)
  /-- The loop of `reparent`. -/
  | reparent (i : ℕ) (status : ℤ)
  | reparentWake (i : ℕ) (status : ℤ)
  /-- `wakeup(p->parent)`. -/
  | exitWake (status : ℤ) (parent : Fin n)
  | exitZombie (status : ℤ) (parent : Option (Fin n))
  | exitUnlock
  | kwait
  /-- The scan of `kwait`. -/
  | scan
  | waitKilled
  | waitSleep
  | unlock (r : ℤ)
  deriving DecidableEq

/-- What a process calls, with the slot and the memory that `allocproc` finds,
and whether `copyout` of the status succeeds. -/
inductive Input (n : ℕ)
  | fork (np : Fin n) (memory : Bool)
  | forkFull
  | exit (status : ℤ)
  | wait
  | copyout (ok : Bool)

def call (p : Fin n) (x : Input n) (t : ProcTable n) : Option (ProcTable n × Point n) :=
  match x with
  | .fork np memory =>
    if t.life np = .unused then
      if memory then some (t.alloc p np, .forkLock np) else some (t.allocFail, .user)
    else none
  | .forkFull => some (t, .user)
  | .exit status => some (t, .kexit status)
  | .wait => some (t, .kwait)
  | .copyout _ => none

def reparentStep (initproc p : Fin n) (i : ℕ) (status : ℤ) (t : ProcTable n) : ProcTable n × Point n :=
  if h : i < n then
    if t.parent ⟨i, h⟩ = some p then (t.setParent ⟨i, h⟩ initproc, .reparentWake i status)
    else (t, .reparent (i + 1) status)
  else
    match t.parent p with
    | some q => (t, .exitWake status q)
    | none => (t, .exitZombie status none)

def scanStep (p : Fin n) (x : Input n) (t : ProcTable n) : Option (ProcTable n × Point n) :=
  match t.findZombie p with
  | some pp =>
    match x with
    | .copyout true => some (t.reap p pp, .unlock (t.pid pp))
    | .copyout false => some (t, .unlock (-1))
    | _ => none
  | none => some (t, if t.HasKids p then .waitKilled else .unlock (-1))

def prog (initproc p : Fin n) : Point n → Act (ProcTable n) (Fin n) (Input n) (Point n)
  | .absent => .step fun _ t => if t.life p = .live then some (t, .user) else none
  | .user => .step (call p)
  | .forkLock np => .acquire (.forkParent np)
  | .forkParent np => .step fun _ t => some (t.setParent np p, .forkUnlock np)
  | .forkUnlock np => .release (.forkStart np)
  | .forkStart np => .step fun _ t => some (t.start np, .user)
  | .kexit status => if p = initproc then .panic "init exiting" else .acquire (.reparent 0 status)
  | .reparent i status => .step fun _ t => some (reparentStep initproc p i status t)
  | .reparentWake i status => .wakeup initproc (.reparent (i + 1) status)
  | .exitWake status q => .wakeup q (.exitZombie status (some q))
  | .exitZombie status _ => .step fun _ t => some (t.exit p status, .exitUnlock)
  | .exitUnlock => .release .absent
  | .kwait => .acquire .scan
  | .scan => .step (scanStep p)
  | .waitKilled => .killed fun k => if k then .unlock (-1) else .waitSleep
  | .waitSleep => .sleep p .scan
  | .unlock _ => .release .user

/-- The table after `userinit`: only the first process lives. -/
def ProcTable.boot (initproc : Fin n) : ProcTable n where
  life i := if i = initproc then .live else .unused
  pid i := if i = initproc then 1 else 0
  parent _ := none
  xstate _ := 0
  nextpid := 2
  lifetime _ := 0
  maker _ := none
  nextLifetime := 1
  record := ⟨[(0, 1)], [], []⟩

def Initial (initproc : Fin n) (s : Machine n (ProcTable n) (Fin n) (Point n)) : Prop :=
  s = .start (.boot initproc) fun i => if i = initproc then .user else .absent

end Xv6.Proc
