import Xv6.Kernel.State

/-! # Processes, their locks and the scheduler

The process table as proc.c schedules it.  `sleep`, `wakeup`, `scheduler`,
`yield`, `killed` and `kkill` are cut where they take or drop a lock, so that
the steps of different processes interleave there.  What a process does between
calls of these functions is a program over the data that one spinlock `lk`
protects.
-/
namespace Xv6.Sched
open Kernel

/-- What a process does next at a point of its program. -/
inductive Act (D C X Λ : Type)
  /-- `acquire(lk)`. -/
  | acquire (k : Λ)
  /-- `release(lk)`. -/
  | release (k : Λ)
  /-- Straight-line code on the shared data, given what comes from outside. -/
  | step (f : X → D → Option (D × Λ))
  /-- `sleep(c, lk)`. -/
  | sleep (c : C) (k : Λ)
  /-- `wakeup(c)`. -/
  | wakeup (c : C) (k : Λ)
  /-- `killed(myproc())`. -/
  | killed (k : Bool → Λ)
  /-- `panic(msg)`. -/
  | panic (msg : String)

/-- What is left to do when the scheduler switches back to a process. -/
inductive Resume (Λ : Type)
  /-- The rest of `sleep`, then the program. -/
  | slept (k : Λ)
  /-- The rest of a `yield` inside the program. -/
  | yielded (k : Λ)
  /-- The rest of a `yield` before the last `acquire` of `sleep`. -/
  | relocking (k : Λ)
  deriving DecidableEq

/-- Where a process is; the lock operation that comes next separates the points. -/
inductive Thread (n : ℕ) (C Λ : Type)
  | run (k : Λ)
  /-- In `sleep`, before `acquire(&p->lock)`. -/
  | sleep1 (c : C) (k : Λ)
  /-- In `sleep`, before `release(lk)`. -/
  | sleep2 (c : C) (k : Λ)
  /-- In `sleep`, before `p->chan = chan; p->state = SLEEPING; sched()`. -/
  | sleep3 (c : C) (k : Λ)
  /-- In `sleep`, before its last `acquire(lk)`. -/
  | relock (k : Λ)
  /-- In `wakeup`, before it looks at `proc[i]`. -/
  | wake1 (c : C) (i : ℕ) (k : Λ)
  /-- In `wakeup`, holding `proc[i].lock`. -/
  | wake2 (c : C) (i : Fin n) (k : Λ)
  /-- In `yield`, holding `p->lock`. -/
  | yield1 (r : Resume Λ)
  /-- In `sched`, before the scheduler's `release(&p->lock)`. -/
  | switched (r : Resume Λ)
  | parked (r : Resume Λ)
  /-- Back from `sched`, holding `p->lock`. -/
  | resumed (r : Resume Λ)
  deriving DecidableEq

/-- Who holds a process's lock: a process, or the scheduler of some cpu. -/
inductive Owner (n : ℕ)
  | proc (q : Fin n)
  | cpu
  deriving DecidableEq

structure Machine (n : ℕ) (D C Λ : Type) where
  state : Fin n → ProcState
  chan : Fin n → Option C
  killed : Fin n → Bool
  plock : Fin n → Option (Owner n)
  lk : Option (Fin n)
  data : D
  thread : Fin n → Thread n C Λ

/-- Why a step does not happen. -/
inductive Stop
  /-- The state does not allow it: a lock is held, or the process is elsewhere. -/
  | blocked
  | panic (msg : String)
  deriving DecidableEq

inductive Event (n : ℕ) (X : Type)
  /-- The next step of a process, with what it reads from outside. -/
  | proc (p : Fin n) (x : X)
  /-- A timer interrupt makes a process call `yield`. -/
  | yield (p : Fin n)
  /-- The scheduler's `acquire(&p->lock)`. -/
  | schedAcquire (p : Fin n)
  /-- The scheduler's test of `p->state` with what follows it. -/
  | schedTest (p : Fin n)
  /-- The scheduler's `release(&p->lock)` after a process switched back to it. -/
  | schedRelease (p : Fin n)
  /-- The section of `kkill(pid)` at the slot with that pid. -/
  | kkill (p : Fin n)
  deriving DecidableEq

section Steps

variable {n : ℕ} {D C X Λ : Type}

@[simps]
def Machine.goto (s : Machine n D C Λ) (p : Fin n) (t : Thread n C Λ) : Machine n D C Λ :=
  { s with thread := Function.update s.thread p t }

@[simps]
def Machine.lockProc (s : Machine n D C Λ) (p : Fin n) (o : Owner n) : Machine n D C Λ :=
  { s with plock := Function.update s.plock p (some o) }

@[simps]
def Machine.unlockProc (s : Machine n D C Λ) (p : Fin n) : Machine n D C Λ :=
  { s with plock := Function.update s.plock p none }

@[simps]
def Machine.setState (s : Machine n D C Λ) (p : Fin n) (st : ProcState) : Machine n D C Λ :=
  { s with state := Function.update s.state p st }

@[simps]
def Machine.setChan (s : Machine n D C Λ) (p : Fin n) (c : Option C) : Machine n D C Λ :=
  { s with chan := Function.update s.chan p c }

/-- The body of the loop in `wakeup` for a process that is not the caller. -/
@[simps]
def Machine.rouse [DecidableEq C] (s : Machine n D C Λ) (i : Fin n) (c : C) : Machine n D C Λ :=
  { s with
    state := Function.update s.state i
      (if s.state i = .sleeping ∧ s.chan i = some c then .runnable else s.state i) }

@[simps]
def Machine.kill (s : Machine n D C Λ) (p : Fin n) : Machine n D C Λ :=
  { s with
    killed := Function.update s.killed p true
    state := Function.update s.state p
      (if s.state p = .sleeping then .runnable else s.state p) }

/-- One step of the program of a process. -/
def actStep (s : Machine n D C Λ) (p : Fin n) (x : X) :
    Act D C X Λ → Except Stop (Machine n D C Λ)
  | .acquire k =>
    if s.lk = none then .ok ({ s with lk := some p }.goto p (.run k)) else .error .blocked
  | .release k =>
    if s.lk = some p then .ok ({ s with lk := none }.goto p (.run k))
    else .error (.panic "release")
  | .step f =>
    match f x s.data with
    | some (d, k) => .ok ({ s with data := d }.goto p (.run k))
    | none => .error .blocked
  | .sleep c k => .ok (s.goto p (.sleep1 c k))
  | .wakeup c k => .ok (s.goto p (.wake1 c 0 k))
  | .killed k =>
    if s.plock p = none then .ok (s.goto p (.run (k (s.killed p)))) else .error .blocked
  | .panic msg => .error (.panic msg)

/-- One step of a process, in its program or in a function of proc.c. -/
def procStep [DecidableEq C] (prog : Fin n → Λ → Act D C X Λ) (s : Machine n D C Λ) (p : Fin n)
    (x : X) : Except Stop (Machine n D C Λ) :=
  match s.thread p with
  | .run k => actStep s p x (prog p k)
  | .sleep1 c k =>
    if s.plock p = none then .ok ((s.lockProc p (.proc p)).goto p (.sleep2 c k))
    else .error .blocked
  | .sleep2 c k =>
    if s.lk = some p then .ok ({ s with lk := none }.goto p (.sleep3 c k))
    else .error (.panic "release")
  | .sleep3 c k =>
    .ok ((((s.setChan p (some c)).setState p .sleeping).lockProc p .cpu).goto p
      (.switched (.slept k)))
  | .relock k =>
    if s.lk = none then .ok ({ s with lk := some p }.goto p (.run k)) else .error .blocked
  | .wake1 c i k =>
    if h : i < n then
      if (⟨i, h⟩ : Fin n) = p then .ok (s.goto p (.wake1 c (i + 1) k))
      else if s.plock ⟨i, h⟩ = none then
        .ok ((s.lockProc ⟨i, h⟩ (.proc p)).goto p (.wake2 c ⟨i, h⟩ k))
      else .error .blocked
    else .ok (s.goto p (.run k))
  | .wake2 c i k => .ok (((s.rouse i c).unlockProc i).goto p (.wake1 c (i + 1) k))
  | .yield1 r => .ok (((s.setState p .runnable).lockProc p .cpu).goto p (.switched r))
  | .switched _ => .error .blocked
  | .parked _ => .error .blocked
  | .resumed (.slept k) => .ok (((s.setChan p none).unlockProc p).goto p (.relock k))
  | .resumed (.yielded k) => .ok ((s.unlockProc p).goto p (.run k))
  | .resumed (.relocking k) => .ok ((s.unlockProc p).goto p (.relock k))

/-- `yield` up to its `acquire(&p->lock)`.  Interrupts are off while a process
holds a spinlock, so no yield comes between `acquire(lk)` and `release(lk)`. -/
def yieldStep (s : Machine n D C Λ) (p : Fin n) : Except Stop (Machine n D C Λ) :=
  if s.plock p = none ∧ s.lk ≠ some p then
    match s.thread p with
    | .run k => .ok ((s.lockProc p (.proc p)).goto p (.yield1 (.yielded k)))
    | .relock k => .ok ((s.lockProc p (.proc p)).goto p (.yield1 (.relocking k)))
    | _ => .error .blocked
  else .error .blocked

/-- The test of `scheduler`: it switches to a process that is `RUNNABLE` and
drops the lock of any other. -/
def schedTestStep (s : Machine n D C Λ) (p : Fin n) : Except Stop (Machine n D C Λ) :=
  if s.plock p = some .cpu then
    if s.state p = .runnable then
      match s.thread p with
      | .parked r => .ok (((s.setState p .running).lockProc p (.proc p)).goto p (.resumed r))
      | _ => .error .blocked
    else
      match s.thread p with
      -- the scheduler is here after `swtch`, not after its own `acquire`
      | .switched _ => .error .blocked
      | _ => .ok (s.unlockProc p)
  else .error .blocked

def schedReleaseStep (s : Machine n D C Λ) (p : Fin n) : Except Stop (Machine n D C Λ) :=
  match s.thread p with
  | .switched r => .ok ((s.unlockProc p).goto p (.parked r))
  | _ => .error .blocked

def nextState [DecidableEq C] (prog : Fin n → Λ → Act D C X Λ) (e : Event n X)
    (s : Machine n D C Λ) : Except Stop (Machine n D C Λ) :=
  match e with
  | .proc p x => procStep prog s p x
  | .yield p => yieldStep s p
  | .schedAcquire p =>
    if s.plock p = none then .ok (s.lockProc p .cpu) else .error .blocked
  | .schedTest p => schedTestStep s p
  | .schedRelease p => schedReleaseStep s p
  | .kkill p => if s.plock p = none then .ok (s.kill p) else .error .blocked

/-- The steps of the machine, as a run takes them. -/
def step [DecidableEq C] (prog : Fin n → Λ → Act D C X Λ) (e : Event n X)
    (s : Machine n D C Λ) : Except Stop (Unit × Machine n D C Λ) :=
  (nextState prog e s).map fun s' => ((), s')

/-- All processes wait for the scheduler, at the start of their programs. -/
def Machine.start (d : D) (k : Fin n → Λ) : Machine n D C Λ where
  state _ := .runnable
  chan _ := none
  killed _ := false
  plock _ := none
  lk := none
  data := d
  thread p := .parked (.yielded (k p))

/-- The scheduler picks a process. -/
def resume (p : Fin n) : List (Event n X) := [.schedAcquire p, .schedTest p]

/-- A process takes some steps. -/
def run (p : Fin n) (k : ℕ) (x : X) : List (Event n X) := List.replicate k (.proc p x)

/-- What one step does, with the lock it needs. -/
inductive Move [DecidableEq C] (prog : Fin n → Λ → Act D C X Λ) (s : Machine n D C Λ) :
    Event n X → Machine n D C Λ → Prop
  | acquire {p x k k'} (ht : s.thread p = .run k) (ha : prog p k = .acquire k')
      (hlk : s.lk = none) : Move prog s (.proc p x) ({ s with lk := some p }.goto p (.run k'))
  | release {p x k k'} (ht : s.thread p = .run k) (ha : prog p k = .release k')
      (hlk : s.lk = some p) : Move prog s (.proc p x) ({ s with lk := none }.goto p (.run k'))
  | step {p x k f d k'} (ht : s.thread p = .run k) (ha : prog p k = .step f)
      (hf : f x s.data = some (d, k')) :
      Move prog s (.proc p x) ({ s with data := d }.goto p (.run k'))
  | sleep {p x k c k'} (ht : s.thread p = .run k) (ha : prog p k = .sleep c k') :
      Move prog s (.proc p x) (s.goto p (.sleep1 c k'))
  | wakeup {p x k c k'} (ht : s.thread p = .run k) (ha : prog p k = .wakeup c k') :
      Move prog s (.proc p x) (s.goto p (.wake1 c 0 k'))
  | killed {p x k k'} (ht : s.thread p = .run k) (ha : prog p k = .killed k')
      (hp : s.plock p = none) : Move prog s (.proc p x) (s.goto p (.run (k' (s.killed p))))
  | sleepLock {p x c k} (ht : s.thread p = .sleep1 c k) (hp : s.plock p = none) :
      Move prog s (.proc p x) ((s.lockProc p (.proc p)).goto p (.sleep2 c k))
  | sleepRelease {p x c k} (ht : s.thread p = .sleep2 c k) (hlk : s.lk = some p) :
      Move prog s (.proc p x) ({ s with lk := none }.goto p (.sleep3 c k))
  | sleepSwitch {p x c k} (ht : s.thread p = .sleep3 c k) :
      Move prog s (.proc p x)
        ((((s.setChan p (some c)).setState p .sleeping).lockProc p .cpu).goto p
          (.switched (.slept k)))
  | relock {p x k} (ht : s.thread p = .relock k) (hlk : s.lk = none) :
      Move prog s (.proc p x) ({ s with lk := some p }.goto p (.run k))
  | wakeSelf {p x c k} (ht : s.thread p = .wake1 c p k) :
      Move prog s (.proc p x) (s.goto p (.wake1 c (p + 1) k))
  | wakeLock {p x c k} {i : Fin n} (ht : s.thread p = .wake1 c i k) (hi : i ≠ p)
      (hp : s.plock i = none) :
      Move prog s (.proc p x) ((s.lockProc i (.proc p)).goto p (.wake2 c i k))
  | wakeEnd {p x c i k} (ht : s.thread p = .wake1 c i k) (hi : n ≤ i) :
      Move prog s (.proc p x) (s.goto p (.run k))
  | wakeTest {p x c i k} (ht : s.thread p = .wake2 c i k) :
      Move prog s (.proc p x) (((s.rouse i c).unlockProc i).goto p (.wake1 c (i + 1) k))
  | yieldSwitch {p x r} (ht : s.thread p = .yield1 r) :
      Move prog s (.proc p x) (((s.setState p .runnable).lockProc p .cpu).goto p (.switched r))
  | tidySleep {p x k} (ht : s.thread p = .resumed (.slept k)) :
      Move prog s (.proc p x) (((s.setChan p none).unlockProc p).goto p (.relock k))
  | tidyYield {p x k} (ht : s.thread p = .resumed (.yielded k)) :
      Move prog s (.proc p x) ((s.unlockProc p).goto p (.run k))
  | tidyRelock {p x k} (ht : s.thread p = .resumed (.relocking k)) :
      Move prog s (.proc p x) ((s.unlockProc p).goto p (.relock k))
  | yieldRun {p k} (ht : s.thread p = .run k) (hp : s.plock p = none) (hlk : s.lk ≠ some p) :
      Move prog s (.yield p) ((s.lockProc p (.proc p)).goto p (.yield1 (.yielded k)))
  | yieldRelock {p k} (ht : s.thread p = .relock k) (hp : s.plock p = none)
      (hlk : s.lk ≠ some p) :
      Move prog s (.yield p) ((s.lockProc p (.proc p)).goto p (.yield1 (.relocking k)))
  | schedAcquire {p} (hp : s.plock p = none) :
      Move prog s (.schedAcquire p) (s.lockProc p .cpu)
  | schedSwitch {p r} (ht : s.thread p = .parked r) (hp : s.plock p = some .cpu)
      (hst : s.state p = .runnable) :
      Move prog s (.schedTest p)
        (((s.setState p .running).lockProc p (.proc p)).goto p (.resumed r))
  | schedSkip {p} (ht : ∀ r, s.thread p ≠ .switched r) (hp : s.plock p = some .cpu)
      (hst : s.state p ≠ .runnable) : Move prog s (.schedTest p) (s.unlockProc p)
  | schedRelease {p r} (ht : s.thread p = .switched r) :
      Move prog s (.schedRelease p) ((s.unlockProc p).goto p (.parked r))
  | kkill {p} (hp : s.plock p = none) : Move prog s (.kkill p) (s.kill p)

variable [DecidableEq C] {prog : Fin n → Λ → Act D C X Λ} {s s' : Machine n D C Λ}

private theorem actStep_cases {p : Fin n} {x : X} {k : Λ} (ht : s.thread p = .run k)
    (h : actStep s p x (prog p k) = .ok s') : Move prog s (.proc p x) s' := by
  cases ha : prog p k with
  | acquire k' =>
    simp only [ha, actStep] at h
    split at h <;> cases h
    exact .acquire ht ha ‹_›
  | release k' =>
    simp only [ha, actStep] at h
    split at h <;> cases h
    exact .release ht ha ‹_›
  | step f =>
    simp only [ha, actStep] at h
    split at h <;> cases h
    exact .step ht ha ‹_›
  | sleep c k' =>
    simp only [ha, actStep] at h
    cases h
    exact .sleep ht ha
  | wakeup c k' =>
    simp only [ha, actStep] at h
    cases h
    exact .wakeup ht ha
  | killed k' =>
    simp only [ha, actStep] at h
    split at h <;> cases h
    exact .killed ht ha ‹_›
  | panic msg => simp [ha, actStep] at h

private theorem wake1_cases {p : Fin n} {x : X} {c : C} {i : ℕ} {k : Λ}
    (ht : s.thread p = .wake1 c i k) (h : procStep prog s p x = .ok s') :
    Move prog s (.proc p x) s' := by
  by_cases hi : i < n
  · by_cases hp : (⟨i, hi⟩ : Fin n) = p
    · subst hp
      simp only [procStep, ht, hi, dite_true, ite_true] at h
      cases h
      exact .wakeSelf ht
    · by_cases hl : s.plock ⟨i, hi⟩ = none
      · simp only [procStep, ht, hi, hp, hl, dite_true, ite_true, ite_false] at h
        cases h
        exact .wakeLock ht hp hl
      · simp [procStep, ht, hi, hp, hl] at h
  · simp only [procStep, ht, hi, dite_false] at h
    cases h
    exact .wakeEnd ht (not_lt.mp hi)

private theorem procStep_cases {p : Fin n} {x : X} (h : procStep prog s p x = .ok s') :
    Move prog s (.proc p x) s' := by
  cases ht : s.thread p with
  | run k =>
    simp only [procStep, ht] at h
    exact actStep_cases ht h
  | sleep1 c k =>
    simp only [procStep, ht] at h
    split at h <;> cases h
    exact .sleepLock ht ‹_›
  | sleep2 c k =>
    simp only [procStep, ht] at h
    split at h <;> cases h
    exact .sleepRelease ht ‹_›
  | sleep3 c k =>
    simp only [procStep, ht] at h
    cases h
    exact .sleepSwitch ht
  | relock k =>
    simp only [procStep, ht] at h
    split at h <;> cases h
    exact .relock ht ‹_›
  | wake1 c i k => exact wake1_cases ht h
  | wake2 c i k =>
    simp only [procStep, ht] at h
    cases h
    exact .wakeTest ht
  | yield1 r =>
    simp only [procStep, ht] at h
    cases h
    exact .yieldSwitch ht
  | switched r => simp [procStep, ht] at h
  | parked r => simp [procStep, ht] at h
  | resumed r =>
    cases r with
    | slept k =>
      simp only [procStep, ht] at h
      cases h
      exact .tidySleep ht
    | yielded k =>
      simp only [procStep, ht] at h
      cases h
      exact .tidyYield ht
    | relocking k =>
      simp only [procStep, ht] at h
      cases h
      exact .tidyRelock ht

private theorem yieldStep_cases {p : Fin n} (h : yieldStep s p = .ok s') :
    Move prog s (.yield p) s' := by
  unfold yieldStep at h
  split at h
  · rename_i hp
    cases ht : s.thread p with
    | run k =>
      simp only [ht] at h
      cases h
      exact .yieldRun ht hp.1 hp.2
    | relock k =>
      simp only [ht] at h
      cases h
      exact .yieldRelock ht hp.1 hp.2
    | _ => simp [ht] at h
  · cases h

private theorem schedTestStep_cases {p : Fin n} (h : schedTestStep s p = .ok s') :
    Move prog s (.schedTest p) s' := by
  unfold schedTestStep at h
  split at h
  · split at h
    · cases ht : s.thread p with
      | parked r =>
        simp only [ht] at h
        cases h
        exact .schedSwitch ht ‹_› ‹_›
      | _ => simp [ht] at h
    · cases ht : s.thread p with
      | switched r => simp [ht] at h
      | _ =>
        simp only [ht] at h
        cases h
        exact .schedSkip (by simp [ht]) ‹_› ‹_›
  · cases h

theorem nextState_cases {e : Event n X} (h : nextState prog e s = .ok s') : Move prog s e s' := by
  cases e with
  | proc p x => exact procStep_cases h
  | yield p => exact yieldStep_cases h
  | schedAcquire p =>
    simp only [nextState] at h
    split at h <;> cases h
    exact .schedAcquire ‹_›
  | schedTest p => exact schedTestStep_cases h
  | schedRelease p =>
    simp only [nextState, schedReleaseStep] at h
    split at h <;> cases h
    exact .schedRelease ‹_›
  | kkill p =>
    simp only [nextState] at h
    split at h <;> cases h
    exact .kkill ‹_›

theorem step_cases {e : Event n X} {u : Unit} (h : step prog e s = .ok (u, s')) :
    Move prog s e s' := by
  cases hn : nextState prog e s with
  | error err => simp [step, hn, Except.map] at h
  | ok s₁ =>
    simp only [step, hn, Except.map] at h
    cases h
    exact nextState_cases hn

end Steps

end Xv6.Sched
