import Xv6.Sched.Kill
import Xv6.Ipc.Pipe
import Xv6.Ipc.Console
import Xv6.Ipc.Ticks
import Xv6.Proc.Lifecycle

/-! # The loops that poll before they sleep

`piperead`, `pipewrite`, `consoleread`, `sys_pause` and `kwait` call `killed()`
before each `sleep()`, but the two calls take and drop `p->lock` separately.
-/
namespace Xv6.Proc
open Library Sched

/-- After the polls of `piperead` and `pipewrite`. -/
def PipeWindow : Ipc.Point → Prop
  | .wStore _ _ _ | .wWakeFull _ _ | .wSleep _ _ | .rSleep _ => True
  | _ => False

def ConsoleWindow : Ipc.Console.Point → Prop
  | .rSleep _ _ => True
  | _ => False

def PauseWindow : Ipc.Ticks.Point → Prop
  | .sleep _ _ => True
  | _ => False

def WaitWindow {n : ℕ} : Point n → Prop
  | .waitSleep => True
  | _ => False

variable {n : ℕ}

theorem pipe_polls : Polls PipeWindow (Ipc.prog (p := n)) := by
  intro q k
  cases k with
  | idle =>
    intro x pi pi' k' hf hw
    obtain ⟨k, hcall, hk⟩ := Option.map_eq_some_iff.1 hf
    cases hk
    cases x <;> cases hcall <;> exact hw.elim
  | wLoop m i stored =>
    intro x pi pi' k' hf hw
    cases hf
    split at hw
    · split at hw <;> exact hw.elim
    · exact hw.elim
  | wStore m i stored => exact fun _ _ _ _ _ _ => trivial
  | rLoop m =>
    intro x pi pi' k' hf hw
    cases hf
    split at hw <;> exact hw.elim
  | rCopy m i =>
    intro x pi pi' k' hf hw
    simp only [Ipc.readStep] at hf
    repeat' split at hf
    all_goals
      cases hf
      try exact hw.elim
  | cShut writable =>
    intro x pi pi' k' hf hw
    cases hf
    exact hw.elim
  | _ => simp [Ipc.prog, PollAct, PipeWindow]

theorem console_polls : Polls ConsoleWindow (Ipc.Console.prog (p := n)) := by
  intro q k
  cases k with
  | idle =>
    intro x c c' k' hf hw
    obtain ⟨k, hcall, hk⟩ := Option.map_eq_some_iff.1 hf
    cases hk
    cases x <;> cases hcall <;> exact hw.elim
  | rLoop target m =>
    intro x c c' k' hf hw
    simp only [Ipc.Console.readStep] at hf
    repeat' split at hf
    all_goals
      cases hf
      try exact hw.elim
  | edit ch =>
    intro x c c' k' hf hw
    have hk : (if (c.input ch).2 then Ipc.Console.Point.wake else .unlock 0) = k' :=
      congrArg Prod.snd (Option.some.inj hf)
    rw [← hk] at hw
    split at hw <;> exact hw.elim
  | _ => simp [Ipc.Console.prog, PollAct, ConsoleWindow]

theorem pause_polls : Polls PauseWindow (Ipc.Ticks.prog (p := n)) := by
  intro q k
  cases k with
  | idle =>
    intro x d d' k' hf hw
    cases hf
    cases x <;> exact hw.elim
  | start m =>
    intro x d d' k' hf hw
    cases hf
    exact hw.elim
  | loop m ticks0 =>
    intro x d d' k' hf hw
    cases hf
    split at hw <;> exact hw.elim
  | tick =>
    intro x d d' k' hf hw
    cases hf
    exact hw.elim
  | _ => simp [Ipc.Ticks.prog, PollAct, PauseWindow]

theorem wait_polls (initproc : Fin n) : Polls WaitWindow (prog initproc) := by
  intro p k
  cases k with
  | absent =>
    intro x t t' k' hf hw
    dsimp only at hf
    split at hf <;> cases hf
    exact hw.elim
  | user =>
    intro x t t' k' hf hw
    simp only [call] at hf
    repeat' split at hf
    all_goals
      cases hf
      try exact hw.elim
  | forkParent np =>
    intro x t t' k' hf hw
    cases hf
    exact hw.elim
  | forkStart np =>
    intro x t t' k' hf hw
    cases hf
    exact hw.elim
  | kexit status =>
    by_cases hp : p = initproc
    · simp [prog, hp, PollAct]
    · simp [prog, hp, PollAct, WaitWindow]
  | reparent i status =>
    intro x t t' k' hf hw
    simp only [reparentStep] at hf
    repeat' split at hf
    all_goals
      cases hf
      exact hw.elim
  | exitZombie status q =>
    intro x t t' k' hf hw
    cases hf
    exact hw.elim
  | scan =>
    intro x t t' k' hf hw
    simp only [scanStep] at hf
    repeat' split at hf
    all_goals
      cases hf
      try exact hw.elim
  | _ => simp [prog, PollAct, WaitWindow]

def oneReader : Machine 1 Ipc.Pipe Ipc.Chan Ipc.Point := .start (.alloc fun _ => 0) fun _ => .idle

/-- A reader sleeps on the empty pipe. -/
def sleepingReader : Machine 1 Ipc.Pipe Ipc.Chan Ipc.Point :=
  drive (step Ipc.prog) (List.flatten [resume 0, run 0 9 (.read 4), [.schedRelease 0]]) oneReader

/-- Process 0 polls, is killed, and goes to sleep. -/
def killAfterPoll {X : Type} (x : X) (poll : ℕ) : List (Event 1 X) :=
  List.flatten [resume 0, run 0 poll x, [.kkill 0], run 0 4 x, [.schedRelease 0]]

def oneTyped : Machine 1 Ipc.Console.Cons Unit Ipc.Console.Point :=
  .start ⟨fun _ => 0, 0, 0, 0⟩ fun _ => .idle

def onePaused : Machine 1 (BitVec 32) Unit Ipc.Ticks.Point := .start 0 fun _ => .idle

def oneParent : Machine 2 (ProcTable 2) (Fin 2) (Point 2) :=
  .start (.boot 0) fun i => if i = 0 then .user else .absent

/-- The first process forks, waits, and is killed right after its poll. -/
def waitAfterFork : List (Event 2 (Input 2)) :=
  List.flatten [resume 0, run 0 6 (.fork 1 true), run 0 4 .wait, [.kkill 0], run 0 4 .wait,
    [.schedRelease 0]]

end Xv6.Proc
