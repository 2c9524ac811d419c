import Xv6.Sched.Rule

/-! # Waiting for clock ticks

`sys_pause` of sysproc.c and `clockintr` of trap.c as programs over the tick
counter, with `tickslock` as the condition lock.
-/
namespace Xv6.Ipc.Ticks
open Sched

inductive Point
  | idle
  | sysPause (n : BitVec 32)
  | start (n : BitVec 32)
  /-- `while(ticks - ticks0 < n)`. -/
  | loop (n ticks0 : BitVec 32)
  | killed (n ticks0 : BitVec 32)
  | sleep (n ticks0 : BitVec 32)
  | clockintr
  | tick
  | wake
  | unlock (r : ℤ)
  deriving DecidableEq

/-- A call of `sys_pause` with its argument, or a timer interrupt. -/
inductive Input
  | pause (n : BitVec 32)
  | intr

/-- A negative argument counts as 0. -/
def call : Input → Point
  | .pause n => .sysPause (if n.slt 0 then 0 else n)
  | .intr => .clockintr

variable {p : ℕ}

def prog (_ : Fin p) : Point → Act (BitVec 32) Unit Input Point
  | .idle => .step fun x ticks => some (ticks, call x)
  | .sysPause n => .acquire (.start n)
  | .start n => .step fun _ ticks => some (ticks, .loop n ticks)
  | .loop n ticks0 => .step fun _ ticks => some (ticks,
      if ticks - ticks0 < n then .killed n ticks0 else .unlock 0)
  | .killed n ticks0 => .killed fun k => if k then .unlock (-1) else .sleep n ticks0
  | .sleep n ticks0 => .sleep () (.loop n ticks0)
  | .clockintr => .acquire .tick
  | .tick => .step fun _ ticks => some (ticks + 1, .wake)
  | .wake => .wakeup () (.unlock 0)
  | .unlock _ => .release .idle

def Initial (s : Machine p (BitVec 32) Unit Point) : Prop :=
  s = .start 0 fun _ => .idle

end Xv6.Ipc.Ticks
