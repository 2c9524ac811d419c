import Xv6.Sched.Rule

/-! # The console

`consoleread` and the input interrupt `consoleintr` of console.c as programs
over the input buffer, with `cons.lock` as the condition lock.  The echo of the
characters to the uart has no effect on the buffer and is left out, as is the
process list that control-P prints.
-/
namespace Xv6.Ipc.Console
open Sched

def INPUT_BUF_SIZE : ℕ := 128

instance : NeZero INPUT_BUF_SIZE := ⟨by decide⟩

/-- `C(x)`, control-x. -/
def control (x : Char) : UInt8 := (x.toNat - '@'.toNat).toUInt8

def newline : UInt8 := 10
def carriageReturn : UInt8 := 13
def delete : UInt8 := 127

/-- The input part of `cons`. -/
structure Cons where
  buf : Fin INPUT_BUF_SIZE → UInt8
  r : BitVec 32
  w : BitVec 32
  e : BitVec 32

def Cons.slot (i : BitVec 32) : Fin INPUT_BUF_SIZE := Fin.ofNat INPUT_BUF_SIZE i.toNat

/-- The loop of control-U; at most `fuel` characters are before the edit index. -/
def Cons.killLine (c : Cons) : ℕ → Cons
  | 0 => c
  | fuel + 1 =>
    if c.e ≠ c.w ∧ c.buf (Cons.slot (c.e - 1)) ≠ newline then
      { c with e := c.e - 1 }.killLine fuel
    else c

/-- The default case of `consoleintr`, and whether it calls `wakeup(&cons.r)`. -/
def Cons.store (c : Cons) (ch : UInt8) : Cons × Bool :=
  if ch ≠ 0 ∧ c.e - c.r < BitVec.ofNat 32 INPUT_BUF_SIZE then
    let ch := if ch = carriageReturn then newline else ch
    let c := { c with buf := Function.update c.buf (Cons.slot c.e) ch, e := c.e + 1 }
    if ch = newline ∨ ch = control 'D' ∨ c.e - c.r = BitVec.ofNat 32 INPUT_BUF_SIZE then
      ({ c with w := c.e }, true)
    else (c, false)
  else (c, false)

/-- The switch of `consoleintr`. -/
def Cons.input (c : Cons) (ch : UInt8) : Cons × Bool :=
  if ch = control 'P' then (c, false)
  else if ch = control 'U' then (c.killLine (c.e - c.w).toNat, false)
  else if ch = control 'H' ∨ ch = delete then
    (if c.e ≠ c.w then { c with e := c.e - 1 } else c, false)
  else c.store ch

inductive Point
  | idle
  | consoleread (n : ℤ)
  /-- Both loops of `consoleread` with the body of the outer one. -/
  | rLoop (target n : ℤ)
  | rKilled (target n : ℤ)
  | rSleep (target n : ℤ)
  | consoleintr (ch : UInt8)
  | edit (ch : UInt8)
  | wake
  | unlock (r : ℤ)
  deriving DecidableEq

/-- A call, a character from the uart, whether `either_copyout` succeeds. -/
inductive Input
  | read (n : ℤ)
  | intr (ch : UInt8)
  | copyout (ok : Bool)

def call : Input → Option Point
  | .read n => some (.consoleread n)
  | .intr ch => some (.consoleintr ch)
  | _ => none

def readStep (target n : ℤ) (x : Input) (c : Cons) : Option (Cons × Point) :=
  if 0 < n then
    if c.r = c.w then some (c, .rKilled target n)
    else
      let ch := c.buf (Cons.slot c.r)
      if ch = control 'D' then
        -- a control-D after other characters is kept for the next read
        some (if n < target then c else { c with r := c.r + 1 }, .unlock (target - n))
      else
        let c := { c with r := c.r + 1 }
        match x with
        | .copyout true =>
          some (c, if ch = newline then .unlock (target - (n - 1)) else .rLoop target (n - 1))
        | .copyout false => some (c, .unlock (target - n))
        | _ => none
  else some (c, .unlock (target - n))

def editStep (ch : UInt8) (c : Cons) : Cons × Point :=
  ((c.input ch).1, if (c.input ch).2 then .wake else .unlock 0)

variable {p : ℕ}

def prog (_ : Fin p) : Point → Act Cons Unit Input Point
  | .idle => .step fun x c => (call x).map fun k => (c, k)
  | .consoleread n => .acquire (.rLoop n n)
  | .rLoop target n => .step (readStep target n)
  | .rKilled target n => .killed fun k => if k then .unlock (-1) else .rSleep target n
  | .rSleep target n => .sleep () (.rLoop target n)
  | .consoleintr ch => .acquire (.edit ch)
  | .edit ch => .step fun _ c => some (editStep ch c)
  | .wake => .wakeup () (.unlock 0)
  | .unlock _ => .release .idle

def Initial (s : Machine p Cons Unit Point) : Prop :=
  s = .start ⟨fun _ => 0, 0, 0, 0⟩ fun _ => .idle

end Xv6.Ipc.Console
