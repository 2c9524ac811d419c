import Xv6.Kernel.State
import Xv6.Library.Run

/-! # The killed flag of a slot

The flag lives in a slot of the process table that is used again and again.
`allocproc` does not touch it and `freeproc` clears it; `kkill` compares pids in
every slot, also in one that is not in use.  A step here is one section under a
`p->lock`; a call of `kkill` is a scan of the table that takes the locks one
after the other.
-/
namespace Xv6.Proc.Killed
open Kernel Library

variable {n : ℕ}

structure Slot where
  state : ProcState
  pid : BitVec 32
  killed : Bool

structure Slots (n : ℕ) where
  slot : Fin n → Slot
  nextpid : BitVec 32
  /-- The calls of `kkill` under way, by caller: the pid and the next slot to look at. -/
  scan : Fin n → Option (BitVec 32 × ℕ)
  /-- The arguments of the calls of `kkill` made since a slot was allocated, or
  still under way then. -/
  kills : Fin n → List (BitVec 32)
  /-- `setkilled` was called since the slot was allocated. -/
  fault : Fin n → Bool

inductive Event (n : ℕ)
  /-- `allocproc` finds a slot; without memory it gives it back, as does a `kfork`
  whose `uvmcopy` fails. -/
  | alloc (np : Fin n) (memory : Bool)
  /-- `np->state = RUNNABLE` in `kfork` and `userinit`. -/
  | start (np : Fin n)
  /-- `sleep`, `wakeup`, `yield` or the scheduler. -/
  | schedule (p : Fin n) (state : ProcState)
  | exit (p : Fin n)
  /-- `kwait` finds an exited child. -/
  | wait (pp : Fin n)
  /-- `setkilled(p)` in `usertrap`. -/
  | setkilled (p : Fin n)
  /-- A process calls `kkill(pid)`. -/
  | kkill (p : Fin n) (pid : BitVec 32)
  /-- The next section of the call of `kkill` by process `p`. -/
  | scan (p : Fin n)

def Active (state : ProcState) : Prop :=
  state = .sleeping ∨ state = .runnable ∨ state = .running

instance (state : ProcState) : Decidable (Active state) := by
  unfold Active
  infer_instance

namespace Slots

def setSlot (t : Slots n) (i : Fin n) (c : Slot) : Slots n :=
  { t with slot := Function.update t.slot i c }

/-- The fields of `freeproc` that are kept here. -/
def freeproc (t : Slots n) (i : Fin n) : Slots n := t.setSlot i ⟨.unused, 0, false⟩

/-- The pids that calls of `kkill` under way look for. -/
def underWay (t : Slots n) : List (BitVec 32) :=
  (List.finRange n).filterMap fun p => (t.scan p).map Prod.fst

/-- The part of `allocproc` that succeeds always: `p->pid = allocpid(); p->state = USED`. -/
def take (t : Slots n) (np : Fin n) : Slots n :=
  { t with
    slot := Function.update t.slot np { t.slot np with pid := t.nextpid, state := .used }
    nextpid := t.nextpid + 1
    kills := Function.update t.kills np t.underWay
    fault := Function.update t.fault np false }

/-- The body of the loop of `kkill` at slot `i`. -/
def strike (t : Slots n) (i : Fin n) : Slots n :=
  t.setSlot i
    { t.slot i with
      killed := true
      state := if (t.slot i).state = .sleeping then .runnable else (t.slot i).state }

def scanStep (t : Slots n) (p : Fin n) : Option (Slots n) :=
  match t.scan p with
  | none => none
  | some (pid, i) =>
    if h : i < n then
      if (t.slot ⟨i, h⟩).pid = pid then
        some { t.strike ⟨i, h⟩ with scan := Function.update t.scan p none }
      else some { t with scan := Function.update t.scan p (some (pid, i + 1)) }
    else some { t with scan := Function.update t.scan p none }

def next (t : Slots n) : Event n → Option (Slots n)
  | .alloc np memory =>
    if (t.slot np).state = .unused then
      some (if memory then t.take np else (t.take np).freeproc np)
    else none
  | .start np =>
    if (t.slot np).state = .used then some (t.setSlot np { t.slot np with state := .runnable })
    else none
  | .schedule p state =>
    if Active (t.slot p).state ∧ Active state then some (t.setSlot p { t.slot p with state := state })
    else none
  | .exit p =>
    if Active (t.slot p).state then some (t.setSlot p { t.slot p with state := .zombie }) else none
  | .wait pp => if (t.slot pp).state = .zombie then some (t.freeproc pp) else none
  | .setkilled p =>
    if Active (t.slot p).state then
      some { t.setSlot p { t.slot p with killed := true } with
        fault := Function.update t.fault p true }
    else none
  | .kkill p pid =>
    if t.scan p = none then
      some { t with
        scan := Function.update t.scan p (some (pid, 0))
        kills := fun i => pid :: t.kills i }
    else none
  | .scan p => t.scanStep p

def boot : Slots n where
  slot _ := ⟨.unused, 0, false⟩
  nextpid := 1
  scan _ := none
  kills _ := []
  fault _ := false

end Slots

def step (e : Event n) (t : Slots n) : Except Unit (Unit × Slots n) :=
  match t.next e with
  | some t' => .ok ((), t')
  | none => .error ()

def NoKillZero (_ : Slots n) (e : Event n) : Prop := ∀ p, e ≠ .kkill p 0

theorem Slots.mem_underWay {t : Slots n} {p : Fin n} {pid : BitVec 32} {i : ℕ} (hp : t.scan p = some (pid, i)) :
    pid ∈ t.underWay :=
  List.mem_filterMap.2 ⟨p, List.mem_finRange p, by simp [hp]⟩

structure Inv (t : Slots n) : Prop where
  unused : ∀ i, (t.slot i).state = .unused → (t.slot i).pid = 0 ∧ (t.slot i).killed = false
  scan : ∀ p pid i, t.scan p = some (pid, i) → pid ≠ 0 ∧ ∀ j, pid ∈ t.kills j
  killed : ∀ i, (t.slot i).killed = true → (t.slot i).pid ∈ t.kills i ∨ t.fault i = true

namespace Inv

variable {t t' : Slots n}

theorem boot : Inv (Slots.boot : Slots n) where
  unused _ _ := ⟨rfl, rfl⟩
  scan _ _ _ h := by simp [Slots.boot] at h
  killed _ h := by simp [Slots.boot] at h

variable (h : Inv t)
include h

/-- A slot changes; it keeps its pid and its flag, or loses the flag. -/
theorem setSlot (i : Fin n) {c : Slot}
    (hunused : c.state = .unused → c.pid = 0 ∧ c.killed = false)
    (hkilled : c.killed = true → c.pid ∈ t.kills i ∨ t.fault i = true) : Inv (t.setSlot i c) := by
  refine ⟨?_, h.scan, ?_⟩
  · intro j hj
    by_cases hji : j = i
    · subst hji
      simp only [Slots.setSlot, Function.update_self] at hj ⊢
      exact hunused hj
    · simp only [Slots.setSlot, Function.update_of_ne hji] at hj ⊢
      exact h.unused j hj
  · intro j hj
    by_cases hji : j = i
    · subst hji
      simp only [Slots.setSlot, Function.update_self] at hj ⊢
      exact hkilled hj
    · simp only [Slots.setSlot, Function.update_of_ne hji] at hj ⊢
      exact h.killed j hj

theorem freeproc (i : Fin n) : Inv (t.freeproc i) :=
  h.setSlot i (fun _ => ⟨rfl, rfl⟩) nofun

theorem take {np : Fin n} (hnp : (t.slot np).state = .unused) : Inv (t.take np) := by
  refine ⟨?_, ?_, ?_⟩
  · intro j hj
    by_cases hji : j = np
    · subst hji
      simp [Slots.take] at hj
    · simp only [Slots.take, Function.update_of_ne hji] at hj ⊢
      exact h.unused j hj
  · intro p pid i hp
    refine ⟨(h.scan p pid i hp).1, fun j => ?_⟩
    by_cases hji : j = np
    · subst hji
      simp only [Slots.take, Function.update_self]
      exact Slots.mem_underWay hp
    · simp only [Slots.take, Function.update_of_ne hji]
      exact (h.scan p pid i hp).2 j
  · intro j hj
    by_cases hji : j = np
    · -- the slot was free, and the flag of a free slot is clear
      subst hji
      simp only [Slots.take, Function.update_self] at hj
      simp [(h.unused j hnp).2] at hj
    · simp only [Slots.take, Function.update_of_ne hji] at hj ⊢
      exact h.killed j hj

theorem scanStep {p : Fin n} (hs : t.scanStep p = some t') : Inv t' := by
  cases hp : t.scan p with
  | none => simp [Slots.scanStep, hp] at hs
  | some c =>
    obtain ⟨pid, i⟩ := c
    obtain ⟨hpid, hkills⟩ := h.scan p pid i hp
    have hrest : ∀ q pid' j, Function.update t.scan p none q = some (pid', j) →
        t.scan q = some (pid', j) := by
      intro q pid' j hq
      by_cases hqp : q = p
      · subst hqp
        simp at hq
      · rwa [Function.update_of_ne hqp] at hq
    simp only [Slots.scanStep, hp] at hs
    split at hs
    · rename_i hi
      split at hs
      · rename_i hmatch
        cases hs
        have hstruck : Inv (t.strike ⟨i, hi⟩) := by
          refine h.setSlot ⟨i, hi⟩ ?_ ?_
          · intro hst
            have hun : (t.slot ⟨i, hi⟩).state = .unused := by
              by_cases hsl : (t.slot ⟨i, hi⟩).state = .sleeping
              · simp [hsl] at hst
              · simpa [hsl] using hst
            exact absurd (hmatch ▸ (h.unused _ hun).1) hpid
          · intro _
            exact Or.inl (hmatch ▸ hkills _)
        exact ⟨hstruck.unused, fun q pid' j hq => h.scan q pid' j (hrest q pid' j hq),
          hstruck.killed⟩
      · cases hs
        refine ⟨h.unused, ?_, h.killed⟩
        intro q pid' j hq
        by_cases hqp : q = p
        · subst hqp
          simp only [Function.update_self, Option.some.injEq, Prod.mk.injEq] at hq
          exact hq.1 ▸ ⟨hpid, hkills⟩
        · simp only [Function.update_of_ne hqp] at hq
          exact h.scan q pid' j hq
    · cases hs
      exact ⟨h.unused, fun q pid' j hq => h.scan q pid' j (hrest q pid' j hq), h.killed⟩

theorem next {e : Event n} (hguard : NoKillZero t e) (hs : t.next e = some t') : Inv t' := by
  cases e with
  | alloc np memory =>
    simp only [Slots.next] at hs
    split at hs <;> cases hs
    rename_i hnp
    cases memory
    · exact (h.take hnp).freeproc np
    · exact h.take hnp
  | start np =>
    simp only [Slots.next] at hs
    split at hs <;> cases hs
    exact h.setSlot np nofun (h.killed np)
  | schedule p state =>
    simp only [Slots.next] at hs
    split at hs <;> cases hs
    rename_i hact
    refine h.setSlot p (fun hu => ?_) (h.killed p)
    rcases hact.2 with hc | hc | hc <;> simp [hc] at hu
  | exit p =>
    simp only [Slots.next] at hs
    split at hs <;> cases hs
    exact h.setSlot p nofun (h.killed p)
  | wait pp =>
    simp only [Slots.next] at hs
    split at hs <;> cases hs
    exact h.freeproc pp
  | setkilled p =>
    simp only [Slots.next] at hs
    split at hs <;> cases hs
    rename_i hact
    refine ⟨?_, h.scan, ?_⟩
    · intro j hj
      by_cases hji : j = p
      · subst hji
        simp only [Slots.setSlot, Function.update_self] at hj
        simp [hj, Active] at hact
      · simp only [Slots.setSlot, Function.update_of_ne hji] at hj ⊢
        exact h.unused j hj
    · intro j hj
      by_cases hji : j = p
      · exact Or.inr (by simp [hji])
      · simp only [Slots.setSlot, Function.update_of_ne hji] at hj ⊢
        exact h.killed j hj
  | kkill p pid =>
    simp only [Slots.next] at hs
    split at hs <;> cases hs
    refine ⟨h.unused, ?_, fun i hi => (h.killed i hi).imp_left (List.mem_cons_of_mem pid)⟩
    intro q pid' j hq
    by_cases hqp : q = p
    · subst hqp
      simp only [Function.update_self, Option.some.injEq, Prod.mk.injEq] at hq
      obtain ⟨rfl, -⟩ := hq
      exact ⟨fun h0 => hguard q (by rw [h0]), fun i => List.mem_cons_self⟩
    · simp only [Function.update_of_ne hqp] at hq
      exact ⟨(h.scan q pid' j hq).1, fun i => List.mem_cons_of_mem pid ((h.scan q pid' j hq).2 i)⟩
  | scan p => exact h.scanStep hs

end Inv

/-- The states that forks, exits, waits and kills reach from boot. -/
def Reachable (guard : Slots n → Event n → Prop) : Slots n → Prop :=
  Reach step guard fun t => t = .boot

theorem Reachable.drive {guard : Slots n → Event n → Prop} {es : List (Event n)}
    (hguard : ∀ t, ∀ e ∈ es, guard t e) : Reachable guard (drive step es .boot) := by
  obtain ⟨evs, hrun⟩ := Run.drive (Allowed.of_forall hguard Slots.boot)
  exact ⟨_, evs, rfl, hrun⟩

/-- As long as nobody calls `kkill(0)`, only a kill with its pid or its own fault
marks a process. -/
theorem killed_by_own_pid {t : Slots n} (h : Reachable NoKillZero t) (i : Fin n)
    (hkilled : (t.slot i).killed = true) :
    (t.slot i).pid ∈ t.kills i ∨ t.fault i = true := by
  have hinv : Inv t := by
    refine h.invariant ?_ ?_
    · rintro _ rfl
      exact Inv.boot
    · intro s e _ s' hs hguard hstep
      cases hn : s.next e with
      | none => simp [step, hn] at hstep
      | some s₁ =>
        simp only [step, hn, Except.ok.injEq, Prod.mk.injEq, true_and] at hstep
        exact hstep ▸ hs.next hguard hn
  exact hinv.killed i hkilled

/-- The first process is started; it kills itself by its pid. -/
def bootAndKill : List (Event 2) :=
  [.alloc 0 true, .start 0, .schedule 0 .running, .kkill 0 1, .scan 0]

theorem bootAndKill_own_pid :
    ((drive step bootAndKill Slots.boot).slot 0).killed = true ∧
    (((drive step bootAndKill Slots.boot).slot 0).pid ∈ (drive step bootAndKill Slots.boot).kills 0 ∨
      (drive step bootAndKill Slots.boot).fault 0 = true) := by
  have hreach : Reachable NoKillZero (drive step bootAndKill Slots.boot) := by
    refine Reachable.drive ?_
    rintro _ e he p rfl
    simp [bootAndKill] at he
  have hrun : ((drive step bootAndKill Slots.boot).slot 0).killed = true := by decide +kernel
  exact ⟨hrun, killed_by_own_pid hreach 0 hrun⟩

/-- The first process calls `kkill(0)`, then it forks. -/
def killZeroThenFork : List (Event 2) :=
  [.alloc 0 true, .start 0, .schedule 0 .running, .kkill 0 0, .scan 0, .scan 0, .alloc 1 true,
    .start 1]

/-- The new process starts out killed, though nobody killed it. -/
theorem killZeroThenFork_killed :
    ∃ t : Slots 2, Reachable (fun _ _ => True) t ∧ (t.slot 1).state = .runnable ∧
      (t.slot 1).killed = true ∧ ¬ ((t.slot 1).pid ∈ t.kills 1 ∨ t.fault 1 = true) :=
  ⟨drive step killZeroThenFork Slots.boot, Reachable.drive fun _ _ _ => trivial, by decide +kernel⟩

end Xv6.Proc.Killed
