import Xv6.Sched.Rule

/-! # Sleepers and wakers of one condition

Processes that wait for a condition on the data under `lk`, and processes that
make it true.  A sleeper tests the condition and sleeps as long as it is false;
then it may change the data.  A waker changes the data so that the condition
holds and calls `wakeup`, in either order, before it drops the lock.
-/
namespace Xv6.Sched.Condition
open Library

variable {n : ℕ} {D C : Type}

inductive Point
  | idle
  /-- A sleeper before `acquire(lk)`. -/
  | wait
  /-- `while(!condition)`. -/
  | test
  /-- `sleep(chan, lk)`. -/
  | doze
  /-- What a sleeper does with the data once the condition holds. -/
  | use
  | unlock
  /-- A waker before `acquire(lk)`. -/
  | make
  | choose
  /-- Makes the condition true. -/
  | raise
  /-- `wakeup(chan)` after that. -/
  | wake
  /-- `wakeup(chan)` before that. -/
  | wakeFirst
  | raiseLast
  deriving DecidableEq

/-- From outside: which of two ways to go, and new data. -/
structure Input (D : Type) where
  left : Bool
  data : D

def prog (cond : D → Bool) (chan : C) (_ : Fin n) : Point → Act D C (Input D) Point
  | .idle => .step fun x d => some (d, if x.left then .wait else .make)
  | .wait => .acquire .test
  | .test => .step fun _ d => some (d, if cond d then .use else .doze)
  | .doze => .sleep chan .test
  | .use => .step fun x _ => some (x.data, .unlock)
  | .unlock => .release .idle
  | .make => .acquire .choose
  | .choose => .step fun x d => some (d, if x.left then .raise else .wakeFirst)
  | .raise => .step fun x _ => if cond x.data then some (x.data, .wake) else none
  | .wake => .wakeup chan .unlock
  | .wakeFirst => .wakeup chan .raiseLast
  | .raiseLast => .step fun x _ => if cond x.data then some (x.data, .unlock) else none

/-- The waker owes the wakeup once it has made the condition true. -/
def spec (n : ℕ) (cond : D → Bool) (chan : C) : Spec n D C Point where
  holds k := k ≠ .idle ∧ k ≠ .wait ∧ k ≠ .make
  inv _ := True
  own _ _ _ := True
  seen _ k d := (k = .doze → cond d = false) ∧ (k = .use → cond d = true)
  ready c d := c = chan ∧ cond d = true
  owes _ k c := k = .wake ∧ c = chan
  cleared _ k c := k = .raiseLast ∧ c = chan
  calm _ _ := False

variable (cond : D → Bool) (chan : C)

private theorem look {p : Fin n} {k k' : Point} {d : D} (hk : (spec n cond chan).holds k' ↔
    (spec n cond chan).holds k) (hwake : k ≠ .wake) (hlast : k' ≠ .raiseLast)
    (hseen : (spec n cond chan).seen p k' d) : (spec n cond chan).StepSound p k k' d d :=
  Spec.StepSound.same trivial hk id trivial (fun _ => hseen) (fun _ h => absurd h.1 hlast)
    fun _ h => absurd h.1 hwake

theorem sound : (spec n cond chan).Sound (prog cond chan) where
  calm _ _ h := h.elim
  act p k := by
    cases k with
    | idle =>
      intro x d d' k' hf _ _ _
      cases hf
      cases x.left <;> exact look cond chan (by simp [spec]) (by simp) (by simp) (by simp [spec])
    | wait => exact ⟨by simp [spec], ⟨by simp [spec], by simp [spec], id, by simp [spec]⟩, fun _ _ h => h⟩
    | test =>
      intro x d d' k' hf _ _ _
      cases hf
      cases hc : cond d <;>
        exact look cond chan (by simp [spec]) (by simp) (by simp) (by simp [spec, hc])
    | doze =>
      refine ⟨by simp [spec], ⟨by simp [spec], by simp [spec], id, by simp [spec]⟩, by simp [spec], ?_⟩
      intro d _ _ hseen
      have hc := hseen.1 rfl
      simp [spec, hc]
    | use =>
      intro x d d' k' hf _ _ hseen
      cases hf
      have hc : cond d = true := (hseen (by simp [spec])).2 rfl
      constructor <;> simp [spec, hc]
    | unlock => simp [prog, Spec.ActSound, spec]
    | make => exact ⟨by simp [spec], ⟨by simp [spec], by simp [spec], id, by simp [spec]⟩, fun _ _ h => h⟩
    | choose =>
      intro x d d' k' hf _ _ _
      cases hf
      cases x.left <;> exact look cond chan (by simp [spec]) (by simp) (by simp) (by simp [spec])
    | raise =>
      intro x d d' k' hf _ _ _
      dsimp only at hf
      split at hf <;> cases hf
      constructor <;> simp [spec]
    | wake => simp [prog, Spec.ActSound, spec]
    | wakeFirst => simp [prog, Spec.ActSound, spec]
    | raiseLast =>
      intro x d d' k' hf _ _ _
      dsimp only at hf
      split at hf <;> cases hf
      constructor <;> simp [spec]

/-- The states that sleepers and wakers reach from all processes idle. -/
def Reachable [DecidableEq C] (cond : D → Bool) (chan : C) : Machine n D C Point → Prop :=
  Reach (step (prog cond chan)) (fun _ _ => True) fun s => ∃ d, s = .start d fun _ => .idle

/-- Whenever the lock is free and the condition holds, nobody sleeps on the channel. -/
theorem sleep_wakeup_never_miss [DecidableEq C] {s : Machine n D C Point}
    (h : Reachable cond chan s) (hlk : s.lk = none) (hcond : cond s.data = true) (p : Fin n) :
    ¬ (s.state p = .sleeping ∧ s.chan p = some chan) := by
  have hgood : Good (spec n cond chan) s := by
    refine Good.reach_all (sound cond chan) (fun _ _ => id) ?_ h
    rintro _ ⟨d, rfl⟩
    exact Good.start trivial (fun _ => trivial) fun _ => by simp [spec]
  rintro ⟨hst, hc⟩
  exact hgood.not_ready hlk hst hc ⟨rfl, hcond⟩

/-- Process 0 goes to sleep on the false condition; process 1 makes it true and wakes it. -/
def napThenWake : List (Event 2 (Input Bool)) :=
  List.flatten [resume 0, run 0 8 ⟨true, true⟩, [.schedRelease 0], resume 1, run 1 12 ⟨false, true⟩]

def twoIdle : Machine 2 Bool Unit Point := .start false fun _ => .idle

/-- Process 0 does sleep on the way, in the state before process 1 runs. -/
theorem napThenWake_woken :
    (drive (step (prog id ())) (napThenWake.take 11) twoIdle).state 0 = .sleeping ∧
    (drive (step (prog id ())) napThenWake twoIdle).lk = none ∧
    (drive (step (prog id ())) napThenWake twoIdle).data = true ∧
    ∀ p, ¬ ((drive (step (prog id ())) napThenWake twoIdle).state p = .sleeping ∧
      (drive (step (prog id ())) napThenWake twoIdle).chan p = some ()) := by
  have hreach : Reachable id () (drive (step (prog id ())) napThenWake twoIdle) :=
    Reach.drive ⟨false, rfl⟩ fun _ _ _ => trivial
  have hrun : (drive (step (prog id ())) napThenWake twoIdle).lk = none ∧
      (drive (step (prog id ())) napThenWake twoIdle).data = true := by decide +kernel
  exact ⟨by decide +kernel, hrun.1, hrun.2,
    sleep_wakeup_never_miss id () hreach hrun.1 hrun.2⟩

end Xv6.Sched.Condition
