import Xv6.Sched.Rule

/-! # Sleep locks

sleeplock.c as programs over the fields of one lock, with `lk->lk` as the
condition lock.  A holder asks `holdingsleep` before it releases, as `brelse`
and `iunlock` do; any process may ask.
-/
namespace Xv6.Ipc.Sleep
open Library Sched

structure SleepLock where
  locked : Bool
  pid : ℤ

def initsleeplock : SleepLock := ⟨false, 0⟩

inductive Point
  | idle
  | acquiresleep
  /-- `while (lk->locked)`. -/
  | aLoop
  | aSleep
  /-- `lk->locked = 1; lk->pid = myproc()->pid`. -/
  | aTake
  | aUnlock
  /-- Between `acquiresleep` and `releasesleep`. -/
  | inside
  /-- A call from `inside` (`home`) or from `idle`. -/
  | holdingsleep (home : Bool)
  | hTest (home : Bool)
  | hUnlock (home r : Bool)
  /-- `holdingsleep` has returned `r`; the holder panics on 0. -/
  | answer (home r : Bool)
  | releasesleep
  /-- `lk->locked = 0; lk->pid = 0`. -/
  | rClear
  | rWake
  | rUnlock
  deriving DecidableEq

variable {n : ℕ} (pid : Fin n → ℤ)

/-- From outside comes which of two calls is made. -/
def prog (p : Fin n) : Point → Act SleepLock Unit Bool Point
  | .idle => .step fun x lk => some (lk, if x then .acquiresleep else .holdingsleep false)
  | .acquiresleep => .acquire .aLoop
  | .aLoop => .step fun _ lk => some (lk, if lk.locked then .aSleep else .aTake)
  | .aSleep => .sleep () .aLoop
  | .aTake => .step fun _ _ => some (⟨true, pid p⟩, .aUnlock)
  | .aUnlock => .release .inside
  | .inside => .step fun _ lk => some (lk, .holdingsleep true)
  | .holdingsleep home => .acquire (.hTest home)
  | .hTest home => .step fun _ lk => some (lk, .hUnlock home (lk.locked && lk.pid == pid p))
  | .hUnlock home r => .release (.answer home r)
  | .answer true true => .step fun x lk => some (lk, if x then .releasesleep else .inside)
  | .answer true false => .panic "brelse"
  | .answer false _ => .step fun _ lk => some (lk, .idle)
  | .releasesleep => .acquire .rClear
  | .rClear => .step fun _ _ => some (⟨false, 0⟩, .rWake)
  | .rWake => .wakeup () .rUnlock
  | .rUnlock => .release .idle

def Initial (s : Machine n SleepLock Unit Point) : Prop :=
  s = .start initsleeplock fun _ => .idle

def Unlocked : Point → Bool
  | .idle | .acquiresleep | .inside | .holdingsleep _ | .answer _ _ | .releasesleep => true
  | _ => false

/-- From `lk->pid = myproc()->pid` to `lk->pid = 0`. -/
def Inside : Point → Bool
  | .aUnlock | .inside | .releasesleep | .rClear => true
  | .holdingsleep home | .hTest home | .hUnlock home _ | .answer home _ => home
  | _ => false

/-- `holdingsleep` has told the truth. -/
def Answered : Point → Bool
  | .hUnlock home r | .answer home r => r == home
  | _ => true

def spec : Spec n SleepLock Unit Point where
  holds k := Unlocked k = false
  inv _ := True
  own p k lk := (Inside k = true ↔ lk.locked = true ∧ lk.pid = pid p) ∧ Answered k = true
  seen _ k lk := (k = .aSleep → lk.locked = true) ∧ (k = .aTake → lk.locked = false)
  ready _ lk := lk.locked = false
  owes _ k _ := k = .rWake
  cleared _ _ _ := False
  calm _ _ := False

variable {pid}

private theorem entry {p : Fin n} {k : Point} (hk : Unlocked k = false) (hs : k ≠ .aSleep)
    (ht : k ≠ .aTake) : (spec pid).Entry p k :=
  ⟨hk, fun _ => id, id, fun _ _ _ => ⟨fun h => absurd h hs, fun h => absurd h ht⟩⟩

/-- A step that leaves the lock as it is. -/
private theorem look {p : Fin n} {k k' : Point} {lk : SleepLock} (hk : Unlocked k' = Unlocked k)
    (hwake : k ≠ .rWake) (hown : (spec pid).own p k' lk) (hseen : (spec pid).seen p k' lk) :
    (spec pid).StepSound p k k' lk lk :=
  Spec.StepSound.same trivial (by simp [spec, hk]) id hown (fun _ => hseen) (fun _ => id)
    fun _ h => absurd h hwake

theorem sound (hpid : Function.Injective pid) : (spec pid).Sound (prog pid) where
  calm _ _ h := h.elim
  act p k := by
    cases k with
    | idle =>
      intro x lk lk' k' hf _ hown _
      cases hf
      cases x <;> exact look rfl (by simp) hown (by simp [spec])
    | acquiresleep => exact ⟨by simp [spec, Unlocked], entry rfl (by simp) (by simp), fun _ _ h => h⟩
    | aLoop =>
      intro x lk lk' k' hf _ hown _
      cases hf
      cases hl : lk.locked <;> exact look rfl (by simp) hown (by simp [spec, hl])
    | aSleep =>
      refine ⟨rfl, entry rfl (by simp) (by simp), by simp [spec], ?_⟩
      intro lk _ hown hseen
      exact ⟨by simp [spec, hseen.1 rfl], hown⟩
    | aTake =>
      intro x lk lk' k' hf _ hown hseen
      cases hf
      have hfree : lk.locked = false := (hseen rfl).2 rfl
      refine ⟨Iff.rfl, id, trivial, by simp [spec, Inside, Answered], by simp [spec], fun _ => id,
        by simp [spec], by simp [spec, Unlocked], ?_, by simp [spec, Unlocked]⟩
      -- nobody was inside, and the new holder has a pid of its own
      intro q j hq hj
      have hne : pid p ≠ pid q := fun h => hq (hpid h).symm
      simpa [spec, hfree, hne] using hj
    | aUnlock => exact ⟨rfl, by simp [spec, Unlocked], by simp [spec], fun _ _ hown _ => hown⟩
    | inside =>
      intro x lk lk' k' hf _ hown _
      cases hf
      exact look rfl (by simp) hown (by simp [spec])
    | holdingsleep home =>
      exact ⟨by simp [spec, Unlocked], entry rfl (by simp) (by simp), fun _ _ h => h⟩
    | hTest home =>
      intro x lk lk' k' hf _ hown _
      cases hf
      refine look rfl (by simp) ⟨hown.1, ?_⟩ (by simp [spec])
      have hhome : home = true ↔ lk.locked = true ∧ lk.pid = pid p := hown.1
      rw [Answered, beq_iff_eq, Bool.eq_iff_iff]
      simpa using hhome.symm
    | hUnlock home r =>
      exact ⟨rfl, by simp [spec, Unlocked], by simp [spec], fun _ _ hown _ => hown⟩
    | answer home r =>
      cases home with
      | false =>
        intro x lk lk' k' hf _ hown _
        cases hf
        exact look rfl (by simp) ⟨hown.1, rfl⟩ (by simp [spec])
      | true =>
        cases r with
        | false => trivial
        | true =>
          intro x lk lk' k' hf _ hown _
          cases hf
          cases x <;> exact look rfl (by simp) hown (by simp [spec])
    | releasesleep => exact ⟨by simp [spec, Unlocked], entry rfl (by simp) (by simp), fun _ _ h => h⟩
    | rClear =>
      intro x lk lk' k' hf _ hown _
      cases hf
      obtain ⟨hlocked, hholder⟩ : lk.locked = true ∧ lk.pid = pid p := hown.1.1 rfl
      refine ⟨Iff.rfl, id, trivial, by simp [spec, Inside, Answered], by simp [spec], fun _ => id,
        by simp [spec], by simp [spec, Unlocked], ?_, by simp [spec, Unlocked]⟩
      intro q j hq hj
      have hne : pid p ≠ pid q := fun h => hq (hpid h).symm
      simpa [spec, hholder, hne] using hj
    | rWake =>
      exact ⟨rfl, rfl, by simp [spec], fun _ h => h.elim, id, fun _ _ hown _ => ⟨hown, by simp [spec]⟩⟩
    | rUnlock => exact ⟨rfl, by simp [spec, Unlocked], by simp [spec], fun _ _ hown _ => hown⟩

/-- At most one process is inside a sleep lock and no release panics, whatever is killed when.
`holdingsleep` tells the caller whether it is the one, and nobody is left asleep on a free lock. -/
theorem sleep_lock_exclusive (hpid : Function.Injective pid)
    {s : Machine n SleepLock Unit Point}
    (h : Reach (step (prog pid)) (fun _ _ => True) Initial s) :
    (∀ p q, Inside (s.thread p).point = true → Inside (s.thread q).point = true → p = q) ∧
    (∀ p home r, (s.thread p).point = .answer home r → r = home) ∧
    (s.lk = none → ∀ p, s.state p = .sleeping → s.chan p = some () → s.data.locked = true) ∧
    ∀ e msg, nextState (prog pid) e s ≠ .error (.panic msg) := by
  have hgood : Good (spec pid) s := by
    refine Good.reach_all (sound hpid) (fun _ _ => id) ?_ h
    rintro _ rfl
    exact Good.start trivial (fun _ => by simp [spec, initsleeplock, Inside, Answered])
      fun _ => by simp [spec, Unlocked]
  refine ⟨?_, ?_, ?_, ?_⟩
  · intro p q hp hq
    have hp := (hgood.own p).1.1 hp
    have hq := (hgood.own q).1.1 hq
    exact hpid (hp.2.symm.trans hq.2)
  · intro p home r hk
    have hown := (hgood.own p).2
    rw [hk] at hown
    exact eq_of_beq hown
  · intro hlk p hst hc
    simpa [spec] using hgood.not_ready hlk hst hc
  · intro e msg
    refine hgood.no_panic (sound hpid) ?_
    intro p k hk lk _ hown _
    -- the only panic follows a wrong answer
    cases k with
    | answer home r => cases home <;> cases r <;> simp_all [prog, spec, Answered]
    | _ => simp [prog] at hk

/-- Process 0 takes the lock, and process 1 sleeps on it. -/
def contended : Machine 2 SleepLock Unit Point :=
  drive (step (prog fun p => (p : ℤ)))
    (List.flatten [resume 0, run 0 6 true, resume 1, run 1 8 true, [.schedRelease 1]])
    (.start initsleeplock fun _ => .idle)

theorem contended_locked : Inside (contended.thread 0).point = true ∧
    contended.state 1 = .sleeping ∧ contended.data.locked = true := by
  have hreach : Reach (step (prog fun p => (p : ℤ))) (fun _ _ => True) Initial contended :=
    Reach.drive (show Initial (.start initsleeplock fun _ => .idle) from rfl) fun _ _ _ => trivial
  have hrun : Inside (contended.thread 0).point = true ∧ contended.lk = none ∧
      contended.state 1 = .sleeping ∧ contended.chan 1 = some () := by decide +kernel
  have hpid : Function.Injective fun p : Fin 2 => (p : ℤ) := by decide
  exact ⟨hrun.1, hrun.2.2.1,
    (sleep_lock_exclusive hpid hreach).2.2.1 hrun.2.1 1 hrun.2.2.1 hrun.2.2.2⟩

end Xv6.Ipc.Sleep
