import Xv6.Sched.Table
import Xv6.Library.Run

/-! # Kills of processes that poll before they sleep

A loop that calls `killed()` before each `sleep()` notices a kill that comes
before the poll, and `kkill` wakes a process that already sleeps.  In between,
from the poll to the `acquire(&p->lock)` of `sleep`, nothing notices it.  Where
no kill lands in that window, no process sleeps with its flag set.
-/
namespace Xv6.Sched
open Kernel Library

variable {n : ℕ} {D C X Λ : Type}

/-- The obligation of a polling program at a point, where `W` holds of the points
between a poll that came back 0 and the `sleep` that follows it. -/
def PollAct (W : Λ → Prop) (k : Λ) : Act D C X Λ → Prop
  | .acquire k' | .release k' | .wakeup _ k' => W k' → W k
  | .step f => ∀ x d d' k', f x d = some (d', k') → W k' → W k
  | .sleep _ k' => W k ∧ ¬ W k'
  | .killed k' => ¬ W (k' true)
  | .panic _ => True

/-- Every `sleep` of the program comes after a poll. -/
def Polls (W : Λ → Prop) (prog : Fin n → Λ → Act D C X Λ) : Prop :=
  ∀ p k, PollAct W k (prog p k)

def Resume.Polled (W : Λ → Prop) : Resume Λ → Prop
  | .yielded k => W k
  | _ => False

/-- Past the poll and before the `acquire(&p->lock)` of `sleep`. -/
def Thread.Polled (W : Λ → Prop) : Thread n C Λ → Prop
  | .run k | .wake1 _ _ k | .wake2 _ _ k => W k
  | .yield1 r | .switched r | .parked r | .resumed r => r.Polled W
  | .sleep1 _ _ => True
  | _ => False

/-- In `sleep`, from its `acquire(&p->lock)` to `SLEEPING`. -/
def Thread.Sinking : Thread n C Λ → Prop
  | .sleep2 _ _ | .sleep3 _ _ => True
  | _ => False

def Resume.Back (W : Λ → Prop) : Resume Λ → Prop
  | .slept k | .relocking k => ¬ W k
  | _ => True

/-- `sleep` returns to a point before the next poll. -/
def Thread.Back (W : Λ → Prop) : Thread n C Λ → Prop
  | .sleep1 _ k | .sleep2 _ k | .sleep3 _ k | .relock k => ¬ W k
  | .yield1 r | .switched r | .parked r | .resumed r => r.Back W
  | _ => True

/-- No kill hits a process between its poll and its sleep. -/
def NoKillPolled (W : Λ → Prop) (s : Machine n D C Λ) (e : Event n X) : Prop :=
  ∀ p, e = .kkill p → ¬ (s.thread p).Polled W

structure Unhurt (W : Λ → Prop) (s : Machine n D C Λ) : Prop where
  table : Table s
  back : ∀ p, (s.thread p).Back W
  polled : ∀ p, (s.thread p).Polled W → s.killed p = false
  sinking : ∀ p, (s.thread p).Sinking → s.killed p = false
  sleeping : ∀ p, s.state p = .sleeping → s.killed p = false

section Moves

variable {W : Λ → Prop} {s s' : Machine n D C Λ} {p : Fin n}

theorem Unhurt.goto (h : Unhurt W s) (htable : Table s') {u : Thread n C Λ}
    (hthread : s'.thread = Function.update s.thread p u) (hkilled : s'.killed = s.killed)
    (hback : u.Back W) (hpolled : u.Polled W → s.killed p = false)
    (hsinking : u.Sinking → s.killed p = false)
    (hsleeping : ∀ q, s'.state q = .sleeping → s.state q = .sleeping ∨ (s.thread q).Sinking) :
    Unhurt W s' := by
  have hself : s'.thread p = u := by rw [hthread, Function.update_self]
  have hother : ∀ q, q ≠ p → s'.thread q = s.thread q := fun q hq => by
    rw [hthread, Function.update_of_ne hq]
  constructor
  case table => exact htable
  case back =>
    intro q
    by_cases hq : q = p
    · rw [hq, hself]
      exact hback
    · rw [hother q hq]
      exact h.back q
  case polled =>
    intro q hp
    rw [hkilled]
    by_cases hq : q = p
    · subst hq
      exact hpolled (hself ▸ hp)
    · rw [hother q hq] at hp
      exact h.polled q hp
  case sinking =>
    intro q hp
    rw [hkilled]
    by_cases hq : q = p
    · subst hq
      exact hsinking (hself ▸ hp)
    · rw [hother q hq] at hp
      exact h.sinking q hp
  case sleeping =>
    intro q hq
    rw [hkilled]
    rcases hsleeping q hq with hs | hs
    · exact h.sleeping q hs
    · exact h.sinking q hs

theorem Unhurt.kill (h : Unhurt W s) (htable : Table (s.kill p)) (hfree : s.plock p = none)
    (hguard : ¬ (s.thread p).Polled W) : Unhurt W (s.kill p) := by
  have hsink : ¬ (s.thread p).Sinking := by
    intro hs
    have hlock : (s.thread p).lockOf p = some p := by
      cases ht : s.thread p <;> rw [ht] at hs <;> first | rfl | exact hs.elim
    have := h.table.owner p p hlock
    simp [hfree] at this
  have hother : ∀ q, q ≠ p → (s.kill p).killed q = s.killed q := fun q hq => by simp [hq]
  refine ⟨htable, h.back, ?_, ?_, ?_⟩
  · intro q hq
    have hne : q ≠ p := by
      rintro rfl
      exact hguard hq
    rw [hother q hne]
    exact h.polled q hq
  · intro q hq
    have hne : q ≠ p := by
      rintro rfl
      exact hsink hq
    rw [hother q hne]
    exact h.sinking q hq
  · intro q hq
    obtain ⟨hs, hne⟩ := kill_sleeping hq
    rw [hother q hne]
    exact h.sleeping q hs

theorem Unhurt.start {d : D} {k : Fin n → Λ} : Unhurt W (Machine.start d k : Machine n D C Λ) where
  table := Table.start d k
  back _ := trivial
  polled _ _ := rfl
  sinking _ _ := rfl
  sleeping _ _ := rfl

variable [DecidableEq C] {prog : Fin n → Λ → Act D C X Λ} {e : Event n X}

theorem Unhurt.move (h : Unhurt W s) (hpolls : Polls W prog) (hm : Move prog s e s')
    (hguard : NoKillPolled W s e) : Unhurt W s' := by
  have htable := h.table.move hm
  -- the point a process leaves, and what is known there
  have hpolled : ∀ {q u}, s.thread q = u → u.Polled W → s.killed q = false :=
    fun hu hq => h.polled _ (hu ▸ hq)
  have hback : ∀ {q u}, s.thread q = u → u.Back W := fun hu => hu ▸ h.back _
  have hsleep : ∀ q, s.state q = .sleeping → s.state q = .sleeping ∨ (s.thread q).Sinking :=
    fun _ => Or.inl
  cases hm with
  | @acquire p x k k' ht ha hlk =>
    have hact := hpolls p k
    rw [ha] at hact
    exact h.goto htable rfl rfl trivial (fun hw => hpolled ht (hact hw)) False.elim hsleep
  | @release p x k k' ht ha hlk =>
    have hact := hpolls p k
    rw [ha] at hact
    exact h.goto htable rfl rfl trivial (fun hw => hpolled ht (hact hw)) False.elim hsleep
  | @step p x k f d k' ht ha hf =>
    have hact := hpolls p k
    rw [ha] at hact
    exact h.goto htable rfl rfl trivial (fun hw => hpolled ht (hact _ _ _ _ hf hw)) False.elim hsleep
  | @sleep p x k c k' ht ha =>
    have hact := hpolls p k
    rw [ha] at hact
    exact h.goto htable rfl rfl hact.2 (fun _ => hpolled ht hact.1) False.elim hsleep
  | @wakeup p x k c k' ht ha =>
    have hact := hpolls p k
    rw [ha] at hact
    exact h.goto htable rfl rfl trivial (fun hw => hpolled ht (hact hw)) False.elim hsleep
  | @killed p x k k' ht ha hp =>
    have hact := hpolls p k
    rw [ha] at hact
    refine h.goto htable rfl rfl trivial (fun hw => ?_) False.elim hsleep
    cases hk : s.killed p with
    | false => rfl
    | true =>
      rw [hk] at hw
      exact absurd hw hact
  | sleepLock ht hp =>
    exact h.goto htable rfl rfl (hback ht :) False.elim (fun _ => hpolled ht trivial) hsleep
  | sleepRelease ht hlk =>
    exact h.goto htable rfl rfl (hback ht :) False.elim (fun _ => h.sinking _ (ht ▸ trivial)) hsleep
  | @sleepSwitch p x c k ht =>
    refine h.goto htable rfl rfl (hback ht :) False.elim False.elim fun q hq => ?_
    by_cases hqp : q = p
    · exact Or.inr (by rw [hqp, ht]; trivial)
    · exact Or.inl (by simpa [hqp] using hq)
  | relock ht hlk =>
    exact h.goto htable rfl rfl trivial (fun hw => absurd hw (hback ht)) False.elim hsleep
  | wakeSelf ht => exact h.goto htable rfl rfl trivial (fun hw => hpolled ht hw) False.elim hsleep
  | wakeLock ht hi hp => exact h.goto htable rfl rfl trivial (fun hw => hpolled ht hw) False.elim hsleep
  | wakeEnd ht hi => exact h.goto htable rfl rfl trivial (fun hw => hpolled ht hw) False.elim hsleep
  | wakeTest ht =>
    exact h.goto htable rfl rfl trivial (fun hw => hpolled ht hw) False.elim fun q hq =>
      Or.inl (rouse_sleeping hq).1
  | @yieldSwitch p x r ht =>
    refine h.goto htable rfl rfl (hback ht :) (fun hw => hpolled ht hw) False.elim fun q hq => ?_
    have hqp : q ≠ p := by
      rintro rfl
      simp at hq
    exact Or.inl (by simpa [hqp] using hq)
  | tidySleep ht => exact h.goto htable rfl rfl (hback ht :) False.elim False.elim hsleep
  | tidyYield ht => exact h.goto htable rfl rfl trivial (fun hw => hpolled ht hw) False.elim hsleep
  | tidyRelock ht => exact h.goto htable rfl rfl (hback ht :) False.elim False.elim hsleep
  | yieldRun ht hp hlk => exact h.goto htable rfl rfl trivial (fun hw => hpolled ht hw) False.elim hsleep
  | yieldRelock ht hp hlk => exact h.goto htable rfl rfl (hback ht :) False.elim False.elim hsleep
  | schedAcquire hp => exact ⟨htable, h.back, h.polled, h.sinking, h.sleeping⟩
  | @schedSwitch p r ht hp hst =>
    refine h.goto htable rfl rfl (hback ht :) (fun hw => hpolled ht hw) False.elim fun q hq => ?_
    have hqp : q ≠ p := by
      rintro rfl
      simp at hq
    exact Or.inl (by simpa [hqp] using hq)
  | schedSkip ht hp hst => exact ⟨htable, h.back, h.polled, h.sinking, h.sleeping⟩
  | schedRelease ht => exact h.goto htable rfl rfl (hback ht :) (fun hw => hpolled ht hw) False.elim hsleep
  | kkill hp => exact h.kill htable hp (hguard _ rfl)

/-- A process of a polling program does not sleep with its flag set. -/
theorem not_asleep_killed {init : Machine n D C Λ → Prop} (hpolls : Polls W prog)
    (hinit : ∀ s, init s → Unhurt W s) (h : Reach (step prog) (NoKillPolled W) init s) (p : Fin n) :
    ¬ (s.killed p = true ∧ s.state p = .sleeping) := by
  have hunhurt : Unhurt W s := h.invariant hinit fun _ _ _ _ hu hguard hstep =>
    hu.move hpolls (step_cases hstep) hguard
  rintro ⟨hk, hst⟩
  have := hunhurt.sleeping p hst
  simp [hk] at this

end Moves

end Xv6.Sched
