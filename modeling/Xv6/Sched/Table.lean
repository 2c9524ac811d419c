import Xv6.Sched.Machine

/-! # The process locks

Which lock each point of `sleep`, `wakeup`, `yield` and `sched` holds, and that a
process in state `SLEEPING` was switched out by `sleep`.
-/
namespace Xv6.Sched
open Kernel

variable {n : ℕ} {D C X Λ : Type}

/-- The process whose lock a process holds in `sleep`, `wakeup`, `yield` or `sched`. -/
def Thread.lockOf (q : Fin n) : Thread n C Λ → Option (Fin n)
  | .sleep2 _ _ | .sleep3 _ _ | .yield1 _ | .resumed _ => some q
  | .wake2 _ i _ => some i
  | _ => none

/-- Switched out by `sleep`. -/
def Thread.Out : Thread n C Λ → Prop
  | .switched (.slept _) | .parked (.slept _) => True
  | _ => False

/-- The process locks and states agree with where the processes are. -/
structure Table (s : Machine n D C Λ) : Prop where
  owner : ∀ q i, (s.thread q).lockOf q = some i → s.plock i = some (.proc q)
  cpu : ∀ p r, s.thread p = .switched r → s.plock p = some .cpu
  sleeping : ∀ p, s.state p = .sleeping → (s.thread p).Out

theorem Table.start (d : D) (k : Fin n → Λ) : Table (Machine.start d k : Machine n D C Λ) where
  owner q i h := by simp [Machine.start, Thread.lockOf] at h
  cpu p r h := by simp [Machine.start] at h
  sleeping p h := by simp [Machine.start] at h

variable {s s' : Machine n D C Λ}

/-- A process moves and changes at most the locks that are its own to change. -/
theorem Table.change (h : Table s) (p : Fin n) (hthread : ∀ q, q ≠ p → s'.thread q = s.thread q)
    (howner : ∀ i, (s'.thread p).lockOf p = some i → s'.plock i = some (.proc p))
    (hkeep : ∀ i q, q ≠ p → s.plock i = some (.proc q) → s'.plock i = some (.proc q))
    (hcpu : ∀ r, s'.thread p = .switched r → s'.plock p = some .cpu)
    (hcpu' : ∀ q r, q ≠ p → s.thread q = .switched r → s'.plock q = s.plock q)
    (hsleeping : s'.state p = .sleeping → (s'.thread p).Out)
    (hsleeping' : ∀ q, q ≠ p → s'.state q = .sleeping → s.state q = .sleeping) : Table s' where
  owner q i hq := by
    by_cases hp : q = p
    · subst hp
      exact howner i hq
    · rw [hthread q hp] at hq
      exact hkeep i q hp (h.owner q i hq)
  cpu q r hq := by
    by_cases hp : q = p
    · subst hp
      exact hcpu r hq
    · rw [hthread q hp] at hq
      rw [hcpu' q r hp hq]
      exact h.cpu q r hq
  sleeping q hq := by
    by_cases hp : q = p
    · subst hp
      exact hsleeping hq
    · rw [hthread q hp]
      exact h.sleeping q (hsleeping' q hp hq)

/-- The process takes no lock and its locks and states stay as they are. -/
theorem Table.goto (h : Table s) {p : Fin n} {t : Thread n C Λ}
    (hlock : ∀ i, t.lockOf p = some i → (s.thread p).lockOf p = some i)
    (hrun : ¬ (s.thread p).Out) (hsw : ∀ r, t ≠ .switched r)
    (hthread : s'.thread = Function.update s.thread p t) (hplock : s'.plock = s.plock)
    (hstate : s'.state = s.state) : Table s' := by
  refine h.change p ?_ ?_ ?_ ?_ ?_ ?_ ?_
  · intro q hq
    rw [hthread, Function.update_of_ne hq]
  · intro i hi
    rw [hthread, Function.update_self] at hi
    rw [hplock]
    exact h.owner p i (hlock i hi)
  · intro i q _ hi
    rw [hplock, hi]
  · intro r hr
    rw [hthread, Function.update_self] at hr
    exact absurd hr (hsw r)
  · intro q r _ _
    rw [hplock]
  · intro hp
    rw [hstate] at hp
    exact absurd (h.sleeping p hp) hrun
  · intro q _ hq
    rwa [hstate] at hq

theorem Table.take (h : Table s) {p i : Fin n} {t : Thread n C Λ} (hfree : s.plock i = none)
    (hlock : t.lockOf p = some i) (hrun : ¬ (s.thread p).Out) (hsw : ∀ r, t ≠ .switched r) :
    Table ((s.lockProc i (.proc p)).goto p t) := by
  refine h.change p ?_ ?_ ?_ ?_ ?_ ?_ ?_
  · intro q hq
    exact Function.update_of_ne hq _ _
  · intro j hj
    simp only [Machine.goto_thread, Function.update_self, hlock] at hj
    cases hj
    simp
  · intro j q _ hj
    have hji : j ≠ i := by
      rintro rfl
      simp [hfree] at hj
    simp [hji, hj]
  · intro r hr
    simp only [Machine.goto_thread, Function.update_self] at hr
    exact absurd hr (hsw r)
  · intro q r _ hq
    have hqi : q ≠ i := by
      rintro rfl
      simpa [hfree] using h.cpu q r hq
    simp [hqi]
  · intro hp
    exact absurd (h.sleeping p hp) hrun
  · intro q _ hq
    exact hq

theorem Table.drop (h : Table s) {p i : Fin n} {t : Thread n C Λ}
    (hheld : (s.thread p).lockOf p = some i) (hlock : t.lockOf p = none)
    (hrun : ¬ (s.thread p).Out) (hsw : ∀ r, t ≠ .switched r)
    (hthread : s'.thread = Function.update s.thread p t)
    (hplock : s'.plock = Function.update s.plock i none)
    (hstate : ∀ q, s'.state q = .sleeping → s.state q = .sleeping) : Table s' := by
  have howner := h.owner p i hheld
  refine h.change p ?_ ?_ ?_ ?_ ?_ ?_ ?_
  · intro q hq
    rw [hthread, Function.update_of_ne hq]
  · intro j hj
    simp [hthread, hlock] at hj
  · intro j q hq hj
    have hji : j ≠ i := by
      rintro rfl
      rw [howner] at hj
      cases hj
      exact hq rfl
    rw [hplock, Function.update_of_ne hji, hj]
  · intro r hr
    rw [hthread, Function.update_self] at hr
    exact absurd hr (hsw r)
  · intro q r _ hq
    have hqi : q ≠ i := by
      rintro rfl
      have := h.cpu q r hq
      simp [howner] at this
    rw [hplock, Function.update_of_ne hqi]
  · intro hp
    exact absurd (h.sleeping p (hstate p hp)) hrun
  · intro q _ hq
    exact hstate q hq

theorem Table.swtch (h : Table s) {p : Fin n} {r : Resume Λ}
    (hheld : (s.thread p).lockOf p = some p)
    (hthread : s'.thread = Function.update s.thread p (.switched r))
    (hplock : s'.plock = Function.update s.plock p (some .cpu))
    (hsleep : s'.state p = .sleeping → (s'.thread p).Out)
    (hstate : ∀ q, q ≠ p → s'.state q = s.state q) : Table s' := by
  have howner := h.owner p p hheld
  refine h.change p ?_ ?_ ?_ ?_ ?_ hsleep ?_
  · intro q hq
    rw [hthread, Function.update_of_ne hq]
  · intro j hj
    simp [hthread, Thread.lockOf] at hj
  · intro j q hq hj
    have hjp : j ≠ p := by
      rintro rfl
      rw [howner] at hj
      cases hj
      exact hq rfl
    rw [hplock, Function.update_of_ne hjp, hj]
  · intro r' _
    rw [hplock, Function.update_self]
  · intro q _ hq _
    rw [hplock, Function.update_of_ne hq]
  · intro q hq hs
    rwa [hstate q hq] at hs

/-- The scheduler changes who has the lock of a process. -/
theorem Table.sched (h : Table s) {p : Fin n} (howner : ∀ q, s.plock p ≠ some (.proc q))
    (hthread : ∀ q, q ≠ p → s'.thread q = s.thread q)
    (hlock : ∀ i, (s'.thread p).lockOf p = some i → s'.plock i = some (.proc p))
    (hplock : ∀ i, i ≠ p → s'.plock i = s.plock i)
    (hsw : ∀ r, s'.thread p = .switched r → s'.plock p = some .cpu)
    (hsleep : s'.state p = .sleeping → (s'.thread p).Out)
    (hstate : ∀ q, q ≠ p → s'.state q = s.state q) : Table s' := by
  refine h.change p hthread hlock ?_ hsw ?_ hsleep ?_
  · intro j q _ hj
    have hjp : j ≠ p := by
      rintro rfl
      exact howner q hj
    rw [hplock j hjp, hj]
  · intro q r hq _
    exact hplock q hq
  · intro q hq hs
    rwa [hstate q hq] at hs

variable [DecidableEq C] {prog : Fin n → Λ → Act D C X Λ} {e : Event n X}

theorem rouse_sleeping {i q : Fin n} {c : C} (h : (s.rouse i c).state q = .sleeping) :
    s.state q = .sleeping ∧ ¬ (q = i ∧ s.chan q = some c) := by
  by_cases hq : q = i
  · subst hq
    by_cases hs : s.state q = .sleeping ∧ s.chan q = some c
    · simp [hs] at h
    · simp only [Machine.rouse_state, Function.update_self, hs, ite_false] at h
      exact ⟨h, fun hc => hs ⟨h, hc.2⟩⟩
  · simp only [Machine.rouse_state, Function.update_of_ne hq] at h
    exact ⟨h, fun hc => hq hc.1⟩

omit [DecidableEq C] in
theorem kill_sleeping {p q : Fin n} (h : (s.kill p).state q = .sleeping) :
    s.state q = .sleeping ∧ q ≠ p := by
  by_cases hq : q = p
  · subst hq
    by_cases hs : s.state q = .sleeping
    · simp [hs] at h
    · simp [hs] at h
  · simp only [Machine.kill_state, Function.update_of_ne hq] at h
    exact ⟨h, hq⟩

theorem Table.move (h : Table s) (hm : Move prog s e s') : Table s' := by
  cases hm with
  | acquire ht ha hlk =>
    exact h.goto (by simp [Thread.lockOf]) (by simp [ht, Thread.Out]) (by simp) rfl rfl rfl
  | release ht ha hlk =>
    exact h.goto (by simp [Thread.lockOf]) (by simp [ht, Thread.Out]) (by simp) rfl rfl rfl
  | step ht ha hf =>
    exact h.goto (by simp [Thread.lockOf]) (by simp [ht, Thread.Out]) (by simp) rfl rfl rfl
  | sleep ht ha =>
    exact h.goto (by simp [Thread.lockOf]) (by simp [ht, Thread.Out]) (by simp) rfl rfl rfl
  | wakeup ht ha =>
    exact h.goto (by simp [Thread.lockOf]) (by simp [ht, Thread.Out]) (by simp) rfl rfl rfl
  | killed ht ha hp =>
    exact h.goto (by simp [Thread.lockOf]) (by simp [ht, Thread.Out]) (by simp) rfl rfl rfl
  | relock ht hlk =>
    exact h.goto (by simp [Thread.lockOf]) (by simp [ht, Thread.Out]) (by simp) rfl rfl rfl
  | wakeSelf ht =>
    exact h.goto (by simp [Thread.lockOf]) (by simp [ht, Thread.Out]) (by simp) rfl rfl rfl
  | wakeEnd ht hi =>
    exact h.goto (by simp [Thread.lockOf]) (by simp [ht, Thread.Out]) (by simp) rfl rfl rfl
  | sleepRelease ht hlk =>
    exact h.goto (by simp [ht, Thread.lockOf]) (by simp [ht, Thread.Out]) (by simp) rfl rfl rfl
  | sleepLock ht hp => exact h.take hp rfl (by simp [ht, Thread.Out]) (by simp)
  | wakeLock ht hi hp => exact h.take hp rfl (by simp [ht, Thread.Out]) (by simp)
  | yieldRun ht hp hlk => exact h.take hp rfl (by simp [ht, Thread.Out]) (by simp)
  | yieldRelock ht hp hlk => exact h.take hp rfl (by simp [ht, Thread.Out]) (by simp)
  | wakeTest ht =>
    exact h.drop (by simp [ht, Thread.lockOf]) rfl (by simp [ht, Thread.Out]) (by simp) rfl rfl
      fun q hq => (rouse_sleeping hq).1
  | tidySleep ht =>
    exact h.drop (by simp [ht, Thread.lockOf]) rfl (by simp [ht, Thread.Out]) (by simp) rfl rfl
      fun q hq => hq
  | tidyYield ht =>
    exact h.drop (by simp [ht, Thread.lockOf]) rfl (by simp [ht, Thread.Out]) (by simp) rfl rfl
      fun q hq => hq
  | tidyRelock ht =>
    exact h.drop (by simp [ht, Thread.lockOf]) rfl (by simp [ht, Thread.Out]) (by simp) rfl rfl
      fun q hq => hq
  | sleepSwitch ht =>
    refine h.swtch (by simp [ht, Thread.lockOf]) rfl rfl ?_ fun q hq => ?_
    · simp [Thread.Out]
    · simp [hq]
  | yieldSwitch ht =>
    refine h.swtch (by simp [ht, Thread.lockOf]) rfl rfl ?_ fun q hq => ?_
    · simp
    · simp [hq]
  | @schedAcquire p hp =>
    refine h.sched (p := p) (by simp [hp]) (by simp) ?_ ?_ (by simp) (h.sleeping _) (by simp)
    · intro i hi
      have howner := h.owner _ i hi
      have hne : i ≠ p := fun heq => by simp [heq ▸ howner] at hp
      simpa [hne] using howner
    · intro i hi
      simp [hi]
  | @schedSwitch p r ht hp hst =>
    refine h.sched (p := p) (by simp [hp]) ?_ ?_ ?_ (by simp) (by simp) ?_
    · intro q hq
      simp [hq]
    · intro i hi
      simp only [Machine.goto_thread, Function.update_self, Thread.lockOf, Option.some.injEq] at hi
      simp [← hi]
    · intro i hi
      simp [hi]
    · intro q hq
      simp [hq]
  | @schedSkip p ht hp hst =>
    refine h.sched (p := p) (by simp [hp]) (by simp) ?_ ?_ ?_ (h.sleeping _) (by simp)
    · intro i hi
      have howner := h.owner _ i hi
      have hne : i ≠ p := fun heq => by simp [heq ▸ howner] at hp
      simpa [hne] using howner
    · intro i hi
      simp [hi]
    · intro r hr
      exact absurd hr (ht r)
  | @schedRelease p r ht =>
    have hp := h.cpu _ _ ht
    refine h.sched (p := p) (by simp [hp]) ?_ ?_ ?_ (by simp) ?_ (by simp)
    · intro q hq
      simp [hq]
    · simp [Thread.lockOf]
    · intro i hi
      simp [hi]
    · intro hs
      have hout := h.sleeping _ hs
      rw [ht] at hout
      cases r <;> simp_all [Thread.Out]
  | kkill hp => exact ⟨h.owner, h.cpu, fun q hq => h.sleeping q (kill_sleeping hq).1⟩

end Xv6.Sched
