import Xv6.Sched.Rule

/-! # Points and records

What the points of a program say about its local variables, and programs that carry a record of what
they have done.
-/
namespace Xv6.Sched
open Library

variable {n : ℕ} {D C X Λ G : Type}

/-- The same program with a record that each piece of straight-line code adds to. -/
def Act.observe (note : X → D → D → Λ → G → G) : Act D C X Λ → Act (D × G) C X Λ
  | .acquire k => .acquire k
  | .release k => .release k
  | .step f => .step fun x d => (f x d.1).map fun r => ((r.1, note x d.1 r.1 r.2 d.2), r.2)
  | .sleep c k => .sleep c k
  | .wakeup c k => .wakeup c k
  | .killed k => .killed k
  | .panic msg => .panic msg

/-- The points that follow an action other than straight-line code. -/
def Act.Leads : Act D C X Λ → Λ → Prop
  | .acquire k, k' | .release k, k' | .sleep _ k, k' | .wakeup _ k, k' => k' = k
  | .killed k, k' => ∃ b, k' = k b
  | .step _, _ | .panic _, _ => False

section
variable [DecidableEq C] {prog : Fin n → Λ → Act D C X Λ} {s s' : Machine n D C Λ}
  {I : D → Prop} {P : Λ → Prop}

def AtPoints (P : Λ → Prop) (s : Machine n D C Λ) : Prop := ∀ q, P (s.thread q).point

omit [DecidableEq C] in
theorem AtPoints.goto (h : AtPoints P s) (hs : s'.thread = s.thread) {p : Fin n}
    {t : Thread n C Λ} (ht : P t.point) : AtPoints P (s'.goto p t) := by
  intro q
  by_cases hq : q = p
  · rw [hq, Machine.goto_thread, Function.update_self]
    exact ht
  · rw [Machine.goto_thread, Function.update_of_ne hq, hs]
    exact h q

omit [DecidableEq C] in
theorem AtPoints.of_thread (h : AtPoints P s) {p : Fin n} {t : Thread n C Λ}
    (ht : s.thread p = t) : P t.point := by
  rw [← ht]
  exact h p

omit [DecidableEq C] in
theorem AtPoints.move (h : AtPoints P s) (hs : s'.thread = s.thread) {p q : Fin n}
    {t t' : Thread n C Λ} (ht : s.thread q = t) (hpoint : t'.point = t.point) :
    AtPoints P (s'.goto p t') := by
  apply h.goto hs
  rw [hpoint]
  exact h.of_thread ht

/-- What the straight-line code keeps of the data and of the points, the runs keep. -/
theorem point_reach {guard : Machine n D C Λ → Event n X → Prop} {init : Machine n D C Λ → Prop}
    (ok : X → Prop) (hguard : ∀ s p x, guard s (.proc p x) → ok x)
    (hinit : ∀ s, init s → I s.data ∧ AtPoints P s)
    (hlead : ∀ p k a k', prog p k = a → P k → a.Leads k' → P k')
    (hstep : ∀ p k f x d d' k', prog p k = .step f → P k → ok x → f x d = some (d', k') → I d →
      I d' ∧ P k')
    (h : Reach (Sched.step prog) guard init s) : I s.data ∧ AtPoints P s := by
  refine Reach.invariant (I := fun s => I s.data ∧ AtPoints P s) hinit ?_ h
  rintro s e _ s' ⟨hdata, hpoint⟩ hg hm
  cases step_cases hm with
  | acquire ht ha =>
    exact ⟨hdata, hpoint.goto rfl (hlead _ _ _ _ ha (hpoint.of_thread ht) rfl)⟩
  | release ht ha =>
    exact ⟨hdata, hpoint.goto rfl (hlead _ _ _ _ ha (hpoint.of_thread ht) rfl)⟩
  | step ht ha hf =>
    obtain ⟨hd, hk⟩ := hstep _ _ _ _ _ _ _ ha (hpoint.of_thread ht) (hguard _ _ _ hg) hf hdata
    exact ⟨hd, hpoint.goto rfl hk⟩
  | sleep ht ha =>
    exact ⟨hdata, hpoint.goto rfl (hlead _ _ _ _ ha (hpoint.of_thread ht) rfl)⟩
  | wakeup ht ha =>
    exact ⟨hdata, hpoint.goto rfl (hlead _ _ _ _ ha (hpoint.of_thread ht) rfl)⟩
  | killed ht ha =>
    exact ⟨hdata, hpoint.goto rfl (hlead _ _ _ _ ha (hpoint.of_thread ht) ⟨_, rfl⟩)⟩
  | sleepLock ht => exact ⟨hdata, hpoint.move rfl ht rfl⟩
  | sleepRelease ht => exact ⟨hdata, hpoint.move rfl ht rfl⟩
  | sleepSwitch ht => exact ⟨hdata, hpoint.move rfl ht rfl⟩
  | relock ht => exact ⟨hdata, hpoint.move rfl ht rfl⟩
  | wakeSelf ht => exact ⟨hdata, hpoint.move rfl ht rfl⟩
  | wakeLock ht => exact ⟨hdata, hpoint.move rfl ht rfl⟩
  | wakeEnd ht => exact ⟨hdata, hpoint.move rfl ht rfl⟩
  | wakeTest ht => exact ⟨hdata, hpoint.move rfl ht rfl⟩
  | yieldSwitch ht => exact ⟨hdata, hpoint.move rfl ht rfl⟩
  | tidySleep ht => exact ⟨hdata, hpoint.move rfl ht rfl⟩
  | tidyYield ht => exact ⟨hdata, hpoint.move rfl ht rfl⟩
  | tidyRelock ht => exact ⟨hdata, hpoint.move rfl ht rfl⟩
  | yieldRun ht => exact ⟨hdata, hpoint.move rfl ht rfl⟩
  | yieldRelock ht => exact ⟨hdata, hpoint.move rfl ht rfl⟩
  | schedSwitch ht => exact ⟨hdata, hpoint.move rfl ht rfl⟩
  | schedRelease ht => exact ⟨hdata, hpoint.move rfl ht rfl⟩
  | schedAcquire => exact ⟨hdata, hpoint⟩
  | schedSkip => exact ⟨hdata, hpoint⟩
  | kkill => exact ⟨hdata, hpoint⟩

end

/-! ## A record changes nothing -/

section
variable [DecidableEq C] {prog : Fin n → Λ → Act D C X Λ} {note : Λ → X → D → D → Λ → G → G}

/-- The machine without the record. -/
@[simps]
def Machine.erase (s : Machine n (D × G) C Λ) : Machine n D C Λ := { s with data := s.data.1 }

omit [DecidableEq C] in
theorem actStep_observe (s : Machine n (D × G) C Λ) (p : Fin n) (x : X) (a : Act D C X Λ)
    (f : X → D → D → Λ → G → G) :
    (actStep s p x (a.observe f)).map Machine.erase = actStep s.erase p x a := by
  cases a with
  | acquire k | release k | killed k =>
    simp only [actStep, Act.observe, Machine.erase_lk, Machine.erase_plock]
    split <;> rfl
  | step g =>
    simp only [actStep, Act.observe, Machine.erase_data]
    cases g x s.data.1 with
    | none => rfl
    | some r => rfl
  | sleep c k | wakeup c k | panic msg => rfl

theorem procStep_observe (s : Machine n (D × G) C Λ) (p : Fin n) (x : X) :
    (procStep (fun q k => (prog q k).observe (note k)) s p x).map Machine.erase =
      procStep prog s.erase p x := by
  simp only [procStep, Machine.erase_thread]
  cases s.thread p with
  | run k => exact actStep_observe s p x (prog p k) (note k)
  | sleep1 c k | sleep2 c k | relock k =>
    simp only [Machine.erase_plock, Machine.erase_lk]
    split <;> rfl
  | wake1 c i k =>
    simp only [Machine.erase_plock]
    split
    · split
      · rfl
      · split <;> rfl
    · rfl
  | resumed r => cases r <;> rfl
  | sleep3 c k | wake2 c i k | yield1 r | switched r | parked r => rfl

omit [DecidableEq C] in
theorem yieldStep_erase (s : Machine n (D × G) C Λ) (p : Fin n) :
    (yieldStep s p).map Machine.erase = yieldStep s.erase p := by
  simp only [yieldStep, Machine.erase_thread, Machine.erase_plock, Machine.erase_lk]
  split
  · cases s.thread p <;> rfl
  · rfl

omit [DecidableEq C] in
theorem schedTestStep_erase (s : Machine n (D × G) C Λ) (p : Fin n) :
    (schedTestStep s p).map Machine.erase = schedTestStep s.erase p := by
  simp only [schedTestStep, Machine.erase_thread, Machine.erase_plock, Machine.erase_state]
  split
  · split
    · cases s.thread p <;> rfl
    · cases s.thread p <;> rfl
  · rfl

omit [DecidableEq C] in
theorem schedReleaseStep_erase (s : Machine n (D × G) C Λ) (p : Fin n) :
    (schedReleaseStep s p).map Machine.erase = schedReleaseStep s.erase p := by
  simp only [schedReleaseStep, Machine.erase_thread]
  cases s.thread p <;> rfl

theorem nextState_observe (s : Machine n (D × G) C Λ) (e : Event n X) :
    (nextState (fun q k => (prog q k).observe (note k)) e s).map Machine.erase =
      nextState prog e s.erase := by
  cases e with
  | proc p x => exact procStep_observe s p x
  | yield p => exact yieldStep_erase s p
  | schedTest p => exact schedTestStep_erase s p
  | schedRelease p => exact schedReleaseStep_erase s p
  | schedAcquire p | kkill p =>
    simp only [nextState, Machine.erase_plock]
    split <;> rfl

/-- Every run of a program is a run of the program with a record. -/
theorem observe_reach {guard : Machine n D C Λ → Event n X → Prop} {init : Machine n D C Λ → Prop}
    {s : Machine n D C Λ} {init' : Machine n (D × G) C Λ → Prop}
    (hinit : ∀ s, init s → ∃ s', init' s' ∧ s'.erase = s)
    (h : Reach (Sched.step prog) guard init s) :
    ∃ s', Reach (Sched.step fun q k => (prog q k).observe (note k))
      (fun s e => guard s.erase e) init' s' ∧ s'.erase = s := by
  refine Reach.invariant (I := fun s => ∃ s', Reach _ _ init' s' ∧ s'.erase = s) ?_ ?_ h
  · intro s h0
    obtain ⟨s', h', heq⟩ := hinit s h0
    exact ⟨s', ⟨s', [], h', .nil s'⟩, heq⟩
  · rintro _ e _ s₁ ⟨s', hreach, rfl⟩ hg hm
    unfold Sched.step at hm
    rw [← nextState_observe s' e] at hm
    cases hnext : nextState (fun q k => (prog q k).observe (note k)) e s' with
    | error stop =>
      rw [hnext] at hm
      cases hm
    | ok s₂ =>
      rw [hnext] at hm
      cases hm
      refine ⟨s₂, hreach.next (r := ()) hg ?_, rfl⟩
      unfold Sched.step
      rw [hnext]
      rfl

end

end Xv6.Sched
