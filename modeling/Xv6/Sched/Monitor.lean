import Xv6.Sched.Table

/-! # A rule for condition channels

The condition of a channel may come true only in a section of `lk` that also
calls `wakeup` on it.  A program that keeps to this, and that sleeps only after
it saw the condition false, never leaves a process asleep on a true condition.
The obligations are about single points of the program; the rule turns them into
an invariant of all interleavings.
-/
namespace Xv6.Sched
open Kernel

variable {n : ℕ} {D C X Λ : Type}

/-- What the points of a program say about the data and the channels. -/
structure Spec (n : ℕ) (D C Λ : Type) where
  /-- The points between `acquire(lk)` and `release(lk)`. -/
  holds : Λ → Prop
  inv : D → Prop
  /-- What only the process itself can change. -/
  own : Fin n → Λ → D → Prop
  /-- What holds as long as the process keeps `lk`. -/
  seen : Fin n → Λ → D → Prop
  /-- What the sleepers of a channel wait for. -/
  ready : C → D → Prop
  /-- The process still has to call `wakeup` before it gives `lk` up. -/
  owes : Fin n → Λ → C → Prop
  /-- The process has called `wakeup` since it took `lk`. -/
  cleared : Fin n → Λ → C → Prop
  /-- The process is known not to be killed. -/
  calm : Fin n → Λ → Prop

namespace Spec

/-- A point where a process stands right after it took `lk`. -/
structure Entry (S : Spec n D C Λ) (p : Fin n) (k : Λ) : Prop where
  holds : S.holds k
  cleared : ∀ c, ¬ S.cleared p k c
  calm : ¬ S.calm p k
  seen : ∀ d, S.inv d → S.own p k d → S.seen p k d

/-- What a step of straight-line code must keep. -/
structure StepSound (S : Spec n D C Λ) (p : Fin n) (k k' : Λ) (d d' : D) : Prop where
  holds : S.holds k' ↔ S.holds k
  calm : S.calm p k' → S.calm p k
  inv : S.inv d'
  own : S.own p k' d'
  seen : S.holds k' → S.seen p k' d'
  cleared : ∀ c, S.cleared p k' c → S.cleared p k c
  ready : S.holds k → ∀ c, S.ready c d' →
    S.owes p k' c ∨ S.cleared p k c ∨ (S.ready c d ∧ ¬ S.owes p k c)
  ready_free : ¬ S.holds k → ∀ c, S.ready c d' → S.ready c d
  own_other : ∀ q j, q ≠ p → S.own q j d → S.own q j d'
  seen_other : ¬ S.holds k → ∀ q j, q ≠ p → S.own q j d → S.seen q j d → S.seen q j d'

/-- A step that only looks at the data. -/
theorem StepSound.same {S : Spec n D C Λ} {p : Fin n} {k k' : Λ} {d : D} (hinv : S.inv d)
    (hholds : S.holds k' ↔ S.holds k) (hcalm : S.calm p k' → S.calm p k) (hown : S.own p k' d)
    (hseen : S.holds k' → S.seen p k' d) (hcleared : ∀ c, S.cleared p k' c → S.cleared p k c)
    (howes : ∀ c, S.owes p k c → S.owes p k' c) : S.StepSound p k k' d d where
  holds := hholds
  calm := hcalm
  inv := hinv
  own := hown
  seen := hseen
  cleared := hcleared
  ready _ c hr := by
    by_cases h : S.owes p k c
    · exact Or.inl (howes c h)
    · exact Or.inr (Or.inr ⟨hr, h⟩)
  ready_free _ _ hr := hr
  own_other _ _ _ h := h
  seen_other _ _ _ _ _ h := h

/-- The obligation at a point of the program, by what the process does there. -/
def ActSound (S : Spec n D C Λ) (p : Fin n) (k : Λ) : Act D C X Λ → Prop
  | .acquire k' =>
    ¬ S.holds k ∧ S.Entry p k' ∧ ∀ d, S.inv d → S.own p k d → S.own p k' d
  | .release k' =>
    S.holds k ∧ ¬ S.holds k' ∧ (∀ c, ¬ S.owes p k c) ∧
      ∀ d, S.inv d → S.own p k d → S.seen p k d → S.own p k' d
  | .step f =>
    ∀ x d d' k', f x d = some (d', k') → S.inv d → S.own p k d →
      (S.holds k → S.seen p k d) → S.StepSound p k k' d d'
  | .sleep c k' =>
    S.holds k ∧ S.Entry p k' ∧ (∀ c', ¬ S.owes p k c') ∧
      ∀ d, S.inv d → S.own p k d → S.seen p k d → ¬ S.ready c d ∧ S.own p k' d
  | .wakeup c k' =>
    S.holds k ∧ S.holds k' ∧ (∀ c', S.owes p k c' → S.owes p k' c' ∨ c' = c) ∧
      (∀ c', S.cleared p k' c' → S.cleared p k c' ∨ c' = c) ∧ (S.calm p k' → S.calm p k) ∧
      ∀ d, S.inv d → S.own p k d → S.seen p k d → S.own p k' d ∧ S.seen p k' d
  | .killed k' =>
    ∀ b, (b = true → ¬ S.calm p k) →
      (S.holds (k' b) ↔ S.holds k) ∧ (∀ c, S.owes p k c → S.owes p (k' b) c) ∧
      (∀ c, S.cleared p (k' b) c → S.cleared p k c) ∧ (S.calm p (k' b) → b = false) ∧
      ∀ d, S.inv d → S.own p k d → (S.holds k → S.seen p k d) →
        S.own p (k' b) d ∧ (S.holds (k' b) → S.seen p (k' b) d)
  | .panic _ => True

/-- A program that meets every obligation. -/
structure Sound (S : Spec n D C Λ) (prog : Fin n → Λ → Act D C X Λ) : Prop where
  act : ∀ p k, S.ActSound p k (prog p k)
  calm : ∀ p k, S.calm p k → S.holds k

/-- A program whose points rule a panic out. -/
def Safe (S : Spec n D C Λ) (prog : Fin n → Λ → Act D C X Λ) (msg : String) : Prop :=
  ∀ p k, prog p k = .panic msg →
    ∀ d, S.inv d → S.own p k d → (S.holds k → S.seen p k d) → False

end Spec

section Points

/-- The point of the program at which a process goes on. -/
def Resume.point : Resume Λ → Λ
  | .slept k | .yielded k | .relocking k => k

def Thread.point : Thread n C Λ → Λ
  | .run k | .sleep1 _ k | .sleep2 _ k | .sleep3 _ k | .relock k | .wake1 _ _ k
  | .wake2 _ _ k => k
  | .yield1 r | .switched r | .parked r | .resumed r => r.point

variable (S : Spec n D C Λ) (p : Fin n)

def Spec.Holder : Thread n C Λ → Prop
  | .run k | .wake1 _ _ k | .wake2 _ _ k => S.holds k
  | .sleep1 _ _ | .sleep2 _ _ => True
  | _ => False

def Spec.ShapeResume : Resume Λ → Prop
  | .slept k | .relocking k => S.Entry p k
  | .yielded k => ¬ S.holds k

/-- Which points a process outside its program can go on at. -/
def Spec.Shape : Thread n C Λ → Prop
  | .run _ => True
  | .sleep1 _ k | .sleep2 _ k | .sleep3 _ k | .relock k => S.Entry p k
  | .wake1 _ _ k | .wake2 _ _ k => S.holds k
  | .yield1 r | .switched r | .parked r | .resumed r => S.ShapeResume p r

def Spec.Seen (d : D) : Thread n C Λ → Prop
  | .run k | .wake1 _ _ k | .wake2 _ _ k => S.holds k → S.seen p k d
  | .sleep1 c _ | .sleep2 c _ => ¬ S.ready c d
  | _ => True

/-- The process will still wake process `q` if that sleeps on `c`. -/
def Spec.Pending (c : C) (q : Fin n) : Thread n C Λ → Prop
  | .run k => S.owes p k c
  | .wake1 c' i k => S.owes p k c ∨ (c = c' ∧ i ≤ q)
  | .wake2 c' i k => S.owes p k c ∨ (c = c' ∧ i ≤ q)
  | _ => False

/-- The process has passed process `q` in a `wakeup` on `c` since it took `lk`. -/
def Spec.Awake (c : C) (q : Fin n) : Thread n C Λ → Prop
  | .run k => S.holds k ∧ S.cleared p k c
  | .wake1 c' i k => (c = c' ∧ q.val < i) ∨ (c ≠ c' ∧ S.cleared p k c)
  | .wake2 c' i k => (c = c' ∧ q < i) ∨ (c ≠ c' ∧ S.cleared p k c)
  | _ => False

def Spec.Calm : Thread n C Λ → Prop
  | .run k | .wake1 _ _ k | .wake2 _ _ k => S.calm p k
  | _ => False

end Points

/-- Asleep on a channel, or past the point of `sleep` where it can still notice. -/
def Machine.Drowsy (s : Machine n D C Λ) (q : Fin n) (c : C) : Prop :=
  (∃ k, s.thread q = .sleep3 c k) ∨ (s.state q = .sleeping ∧ s.chan q = some c)

/-- The invariant of a sound program. -/
structure Good (S : Spec n D C Λ) (s : Machine n D C Λ) : Prop where
  table : Table s
  lk : ∀ p, s.lk = some p ↔ S.Holder (s.thread p)
  shape : ∀ p, S.Shape p (s.thread p)
  inv : S.inv s.data
  own : ∀ p, S.own p (s.thread p).point s.data
  seen : ∀ p, S.Seen p s.data (s.thread p)
  pending : ∀ q c, s.Drowsy q c → S.ready c s.data →
    ∃ h, s.lk = some h ∧ S.Pending h c q (s.thread h)
  awake : ∀ h q c, S.Awake h c q (s.thread h) → ¬ s.Drowsy q c
  calm : ∀ p, S.Calm p (s.thread p) → s.killed p = false

section Moves

variable {S : Spec n D C Λ} {s s' : Machine n D C Λ} {p : Fin n}

theorem Spec.seen_of_free {d : D} {t : Thread n C Λ} (h : ¬ S.Holder t) : S.Seen p d t := by
  cases t with
  | run k => exact fun hk => absurd hk h
  | wake1 c i k => exact fun hk => absurd hk h
  | wake2 c i k => exact fun hk => absurd hk h
  | sleep1 c k => exact absurd trivial h
  | sleep2 c k => exact absurd trivial h
  | _ => trivial

theorem Spec.not_awake_of_free {c : C} {q : Fin n} {t : Thread n C Λ} (h : ¬ S.Holder t)
    (hshape : S.Shape p t) : ¬ S.Awake p c q t := by
  cases t with
  | run k => exact fun hk => h hk.1
  | wake1 c i k => exact absurd hshape h
  | wake2 c i k => exact absurd hshape h
  | _ => exact id

theorem Spec.not_calm_of_free (hcalm : ∀ p k, S.calm p k → S.holds k) {t : Thread n C Λ}
    (h : ¬ S.Holder t) : ¬ S.Calm p t := by
  cases t with
  | run k => exact fun hk => h (hcalm p k hk)
  | wake1 c i k => exact fun hk => h (hcalm p k hk)
  | wake2 c i k => exact fun hk => h (hcalm p k hk)
  | _ => exact id

theorem Good.free_of_ne (h : Good S s) (hp : S.Holder (s.thread p)) {q : Fin n} (hq : q ≠ p) :
    ¬ S.Holder (s.thread q) := by
  intro hh
  have h1 := (h.lk p).2 hp
  have h2 := (h.lk q).2 hh
  rw [h1] at h2
  exact hq (Option.some.inj h2).symm

/-- A process without `lk` moves, and nobody falls asleep. -/
theorem Good.quiet (h : Good S s) (hcalm : ∀ p k, S.calm p k → S.holds k) (htable : Table s')
    (hthread : ∀ q, q ≠ p → s'.thread q = s.thread q) (hdata : s'.data = s.data)
    (hlk : s'.lk = s.lk) (hkilled : s'.killed = s.killed)
    (hpoint : S.own p (s'.thread p).point s.data)
    (hfree : ¬ S.Holder (s.thread p)) (hfree' : ¬ S.Holder (s'.thread p))
    (hshape : S.Shape p (s'.thread p)) (hdrowsy : ∀ q c, s'.Drowsy q c → s.Drowsy q c) :
    Good S s' where
  table := htable
  lk q := by
    by_cases hq : q = p
    · subst hq
      simp only [hfree', iff_false]
      rw [hlk, h.lk]
      exact hfree
    · rw [hlk, h.lk, hthread q hq]
  shape q := by
    by_cases hq : q = p
    · exact hq ▸ hshape
    · rw [hthread q hq]
      exact h.shape q
  inv := hdata ▸ h.inv
  own q := by
    rw [hdata]
    by_cases hq : q = p
    · subst hq
      exact hpoint
    · rw [hthread q hq]
      exact h.own q
  seen q := by
    by_cases hq : q = p
    · subst hq
      exact Spec.seen_of_free hfree'
    · rw [hthread q hq, hdata]
      exact h.seen q
  pending q c hd hr := by
    obtain ⟨u, hu, hpend⟩ := h.pending q c (hdrowsy q c hd) (hdata ▸ hr)
    have hne : u ≠ p := by
      rintro rfl
      exact hfree ((h.lk u).1 hu)
    exact ⟨u, hlk ▸ hu, by rwa [hthread u hne]⟩
  awake u q c ha hd := by
    by_cases hu : u = p
    · subst hu
      exact Spec.not_awake_of_free hfree' hshape ha
    · rw [hthread u hu] at ha
      exact h.awake u q c ha (hdrowsy q c hd)
  calm q hq := by
    by_cases hp : q = p
    · subst hp
      exact absurd hq (Spec.not_calm_of_free hcalm hfree')
    · rw [hthread q hp] at hq
      rw [hkilled]
      exact h.calm q hq

theorem Good.hold (h : Good S s) (htable : Table s')
    (hthread : ∀ q, q ≠ p → s'.thread q = s.thread q) (hdata : s'.data = s.data)
    (hlk : s'.lk = s.lk) (hkilled : s'.killed = s.killed)
    (hpoint : S.own p (s'.thread p).point s.data)
    (hold : S.Holder (s.thread p)) (hold' : S.Holder (s'.thread p))
    (hshape : S.Shape p (s'.thread p)) (hseen : S.Seen p s.data (s'.thread p))
    (hdrowsy : ∀ q c, s'.Drowsy q c → s.Drowsy q c)
    (hpending : ∀ q c, s'.Drowsy q c → S.ready c s.data → S.Pending p c q (s.thread p) →
      S.Pending p c q (s'.thread p))
    (hawake : ∀ q c, S.Awake p c q (s'.thread p) → s'.Drowsy q c → S.Awake p c q (s.thread p))
    (hcalm : S.Calm p (s'.thread p) → s.killed p = false) : Good S s' where
  table := htable
  lk q := by
    by_cases hq : q = p
    · subst hq
      simp only [hold', iff_true]
      rw [hlk, h.lk]
      exact hold
    · rw [hlk, h.lk, hthread q hq]
  shape q := by
    by_cases hq : q = p
    · exact hq ▸ hshape
    · rw [hthread q hq]
      exact h.shape q
  inv := hdata ▸ h.inv
  own q := by
    rw [hdata]
    by_cases hq : q = p
    · subst hq
      exact hpoint
    · rw [hthread q hq]
      exact h.own q
  seen q := by
    rw [hdata]
    by_cases hq : q = p
    · subst hq
      exact hseen
    · rw [hthread q hq]
      exact h.seen q
  pending q c hd hr := by
    rw [hdata] at hr
    obtain ⟨u, hu, hpend⟩ := h.pending q c (hdrowsy q c hd) hr
    have hup : u = p := by
      have hp := (h.lk p).2 hold
      rw [hu] at hp
      exact Option.some.inj hp
    subst hup
    exact ⟨u, hlk ▸ hu, hpending q c hd hr hpend⟩
  awake u q c ha hd := by
    by_cases hu : u = p
    · subst hu
      exact h.awake u q c (hawake q c ha hd) (hdrowsy q c hd)
    · rw [hthread u hu] at ha
      exact h.awake u q c ha (hdrowsy q c hd)
  calm q hq := by
    rw [hkilled]
    by_cases hp : q = p
    · subst hp
      exact hcalm hq
    · rw [hthread q hp] at hq
      exact h.calm q hq

theorem Good.give (h : Good S s) (hcalm : ∀ p k, S.calm p k → S.holds k) (htable : Table s')
    (hthread : ∀ q, q ≠ p → s'.thread q = s.thread q) (hdata : s'.data = s.data)
    (hlk : s'.lk = none) (hpoint : S.own p (s'.thread p).point s.data) (hold : S.Holder (s.thread p)) (hfree : ¬ S.Holder (s'.thread p))
    (hshape : S.Shape p (s'.thread p)) (hpending : ∀ q c, ¬ S.Pending p c q (s.thread p))
    (hdrowsy : ∀ q c, s'.Drowsy q c → s.Drowsy q c ∨ ¬ S.ready c s.data) : Good S s' := by
  have hfree' : ∀ q, ¬ S.Holder (s'.thread q) := by
    intro q
    by_cases hq : q = p
    · exact hq ▸ hfree
    · rw [hthread q hq]
      exact h.free_of_ne hold hq
  have hshape' : ∀ q, S.Shape q (s'.thread q) := by
    intro q
    by_cases hq : q = p
    · exact hq ▸ hshape
    · rw [hthread q hq]
      exact h.shape q
  have hown : ∀ q, S.own q (s'.thread q).point s.data := by
    intro q
    by_cases hq : q = p
    · subst hq
      exact hpoint
    · rw [hthread q hq]
      exact h.own q
  -- whoever is drowsy waits for a condition that is still false
  have hnot : ∀ q c, s'.Drowsy q c → ¬ S.ready c s.data := by
    intro q c hd hr
    rcases hdrowsy q c hd with hd | hd
    · obtain ⟨u, hu, hpend⟩ := h.pending q c hd hr
      have hp := (h.lk p).2 hold
      rw [hu] at hp
      cases hp
      exact hpending q c hpend
    · exact hd hr
  exact
    { table := htable
      lk := fun q => by simp [hlk, hfree' q]
      shape := hshape'
      inv := hdata ▸ h.inv
      own := fun q => hdata ▸ hown q
      seen := fun q => Spec.seen_of_free (hfree' q)
      pending := fun q c hd hr => absurd (hdata ▸ hr) (hnot q c hd)
      awake := fun u q c ha => absurd ha (Spec.not_awake_of_free (hfree' u) (hshape' u))
      calm := fun q hq => absurd hq (Spec.not_calm_of_free hcalm (hfree' q)) }

theorem Good.enter (h : Good S s) (hcalm : ∀ p k, S.calm p k → S.holds k) (htable : Table s')
    {k : Λ} (hlk : s.lk = none) (hlk' : s'.lk = some p)
    (hthread : s'.thread = Function.update s.thread p (.run k)) (hdata : s'.data = s.data)
    (hpoint : S.own p k s.data) (hentry : S.Entry p k)
    (hdrowsy : ∀ q c, s'.Drowsy q c → s.Drowsy q c) : Good S s' := by
  have hfree : ∀ q, ¬ S.Holder (s.thread q) := by
    intro q hq
    have := (h.lk q).2 hq
    simp [hlk] at this
  have hself : s'.thread p = .run k := by rw [hthread, Function.update_self]
  have hother : ∀ q, q ≠ p → s'.thread q = s.thread q := fun q hq => by
    rw [hthread, Function.update_of_ne hq]
  constructor
  case table => exact htable
  case inv => exact hdata ▸ h.inv
  case lk =>
    intro q
    by_cases hq : q = p
    · subst hq
      simp [hlk', hself, Spec.Holder, hentry.holds]
    · rw [hother q hq, hlk']
      simp [hfree q, Ne.symm hq]
  case shape =>
    intro q
    by_cases hq : q = p
    · subst hq
      rw [hself]
      trivial
    · rw [hother q hq]
      exact h.shape q
  case own =>
    intro q
    rw [hdata]
    by_cases hq : q = p
    · subst hq
      rw [hself]
      exact hpoint
    · rw [hother q hq]
      exact h.own q
  case seen =>
    intro q
    rw [hdata]
    by_cases hq : q = p
    · subst hq
      rw [hself]
      exact fun _ => hentry.seen _ h.inv hpoint
    · rw [hother q hq]
      exact h.seen q
  case pending =>
    intro q c hd hr
    obtain ⟨u, hu, -⟩ := h.pending q c (hdrowsy q c hd) (hdata ▸ hr)
    simp [hlk] at hu
  case awake =>
    intro u q c ha hd
    by_cases hu : u = p
    · subst hu
      rw [hself] at ha
      exact hentry.cleared c ha.2
    · rw [hother u hu] at ha
      exact Spec.not_awake_of_free (hfree u) (h.shape u) ha
  case calm =>
    intro q hq
    by_cases hp : q = p
    · subst hp
      rw [hself] at hq
      exact absurd hq hentry.calm
    · rw [hother q hp] at hq
      exact absurd hq (Spec.not_calm_of_free hcalm (hfree q))

/-- Nobody falls asleep in a step that puts no process into state `SLEEPING`. -/
theorem Machine.Drowsy.of_le {q : Fin n} {c : C} (hd : s'.Drowsy q c)
    (hthread : ∀ q, q ≠ p → s'.thread q = s.thread q) (hp : ∀ c k, s'.thread p ≠ .sleep3 c k)
    (hstate : s'.state q = .sleeping → s.state q = .sleeping ∧ s'.chan q = s.chan q) :
    s.Drowsy q c := by
  rcases hd with ⟨k, hk⟩ | ⟨hs, hc⟩
  · have hq : q ≠ p := by
      rintro rfl
      exact hp c k hk
    exact Or.inl ⟨k, by rwa [hthread q hq] at hk⟩
  · have h := hstate hs
    exact Or.inr ⟨h.1, by rwa [h.2] at hc⟩

/-- Straight-line code changes the data. -/
theorem Good.step (h : Good S s) {k k' : Λ} {d : D}
    (ht : s.thread p = .run k) (hstep : S.StepSound p k k' s.data d)
    (htable : Table ({ s with data := d }.goto p (.run k'))) :
    Good S ({ s with data := d }.goto p (.run k')) := by
  have hself : ({ s with data := d }.goto p (.run k')).thread p = .run k' := by simp
  have hother : ∀ q, q ≠ p → ({ s with data := d }.goto p (.run k')).thread q = s.thread q :=
    fun q hq => by simp [hq]
  have hd : ∀ q c, ({ s with data := d }.goto p (.run k')).Drowsy q c → s.Drowsy q c :=
    fun q c hd => hd.of_le hother (by simp) fun hs => ⟨hs, rfl⟩
  have hholder : S.Holder (s.thread p) ↔ S.holds k := by simp [ht, Spec.Holder]
  have hown : S.own p k s.data := by simpa [ht, Thread.point] using h.own p
  constructor
  case table => exact htable
  case inv => exact hstep.inv
  case lk =>
    intro q
    by_cases hq : q = p
    · subst hq
      rw [hself]
      exact (h.lk q).trans (hholder.trans hstep.holds.symm)
    · rw [hother q hq]
      exact h.lk q
  case shape =>
    intro q
    by_cases hq : q = p
    · subst hq
      rw [hself]
      trivial
    · rw [hother q hq]
      exact h.shape q
  case own =>
    intro q
    by_cases hq : q = p
    · subst hq
      rw [hself]
      exact hstep.own
    · rw [hother q hq]
      exact hstep.own_other q _ hq (h.own q)
  case seen =>
    intro q
    by_cases hq : q = p
    · subst hq
      rw [hself]
      exact hstep.seen
    · rw [hother q hq]
      by_cases hk : S.holds k
      · exact Spec.seen_of_free (h.free_of_ne (hholder.2 hk) hq)
      · have hs := h.seen q
        have ho := h.own q
        cases htq : s.thread q with
        | run j =>
          rw [htq] at hs ho
          exact fun hj => hstep.seen_other hk q j hq ho (hs hj)
        | wake1 c i j =>
          rw [htq] at hs ho
          exact fun hj => hstep.seen_other hk q j hq ho (hs hj)
        | wake2 c i j =>
          rw [htq] at hs ho
          exact fun hj => hstep.seen_other hk q j hq ho (hs hj)
        | sleep1 c j =>
          rw [htq] at hs
          exact fun hr => hs (hstep.ready_free hk c hr)
        | sleep2 c j =>
          rw [htq] at hs
          exact fun hr => hs (hstep.ready_free hk c hr)
        | _ => trivial
  case pending =>
    intro q c hdq hr
    by_cases hk : S.holds k
    · -- the condition is new, and then a wakeup is due or was made; or somebody owed it before
      have hlk := (h.lk p).2 (hholder.2 hk)
      rcases hstep.ready hk c hr with howes | hcl | ⟨hr0, howes⟩
      · exact ⟨p, hlk, by rwa [hself]⟩
      · exact absurd (hd q c hdq) (h.awake p q c (by rw [ht]; exact ⟨hk, hcl⟩))
      · obtain ⟨u, hu, hpend⟩ := h.pending q c (hd q c hdq) hr0
        rw [hlk] at hu
        cases hu
        rw [ht] at hpend
        exact absurd hpend howes
    · obtain ⟨u, hu, hpend⟩ := h.pending q c (hd q c hdq) (hstep.ready_free hk c hr)
      have hne : u ≠ p := by
        rintro rfl
        exact hk (hholder.1 ((h.lk u).1 hu))
      exact ⟨u, hu, by rwa [hother u hne]⟩
  case awake =>
    intro u q c ha hdq
    by_cases hu : u = p
    · subst hu
      rw [hself] at ha
      refine h.awake u q c ?_ (hd q c hdq)
      rw [ht]
      exact ⟨hstep.holds.1 ha.1, hstep.cleared c ha.2⟩
    · rw [hother u hu] at ha
      exact h.awake u q c ha (hd q c hdq)
  case calm =>
    intro q hq
    by_cases hp : q = p
    · subst hp
      rw [hself] at hq
      exact h.calm q (by rw [ht]; exact hstep.calm hq)
    · rw [hother q hp] at hq
      exact h.calm q hq

theorem Good.kill (h : Good S s) (htable : Table (s.kill p)) (hcalm : ¬ S.Calm p (s.thread p)) :
    Good S (s.kill p) where
  table := htable
  lk := h.lk
  shape := h.shape
  inv := h.inv
  own := h.own
  seen := h.seen
  pending q c hd hr := by
    refine h.pending q c ?_ hr
    rcases hd with hk | ⟨hs, hc⟩
    · exact Or.inl hk
    · exact Or.inr ⟨(kill_sleeping hs).1, hc⟩
  awake u q c ha hd := by
    refine h.awake u q c ha ?_
    rcases hd with hk | ⟨hs, hc⟩
    · exact Or.inl hk
    · exact Or.inr ⟨(kill_sleeping hs).1, hc⟩
  calm q hq := by
    have hne : q ≠ p := by
      rintro rfl
      exact hcalm hq
    simpa [hne] using h.calm q hq

end Moves

end Xv6.Sched
