import Xv6.Proc.Ledger

/-! # Parents and children

Every parent lives, every process but the first has a parent, and nobody sleeps
in `kwait` beside an exited child.  The obligations of the rule for condition
channels at the points of `kfork`, `kexit` and `kwait` carry this through all
interleavings.
-/
namespace Xv6.Proc
open Library Sched

variable {n : ℕ} {initproc : Fin n} {t t' : ProcTable n}

structure Family (initproc : Fin n) (t : ProcTable n) : Prop where
  init_live : t.life initproc = .live
  parent_live : ∀ i q, t.parent i = some q → t.life q = .live
  parented : ∀ i, i ≠ initproc → t.life i = .live ∨ t.life i = .zombie → ∃ q, t.parent i = some q

namespace Family

variable (h : Family initproc t)
include h

theorem alloc (p : Fin n) {np : Fin n} (hnp : t.life np = .unused) :
    Family initproc (t.alloc p np) := by
  have hlive : ∀ i, t.life i = .live → (t.alloc p np).life i = .live := by
    intro i hi
    have hne : i ≠ np := by
      rintro rfl
      simp [hnp] at hi
    simpa [hne] using hi
  refine ⟨hlive _ h.init_live, fun i q hq => hlive q (h.parent_live i q hq), ?_⟩
  intro i hi hlife
  have hne : i ≠ np := by
    rintro rfl
    simp at hlife
  exact h.parented i hi (by simpa [hne] using hlife)

theorem allocFail : Family initproc t.allocFail := ⟨h.init_live, h.parent_live, h.parented⟩

theorem setParent (pp : Fin n) {q : Fin n} (hq : t.life q = .live) :
    Family initproc (t.setParent pp q) := by
  refine ⟨h.init_live, ?_, ?_⟩
  · intro i q' hq'
    by_cases hi : i = pp
    · subst hi
      simp only [ProcTable.setParent_parent, Function.update_self, Option.some.injEq] at hq'
      exact hq' ▸ hq
    · simp only [ProcTable.setParent_parent, Function.update_of_ne hi] at hq'
      exact h.parent_live i q' hq'
  · intro i hi hlife
    by_cases hip : i = pp
    · exact ⟨q, by simp [hip]⟩
    · simpa [hip] using h.parented i hi hlife

theorem start {np p : Fin n} (hparent : t.parent np = some p) :
    Family initproc (t.start np) := by
  have hlive : ∀ i, t.life i = .live → (t.start np).life i = .live := by
    intro i hi
    by_cases hin : i = np
    · simp [hin]
    · simpa [hin] using hi
  refine ⟨hlive _ h.init_live, fun i q hq => hlive q (h.parent_live i q hq), ?_⟩
  intro i hi hlife
  by_cases hin : i = np
  · exact ⟨p, by simpa [hin] using hparent⟩
  · exact h.parented i hi (by simpa [hin] using hlife)

/-- A process without children may become a zombie. -/
theorem exit {p : Fin n} (hp : t.life p = .live) (hinit : p ≠ initproc)
    (hkids : ∀ i, t.parent i ≠ some p) (status : ℤ) : Family initproc (t.exit p status) := by
  refine ⟨?_, ?_, ?_⟩
  · simpa [hinit.symm] using h.init_live
  · intro i q hq
    have hne : q ≠ p := by
      rintro rfl
      exact hkids i hq
    simpa [hne] using h.parent_live i q hq
  · intro i hi hlife
    by_cases hip : i = p
    · exact h.parented i hi (Or.inl (hip ▸ hp))
    · exact h.parented i hi (by simpa [hip] using hlife)

theorem reap (p : Fin n) {pp : Fin n} (hpp : t.life pp = .zombie) :
    Family initproc (t.reap p pp) := by
  have hlive : ∀ i, t.life i = .live → (t.reap p pp).life i = .live := by
    intro i hi
    have hne : i ≠ pp := by
      rintro rfl
      simp [hpp] at hi
    simpa [hne] using hi
  refine ⟨hlive _ h.init_live, ?_, ?_⟩
  · intro i q hq
    have hne : i ≠ pp := by
      rintro rfl
      simp at hq
    exact hlive q (h.parent_live i q (by simpa [hne] using hq))
  · intro i hi hlife
    have hne : i ≠ pp := by
      rintro rfl
      simp at hlife
    simpa [hne] using h.parented i hi (by simpa [hne] using hlife)

end Family

theorem Family.boot (initproc : Fin n) : Family initproc (.boot initproc) := by
  refine ⟨by simp [ProcTable.boot], by simp [ProcTable.boot], ?_⟩
  intro i hi hlife
  simp [ProcTable.boot, hi] at hlife

section Points

/-- What a process knows of its own slot and of the slot it is filling. -/
def Own (initproc p : Fin n) (t : ProcTable n) : Point n → Prop
  | .absent | .exitUnlock => True
  | .user | .kexit _ | .kwait | .scan | .waitKilled | .waitSleep | .unlock _ => t.life p = .live
  | .forkLock np | .forkParent np =>
    t.life p = .live ∧ t.life np = .used ∧ t.maker np = some p
  | .forkUnlock np | .forkStart np =>
    t.life p = .live ∧ t.life np = .used ∧ t.maker np = some p ∧ t.parent np = some p
  | .reparent _ _ | .reparentWake _ _ | .exitWake _ _ | .exitZombie _ _ =>
    t.life p = .live ∧ p ≠ initproc

/-- What a process has established under `wait_lock`. -/
def Established (p : Fin n) (t : ProcTable n) : Point n → Prop
  | .reparent i _ => ∀ j, j.val < i → t.parent j ≠ some p
  | .reparentWake i _ => ∀ j, j.val < i + 1 → t.parent j ≠ some p
  | .exitWake _ q => (∀ j, t.parent j ≠ some p) ∧ t.parent p = some q
  | .exitZombie _ q => (∀ j, t.parent j ≠ some p) ∧ t.parent p = q
  | .waitKilled | .waitSleep => ∀ j, t.parent j = some p → t.life j ≠ .zombie
  | _ => True

def Unlocked : Point n → Prop
  | .absent | .user | .forkLock _ | .forkStart _ | .kexit _ | .kwait => True
  | _ => False

def HasZombie (t : ProcTable n) (q : Fin n) : Prop := ∃ i, t.parent i = some q ∧ t.life i = .zombie

def lifeSpec (initproc : Fin n) : Spec n (ProcTable n) (Fin n) (Point n) where
  holds k := ¬ Unlocked k
  inv t := Family initproc t ∧ Ledger t
  own p k t := Own initproc p t k
  seen p k t := Established p t k
  ready q t := HasZombie t q
  owes _ k c := ∃ i status, k = .reparentWake i status ∧ c = initproc
  cleared _ k c := ∃ status, k = .exitZombie status (some c)
  calm _ _ := False

theorem Own.mono {p q : Fin n} {k : Point n} (h : Own initproc q t k) (hq : q ≠ p)
    (hlive : ∀ i, i ≠ p → t.life i = .live → t'.life i = .live)
    (hmade : ∀ np r, r ≠ p → t.maker np = some r → t.life np = .used →
      t'.life np = .used ∧ t'.maker np = some r ∧ (t.parent np = some r → t'.parent np = some r)) :
    Own initproc q t' k := by
  cases k with
  | forkLock np =>
    obtain ⟨h1, h2, -⟩ := hmade np q hq h.2.2 h.2.1
    exact ⟨hlive q hq h.1, h1, h2⟩
  | forkParent np =>
    obtain ⟨h1, h2, -⟩ := hmade np q hq h.2.2 h.2.1
    exact ⟨hlive q hq h.1, h1, h2⟩
  | forkUnlock np =>
    obtain ⟨h1, h2, h3⟩ := hmade np q hq h.2.2.1 h.2.1
    exact ⟨hlive q hq h.1, h1, h2, h3 h.2.2.2⟩
  | forkStart np =>
    obtain ⟨h1, h2, h3⟩ := hmade np q hq h.2.2.1 h.2.1
    exact ⟨hlive q hq h.1, h1, h2, h3 h.2.2.2⟩
  | reparent i status => exact ⟨hlive q hq h.1, h.2⟩
  | reparentWake i status => exact ⟨hlive q hq h.1, h.2⟩
  | exitWake status r => exact ⟨hlive q hq h.1, h.2⟩
  | exitZombie status r => exact ⟨hlive q hq h.1, h.2⟩
  | absent => trivial
  | exitUnlock => trivial
  | _ => exact hlive q hq h

theorem Established.mono {q : Fin n} {k : Point n} (h : Established q t k)
    (hparent : t'.parent = t.parent) (hlife : ∀ i, t'.life i = .zombie → t.life i = .zombie) :
    Established q t' k := by
  cases k with
  | reparent i status => exact fun j hj => hparent ▸ h j hj
  | reparentWake i status => exact fun j hj => hparent ▸ h j hj
  | exitWake status r => exact ⟨fun j => hparent ▸ h.1 j, hparent ▸ h.2⟩
  | exitZombie status r => exact ⟨fun j => hparent ▸ h.1 j, hparent ▸ h.2⟩
  | waitKilled => exact fun j hj hz => h j (hparent ▸ hj) (hlife j hz)
  | waitSleep => exact fun j hj hz => h j (hparent ▸ hj) (hlife j hz)
  | _ => trivial

/-- A section under a `p->lock` alone: it leaves parents and zombies as they are. -/
theorem free_sound {p : Fin n} {k k' : Point n} (hk : Unlocked k) (hk' : Unlocked k')
    (hinv : Family initproc t' ∧ Ledger t') (hown : Own initproc p t' k')
    (hparent : t'.parent = t.parent) (hzombie : ∀ i, t'.life i = .zombie → t.life i = .zombie)
    (hlive : ∀ i, i ≠ p → t.life i = .live → t'.life i = .live)
    (hmade : ∀ np r, r ≠ p → t.maker np = some r → t.life np = .used →
      t'.life np = .used ∧ t'.maker np = some r) :
    (lifeSpec initproc).StepSound p k k' t t' where
  holds := not_congr (iff_of_true hk' hk)
  calm := id
  inv := hinv
  own := hown
  seen h := absurd hk' h
  cleared c := by
    rintro ⟨status, rfl⟩
    exact hk'.elim
  ready h := absurd hk h
  ready_free _ c := by
    rintro ⟨i, hi, hz⟩
    exact ⟨i, hparent ▸ hi, hzombie i hz⟩
  own_other q j hq h := by
    refine h.mono hq hlive fun np r hr hm hu => ?_
    obtain ⟨h1, h2⟩ := hmade np r hr hm hu
    exact ⟨h1, h2, fun hp => by rw [hparent, hp]⟩
  seen_other _ q j _ _ h := h.mono hparent hzombie

/-- A step under `wait_lock`: where a parent gets an exited child, a wakeup is due
or has been made. -/
theorem locked_sound {p : Fin n} {k k' : Point n} (hk : ¬ Unlocked k) (hk' : ¬ Unlocked k')
    (hinv : Family initproc t' ∧ Ledger t') (hown : Own initproc p t' k')
    (hseen : Established p t' k') (hlast : ∀ status q, k' ≠ .exitZombie status (some q))
    (hready : ∀ q, HasZombie t' q → (lifeSpec initproc).owes p k' q ∨
      (lifeSpec initproc).cleared p k q ∨ HasZombie t q ∧ ∀ i status, k ≠ .reparentWake i status)
    (hlive : ∀ i, i ≠ p → t.life i = .live → t'.life i = .live)
    (hmade : ∀ np r, r ≠ p → t.maker np = some r → t.life np = .used →
      t'.life np = .used ∧ t'.maker np = some r ∧ (t.parent np = some r → t'.parent np = some r)) :
    (lifeSpec initproc).StepSound p k k' t t' where
  holds := iff_of_true hk' hk
  calm := id
  inv := hinv
  own := hown
  seen _ := hseen
  cleared c := by
    rintro ⟨status, hc⟩
    exact absurd hc (hlast status c)
  ready _ c hc := by
    rcases hready c hc with h | h | ⟨h, hno⟩
    · exact Or.inl h
    · exact Or.inr (Or.inl h)
    · exact Or.inr (Or.inr ⟨h, fun ⟨i, status, hkk, _⟩ => hno i status hkk⟩)
  ready_free h := absurd hk h
  own_other q j hq h := h.mono hq hlive hmade
  seen_other h := absurd hk h

theorem look_sound {p : Fin n} {k k' : Point n} (hk : Unlocked k' ↔ Unlocked k)
    (hinv : Family initproc t ∧ Ledger t) (hown : Own initproc p t k')
    (hseen : Established p t k') (hlast : ∀ status q, k' ≠ .exitZombie status (some q))
    (howes : ∀ i status, k ≠ .reparentWake i status) :
    (lifeSpec initproc).StepSound p k k' t t :=
  Spec.StepSound.same hinv (not_congr hk) id hown (fun _ => hseen)
    (fun c ⟨status, hc⟩ => absurd hc (hlast status c))
    fun _ ⟨i, status, hk, _⟩ => absurd hk (howes i status)

end Points

end Xv6.Proc
