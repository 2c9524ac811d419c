import Xv6.Proc.Family

/-! # The lifecycle is exact

The obligations at each point of `kfork`, `kexit` and `kwait`, and what they
give for every interleaving.
-/
namespace Xv6.Proc
open Library Sched

variable {n : ℕ} {initproc p : Fin n} {t t' : ProcTable n} {k' : Point n}

theorem call_sound {x : Input n} (hinv : Family initproc t ∧ Ledger t) (hp : t.life p = .live)
    (hf : call p x t = some (t', k')) : (lifeSpec initproc).StepSound p .user k' t t' := by
  cases x with
  | fork np memory =>
    simp only [call] at hf
    split at hf
    · rename_i hnp
      have hne : ∀ i, t.life i ≠ .unused → i ≠ np := by
        rintro i hi rfl
        exact hi hnp
      split at hf
      · cases hf
        refine free_sound trivial trivial ⟨hinv.1.alloc p hnp, hinv.2.alloc p hnp⟩ ?_ rfl ?_ ?_ ?_
        · have := hne p (by simp [hp])
          exact ⟨by simpa [this] using hp, by simp, by simp⟩
        · intro i hi
          have : i ≠ np := by
            rintro rfl
            simp at hi
          simpa [this] using hi
        · intro i _ hi
          have := hne i (by simp [hi])
          simpa [this] using hi
        · intro i r _ hm hu
          have := hne i (by simp [hu])
          exact ⟨by simpa [this] using hu, by simpa [this] using hm⟩
      · cases hf
        exact free_sound trivial trivial ⟨hinv.1.allocFail, hinv.2.allocFail⟩ hp rfl (fun _ => id)
          (fun _ _ => id) fun _ _ _ hm hu => ⟨hu, hm⟩
    · cases hf
  | forkFull =>
    cases hf
    exact look_sound (by simp [Unlocked]) hinv hp trivial nofun nofun
  | exit status =>
    cases hf
    exact look_sound (by simp [Unlocked]) hinv hp trivial nofun nofun
  | wait =>
    cases hf
    exact look_sound (by simp [Unlocked]) hinv hp trivial nofun nofun
  | copyout ok => cases hf

theorem forkParent_sound {np : Fin n} (hinv : Family initproc t ∧ Ledger t)
    (hown : Own initproc p t (.forkParent np)) :
    (lifeSpec initproc).StepSound p (.forkParent np) (.forkUnlock np) t (t.setParent np p) := by
  obtain ⟨hp, hused, hmaker⟩ := hown
  refine locked_sound id id ⟨hinv.1.setParent np hp, hinv.2.setParent np p⟩
    ⟨hp, hused, hmaker, by simp⟩ trivial nofun ?_ (fun _ _ => id) ?_
  · rintro q ⟨i, hi, hz⟩
    have hne : i ≠ np := by
      rintro rfl
      simp only [ProcTable.setParent_life, hused] at hz
      cases hz
    exact Or.inr (Or.inr ⟨⟨i, by simpa [hne] using hi, hz⟩, nofun⟩)
  · intro i r hr hm hu
    have hne : i ≠ np := by
      rintro rfl
      rw [hmaker] at hm
      cases hm
      exact hr rfl
    exact ⟨hu, hm, fun hi => by simpa [hne] using hi⟩

theorem forkStart_sound {np : Fin n} (hinv : Family initproc t ∧ Ledger t)
    (hown : Own initproc p t (.forkStart np)) :
    (lifeSpec initproc).StepSound p (.forkStart np) .user t (t.start np) := by
  obtain ⟨hp, hused, hmaker, hparent⟩ := hown
  refine free_sound trivial trivial ⟨hinv.1.start hparent, hinv.2.start hused⟩ ?_ rfl ?_ ?_ ?_
  · by_cases hne : p = np
    · simp [Own, hne]
    · simpa [Own, hne] using hp
  · intro i hi
    have hne : i ≠ np := by
      rintro rfl
      simp at hi
    simpa [hne] using hi
  · intro i _ hi
    by_cases hne : i = np
    · simp [hne]
    · simpa [hne] using hi
  · intro i r hr hm hu
    have hne : i ≠ np := by
      rintro rfl
      rw [hmaker] at hm
      cases hm
      exact hr rfl
    exact ⟨by simpa [hne] using hu, hm⟩

theorem reparent_sound {i : ℕ} {status : ℤ} (hinv : Family initproc t ∧ Ledger t)
    (hown : Own initproc p t (.reparent i status))
    (hseen : Established p t (.reparent i status))
    (hf : reparentStep initproc p i status t = (t', k')) :
    (lifeSpec initproc).StepSound p (.reparent i status) k' t t' := by
  by_cases hi : i < n
  · by_cases hpar : t.parent ⟨i, hi⟩ = some p
    · simp only [reparentStep, hi, hpar, dite_true, ite_true] at hf
      cases hf
      refine locked_sound id id
        ⟨hinv.1.setParent _ hinv.1.init_live, hinv.2.setParent _ _⟩ hown ?_ nofun ?_
        (fun _ _ => id) ?_
      · intro j hj
        by_cases hji : j = ⟨i, hi⟩
        · simp [hji, hown.2.symm]
        · have hlt : j.val < i := by
            have := Fin.val_ne_of_ne hji
            simp only at this
            omega
          simpa [hji] using hseen j hlt
      · rintro q ⟨j, hj, hz⟩
        by_cases hq : q = initproc
        · exact Or.inl ⟨i, status, rfl, hq⟩
        · have hji : j ≠ ⟨i, hi⟩ := by
            rintro rfl
            simp only [ProcTable.setParent_parent, Function.update_self, Option.some.injEq] at hj
            exact hq hj.symm
          exact Or.inr (Or.inr ⟨⟨j, by simpa [hji] using hj, hz⟩, nofun⟩)
      · intro np r hr hm hu
        refine ⟨hu, hm, fun hparent => ?_⟩
        have hne : np ≠ ⟨i, hi⟩ := by
          rintro rfl
          rw [hpar] at hparent
          cases hparent
          exact hr rfl
        simpa [hne] using hparent
    · simp only [reparentStep, hi, hpar, dite_true, ite_false] at hf
      cases hf
      refine look_sound (by simp [Unlocked]) hinv hown ?_ nofun nofun
      intro j hj
      by_cases hji : j.val = i
      · have : j = ⟨i, hi⟩ := Fin.ext hji
        rwa [this]
      · exact hseen j (by omega)
  · have hkids : ∀ j, t.parent j ≠ some p := fun j => hseen j (by omega)
    cases hq : t.parent p with
    | some q =>
      simp only [reparentStep, hi, dite_false, hq] at hf
      cases hf
      exact look_sound (by simp [Unlocked]) hinv hown ⟨hkids, hq⟩ nofun nofun
    | none =>
      simp only [reparentStep, hi, dite_false, hq] at hf
      cases hf
      exact look_sound (by simp [Unlocked]) hinv hown ⟨hkids, hq⟩ nofun nofun

theorem exitZombie_sound {status : ℤ} {q : Option (Fin n)} (hinv : Family initproc t ∧ Ledger t)
    (hown : Own initproc p t (.exitZombie status q))
    (hseen : Established p t (.exitZombie status q)) :
    (lifeSpec initproc).StepSound p (.exitZombie status q) .exitUnlock t (t.exit p status) := by
  obtain ⟨hp, hinit⟩ := hown
  obtain ⟨hkids, hq⟩ := hseen
  refine locked_sound id id ⟨hinv.1.exit hp hinit hkids status, hinv.2.exit hp status⟩ trivial trivial
    nofun ?_ ?_ ?_
  · rintro c ⟨i, hi, hz⟩
    by_cases hip : i = p
    · -- the new zombie; its parent was woken before
      subst hip
      have hc : q = some c := by rw [← hq]; exact hi
      exact Or.inr (Or.inl ⟨status, by rw [hc]⟩)
    · exact Or.inr (Or.inr ⟨⟨i, hi, by simpa [hip] using hz⟩, nofun⟩)
  · intro i hi hlive
    simpa [hi] using hlive
  · intro np r _ hm hu
    have hne : np ≠ p := by
      rintro rfl
      simp [hp] at hu
    exact ⟨by simpa [hne] using hu, hm, id⟩

theorem findZombie_some {pp : Fin n} (h : t.findZombie p = some pp) :
    t.parent pp = some p ∧ t.life pp = .zombie := by
  have := List.find?_some h
  simpa using this

theorem findZombie_none (h : t.findZombie p = none) (i : Fin n) (hi : t.parent i = some p) :
    t.life i ≠ .zombie := by
  have := List.find?_eq_none.1 h i (List.mem_finRange i)
  simpa [hi] using this

theorem scan_sound {x : Input n} (hinv : Family initproc t ∧ Ledger t) (hp : t.life p = .live)
    (hf : scanStep p x t = some (t', k')) : (lifeSpec initproc).StepSound p .scan k' t t' := by
  cases hz : t.findZombie p with
  | some pp =>
    obtain ⟨hparent, hzombie⟩ := findZombie_some hz
    simp only [scanStep, hz] at hf
    split at hf
    · cases hf
      have hne : ∀ i, t.life i ≠ .zombie → i ≠ pp := by
        rintro i hi rfl
        exact hi hzombie
      refine locked_sound id id ⟨hinv.1.reap p hzombie, hinv.2.reap hzombie hparent⟩ ?_ trivial nofun
        ?_ ?_ ?_
      · have := hne p (by simp [hp])
        simpa [Own, this] using hp
      · rintro q ⟨i, hi, hz'⟩
        have : i ≠ pp := by
          rintro rfl
          simp at hi
        exact Or.inr (Or.inr ⟨⟨i, by simpa [this] using hi, by simpa [this] using hz'⟩, nofun⟩)
      · intro i _ hi
        have := hne i (by simp [hi])
        simpa [this] using hi
      · intro np r _ hm hu
        have := hne np (by simp [hu])
        exact ⟨by simpa [this] using hu, hm, fun hpar => by simpa [this] using hpar⟩
    · cases hf
      exact look_sound (by simp [Unlocked]) hinv hp trivial nofun nofun
    · cases hf
  | none =>
    simp only [scanStep, hz, Option.some.injEq] at hf
    cases hf
    split
    · exact look_sound (by simp [Unlocked]) hinv hp (findZombie_none hz) nofun nofun
    · exact look_sound (by simp [Unlocked]) hinv hp trivial nofun nofun

theorem entry_of {k : Point n} (hk : ¬ Unlocked k) (hlast : ∀ status q, k ≠ .exitZombie status (some q))
    (hseen : ∀ t, Established p t k) : (lifeSpec initproc).Entry p k :=
  ⟨hk, fun c ⟨status, hc⟩ => hlast status c hc, id, fun t _ _ => hseen t⟩

theorem lifecycle_sound (initproc : Fin n) : (lifeSpec initproc).Sound (prog initproc) where
  calm _ _ h := h.elim
  act p k := by
    cases k with
    | absent =>
      intro x t t' k' hf hinv _ _
      dsimp only at hf
      split at hf <;> cases hf
      exact look_sound (by simp [Unlocked]) hinv ‹_› trivial nofun nofun
    | user =>
      intro x t t' k' hf hinv hown _
      exact call_sound hinv hown hf
    | forkLock np =>
      exact ⟨fun h => h trivial, entry_of id nofun fun _ => trivial, fun _ _ h => h⟩
    | forkParent np =>
      intro x t t' k' hf hinv hown _
      cases hf
      exact forkParent_sound hinv hown
    | forkUnlock np =>
      exact ⟨id, fun h => h trivial, nofun, fun _ _ h _ => h⟩
    | forkStart np =>
      intro x t t' k' hf hinv hown _
      cases hf
      exact forkStart_sound hinv hown
    | kexit status =>
      by_cases hp : p = initproc
      · simp [prog, hp, Spec.ActSound]
      · simp only [prog, hp, ite_false]
        exact ⟨fun h => h trivial, entry_of id nofun fun _ j hj => absurd hj (Nat.not_lt_zero _),
          fun _ _ h => ⟨h, hp⟩⟩
    | reparent i status =>
      intro x t t' k' hf hinv hown hseen
      exact reparent_sound hinv hown (hseen id) (Option.some.inj hf)
    | reparentWake i status =>
      refine ⟨id, id, ?_, ?_, id, fun _ _ h hseen => ⟨h, hseen⟩⟩
      · rintro c ⟨j, st, -, hc⟩
        exact Or.inr hc
      · rintro c ⟨st, hc⟩
        cases hc
    | exitWake status q =>
      refine ⟨id, id, nofun, ?_, id, fun _ _ h hseen => ⟨h, hseen⟩⟩
      rintro c ⟨st, hc⟩
      cases hc
      exact Or.inr rfl
    | exitZombie status q =>
      intro x t t' k' hf hinv hown hseen
      cases hf
      exact exitZombie_sound hinv hown (hseen id)
    | exitUnlock => exact ⟨id, fun h => h trivial, nofun, fun _ _ _ _ => trivial⟩
    | kwait => exact ⟨fun h => h trivial, entry_of id nofun fun _ => trivial, fun _ _ h => h⟩
    | scan =>
      intro x t t' k' hf hinv hown _
      exact scan_sound hinv hown hf
    | waitKilled =>
      rintro b -
      cases b
      · exact ⟨Iff.rfl, nofun, nofun, fun _ => rfl, fun _ _ h hseen => ⟨h, hseen⟩⟩
      · exact ⟨Iff.rfl, nofun, nofun, False.elim, fun _ _ h _ => ⟨h, fun _ => trivial⟩⟩
    | waitSleep =>
      refine ⟨id, entry_of id nofun fun _ => trivial, nofun, fun t _ h hseen => ⟨?_, h⟩⟩
      rintro ⟨i, hi, hz⟩
      exact hseen i hi hz
    | unlock r => exact ⟨id, fun h => h trivial, nofun, fun _ _ h _ => h⟩

theorem lifecycle_good {s : Machine n (ProcTable n) (Fin n) (Point n)}
    (h : Reach (step (prog initproc)) (fun _ _ => True) (Initial initproc) s) :
    Good (lifeSpec initproc) s := by
  refine Good.reach_all (lifecycle_sound initproc) (fun _ _ => id) ?_ h
  rintro _ rfl
  refine Good.start ⟨Family.boot initproc, Ledger.boot initproc⟩ ?_ ?_
  · intro p
    by_cases hp : p = initproc
    · simp [hp, lifeSpec, Own, ProcTable.boot]
    · simp [hp, lifeSpec, Own]
  · intro p
    by_cases hp : p = initproc <;> simp [hp, lifeSpec, Unlocked]

/-- In every state that forks, exits and waits reach: the parent of every process
but the first lives; a lifetime is returned by at most one `kwait`, to its
parent, with its pid and the status of its exit; and while `wait_lock` is free
nobody sleeps in `kwait` beside an exited child. -/
theorem lifecycle_exact {s : Machine n (ProcTable n) (Fin n) (Point n)}
    (h : Reach (step (prog initproc)) (fun _ _ => True) (Initial initproc) s) :
    (∀ i, i ≠ initproc → s.data.life i = .live ∨ s.data.life i = .zombie →
      ∃ q, s.data.parent i = some q ∧ s.data.life q = .live) ∧
    (s.data.record.reaped.map Reaped.lifetime).Nodup ∧
    (∀ r ∈ s.data.record.reaped, r.parent = some r.waiter ∧
      (r.lifetime, r.pid) ∈ s.data.record.born ∧
      (r.lifetime, r.pid, r.status) ∈ s.data.record.exited) ∧
    (s.data.record.born.map Prod.fst).Nodup ∧ (s.data.record.exited.map Prod.fst).Nodup ∧
    (s.lk = none → ∀ i, s.state i = .sleeping → s.chan i = some i →
      ¬ ∃ j, s.data.parent j = some i ∧ s.data.life j = .zombie) := by
  have hgood := lifecycle_good h
  obtain ⟨hfamily, hledger⟩ := hgood.inv
  refine ⟨?_, hledger.reaped_nodup, ?_, hledger.born_nodup, hledger.exited_nodup, ?_⟩
  · intro i hi hlife
    obtain ⟨q, hq⟩ := hfamily.parented i hi hlife
    exact ⟨q, hq, hfamily.parent_live i q hq⟩
  · intro r hr
    have hexit := hledger.reaped_exited r hr
    exact ⟨hledger.reaped_parent r hr, hledger.exited_born _ hexit, hexit⟩
  · intro hlk i hst hc
    exact hgood.not_ready hlk hst hc

/-- The first process forks and waits; its child exits with status 7. -/
def forkExitWait : List (Event 2 (Input 2)) :=
  List.flatten [resume 0, run 0 6 (.fork 1 true), run 0 8 .wait, [.schedRelease 0],
    resume 1, run 1 16 (.exit 7), resume 0, run 0 4 (.copyout true)]

def justBooted : Machine 2 (ProcTable 2) (Fin 2) (Point 2) :=
  .start (.boot 0) fun i => if i = 0 then .user else .absent

theorem forkExitWait_exact :
    (drive (step (prog 0)) forkExitWait justBooted).data.record.reaped = [⟨0, some 0, 1, 2, 7⟩] ∧
    ((drive (step (prog 0)) forkExitWait justBooted).data.record.reaped.map
      Reaped.lifetime).Nodup := by
  have hinit : Initial 0 justBooted := rfl
  have hreach : Reach (step (prog 0)) (fun _ _ => True) (Initial 0)
      (drive (step (prog 0)) forkExitWait justBooted) := Reach.drive hinit fun _ _ _ => trivial
  exact ⟨by decide +kernel, (lifecycle_exact hreach).2.1⟩

end Xv6.Proc
