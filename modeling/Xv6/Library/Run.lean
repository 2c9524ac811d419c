import Mathlib.Tactic

/-! # Runs of a system that takes one step after another

A step has an input, an outcome and the state after it, or it stops with an
error.  A run is a list of steps, each allowed by a guard in the state before
it; the induction rules here turn facts about one step into facts about runs.
-/
namespace Xv6.Library

variable {σ ι ρ ε : Type*}

/-- From the first state to the last one by the listed steps. -/
inductive Run (step : ι → σ → Except ε (ρ × σ)) (guard : σ → ι → Prop) :
    σ → List (ι × ρ) → σ → Prop
  | nil (s : σ) : Run step guard s [] s
  | cons {s s₁ s' : σ} {i : ι} {r : ρ} {rest : List (ι × ρ)} (hguard : guard s i)
      (hstep : step i s = .ok (r, s₁)) (hrest : Run step guard s₁ rest s') :
      Run step guard s ((i, r) :: rest) s'

namespace Run

variable {step : ι → σ → Except ε (ρ × σ)} {guard guard' : σ → ι → Prop} {s s₁ s' : σ}
  {evs evs' : List (ι × ρ)}

theorem append (h : Run step guard s evs s₁) (h' : Run step guard s₁ evs' s') :
    Run step guard s (evs ++ evs') s' := by
  induction h with
  | nil _ => exact h'
  | cons hguard hstep _ ih => exact Run.cons hguard hstep (ih h')

theorem single {i : ι} {r : ρ} (hguard : guard s i) (hstep : step i s = .ok (r, s')) :
    Run step guard s [(i, r)] s' := Run.cons hguard hstep (Run.nil s')

/-- What every allowed step keeps, every run keeps. -/
theorem invariant {I : σ → Prop}
    (hkeep : ∀ s i r s', I s → guard s i → step i s = .ok (r, s') → I s')
    (h : Run step guard s evs s') (hs : I s) : I s' := by
  induction h with
  | nil _ => exact hs
  | cons hguard hstep _ ih => exact ih (hkeep _ _ _ _ hs hguard hstep)

end Run

/-- The states that runs from an initial state reach. -/
def Reach (step : ι → σ → Except ε (ρ × σ)) (guard : σ → ι → Prop) (init : σ → Prop) (s : σ) :
    Prop := ∃ s₀ evs, init s₀ ∧ Run step guard s₀ evs s

theorem Reach.invariant {step : ι → σ → Except ε (ρ × σ)} {guard : σ → ι → Prop} {init : σ → Prop}
    {I : σ → Prop} (hinit : ∀ s, init s → I s)
    (hkeep : ∀ s i r s', I s → guard s i → step i s = .ok (r, s') → I s') {s : σ}
    (h : Reach step guard init s) : I s := by
  obtain ⟨s₀, evs, h₀, hrun⟩ := h
  exact hrun.invariant hkeep (hinit s₀ h₀)

theorem Reach.next {step : ι → σ → Except ε (ρ × σ)} {guard : σ → ι → Prop} {init : σ → Prop}
    {s s' : σ} {i : ι} {r : ρ} (h : Reach step guard init s) (hguard : guard s i)
    (hstep : step i s = .ok (r, s')) : Reach step guard init s' := by
  obtain ⟨s₀, evs, h₀, hrun⟩ := h
  exact ⟨s₀, evs ++ [(i, r)], h₀, hrun.append (Run.single hguard hstep)⟩

/-! ## Runs on given inputs

They have one or two processes, and the numerals of `Fin 1` and `Fin 2` use these instances.
-/

instance neZero_one : NeZero 1 := ⟨Nat.one_ne_zero⟩

instance neZero_two : NeZero 2 := ⟨two_ne_zero⟩

/-- The state after a list of inputs, where an input that cannot be taken is skipped. -/
def drive (step : ι → σ → Except ε (ρ × σ)) : List ι → σ → σ
  | [], s => s
  | i :: is, s =>
    match step i s with
    | .ok (_, s') => drive step is s'
    | .error _ => drive step is s

/-- The guard allows every input of the list that is taken. -/
def Allowed (step : ι → σ → Except ε (ρ × σ)) (guard : σ → ι → Prop) : List ι → σ → Prop
  | [], _ => True
  | i :: is, s =>
    match step i s with
    | .ok (_, s') => guard s i ∧ Allowed step guard is s'
    | .error _ => Allowed step guard is s

instance Allowed.decidable {step : ι → σ → Except ε (ρ × σ)} {guard : σ → ι → Prop}
    [∀ s i, Decidable (guard s i)] : (is : List ι) → (s : σ) → Decidable (Allowed step guard is s)
  | [], _ => .isTrue trivial
  | i :: is, s =>
    match h : step i s with
    | .ok (_, s') =>
      have : Decidable (Allowed step guard is s') := Allowed.decidable is s'
      decidable_of_iff (guard s i ∧ Allowed step guard is s') (by simp only [Allowed, h])
    | .error _ =>
      have : Decidable (Allowed step guard is s) := Allowed.decidable is s
      decidable_of_iff (Allowed step guard is s) (by simp only [Allowed, h])

theorem Allowed.of_forall {step : ι → σ → Except ε (ρ × σ)} {guard : σ → ι → Prop} {is : List ι}
    (hguard : ∀ s, ∀ i ∈ is, guard s i) (s : σ) : Allowed step guard is s := by
  induction is generalizing s with
  | nil => trivial
  | cons i is ih =>
    have hrest : ∀ s, ∀ j ∈ is, guard s j := fun s j hj => hguard s j (List.mem_cons_of_mem i hj)
    unfold Allowed
    split
    · exact ⟨hguard s i List.mem_cons_self, ih hrest _⟩
    · exact ih hrest s

theorem Run.drive {step : ι → σ → Except ε (ρ × σ)} {guard : σ → ι → Prop} {is : List ι} {s : σ}
    (h : Allowed step guard is s) : ∃ evs, Run step guard s evs (drive step is s) := by
  induction is generalizing s with
  | nil => exact ⟨[], Run.nil s⟩
  | cons i is ih =>
    cases hstep : step i s with
    | error e =>
      simp only [Allowed, hstep] at h
      obtain ⟨evs, hrun⟩ := ih h
      exact ⟨evs, by simpa only [Library.drive, hstep] using hrun⟩
    | ok r =>
      simp only [Allowed, hstep] at h
      obtain ⟨evs, hrun⟩ := ih h.2
      refine ⟨(i, r.1) :: evs, Run.cons h.1 hstep ?_⟩
      simpa only [Library.drive, hstep] using hrun

theorem Reach.drive_allowed {step : ι → σ → Except ε (ρ × σ)} {guard : σ → ι → Prop}
    {init : σ → Prop} {s : σ} (h : init s) {is : List ι} (hallowed : Allowed step guard is s) :
    Reach step guard init (drive step is s) := by
  obtain ⟨evs, hrun⟩ := Run.drive hallowed
  exact ⟨s, evs, h, hrun⟩

theorem Reach.drive {step : ι → σ → Except ε (ρ × σ)} {guard : σ → ι → Prop} {init : σ → Prop}
    {s : σ} (h : init s) {is : List ι} (hguard : ∀ s, ∀ i ∈ is, guard s i) :
    Reach step guard init (drive step is s) :=
  Reach.drive_allowed h (Allowed.of_forall hguard s)

end Xv6.Library
