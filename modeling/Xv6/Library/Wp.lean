import Mathlib.Tactic

/-! # Postconditions of computations with state and errors

`Wp m s Q E`: run from `s`, the computation `m` ends with a value and a state that
satisfy `Q`, or it stops with an error in `E`.
-/
namespace Xv6.Library

universe u

section
variable {ε σ α β : Type u} {m : EStateM ε σ α} {f : α → EStateM ε σ β} {s s' : σ} {a : α}
  {Q Q' : α → σ → Prop} {R : β → σ → Prop} {E E' : ε → Prop}

def Wp (m : EStateM ε σ α) (s : σ) (Q : α → σ → Prop) (E : ε → Prop) : Prop :=
  match m s with
  | .ok a s' => Q a s'
  | .error e _ => E e

theorem Wp.of_run (hrun : m s = .ok a s') (h : Q a s') : Wp m s Q E := by
  unfold Wp
  rw [hrun]
  exact h

theorem Wp.ok (h : Wp m s Q E) (hrun : m s = .ok a s') : Q a s' := by
  unfold Wp at h
  rw [hrun] at h
  exact h

theorem Wp.error {e : ε} (h : Wp m s Q E) (hrun : m s = .error e s') : E e := by
  unfold Wp at h
  rw [hrun] at h
  exact h

/-- Without errors, there is a result. -/
theorem Wp.exists_ok (h : Wp m s Q fun _ => False) : ∃ a s', m s = .ok a s' ∧ Q a s' := by
  unfold Wp at h
  cases hm : m s with
  | ok a s' =>
    rw [hm] at h
    exact ⟨a, s', rfl, h⟩
  | error e s' =>
    rw [hm] at h
    exact h.elim

theorem Wp.mono (h : Wp m s Q E) (hQ : ∀ a s', Q a s' → Q' a s') : Wp m s Q' E := by
  unfold Wp at *
  cases hm : m s with
  | ok a s' =>
    rw [hm] at h
    exact hQ a s' h
  | error e s' =>
    rw [hm] at h
    exact h

theorem Wp.weaken (h : Wp m s Q E) (hE : ∀ e, E e → E' e) : Wp m s Q E' := by
  unfold Wp at *
  cases hm : m s with
  | ok a s' =>
    rw [hm] at h
    exact h
  | error e s' =>
    rw [hm] at h
    exact hE e h

theorem Wp.bind (hm : Wp m s (fun a s' => Wp (f a) s' R E) E) : Wp (m >>= f) s R E := by
  unfold Wp at *
  change match EStateM.bind m f s with | .ok a s' => R a s' | .error e _ => E e
  unfold EStateM.bind
  cases h : m s with
  | ok a s' =>
    rw [h] at hm
    exact hm
  | error e s' =>
    rw [h] at hm
    exact hm

theorem Wp.step (hm : Wp m s Q E) (hf : ∀ a s', Q a s' → Wp (f a) s' R E) :
    Wp (m >>= f) s R E :=
  Wp.bind (hm.mono hf)

theorem Wp.step_run (hrun : m s = .ok a s') (hf : Wp (f a) s' R E) : Wp (m >>= f) s R E :=
  Wp.bind (Wp.of_run hrun hf)

theorem Wp.and (h : Wp m s Q E) (h' : Wp m s Q' E') :
    Wp m s (fun a s' => Q a s' ∧ Q' a s') (fun e => E e ∧ E' e) := by
  unfold Wp at *
  cases hm : m s with
  | ok a s' =>
    rw [hm] at h h'
    exact ⟨h, h'⟩
  | error e s' =>
    rw [hm] at h h'
    exact ⟨h, h'⟩

theorem Wp.any (m : EStateM ε σ α) (s : σ) : Wp m s (fun _ _ => True) (fun _ => True) := by
  unfold Wp
  split <;> trivial

theorem Wp.pure (h : Q a s) : Wp (pure a) s Q E := h

theorem Wp.throw {e : ε} (h : E e) : Wp (throw e : EStateM ε σ α) s Q E := h

end

section
variable {ε σ : Type} {ι : Type} {f : ι → EStateM ε σ PUnit} {E : ε → Prop}

/-- A loop over a list.  `I` holds with the elements still to come. -/
theorem Wp.forM {I : List ι → σ → Prop} {l : List ι} {s : σ} (h : I l s)
    (hstep : ∀ i rest s, I (i :: rest) s → Wp (f i) s (fun _ s' => I rest s') E) :
    Wp (l.forM f) s (fun _ s' => I [] s') E := by
  induction l generalizing s with
  | nil => exact h
  | cons i rest ih => exact Wp.step (hstep i rest s h) fun _ s' hs' => ih hs'

end

/-! ## Runs of the pieces -/

section
variable {ε σ α β : Type u}

theorem bind_run {m : EStateM ε σ α} {f : α → EStateM ε σ β} {s s' : σ} {a : α}
    (h : m s = .ok a s') : (m >>= f) s = f a s' := by
  change EStateM.bind m f s = _
  unfold EStateM.bind
  rw [h]

theorem bind_error {m : EStateM ε σ α} {f : α → EStateM ε σ β} {s s' : σ} {e : ε}
    (h : m s = .error e s') : (m >>= f) s = .error e s' := by
  change EStateM.bind m f s = _
  unfold EStateM.bind
  rw [h]

end

end Xv6.Library
