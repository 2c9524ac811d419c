import Mathlib.Tactic

/-! # Computations with state that may stop with an error

`StateT σ (Except ε)` models code that updates a state and may panic.  A
result is either an error or a value with the final state; the lemmas here
take sequential code apart and put specifications together.
-/
namespace Xv6.Library.Exec

universe u v

variable {σ α β : Type u} {ε : Type v}

theorem bind_of_ok {m : StateT σ (Except ε) α} {f : α → StateT σ (Except ε) β} {s s' : σ} {a : α}
    (h : m s = .ok (a, s')) : (m >>= f) s = f a s' := by
  change (m s >>= fun p => f p.1 p.2) = _
  rw [h]
  rfl

theorem bind_of_error {m : StateT σ (Except ε) α} {f : α → StateT σ (Except ε) β} {s : σ} {e : ε}
    (h : m s = .error e) : (m >>= f) s = .error e := by
  change (m s >>= fun p => f p.1 p.2) = _
  rw [h]
  rfl

theorem bind_ok {m : StateT σ (Except ε) α} {f : α → StateT σ (Except ε) β} {s s'' : σ} {b : β}
    (h : (m >>= f) s = .ok (b, s'')) : ∃ a s', m s = .ok (a, s') ∧ f a s' = .ok (b, s'') := by
  change (m s >>= fun p => f p.1 p.2) = _ at h
  cases hm : m s with
  | error e =>
    rw [hm] at h
    cases h
  | ok p =>
    rw [hm] at h
    exact ⟨p.1, p.2, rfl, h⟩

theorem map_of_ok {m : StateT σ (Except ε) α} {f : α → β} {s s' : σ} {a : α}
    (h : m s = .ok (a, s')) : (f <$> m) s = .ok (f a, s') := by
  rw [map_eq_pure_bind, bind_of_ok h]
  rfl

theorem map_of_error {m : StateT σ (Except ε) α} {f : α → β} {s : σ} {e : ε}
    (h : m s = .error e) : (f <$> m) s = .error e := by
  rw [map_eq_pure_bind, bind_of_error h]

/-- The error with which a computation stops. -/
def stopOf {ε : Type v} {α : Type u} (r : Except ε α) : Option ε :=
  match r with
  | .ok _ => none
  | .error e => some e

theorem eq_error_of_stopOf {r : Except ε α} {e : ε} (h : stopOf r = some e) : r = .error e := by
  cases r with
  | ok a => cases h
  | error e' => rw [Option.some.inj h]

/-- A computation that never stops with error `e`. -/
def Avoids (e : ε) (m : StateT σ (Except ε) α) : Prop := ∀ s, m s ≠ .error e

theorem Avoids.pure (e : ε) (a : α) : Avoids e (pure a : StateT σ (Except ε) α) :=
  fun _ h => nomatch h

theorem Avoids.throw {e e' : ε} (h : e' ≠ e) : Avoids e (throw e' : StateT σ (Except ε) α) :=
  fun _ hc => h (Except.error.inj hc)

theorem Avoids.bind {e : ε} {m : StateT σ (Except ε) α} {f : α → StateT σ (Except ε) β}
    (hm : Avoids e m) (hf : ∀ a, Avoids e (f a)) : Avoids e (m >>= f) := by
  intro s
  cases hrun : m s with
  | error e' =>
    rw [bind_of_error hrun]
    intro hc
    exact hm s (hrun.trans (congrArg _ (Except.error.inj hc)))
  | ok r =>
    rw [bind_of_ok hrun]
    exact hf r.1 r.2

theorem Avoids.forM {σ ι : Type} {ε : Type v} {e : ε} {f : ι → StateT σ (Except ε) PUnit}
    (hf : ∀ i, Avoids e (f i)) (l : List ι) : Avoids e (l.forM f) := by
  induction l with
  | nil => exact Avoids.pure e PUnit.unit
  | cons i l ih => exact Avoids.bind (hf i) fun _ => ih

theorem pure_run (a : α) (s : σ) : (pure a : StateT σ (Except ε) α) s = .ok (a, s) := rfl

theorem pure_ok {a b : α} {s s' : σ} (h : (pure a : StateT σ (Except ε) α) s = .ok (b, s')) :
    b = a ∧ s' = s := by
  cases h
  exact ⟨rfl, rfl⟩

/-- A loop that ends has run its body for every element. -/
theorem forM_ok {σ ι : Type} {ε : Type v} {f : ι → StateT σ (Except ε) PUnit} {l : List ι}
    {s s' : σ} (h : l.forM f s = .ok (⟨⟩, s')) {i : ι} (hi : i ∈ l) :
    ∃ s₁ s₂, f i s₁ = .ok (⟨⟩, s₂) := by
  induction l generalizing s with
  | nil => simp at hi
  | cons j l ih =>
    obtain ⟨⟨⟩, s₁, hj, hrest⟩ := bind_ok (m := f j) (f := fun _ => l.forM f) h
    rcases List.mem_cons.mp hi with rfl | hi
    · exact ⟨s, s₁, hj⟩
    · exact ih hrest hi

end Xv6.Library.Exec
