import Mathlib.Tactic
import Mathlib.Logic.Function.Basic
import Mathlib.Data.List.Nodup

/-! # Crash points of a sequence of atomic block writes

A store maps addresses to contents and is changed one address at a time.
Losing power after some of the writes leaves the store with exactly a prefix
of the write sequence applied.
-/
namespace Xv6.Library.WriteTrace

variable {ι β : Type*} [DecidableEq ι]

/-- The store after the listed writes have reached it, oldest first. -/
def applyWrites (d : ι → β) (ws : List (ι × β)) : ι → β :=
  ws.foldl (fun d w => Function.update d w.1 w.2) d

@[simp] theorem applyWrites_nil (d : ι → β) : applyWrites d [] = d := rfl

@[simp] theorem applyWrites_cons (d : ι → β) (w : ι × β) (ws : List (ι × β)) :
    applyWrites d (w :: ws) = applyWrites (Function.update d w.1 w.2) ws := rfl

theorem applyWrites_append (d : ι → β) (ws vs : List (ι × β)) :
    applyWrites d (ws ++ vs) = applyWrites (applyWrites d ws) vs :=
  List.foldl_append

@[simp] theorem applyWrites_concat (d : ι → β) (ws : List (ι × β)) (w : ι × β) :
    applyWrites d (ws ++ [w]) = Function.update (applyWrites d ws) w.1 w.2 :=
  applyWrites_append d ws [w]

theorem applyWrites_outside (d : ι → β) (ws : List (ι × β)) (a : ι)
    (ha : ∀ w ∈ ws, w.1 ≠ a) : applyWrites d ws a = d a := by
  induction ws generalizing d with
  | nil => rfl
  | cons w ws ih =>
    rw [applyWrites_cons, ih _ (fun v hv => ha v (List.mem_cons_of_mem w hv))]
    exact Function.update_of_ne (Ne.symm (ha w List.mem_cons_self)) _ _

/-- When all writes to one address carry the same content and there is at
least one of them, that content is what the store holds. -/
theorem applyWrites_of_mem (d : ι → β) (ws : List (ι × β)) (a : ι) (v : β)
    (hmem : (a, v) ∈ ws) (hval : ∀ w ∈ ws, w.1 = a → w.2 = v) :
    applyWrites d ws a = v := by
  induction ws generalizing d with
  | nil => cases hmem
  | cons w ws ih =>
    rw [applyWrites_cons]
    by_cases ht : (a, v) ∈ ws
    · exact ih _ ht (fun u hu => hval u (List.mem_cons_of_mem w hu))
    · have hw : w = (a, v) := by
        rcases List.mem_cons.mp hmem with h | h
        · exact h.symm
        · exact absurd h ht
      rw [applyWrites_outside]
      · simp [hw]
      · intro u hu hua
        refine ht ?_
        have huv := hval u (List.mem_cons_of_mem w hu) hua
        rwa [← hua, ← huv]

/-- The store that survives a crash right after the first `k` writes. -/
def crashStore (d : ι → β) (ws : List (ι × β)) (k : ℕ) : ι → β :=
  applyWrites d (ws.take k)

theorem crashStore_outside (d : ι → β) (ws : List (ι × β)) (k : ℕ) (a : ι)
    (ha : ∀ w ∈ ws, w.1 ≠ a) : crashStore d ws k a = d a :=
  applyWrites_outside d _ a (fun w hw => ha w (List.mem_of_mem_take hw))

end Xv6.Library.WriteTrace
