import Xv6.Proc.Lifecycle

/-! # What happens to a process, once and in order

The record of lifetimes: each begins once with one pid, exits at most once, and
is returned by at most one `kwait`, after its exit and with the status of that
exit.
-/
namespace Xv6.Proc

variable {n : ℕ} {t : ProcTable n}

structure Ledger (t : ProcTable n) : Prop where
  born : ∀ i, t.life i ≠ .unused → (t.lifetime i, t.pid i) ∈ t.record.born
  born_lt : ∀ b ∈ t.record.born, b.1 < t.nextLifetime
  born_nodup : (t.record.born.map Prod.fst).Nodup
  inj : ∀ i j, t.life i ≠ .unused → t.life j ≠ .unused → t.lifetime i = t.lifetime j → i = j
  exited_born : ∀ e ∈ t.record.exited, (e.1, e.2.1) ∈ t.record.born
  exited_nodup : (t.record.exited.map Prod.fst).Nodup
  not_exited : ∀ i, t.life i = .used ∨ t.life i = .live →
    ∀ e ∈ t.record.exited, e.1 ≠ t.lifetime i
  zombie : ∀ i, t.life i = .zombie → (t.lifetime i, t.pid i, t.xstate i) ∈ t.record.exited
  reaped_exited : ∀ r ∈ t.record.reaped, (r.lifetime, r.pid, r.status) ∈ t.record.exited
  reaped_nodup : (t.record.reaped.map Reaped.lifetime).Nodup
  reaped_parent : ∀ r ∈ t.record.reaped, r.parent = some r.waiter
  reaped_gone : ∀ r ∈ t.record.reaped, ∀ i, t.life i ≠ .unused → t.lifetime i ≠ r.lifetime

namespace Ledger

variable (h : Ledger t)
include h

theorem lifetime_lt {i : Fin n} (hi : t.life i ≠ .unused) : t.lifetime i < t.nextLifetime :=
  h.born_lt _ (h.born i hi)

theorem exited_lt {e : ℕ × ℤ × ℤ} (he : e ∈ t.record.exited) : e.1 < t.nextLifetime :=
  h.born_lt _ (h.exited_born e he)

theorem alloc (p : Fin n) {np : Fin n} (hnp : t.life np = .unused) : Ledger (t.alloc p np) where
  born i hi := by
    by_cases hin : i = np
    · subst hin
      simp
    · simp only [ProcTable.alloc_life, Function.update_of_ne hin] at hi
      simp [hin, h.born i hi]
  born_lt b hb := by
    simp only [ProcTable.alloc_record_born, List.mem_cons] at hb
    rcases hb with rfl | hb
    · exact Nat.lt_succ_self _
    · exact Nat.lt_succ_of_lt (h.born_lt b hb)
  born_nodup := by
    simp only [ProcTable.alloc_record_born, List.map_cons, List.nodup_cons, List.mem_map, not_exists]
    refine ⟨?_, h.born_nodup⟩
    rintro b ⟨hb, heq⟩
    exact absurd (h.born_lt b hb) (by omega)
  inj i j hi hj heq := by
    by_cases hin : i = np <;> by_cases hjn : j = np
    · rw [hin, hjn]
    · subst hin
      simp only [ProcTable.alloc_life, Function.update_of_ne hjn] at hj
      simp only [ProcTable.alloc_lifetime, Function.update_self, Function.update_of_ne hjn] at heq
      exact absurd (h.lifetime_lt hj) (by omega)
    · subst hjn
      simp only [ProcTable.alloc_life, Function.update_of_ne hin] at hi
      simp only [ProcTable.alloc_lifetime, Function.update_self, Function.update_of_ne hin] at heq
      exact absurd (h.lifetime_lt hi) (by omega)
    · simp only [ProcTable.alloc_life, Function.update_of_ne hin] at hi
      simp only [ProcTable.alloc_life, Function.update_of_ne hjn] at hj
      simp only [ProcTable.alloc_lifetime, Function.update_of_ne hin,
        Function.update_of_ne hjn] at heq
      exact h.inj i j hi hj heq
  exited_born e he := List.mem_cons_of_mem _ (h.exited_born e he)
  exited_nodup := h.exited_nodup
  not_exited i hi e he := by
    by_cases hin : i = np
    · subst hin
      simp only [ProcTable.alloc_lifetime, Function.update_self]
      exact (h.exited_lt he).ne
    · simp only [ProcTable.alloc_life, Function.update_of_ne hin] at hi
      simp only [ProcTable.alloc_lifetime, Function.update_of_ne hin]
      exact h.not_exited i hi e he
  zombie i hi := by
    have hin : i ≠ np := by
      rintro rfl
      simp at hi
    simp only [ProcTable.alloc_life, Function.update_of_ne hin] at hi
    simpa [hin] using h.zombie i hi
  reaped_exited := h.reaped_exited
  reaped_nodup := h.reaped_nodup
  reaped_parent := h.reaped_parent
  reaped_gone r hr i hi := by
    by_cases hin : i = np
    · subst hin
      simp only [ProcTable.alloc_lifetime, Function.update_self]
      exact (h.exited_lt (h.reaped_exited r hr)).ne'
    · simp only [ProcTable.alloc_life, Function.update_of_ne hin] at hi
      simp only [ProcTable.alloc_lifetime, Function.update_of_ne hin]
      exact h.reaped_gone r hr i hi

theorem allocFail : Ledger t.allocFail :=
  ⟨h.born, h.born_lt, h.born_nodup, h.inj, h.exited_born, h.exited_nodup, h.not_exited, h.zombie,
    h.reaped_exited, h.reaped_nodup, h.reaped_parent, h.reaped_gone⟩

theorem setParent (pp q : Fin n) : Ledger (t.setParent pp q) :=
  ⟨h.born, h.born_lt, h.born_nodup, h.inj, h.exited_born, h.exited_nodup, h.not_exited, h.zombie,
    h.reaped_exited, h.reaped_nodup, h.reaped_parent, h.reaped_gone⟩

/-- Only the new state of one slot, which is in use before and after. -/
theorem start {np : Fin n} (hnp : t.life np = .used) : Ledger (t.start np) := by
  have hused : ∀ i, (t.start np).life i ≠ .unused → t.life i ≠ .unused := by
    intro i hi
    by_cases hin : i = np
    · simp [hin, hnp]
    · simpa [hin] using hi
  refine ⟨fun i hi => h.born i (hused i hi), h.born_lt, h.born_nodup,
    fun i j hi hj => h.inj i j (hused i hi) (hused j hj), h.exited_born, h.exited_nodup, ?_, ?_,
    h.reaped_exited, h.reaped_nodup, h.reaped_parent,
    fun r hr i hi => h.reaped_gone r hr i (hused i hi)⟩
  · intro i hi
    by_cases hin : i = np
    · exact h.not_exited i (Or.inl (hin ▸ hnp))
    · exact h.not_exited i (by simpa [hin] using hi)
  · intro i hi
    have hin : i ≠ np := by
      rintro rfl
      simp at hi
    exact h.zombie i (by simpa [hin] using hi)

theorem exit {p : Fin n} (hp : t.life p = .live) (status : ℤ) : Ledger (t.exit p status) := by
  have hused : ∀ i, (t.exit p status).life i ≠ .unused → t.life i ≠ .unused := by
    intro i hi
    by_cases hip : i = p
    · simp [hip, hp]
    · simpa [hip] using hi
  have hborn := h.born p (by simp [hp])
  exact
    { born := fun i hi => h.born i (hused i hi)
      born_lt := h.born_lt
      born_nodup := h.born_nodup
      inj := fun i j hi hj => h.inj i j (hused i hi) (hused j hj)
      exited_born := by
        intro e he
        simp only [ProcTable.exit_record_exited, List.mem_cons] at he
        rcases he with rfl | he
        · exact hborn
        · exact h.exited_born e he
      exited_nodup := by
        simp only [ProcTable.exit_record_exited, List.map_cons, List.nodup_cons, List.mem_map, not_exists]
        refine ⟨?_, h.exited_nodup⟩
        rintro e ⟨he, heq⟩
        exact h.not_exited p (Or.inr hp) e he heq
      not_exited := by
        intro i hi e he
        have hip : i ≠ p := by
          rintro rfl
          simp at hi
        have hlife : t.life i = .used ∨ t.life i = .live := by simpa [hip] using hi
        simp only [ProcTable.exit_record_exited, List.mem_cons] at he
        rcases he with rfl | he
        · intro heq
          exact hip (h.inj p i (by simp [hp]) (by rcases hlife with hl | hl <;> simp [hl]) heq).symm
        · exact h.not_exited i hlife e he
      zombie := by
        intro i hi
        by_cases hip : i = p
        · subst hip
          simp
        · have hz := h.zombie i (by simpa [hip] using hi)
          simp [hip, hz]
      reaped_exited := fun r hr => List.mem_cons_of_mem _ (h.reaped_exited r hr)
      reaped_nodup := h.reaped_nodup
      reaped_parent := h.reaped_parent
      reaped_gone := fun r hr i hi => h.reaped_gone r hr i (hused i hi) }

theorem reap {p pp : Fin n} (hpp : t.life pp = .zombie) (hparent : t.parent pp = some p) :
    Ledger (t.reap p pp) := by
  have hne : ∀ i, (t.reap p pp).life i ≠ .unused → i ≠ pp := by
    rintro i hi rfl
    simp at hi
  have hused : ∀ i, (t.reap p pp).life i ≠ .unused → t.life i ≠ .unused := by
    intro i hi
    simpa [hne i hi] using hi
  exact
    { born := by
        intro i hi
        simpa [hne i hi] using h.born i (hused i hi)
      born_lt := h.born_lt
      born_nodup := h.born_nodup
      inj := fun i j hi hj => h.inj i j (hused i hi) (hused j hj)
      exited_born := h.exited_born
      exited_nodup := h.exited_nodup
      not_exited := by
        intro i hi
        have hin : i ≠ pp := by
          rintro rfl
          simp at hi
        exact h.not_exited i (by simpa [hin] using hi)
      zombie := by
        intro i hi
        have hin : i ≠ pp := by
          rintro rfl
          simp at hi
        simpa [hin] using h.zombie i (by simpa [hin] using hi)
      reaped_exited := by
        intro r hr
        simp only [ProcTable.reap_record_reaped, List.mem_cons] at hr
        rcases hr with rfl | hr
        · exact h.zombie pp hpp
        · exact h.reaped_exited r hr
      reaped_nodup := by
        simp only [ProcTable.reap_record_reaped, List.map_cons, List.nodup_cons, List.mem_map, not_exists]
        refine ⟨?_, h.reaped_nodup⟩
        rintro r ⟨hr, heq⟩
        exact h.reaped_gone r hr pp (by simp [hpp]) heq.symm
      reaped_parent := by
        intro r hr
        simp only [ProcTable.reap_record_reaped, List.mem_cons] at hr
        rcases hr with rfl | hr
        · exact hparent
        · exact h.reaped_parent r hr
      reaped_gone := by
        intro r hr i hi
        simp only [ProcTable.reap_record_reaped, List.mem_cons] at hr
        rcases hr with rfl | hr
        · intro heq
          exact hne i hi (h.inj i pp (hused i hi) (by simp [hpp]) heq)
        · exact h.reaped_gone r hr i (hused i hi) }

end Ledger

theorem Ledger.boot (initproc : Fin n) : Ledger (ProcTable.boot initproc) := by
  have hinit : ∀ i, (ProcTable.boot initproc).life i ≠ .unused → i = initproc := by
    intro i hi
    by_contra hne
    simp [ProcTable.boot, hne] at hi
  refine ⟨?_, ?_, ?_, ?_, ?_, ?_, ?_, ?_, ?_, ?_, ?_, ?_⟩
  · intro i hi
    simp [ProcTable.boot, hinit i hi]
  · simp [ProcTable.boot]
  · simp [ProcTable.boot]
  · intro i j hi hj _
    rw [hinit i hi, hinit j hj]
  · simp [ProcTable.boot]
  · simp [ProcTable.boot]
  · simp [ProcTable.boot]
  · intro i hi
    have := hinit i (by simp [hi])
    simp [ProcTable.boot, this] at hi
  · simp [ProcTable.boot]
  · simp [ProcTable.boot]
  · simp [ProcTable.boot]
  · simp [ProcTable.boot]

end Xv6.Proc
