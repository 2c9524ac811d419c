import Xv6.Vm.UvmSpec
import Mathlib.Algebra.BigOperators.Fin

/-! # Freeing page tables -/
namespace Xv6.Vm
open Library Library.Exec Library.RefCount

variable [KernelImage]

/-- Running `f` drops exactly the references `m`. -/
def Releases (f : VmM Unit) (m : Multiset ℕ) : Prop :=
  ∀ k refs, Acct k (m + refs) →
    ∃ k', f k = .ok ((), k') ∧ Step k k' refs refs ∧ k'.oom = k.oom

theorem releases_pure : Releases (pure ()) 0 := by
  intro k refs h
  rw [zero_add] at h
  exact ⟨k, rfl, Step.refl h refs, rfl⟩

theorem releases_kfree (pa : ℕ) : Releases (kfree pa) {pa} := by
  intro k refs h
  rw [Multiset.singleton_add] at h
  exact kfree_spec h

theorem Releases.bind {f g : VmM Unit} {m m' : Multiset ℕ} (hf : Releases f m)
    (hg : Releases g m') : Releases (f >>= fun _ => g) (m + m') := by
  intro k refs h
  rw [add_assoc] at h
  obtain ⟨k₁, hrun₁, hstep₁, hoom₁⟩ := hf k (m' + refs) h
  obtain ⟨k₂, hrun₂, hstep₂, hoom₂⟩ := hg k₁ refs hstep₁.acct
  refine ⟨k₂, ?_, ?_, hoom₂.trans hoom₁⟩
  · rw [bind_of_ok hrun₁, hrun₂]
  · exact (hstep₁.mono (Multiset.subset_of_le (Multiset.le_add_left _ _))).trans hstep₂

theorem releases_forM {ι : Type} (f : ι → VmM Unit) (m : ι → Multiset ℕ) (l : List ι)
    (h : ∀ i ∈ l, Releases (f i) (m i)) : Releases (l.forM f) (l.map m).sum := by
  induction l with
  | nil => exact releases_pure
  | cons i l ih =>
    rw [List.map_cons, List.sum_cons]
    exact (h i List.mem_cons_self).bind (ih fun j hj => h j (List.mem_cons_of_mem i hj))

theorem freewalk_succ (n : ℕ) (t : Table (n + 1)) : freewalk (n + 1) t =
    (List.finRange 512).forM (fun i => (t.2 i).elim (pure ()) (freewalk n)) >>= fun _ => kfree t.1 := by
  rw [freewalk]
  congr 2
  funext i
  cases t.2 i <;> rfl

theorem freewalk_releases (n : ℕ) (t : Table n)
    (h : ∀ d, ((Radix.get n t d).getD 0).has PTE_V = false) :
    Releases (freewalk n t) (Radix.tags n t) := by
  induction n with
  | zero =>
    have hloop := releases_forM (fun i : Fin 512 =>
        if (t.2 i).has PTE_V then
          if (t.2 i &&& (PTE_R ||| PTE_W ||| PTE_X)) = 0 then throw .freewalkData
          else throw .freewalkLeaf
        else pure ()) (fun _ => 0) (List.finRange 512) (by
      intro i _
      have hi : (t.2 i).has PTE_V = false := h fun _ => i
      rw [if_neg (by simp [hi])]
      exact releases_pure)
    have hall := hloop.bind (releases_kfree t.1)
    rw [List.map_const', List.sum_replicate, smul_zero, zero_add] at hall
    rw [Radix.tags_zero]
    exact hall
  | succ n ih =>
    have hloop := releases_forM (fun i => (t.2 i).elim (pure ()) (freewalk n))
        (fun i => (t.2 i).elim 0 (Radix.tags n)) (List.finRange 512) (by
      intro i _
      cases hc : t.2 i with
      | none => exact releases_pure
      | some c =>
        apply ih c
        intro d
        have hd := h (Function.update d (n + 1) i)
        rw [Radix.get, Function.update_self, hc, Option.bind_some,
          Radix.get_congr c (e := d)] at hd
        · exact hd
        · intro l hl
          rw [Function.update_of_ne (by omega)])
    have hall := hloop.bind (releases_kfree t.1)
    rw [← Fin.sum_univ_def, add_comm] at hall
    rw [freewalk_succ, Radix.tags_succ]
    exact hall

/-- `freewalk` ends only if no leaf is left. -/
theorem freewalk_ok (n : ℕ) (t : Table n) {k k' : Phys} (h : freewalk n t k = .ok ((), k'))
    (d : ℕ → Fin 512) : ((Radix.get n t d).getD 0).has PTE_V = false := by
  induction n generalizing k k' with
  | zero =>
    obtain ⟨⟨⟩, k₁, hloop, -⟩ := bind_ok h
    obtain ⟨k₂, k₃, hi⟩ := forM_ok hloop (List.mem_finRange (d 0))
    by_contra hV
    rw [if_pos (by simpa [Radix.get] using hV)] at hi
    split at hi <;> cases hi
  | succ n ih =>
    obtain ⟨⟨⟩, k₁, hloop, -⟩ := bind_ok h
    obtain ⟨k₂, k₃, hi⟩ := forM_ok hloop (List.mem_finRange (d (n + 1)))
    cases hc : t.2 (d (n + 1)) with
    | none =>
      rw [Radix.get, hc]
      exact has_zero _
    | some c =>
      rw [hc] at hi
      rw [Radix.get, hc, Option.bind_some]
      exact ih c hi

omit [KernelImage] in
theorem exists_page (d : ℕ → Fin 512) : ∃ v < 2 ^ 27, ∀ l ≤ 2, px (v * PGSIZE) l = d l := by
  refine ⟨(d 0).val + 512 * (d 1).val + 512 * 512 * (d 2).val, by omega, ?_⟩
  intro l hl
  apply Fin.ext
  simp only [px, Fin.ofNat, PGSIZE]
  interval_cases l <;> norm_num <;> omega

theorem freewalk_spec {pt : PageTable} (h : ∀ v < 2 ^ 27, (leaf pt v).has PTE_V = false) :
    Releases (freewalk 2 pt) (tables pt) := by
  apply freewalk_releases
  intro d
  obtain ⟨v, hv, hd⟩ := exists_page d
  have hleaf := h v hv
  rw [leaf, slot, Radix.get_congr pt hd] at hleaf
  exact hleaf

variable {G : Multiset ℕ} {pt pt' : PageTable} {k k' : Phys}

theorem Unmapped.invalid {lo hi v : ℕ} (h : Unmapped G lo hi pt k pt' k') (hv : v < 2 ^ 27)
    (hlo : lo ≤ v) (hhi : v < hi) : (leaf pt' v).has PTE_V = false := by
  rw [h.leaf_eq v hv]
  split
  · exact has_zero _
  · next hno => simpa [hlo, hhi] using hno

/-- Without leaves the tables are all that is left. -/
theorem freewalk_space (h : UserSpace pt k G)
    (hinvalid : ∀ v < 2 ^ 27, (leaf pt v).has PTE_V = false) :
    ∃ k', freewalk 2 pt k = .ok ((), k') ∧ Step k k' G G ∧ k'.oom = k.oom := by
  have hU := UPAGES_eq
  have hown : own pt = tables pt := by
    rw [own, leafRefs_eq_zero fun v hv => hinvalid v (by omega), zero_add]
  exact freewalk_spec hinvalid k G (hown ▸ h.acct)

theorem Unmapped.step {lo hi : ℕ} {k₁ : Phys} (h : Unmapped G lo hi pt k pt' k₁)
    (hstep : Step k₁ k' G G) : Step k k' G G where
  acct := hstep.acct
  same := (h.same.mono (Multiset.subset_of_le (Multiset.le_add_left _ _))).trans hstep.same
  oom_mono := fun ho => hstep.oom_mono (h.oom_eq.trans ho)

theorem uvmfree_spec {sz : ℕ} (hsz : sz ≤ TRAPFRAME) (h : UserSpace pt k G)
    (habove : ∀ v, npages sz ≤ v → v < UPAGES → (leaf pt v).has PTE_V = false)
    (hkernel : ∀ v, UPAGES ≤ v → v < 2 ^ 27 → (leaf pt v).has PTE_V = false) :
    ∃ k', uvmfree pt sz k = .ok ((), k') ∧ Step k k' G G ∧ k'.oom = k.oom := by
  have hU := UPAGES_eq
  have hT : TRAPFRAME = 274877898752 := rfl
  have hM : MAXVA = 274877906944 := rfl
  obtain ⟨pt₁, k₁, hrun, hun⟩ := uvmunmap_spec 0 (npages sz) (by have := npages_le hsz; omega) h
  rw [zero_mul] at hrun
  rw [zero_add] at hun
  have hinvalid : ∀ v < 2 ^ 27, (leaf pt₁ v).has PTE_V = false := by
    intro v hv
    by_cases hlt : v < npages sz
    · exact hun.invalid hv (Nat.zero_le v) hlt
    · rw [hun.leaf_eq v hv, if_neg (by omega)]
      by_cases hvU : v < UPAGES
      · exact habove v (by omega) hvU
      · exact hkernel v (by omega) hv
  obtain ⟨k', hfree, hstep, hoom⟩ := freewalk_space hun.space hinvalid
  refine ⟨k', ?_, hun.step hstep, hoom.trans hun.oom_eq⟩
  by_cases hz : 0 < sz
  · rw [uvmfree, if_pos hz, pgroundup_eq (by omega), page_div, bind_of_ok hrun]
    exact hfree
  · have hz0 : npages sz = 0 := by
      simp only [npages, PGSIZE]
      omega
    rw [hz0, uvmunmap, if_neg (by decide)] at hrun
    obtain ⟨rfl, rfl⟩ : pt = pt₁ ∧ k = k₁ := by
      simpa [u64, pagesBetween, PGSIZE, uvmunmapLoop, pure_run] using hrun
    rw [uvmfree, if_neg hz, bind_of_ok (pure_run _ _)]
    exact hfree

end Xv6.Vm
