import Xv6.Kernel.Reach

/-! # Pages that are not for the user

A page that is mapped without `PTE_U` is out of reach of page faults, `copyin` and
`copyout` unless it is marked copy-on-write.  Fork puts that mark on the guard page below
the stack.
-/
namespace Xv6.Vm
open Library Library.Exec Library.RefCount

variable [KernelImage] {G : Multiset ℕ} {pt pt' : PageTable} {k k' : Phys} {sz v a len : ℕ}
  {S : ℕ → Prop}

/-- Page `v` is mapped, but neither for the user nor copy-on-write. -/
structure Blocked (pt : PageTable) (v : ℕ) : Prop where
  valid : (leaf pt v).has PTE_V
  kernel : (leaf pt v).has PTE_U = false
  not_cow : (leaf pt v).has PTE_COW = false

omit [KernelImage] in
theorem Blocked.not_permitted (h : Blocked pt v) : ¬ Permitted pt v := by
  intro hp
  rcases hp h.valid with hU | hC
  · rw [h.kernel] at hU
    cases hU
  · rw [h.not_cow] at hC
    cases hC

/-- Code that remaps other pages leaves a blocked page alone. -/
theorem Blocked.leaf_eq (h : Blocked pt v) (hv : v < 2 ^ 26) (hmap : Remap S pt pt')
    (hev : Evolve G pt k pt' k') : leaf pt' v = leaf pt v := by
  rcases lt_or_ge v UPAGES with hlt | hge
  · exact hmap.fixed v hlt h.valid h.not_cow
  · exact hev.kernel v hge (by omega)

theorem Blocked.remap (h : Blocked pt v) (hv : v < 2 ^ 26) (hmap : Remap S pt pt')
    (hev : Evolve G pt k pt' k') : Blocked pt' v := by
  have heq := h.leaf_eq hv hmap hev
  exact ⟨heq ▸ h.valid, heq ▸ h.kernel, heq ▸ h.not_cow⟩

theorem vmfault_blocked {va : ℕ} (hva : va < MAXVA) (h : Blocked pt (va / PGSIZE)) (sz : ℕ)
    (read : Bool) (k : Phys) : vmfault pt sz va read k = .ok ((none, pt), k) := by
  have hM : MAXVA = 274877906944 := rfl
  rw [vmfault]
  by_cases hsz : sz ≤ va
  · rw [if_pos hsz]
    rfl
  rw [if_neg hsz]
  have hv : va / PGSIZE < 2 ^ 26 := by
    simp only [PGSIZE]
    omega
  have hdown : pgrounddown va = va / PGSIZE * PGSIZE := rfl
  have hslot : (slot pt (va / PGSIZE * PGSIZE)).isSome :=
    slot_isSome_of_valid (by rw [page_div]; exact h.valid)
  dsimp only
  rw [hdown, bind_of_ok (ismapped_run hv k), h.valid]
  simp only [Bool.not_true, Bool.false_eq_true, if_false]
  rw [bind_of_ok (walk_find (page_lt_maxva hv) k)]
  dsimp only
  rw [bind_of_ok (readSlot_run hslot k), page_div, h.not_cow, Bool.and_false]
  rfl

/-- `copyin` stops at a blocked page before it can leave the address space. -/
theorem copyinLoop_blocked (sz fuel : ℕ) {j : ℕ} (h : UserSpace pt k G) (hk : KernelPages pt)
    (hb : Blocked pt v) (hv : v < 2 ^ 26) (hj : j < len) (hjv : (a + j) / PGSIZE = v) :
    ∃ r, copyinLoop sz fuel pt a len k = .ok r := by
  have hM : MAXVA = 274877906944 := rfl
  induction fuel generalizing a len j pt k with
  | zero => exact ⟨_, rfl⟩
  | succ fuel ih =>
    have hlow : a / PGSIZE ≤ v ∧ pgrounddown a < MAXVA := by
      simp only [pgrounddown, PGSIZE] at *
      omega
    rw [copyinLoop, if_neg (by omega)]
    dsimp only
    have heq := (faultIn_min sz (pgrounddown a) k hk).resolve_left fun hc =>
      absurd hc.2.1 (not_le.mpr hlow.2)
    obtain ⟨r, pt₁, k₁, hrun, hf⟩ := faultIn_spec (pgrounddown a) (min_le_right sz TRAPFRAME) h
    rw [bind_of_ok (heq.trans hrun)]
    cases r with
    | none => exact ⟨_, rfl⟩
    | some pa =>
      have hdiv : pgrounddown a / PGSIZE = a / PGSIZE := page_div (a / PGSIZE)
      have hne : a / PGSIZE ≠ v := by
        rintro rfl
        have hperm := hf.permitted rfl
        rw [hdiv] at hperm
        exact hb.not_permitted hperm
      -- The rest of the range still touches the page.
      have hnext : chunk a len = PGSIZE - (a - pgrounddown a) ∧ chunk a len ≤ j ∧
          u64 (pgrounddown a + PGSIZE) = a + chunk a len := by
        simp only [chunk, u64, pgrounddown, PGSIZE] at *
        omega
      obtain ⟨-, hle, hu⟩ := hnext
      dsimp only
      rw [bind_of_ok (readMem_run _ _ _), hu]
      have hsum : a + chunk a len + (j - chunk a len) = a + j := by omega
      have hj' : j - chunk a len < len - chunk a len := by omega
      obtain ⟨r, hrest⟩ := ih hf.quiet.evolve.space (hk.evolve hf.quiet.evolve)
        (hb.remap hv hf.quiet.toRemap hf.quiet.evolve) hj' (by rw [hsum]; exact hjv)
      rw [bind_of_ok hrest]
      exact ⟨_, rfl⟩

/-- `copyin` from a range that touches a blocked page fails, and returns nothing of that
page. -/
theorem copyin_blocked (h : UserSpace pt k G) (hk : sz ≤ TRAPFRAME ∨ KernelPages pt)
    (hb : Blocked pt v) (hv : v < 2 ^ 26) {j : ℕ} (hj : j < len) (hjv : (a + j) / PGSIZE = v) :
    ∃ bytes pt' k', copyin pt sz a len k = .ok ((false, bytes, pt'), k') ∧
      bytes = bytesAt pt k.mem a bytes.length ∧ (∀ i < bytes.length, (a + i) / PGSIZE ≠ v) ∧
      Quiet G (fun _ => True) pt k pt' k' := by
  have hmin : copyin pt sz a len k = copyin pt (min sz TRAPFRAME) a len k := by
    rcases hk with hsz | hk
    · rw [min_eq_left hsz]
    · refine (copyin_min sz a len h hk).resolve_left fun hc => ?_
      obtain ⟨r, hok⟩ := copyinLoop_blocked sz len h hk hb hv hj hjv
      rw [copyin, hok] at hc
      cases hc.2
  obtain ⟨ok, bytes, pt', k', hrun, hc⟩ := copyin_spec (min_le_right sz TRAPFRAME) a len h
  have hbytes (i : ℕ) (hi : i < bytes.length) : (a + i) / PGSIZE ≠ v := fun heq =>
    hb.not_permitted (heq ▸ hc.permitted i hi)
  cases ok with
  | true => exact absurd hjv (hbytes j (by rw [hc.complete rfl]; exact hj))
  | false =>
    exact ⟨bytes, pt', k', hmin.trans hrun, hc.bytes_eq, hbytes, hc.quiet.mono fun _ _ => trivial⟩

/-- `copyout` to a range that touches a blocked page fails, and writes nothing to that page. -/
theorem copyout_blocked (h : UserSpace pt k G) (hk : sz ≤ TRAPFRAME ∨ KernelPages pt)
    (hb : Blocked pt v) (src : List UInt8) {j : ℕ} (hj : j < src.length)
    (hjv : (a + j) / PGSIZE = v) :
    ∃ bytes pt' k', copyout pt sz a src k = .ok ((false, pt'), k') ∧
      (∀ i < bytes.length, (a + i) / PGSIZE ≠ v) ∧ Wrote G (fun _ => True) a bytes pt k pt' k' := by
  have hmin : copyout pt sz a src k = copyout pt (min sz TRAPFRAME) a src k := by
    rcases hk with hsz | hk
    · rw [min_eq_left hsz]
    · exact copyout_min sz a src h hk
  obtain ⟨ok, m, pt', k', hrun, hc⟩ := copyout_spec (min_le_right sz TRAPFRAME) a src h
  have hpage (i : ℕ) (hi : i < m) : (a + i) / PGSIZE ≠ v := fun heq =>
    hb.not_permitted (heq ▸ hc.permitted i hi)
  cases ok with
  | true => exact absurd hjv (hpage j (by rw [hc.complete rfl]; exact hj))
  | false =>
    refine ⟨src.take m, pt', k', hmin.trans hrun, fun i hi => hpage i ?_,
      hc.wrote.mono fun _ _ => trivial⟩
    rw [List.length_take] at hi
    omega

/-- The contents of a blocked page survive a write to other pages. -/
theorem Blocked.page_eq {bytes : List UInt8} (hb : Blocked pt v) (hv : v < 2 ^ 26)
    (hpage : UPAGES ≤ v → pte2pa (leaf pt v) ∈ G ∨
      pte2pa (leaf pt v) % PGSIZE = 0 ∧ pte2pa (leaf pt v) < kend)
    (hw : Wrote G S a bytes pt k pt' k') (hbytes : ∀ i < bytes.length, (a + i) / PGSIZE ≠ v) (i : ℕ)
    (hi : i < PGSIZE) :
    k'.mem (pte2pa (leaf pt v) + i) = k.mem (pte2pa (leaf pt v) + i) := by
  rcases lt_or_ge v UPAGES with hlt | hge
  · have hview := hw.view_eq v hlt i hi
    have hout : ¬ (a ≤ v * PGSIZE + i ∧ v * PGSIZE + i < a + bytes.length) := by
      rintro ⟨h1, h2⟩
      refine hbytes (v * PGSIZE + i - a) (by omega) ?_
      rw [Nat.add_sub_cancel' h1, Nat.mul_comm, Nat.mul_add_div (by decide), Nat.div_eq_of_lt hi,
        Nat.add_zero]
    rw [patch, if_neg hout, view, view, hb.leaf_eq hv hw.toRemap hw.evolve, if_pos hb.valid,
      if_pos hb.valid] at hview
    exact hview
  · rcases hpage hge with hmem | ⟨hal, hlow⟩
    · exact hw.evolve.same.page _ hmem i hi
    · exact hw.evolve.same.text _ hal hlow i hi

end Xv6.Vm

namespace Xv6.Kernel
open Library Library.Exec Library.RefCount Vm

section
variable [KernelImage] {s : State} {p : ProcId} {pt : PageTable}

theorem pte2pa_trampoline : pte2pa (mapPte trampoline (PTE_R ||| PTE_X)) = trampoline := by
  have h1 := KernelImage.trampoline_lt_kend
  have h2 := KernelImage.kend_le_phystop
  have hp : PHYSTOP = 2281701376 := rfl
  exact pte2pa_mapPte KernelImage.trampoline_aligned (by omega)
    ((flagsOnly_one_shift (by omega)).or (flagsOnly_one_shift (by omega)))

/-- The address space of any entry of the process table, with what the rest of the kernel
owns. -/
theorem Inv.userSpace (h : Inv s 0) (hpt : (s.proc p).pagetable = some pt) :
    ∃ G, UserSpace pt s.phys G ∧ ((s.proc p).sz ≤ TRAPFRAME ∨ KernelPages pt) ∧
      ∀ v, UPAGES ≤ v → v < 2 ^ 26 → (leaf pt v).has PTE_V → pte2pa (leaf pt v) ∈ G ∨
        pte2pa (leaf pt v) % PGSIZE = 0 ∧ pte2pa (leaf pt v) < kend := by
  have hU := UPAGES_eq
  have htext (htr : leaf pt (UPAGES + 1) = mapPte trampoline (PTE_R ||| PTE_X)) :
      pte2pa (leaf pt (UPAGES + 1)) % PGSIZE = 0 ∧ pte2pa (leaf pt (UPAGES + 1)) < kend := by
    rw [htr, pte2pa_trampoline]
    exact ⟨KernelImage.trampoline_aligned, KernelImage.trampoline_lt_kend⟩
  have hpage (v : ℕ) (hge : UPAGES ≤ v) (hv : v < 2 ^ 26) : v = UPAGES ∨ v = UPAGES + 1 := by omega
  rcases h.procs p with he | ⟨pt', tf, hl⟩ | ⟨pt', hst⟩
  · rw [he] at hpt
    cases hpt
  · obtain rfl : pt' = pt := Option.some.inj (hl.pagetable.symm.trans hpt)
    refine ⟨outside s p tf, h.space hl, Or.inr hl.kernelPages, fun v hge hv hV => ?_⟩
    rcases hpage v hge hv with rfl | rfl
    · rw [h.pte2pa_tf hl]
      exact Or.inl (Multiset.mem_cons_self _ _)
    · exact Or.inr (htext hl.trampolineLeaf)
  · obtain rfl : pt' = pt := Option.some.inj (hst.pagetable.symm.trans hpt)
    have heq : owners s = own pt' + others s p := by rw [owners_eq s p, hst.procRefs_eq]
    have hacct := h.acct
    have hwf := hst.wf
    rw [heq] at hacct hwf
    refine ⟨others s p, ⟨hacct, hwf⟩, Or.inl hst.sz_le, fun v hge hv hV => ?_⟩
    rcases hpage v hge hv with rfl | rfl
    · rw [hst.gone] at hV
      cases hV
    · exact Or.inr (htext hst.trampolineLeaf)

end

end Xv6.Kernel
