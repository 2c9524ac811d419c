import Xv6.Vm.FreeSpec
import Xv6.Vm.ShareSpec
import Xv6.Vm.WriteSpec

/-! # Sizes above TRAPFRAME

`sys_sbrk` puts no bound on the size of a process.  With a size above
`TRAPFRAME` the functions of vm.c either panic or do what they do with a size of
`TRAPFRAME`, except that shrinking may free the trapframe page.
-/
namespace Xv6.Vm
open Library Library.Exec Library.RefCount

variable [KernelImage] {G : Multiset ℕ} {pt pt₁ pt' : PageTable} {k k₁ k' : Phys}

/-- The two kernel pages are mapped; neither is copy-on-write, and the second
one lies in the kernel. -/
structure KernelPages (pt : PageTable) : Prop where
  valid : ∀ v, UPAGES ≤ v → v < UPAGES + 2 → (leaf pt v).has PTE_V
  not_cow : ∀ v, UPAGES ≤ v → v < UPAGES + 2 → (leaf pt v).has PTE_COW = false
  text : pte2pa (leaf pt (UPAGES + 1)) < kend

theorem kernelPages_of_leaves {tf : ℕ} (htf : leaf pt UPAGES = mapPte tf (PTE_R ||| PTE_W))
    (htr : leaf pt (UPAGES + 1) = mapPte trampoline (PTE_R ||| PTE_X)) : KernelPages pt := by
  have hpage (v : ℕ) (hv : UPAGES ≤ v) (hlt : v < UPAGES + 2) : v = UPAGES ∨ v = UPAGES + 1 := by
    omega
  have hcow : (PTE_R ||| PTE_W).has PTE_COW = false ∧ (PTE_R ||| PTE_X).has PTE_COW = false := by
    decide
  have hflags : FlagsOnly (PTE_R ||| PTE_X) :=
    (flagsOnly_one_shift (by omega)).or (flagsOnly_one_shift (by omega))
  have hlow : trampoline < 2 ^ 56 := by
    have h1 := KernelImage.trampoline_lt_kend
    have h2 := KernelImage.kend_le_phystop
    have hp : PHYSTOP = 2281701376 := rfl
    omega
  refine ⟨fun v hv hlt => ?_, fun v hv hlt => ?_, ?_⟩
  · rcases hpage v hv hlt with rfl | rfl
    · rw [htf]
      exact mapPte_flags.1
    · rw [htr]
      exact mapPte_flags.1
  · rcases hpage v hv hlt with rfl | rfl
    · rw [htf, mapPte_flags.2.2.2.2.2]
      exact hcow.1
    · rw [htr, mapPte_flags.2.2.2.2.2]
      exact hcow.2
  · rw [htr, pte2pa_mapPte KernelImage.trampoline_aligned hlow hflags]
    exact KernelImage.trampoline_lt_kend

theorem KernelPages.evolve (h : KernelPages pt) (hev : Evolve G pt k pt' k') :
    KernelPages pt' := by
  have hU := UPAGES_eq
  refine ⟨fun v hv hlt => ?_, fun v hv hlt => ?_, ?_⟩
  · rw [hev.kernel v hv (by omega)]
    exact h.valid v hv hlt
  · rw [hev.kernel v hv (by omega)]
    exact h.not_cow v hv hlt
  · rw [hev.kernel _ (by omega) (by omega)]
    exact h.text

/-! ## Page faults and copies -/

section
variable {va : ℕ}

omit [KernelImage] in
theorem walk_beyond {alloc : Bool} (h : MAXVA ≤ va) : walk pt va alloc k = .error .walk := by
  rw [walk, if_pos h]
  rfl

/-- A fault on a kernel page or above finds nothing or panics. -/
theorem vmfault_above (sz : ℕ) (read : Bool) (k : Phys) (hk : KernelPages pt)
    (hva : TRAPFRAME ≤ va) :
    (va < sz ∧ MAXVA ≤ va ∧ vmfault pt sz va read k = .error .walk) ∨
      vmfault pt sz va read k = .ok ((none, pt), k) := by
  have hU := UPAGES_eq
  have hM : MAXVA = 274877906944 := rfl
  have hT : TRAPFRAME = 274877898752 := rfl
  by_cases hsz : sz ≤ va
  · right
    rw [vmfault, if_pos hsz]
    rfl
  rw [vmfault, if_neg hsz]
  dsimp only
  by_cases hmax : MAXVA ≤ pgrounddown va
  · refine Or.inl ⟨not_le.mp hsz, hmax.trans (Nat.div_mul_le_self va PGSIZE), bind_of_error ?_⟩
    rw [ismapped, bind_of_error (walk_beyond hmax)]
  · right
    obtain ⟨v, hv⟩ : ∃ v, va / PGSIZE = v := ⟨_, rfl⟩
    have hdown : pgrounddown va = v * PGSIZE := by rw [pgrounddown, hv]
    have hlo : UPAGES ≤ v := by
      simp only [PGSIZE] at hv
      omega
    have hhi : v < UPAGES + 2 := by
      rw [hdown] at hmax
      simp only [PGSIZE] at hmax
      omega
    have hV := hk.valid v hlo hhi
    have hs : (slot pt (v * PGSIZE)).isSome := slot_isSome_of_valid (by rwa [page_div])
    have hread := readSlot_run hs k
    rw [page_div] at hread
    rw [hdown, bind_of_ok (ismapped_run (by omega) k), hV]
    simp only [Bool.not_true, Bool.false_eq_true, if_false]
    rw [bind_of_ok (walk_find (page_lt_maxva (by omega)) k)]
    dsimp only
    rw [bind_of_ok hread, hk.not_cow v hlo hhi, Bool.and_false]
    rfl

/-- A fault does with a size above `TRAPFRAME` what it does with `TRAPFRAME`,
or panics above `MAXVA`. -/
theorem vmfault_min (sz va : ℕ) (read : Bool) (k : Phys) (hk : KernelPages pt) :
    (TRAPFRAME < sz ∧ MAXVA ≤ va ∧ vmfault pt sz va read k = .error .walk) ∨
      vmfault pt sz va read k = vmfault pt (min sz TRAPFRAME) va read k := by
  rcases Nat.lt_or_ge va TRAPFRAME with hlow | hhigh
  · right
    have hiff : min sz TRAPFRAME ≤ va ↔ sz ≤ va :=
      min_le_iff.trans (or_iff_left (not_le.mpr hlow))
    rw [vmfault, vmfault]
    simp only [hiff]
  · rcases vmfault_above sz read k hk hhigh with ⟨hlt, hmax, he⟩ | hrun
    · exact Or.inl ⟨hhigh.trans_lt hlt, hmax, he⟩
    · right
      rw [hrun, vmfault, if_pos ((min_le_right _ _).trans hhigh)]
      rfl

theorem faultIn_min (sz va : ℕ) (k : Phys) (hk : KernelPages pt) :
    (TRAPFRAME < sz ∧ MAXVA ≤ va ∧ faultIn pt sz va k = .error .walk) ∨
      faultIn pt sz va k = faultIn pt (min sz TRAPFRAME) va k := by
  rw [faultIn, faultIn, bind_of_ok (walkaddr_run va k), bind_of_ok (walkaddr_run va k)]
  split
  · exact Or.inr rfl
  · exact vmfault_min sz va false k hk

theorem breakCow_min (sz pa : ℕ) (k : Phys) (hva : va < MAXVA) (hk : KernelPages pt) :
    breakCow pt sz va pa k = breakCow pt (min sz TRAPFRAME) va pa k := by
  rw [breakCow, breakCow]
  cases hread : readSlot pt va k with
  | error e => rw [bind_of_error hread, bind_of_error hread]
  | ok r =>
    rw [bind_of_ok hread, bind_of_ok hread]
    split
    · cases hr : slot pt va with
      | none =>
        rw [readSlot, hr] at hread
        cases hread
      | some pte =>
        rw [readSlot, hr] at hread
        cases hread
        exact (vmfault_min sz va false k hk).resolve_left fun hc => absurd hc.2.1 (not_le.mpr hva)
    · rfl

theorem copyinLoop_min (sz fuel va len : ℕ) (h : UserSpace pt k G) (hk : KernelPages pt) :
    (TRAPFRAME < sz ∧ copyinLoop sz fuel pt va len k = .error .walk) ∨
      copyinLoop sz fuel pt va len k = copyinLoop (min sz TRAPFRAME) fuel pt va len k := by
  induction fuel generalizing va len pt k with
  | zero => exact Or.inr rfl
  | succ fuel ih =>
    rw [copyinLoop, copyinLoop]
    by_cases hlen : len = 0
    · rw [if_pos hlen, if_pos hlen]
      exact Or.inr rfl
    rw [if_neg hlen, if_neg hlen]
    dsimp only
    rcases faultIn_min sz (pgrounddown va) k hk with ⟨hbig, -, he⟩ | heq
    · exact Or.inl ⟨hbig, bind_of_error he⟩
    obtain ⟨r, pt₁, k₁, hrun, hf⟩ := faultIn_spec (pgrounddown va) (min_le_right sz TRAPFRAME) h
    rw [bind_of_ok (heq.trans hrun), bind_of_ok hrun]
    cases r with
    | none => exact Or.inr rfl
    | some pa =>
      dsimp only
      rw [bind_of_ok (readMem_run _ _ _), bind_of_ok (readMem_run _ _ _)]
      rcases ih (u64 (pgrounddown va + PGSIZE)) (len - chunk va len) hf.quiet.evolve.space
        (hk.evolve hf.quiet.evolve) with ⟨hbig, he⟩ | heq'
      · exact Or.inl ⟨hbig, bind_of_error he⟩
      · right
        cases hres : copyinLoop (min sz TRAPFRAME) fuel pt₁ (u64 (pgrounddown va + PGSIZE))
            (len - chunk va len) k₁ with
        | error e => rw [bind_of_error (heq'.trans hres), bind_of_error hres]
        | ok r => rw [bind_of_ok (heq'.trans hres), bind_of_ok hres]

theorem copyin_min (sz va len : ℕ) (h : UserSpace pt k G) (hk : KernelPages pt) :
    (TRAPFRAME < sz ∧ copyin pt sz va len k = .error .walk) ∨
      copyin pt sz va len k = copyin pt (min sz TRAPFRAME) va len k :=
  copyinLoop_min sz len va len h hk

/-- `copyout` looks at `MAXVA` first, so it never panics. -/
theorem copyoutLoop_min (sz fuel va : ℕ) (src : List UInt8) (h : UserSpace pt k G)
    (hk : KernelPages pt) :
    copyoutLoop sz fuel pt va src k = copyoutLoop (min sz TRAPFRAME) fuel pt va src k := by
  induction fuel generalizing va src pt k with
  | zero => rfl
  | succ fuel ih =>
    rw [copyoutLoop, copyoutLoop]
    by_cases hlen : src.length = 0
    · rw [if_pos hlen, if_pos hlen]
    rw [if_neg hlen, if_neg hlen]
    by_cases hmax : MAXVA ≤ pgrounddown va
    · rw [if_pos hmax, if_pos hmax]
    rw [if_neg hmax, if_neg hmax]
    dsimp only
    have heq := (faultIn_min sz (pgrounddown va) k hk).resolve_left fun hc => hmax hc.2.1
    obtain ⟨r, pt₁, k₁, hrun, hready⟩ := readyOut_spec va (min_le_right sz TRAPFRAME) h
    obtain ⟨r₀, pt₀, k₀, hrun₀, hf⟩ := faultIn_spec (pgrounddown va) (min_le_right sz TRAPFRAME) h
    obtain ⟨⟨rfl, rfl⟩, rfl⟩ : (r₀ = r ∧ pt₀ = pt₁) ∧ k₀ = k₁ := by
      simpa using hrun₀.symm.trans hrun
    rw [bind_of_ok (heq.trans hrun), bind_of_ok hrun]
    rcases hready with ⟨rfl, -⟩ | ⟨pa, r', pt₂, k₂, rfl, hrun', hr⟩
    · rfl
    dsimp only
    have heq' := breakCow_min sz pa k₀ (not_le.mp hmax) (hk.evolve hf.quiet.evolve)
    rw [bind_of_ok (heq'.trans hrun'), bind_of_ok hrun']
    cases r' with
    | none => rfl
    | some pa' =>
      obtain ⟨-, hV, -, -⟩ := hr.hit pa' rfl
      have hdiv : pgrounddown va / PGSIZE = va / PGSIZE := page_div _
      have hread := readSlot_run (slot_isSome_of_valid (by rwa [hdiv])) k₂
      dsimp only
      rw [bind_of_ok hread, bind_of_ok hread]
      split
      · rfl
      · rw [bind_of_ok (setMem_run _ _), bind_of_ok (setMem_run _ _)]
        exact ih _ _ ⟨hr.quiet.evolve.space.acct, hr.quiet.evolve.space.wf⟩
          (hk.evolve hr.quiet.evolve)

theorem copyout_min (sz va : ℕ) (src : List UInt8) (h : UserSpace pt k G) (hk : KernelPages pt) :
    copyout pt sz va src k = copyout pt (min sz TRAPFRAME) va src k :=
  copyoutLoop_min sz src.length va src h hk

end

/-! ## Mapping over a mapped page -/

omit [KernelImage] in
theorem walkFrom_alloc_found (va n : ℕ) (t : Table n) (h : (Radix.get n t (px va)).isSome)
    (k : Phys) : walkFrom true va n t k = .ok ((true, t), k) := by
  induction n with
  | zero => rfl
  | succ n ih =>
    rw [walkFrom]
    cases hc : t.2 (px va (n + 1)) with
    | none => simp [Radix.get, hc] at h
    | some c =>
      rw [Radix.get, hc, Option.bind_some] at h
      change (walkFrom true va n c >>= _) k = _
      rw [bind_of_ok (ih c h)]
      simp [pure_run, Radix.graft_self t _ c hc]

omit [KernelImage] in
/-- `mappages` panics on a page that is mapped already or lies above `MAXVA`. -/
theorem mappages_panics {v : ℕ} (pa : ℕ) (perm : Pte)
    (h : 2 ^ 26 ≤ v ∨ (leaf pt v).has PTE_V) (k : Phys) :
    ∃ e, mappages pt (v * PGSIZE) PGSIZE pa perm k = .error e := by
  have hM : MAXVA = 274877906944 := rfl
  have hcall : mappages pt (v * PGSIZE) PGSIZE pa perm =
      mappagesLoop perm 1 pt (v * PGSIZE) pa := by
    rw [mappages, if_neg (by simp), if_neg (by simp), if_neg (by decide)]
    rfl
  rw [hcall, mappagesLoop]
  by_cases hmax : MAXVA ≤ v * PGSIZE
  · exact ⟨.walk, bind_of_error (walk_beyond hmax)⟩
  · have hv : v < 2 ^ 26 := by
      simp only [PGSIZE] at hmax
      omega
    have hV : (leaf pt v).has PTE_V := h.resolve_left (not_le.mpr hv)
    have hs : (slot pt (v * PGSIZE)).isSome := slot_isSome_of_valid (by rwa [page_div])
    have hwalk : walk pt (v * PGSIZE) true k = .ok ((true, pt), k) := by
      rw [walk, if_neg hmax]
      exact walkFrom_alloc_found _ 2 pt hs k
    have hread := readSlot_run hs k
    rw [page_div] at hread
    refine ⟨.mappagesRemap, ?_⟩
    rw [bind_of_ok hwalk]
    simp only [Bool.not_true, Bool.false_eq_true, if_false]
    rw [bind_of_ok hread, if_pos hV]
    rfl

/-! ## fork -/

theorem uvmcopyLoop_add (n m : ℕ) (old new : PageTable) (i : ℕ) :
    uvmcopyLoop (n + m) old new i = uvmcopyLoop n old new i >>= fun r =>
      if r.1 then uvmcopyLoop m r.2.1 r.2.2 (i + n * PGSIZE) else pure r := by
  induction n generalizing old new i with
  | zero => simp [uvmcopyLoop]
  | succ n ih =>
    have haddr : i + PGSIZE + n * PGSIZE = i + (n + 1) * PGSIZE := by ring
    rw [Nat.succ_add, uvmcopyLoop, uvmcopyLoop, bind_assoc]
    congr 1
    funext r
    obtain ⟨ok, old, new⟩ := r
    cases ok with
    | true => simp [ih, haddr]
    | false => simp

omit [KernelImage] in
/-- A page that the child has mapped already cannot be shared with it. -/
theorem uvmcopyPage_panics {old new : PageTable} {v : ℕ} (hv : v < 2 ^ 26)
    (hold : (leaf old v).has PTE_V) (hnew : (leaf new v).has PTE_V) (k : Phys) :
    ∃ e, uvmcopyPage old new (v * PGSIZE) k = .error e := by
  have hs : (slot old (v * PGSIZE)).isSome := slot_isSome_of_valid (by rwa [page_div])
  have hread := readSlot_run hs k
  rw [page_div] at hread
  rw [uvmcopyPage, bind_of_ok (walk_find (page_lt_maxva hv) k), hs]
  simp only [Bool.not_true, Bool.false_eq_true, if_false]
  rw [bind_of_ok hread]
  simp only [hold, Bool.not_true, Bool.false_eq_true, if_false]
  split <;> exact (mappages_panics _ _ (Or.inr hnew) k).imp fun e he => bind_of_error he

/-- fork of a process whose size is above `TRAPFRAME` fails or panics. -/
theorem uvmcopy_big {old new : PageTable} {sz : ℕ} (hbig : TRAPFRAME < sz)
    (hs : Sharing G old new k) (hfree : ∀ v < UPAGES, (leaf new v).has PTE_V = false)
    (hold : (leaf old UPAGES).has PTE_V) (hnew : (leaf new UPAGES).has PTE_V) :
    (∃ e, uvmcopy old new sz k = .error e) ∨
      ∃ old' new' k', uvmcopy old new sz k = .ok ((false, old', new'), k') ∧
        ShareFailed G old new k old' new' k' := by
  have hU := UPAGES_eq
  have hT : TRAPFRAME = 274877898752 := rfl
  obtain ⟨m, hm⟩ : ∃ m, pagesBetween 0 sz = UPAGES + (m + 1) := by
    refine ⟨pagesBetween 0 sz - UPAGES - 1, ?_⟩
    simp only [pagesBetween, PGSIZE]
    omega
  obtain ⟨ok, old₁, new₁, k₁, hrun, hyes, hno⟩ := uvmcopyLoop_spec UPAGES 0 (by omega) hs
    (fun v _ hv => hfree v hv)
  rw [zero_mul] at hrun
  rw [uvmcopy, hm, uvmcopyLoop_add, bind_of_ok hrun]
  cases ok with
  | false => exact Or.inr ⟨old₁, new₁, k₁, rfl, hno rfl⟩
  | true =>
    have hsh := hyes rfl
    left
    have hold₁ : (leaf old₁ UPAGES).has PTE_V := by
      rw [hsh.sameMap.kernel _ le_rfl (by omega)]
      exact hold
    have hnew₁ : (leaf new₁ UPAGES).has PTE_V := by
      rw [hsh.rest _ (by omega) (by omega)]
      exact hnew
    obtain ⟨e, he⟩ := uvmcopyPage_panics (by omega) hold₁ hnew₁ k₁
    refine ⟨e, ?_⟩
    rw [if_pos rfl, zero_add, uvmcopyLoop]
    exact bind_of_error he

/-! ## Unmapping -/

theorem uvmunmapLoop_add (doFree : Bool) (n m : ℕ) (pt : PageTable) (a : ℕ) :
    uvmunmapLoop doFree (n + m) pt a = uvmunmapLoop doFree n pt a >>= fun pt =>
      uvmunmapLoop doFree m pt (a + n * PGSIZE) := by
  induction n generalizing pt a with
  | zero => simp [uvmunmapLoop]
  | succ n ih =>
    have haddr : a + PGSIZE + n * PGSIZE = a + (n + 1) * PGSIZE := by ring
    rw [Nat.succ_add, uvmunmapLoop, uvmunmapLoop, bind_assoc]
    congr 1
    funext pt
    rw [ih, haddr]

theorem uvmunmapLoop_skip {doFree : Bool} {n v : ℕ} (hv : v + n ≤ 2 ^ 26)
    (h : ∀ w, v ≤ w → w < v + n → (leaf pt w).has PTE_V = false) :
    uvmunmapLoop doFree n pt (v * PGSIZE) k = .ok (pt, k) := by
  induction n generalizing v with
  | zero => rfl
  | succ n ih =>
    rw [uvmunmapLoop, bind_of_ok (uvmunmapPage_skip (by omega) (h v le_rfl (by omega))), page_succ]
    exact ih (by omega) fun w hw hlt => h w (by omega) (by omega)

theorem uvmunmapLoop_beyond (doFree : Bool) (n : ℕ) (pt : PageTable) (k : Phys) {v : ℕ}
    (hv : 2 ^ 26 ≤ v) :
    ∃ e, uvmunmapLoop doFree (n + 1) pt (v * PGSIZE) k = .error e := by
  have hM : MAXVA = 274877906944 := rfl
  have hmax : MAXVA ≤ v * PGSIZE := by
    simp only [PGSIZE]
    omega
  refine ⟨.walk, ?_⟩
  rw [uvmunmapLoop]
  apply bind_of_error
  rw [uvmunmapPage]
  exact bind_of_error (walk_beyond hmax)

/-- It panics on the trampoline page when it is to free it. -/
theorem uvmunmapLoop_trampoline (n : ℕ) (k : Phys) (hV : (leaf pt (UPAGES + 1)).has PTE_V)
    (htext : pte2pa (leaf pt (UPAGES + 1)) < kend) :
    ∃ e, uvmunmapLoop true (n + 1) pt ((UPAGES + 1) * PGSIZE) k = .error e := by
  have hU := UPAGES_eq
  refine ⟨.kfree, ?_⟩
  rw [uvmunmapLoop]
  apply bind_of_error
  rw [uvmunmapPage_valid (by omega) hV]
  simp only [if_true]
  apply bind_of_error
  rw [kfree, if_pos (Or.inr (Or.inl htext))]

/-- The trapframe page has been unmapped and freed. -/
structure TrapframeFreed (G : Multiset ℕ) (pt : PageTable) (k : Phys) (pt' : PageTable)
    (k' : Phys) : Prop where
  space : UserSpace pt' k' G
  same : SameOn (own pt + G) k.mem k'.mem
  own_eq : own pt' = own pt
  oom_eq : k'.oom = k.oom
  leaf_eq : ∀ w < 2 ^ 27, leaf pt' w = if w = UPAGES then 0 else leaf pt w

theorem uvmunmapPage_trapframe {tf : ℕ} (hV : (leaf pt UPAGES).has PTE_V)
    (htf : pte2pa (leaf pt UPAGES) = tf) (h : UserSpace pt k (tf ::ₘ G)) :
    ∃ pt' k', uvmunmapPage true pt (UPAGES * PGSIZE) k = .ok (pt', k') ∧
      TrapframeFreed G pt k pt' k' := by
  have hU := UPAGES_eq
  have hset := setLeaf_clear (show UPAGES < 2 ^ 26 by omega) hV
  have hown := own_setLeaf_kernel 0 le_rfl hset (by simp)
  rw [zero_add] at hown
  have hacct := h.acct
  rw [Multiset.add_cons] at hacct
  obtain ⟨k', hrun, hstep, hoom⟩ := kfree_spec hacct
  have hsh : NoNewSharing (own pt + tf ::ₘ G) (own pt + G) :=
    NoNewSharing.of_le (Multiset.add_le_add_left (Multiset.le_cons_self _ _))
  refine ⟨setSlot pt (UPAGES * PGSIZE) 0, k', ?_, ⟨by rw [hown]; exact hstep.acct, ?_⟩, hstep.same,
    hown, hoom, hset⟩
  · rw [uvmunmapPage_valid (by omega) hV, htf]
    simp only [if_true]
    rw [bind_of_ok hrun]
    rfl
  · rw [hown]
    refine h.wf.setKernel (fun w hw => by rw [hset w (by omega), if_neg (by omega)]) ?_ ?_ hsh
      (by rw [hown]; exact Multiset.le_add_right _ _)
    · intro w hw hwlt
      rw [hset w hwlt]
      split
      · exact has_zero _
      · exact h.wf.supervisor w hw hwlt
    · intro w hw hwlt
      rw [hset w hwlt]
      split
      · exact has_zero _
      · exact h.wf.beyond w hw hwlt

omit [KernelImage] in
/-- Rounding up wraps around in the last page of the 64-bit address space. -/
theorem pgroundup_cases {sz : ℕ} (h : sz < 2 ^ 64) :
    (2 ^ 64 - PGSIZE < sz ∧ pgroundup sz = 0) ∨
      (npages sz * PGSIZE < 2 ^ 64 ∧ pgroundup sz = npages sz * PGSIZE) := by
  simp only [pgroundup, u64, npages, PGSIZE]
  omega

/-- Freeing the table of a process whose size is above `TRAPFRAME`, once the kernel
pages are unmapped, panics or gives everything back. -/
theorem uvmfree_big {sz : ℕ} (hbig : TRAPFRAME < sz) (h64 : sz < 2 ^ 64) (h : UserSpace pt k G)
    (hkernel : ∀ v, UPAGES ≤ v → v < 2 ^ 27 → (leaf pt v).has PTE_V = false) :
    (∃ e, uvmfree pt sz k = .error e) ∨
      ∃ k', uvmfree pt sz k = .ok ((), k') ∧ Step k k' G G ∧ k'.oom = k.oom := by
  have hU := UPAGES_eq
  have hT : TRAPFRAME = 274877898752 := rfl
  have hpos : 0 < sz := by omega
  rw [uvmfree, if_pos hpos]
  rcases pgroundup_cases h64 with ⟨-, hround⟩ | ⟨hlt, hround⟩
  · -- The size rounds to 0, so that no page is unmapped.
    have hnone : uvmunmap pt 0 (pgroundup sz / PGSIZE) true k = .ok (pt, k) := by
      rw [hround]
      rfl
    rw [bind_of_ok hnone]
    by_cases hall : ∀ v < 2 ^ 27, (leaf pt v).has PTE_V = false
    · exact Or.inr (freewalk_space h hall)
    · left
      cases hrun : freewalk 2 pt k with
      | error e => exact ⟨e, hrun⟩
      | ok r => exact absurd (fun v _ => freewalk_ok 2 pt hrun (px (v * PGSIZE))) hall
  obtain ⟨m, hm⟩ : ∃ m, npages sz = UPAGES + m := by
    refine ⟨npages sz - UPAGES, ?_⟩
    simp only [npages, PGSIZE]
    omega
  have hloop : uvmunmap pt 0 (pgroundup sz / PGSIZE) true =
      uvmunmapLoop true (UPAGES + m) pt 0 := by
    have hu : u64 (0 + (UPAGES + m) * PGSIZE) = (0 + (UPAGES + m)) * PGSIZE := by
      rw [zero_add, zero_add, ← hm]
      exact Nat.mod_eq_of_lt hlt
    have hbetween := pagesBetween_page 0 (UPAGES + m)
    rw [zero_mul] at hbetween
    rw [hround, page_div, uvmunmap, if_neg (by decide), hm, hu, hbetween]
  obtain ⟨pt₁, k₁, hrun₁, hun⟩ := uvmunmapLoop_spec UPAGES 0 (by omega) h
  rw [zero_mul] at hrun₁
  rw [zero_add] at hun
  have hinvalid : ∀ v < 2 ^ 27, (leaf pt₁ v).has PTE_V = false := by
    intro v hv
    by_cases hlow : v < UPAGES
    · exact hun.invalid hv (Nat.zero_le v) hlow
    · rw [hun.leaf_eq v hv, if_neg (by omega)]
      exact hkernel v (by omega) hv
  rw [hloop, uvmunmapLoop_add, zero_add, bind_assoc, bind_of_ok hrun₁]
  rcases Nat.lt_or_ge 2 m with hmore | hfew
  · left
    have hskip : uvmunmapLoop true 2 pt₁ (UPAGES * PGSIZE) k₁ = .ok (pt₁, k₁) :=
      uvmunmapLoop_skip (by omega) fun w hw hlt => hinvalid w (by omega)
    obtain ⟨n, rfl⟩ : ∃ n, m = 2 + (n + 1) := ⟨m - 3, by omega⟩
    obtain ⟨e, he⟩ := uvmunmapLoop_beyond true n pt₁ k₁
      (show 2 ^ 26 ≤ UPAGES + 2 by omega)
    refine ⟨e, ?_⟩
    rw [uvmunmapLoop_add, bind_assoc, bind_of_ok hskip, ← Nat.add_mul]
    exact bind_of_error he
  · right
    have hskip : uvmunmapLoop true m pt₁ (UPAGES * PGSIZE) k₁ = .ok (pt₁, k₁) :=
      uvmunmapLoop_skip (by omega) fun w hw hlt => hinvalid w (by omega)
    obtain ⟨k', hfree, hstep, hoom⟩ := freewalk_space hun.space hinvalid
    refine ⟨k', ?_, hun.step hstep, hoom.trans hun.oom_eq⟩
    rw [bind_of_ok hskip]
    exact hfree

/-- Shrinking from a size above `TRAPFRAME` panics, or stays above, or frees the
trapframe page. -/
theorem uvmdealloc_big {tf oldsz newsz : ℕ} (hbig : TRAPFRAME < oldsz) (h64 : oldsz < 2 ^ 64)
    (hnear : oldsz ≤ newsz + 2 ^ 31) (hk : KernelPages pt) (htf : pte2pa (leaf pt UPAGES) = tf)
    (h : UserSpace pt k (tf ::ₘ G)) :
    (∃ e, uvmdealloc pt oldsz newsz k = .error e) ∨
    (uvmdealloc pt oldsz newsz k = .ok ((min oldsz newsz, pt), k) ∧
      TRAPFRAME < min oldsz newsz) ∨
    ∃ pt₁ k₁ pt' k', newsz ≤ TRAPFRAME ∧
      Unmapped (tf ::ₘ G) (npages newsz) UPAGES pt k pt₁ k₁ ∧ TrapframeFreed G pt₁ k₁ pt' k' ∧
      uvmdealloc pt oldsz newsz k = .ok ((newsz, pt'), k') := by
  have hU := UPAGES_eq
  have hT : TRAPFRAME = 274877898752 := rfl
  by_cases hle : oldsz ≤ newsz
  · right; left
    rw [uvmdealloc, if_pos hle, min_eq_left hle]
    exact ⟨rfl, hbig⟩
  rw [uvmdealloc, if_neg hle, min_eq_right (by omega)]
  rcases pgroundup_cases h64 with ⟨hwrap, hold⟩ | ⟨hlt, hold⟩
  · right; left
    rw [hold, if_neg (by omega)]
    refine ⟨rfl, ?_⟩
    simp only [PGSIZE] at hwrap
    omega
  have hnew : pgroundup newsz = npages newsz * PGSIZE := by
    rcases pgroundup_cases (show newsz < 2 ^ 64 by omega) with ⟨hn, -⟩ | ⟨-, hn⟩
    · simp only [npages, PGSIZE] at hn hlt
      omega
    · exact hn
  have hhi : UPAGES + 1 ≤ npages oldsz := by
    simp only [npages, PGSIZE]
    omega
  rw [hold, hnew]
  by_cases hmore : npages newsz * PGSIZE < npages oldsz * PGSIZE
  case neg =>
    right; left
    rw [if_neg hmore]
    refine ⟨rfl, ?_⟩
    simp only [npages, PGSIZE] at hmore hhi
    omega
  have hpos : npages newsz < npages oldsz := Nat.lt_of_mul_lt_mul_right hmore
  have hcount : (npages oldsz * PGSIZE - npages newsz * PGSIZE) / PGSIZE =
      npages oldsz - npages newsz := by
    rw [← Nat.sub_mul, page_div]
  have hint : intToU64 (npages oldsz - npages newsz) = npages oldsz - npages newsz := by
    apply intToU64_of_lt
    simp only [npages, PGSIZE]
    omega
  have hloop : uvmunmap pt (npages newsz * PGSIZE) (npages oldsz - npages newsz) true =
      uvmunmapLoop true (npages oldsz - npages newsz) pt (npages newsz * PGSIZE) := by
    obtain ⟨n, hn⟩ := Nat.exists_eq_add_of_le hpos.le
    have hu : u64 (npages newsz * PGSIZE + n * PGSIZE) = (npages newsz + n) * PGSIZE := by
      rw [← Nat.add_mul, ← hn]
      exact Nat.mod_eq_of_lt hlt
    rw [hn, Nat.add_sub_cancel_left, uvmunmap, if_neg (by simp), hu, pagesBetween_page]
  rw [if_pos hmore, hcount, hint, hloop]
  rcases Nat.lt_or_ge UPAGES (npages newsz) with hup | hdown
  · -- Only kernel pages and pages above `MAXVA` lie in the range.
    left
    obtain ⟨n, hn⟩ : ∃ n, npages oldsz - npages newsz = n + 1 :=
      ⟨npages oldsz - npages newsz - 1, by omega⟩
    rw [hn]
    rcases Nat.lt_or_ge (npages newsz) (2 ^ 26) with hlow | hhigh
    · have hv : npages newsz = UPAGES + 1 := by omega
      rw [hv]
      exact (uvmunmapLoop_trampoline _ _ (hk.valid _ (by omega) (by omega)) hk.text).imp
        fun e he => bind_of_error he
    · exact (uvmunmapLoop_beyond _ _ _ _ hhigh).imp fun e he => bind_of_error he
  · obtain ⟨m, hm⟩ : ∃ m, npages oldsz - npages newsz = (UPAGES - npages newsz) + (m + 1) :=
      ⟨npages oldsz - UPAGES - 1, by omega⟩
    obtain ⟨pt₁, k₁, hrun₁, hun⟩ := uvmunmapLoop_spec (UPAGES - npages newsz) (npages newsz)
      (by omega) h
    rw [Nat.add_sub_cancel' hdown] at hun
    have haddr : npages newsz * PGSIZE + (UPAGES - npages newsz) * PGSIZE = UPAGES * PGSIZE := by
      rw [← Nat.add_mul, Nat.add_sub_cancel' hdown]
    have hleaf₁ (v : ℕ) (hv : UPAGES ≤ v) (hlt : v < UPAGES + 2) : leaf pt₁ v = leaf pt v := by
      rw [hun.leaf_eq v (by omega), if_neg (by omega)]
    have hV₁ : (leaf pt₁ UPAGES).has PTE_V := by
      rw [hleaf₁ _ le_rfl (by omega)]
      exact hk.valid _ le_rfl (by omega)
    have htf₁ : pte2pa (leaf pt₁ UPAGES) = tf := by
      rw [hleaf₁ _ le_rfl (by omega)]
      exact htf
    obtain ⟨pt₂, k₂, hrun₂, hfreed⟩ := uvmunmapPage_trapframe hV₁ htf₁ hun.space
    rw [hm, uvmunmapLoop_add, haddr]
    cases m with
    | zero =>
      right; right
      refine ⟨pt₁, k₁, pt₂, k₂, ?_, hun, hfreed, ?_⟩
      · rw [TRAPFRAME_page]
        simp only [npages, PGSIZE] at hdown ⊢
        omega
      · rw [bind_assoc, bind_of_ok hrun₁, uvmunmapLoop, bind_assoc, bind_of_ok hrun₂]
        rfl
    | succ m =>
      left
      have hleaf₂ : leaf pt₂ (UPAGES + 1) = leaf pt (UPAGES + 1) := by
        rw [hfreed.leaf_eq _ (by omega), if_neg (by omega), hleaf₁ _ (by omega) (by omega)]
      have hV₂ : (leaf pt₂ (UPAGES + 1)).has PTE_V := by
        rw [hleaf₂]
        exact hk.valid _ (by omega) (by omega)
      obtain ⟨e, he⟩ := uvmunmapLoop_trampoline m k₂ hV₂ (by rw [hleaf₂]; exact hk.text)
      refine ⟨e, ?_⟩
      rw [bind_assoc, bind_of_ok hrun₁, uvmunmapLoop, bind_assoc, bind_of_ok hrun₂, page_succ]
      exact bind_of_error he

/-! ## Growing -/

theorem uvmallocLoop_add (start : ℕ) (xperm : Pte) (n m : ℕ) (pt : PageTable) (a : ℕ) :
    uvmallocLoop start xperm (n + m) pt a = uvmallocLoop start xperm n pt a >>= fun r =>
      if r.1 then uvmallocLoop start xperm m r.2 (a + n * PGSIZE) else pure r := by
  induction n generalizing pt a with
  | zero => simp [uvmallocLoop]
  | succ n ih =>
    have haddr : a + PGSIZE + n * PGSIZE = a + (n + 1) * PGSIZE := by ring
    rw [Nat.succ_add, uvmallocLoop, uvmallocLoop, bind_assoc]
    congr 1
    funext mem
    cases mem with
    | none => simp
    | some mem =>
      simp only [bind_assoc]
      congr 1
      funext _
      congr 1
      funext r
      obtain ⟨ok, pt⟩ := r
      cases ok with
      | true => simp [ih, haddr]
      | false => simp

/-- What was allocated has been given back. -/
theorem Alloced.undo {lo hi : ℕ} {perm : Pte} (h : Alloced G lo hi perm pt k true pt₁ k₁)
    (h' : Alloced G lo hi perm pt₁ k₁ false pt' k') : Alloced G lo hi perm pt k false pt' k' where
  evolve := h.evolve.trans h'.evolve
  other := by
    intro w hw hout
    obtain ⟨hleaf, hview⟩ := h.other w hw hout
    obtain ⟨hleaf', hview'⟩ := h'.other w hw hout
    exact ⟨hleaf'.trans hleaf, fun i hi => (hview' i hi).trans (hview i hi)⟩
  bound := by simp
  mapped := by simp
  undone := h'.undone
  failed := h'.failed

/-- At a page that it cannot map the loop of `uvmalloc` panics, unless no memory is
left. -/
theorem uvmallocLoop_stop (xperm : Pte) (start n : ℕ) (k : Phys) {m : ℕ}
    (hstop : 2 ^ 26 ≤ m ∨ (leaf pt m).has PTE_V) :
    (∃ e, uvmallocLoop start xperm (n + 1) pt (m * PGSIZE) k = .error e) ∨
      uvmallocLoop start xperm (n + 1) pt (m * PGSIZE) k =
        (uvmdealloc pt (m * PGSIZE) start >>= fun r => pure (false, r.2)) { k with oom := true } := by
  rw [uvmallocLoop]
  by_cases hnil : k.freelist = []
  · have hrun : kalloc k = .ok (none, { k with oom := true }) := by rw [kalloc, hnil]
    right
    rw [bind_of_ok hrun]
  · left
    obtain ⟨pa, rest, hlist⟩ := List.exists_cons_of_ne_nil hnil
    obtain ⟨k₁, hrun⟩ : ∃ k₁, kalloc k = .ok (some pa, k₁) := by
      rw [kalloc, hlist]
      exact ⟨_, rfl⟩
    rw [bind_of_ok hrun]
    dsimp only
    rw [bind_of_ok (setMem_run _ _)]
    exact (mappages_panics pa _ hstop _).imp fun e he => bind_of_error he

/-- The loop of `uvmalloc` comes to a page `m` that it cannot map: it panics there, or
runs out of memory before and gives back what it has allocated. -/
theorem uvmallocLoop_hits {xperm : Pte} (hp : PermOk (PTE_R ||| PTE_U ||| xperm))
    {start m n : ℕ} (hle : start ≤ m) (hn : m < start + n) (hm : m ≤ UPAGES ∨ m = start)
    (hstop : 2 ^ 26 ≤ m ∨ (leaf pt m).has PTE_V) (h : UserSpace pt k G)
    (hfree : ∀ w, start ≤ w → w < m → (leaf pt w).has PTE_V = false) :
    (∃ e, uvmallocLoop (start * PGSIZE) xperm n pt (start * PGSIZE) k = .error e) ∨
      ∃ pt' k', uvmallocLoop (start * PGSIZE) xperm n pt (start * PGSIZE) k =
          .ok ((false, pt'), k') ∧
        Alloced G start m (PTE_R ||| PTE_U ||| xperm) pt k false pt' k' := by
  have hU := UPAGES_eq
  obtain ⟨r, rfl⟩ : ∃ r, n = (m - start) + (r + 1) := ⟨n - (m - start) - 1, by omega⟩
  rcases Nat.lt_or_ge UPAGES m with hbig | hin
  · have hms : m = start := hm.resolve_left (not_le.mpr hbig)
    subst hms
    rw [Nat.sub_self, Nat.zero_add]
    rcases uvmallocLoop_stop xperm (m * PGSIZE) r k hstop with
      he | hrun
    · exact Or.inl he
    · refine Or.inr ⟨pt, { k with oom := true }, ?_, Evolve.oom h, fun _ _ _ => ⟨rfl, fun _ _ => rfl⟩,
        by simp, by simp, fun _ w _ hw hlt => absurd hw (by omega), fun _ => rfl⟩
      rw [hrun, uvmdealloc, if_pos le_rfl]
      rfl
  obtain ⟨ok, pt₁, k₁, hrun₁, hal⟩ := uvmallocLoop_spec hp (m - start) start le_rfl
    (Or.inl (by omega)) h (fun w hw hlt _ => hfree w hw (by omega))
  rw [ite_self, Nat.add_sub_cancel' hle] at hal
  have haddr : start * PGSIZE + (m - start) * PGSIZE = m * PGSIZE := by
    rw [← Nat.add_mul, Nat.add_sub_cancel' hle]
  rw [uvmallocLoop_add, bind_of_ok hrun₁, haddr]
  cases ok with
  | false => exact Or.inr ⟨pt₁, k₁, rfl, hal⟩
  | true =>
    have hleaf : leaf pt₁ m = leaf pt m := by
      rcases hin.lt_or_eq with hlt | rfl
      · exact (hal.other m hlt (Or.inr le_rfl)).1
      · exact hal.evolve.kernel _ le_rfl (by omega)
    rw [if_pos rfl]
    rw [← hleaf] at hstop
    rcases uvmallocLoop_stop xperm (start * PGSIZE) r k₁ hstop with he | hrun₂
    · exact Or.inl he
    · obtain ⟨pt', k', hrun', hal'⟩ := uvmalloc_undo hle hin (Evolve.oom hal.evolve.space)
        (fun _ _ => rfl) (SameOn.refl _ _) rfl le_rfl
        (fun w hw hlt _ => absurd hw (not_le.mpr hlt)) (PTE_R ||| PTE_U ||| xperm)
      refine Or.inr ⟨pt', k', ?_, hal.undo hal'⟩
      rw [hrun₂, bind_of_ok hrun']
      rfl

/-- Growing beyond `TRAPFRAME` panics or fails, unless no page is to be added. -/
theorem uvmalloc_big {xperm : Pte} (hp : PermOk (PTE_R ||| PTE_U ||| xperm)) {oldsz newsz : ℕ}
    (hle : oldsz ≤ newsz) (hbig : TRAPFRAME < newsz) (h64 : newsz < 2 ^ 64)
    (h : UserSpace pt k G) (hk : KernelPages pt)
    (habove : ∀ w, npages oldsz ≤ w → w < UPAGES → (leaf pt w).has PTE_V = false) :
    (∃ e, uvmalloc pt oldsz newsz xperm k = .error e) ∨
      (TRAPFRAME < oldsz ∧ uvmalloc pt oldsz newsz xperm k = .ok ((newsz, pt), k)) ∨
      ∃ pt' k', uvmalloc pt oldsz newsz xperm k = .ok ((0, pt'), k') ∧ GaveUp G pt k pt' k' := by
  have hU := UPAGES_eq
  have hT : TRAPFRAME = 274877898752 := rfl
  have hkernel := hk.valid UPAGES le_rfl (by omega)
  -- In all other cases the loop comes to a page that it cannot map.
  have hhits (start m : ℕ) (hround : pgroundup oldsz = start * PGSIZE) (hsm : start ≤ m)
      (hn : m < start + pagesBetween (start * PGSIZE) newsz) (hm : m ≤ UPAGES ∨ m = start)
      (hstop : 2 ^ 26 ≤ m ∨ (leaf pt m).has PTE_V)
      (hfree : ∀ w, start ≤ w → w < m → (leaf pt w).has PTE_V = false) :
      (∃ e, uvmalloc pt oldsz newsz xperm k = .error e) ∨
        ∃ pt' k', uvmalloc pt oldsz newsz xperm k = .ok ((0, pt'), k') ∧ GaveUp G pt k pt' k' := by
    rw [uvmalloc, if_neg (not_lt.mpr hle), hround]
    dsimp only
    rcases uvmallocLoop_hits hp hsm hn hm hstop h hfree with ⟨e, he⟩ | ⟨pt', k', hrun, hal⟩
    · exact Or.inl ⟨e, bind_of_error he⟩
    · refine Or.inr ⟨pt', k', ?_, hal.gaveUp fun w _ hlo hhi => hfree w hlo hhi⟩
      rw [bind_of_ok hrun]
      rfl
  rcases pgroundup_cases (hle.trans_lt h64) with ⟨hwrap, hround⟩ | ⟨-, hround⟩
  · have hex : ∃ m, (leaf pt m).has PTE_V = true := ⟨UPAGES, hkernel⟩
    have hmin : Nat.find hex ≤ UPAGES := Nat.find_min' hex hkernel
    have hn : Nat.find hex < 0 + pagesBetween (0 * PGSIZE) newsz := by
      simp only [pagesBetween, PGSIZE] at hwrap ⊢
      omega
    rcases hhits 0 _ (by rw [hround, zero_mul]) (Nat.zero_le _) hn (Or.inl hmin)
      (Or.inr (Nat.find_spec hex)) (fun w _ hw => by simpa using Nat.find_min hex hw) with he | hg
    · exact Or.inl he
    · exact Or.inr (Or.inr hg)
  · rcases Nat.lt_or_ge (npages oldsz * PGSIZE) newsz with hlt | hge
    · have hlast : npages oldsz + pagesBetween (npages oldsz * PGSIZE) newsz = npages newsz := by
        simp only [pagesBetween, npages, PGSIZE] at hlt ⊢
        omega
      have hup : UPAGES < npages newsz := by
        simp only [npages, PGSIZE]
        omega
      have hlt' : npages oldsz < npages newsz := by
        simp only [npages, PGSIZE] at hlt ⊢
        omega
      have hstop : 2 ^ 26 ≤ max (npages oldsz) UPAGES ∨
          (leaf pt (max (npages oldsz) UPAGES)).has PTE_V := by
        rcases Nat.lt_or_ge (max (npages oldsz) UPAGES) (2 ^ 26) with hsmall | hlarge
        · exact Or.inr (hk.valid _ (le_max_right _ _) (by omega))
        · exact Or.inl hlarge
      rcases hhits _ _ hround (le_max_left _ UPAGES) (by rw [hlast]; exact max_lt hlt' hup) (by omega)
        hstop (fun w hw hwm => habove w hw (by omega)) with he | hg
      · exact Or.inl he
      · exact Or.inr (Or.inr hg)
    · have hnone : pagesBetween (npages oldsz * PGSIZE) newsz = 0 := by
        simp only [pagesBetween, PGSIZE] at hge ⊢
        omega
      refine Or.inr (Or.inl ⟨?_, ?_⟩)
      · simp only [npages, PGSIZE] at hge
        omega
      · rw [uvmalloc, if_neg (not_lt.mpr hle), hround, hnone]
        rfl

end Xv6.Vm
