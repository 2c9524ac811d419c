import Xv6.Vm.FaultSpec

/-! # Writing to user memory

A write goes through an entry with `PTE_W`.  The page of such an entry has no
other reference, so the write shows in one page of one address space only.
-/
namespace Xv6.Vm
open Library Library.Exec Library.RefCount

variable [KernelImage] {G : Multiset ℕ} {S : ℕ → Prop} {pt pt₁ pt' : PageTable} {k k₁ k' : Phys}

/-- The contents `f` with `bytes` written at address `a`. -/
def patch (f : ℕ → ℕ → UInt8) (a : ℕ) (bytes : List UInt8) (v i : ℕ) : UInt8 :=
  if a ≤ v * PGSIZE + i ∧ v * PGSIZE + i < a + bytes.length
  then bytes.getD (v * PGSIZE + i - a) 0 else f v i

/-- The user sees `bytes` written at `a` and no other change, and every page
written to is a writable one. -/
structure Wrote (G : Multiset ℕ) (S : ℕ → Prop) (a : ℕ) (bytes : List UInt8) (pt : PageTable)
    (k : Phys) (pt' : PageTable) (k' : Phys) : Prop extends Remap S pt pt' where
  evolve : Evolve G pt k pt' k'
  view_eq : ∀ v < UPAGES, ∀ i < PGSIZE,
    view pt' k'.mem v i = patch (view pt k.mem) a bytes v i
  through : ∀ j < bytes.length, (a + j) / PGSIZE < UPAGES ∧
    (leaf pt' ((a + j) / PGSIZE)).has PTE_V ∧
    (rights (leaf pt' ((a + j) / PGSIZE))).writable = true

omit [KernelImage] in
@[simp] theorem patch_nil (f : ℕ → ℕ → UInt8) (a v i : ℕ) : patch f a [] v i = f v i := by
  rw [patch, if_neg]
  simp only [List.length_nil]
  omega

omit [KernelImage] in
theorem patch_append (f : ℕ → ℕ → UInt8) (a : ℕ) (xs ys : List UInt8) (v i : ℕ) :
    patch (patch f a xs) (a + xs.length) ys v i = patch f a (xs ++ ys) v i := by
  unfold patch
  rw [List.length_append]
  by_cases hy : a + xs.length ≤ v * PGSIZE + i
  · by_cases hend : v * PGSIZE + i < a + xs.length + ys.length
    · rw [if_pos ⟨hy, hend⟩, if_pos ⟨by omega, by omega⟩, List.getD_eq_getElem?_getD,
        List.getD_eq_getElem?_getD, List.getElem?_append_right (by omega), Nat.sub_add_eq]
    · rw [if_neg (by omega), if_neg (by omega), if_neg (by omega)]
  · rw [if_neg (by omega)]
    by_cases hx : a ≤ v * PGSIZE + i
    · rw [if_pos ⟨hx, by omega⟩, if_pos ⟨hx, by omega⟩, List.getD_eq_getElem?_getD,
        List.getD_eq_getElem?_getD, List.getElem?_append_left (by omega)]
    · rw [if_neg (by omega), if_neg (by omega)]

theorem Quiet.wrote (h : Quiet G S pt k pt' k') (a : ℕ) : Wrote G S a [] pt k pt' k' where
  toRemap := h.toRemap
  evolve := h.evolve
  view_eq := fun v hv i hi => by rw [patch_nil, h.view_eq v hv i hi]
  through := by simp

theorem Wrote.trans {a b : ℕ} {xs ys : List UInt8} (h : Wrote G S a xs pt k pt₁ k₁)
    (h' : Wrote G S b ys pt₁ k₁ pt' k') (hb : ys ≠ [] → b = a + xs.length) :
    Wrote G S a (xs ++ ys) pt k pt' k' := by
  refine ⟨h.toRemap.trans h'.toRemap, h.evolve.trans h'.evolve, ?_, ?_⟩
  · intro v hv i hi
    rw [h'.view_eq v hv i hi]
    rcases eq_or_ne ys [] with rfl | hne
    · rw [patch_nil, List.append_nil, h.view_eq v hv i hi]
    · rw [hb hne, ← patch_append]
      unfold patch
      split
      · rfl
      · exact h.view_eq v hv i hi
  · intro j hj
    rw [List.length_append] at hj
    by_cases hjx : j < xs.length
    · obtain ⟨hv, hV, hw⟩ := h.through j hjx
      obtain ⟨hV', hr'⟩ := h'.keeps _ hv hV
      exact ⟨hv, hV', hr' ▸ hw⟩
    · have hne : ys ≠ [] := by
        rintro rfl
        simp at hj
        omega
      have := h'.through (j - xs.length) (by omega)
      rwa [hb hne, show a + xs.length + (j - xs.length) = a + j by omega] at this

theorem Wrote.mono {T : ℕ → Prop} {a : ℕ} {bytes : List UInt8} (h : Wrote G S a bytes pt k pt' k')
    (hST : ∀ v, S v → T v) : Wrote G T a bytes pt k pt' k' :=
  { h with toRemap := h.toRemap.mono hST }

/-! ## One page -/

theorem writePage_spec {v off n : ℕ} (src : List UInt8) (h : UserSpace pt k G) (hv : v < UPAGES)
    (hV : (leaf pt v).has PTE_V)
    (hone : (own pt + G).count (pte2pa (leaf pt v)) = 1) (hfit : off + n ≤ PGSIZE)
    (hn : n ≤ src.length) :
    Evolve G pt k pt { k with
      mem := memmove (pte2pa (leaf pt v) + off) (fun i => src.getD i 0) n k.mem } ∧
    ∀ w < UPAGES, ∀ i < PGSIZE,
      view pt (memmove (pte2pa (leaf pt v) + off) (fun i => src.getD i 0) n k.mem) w i =
        patch (view pt k.mem) (v * PGSIZE + off) (src.take n) w i := by
  have hlen : (src.take n).length = n := List.length_take_of_le hn
  have hpage := h.acct.valid_of_mem _ (Multiset.mem_add.mpr (Or.inl (mem_own hv hV)))
  constructor
  · refine ⟨⟨h.acct, h.wf⟩, ?_, id, fun _ _ _ => rfl, NoNewSharing.refl _, rfl⟩
    refine sameOn_memmove (fun i => src.getD i 0) hpage (fun q hq => ⟨?_, ?_⟩) hfit
    · exact (h.acct.valid_of_mem q (Multiset.mem_add.mpr (Or.inr hq))).1
    · rintro rfl
      exact not_mem_of_private hv hV hone hq
  · intro w hw i hi
    unfold patch
    rw [hlen]
    by_cases hwv : w = v
    · subst hwv
      rw [view, if_pos hV, memmove]
      by_cases hin : off ≤ i ∧ i < off + n
      · rw [if_pos ⟨by omega, by omega⟩, if_pos ⟨by omega, by omega⟩]
        simp only [List.getD_eq_getElem?_getD]
        rw [List.getElem?_take_of_lt (by omega)]
        congr 2
        omega
      · rw [if_neg (by omega), if_neg (by omega), view, if_pos hV]
    · rw [if_neg (by simp only [PGSIZE] at *; omega)]
      by_cases hVw : (leaf pt w).has PTE_V
      · have hne := page_ne_of_private (Multiset.le_add_right _ G) hv hw hwv hV hVw hone
        have hpw := h.acct.valid_of_mem _ (Multiset.mem_add.mpr (Or.inl (mem_own hw hVw)))
        have hdis := pages_disjoint hpage.1 hpw.1 hne.symm hi
        rw [view, if_pos hVw, view, if_pos hVw, memmove, if_neg (by omega)]
      · rw [view, if_neg hVw, view, if_neg hVw]

/-! ## copyout -/

/-- The access stays below `sz`, and every mapped page it touches is writable
for the user. -/
def Writable (pt : PageTable) (sz va len : ℕ) : Prop :=
  ∀ j < len, va + j < sz ∧ ((leaf pt ((va + j) / PGSIZE)).has PTE_V →
    (leaf pt ((va + j) / PGSIZE)).has PTE_U ∧
    (rights (leaf pt ((va + j) / PGSIZE))).writable = true)

theorem Writable.wrote {sz va len a : ℕ} {bytes : List UInt8} (hsz : sz ≤ TRAPFRAME)
    (h : Writable pt sz va len) (hw : Wrote G S a bytes pt k pt' k') :
    Writable pt' sz va len := by
  intro j hj
  obtain ⟨hlt, hr⟩ := h j hj
  have hv := (div_lt_npages hlt).trans_le (npages_le hsz)
  refine ⟨hlt, fun hV' => ?_⟩
  rcases hw.adds _ hv hV' with hV | ⟨-, hlazy⟩
  · obtain ⟨hu, hwr⟩ := hr hV
    have heq := (hw.keeps _ hv hV).2
    exact ⟨(congrArg Rights.user heq).trans hu, heq ▸ hwr⟩
  · exact ⟨congrArg Rights.user hlazy, by rw [hlazy]; rfl⟩

/-- The page of `va` as `copyout` finds it before it looks at `PTE_W`: mapped,
and no longer copy-on-write. -/
structure ReadyOut (G : Multiset ℕ) (sz va : ℕ) (pt : PageTable) (k : Phys) (r : Option ℕ)
    (pt' : PageTable) (k' : Phys) : Prop where
  quiet : Quiet G (Touched sz (pgrounddown va) 1) pt k pt' k'
  hit : ∀ pa, r = some pa → va / PGSIZE < UPAGES ∧ (leaf pt' (va / PGSIZE)).has PTE_V ∧
    (leaf pt' (va / PGSIZE)).has PTE_COW = false ∧ pte2pa (leaf pt' (va / PGSIZE)) = pa
  permitted : r.isSome → Permitted pt (va / PGSIZE)
  progress : Writable pt sz va 1 → k'.oom = false → ∃ pa, r = some pa ∧
    (leaf pt' (va / PGSIZE)).has PTE_W

theorem readyOut_spec {sz : ℕ} (va : ℕ) (hsz : sz ≤ TRAPFRAME) (h : UserSpace pt k G) :
    ∃ r pt₁ k₁, faultIn pt sz (pgrounddown va) k = .ok ((r, pt₁), k₁) ∧
      (r = none ∧ ReadyOut G sz va pt k none pt₁ k₁ ∨
       ∃ pa r' pt₂ k₂, r = some pa ∧
        breakCow pt₁ sz (pgrounddown va) pa k₁ = .ok ((r', pt₂), k₂) ∧
        ReadyOut G sz va pt k r' pt₂ k₂) := by
  have hdiv : pgrounddown va / PGSIZE = va / PGSIZE := page_div _
  have hdown : pgrounddown va ≤ va := Nat.div_mul_le_self va PGSIZE
  obtain ⟨r, pt₁, k₁, hrun, hf⟩ := faultIn_spec (pgrounddown va) hsz h
  refine ⟨r, pt₁, k₁, hrun, ?_⟩
  cases r with
  | none =>
    refine Or.inl ⟨rfl, hf.quiet, by simp, by simp, ?_⟩
    intro hacc hoom
    obtain ⟨hlt, hr⟩ := hacc 0 (by omega)
    rw [Nat.add_zero] at hlt hr
    rcases hf.miss rfl with hle | ho | ⟨hV, hno⟩
    · omega
    · rw [hoom] at ho
      cases ho
    · rw [hdiv] at hV hno
      rw [(hr hV).1] at hno
      cases hno
  | some pa =>
    obtain ⟨hv, hV, hpa⟩ := hf.hit pa rfl
    have hs : (slot pt₁ (pgrounddown va)).isSome := slot_isSome_of_valid hV
    have hread := readSlot_run hs k₁
    have hperm := hf.permitted rfl
    rw [hdiv] at hv hV hpa hread hperm
    suffices hsuff : ∃ r' pt₂ k₂, breakCow pt₁ sz (pgrounddown va) pa k₁ = .ok ((r', pt₂), k₂) ∧
        ReadyOut G sz va pt k r' pt₂ k₂ by
      obtain ⟨r', pt₂, k₂, hrun', hr⟩ := hsuff
      exact Or.inr ⟨pa, r', pt₂, k₂, rfl, hrun', hr⟩
    rw [breakCow, bind_of_ok hread]
    -- A writable page that is not copy-on-write has `PTE_W`.
    have hwritable (hacc : Writable pt sz va 1) :
        va < sz ∧ (rights (leaf pt₁ (va / PGSIZE))).writable = true := by
      obtain ⟨hlt, hr⟩ := (hacc.wrote hsz (hf.quiet.wrote 0)) 0 (by omega)
      rw [Nat.add_zero] at hlt hr
      exact ⟨hlt, (hr hV).2⟩
    cases hcow : (leaf pt₁ (va / PGSIZE)).has PTE_COW with
    | false =>
      refine ⟨some pa, pt₁, k₁, rfl, hf.quiet, ?_, fun _ => hperm, ?_⟩
      · intro pa' hpa'
        cases hpa'
        exact ⟨hv, hV, hcow, hpa⟩
      · intro hacc _
        have hw := (hwritable hacc).2
        simp only [rights, hcow, Bool.or_false] at hw
        exact ⟨pa, rfl, hw⟩
    | true =>
      obtain ⟨r', pt₂, k₂, hrun', hf'⟩ :=
        vmfault_spec (pgrounddown va) false hsz hf.quiet.evolve.space
      rw [if_pos rfl]
      refine ⟨r', pt₂, k₂, hrun', hf.quiet.trans hf'.quiet_touched, ?_, fun _ => hperm, ?_⟩
      · intro pa' hpa'
        obtain ⟨-, hV', -, hC', hpa''⟩ := hf'.hit pa' hpa'
        rw [hdiv] at hV' hC' hpa''
        exact ⟨hv, hV', hC', hpa''⟩
      · intro hacc hoom
        have hlt := (hwritable hacc).1
        cases r' with
        | none =>
          rcases hf'.miss rfl with hle | ho | ⟨-, hread' | hno⟩
          · omega
          · rw [hoom] at ho
            cases ho
          · cases hread'
          · rw [hdiv, hcow] at hno
            cases hno
        | some pa' =>
          obtain ⟨-, -, hW', -⟩ := hf'.hit pa' rfl
          rw [hdiv] at hW'
          exact ⟨pa', rfl, hW'⟩

/-- What `copyout` has done: it wrote the first `m` bytes before it stopped. -/
structure CopiedOut (G : Multiset ℕ) (sz va : ℕ) (src : List UInt8) (pt : PageTable) (k : Phys)
    (ok : Bool) (m : ℕ) (pt' : PageTable) (k' : Phys) : Prop where
  wrote : Wrote G (Touched sz va src.length) va (src.take m) pt k pt' k'
  length_le : m ≤ src.length
  permitted : ∀ j < m, Permitted pt ((va + j) / PGSIZE)
  complete : ok = true → m = src.length
  progress : Writable pt sz va src.length → k'.oom = false → ok = true

omit [KernelImage] in
theorem Writable.head {sz va len : ℕ} (h : Writable pt sz va len) (hlen : 0 < len) :
    Writable pt sz va 1 := fun j hj => h j (by omega)

theorem CopiedOut.stop {sz va : ℕ} {src : List UInt8} {r : Option ℕ} (hlen : 0 < src.length)
    (hr : ReadyOut G sz va pt k r pt' k')
    (hno : ¬ ∃ pa, r = some pa ∧ (leaf pt' (va / PGSIZE)).has PTE_W) :
    CopiedOut G sz va src pt k false 0 pt' k' where
  wrote := by
    rw [List.take_zero]
    exact (hr.quiet.mono fun v hT => hT.head hlen).wrote va
  length_le := Nat.zero_le _
  permitted := by simp
  complete := by simp
  progress := fun hacc hoom => absurd (hr.progress (hacc.head hlen) hoom) hno

theorem writeChunk_spec (S : ℕ → Prop) {va : ℕ} (src : List UInt8) (h : UserSpace pt k G)
    (hv : va / PGSIZE < UPAGES) (hV : (leaf pt (va / PGSIZE)).has PTE_V)
    (hone : (own pt + G).count (pte2pa (leaf pt (va / PGSIZE))) = 1)
    (hw : (rights (leaf pt (va / PGSIZE))).writable = true) :
    Wrote G S va (src.take (chunk va src.length)) pt k pt { k with
      mem := memmove (pte2pa (leaf pt (va / PGSIZE)) + (va - pgrounddown va))
        (fun i => src.getD i 0) (chunk va src.length) k.mem } := by
  have hle : chunk va src.length ≤ src.length := chunk_le
  have hlen : (src.take (chunk va src.length)).length = chunk va src.length :=
    List.length_take_of_le hle
  obtain ⟨hev, hview⟩ := writePage_spec src h hv hV hone
    (chunk_fits : va - pgrounddown va + chunk va src.length ≤ PGSIZE) hle
  have hva : va / PGSIZE * PGSIZE + (va - pgrounddown va) = va :=
    Nat.add_sub_cancel' (Nat.div_mul_le_self va PGSIZE)
  rw [hva] at hview
  refine ⟨Remap.refl S pt, hev, hview, ?_⟩
  intro j hj
  rw [hlen] at hj
  rw [chunk_page hj]
  exact ⟨hv, hV, hw⟩

/-- The first page in front of what the rest of the loop has written. -/
theorem CopiedOut.cons {sz va m : ℕ} {src : List UInt8} {ok : Bool} (hsz : sz ≤ TRAPFRAME)
    (hc : CopiedOut G sz (pgrounddown va + PGSIZE) (src.drop (chunk va src.length)) pt₁ k₁ ok m
      pt' k')
    (hw : Wrote G (Touched sz va src.length) va (src.take (chunk va src.length)) pt k pt₁ k₁)
    (hperm : Permitted pt (va / PGSIZE)) :
    CopiedOut G sz va src pt k ok (chunk va src.length + m) pt' k' := by
  have hle : chunk va src.length ≤ src.length := chunk_le
  have hlen : (src.take (chunk va src.length)).length = chunk va src.length :=
    List.length_take_of_le hle
  have hm := hc.length_le
  rw [List.length_drop] at hm
  refine ⟨?_, by omega, ?_, ?_, ?_⟩
  · rw [List.take_add]
    refine hw.trans (hc.wrote.mono fun v hT => ?_) fun hne => ?_
    · have hmore : chunk va src.length < src.length := by
        obtain ⟨-, j, hj, -⟩ := hT
        rw [List.length_drop] at hj
        omega
      rw [chunk_next hmore, List.length_drop] at hT
      exact hT.tail
    rw [hlen]
    apply chunk_next
    by_contra hge
    rw [List.drop_eq_nil_of_le (not_lt.mp hge), List.take_nil] at hne
    exact hne rfl
  · intro j hj
    by_cases hjn : j < chunk va src.length
    · rw [chunk_page hjn]
      exact hperm
    have hnext := chunk_next (show chunk va src.length < src.length by omega)
    have hin := (hc.wrote.through (j - chunk va src.length)
      (by rw [List.length_take_of_le hc.length_le]; omega)).1
    have hrest := hc.permitted (j - chunk va src.length) (by omega)
    have haddr : pgrounddown va + PGSIZE + (j - chunk va src.length) = va + j := by omega
    rw [haddr] at hin hrest
    exact Permitted.of_remap hin hw.toRemap hrest
  · intro hok
    have := hc.complete hok
    rw [List.length_drop] at this
    omega
  · intro hacc hoom
    apply hc.progress _ hoom
    intro j hj
    rw [List.length_drop] at hj
    have hmore : chunk va src.length < src.length := by omega
    rw [chunk_next hmore, Nat.add_assoc]
    exact hacc.wrote hsz hw _ (by omega)

theorem copyoutLoop_spec {sz : ℕ} (hsz : sz ≤ TRAPFRAME) (fuel va : ℕ) (src : List UInt8)
    (hfuel : src.length ≤ fuel) (h : UserSpace pt k G) :
    ∃ ok m pt' k', copyoutLoop sz fuel pt va src k = .ok ((ok, pt'), k') ∧
      CopiedOut G sz va src pt k ok m pt' k' := by
  have hU := UPAGES_eq
  induction fuel generalizing va src pt k with
  | zero =>
    have hnil : src.length = 0 := Nat.le_zero.mp hfuel
    refine ⟨true, 0, pt, k, rfl, ?_, Nat.zero_le _, by simp, fun _ => hnil.symm, fun _ _ => rfl⟩
    rw [List.take_zero]
    exact (Quiet.refl h _).wrote va
  | succ fuel ih =>
    rw [copyoutLoop]
    by_cases hlen : src.length = 0
    · rw [if_pos hlen]
      refine ⟨true, 0, pt, k, rfl, ?_, Nat.zero_le _, by simp, fun _ => hlen.symm,
        fun _ _ => rfl⟩
      rw [List.take_zero]
      exact (Quiet.refl h _).wrote va
    rw [if_neg hlen]
    have hpos : 0 < src.length := Nat.pos_of_ne_zero hlen
    have hM : MAXVA = 274877906944 := rfl
    have hT : TRAPFRAME = 274877898752 := rfl
    have hdown : pgrounddown va ≤ va := Nat.div_mul_le_self va PGSIZE
    by_cases hmax : MAXVA ≤ pgrounddown va
    · rw [if_pos hmax]
      refine ⟨false, 0, pt, k, rfl, ?_, Nat.zero_le _, by simp, by simp, ?_⟩
      · rw [List.take_zero]
        exact (Quiet.refl h _).wrote va
      · intro hacc _
        have := (hacc 0 hpos).1
        omega
    rw [if_neg hmax]
    dsimp only
    obtain ⟨r, pt₁, k₁, hrun, ⟨rfl, hr⟩ | ⟨pa, r', pt₂, k₂, rfl, hrun', hr⟩⟩ :=
      readyOut_spec va hsz h
    · rw [bind_of_ok hrun]
      exact ⟨false, 0, pt₁, k₁, rfl, CopiedOut.stop hpos hr (by simp)⟩
    rw [bind_of_ok hrun]
    dsimp only
    rw [bind_of_ok hrun']
    cases r' with
    | none => exact ⟨false, 0, pt₂, k₂, rfl, CopiedOut.stop hpos hr (by simp)⟩
    | some pa' =>
      obtain ⟨hv, hV, hcow, hpa⟩ := hr.hit pa' rfl
      have hdiv : pgrounddown va / PGSIZE = va / PGSIZE := page_div _
      have hread' := readSlot_run (slot_isSome_of_valid (by rwa [hdiv])) k₂
      rw [hdiv] at hread'
      dsimp only
      rw [bind_of_ok hread']
      cases hW : (leaf pt₂ (va / PGSIZE)).has PTE_W with
      | false => exact ⟨false, 0, pt₂, k₂, rfl, CopiedOut.stop hpos hr (by simp [hW])⟩
      | true =>
        simp only [Bool.not_true, Bool.false_eq_true, if_false]
        have hn := chunk_pos va hpos
        have hle : chunk va src.length ≤ src.length := chunk_le
        have hone := (hr.quiet.evolve.space.wf.entry _ hv).writable hV hW
        have hev := writeChunk_spec (Touched sz va src.length) src hr.quiet.evolve.space hv hV hone
          (by rw [rights, hW, Bool.true_or])
        obtain ⟨ok, m, pt', k', hrun'', hc⟩ := ih (pgrounddown va + PGSIZE)
          (src.drop (chunk va src.length)) (by rw [List.length_drop]; omega)
          hev.evolve.space
        refine ⟨ok, chunk va src.length + m, pt', k', ?_,
          hc.cons hsz (((hr.quiet.mono fun v hT => hT.head hpos).wrote va).trans hev (by simp))
            (hr.permitted rfl)⟩
        rw [bind_of_ok (setMem_run _ _), ← hpa, hrun'']

theorem copyout_spec {sz : ℕ} (hsz : sz ≤ TRAPFRAME) (va : ℕ) (src : List UInt8)
    (h : UserSpace pt k G) :
    ∃ ok m pt' k', copyout pt sz va src k = .ok ((ok, pt'), k') ∧
      CopiedOut G sz va src pt k ok m pt' k' :=
  copyoutLoop_spec hsz src.length va src le_rfl h

end Xv6.Vm
