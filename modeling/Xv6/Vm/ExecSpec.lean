import Xv6.Vm.ArgvSpec
import Xv6.Vm.Oversize

/-! # Specification of exec's memory operations

The image under construction is an address space of its own.  All its pages
are fresh, so loading a segment disturbs nothing else; when exec gives up,
everything it took is returned.
-/
namespace Xv6.Vm
open Library Library.Exec Library.RefCount

variable [KernelImage] {G : Multiset ℕ} {pt pt₁ pt' : PageTable} {k k₁ k' : Phys}

/-! ## The two kernel pages -/

theorem unmapKernel_spec {v : ℕ} (hv : UPAGES ≤ v) (hlt : v < 2 ^ 26) (h : UserSpace pt k G) :
    ∃ pt', uvmunmap pt (v * PGSIZE) 1 false k = .ok (pt', k) ∧ UserSpace pt' k G ∧
      own pt' = own pt ∧ (leaf pt' v).has PTE_V = false ∧
      ∀ w < 2 ^ 27, w ≠ v → leaf pt' w = leaf pt w := by
  have hU := UPAGES_eq
  have hu : u64 (v * PGSIZE + 1 * PGSIZE) = (v + 1) * PGSIZE := by
    simp only [u64, PGSIZE]
    omega
  have hcode : uvmunmap pt (v * PGSIZE) 1 false k = uvmunmapPage false pt (v * PGSIZE) k := by
    rw [uvmunmap, if_neg (by simp), hu, pagesBetween_page]
    cases hp : uvmunmapPage false pt (v * PGSIZE) k with
    | error e =>
      change (uvmunmapPage false pt (v * PGSIZE) >>= _) k = _
      exact bind_of_error hp
    | ok r =>
      rw [uvmunmapLoop, bind_of_ok hp]
      rfl
  cases hV : (leaf pt v).has PTE_V with
  | false =>
    exact ⟨pt, by rw [hcode, uvmunmapPage_skip hlt hV], h, rfl, hV, fun _ _ _ => rfl⟩
  | true =>
    have hset := setLeaf_clear hlt hV
    have hown := own_setLeaf_kernel 0 hv hset (by simp)
    rw [zero_add] at hown
    refine ⟨setSlot pt (v * PGSIZE) 0, by rw [hcode, uvmunmapPage_clear hlt hV],
      ⟨by rw [hown]; exact h.acct, ?_⟩, hown, ?_,
      fun w hw hne => by rw [hset w hw, if_neg hne]⟩
    · rw [hown]
      refine h.wf.setKernel (fun w hw => by rw [hset w (by omega), if_neg (by omega)]) ?_ ?_
        (NoNewSharing.refl _) (by rw [hown]; exact Multiset.le_add_right _ _)
      · intro w hw hwlt
        rw [hset w hwlt]
        split
        · exact has_zero _
        · exact h.wf.supervisor w hw hwlt
      · intro w hw hwlt
        rw [hset w hwlt]
        split
        · exact has_zero _
        · exact h.wf.beyond w hw hwlt
    · rw [hset v (by omega), if_pos rfl]
      exact has_zero _

/-- A process whose size is at most `TRAPFRAME` gives back all its pages; with a larger
size the kernel may panic. -/
theorem procFreepagetable_spec {sz : ℕ} (h64 : sz < 2 ^ 64) (h : UserSpace pt k G)
    (habove : ∀ v, npages sz ≤ v → v < UPAGES → (leaf pt v).has PTE_V = false) :
    (TRAPFRAME < sz ∧ ∃ e, procFreepagetable pt sz k = .error e) ∨
      ∃ k', procFreepagetable pt sz k = .ok ((), k') ∧ Step k k' G G ∧ k'.oom = k.oom := by
  have hU := UPAGES_eq
  obtain ⟨pt₁, hrun₁, hs₁, -, hV₁, hrest₁⟩ := unmapKernel_spec (v := UPAGES + 1) (by omega)
    (by omega) h
  obtain ⟨pt₂, hrun₂, hs₂, -, hV₂, hrest₂⟩ := unmapKernel_spec (le_refl UPAGES) (by omega) hs₁
  have hkernel (v : ℕ) (hv : UPAGES ≤ v) (hlt : v < 2 ^ 27) : (leaf pt₂ v).has PTE_V = false := by
    rcases Nat.lt_or_ge v (UPAGES + 2) with hlow | hhigh
    · rcases Nat.lt_or_ge v (UPAGES + 1) with hlow' | hhigh'
      · rw [show v = UPAGES by omega]
        exact hV₂
      · rw [show v = UPAGES + 1 by omega, hrest₂ _ (by omega) (by omega)]
        exact hV₁
    · exact hs₂.wf.beyond v hhigh hlt
  have hrun : procFreepagetable pt sz k = uvmfree pt₂ sz k := by
    have h1 : uvmunmap pt TRAMPOLINE 1 false k = .ok (pt₁, k) := TRAMPOLINE_page ▸ hrun₁
    have h2 : uvmunmap pt₁ TRAPFRAME 1 false k = .ok (pt₂, k) := TRAPFRAME_page ▸ hrun₂
    rw [procFreepagetable, bind_of_ok h1, bind_of_ok h2]
  rw [hrun]
  rcases Nat.lt_or_ge TRAPFRAME sz with hbig | hsz
  · exact (uvmfree_big hbig h64 hs₂ hkernel).imp_left fun he => ⟨hbig, he⟩
  · refine Or.inr (uvmfree_spec hsz hs₂ (fun v hv hlt => ?_) hkernel)
    rw [hrest₂ v (by omega) (by omega), hrest₁ v (by omega) (by omega)]
    exact habove v hv hlt

theorem mapKernel_spec {v : ℕ} (pa : ℕ) (perm : Pte) (hv : UPAGES ≤ v) (hlt : v < UPAGES + 2)
    (hperm : perm.has PTE_U = false) (hfree : (leaf pt v).has PTE_V = false)
    (h : UserSpace pt k G) :
    ∃ ok pt' k', mappages pt (v * PGSIZE) PGSIZE pa perm k = .ok ((ok, pt'), k') ∧
      UserSpace pt' k' G ∧ SameOn G k.mem k'.mem ∧ (k.oom = true → k'.oom = true) ∧
      NoNewSharing (own pt + G) (own pt' + G) ∧
      (ok = true → SetLeaf pt pt' v (mapPte pa perm)) ∧
      (ok = false → SameLeaves pt pt' ∧ k'.oom = true) := by
  have hU := UPAGES_eq
  obtain ⟨ok, pt', k', new, hrun, hm⟩ := mappages_page pa perm (by omega) hfree h.acct
  have hsame : SameOn G k.mem k'.mem :=
    hm.step.same.mono (Multiset.subset_of_le (Multiset.le_add_left _ _))
  have hown : own pt' = new + own pt := by
    cases ok with
    | true => exact own_setLeaf_kernel new hv (hm.stored rfl) hm.tables_eq
    | false => exact own_sameLeaves new (hm.failed rfl).1 hm.tables_eq
  have hrefs : new + (own pt + G) = own pt' + G := by rw [hown, add_assoc]
  have hsh := hm.fresh
  rw [hrefs] at hsh
  refine ⟨ok, pt', k', hrun, ⟨hrefs ▸ hm.step.acct, ?_⟩, hsame, hm.step.oom_mono, hsh, hm.stored,
    hm.failed⟩
  cases ok with
  | false => exact h.wf.sameLeaves (hm.failed rfl).1 hsh (Multiset.le_add_right _ _)
  | true =>
    have hset := hm.stored rfl
    refine h.wf.setKernel (fun w hw => by rw [hset w (by omega), if_neg (by omega)]) ?_ ?_ hsh
      (Multiset.le_add_right _ _)
    · intro w hw hwlt
      rw [hset w hwlt]
      split
      · simp [hperm]
      · exact h.wf.supervisor w hw hwlt
    · intro w hw hwlt
      rw [hset w hwlt, if_neg (by omega)]
      exact h.wf.beyond w hw hwlt

/-- A page table without user memory, for a process with trapframe `tf`. -/
structure NewTable (G : Multiset ℕ) (tf : ℕ) (k : Phys) (pt : PageTable) (k' : Phys) : Prop where
  space : UserSpace pt k' G
  same : SameOn G k.mem k'.mem
  oom_mono : k.oom = true → k'.oom = true
  sharing : NoNewSharing G (own pt + G)
  empty : ∀ v < UPAGES, (leaf pt v).has PTE_V = false
  trapframe : leaf pt UPAGES = mapPte tf (PTE_R ||| PTE_W)
  trampoline : leaf pt (UPAGES + 1) = mapPte trampoline (PTE_R ||| PTE_X)

omit [KernelImage] in
theorem leaf_empty (pa v : ℕ) : leaf (Radix.empty 0 pa 2) v = 0 := rfl

omit [KernelImage] in
theorem own_empty (pa : ℕ) : own (Radix.empty 0 pa 2) = {pa} := by
  rw [own, leafRefs_eq_zero fun v _ => by rw [leaf_empty]; exact has_zero _, zero_add, tables,
    Radix.tags_empty]

theorem uvmcreate_spec (h : Acct k G) :
    ∃ r k', uvmcreate k = .ok (r, k') ∧
      (r = none → Step k k' G G ∧ k'.oom = true) ∧
      ∀ pt, r = some pt → UserSpace pt k' G ∧ SameOn G k.mem k'.mem ∧
        (k.oom = true → k'.oom = true) ∧ NoNewSharing G (own pt + G) ∧ ∀ v, leaf pt v = 0 := by
  rcases kalloc_spec h with ⟨hrun, -⟩ | ⟨pa, k₁, hrun, hstep, hnot, -, -, -⟩
  · refine ⟨none, { k with oom := true }, ?_, fun _ => ⟨⟨h, SameOn.refl _ _, fun _ => rfl⟩, rfl⟩,
      by simp⟩
    rw [uvmcreate, bind_of_ok hrun]
    rfl
  · refine ⟨some (Radix.empty 0 pa 2), k₁, ?_, by simp, ?_⟩
    · rw [uvmcreate, bind_of_ok hrun]
      rfl
    · intro pt hpt
      cases hpt
      have hrefs : pa ::ₘ G = own (Radix.empty 0 pa 2) + G := by
        rw [own_empty, Multiset.singleton_add]
      refine ⟨⟨hrefs ▸ hstep.acct, ?_⟩, hstep.same, hstep.oom_mono,
        hrefs ▸ NoNewSharing.cons hnot, fun v => leaf_empty pa v⟩
      refine ⟨fun v _ => ?_, fun v _ _ => ?_, fun v _ _ => ?_⟩ <;> rw [leaf_empty]
      · exact PteOk.of_invalid (has_zero _)
      · exact has_zero _
      · exact has_zero _

theorem procPagetable_spec (tf : ℕ) (h : Acct k G) :
    ∃ r k', procPagetable tf k = .ok (r, k') ∧
      (r = none → Step k k' G G ∧ k'.oom = true) ∧
      ∀ pt, r = some pt → NewTable G tf k pt k' := by
  have hU := UPAGES_eq
  obtain ⟨r, k₀, hrun₀, hnone, hsome⟩ := uvmcreate_spec h
  rw [procPagetable, bind_of_ok hrun₀]
  cases r with
  | none => exact ⟨none, k₀, rfl, fun _ => hnone rfl, by simp⟩
  | some pt₀ =>
    obtain ⟨hs₀, hsame₀, hoom₀, hsh₀, hleaf₀⟩ := hsome pt₀ rfl
    have hzero (v : ℕ) : (leaf pt₀ v).has PTE_V = false := by rw [hleaf₀]; exact has_zero _
    obtain ⟨ok, pt₁, k₁, hrun₁, hs₁, hsame₁, hoom₁, hsh₁, hset₁, hfail₁⟩ :=
      mapKernel_spec (v := UPAGES + 1) trampoline (PTE_R ||| PTE_X) (by omega) (by omega)
        (by decide) (hzero _) hs₀
    dsimp only
    rw [TRAMPOLINE_page, bind_of_ok hrun₁]
    cases ok with
    | false =>
      obtain ⟨hleaves, hoom⟩ := hfail₁ rfl
      have hinv (v : ℕ) (hv : v < 2 ^ 27) : (leaf pt₁ v).has PTE_V = false := by
        rw [hleaves v hv]
        exact hzero v
      obtain ⟨k', hfree, hstep, hoom'⟩ := uvmfree_spec (Nat.zero_le _) hs₁
        (fun v _ hv => hinv v (by omega)) (fun v _ hv => hinv v hv)
      refine ⟨none, k', ?_, fun _ => ⟨⟨hstep.acct, ?_, fun _ => hoom'.trans hoom⟩,
        hoom'.trans hoom⟩, by simp⟩
      · simp only [Bool.not_false, if_true]
        rw [bind_of_ok hfree]
        rfl
      · exact (hsame₀.trans hsame₁).trans hstep.same
    | true =>
      have hset := hset₁ rfl
      have hfree₁ : (leaf pt₁ UPAGES).has PTE_V = false := by
        rw [hset UPAGES (by omega), if_neg (by omega)]
        exact hzero _
      obtain ⟨ok, pt₂, k₂, hrun₂, hs₂, hsame₂, hoom₂, hsh₂, hset₂, hfail₂⟩ :=
        mapKernel_spec tf (PTE_R ||| PTE_W) (le_refl UPAGES) (by omega) (by decide) hfree₁ hs₁
      simp only [Bool.not_true, Bool.false_eq_true, if_false]
      rw [TRAPFRAME_page, bind_of_ok hrun₂]
      cases ok with
      | false =>
        obtain ⟨hleaves, hoom⟩ := hfail₂ rfl
        obtain ⟨pt₃, hrun₃, hs₃, -, hV₃, hrest₃⟩ :=
          unmapKernel_spec (v := UPAGES + 1) (by omega) (by omega) hs₂
        have hinv (v : ℕ) (hv : v < 2 ^ 27) : (leaf pt₃ v).has PTE_V = false := by
          by_cases he : v = UPAGES + 1
          · rw [he]
            exact hV₃
          · rw [hrest₃ v hv he, hleaves v hv, hset v hv, if_neg he]
            exact hzero v
        obtain ⟨k', hfree, hstep, hoom'⟩ := uvmfree_spec (Nat.zero_le _) hs₃
          (fun v _ hv => hinv v (by omega)) (fun v _ hv => hinv v hv)
        refine ⟨none, k', ?_, fun _ => ⟨⟨hstep.acct, ?_, fun _ => hoom'.trans hoom⟩,
          hoom'.trans hoom⟩, by simp⟩
        · simp only [Bool.not_false, if_true]
          rw [bind_of_ok hrun₃, bind_of_ok hfree]
          rfl
        · exact ((hsame₀.trans hsame₁).trans hsame₂).trans hstep.same
      | true =>
        have hset' := hset₂ rfl
        refine ⟨some pt₂, k₂, rfl, by simp, ?_⟩
        intro pt hpt
        cases hpt
        refine ⟨hs₂, (hsame₀.trans hsame₁).trans hsame₂, fun ho => hoom₂ (hoom₁ (hoom₀ ho)),
          (hsh₀.trans hsh₁).trans hsh₂, ?_, ?_, ?_⟩
        · intro v hv
          rw [hset' v (by omega), if_neg (by omega), hset v (by omega), if_neg (by omega)]
          exact hzero v
        · rw [hset' _ (by omega), if_pos rfl]
        · rw [hset' _ (by omega), if_neg (by omega), hset _ (by omega), if_pos rfl]

/-! ## Loading segments -/

/-- An image under construction: no page at or above `sz` is mapped. -/
structure Image (G : Multiset ℕ) (sz : ℕ) (pt : PageTable) (k : Phys) : Prop where
  space : UserSpace pt k G
  above : ∀ v, npages sz ≤ v → v < UPAGES → (leaf pt v).has PTE_V = false
  bound : npages sz ≤ UPAGES
  kernel : KernelPages pt

/-- While segments are loaded every page below `sz` is mapped for the user, no
page of the image has another reference, and there is room for all free
pages. -/
structure Loading (G : Multiset ℕ) (sz : ℕ) (pt : PageTable) (k : Phys) : Prop where
  image : Image G sz pt k
  mapped : ∀ v < npages sz, (leaf pt v).has PTE_V ∧ (leaf pt v).has PTE_U
  single : ∀ v < UPAGES, (leaf pt v).has PTE_V →
    (own pt + G).count (pte2pa (leaf pt v)) = 1
  room : npages sz + k.freelist.length ≤ UPAGES

omit [KernelImage] in
theorem le_trapframe_of_npages {sz : ℕ} (h : npages sz ≤ UPAGES) : sz ≤ TRAPFRAME := by
  rw [TRAPFRAME_page]
  simp only [npages, PGSIZE] at *
  omega

omit [KernelImage] in
theorem length_readFile_le (f : List UInt8) (off n : ℕ) : (readFile f off n).length ≤ n := by
  unfold readFile
  split
  · exact Nat.zero_le n
  · exact List.length_take_le n _

theorem loadsegPage_spec {sz : ℕ} (f : List UInt8) (va offset len i : ℕ) (h : Loading G sz pt k)
    (hin : (va + i) / PGSIZE < npages sz) :
    ∃ ok k', loadsegPage pt va f offset len i k = .ok (ok, k') ∧ Loading G sz pt k' ∧
      Evolve G pt k pt k' := by
  have hU := UPAGES_eq
  have hb := h.image.bound
  have hM : MAXVA = 274877906944 := rfl
  have hva : va + i < MAXVA := by
    simp only [PGSIZE] at *
    omega
  have hu : u64 (va + i) = va + i := by
    simp only [u64]
    omega
  obtain ⟨hV, hUs⟩ := h.mapped _ hin
  set bytes := readFile f (u32 (offset + i)) (min PGSIZE (len - i)) with hbytes
  have hlen : 0 + bytes.length ≤ PGSIZE := by
    rw [zero_add]
    exact (length_readFile_le _ _ _).trans (min_le_left _ _)
  obtain ⟨hev, -⟩ := writePage_spec bytes h.image.space (by omega) hV
    (h.single _ (by omega) hV) hlen le_rfl
  rw [Nat.add_zero] at hev
  refine ⟨bytes.length == min PGSIZE (len - i), _, ?_,
    ⟨⟨hev.space, h.image.above, hb, h.image.kernel⟩, h.mapped, h.single, h.room⟩, hev⟩
  rw [loadsegPage, hu, bind_of_ok (walkaddr_run _ _), if_pos ⟨hva, hV, hUs⟩]
  dsimp only
  rw [bind_of_ok (setMem_run _ _)]
  rfl

theorem loadsegLoop_spec {sz : ℕ} (f : List UInt8) (va offset len n j : ℕ)
    (h : Loading G sz pt k)
    (hin : ∀ i < n, (va + (j + i) * PGSIZE) / PGSIZE < npages sz) :
    ∃ ok k', loadsegLoop pt va f offset len n (j * PGSIZE) k = .ok (ok, k') ∧
      Loading G sz pt k' ∧ Evolve G pt k pt k' := by
  induction n generalizing j k with
  | zero => exact ⟨true, k, rfl, h, Evolve.refl h.image.space⟩
  | succ n ih =>
    obtain ⟨ok, k₁, hrun, hl₁, hev₁⟩ := loadsegPage_spec f va offset len (j * PGSIZE) h
      (by simpa using hin 0 (by omega))
    rw [loadsegLoop, bind_of_ok hrun]
    cases ok with
    | false => exact ⟨false, k₁, rfl, hl₁, hev₁⟩
    | true =>
      obtain ⟨ok, k', hrun', hl', hev'⟩ := ih (j + 1) hl₁ (fun i hi => by
        rw [Nat.add_assoc, Nat.add_comm 1 i]
        exact hin (i + 1) (by omega))
      refine ⟨ok, k', ?_, hl', hev₁.trans hev'⟩
      simp only [if_true]
      rw [page_succ, hrun']

theorem loadseg_spec {sz va len : ℕ} (f : List UInt8) (offset : ℕ) (h : Loading G sz pt k)
    (hal : va % PGSIZE = 0) (hin : va + len ≤ npages sz * PGSIZE) :
    ∃ ok k', loadseg pt va f offset len k = .ok (ok, k') ∧ Loading G sz pt k' ∧
      Evolve G pt k pt k' := by
  have hspec := loadsegLoop_spec f va (u32 offset) (u32 len) (pagesBetween 0 (u32 len)) 0 h ?_
  · rw [zero_mul] at hspec
    exact hspec
  · intro i hi
    simp only [pagesBetween, u32, PGSIZE] at *
    omega

theorem Image.alloced {sz newsz : ℕ} {perm : Pte} {ok : Bool} (h : Image G sz pt k)
    (hal : Alloced G (npages sz) (npages (max sz newsz)) perm pt k ok pt' k') :
    Image G (if ok then max sz newsz else sz) pt' k' := by
  have habove := hal.above (npages_mono (le_max_left _ _)) h.above
  cases ok with
  | false => exact ⟨hal.evolve.space, habove, h.bound, h.kernel.evolve hal.evolve⟩
  | true => exact ⟨hal.evolve.space, habove, (hal.bound rfl).1, h.kernel.evolve hal.evolve⟩

theorem Loading.alloced {sz newsz : ℕ} {perm : Pte} (h : Loading G sz pt k)
    (hal : Alloced G (npages sz) (npages (max sz newsz)) perm pt k true pt' k')
    (hperm : perm.has PTE_U) : Loading G (max sz newsz) pt' k' := by
  obtain ⟨hb, hroom⟩ := hal.bound rfl
  have hle := h.image.bound
  have himg := h.image.alloced hal
  refine ⟨himg, ?_, ?_, ?_⟩
  · intro v hv
    by_cases hlow : v < npages sz
    · rw [(hal.other v (by omega) (Or.inl hlow)).1]
      exact h.mapped v hlow
    · obtain ⟨hV, hr, -⟩ := hal.mapped rfl v (by omega) hv
      exact ⟨hV, (congrArg Rights.user hr).trans hperm⟩
  · intro v hv hV
    have hmem : pte2pa (leaf pt' v) ∈ own pt' + G := Multiset.mem_add.mpr (Or.inl (mem_own hv hV))
    refine hal.evolve.sharing.count_eq_one ?_ hmem
    by_cases hlow : v < npages sz
    · rw [(hal.other v hv (Or.inl hlow)).1] at hV ⊢
      exact (h.single v hv hV).le
    · have hhi : v < npages (max sz newsz) := by
        by_contra hge
        rw [himg.above v (not_lt.mp hge) hv] at hV
        cases hV
      rw [Multiset.count_eq_zero.mpr (hal.mapped rfl v (by omega) hhi).2.2.1]
      omega
  · have := h.room
    omega

omit [KernelImage] in
theorem permOk_flags2perm (flags : ℕ) : PermOk (PTE_R ||| PTE_U ||| flags2perm flags) := by
  apply permOk_user
  · have hx : FlagsOnly (if flags.testBit 0 then PTE_X else 0) := by
      split
      · exact flagsOnly_one_shift (by omega)
      · intro k _
        simp
    unfold flags2perm
    dsimp only
    split
    · exact hx.or (flagsOnly_one_shift (by omega))
    · exact hx
  · unfold flags2perm
    dsimp only
    split <;> split <;> decide

omit [KernelImage] in
theorem has_U_user (xperm : Pte) : (PTE_R ||| PTE_U ||| xperm).has PTE_U := by
  rw [Pte.has_U, BitVec.getLsbD_or, BitVec.getLsbD_or, getLsbD_PTE_R, getLsbD_PTE_U]
  rfl

omit [KernelImage] in
theorem leNat_lt (bytes : List UInt8) : leNat bytes < 256 ^ bytes.length := by
  induction bytes with
  | nil => decide
  | cons b bytes ih =>
    have hb := b.toNat_lt
    have hcons : leNat (b :: bytes) = b.toNat + 256 * leNat bytes := rfl
    rw [hcons, List.length_cons, Nat.pow_succ]
    omega

omit [KernelImage] in
theorem leField_lt (bytes : List UInt8) (off n : ℕ) : leField bytes off n < 256 ^ n :=
  (leNat_lt _).trans_le (Nat.pow_le_pow_right (by omega) (List.length_take_le _ _))

omit [KernelImage] in
theorem le_npages_mul (sz : ℕ) : sz ≤ npages sz * PGSIZE := by
  simp only [npages, PGSIZE]
  omega

theorem loadSegments_spec (f : List UInt8) (n off : ℕ) {sz : ℕ} (h : Loading G sz pt k) :
    ∃ ok pt' sz' k', loadSegments f n off pt sz k = .ok ((ok, pt', sz'), k') ∧
      Image G sz' pt' k' ∧ Evolve G pt k pt' k' ∧ (ok = true → Loading G sz' pt' k') := by
  induction n generalizing off pt sz k with
  | zero =>
    exact ⟨true, pt, sz, k, rfl, h.image, Evolve.refl h.image.space, fun _ => h⟩
  | succ n ih =>
    have hstop : ∃ ok pt' sz' k', (pure (false, pt, sz) : VmM (Bool × PageTable × ℕ)) k =
        .ok ((ok, pt', sz'), k') ∧ Image G sz' pt' k' ∧ Evolve G pt k pt' k' ∧
        (ok = true → Loading G sz' pt' k') :=
      ⟨false, pt, sz, k, rfl, h.image, Evolve.refl h.image.space, by simp⟩
    rw [loadSegments]
    set ph := ProgHdr.decode (readFile f off ProgHdr.size) with hph
    dsimp only
    split
    · exact hstop
    split
    · exact ih _ h
    split
    · exact hstop
    split
    · exact hstop
    split
    · exact hstop
    next hmemsz hwrap hal =>
    obtain ⟨ok, pt₁, k₁, hrun, halc⟩ := uvmalloc_spec (u64 (ph.vaddr + ph.memsz))
      (permOk_flags2perm ph.flags) (le_trapframe_of_npages h.image.bound) (Or.inr h.room)
      h.image.space h.image.above
    rw [bind_of_ok hrun]
    have himg := h.image.alloced halc
    cases ok with
    | false => exact ⟨false, pt₁, sz, k₁, rfl, himg, halc.evolve, by simp⟩
    | true =>
      simp only [if_true] at himg ⊢
      by_cases hz : max sz (u64 (ph.vaddr + ph.memsz)) = 0
      · rw [if_pos hz]
        refine ⟨false, pt₁, sz, k₁, rfl, ?_, halc.evolve, by simp⟩
        rw [hz] at himg
        rwa [show sz = 0 by omega]
      rw [if_neg hz]
      have hload := h.alloced halc (has_U_user _)
      have hfits : ph.vaddr + ph.filesz ≤
          npages (max sz (u64 (ph.vaddr + ph.memsz))) * PGSIZE := by
        have hv : ph.vaddr < 2 ^ 64 := leField_lt _ 16 8
        have hm : ph.memsz < 2 ^ 64 := leField_lt _ 40 8
        have hle := le_npages_mul (max sz (u64 (ph.vaddr + ph.memsz)))
        simp only [u64] at *
        omega
      obtain ⟨ok, k₂, hrun₂, hload₂, hev₂⟩ := loadseg_spec f ph.off hload (by omega) hfits
      rw [bind_of_ok hrun₂]
      cases ok with
      | false =>
        exact ⟨false, pt₁, _, k₂, rfl, hload₂.image, halc.evolve.trans hev₂, by simp⟩
      | true =>
        obtain ⟨ok, pt', sz', k', hrun', hi', hev', hl'⟩ := ih (u32 (off + ProgHdr.size)) hload₂
        exact ⟨ok, pt', sz', k', hrun', hi', (halc.evolve.trans hev₂).trans hev', hl'⟩

/-! ## The stack -/

theorem uvmclear_spec {v : ℕ} (hv : v < UPAGES) (hV : (leaf pt v).has PTE_V)
    (h : UserSpace pt k G) :
    ∃ pt', uvmclear pt (v * PGSIZE) k = .ok (pt', k) ∧ Evolve G pt k pt' k ∧
      SetLeaf pt pt' v (clearUserPte (leaf pt v)) := by
  have hU := UPAGES_eq
  have hs : (slot pt (v * PGSIZE)).isSome := slot_isSome_of_valid (by rwa [page_div])
  have hread := readSlot_run hs k
  rw [page_div] at hread
  set pt' := setSlot pt (v * PGSIZE) (clearUserPte (leaf pt v)) with hpt'
  have hset : SetLeaf pt pt' v (clearUserPte (leaf pt v)) := setLeaf_setSlot (by omega) hs _
  have hown := own_setLeaf 0 hv hset (by simp [hpt'])
  rw [pteRef_valid hV, pteRef_valid (by simpa using hV), pte2pa_clearUserPte, add_zero,
    add_comm] at hown
  have hown' : own pt' = own pt := add_left_cancel hown
  refine ⟨pt', ?_, ⟨⟨by rw [hown']; exact h.acct, ?_⟩, SameOn.refl _ _, id, ?_, ?_, root_setSlot ..⟩, hset⟩
  · rw [uvmclear, bind_of_ok (walk_find (page_lt_maxva (by omega)) k), hs]
    simp only [Bool.not_true, Bool.false_eq_true, if_false]
    rw [bind_of_ok hread]
    rfl
  · have hok := h.wf.entry v hv
    rw [hown']
    refine h.wf.setLeaf hv hset (NoNewSharing.refl _)
      (by rw [hown']; exact Multiset.le_add_right _ _) ⟨?_, ?_, ?_⟩
    · simpa using hok.readable
    · simpa using hok.cow_ro
    · rw [pte2pa_clearUserPte]
      simpa using hok.writable
  · intro w hw hlt
    rw [hset w hlt, if_neg (by omega)]
  · rw [hown']
    exact NoNewSharing.refl _

theorem Image.copyout {sz : ℕ} (oldsz va : ℕ) (src : List UInt8) (h : Image G sz pt k)
    (hin : ∀ j < src.length, (va + j) / PGSIZE < npages sz) :
    ∃ ok pt' k', copyout pt oldsz va src k = .ok ((ok, pt'), k') ∧ Image G sz pt' k' ∧
      Evolve G pt k pt' k' ∧ (ok = true → ∃ S, Wrote G S va src pt k pt' k') := by
  have heq := copyout_min oldsz va src h.space h.kernel
  obtain ⟨ok, m, pt', k', hrun, hc⟩ := copyout_spec (min_le_right oldsz TRAPFRAME) va src h.space
  refine ⟨ok, pt', k', heq.trans hrun, ⟨hc.wrote.evolve.space, ?_, h.bound,
    h.kernel.evolve hc.wrote.evolve⟩, hc.wrote.evolve,
    fun hok => ⟨Touched (min oldsz TRAPFRAME) va src.length, ?_⟩⟩
  swap
  · have hw := hc.wrote
    rw [hc.complete hok, List.take_length] at hw
    exact hw
  intro v hv hvU
  by_contra hV
  rcases hc.wrote.adds v hvU (by simpa using hV) with hold | ⟨⟨-, j, hj, rfl⟩, -⟩
  · rw [h.above v hv hvU] at hold
    cases hold
  · have := hin j hj
    omega

omit [KernelImage] in
/-- Bytes below the top of the stack lie on pages of the image. -/
theorem stack_page {v sp n top j : ℕ} (htop : sp + n ≤ top)
    (hle : top ≤ (v + 2) * PGSIZE) (hj : j < n) : (sp + j) / PGSIZE < v + 2 := by
  simp only [PGSIZE] at *
  omega

section
variable {v : ℕ} (hv : v + 2 ≤ UPAGES)
include hv

/-- The loop over the arguments.  If it does not fail there was room for all strings; they are
in memory, and what lay above them still is. -/
theorem pushArgs_spec (oldsz : ℕ) (argv : List (List UInt8)) (hargs : ∀ a ∈ argv, a.length < PGSIZE)
    (argc sp : ℕ) (ustack : List ℕ) (hsp : (v + 1) * PGSIZE ≤ sp) (htop : sp ≤ (v + 2) * PGSIZE)
    (h16 : sp % 16 = 0) (h : Image G ((v + 2) * PGSIZE) pt k) :
    ∃ ok pt' sp' ustack' k', pushArgs ((v + 1) * PGSIZE) oldsz argv argc pt sp ustack k =
        .ok ((ok, pt', sp', ustack'), k') ∧
      Image G ((v + 2) * PGSIZE) pt' k' ∧ Evolve G pt k pt' k' ∧
      (ok = true → (v + 1) * PGSIZE + stringRoom argv ≤ sp ∧ sp' = sp - stringRoom argv ∧
        ustack' = ustack ++ stringAddrs sp argv ∧ HasStrings pt' k'.mem sp argv ∧
        (∀ a n, sp ≤ a → a + n ≤ (v + 2) * PGSIZE →
          bytesAt pt' k'.mem a n = bytesAt pt k.mem a n) ∧
        ∀ w < UPAGES, (leaf pt w).has PTE_V →
          (leaf pt' w).has PTE_V ∧ rights (leaf pt' w) = rights (leaf pt w)) := by
  have hU := UPAGES_eq
  induction argv generalizing argc sp ustack pt k with
  | nil =>
    refine ⟨true, pt, sp, ustack, k, rfl, h, Evolve.refl h.space, fun _ => ⟨?_, rfl, ?_, ?_, ?_, ?_⟩⟩
    · rw [stringRoom, Nat.add_zero]
      exact hsp
    · rw [stringAddrs, List.append_nil]
    · exact List.Forall₂.nil
    · exact fun _ _ _ _ => rfl
    · exact fun _ _ hV => ⟨hV, rfl⟩
  | cons arg rest ih =>
    have harg := hargs arg List.mem_cons_self
    have hpad : padded (arg.length + 1) ≤ PGSIZE := by
      simp only [padded, PGSIZE] at *
      omega
    have hlen := le_padded (arg.length + 1)
    have hsp64 : sp < 2 ^ 64 := by
      simp only [PGSIZE] at *
      omega
    have hroom : padded (arg.length + 1) ≤ sp := by
      simp only [PGSIZE] at *
      omega
    have hpush := pushSp_eq h16 hroom hsp64
    rw [pushArgs]
    split
    · exact ⟨false, pt, sp, ustack, k, rfl, h, Evolve.refl h.space, by simp⟩
    dsimp only
    rw [hpush]
    split
    · exact ⟨false, pt, _, ustack, k, rfl, h, Evolve.refl h.space, by simp⟩
    next hargc hbase =>
    have hpage (a n j : ℕ) (ha : a + n ≤ (v + 2) * PGSIZE) (hj : j < n) :
        (a + j) / PGSIZE < v + 2 := stack_page ha le_rfl hj
    have hend : sp - padded (arg.length + 1) + (arg ++ [0]).length ≤ (v + 2) * PGSIZE := by
      rw [List.length_append, List.length_singleton]
      omega
    obtain ⟨ok, pt₁, k₁, hrun, himg, hev, hwrote⟩ := h.copyout oldsz
      (sp - padded (arg.length + 1)) (arg ++ [0]) (fun j hj => by
        rw [npages_page]
        exact hpage _ _ j hend hj)
    rw [bind_of_ok hrun]
    cases ok with
    | false => exact ⟨false, pt₁, _, ustack, k₁, rfl, himg, hev, by simp⟩
    | true =>
      obtain ⟨S, hwrote⟩ := hwrote rfl
      obtain ⟨ok, pt', sp', ustack', k', hrun', himg', hev', hok⟩ :=
        ih (fun a ha => hargs a (List.mem_cons_of_mem arg ha)) (argc + 1) _
          (ustack ++ [sp - padded (arg.length + 1)]) (not_lt.mp hbase) (by omega)
          (by have := padded_mod (arg.length + 1); omega) himg
      refine ⟨ok, pt', sp', ustack', k', hrun', himg', hev.trans hev', fun ho => ?_⟩
      obtain ⟨hfit, hsp', hustack, hstrings, hkept, hrights⟩ := hok ho
      rw [stringRoom]
      refine ⟨by omega, by omega, ?_, List.Forall₂.cons ?_ hstrings, fun a n ha hn => ?_,
        fun w hw hV => ?_⟩
      · rw [hustack, stringAddrs, List.append_assoc, List.singleton_append]
      · -- The string just pushed; the later ones go below it.
        have hself := hwrote.bytesAt_self fun j hj => (hpage _ _ j hend hj).trans_le hv
        rw [List.length_append, List.length_singleton] at hself hend
        rw [hkept _ _ le_rfl hend]
        exact hself
      · rw [hkept a n (by omega) hn]
        refine hwrote.bytesAt_apart (fun j hj => (hpage a n j hn hj).trans_le hv) (Or.inl ?_)
        rw [List.length_append, List.length_singleton]
        dsimp only
        omega
      · obtain ⟨hV₁, hr₁⟩ := hwrote.keeps w hw hV
        obtain ⟨hV', hr'⟩ := hrights w hw hV₁
        exact ⟨hV', hr'.trans hr₁⟩

theorem fillStack_spec (epc oldsz : ℕ) (argv : List (List UInt8)) (hargc : argv.length < MAXARG)
    (hargs : ∀ a ∈ argv, a.length < PGSIZE) (hV : (leaf pt v).has PTE_V)
    (hV' : (leaf pt (v + 1)).has PTE_V) (hr : rights (leaf pt (v + 1)) = lazyRights)
    (h : Image G ((v + 2) * PGSIZE) pt k) :
    ∃ entry pt' k', fillStack epc oldsz argv pt ((v + 2) * PGSIZE) k =
        .ok ((entry, pt', (v + 2) * PGSIZE), k') ∧
      Image G ((v + 2) * PGSIZE) pt' k' ∧ Evolve G pt k pt' k' ∧
      ∀ e ∈ entry, e.argc = argv.length ∧ HasArgs pt' k'.mem ((v + 2) * PGSIZE) argv e.sp := by
  have hU := UPAGES_eq
  have hclear : u64Sub ((v + 2) * PGSIZE) ((USERSTACK + 1) * PGSIZE) = v * PGSIZE := by
    rw [u64Sub_of_le] <;> simp only [USERSTACK, PGSIZE] <;> omega
  have hbase : u64Sub ((v + 2) * PGSIZE) (USERSTACK * PGSIZE) = (v + 1) * PGSIZE := by
    rw [u64Sub_of_le] <;> simp only [USERSTACK, PGSIZE] <;> omega
  obtain ⟨pt₁, hrun₁, hev₁, hset₁⟩ := uvmclear_spec (by omega) hV h.space
  have himg₁ : Image G ((v + 2) * PGSIZE) pt₁ k := by
    refine ⟨hev₁.space, fun w hw hwU => ?_, h.bound, h.kernel.evolve hev₁⟩
    have hw' := hw
    rw [npages_page] at hw'
    rw [hset₁ w (by omega), if_neg (by omega)]
    exact h.above w hw hwU
  rw [fillStack, hclear, bind_of_ok hrun₁, hbase]
  dsimp only
  obtain ⟨ok, pt₂, sp, ustack, k₂, hrun₂, himg₂, hev₂, hok₂⟩ := pushArgs_spec hv oldsz argv hargs 0
    ((v + 2) * PGSIZE) [] (Nat.mul_le_mul_right _ (by omega)) le_rfl
    (by simp only [PGSIZE]; omega) himg₁
  have hev := hev₁.trans hev₂
  rw [bind_of_ok hrun₂]
  cases ok with
  | false => exact ⟨none, pt₂, k₂, rfl, himg₂, hev, by simp⟩
  | true =>
    obtain ⟨hfit, hsp, hustack, hstrings, -, hrights⟩ := hok₂ rfl
    simp only [Bool.not_true, Bool.false_eq_true, if_false]
    have hpush : pushSp sp ((argv.length + 1) * 8) = (v + 2) * PGSIZE - argRoom argv := by
      have hmod := stringRoom_mod argv
      rw [pushSp_eq, argRoom]
      · omega
      · simp only [PGSIZE] at *
        omega
      · simp only [padded, PGSIZE, MAXARG] at *
        omega
      · simp only [PGSIZE] at *
        omega
    rw [if_neg (not_le.mpr hargc), hpush]
    split
    · exact ⟨none, pt₂, k₂, rfl, himg₂, hev, by simp⟩
    next hfit' =>
    have hroom : argRoom argv ≤ PGSIZE := by
      simp only [argRoom, padded, PGSIZE, MAXARG] at *
      omega
    have hbytes : ((ustack ++ [0]).flatMap uint64Bytes).length = (argv.length + 1) * 8 := by
      rw [length_flatMap_uint64Bytes, hustack]
      simp
    have hend : (v + 2) * PGSIZE - argRoom argv + (argv.length + 1) * 8 ≤
        (v + 2) * PGSIZE - stringRoom argv := by
      have hlen := le_padded ((argv.length + 1) * 8)
      have htop : PGSIZE ≤ (v + 2) * PGSIZE := Nat.le_mul_of_pos_left _ (by omega)
      rw [argRoom] at hroom ⊢
      omega
    have hpage (j : ℕ) (hj : j < ((ustack ++ [0]).flatMap uint64Bytes).length) :
        ((v + 2) * PGSIZE - argRoom argv + j) / PGSIZE < v + 2 :=
      stack_page (n := (argv.length + 1) * 8) (hend.trans (Nat.sub_le _ _)) le_rfl (hbytes ▸ hj)
    obtain ⟨ok, pt₃, k₃, hrun₃, himg₃, hev₃, hwrote⟩ := himg₂.copyout oldsz
      ((v + 2) * PGSIZE - argRoom argv) ((ustack ++ [0]).flatMap uint64Bytes) (fun j hj => by
        rw [npages_page]
        exact hpage j hj)
    rw [bind_of_ok hrun₃]
    cases ok with
    | false => exact ⟨none, pt₃, k₃, rfl, himg₃, hev.trans hev₃, by simp⟩
    | true =>
      obtain ⟨S, hwrote⟩ := hwrote rfl
      refine ⟨some ⟨argv.length, (v + 2) * PGSIZE - argRoom argv, epc⟩, pt₃, k₃, rfl, himg₃,
        hev.trans hev₃, ?_⟩
      rintro e ⟨⟩
      have hpage' : (v + 2) * PGSIZE / PGSIZE - 1 = v + 1 := by rw [page_div]; rfl
      have hleaf : leaf pt₁ (v + 1) = leaf pt (v + 1) := by
        rw [hset₁ _ (by omega), if_neg (by omega)]
      rw [← hleaf] at hV' hr
      obtain ⟨hV₂, hr₂⟩ := hrights (v + 1) (by omega) hV'
      obtain ⟨hV₃, hr₃⟩ := hwrote.keeps (v + 1) (by omega) hV₂
      refine ⟨rfl, by rwa [hpage'], by rw [hpage', hr₃, hr₂, hr], hroom, rfl, ?_, ?_⟩
      · refine hstrings.congr ((v + 2) * PGSIZE - stringRoom argv) (by omega) ?_
        intro a n ha hn
        refine hwrote.bytesAt_apart (fun j hj => (stack_page hn le_rfl hj).trans_le hv) (Or.inl ?_)
        rw [hbytes]
        dsimp only
        omega
      · have hself := hwrote.bytesAt_self fun j hj => (hpage j hj).trans_le hv
        rw [hbytes] at hself
        rw [hself, hustack, List.nil_append]

end

omit [KernelImage] in
theorem permOk_stack : PermOk (PTE_R ||| PTE_U ||| PTE_W) :=
  permOk_user (flagsOnly_one_shift (by omega)) (by decide)

theorem buildStack_spec {sz : ℕ} (epc oldsz : ℕ) (argv : List (List UInt8))
    (hargc : argv.length < MAXARG) (hargs : ∀ a ∈ argv, a.length < PGSIZE)
    (h : Loading G sz pt k) :
    ∃ entry pt' sz' k', buildStack epc oldsz argv pt sz k = .ok ((entry, pt', sz'), k') ∧
      Image G sz' pt' k' ∧ Evolve G pt k pt' k' ∧
      ∀ e ∈ entry, e.argc = argv.length ∧ PGSIZE ∣ sz' ∧ PGSIZE ≤ sz' ∧
        HasArgs pt' k'.mem sz' argv e.sp := by
  have hU := UPAGES_eq
  have hM : MAXVA = 274877906944 := rfl
  have hT : TRAPFRAME = 274877898752 := rfl
  have hroom := h.room
  have hround : pgroundup sz = npages sz * PGSIZE :=
    pgroundup_eq (by have := le_trapframe_of_npages h.image.bound; omega)
  rw [buildStack, hround]
  dsimp only
  obtain ⟨v, hv⟩ : ∃ v, npages sz = v := ⟨_, rfl⟩
  have himg : Image G (v * PGSIZE) pt k := by
    refine ⟨h.image.space, ?_, ?_, h.image.kernel⟩ <;> rw [npages_page, ← hv]
    · exact h.image.above
    · exact h.image.bound
  rw [hv] at hroom ⊢
  have hnew : u64 (v * PGSIZE + (USERSTACK + 1) * PGSIZE) = (v + 2) * PGSIZE := by
    simp only [u64, USERSTACK, PGSIZE]
    omega
  have hmax : max (v * PGSIZE) ((v + 2) * PGSIZE) = (v + 2) * PGSIZE :=
    max_eq_right (Nat.mul_le_mul_right _ (by omega))
  obtain ⟨ok, pt₁, k₁, hrun₁, hal⟩ := uvmalloc_spec ((v + 2) * PGSIZE) permOk_stack
    (le_trapframe_of_npages himg.bound) (Or.inr (by rw [npages_page]; exact hroom))
    himg.space himg.above
  have himg₁ := himg.alloced hal
  rw [hnew, bind_of_ok hrun₁]
  cases ok with
  | false => exact ⟨none, pt₁, v * PGSIZE, k₁, rfl, himg₁, hal.evolve, by simp⟩
  | true =>
    rw [hmax, npages_page, npages_page] at hal
    simp only [if_true, hmax] at himg₁ ⊢
    have hne : (v + 2) * PGSIZE ≠ 0 := by
      simp only [PGSIZE]
      omega
    rw [if_neg hne]
    obtain ⟨hV, -⟩ := hal.mapped rfl v le_rfl (by omega)
    obtain ⟨hV', hr, -⟩ := hal.mapped rfl (v + 1) (by omega) (by omega)
    obtain ⟨entry, pt₂, k₂, hrun₂, himg₂, hev₂, hentry⟩ := fillStack_spec (hal.bound rfl).1 epc oldsz
      argv hargc hargs hV hV' (hr.trans (by decide)) himg₁
    refine ⟨entry, pt₂, _, k₂, hrun₂, himg₂, hal.evolve.trans hev₂, fun e he => ?_⟩
    obtain ⟨hcount, hhas⟩ := hentry e he
    exact ⟨hcount, Dvd.intro_left _ rfl, Nat.le_mul_of_pos_left _ (by omega), hhas⟩

/-! ## Errors while freeing

Whatever freeing runs into, it is not the end of `ustack`.
-/

theorem kfree_avoids (pa : ℕ) : Avoids .ustackOverrun (kfree pa) := by
  intro k hc
  unfold kfree at hc
  split at hc
  · cases hc
  · dsimp only at hc
    split at hc <;> cases hc

omit [KernelImage] in
theorem readSlot_avoids (pt : PageTable) (va : ℕ) : Avoids .ustackOverrun (readSlot pt va) := by
  unfold readSlot
  split
  · exact Avoids.pure _ _
  · exact Avoids.throw (by decide)

theorem uvmunmapPage_avoids (doFree : Bool) (pt : PageTable) (a : ℕ) :
    Avoids .ustackOverrun (uvmunmapPage doFree pt a) := by
  refine Avoids.bind (fun k hc => ?_) fun r => ?_
  · by_cases hva : a < MAXVA
    · rw [walk_find hva] at hc
      cases hc
    · rw [walk_beyond (not_lt.mp hva)] at hc
      cases hc
  · dsimp only
    split
    · exact Avoids.pure _ _
    refine Avoids.bind (readSlot_avoids _ _) fun pte => ?_
    split
    · exact Avoids.pure _ _
    cases doFree with
    | true => exact Avoids.bind (kfree_avoids _) fun _ => Avoids.pure _ _
    | false => exact Avoids.pure _ _

theorem uvmunmapLoop_avoids (doFree : Bool) (n : ℕ) (pt : PageTable) (a : ℕ) :
    Avoids .ustackOverrun (uvmunmapLoop doFree n pt a) := by
  induction n generalizing pt a with
  | zero => exact Avoids.pure _ pt
  | succ n ih => exact Avoids.bind (uvmunmapPage_avoids doFree pt a) fun pt => ih pt _

theorem uvmunmap_avoids (pt : PageTable) (va n : ℕ) (doFree : Bool) :
    Avoids .ustackOverrun (uvmunmap pt va n doFree) := by
  unfold uvmunmap
  split
  · exact Avoids.throw (by decide)
  · exact uvmunmapLoop_avoids doFree _ pt va

theorem freewalk_avoids (n : ℕ) (t : Table n) : Avoids .ustackOverrun (freewalk n t) := by
  induction n with
  | zero =>
    refine Avoids.bind (Avoids.forM (fun i => ?_) _) fun _ => kfree_avoids _
    split
    · split
      · exact Avoids.throw (by decide)
      · exact Avoids.throw (by decide)
    · exact Avoids.pure _ _
  | succ n ih =>
    refine Avoids.bind (Avoids.forM (fun i => ?_) _) fun _ => kfree_avoids _
    split
    · exact ih _
    · exact Avoids.pure _ _

theorem procFreepagetable_avoids (pt : PageTable) (sz : ℕ) :
    Avoids .ustackOverrun (procFreepagetable pt sz) := by
  refine Avoids.bind (uvmunmap_avoids _ _ _ _) fun pt => ?_
  refine Avoids.bind (uvmunmap_avoids _ _ _ _) fun pt => ?_
  unfold uvmfree
  split
  · exact Avoids.bind (uvmunmap_avoids _ _ _ _) fun pt => freewalk_avoids 2 pt
  · exact Avoids.bind (Avoids.pure _ _) fun pt => freewalk_avoids 2 pt

/-! ## The whole image -/

/-- The image that `kexec` commits for a process with trapframe `tf`. -/
structure NewImage (G : Multiset ℕ) (tf : ℕ) (k : Phys) (pt : PageTable) (sz : ℕ) (k' : Phys) :
    Prop where
  image : Image G sz pt k'
  same : SameOn G k.mem k'.mem
  oom_mono : k.oom = true → k'.oom = true
  sharing : NoNewSharing G (own pt + G)
  trapframe : leaf pt UPAGES = mapPte tf (PTE_R ||| PTE_W)
  trampoline : leaf pt (UPAGES + 1) = mapPte trampoline (PTE_R ||| PTE_X)

theorem NewTable.loading {tf : ℕ} (h : NewTable G tf k pt k') : Loading G 0 pt k' := by
  have hU := UPAGES_eq
  have hlen := h.space.acct.length_le
  refine ⟨⟨h.space, fun v _ hv => h.empty v hv, Nat.zero_le _,
    kernelPages_of_leaves h.trapframe h.trampoline⟩, ?_, ?_, ?_⟩
  · intro v hv
    simp [npages, PGSIZE] at hv
  · intro v hv hV
    rw [h.empty v hv] at hV
    cases hV
  · have hz : npages 0 = 0 := rfl
    omega

/-- The image that has grown out of a new table. -/
theorem NewTable.newImage {tf sz : ℕ} (h : NewTable G tf k pt₁ k₁) (hev : Evolve G pt₁ k₁ pt k')
    (himg : Image G sz pt k') : NewImage G tf k pt sz k' := by
  have hU := UPAGES_eq
  exact ⟨himg, h.same.trans hev.same, fun ho => hev.oom_mono (h.oom_mono ho),
    h.sharing.trans hev.sharing, (hev.kernel _ le_rfl (by omega)).trans h.trapframe,
    (hev.kernel _ (by omega) (by omega)).trans h.trampoline⟩

/-- An image that is not committed is given back whole. -/
theorem NewImage.discard {tf sz : ℕ} (hnew : NewImage G tf k pt sz k₁) :
    ∃ k', procFreepagetable pt sz k₁ = .ok ((), k') ∧ Step k k' G G := by
  have hT : TRAPFRAME = 274877898752 := rfl
  have hsz := le_trapframe_of_npages hnew.image.bound
  obtain ⟨k', hrun, hstep, -⟩ := (procFreepagetable_spec (by omega) hnew.image.space
    hnew.image.above).resolve_left fun hc => absurd hc.1 (not_lt.mpr hsz)
  exact ⟨k', hrun, hstep.acct, hnew.same.trans hstep.same,
    fun ho => hstep.oom_mono (hnew.oom_mono ho)⟩

end Xv6.Vm
