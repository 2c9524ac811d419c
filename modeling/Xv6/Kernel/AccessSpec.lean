import Xv6.Kernel.SpaceSpec

/-! # User memory accesses, copyin and copyout, and sbrk -/
namespace Xv6.Kernel
open Library Library.Exec Library.RefCount Vm

section
variable [KernelImage] {s s₁ s' : State} {held : FileId → ℤ} {p q : ProcId} {pt pt' : PageTable}
  {tf sz : ℕ} {k' : Phys}

theorem Live.accessed {a : ℕ} {bytes : List UInt8} {S : ℕ → Prop}
    (hl : Live (owners s) (s.proc p) pt tf)
    (hw : Wrote (outside s p tf) S a bytes pt s.phys pt' k')
    (hS : ∀ v, S v → v < npages (s.proc p).sz) :
    Accessed s p a bytes (s.setSpace p pt' (s.proc p).sz k') :=
  ⟨pt, tf, pt', k', hl, hw.mono hS, rfl⟩

/-- The part of the memory of `p` that page faults can fill. -/
def top (s : State) (p : ProcId) : ℕ := min (s.proc p).sz TRAPFRAME

omit [KernelImage] in
theorem top_le (s : State) (p : ProcId) : top s p ≤ TRAPFRAME := min_le_right _ _

omit [KernelImage] in
theorem npages_top_le (s : State) (p : ProcId) : npages (top s p) ≤ npages (s.proc p).sz :=
  npages_mono (min_le_left _ _)

/-- What `copyout` to process `p` has done: it wrote the first `m` bytes. -/
structure CopyoutDone (s : State) (p : ProcId) (pt : PageTable) (va : ℕ) (src : List UInt8)
    (ok : Bool) (m : ℕ) (s' : State) : Prop where
  accessed : Accessed s p va (src.take m) s'
  length_le : m ≤ src.length
  permitted : ∀ j < m, Permitted pt ((va + j) / PGSIZE)
  complete : ok = true → m = src.length
  progress : Writable pt (top s p) va src.length → s'.phys.oom = false → ok = true

theorem copyoutTo_spec (h : Inv s held) (hl : Live (owners s) (s.proc p) pt tf) (va : ℕ)
    (src : List UInt8) :
    ∃ ok m s', copyoutTo p va src s = .ok (ok, s') ∧ CopyoutDone s p pt va src ok m s' := by
  have heq := copyout_min (s.proc p).sz va src (h.space hl) hl.kernelPages
  obtain ⟨ok, m, pt', k', hrun, hc⟩ := copyout_spec (top_le s p) va src (h.space hl)
  exact ⟨ok, m, _, onSpace_run hl.pagetable (heq.trans hrun),
    hl.accessed hc.wrote fun v hv => hv.1.trans_le (npages_top_le s p), hc.length_le,
    hc.permitted, hc.complete, hc.progress⟩

/-- What `copyin` from process `p` has done: it read `bytes` before it stopped. -/
structure CopyinDone (s : State) (p : ProcId) (pt : PageTable) (va len : ℕ) (ok : Bool)
    (bytes : List UInt8) (s' : State) : Prop where
  accessed : Accessed s p va [] s'
  bytes_eq : bytes = bytesAt pt s.phys.mem va bytes.length
  inside : ∀ j < bytes.length, (va + j) / PGSIZE < UPAGES
  permitted : ∀ j < bytes.length, Permitted pt ((va + j) / PGSIZE)
  complete : ok = true → bytes.length = len
  progress : Accessible pt (top s p) va len → s'.phys.oom = false → ok = true

theorem copyinFrom_spec (h : Inv s held) (hl : Live (owners s) (s.proc p) pt tf) (va len : ℕ) :
    (TRAPFRAME < (s.proc p).sz ∧ copyinFrom p va len s = .error .walk) ∨
      ∃ ok bytes s', copyinFrom p va len s = .ok ((ok, bytes), s') ∧
        CopyinDone s p pt va len ok bytes s' := by
  rcases copyin_min (s.proc p).sz va len (h.space hl) hl.kernelPages with ⟨hbig, he⟩ | heq
  · exact Or.inl ⟨hbig, onSpace_error hl.pagetable (bind_of_error he)⟩
  obtain ⟨ok, bytes, pt', k', hrun, hc⟩ := copyin_spec (top_le s p) va len (h.space hl)
  refine Or.inr ⟨ok, bytes, _, onSpace_run hl.pagetable ?_, hl.accessed (hc.quiet.wrote va)
    fun v hv => hv.1.trans_le (npages_top_le s p), hc.bytes_eq, hc.inside, hc.permitted,
    hc.complete, hc.progress⟩
  rw [bind_of_ok (heq.trans hrun)]
  rfl

/-! ## Loads and stores -/

/-- The program may make this access to the page of `va`, if that is mapped. -/
def MayAccess (pt : PageTable) (va : ℕ) (write : Bool) : Prop :=
  (leaf pt (va / PGSIZE)).has PTE_U ∧
    (write = true → (rights (leaf pt (va / PGSIZE))).writable = true)

/-- The MMU lets the program make this access. -/
def Translates (pt : PageTable) (va : ℕ) (write : Bool) : Prop :=
  va < MAXVA ∧ (leaf pt (va / PGSIZE)).has PTE_V ∧ (leaf pt (va / PGSIZE)).has PTE_U ∧
    (leaf pt (va / PGSIZE)).has (if write then PTE_W else PTE_R)

omit [KernelImage] in
theorem translate_of {va : ℕ} {write : Bool} (h : Translates pt va write) :
    translate pt va write = some (pte2pa (leaf pt (va / PGSIZE)) + va % PGSIZE) := if_pos h

omit [KernelImage] in
theorem translate_of_not {va : ℕ} {write : Bool} (h : ¬ Translates pt va write) :
    translate pt va write = none := if_neg h

theorem memAccess_spec (h : UserSpace pt s.phys (outside s p tf)) {va : ℕ}
    {write : Option UInt8} (htr : Translates pt va write.isSome) (S : ℕ → Prop) :
    ∃ k', memAccess (pte2pa (leaf pt (va / PGSIZE)) + va % PGSIZE) write s.phys =
        .ok (write.getD (byteAt pt s.phys.mem va), k') ∧
      Wrote (outside s p tf) S va write.toList pt s.phys pt k' ∧ va / PGSIZE < UPAGES := by
  have hU := UPAGES_eq
  obtain ⟨hva, hV, hUs, hW⟩ := htr
  have hv : va / PGSIZE < UPAGES := by
    by_contra hge
    have hpage : va / PGSIZE < 2 ^ 27 := by
      have hM : MAXVA = 274877906944 := rfl
      simp only [PGSIZE]
      omega
    rw [h.wf.supervisor _ (not_lt.mp hge) hpage] at hUs
    cases hUs
  cases write with
  | none =>
    refine ⟨s.phys, ?_, (Quiet.refl h S).wrote va, hv⟩
    rw [memAccess, Option.getD_none, byteAt, view, if_pos hV]
  | some b =>
    have hw := writeChunk_spec S [b] h hv hV ((h.wf.entry _ hv).writable hV hW)
      (by rw [rights]; simpa using Or.inl hW)
    have hchunk : chunk va [b].length = 1 := by
      simp only [chunk, pgrounddown, PGSIZE, List.length_singleton]
      omega
    have hoff : va - pgrounddown va = va % PGSIZE := by
      simp only [pgrounddown, PGSIZE]
      omega
    rw [hchunk, hoff] at hw
    refine ⟨_, ?_, hw, hv⟩
    have hmem : memmove (pte2pa (leaf pt (va / PGSIZE)) + va % PGSIZE) (fun _ => b) 1 s.phys.mem =
        memmove (pte2pa (leaf pt (va / PGSIZE)) + va % PGSIZE) (fun i => [b].getD i 0) 1
          s.phys.mem := by
      funext x
      unfold memmove
      split
      · next hx =>
        rw [show x - (pte2pa (leaf pt (va / PGSIZE)) + va % PGSIZE) = 0 by omega]
        rfl
      · rfl
    rw [← hmem]
    rfl

theorem userAccess_hit (h : Inv s held) (hl : Live (owners s) (s.proc p) pt tf) {va : ℕ}
    {write : Option UInt8} (htr : Translates pt va write.isSome) (tries : ℕ) :
    ∃ s', userAccess p va write (tries + 1) s =
        .ok (some (write.getD (byteAt pt s.phys.mem va)), s') ∧
      Accessed s p va write.toList s' ∧ va / PGSIZE < UPAGES := by
  obtain ⟨k', hrun, hw, hv⟩ := memAccess_spec (h.space hl) htr (· < npages (s.proc p).sz)
  refine ⟨s.setSpace p pt (s.proc p).sz k', ?_, ⟨pt, tf, pt, k', hl, hw, rfl⟩, hv⟩
  have hsame : s.setSpace p pt (s.proc p).sz k' = { s with phys := k' } := by
    rw [State.setSpace, ← hl.pagetable, State.put, Function.update_eq_self]
  rw [userAccess, bind_of_ok (getProc_run p s), hl.pagetable]
  dsimp only
  rw [translate_of htr]
  dsimp only
  rw [bind_of_ok (vm_run hrun), hsame]
  rfl

theorem userAccess_fault (h : Inv s held) (hl : Live (owners s) (s.proc p) pt tf) {va : ℕ}
    {write : Option UInt8} (htr : ¬ Translates pt va write.isSome) (tries : ℕ) :
    (TRAPFRAME < (s.proc p).sz ∧ userAccess p va write (tries + 1) s = .error .walk) ∨
    ∃ r pt₁ k₁, Faulted (outside s p tf) (top s p) va write.isNone pt s.phys r pt₁ k₁ ∧
      Accessed s p va [] (s.setSpace p pt₁ (s.proc p).sz k₁) ∧
      userAccess p va write (tries + 1) s =
        r.elim ((kexit p (-1) >>= fun _ => pure none) (s.setSpace p pt₁ (s.proc p).sz k₁))
          (fun _ => userAccess p va write tries (s.setSpace p pt₁ (s.proc p).sz k₁)) := by
  rw [userAccess, bind_of_ok (getProc_run p s), hl.pagetable]
  dsimp only
  rw [translate_of_not htr]
  dsimp only
  rcases vmfault_min (s.proc p).sz va write.isNone s.phys hl.kernelPages with ⟨hbig, -, he⟩ | heq
  · exact Or.inl ⟨hbig, bind_of_error (onSpace_error hl.pagetable he)⟩
  obtain ⟨r, pt₁, k₁, hrun, hf⟩ := vmfault_spec va write.isNone (top_le s p) (h.space hl)
  refine Or.inr ⟨r, pt₁, k₁, hf, hl.accessed (hf.quiet.wrote va) fun v hv => ?_, ?_⟩
  · rw [hv.1]
    exact (div_lt_npages hv.2).trans_le (npages_top_le s p)
  have hon : onSpace p (fun pt sz => vmfault pt sz va write.isNone) s = _ :=
    onSpace_run hl.pagetable (heq.trans hrun)
  rw [bind_of_ok hon]
  cases r with
  | none => rfl
  | some pa => rfl

/-- Why an access may fail: it lies above the size, no memory is left (and for a
mapped page not even one page), or the program has no right to it. -/
def Refused (s s' : State) (p : ProcId) (pt : PageTable) (va : ℕ) (write : Bool) : Prop :=
  top s p ≤ va ∨
  (s'.phys.oom = true ∧ ((leaf pt (va / PGSIZE)).has PTE_V → s.phys.freelist = [])) ∨
  ((leaf pt (va / PGSIZE)).has PTE_V ∧ ¬ MayAccess pt va write)

omit [KernelImage] in
theorem Translates.mayAccess {va : ℕ} {write : Bool} (h : Translates pt va write) :
    MayAccess pt va write := by
  refine ⟨h.2.2.1, fun hw => ?_⟩
  have := h.2.2.2
  rw [hw, if_pos rfl] at this
  rw [rights, this, Bool.true_or]

theorem refused_first (hl : Live (owners s) (s.proc p) pt tf) {va : ℕ} {write : Option UInt8}
    {pt₁ : PageTable} {k₁ : Phys} (htr : ¬ Translates pt va write.isSome)
    (hf : Faulted (outside s p tf) (top s p) va write.isNone pt s.phys none pt₁ k₁) :
    Refused s (s.setSpace p pt₁ (s.proc p).sz k₁) p pt va write.isSome := by
  have hT : TRAPFRAME = 274877898752 := rfl
  have hM : MAXVA = 274877906944 := rfl
  have hsz := top_le s p
  rcases Nat.lt_or_ge va (top s p) with hlt | hge
  case inr => exact Or.inl hge
  refine Or.inr ?_
  have hok := hl.wf.entry (va / PGSIZE) ((div_lt_npages hlt).trans_le (npages_le hsz))
  cases hV : (leaf pt (va / PGSIZE)).has PTE_V with
  | false =>
    rcases hf.miss rfl with hge | hoom | ⟨hV', -⟩
    · exact absurd hge (not_le.mpr hlt)
    · exact Or.inl ⟨hoom, by simp⟩
    · rw [hV] at hV'
      cases hV'
  | true =>
    by_cases hmay : MayAccess pt va write.isSome
    · -- Only a store to a page shared by copy-on-write can fault here.
      obtain ⟨hUs, hw⟩ := hmay
      cases write with
      | none => exact absurd ⟨by omega, hV, hUs, hok.readable hV⟩ htr
      | some b =>
        have hW : (leaf pt (va / PGSIZE)).has PTE_W = false := by
          by_contra hW
          exact htr ⟨by omega, hV, hUs, by simpa using hW⟩
        have hC : (leaf pt (va / PGSIZE)).has PTE_COW = true := by
          have := hw rfl
          rwa [rights, hW, Bool.false_or] at this
        refine Or.inl ⟨?_, fun _ => hf.starved rfl hlt hV rfl hC⟩
        rcases hf.miss rfl with hge | hoom | ⟨-, hr | hr⟩
        · exact absurd hge (not_le.mpr hlt)
        · exact hoom
        · cases hr
        · rw [hC] at hr
          cases hr
    · exact Or.inr ⟨rfl, hmay⟩

/-- A load or store succeeds, or the process is killed after at most two
faults. -/
theorem userAccess_spec (h : Inv s held) (hl : Live (owners s) (s.proc p) pt tf) (va : ℕ)
    (write : Option UInt8) :
    (TRAPFRAME < (s.proc p).sz ∧ userAccess p va write 3 s = .error .walk) ∨
    ∃ s', (userAccess p va write 3 s =
          .ok (some (write.getD (byteAt pt s.phys.mem va)), s') ∧
        Accessed s p va write.toList s' ∧ va / PGSIZE < UPAGES ∧
        ((leaf pt (va / PGSIZE)).has PTE_V → MayAccess pt va write.isSome)) ∨
      (userAccess p va write 3 s = (kexit p (-1) >>= fun _ => pure none) s' ∧
        Accessed s p va [] s' ∧ Refused s s' p pt va write.isSome) := by
  have hT : TRAPFRAME = 274877898752 := rfl
  have hM : MAXVA = 274877906944 := rfl
  have hsz := top_le s p
  by_cases htr : Translates pt va write.isSome
  · obtain ⟨s', hrun, hacc, hv⟩ := userAccess_hit h hl htr 2
    exact Or.inr ⟨s', Or.inl ⟨hrun, hacc, hv, fun _ => htr.mayAccess⟩⟩
  rcases userAccess_fault h hl htr 2 with he | ⟨r, pt₁, k₁, hf, hacc, hrun⟩
  · exact Or.inl he
  cases r with
  | none => exact Or.inr ⟨_, Or.inr ⟨hrun, hacc, refused_first hl htr hf⟩⟩
  | some pa =>
    rw [Option.elim_some] at hrun
    obtain ⟨hlt, hV₁, hW₁, hC₁, -⟩ := hf.hit pa rfl
    have hv := (div_lt_npages hlt).trans_le (npages_le hsz)
    have h₁ := hacc.inv h
    have hl₁ : Live (owners (s.setSpace p pt₁ (s.proc p).sz k₁))
        ((s.setSpace p pt₁ (s.proc p).sz k₁).proc p) pt₁ tf :=
      hl.evolve hf.quiet.evolve hl.sz_lt (hl.above_wrote ((hf.quiet.wrote va).mono fun v hv => by
        rw [hv.1]
        exact (div_lt_npages hv.2).trans_le (npages_top_le s p)))
    have hok₁ := hl₁.wf.entry _ hv
    have hsz₁ : ((s.setSpace p pt₁ (s.proc p).sz k₁).proc p).sz = (s.proc p).sz := by
      rw [State.setSpace, put_proc_self]
    cases hUs : (leaf pt₁ (va / PGSIZE)).has PTE_U with
    | true =>
      have htr₁ : Translates pt₁ va write.isSome := by
        refine ⟨by omega, hV₁, hUs, ?_⟩
        split
        · exact hW₁
        · exact hok₁.readable hV₁
      obtain ⟨s', hrun', hacc', -⟩ := userAccess_hit h₁ hl₁ htr₁ 1
      refine Or.inr ⟨s', Or.inl ⟨?_, ?_, hv, fun hV => ?_⟩⟩
      · rw [hrun, hrun']
        have hbyte : byteAt pt₁ k₁.mem va = byteAt pt s.phys.mem va := hf.quiet.byteAt_eq hv
        rw [← hbyte]
        rfl
      · exact hacc.trans hacc' (by simp)
      · have hr := (hf.quiet.keeps _ hv hV).2
        obtain ⟨hU', hw'⟩ := htr₁.mayAccess
        rw [hr] at hw'
        exact ⟨(congrArg Rights.user hr).symm.trans hU', hw'⟩
    | false =>
      -- The page was copied but the program may not use it: the next fault kills.
      have htr₁ : ¬ Translates pt₁ va write.isSome := fun htr₁ => by
        rw [htr₁.2.2.1] at hUs
        cases hUs
      rcases userAccess_fault h₁ hl₁ htr₁ 1 with ⟨hbig, he⟩ | ⟨r', pt₂, k₂, hf', hacc', hrun'⟩
      · exact Or.inl ⟨hsz₁ ▸ hbig, hrun.trans he⟩
      cases r' with
      | some pa' =>
        rcases hf'.cause pa' rfl with hV' | ⟨-, hC'⟩
        · rw [hV₁] at hV'
          cases hV'
        · rw [hC₁] at hC'
          cases hC'
      | none =>
        refine Or.inr ⟨_, Or.inr ⟨hrun.trans hrun', hacc.trans hacc' (by simp),
          Or.inr (Or.inr ?_)⟩⟩
        rcases hf.quiet.adds _ hv hV₁ with hV | ⟨-, hr⟩
        · refine ⟨hV, fun hmay => ?_⟩
          have := congrArg Rights.user (hf.quiet.keeps _ hv hV).2
          rw [rights, rights, hUs, hmay.1] at this
          cases this
        · have := congrArg Rights.user hr
          rw [rights, hUs] at this
          cases this

/-! ## sbrk -/

/-- The size of user memory has changed from `sz` to `sz'`: whole pages were
discarded or may be used from now on, and they read as zeros. -/
structure Resized (pt : PageTable) (k : Phys) (sz : ℕ) (pt' : PageTable) (k' : Phys) (sz' : ℕ) :
    Prop where
  view_eq : ∀ v < UPAGES, ∀ i < PGSIZE,
    view pt' k'.mem v i = if v < npages sz' then view pt k.mem v i else 0
  keeps : ∀ v < npages sz', (leaf pt v).has PTE_V →
    (leaf pt' v).has PTE_V ∧ rights (leaf pt' v) = rights (leaf pt v)
  adds : ∀ v < UPAGES, (leaf pt' v).has PTE_V →
    (leaf pt v).has PTE_V ∨ npages sz ≤ v ∧ rights (leaf pt' v) = lazyRights
  above : ∀ v, npages sz' ≤ v → v < UPAGES → (leaf pt' v).has PTE_V = false

variable {k : Phys} {sz' : ℕ} {G : Multiset ℕ}

omit [KernelImage] in
/-- Only the size has changed, upwards. -/
theorem Resized.of_le (hle : sz ≤ sz')
    (habove : ∀ v, npages sz ≤ v → v < UPAGES → (leaf pt v).has PTE_V = false) :
    Resized pt k sz pt k sz' := by
  have hpages := npages_mono hle
  refine ⟨fun v hv i _ => ?_, fun _ _ hV => ⟨hV, rfl⟩, fun _ _ hV => Or.inl hV,
    fun v hge hv => habove v (by omega) hv⟩
  split
  · rfl
  · next hge => exact (view_of_invalid (habove v (by omega) hv) i)

theorem Resized.of_alloced
    (ha : Alloced G (npages sz) (npages sz') (PTE_R ||| PTE_U ||| PTE_W) pt k true pt' k')
    (hle : sz ≤ sz')
    (habove : ∀ v, npages sz ≤ v → v < UPAGES → (leaf pt v).has PTE_V = false) :
    Resized pt k sz pt' k' sz' := by
  have hmono : npages sz ≤ npages sz' := npages_mono hle
  have habove' (v : ℕ) (hv : npages sz' ≤ v) := ha.above hmono habove v hv
  have hmapped (v : ℕ) (hv : npages sz ≤ v) (hlt : v < npages sz') :
      rights (leaf pt' v) = lazyRights ∧ ∀ i < PGSIZE, view pt' k'.mem v i = 0 := by
    obtain ⟨-, hr, -, hzero⟩ := ha.mapped rfl v hv hlt
    exact ⟨hr.trans (by decide), hzero⟩
  have hin := (ha.bound rfl).1
  refine ⟨?_, ?_, ?_, habove'⟩
  · intro v hv i hi
    by_cases hlt : v < npages sz'
    · rw [if_pos hlt]
      rcases Nat.lt_or_ge v (npages sz) with hlow | hhigh
      · exact (ha.other v hv (Or.inl hlow)).2 i hi
      · rw [(hmapped v hhigh hlt).2 i hi, view_of_invalid (habove v hhigh hv)]
    · rw [if_neg hlt]
      exact view_of_invalid (habove' v (not_lt.mp hlt) hv) i
  · intro v hlt hV
    have hv : v < UPAGES := by omega
    rcases Nat.lt_or_ge v (npages sz) with hlow | hhigh
    · rw [(ha.other v hv (Or.inl hlow)).1]
      exact ⟨hV, rfl⟩
    · rw [habove v hhigh hv] at hV
      cases hV
  · intro v hv hV
    rcases Nat.lt_or_ge v (npages sz) with hlow | hhigh
    · left
      rwa [(ha.other v hv (Or.inl hlow)).1] at hV
    · refine Or.inr ⟨hhigh, (hmapped v hhigh ?_).1⟩
      by_contra hge
      rw [habove' v (not_lt.mp hge) hv] at hV
      cases hV

theorem Resized.of_unmapped (hu : Unmapped G (npages sz') (npages sz) pt k pt' k')
    (hsz : sz ≤ TRAPFRAME)
    (habove : ∀ v, npages sz ≤ v → v < UPAGES → (leaf pt v).has PTE_V = false) :
    Resized pt k sz pt' k' (min sz sz') := by
  have hU := UPAGES_eq
  have hle := npages_le hsz
  have hmono : Monotone npages := fun _ _ => npages_mono
  have hmin : npages (min sz sz') = min (npages sz) (npages sz') := hmono.map_min
  have hleaf (v : ℕ) (hv : v < UPAGES) (hlt : v < npages (min sz sz')) : leaf pt' v = leaf pt v := by
    rw [hu.leaf_eq v (by omega), if_neg (by omega)]
  have hgone (v : ℕ) (hv : v < UPAGES) (hge : npages (min sz sz') ≤ v) :
      (leaf pt' v).has PTE_V = false := by
    rw [hu.leaf_eq v (by omega)]
    split
    · exact has_zero _
    · next hnot =>
      by_contra hV
      have hV : (leaf pt v).has PTE_V = true := by simpa using hV
      refine hnot ⟨?_, ?_, hV⟩
      all_goals
        by_contra hc
        rw [habove v (by omega) hv] at hV
        cases hV
  refine ⟨?_, ?_, ?_, fun v hge hv => hgone v hv hge⟩
  · intro v hv i hi
    split
    · next hlt =>
      refine view_of_sameOn (hleaf v hv hlt) hu.same (fun hV => ?_) hi
      rw [← hleaf v hv hlt] at hV ⊢
      exact Multiset.mem_add.mpr (Or.inl (mem_own hv hV))
    · next hge => exact view_of_invalid (hgone v hv (not_lt.mp hge)) i
  · intro v hlt hV
    rw [hleaf v (by omega) hlt]
    exact ⟨hV, rfl⟩
  · intro v hv hV
    rcases Nat.lt_or_ge v (npages (min sz sz')) with hlt | hge
    · left
      rwa [hleaf v hv hlt] at hV
    · rw [hgone v hv hge] at hV
      cases hV

/-- The size after growing by `n` bytes; a call that would leave the 64-bit range
changes nothing. -/
def resize (sz : ℕ) (n : ℤ) : ℕ := if 0 ≤ sz + n ∧ sz + n < 2 ^ 64 then (sz + n).toNat else sz

omit [KernelImage] in
theorem resize_lt {n : ℤ} (h : sz < 2 ^ 64) : resize sz n < 2 ^ 64 := by
  unfold resize
  split <;> omega

omit [KernelImage] in
theorem addInt_eq {n : ℤ} (h : 0 ≤ sz + n) (hlt : sz + n < 2 ^ 64) :
    addInt sz n = resize sz n := by
  rw [addInt, Int.emod_eq_of_lt h hlt, resize, if_pos ⟨h, hlt⟩]

omit [KernelImage] in
/-- Adding to a size wraps around above, and so does subtracting from one. -/
theorem addInt_grow {n : ℤ} (h64 : sz < 2 ^ 64) (hn : 0 ≤ n) (hmax : n < 2 ^ 31) :
    (sz + n < 2 ^ 64 ∧ addInt sz n = resize sz n ∧ (resize sz n : ℤ) = sz + n) ∨
      (2 ^ 64 ≤ sz + n ∧ addInt sz n < sz ∧ resize sz n = sz) := by
  rcases lt_or_ge ((sz : ℤ) + n) (2 ^ 64) with hlt | hge
  · refine Or.inl ⟨hlt, addInt_eq (by omega) hlt, ?_⟩
    rw [resize, if_pos ⟨by omega, hlt⟩]
    omega
  · have hwrap : ((sz : ℤ) + n) % 2 ^ 64 = sz + n - 2 ^ 64 := by omega
    refine Or.inr ⟨hge, ?_, ?_⟩
    · rw [addInt, hwrap]
      omega
    · rw [resize, if_neg (by omega)]

omit [KernelImage] in
theorem addInt_shrink {n : ℤ} (h64 : sz < 2 ^ 64) (hn : n < 0) (hmin : -2 ^ 31 ≤ n) :
    min sz (addInt sz n) = resize sz n ∧ sz ≤ addInt sz n + 2 ^ 31 := by
  unfold resize
  by_cases h : 0 ≤ (sz : ℤ) + n
  · rw [if_pos ⟨h, by omega⟩, addInt_eq h (by omega), resize, if_pos ⟨h, by omega⟩]
    omega
  · have hwrap : ((sz : ℤ) + n) % 2 ^ 64 = sz + n + 2 ^ 64 := by omega
    rw [if_neg (by omega), addInt, hwrap]
    omega

/-- What a successful call of sbrk by `p` has done. -/
structure Sbrked (s : State) (p : ProcId) (pt : PageTable) (tf : ℕ) (n : ℤ) (pt' : PageTable)
    (k' : Phys) : Prop where
  evolve : Evolve (outside s p tf) pt s.phys pt' k'
  resized : Resized pt s.phys (s.proc p).sz pt' k' (resize (s.proc p).sz n)

/-- What a call of sbrk by `p` that failed has done: memory ran out, or the new size
would not fit in 64 bits. -/
structure SbrkFailed (s : State) (p : ProcId) (pt : PageTable) (tf : ℕ) (n : ℤ) (pt' : PageTable)
    (k' : Phys) : Prop where
  evolve : Evolve (outside s p tf) pt s.phys pt' k'
  keeps : ∀ v < UPAGES, (leaf pt v).has PTE_V → leaf pt' v = leaf pt v
  adds : ∀ v < UPAGES, (leaf pt' v).has PTE_V → (leaf pt v).has PTE_V
  view_eq : ∀ v < UPAGES, ∀ i < PGSIZE, view pt' k'.mem v i = view pt s.phys.mem v i
  why : k'.oom = true ∨ 2 ^ 64 ≤ (s.proc p).sz + n

/-- What a call of sbrk has done that shrinks the memory of `p` from a size above
`TRAPFRAME` to one below: it has freed the trapframe page. -/
def SbrkCut (s : State) (p : ProcId) (pt : PageTable) (tf : ℕ) (n : ℤ) (pt' : PageTable)
    (k' : Phys) : Prop :=
  TRAPFRAME < (s.proc p).sz ∧ resize (s.proc p).sz n ≤ TRAPFRAME ∧ ∃ pt₁ k₁,
    Unmapped (outside s p tf) (npages (resize (s.proc p).sz n)) UPAGES pt s.phys pt₁ k₁ ∧
    TrapframeFreed (others s p) pt₁ k₁ pt' k'

/-- The four ways in which sbrk ends. -/
inductive SbrkEnd (s : State) (p : ProcId) (pt : PageTable) (tf : ℕ) (n : ℤ) :
    Except Panic (Bool × State) → Prop
  | panics (e : Panic) (hbig : TRAPFRAME < max (s.proc p).sz (resize (s.proc p).sz n)) :
    SbrkEnd s p pt tf n (.error e)
  | failed (pt' : PageTable) (k' : Phys) (h : SbrkFailed s p pt tf n pt' k') :
    SbrkEnd s p pt tf n (.ok (false, s.setSpace p pt' (s.proc p).sz k'))
  | done (pt' : PageTable) (k' : Phys) (h : Sbrked s p pt tf n pt' k') :
    SbrkEnd s p pt tf n (.ok (true, s.setSpace p pt' (resize (s.proc p).sz n) k'))
  | cut (pt' : PageTable) (k' : Phys) (h : SbrkCut s p pt tf n pt' k') :
    SbrkEnd s p pt tf n (.ok (true, s.setSpace p pt' (resize (s.proc p).sz n) k'))

theorem sbrked_refl (h : Inv s held) (hl : Live (owners s) (s.proc p) pt tf) {n : ℤ}
    (hle : (s.proc p).sz ≤ resize (s.proc p).sz n) : Sbrked s p pt tf n pt s.phys :=
  ⟨Evolve.refl (h.space hl), Resized.of_le hle hl.above⟩

theorem uvmalloc_sbrk (h : Inv s held) (hl : Live (owners s) (s.proc p) pt tf) {n : ℤ} (hn : 0 < n)
    (hmax : n < 2 ^ 31) :
    ((∃ e, uvmalloc pt (s.proc p).sz (addInt (s.proc p).sz n) PTE_W s.phys = .error e) ∧
        TRAPFRAME < resize (s.proc p).sz n) ∨
      ∃ (ok : Bool) (pt' : PageTable) (k' : Phys), uvmalloc pt (s.proc p).sz (addInt (s.proc p).sz n) PTE_W s.phys =
          .ok ((if ok then resize (s.proc p).sz n else 0, pt'), k') ∧
        if ok then Sbrked s p pt tf n pt' k' else SbrkFailed s p pt tf n pt' k' := by
  have hp : PermOk (PTE_R ||| PTE_U ||| PTE_W) :=
    permOk_user (flagsOnly_one_shift (by omega)) (by decide)
  rcases addInt_grow hl.sz_lt hn.le hmax with ⟨hlt, hadd, hval⟩ | ⟨-, hlt, hres⟩
  · have hle : (s.proc p).sz ≤ resize (s.proc p).sz n := by omega
    rw [hadd]
    rcases Nat.lt_or_ge TRAPFRAME (resize (s.proc p).sz n) with hbig | hfit
    · rcases uvmalloc_big hp hle hbig (resize_lt hl.sz_lt) (h.space hl) hl.kernelPages hl.above with
        he | ⟨-, hrun⟩ | ⟨pt', k', hrun, hg⟩
      · exact Or.inl ⟨he, hbig⟩
      · exact Or.inr ⟨true, pt, s.phys, hrun, sbrked_refl h hl hle⟩
      · exact Or.inr ⟨false, pt', k', hrun, hg.evolve, hg.keeps, hg.adds, hg.view_eq, Or.inl hg.oom⟩
    · obtain ⟨ok, pt', k', hrun, ha⟩ := uvmalloc_spec (resize (s.proc p).sz n) hp (hle.trans hfit)
        (Or.inl hfit) (h.space hl) hl.above
      rw [max_eq_right hle] at hrun ha
      refine Or.inr ⟨ok, pt', k', hrun, ?_⟩
      cases ok with
      | true => exact ⟨ha.evolve, Resized.of_alloced ha hle hl.above⟩
      | false =>
        have hg := ha.gaveUp fun w hw hlo _ => hl.above w hlo hw
        exact ⟨hg.evolve, hg.keeps, hg.adds, hg.view_eq, Or.inl hg.oom⟩
  · refine Or.inr ⟨true, pt, s.phys, ?_, sbrked_refl h hl hres.ge⟩
    rw [uvmalloc, if_pos hlt, if_pos rfl, hres]
    rfl

theorem uvmdealloc_sbrk (h : Inv s held) (hl : Live (owners s) (s.proc p) pt tf) {n : ℤ}
    (hn : n < 0) (hmin : -2 ^ 31 ≤ n) :
    ((∃ e, uvmdealloc pt (s.proc p).sz (addInt (s.proc p).sz n) s.phys = .error e) ∧
        TRAPFRAME < (s.proc p).sz) ∨
      ∃ pt' k', uvmdealloc pt (s.proc p).sz (addInt (s.proc p).sz n) s.phys =
          .ok ((resize (s.proc p).sz n, pt'), k') ∧
        (Sbrked s p pt tf n pt' k' ∨ SbrkCut s p pt tf n pt' k') := by
  have hU := UPAGES_eq
  obtain ⟨hres, hnear⟩ := addInt_shrink hl.sz_lt hn hmin
  rcases Nat.lt_or_ge TRAPFRAME (s.proc p).sz with hbig | hfit
  · have hpages : UPAGES ≤ npages (s.proc p).sz := by
      have hT : TRAPFRAME = 274877898752 := rfl
      simp only [npages, PGSIZE]
      omega
    rcases uvmdealloc_big hbig hl.sz_lt hnear hl.kernelPages (h.pte2pa_tf hl) (h.space hl) with
      he | ⟨hrun, hstill⟩ | ⟨pt₁, k₁, pt', k', hle, hu, hf, hrun⟩
    · exact Or.inl ⟨he, hbig⟩
    · rw [hres] at hrun hstill
      refine Or.inr ⟨pt, s.phys, hrun, Or.inl ⟨Evolve.refl (h.space hl), ?_⟩⟩
      have hbelow (v : ℕ) (hv : v < UPAGES) : v < npages (resize (s.proc p).sz n) := by
        have hT : TRAPFRAME = 274877898752 := rfl
        simp only [npages, PGSIZE]
        omega
      refine ⟨fun v hv i _ => by rw [if_pos (hbelow v hv)], fun _ _ hV => ⟨hV, rfl⟩,
        fun _ _ hV => Or.inl hV, fun v hge hv => absurd (hbelow v hv) (by omega)⟩
    · rw [min_eq_right (by omega)] at hres
      rw [hres] at hu hle
      refine Or.inr ⟨pt', k', ?_, Or.inr ⟨hbig, hle, pt₁, k₁, hu, hf⟩⟩
      rw [hrun, hres]
  · obtain ⟨pt', k', hrun, hu⟩ := uvmdealloc_spec (addInt (s.proc p).sz n) hfit (h.space hl)
    have hres' := Resized.of_unmapped hu hfit hl.above
    rw [hres] at hrun hres'
    exact Or.inr ⟨pt', k', hrun, Or.inl ⟨hu.evolve (npages_le hfit), hres'⟩⟩

theorem growproc_spec (h : Inv s held) (hl : Live (owners s) (s.proc p) pt tf) {n : ℤ}
    (hmin : -2 ^ 31 ≤ n) (hmax : n < 2 ^ 31) : SbrkEnd s p pt tf n (growproc p n s) := by
  rw [growproc, bind_of_ok (getProc_run p s), hl.pagetable]
  dsimp only
  rcases lt_trichotomy n 0 with hn | rfl | hn
  · rw [if_neg (by omega), if_pos hn]
    rcases uvmdealloc_sbrk h hl hn hmin with ⟨⟨e, he⟩, hbig⟩ | ⟨pt', k', hrun, hend⟩
    · rw [bind_of_error (vm_error he)]
      exact .panics e (lt_max_of_lt_left hbig)
    · rw [bind_of_ok (vm_run hrun)]
      rcases hend with hs | hs
      · exact .done pt' k' hs
      · exact .cut pt' k' hs
  · have hres : resize (s.proc p).sz 0 = (s.proc p).sz := by simp [resize]
    have hsame : s.setSpace p pt (resize (s.proc p).sz 0) s.phys = s := by
      rw [hres, State.setSpace, ← hl.pagetable, put_self]
    rw [if_neg (by omega), if_neg (by omega)]
    have hend := SbrkEnd.done pt s.phys (sbrked_refl h hl hres.ge)
    rw [hsame] at hend
    exact hend
  · rw [if_pos hn]
    rcases uvmalloc_sbrk h hl hn hmax with ⟨⟨e, he⟩, hbig⟩ | ⟨ok, pt', k', hrun, hend⟩
    · rw [bind_of_error (vm_error he)]
      exact .panics e (lt_max_of_lt_right hbig)
    · rw [bind_of_ok (vm_run hrun)]
      cases ok with
      | false => exact .failed pt' k' hend
      | true =>
        have hne : resize (s.proc p).sz n ≠ 0 := by
          unfold resize
          split <;> omega
        simp only [if_true] at hend ⊢
        rw [if_neg hne, bind_of_ok (setProc_run p _ _), bind_of_ok (setProc_run p _ _),
          put_proc_self, put_phys, put_put]
        exact .done pt' k' hend

theorem sysSbrk_spec (h : Inv s held) (hl : Live (owners s) (s.proc p) pt tf) {n : ℤ}
    (hmin : -2 ^ 31 ≤ n) (hmax : n < 2 ^ 31) (eager : Bool) :
    ∃ r, SbrkEnd s p pt tf n r ∧ sysSbrk p n eager s =
      r.map fun (ok, s') => (if ok then ((s.proc p).sz : ℤ) else -1, s') := by
  rw [sysSbrk, bind_of_ok (getProc_run p s)]
  split
  · refine ⟨_, growproc_spec h hl hmin hmax, ?_⟩
    cases hrun : growproc p n s with
    | error e =>
      rw [bind_of_error hrun]
      rfl
    | ok r =>
      obtain ⟨ok, s'⟩ := r
      rw [bind_of_ok hrun]
      cases ok <;> rfl
  · next hmode =>
    have hn : 0 ≤ n := by
      by_contra hneg
      exact hmode (Or.inr (not_le.mp hneg))
    rcases addInt_grow hl.sz_lt hn hmax with ⟨hlt, hadd, hval⟩ | ⟨hover, hlt, -⟩
    · refine ⟨_, .done pt s.phys (sbrked_refl h hl (by omega)), ?_⟩
      have hset : setProc p (fun pr => { pr with sz := addInt pr.sz n }) s =
          .ok ((), s.setSpace p pt (resize (s.proc p).sz n) s.phys) := by
        rw [State.setSpace, ← hl.pagetable, ← hadd]
        rfl
      rw [if_neg (by omega), bind_of_ok hset]
      rfl
    · refine ⟨_, .failed pt s.phys ⟨Evolve.refl (h.space hl), fun _ _ _ => rfl, fun _ _ hV => hV,
        fun _ _ _ _ => rfl, Or.inr hover⟩, ?_⟩
      have hsame : s.setSpace p pt (s.proc p).sz s.phys = s := by
        rw [State.setSpace, ← hl.pagetable, put_self]
      rw [if_pos hlt, hsame]
      rfl

/-! ## What is left after sbrk -/

theorem Sbrked.inv {n : ℤ} {k' : Phys} (hs : Sbrked s p pt tf n pt' k') (h : Inv s held)
    (hl : Live (owners s) (s.proc p) pt tf) :
    Inv (s.setSpace p pt' (resize (s.proc p).sz n) k') held :=
  h.evolve hl hs.evolve (resize_lt hl.sz_lt) hs.resized.above

theorem SbrkFailed.inv {n : ℤ} {k' : Phys} (hs : SbrkFailed s p pt tf n pt' k') (h : Inv s held)
    (hl : Live (owners s) (s.proc p) pt tf) : Inv (s.setSpace p pt' (s.proc p).sz k') held := by
  refine h.evolve hl hs.evolve hl.sz_lt fun v hge hv => ?_
  by_contra hV
  have hV' := hs.adds v hv (by simpa using hV)
  rw [hl.above v hge hv] at hV'
  cases hV'

/-- The process that has freed its trapframe page is stuck; the rest of the kernel is as it
was. -/
theorem SbrkCut.inv {n : ℤ} {k' : Phys} (hs : SbrkCut s p pt tf n pt' k') (h : Inv s held)
    (hl : Live (owners s) (s.proc p) pt tf) (hstate : (s.proc p).state ∉ [.unused, .used, .zombie]) :
    Inv (s.setSpace p pt' (resize (s.proc p).sz n) k') held := by
  have hU := UPAGES_eq
  obtain ⟨-, hfit, pt₁, k₁, hu, hf⟩ := hs
  have hgone : (leaf pt' UPAGES).has PTE_V = false := by
    rw [hf.leaf_eq _ (by omega), if_pos rfl]
    exact has_zero _
  have habove (v : ℕ) (hge : npages (resize (s.proc p).sz n) ≤ v) (hv : v < UPAGES) :
      (leaf pt' v).has PTE_V = false := by
    rw [hf.leaf_eq v (by omega), if_neg hv.ne, hu.leaf_eq v (by omega)]
    split
    · exact has_zero _
    · next hnot => exact by simpa [hge, hv] using hnot
  have htr : leaf pt' (UPAGES + 1) = mapPte trampoline (PTE_R ||| PTE_X) := by
    rw [hf.leaf_eq _ (by omega), if_neg (by omega), hu.leaf_eq _ (by omega), if_neg (by omega)]
    exact hl.trampolineLeaf
  have hstuck : Stuck (own pt' + others s p)
      { s.proc p with pagetable := some pt', sz := resize (s.proc p).sz n } pt' :=
    ⟨hstate, rfl, hf.space.wf, habove, hgone, hfit, htr⟩
  refine h.put ?_ ?_ ?_ rfl (h.zombie p)
  · rw [hstuck.procRefs_eq]
    exact hf.space.acct
  · rw [hstuck.procRefs_eq]
    exact Or.inr (Or.inr ⟨pt', hstuck⟩)
  · intro a ha hone
    rw [hstuck.procRefs_eq]
    rw [hl.owners_eq] at hone
    have hle : own pt' + others s p ≤ own pt + outside s p tf := by
      rw [hf.own_eq]
      exact add_le_add hu.own_le (others_le_outside s p tf)
    have hpos : 0 < (own pt' + others s p).count a :=
      Multiset.count_pos.mpr (Multiset.mem_add.mpr (Or.inr ha))
    have := Multiset.count_le_of_le a hle
    omega

end

end Xv6.Kernel
