import Xv6.Kernel.BootSpec
import Xv6.Library.Run
import Xv6.Library.Sums

/-! # The page allocator on several processors

`kfree` gives `kmem.lock` up between the section that drops the count and the one
that puts the page on the free list.  Every critical section of kalloc.c is a step
here; a processor uses the pages it holds a counted reference to, and may hand a
reference to another one.
-/
namespace Xv6.Kernel.Smp
open Library Library.Exec Library.RefCount Vm

/-! ## The two sections of kfree -/

section
variable [KernelImage]

/-- Drop a count: true if it was the last one. -/
def kfreeDec (pa : ℕ) : VmM Bool := fun k =>
  if pa % PGSIZE ≠ 0 ∨ pa < kend ∨ PHYSTOP ≤ pa then .error .kfree
  else
    let k := k.addRef pa (-1)
    .ok (k.refcnt (pa / PGSIZE) = 0, k)

/-- Fill the page with junk and put it on the free list. -/
def kfreePush (pa : ℕ) : VmM Unit := fun k =>
  .ok ((), { k with freelist := pa :: k.freelist, mem := memset pa 1 PGSIZE k.mem })

/-- Run without interruption the two sections are `kfree`. -/
theorem kfree_eq (pa : ℕ) :
    kfree pa = kfreeDec pa >>= fun last => if last = true then kfreePush pa else pure () := by
  funext k
  by_cases hbad : pa % PGSIZE ≠ 0 ∨ pa < kend ∨ PHYSTOP ≤ pa
  · have hdec : kfreeDec pa k = .error .kfree := if_pos hbad
    rw [bind_of_error hdec, kfree, if_pos hbad]
  · have hdec : kfreeDec pa k =
        .ok (decide ((k.addRef pa (-1)).refcnt (pa / PGSIZE) = 0), k.addRef pa (-1)) := if_neg hbad
    rw [bind_of_ok hdec, kfree, if_neg hbad]
    by_cases hlast : (k.addRef pa (-1)).refcnt (pa / PGSIZE) = 0
    · rw [decide_eq_true hlast, if_pos rfl]
      exact if_pos hlast
    · rw [decide_eq_false hlast, if_neg Bool.false_ne_true]
      exact if_neg hlast

end

/-! ## Processors -/

/-- `freeing c` is the page of a `kfree` on processor `c` that is between its two
sections, `held c` the references that code on `c` has.  The counters record for
each page how often it was allocated, how often a `kfree` took its count to 0 and
how often it was put on the free list. -/
structure State (n : ℕ) where
  phys : Phys
  freeing : Fin n → Option ℕ
  held : Fin n → Multiset ℕ
  allocs : ℕ → ℕ
  zeroed : ℕ → ℕ
  pushes : ℕ → ℕ

inductive Event (n : ℕ)
  | kalloc (c : Fin n)
  | kfree (c : Fin n) (pa : ℕ)
  | push (c : Fin n)
  | incRefcnt (c : Fin n) (pa : ℕ)
  | give (c d : Fin n) (pa : ℕ)

inductive Stop
  | panic (e : Panic)
  | blocked

variable {n : ℕ}

/-- Count one more event for page `pa`. -/
def bump (f : ℕ → ℕ) (pa : ℕ) : ℕ → ℕ := Function.update f pa (f pa + 1)

/-- The state with a reference to `pa` in the hands of `c`. -/
def State.hold (s : State n) (c : Fin n) (pa : ℕ) : State n :=
  { s with held := Function.update s.held c (pa ::ₘ s.held c) }

/-- The state without a reference of `c` to `pa`. -/
def State.drop (s : State n) (c : Fin n) (pa : ℕ) : State n :=
  { s with held := Function.update s.held c ((s.held c).erase pa) }

/-- One critical section; the result is what `kalloc` returns. -/
def next [KernelImage] (e : Event n) (s : State n) : Except Stop (Option ℕ × State n) :=
  match e with
  | .kalloc c =>
    if s.freeing c ≠ none then .error .blocked
    else
      match kalloc s.phys with
      | .error e => .error (.panic e)
      | .ok (none, k) => .ok (none, { s with phys := k })
      | .ok (some pa, k) =>
        .ok (some pa, { s.hold c pa with phys := k, allocs := bump s.allocs pa })
  | .kfree c pa =>
    if s.freeing c ≠ none ∨ pa ∉ s.held c then .error .blocked
    else
      match kfreeDec pa s.phys with
      | .error e => .error (.panic e)
      | .ok (false, k) => .ok (none, { s.drop c pa with phys := k })
      | .ok (true, k) =>
        .ok (none, { s.drop c pa with
          phys := k
          freeing := Function.update s.freeing c (some pa)
          zeroed := bump s.zeroed pa })
  | .push c =>
    match s.freeing c with
    | none => .error .blocked
    | some pa =>
      match kfreePush pa s.phys with
      | .error e => .error (.panic e)
      | .ok ((), k) =>
        .ok (none, { s with
          phys := k
          freeing := Function.update s.freeing c none
          pushes := bump s.pushes pa })
  | .incRefcnt c pa =>
    if s.freeing c ≠ none ∨ pa ∉ s.held c then .error .blocked
    else
      match incRefcnt pa s.phys with
      | .error e => .error (.panic e)
      | .ok ((), k) => .ok (none, { s.hold c pa with phys := k })
  | .give c d pa =>
    if s.freeing c ≠ none ∨ pa ∉ s.held c then .error .blocked
    else .ok (none, (s.drop c pa).hold d pa)

/-- The state that `kinit` leaves. -/
def Initial [KernelImage] (s : State n) : Prop :=
  ∃ k : Phys, k.freelist = [] ∧ kinit k = .ok ((), s.phys) ∧ s.freeing = (fun _ => none) ∧
    s.held = (fun _ => 0) ∧ s.allocs = (fun _ => 0) ∧ s.zeroed = (fun _ => 0) ∧
    s.pushes = fun _ => 0

/-! ## The invariant -/

def refs (s : State n) : Multiset ℕ := ∑ c, s.held c

/-- The pages of the `kfree` calls between their two sections. -/
def transit (s : State n) : Multiset ℕ := ∑ c, (s.freeing c).elim 0 ({·})

theorem refs_hold (s : State n) (c : Fin n) (pa : ℕ) : refs (s.hold c pa) = pa ::ₘ refs s := by
  have h := sum_comp_update_add id s.held c (pa ::ₘ s.held c)
  simp only [id_eq, Multiset.cons_add] at h
  refine add_right_cancel (b := s.held c) (h.trans ?_)
  rw [Multiset.cons_add, add_comm]
  rfl

theorem refs_drop {s : State n} {c : Fin n} {pa : ℕ} (hpa : pa ∈ s.held c) :
    pa ::ₘ refs (s.drop c pa) = refs s := by
  have h := sum_comp_update_add id s.held c ((s.held c).erase pa)
  simp only [id_eq] at h
  refine add_right_cancel (b := s.held c) ?_
  calc pa ::ₘ refs (s.drop c pa) + s.held c
      = pa ::ₘ ((s.held c).erase pa + ∑ d, s.held d) := by
        rw [Multiset.cons_add]
        exact congrArg (pa ::ₘ ·) h
    _ = refs s + s.held c := by
        rw [← Multiset.cons_add, Multiset.cons_erase hpa, add_comm]
        rfl

theorem mem_refs {s : State n} {c : Fin n} {pa : ℕ} (hpa : pa ∈ s.held c) : pa ∈ refs s := by
  rw [← refs_drop hpa]
  exact Multiset.mem_cons_self _ _

theorem transit_update {f : Fin n → Option ℕ} (c : Fin n) (o : Option ℕ) :
    (∑ d, (Function.update f c o d).elim (0 : Multiset ℕ) ({·})) + (f c).elim 0 ({·}) =
      o.elim 0 ({·}) + ∑ d, (f d).elim (0 : Multiset ℕ) ({·}) :=
  sum_comp_update_add (fun o : Option ℕ => o.elim (0 : Multiset ℕ) ({·})) f c o

/-- Pages on the free list or in transit are those that nothing refers to. -/
structure Inv [KernelImage] (s : State n) : Prop where
  exact : ∃ l : List ℕ, (l : Multiset ℕ) = transit s ∧
    Exact PageAddr (s.phys.freelist ++ l) (fun pa => s.phys.refcnt (pa / PGSIZE)) (refs s)
  allocs : ∀ pa, s.allocs pa = s.zeroed pa + if pa ∈ refs s then 1 else 0
  zeroed : ∀ pa, s.zeroed pa = s.pushes pa + (transit s).count pa

section
variable {s s' : State n} {c d : Fin n} {pa : ℕ} {k : Phys}

theorem bump_apply (f : ℕ → ℕ) (pa q : ℕ) : bump f pa q = f q + if q = pa then 1 else 0 := by
  by_cases h : q = pa <;> simp [bump, h]

theorem mem_transit_iff : pa ∈ transit s ↔ ∃ c, s.freeing c = some pa := by
  rw [transit, Multiset.mem_sum]
  constructor
  · rintro ⟨c, -, hc⟩
    cases hf : s.freeing c with
    | none => simp [hf] at hc
    | some q =>
      rw [hf] at hc
      exact ⟨c, hf.trans (congrArg some (Multiset.mem_singleton.1 hc).symm)⟩
  · rintro ⟨c, hc⟩
    exact ⟨c, Finset.mem_univ c, by simp [hc]⟩

variable [KernelImage]

theorem Inv.initial (h : Initial s) : Inv s := by
  obtain ⟨k, hfree, hinit, hfreeing, hheld, hallocs, hzeroed, hpushes⟩ := h
  obtain ⟨k', hrun, hacct, -⟩ := kinit_spec hfree
  have hk : s.phys = k' := congrArg Prod.snd (Except.ok.inj (hinit.symm.trans hrun))
  have hrefs : refs s = 0 := by simp [refs, hheld]
  have htransit : transit s = 0 := by simp [transit, hfreeing]
  refine ⟨⟨[], htransit.symm, ?_⟩, ?_, ?_⟩
  · rw [List.append_nil, hrefs, hk]
    exact hacct
  · simp [hallocs, hzeroed, hrefs]
  · simp [hzeroed, hpushes, htransit]

theorem Inv.kalloc (h : Inv s) {s₁ : State n} (hrun : Vm.kalloc s.phys = .ok (some pa, k))
    (hs : s₁ = { s.hold c pa with phys := k, allocs := bump s.allocs pa }) :
    Inv s₁ ∧ pa ∉ refs s ∧ pa ∉ transit s := by
  obtain ⟨l, hl, hex⟩ := h.exact
  cases hf : s.phys.freelist with
  | nil =>
    rw [Vm.kalloc, hf] at hrun
    cases hrun
  | cons r rest =>
    rw [Vm.kalloc, hf] at hrun
    cases hrun
    rw [hf, List.cons_append] at hex
    have hr := ((hex.mem_free pa).1 List.mem_cons_self)
    have hnot : pa ∉ transit s := by
      rw [← hl, Multiset.mem_coe]
      exact fun hmem => (List.nodup_cons.1 hex.nodup).1 (List.mem_append_right _ hmem)
    have hrefs : refs s₁ = pa ::ₘ refs s := by rw [hs]; exact refs_hold s c pa
    have htransit : transit s₁ = transit s := by rw [hs]; rfl
    refine ⟨⟨⟨l, hl.trans htransit.symm, ?_⟩, fun q => ?_, fun q => ?_⟩, hr.2, hnot⟩
    · rw [hrefs, hs]
      exact hex.alloc (addRef_self _ pa 1) fun q hq hne => addRef_of_ne _ 1 hr.1 hq hne
    · have hq := h.allocs q
      have hzeroed : s₁.zeroed = s.zeroed := by rw [hs]; rfl
      have hallocs : s₁.allocs = bump s.allocs pa := by rw [hs]
      rw [hrefs, hzeroed, hallocs, bump_apply, hq]
      by_cases hqp : q = pa
      · subst hqp
        simp [hr.2]
      · simp [hqp]
    · have hq := h.zeroed q
      rw [htransit, hs]
      exact hq

theorem Inv.dec (h : Inv s) (hpa : pa ∈ s.held c) (hfreeing : s.freeing c = none) :
    ∃ last k, kfreeDec pa s.phys = .ok (last, k) ∧
      (last = true ↔ k.refcnt (pa / PGSIZE) = 0) ∧
      (last = false → Inv { s.drop c pa with phys := k }) ∧
      (last = true → Inv { s.drop c pa with
        phys := k
        freeing := Function.update s.freeing c (some pa)
        zeroed := bump s.zeroed pa }) := by
  obtain ⟨l, hl, hex⟩ := h.exact
  have hvalid := hex.valid_of_mem pa (mem_refs hpa)
  have hguard : ¬ (pa % PGSIZE ≠ 0 ∨ pa < kend ∨ PHYSTOP ≤ pa) := by
    obtain ⟨h1, h2, h3⟩ := hvalid
    omega
  have hself : (s.phys.addRef pa (-1)).refcnt (pa / PGSIZE) = s.phys.refcnt (pa / PGSIZE) - 1 := by
    rw [addRef_self]
    ring
  have hother (b : ℕ) (hb : PageAddr b) (hne : b ≠ pa) :
      (s.phys.addRef pa (-1)).refcnt (b / PGSIZE) = s.phys.refcnt (b / PGSIZE) :=
    addRef_of_ne s.phys (-1) hvalid hb hne
  rw [← refs_drop hpa] at hex
  refine ⟨_, s.phys.addRef pa (-1), if_neg hguard, decide_eq_true_iff, fun hlast => ?_,
    fun hlast => ?_⟩
  · have hex' := hex.release hself hother (of_decide_eq_false hlast)
    have hmem : pa ∈ refs (s.drop c pa) := by
      by_contra hnot
      have hcount := hex'.count_eq pa hvalid
      rw [Multiset.count_eq_zero.2 hnot] at hcount
      exact of_decide_eq_false hlast hcount
    refine ⟨⟨l, hl, hex'⟩, fun q => ?_, h.zeroed⟩
    have hq := h.allocs q
    rw [← refs_drop hpa] at hq
    change s.allocs q = s.zeroed q + if q ∈ refs (s.drop c pa) then 1 else 0
    rw [hq]
    by_cases hqp : q = pa
    · subst hqp
      simp [hmem]
    · simp [hqp]
  · have hex' := hex.release_last hself hother (of_decide_eq_true hlast)
    have hnot : pa ∉ refs (s.drop c pa) := hex'.not_mem_of_free List.mem_cons_self
    have htransit : (∑ d, (Function.update s.freeing c (some pa) d).elim (0 : Multiset ℕ) ({·})) =
        pa ::ₘ transit s := by
      have hsum := transit_update (f := s.freeing) c (some pa)
      rw [hfreeing] at hsum
      simpa [transit, Multiset.singleton_add] using hsum
    refine ⟨⟨pa :: l, ?_, ?_⟩, fun q => ?_, fun q => ?_⟩
    · exact (congrArg (pa ::ₘ ·) hl).trans htransit.symm
    · exact hex'.perm List.perm_middle.symm
    · have hq := h.allocs q
      rw [← refs_drop hpa] at hq
      change s.allocs q = bump s.zeroed pa q + if q ∈ refs (s.drop c pa) then 1 else 0
      rw [hq, bump_apply]
      by_cases hqp : q = pa
      · subst hqp
        simp [hnot]
      · simp [hqp]
    · change bump s.zeroed pa q = s.pushes q +
        (∑ d, (Function.update s.freeing c (some pa) d).elim (0 : Multiset ℕ) ({·})).count q
      rw [htransit, bump_apply, h.zeroed q, Multiset.count_cons]
      omega

theorem Inv.push (h : Inv s) (hfreeing : s.freeing c = some pa)
    (hrun : kfreePush pa s.phys = .ok ((), k)) :
    Inv { s with
      phys := k
      freeing := Function.update s.freeing c none
      pushes := bump s.pushes pa } := by
  cases hrun
  obtain ⟨l, hl, hex⟩ := h.exact
  have htransit : pa ::ₘ (∑ d, (Function.update s.freeing c none d).elim (0 : Multiset ℕ) ({·})) =
      transit s := by
    have hsum := transit_update (f := s.freeing) c none
    rw [hfreeing] at hsum
    rw [← Multiset.singleton_add, add_comm]
    simpa [transit] using hsum
  have hmem : pa ∈ l := by
    rw [← Multiset.mem_coe, hl, ← htransit]
    exact Multiset.mem_cons_self _ _
  have hperm : l.Perm (pa :: l.erase pa) := List.perm_cons_erase hmem
  refine ⟨⟨l.erase pa, ?_, ?_⟩, h.allocs, fun q => ?_⟩
  · refine (Multiset.cons_inj_right pa).1 (Eq.trans ?_ (hl.trans htransit.symm))
    exact (Multiset.coe_eq_coe.2 hperm).symm
  · refine hex.perm ?_
    exact (hperm.append_left _).trans List.perm_middle
  · change s.zeroed q = bump s.pushes pa q +
      (∑ d, (Function.update s.freeing c none d).elim (0 : Multiset ℕ) ({·})).count q
    rw [h.zeroed q, ← htransit, bump_apply, Multiset.count_cons]
    omega

theorem Inv.incRefcnt (h : Inv s) (hpa : pa ∈ s.held c)
    (hrun : Vm.incRefcnt pa s.phys = .ok ((), k)) :
    Inv { s.hold c pa with phys := k } := by
  cases hrun
  obtain ⟨l, hl, hex⟩ := h.exact
  have hmem := mem_refs hpa
  have hvalid := hex.valid_of_mem pa hmem
  refine ⟨⟨l, hl, ?_⟩, fun q => ?_, h.zeroed⟩
  · change Exact PageAddr _ _ (refs (s.hold c pa))
    rw [refs_hold]
    exact hex.retain hmem (addRef_self _ pa 1) fun b hb hne => addRef_of_ne _ 1 hvalid hb hne
  · change s.allocs q = s.zeroed q + if q ∈ refs (s.hold c pa) then 1 else 0
    rw [refs_hold, h.allocs q]
    by_cases hqp : q = pa
    · subst hqp
      simp [hmem]
    · simp [hqp]

theorem Inv.give (h : Inv s) (hpa : pa ∈ s.held c) : Inv ((s.drop c pa).hold d pa) := by
  have hrefs : refs ((s.drop c pa).hold d pa) = refs s := by rw [refs_hold, refs_drop hpa]
  obtain ⟨l, hl, hex⟩ := h.exact
  refine ⟨⟨l, hl, ?_⟩, fun q => ?_, h.zeroed⟩
  · rw [hrefs]
    exact hex
  · rw [hrefs]
    exact h.allocs q

theorem Inv.next (h : Inv s) {e : Event n} {r : Option ℕ} (hnext : Smp.next e s = .ok (r, s')) :
    Inv s' := by
  cases e with
  | kalloc c =>
    simp only [Smp.next] at hnext
    split at hnext
    · cases hnext
    · split at hnext
      · cases hnext
      · next k hrun =>
        cases hnext
        have hk : k = { s.phys with oom := true } := by
          rw [Vm.kalloc] at hrun
          split at hrun <;> cases hrun
          rfl
        subst hk
        exact ⟨h.exact, h.allocs, h.zeroed⟩
      · next pa k hrun =>
        cases hnext
        exact (h.kalloc hrun rfl).1
  | kfree c pa =>
    simp only [Smp.next] at hnext
    split at hnext
    · cases hnext
    · next hok =>
      push Not at hok
      obtain ⟨last, k, hrun, -, hmore, hlast⟩ := h.dec hok.2 hok.1
      rw [hrun] at hnext
      cases last with
      | false =>
        cases hnext
        exact hmore rfl
      | true =>
        cases hnext
        exact hlast rfl
  | push c =>
    simp only [Smp.next] at hnext
    split at hnext
    · cases hnext
    · next pa hfreeing =>
      cases hnext
      exact h.push hfreeing rfl
  | incRefcnt c pa =>
    simp only [Smp.next] at hnext
    split at hnext
    · cases hnext
    · next hok =>
      push Not at hok
      cases hnext
      exact h.incRefcnt hok.2 rfl
  | give c d pa =>
    simp only [Smp.next] at hnext
    split at hnext
    · cases hnext
    · next hok =>
      push Not at hok
      cases hnext
      exact h.give hok.2

theorem Inv.reach (h : Reach Smp.next (fun _ _ => True) Initial s) : Inv s :=
  h.invariant (fun _ => Inv.initial) fun _ _ _ _ hs _ hnext => hs.next hnext

/-- A page in transit is in one `kfree` only. -/
theorem Inv.freeing_unique (h : Inv s) (hc : s.freeing c = some pa) (hd : s.freeing d = some pa) :
    c = d := by
  by_contra hne
  obtain ⟨l, hl, hex⟩ := h.exact
  have hcount : (transit s).count pa ≤ 1 := by
    rw [← hl, Multiset.coe_count]
    exact List.nodup_iff_count_le_one.1 hex.nodup.of_append_right pa
  have hsum : (transit s).count pa = ∑ b, ((s.freeing b).elim (0 : Multiset ℕ) ({·})).count pa :=
    Multiset.count_sum' ..
  have htwo : ∑ b ∈ {c, d}, ((s.freeing b).elim (0 : Multiset ℕ) ({·})).count pa ≤
      ∑ b, ((s.freeing b).elim (0 : Multiset ℕ) ({·})).count pa :=
    Finset.sum_le_sum_of_subset (Finset.subset_univ _)
  rw [Finset.sum_pair hne, hc, hd] at htwo
  simp at htwo
  omega

/-- The counted page allocator is correct on any number of processors. -/
theorem kalloc_smp_correct (h : Reach Smp.next (fun _ _ => True) Initial s) :
    s.phys.freelist.Nodup ∧
    (∀ pa ∈ s.phys.freelist, s.phys.refcnt (pa / PGSIZE) = 0) ∧
    (∀ c pa s', Smp.next (.kalloc c) s = .ok (some pa, s') →
      pa ∉ refs s ∧ ∀ d, s.freeing d ≠ some pa) ∧
    (∀ pa, s.allocs pa = s.zeroed pa + if pa ∈ refs s then 1 else 0) ∧
    (∀ pa, s.zeroed pa = s.pushes pa + if ∃ c, s.freeing c = some pa then 1 else 0) ∧
    (∀ c d pa, s.freeing c = some pa → s.freeing d = some pa → c = d) ∧
    (∀ c pa, s.freeing c = some pa → pa ∉ s.phys.freelist ∧ s.phys.refcnt (pa / PGSIZE) = 0) ∧
    (∀ e panic, Smp.next e s ≠ .error (.panic panic)) ∧
    ((∀ c, s.freeing c = none) → ∀ pa, PageAddr pa → pa ∈ s.phys.freelist ∨
      0 < (refs s).count pa ∧ s.phys.refcnt (pa / PGSIZE) = (refs s).count pa) := by
  have hinv := Inv.reach h
  obtain ⟨l, hl, hex⟩ := hinv.exact
  have hzero (pa : ℕ) (hpa : pa ∈ s.phys.freelist ++ l) : s.phys.refcnt (pa / PGSIZE) = 0 := by
    obtain ⟨hvalid, hnot⟩ := (hex.mem_free pa).1 hpa
    rw [hex.count_eq pa hvalid, Multiset.count_eq_zero.2 hnot]
    rfl
  have htransit (c : Fin n) (pa : ℕ) (hc : s.freeing c = some pa) : pa ∈ l := by
    rw [← Multiset.mem_coe, hl]
    exact mem_transit_iff.2 ⟨c, hc⟩
  refine ⟨hex.nodup.of_append_left, fun pa hpa => hzero pa (List.mem_append_left _ hpa),
    fun c pa s' hnext => ?_, hinv.allocs, fun pa => ?_, fun c d pa => hinv.freeing_unique,
    fun c pa hc => ?_, fun e panic hnext => ?_, fun hidle pa hpa => ?_⟩
  · simp only [Smp.next] at hnext
    split at hnext
    · cases hnext
    · split at hnext
      · cases hnext
      · cases hnext
      · next pa k hrun =>
        cases hnext
        obtain ⟨-, hrefs, hnot⟩ := hinv.kalloc (c := c) hrun rfl
        exact ⟨hrefs, fun d hd => hnot (mem_transit_iff.2 ⟨d, hd⟩)⟩
  · rw [hinv.zeroed pa]
    congr 1
    have hle : (transit s).count pa ≤ 1 := by
      rw [← hl, Multiset.coe_count]
      exact List.nodup_iff_count_le_one.1 hex.nodup.of_append_right pa
    by_cases hmem : ∃ c, s.freeing c = some pa
    · have hpos := Multiset.count_pos.2 (mem_transit_iff.2 hmem)
      rw [if_pos hmem]
      omega
    · rw [if_neg hmem, Multiset.count_eq_zero]
      exact fun hm => hmem (mem_transit_iff.1 hm)
  · have hpa := htransit c pa hc
    refine ⟨fun hfree => ?_, hzero pa (List.mem_append_right _ hpa)⟩
    exact List.disjoint_of_nodup_append hex.nodup hfree hpa
  · cases e with
    | kalloc c =>
      simp only [Smp.next, Vm.kalloc] at hnext
      split at hnext
      · cases hnext
      · cases hf : s.phys.freelist <;> rw [hf] at hnext <;> cases hnext
    | kfree c pa =>
      simp only [Smp.next] at hnext
      split at hnext
      · cases hnext
      · next hok =>
        push Not at hok
        obtain ⟨last, k, hrun, -⟩ := hinv.dec hok.2 hok.1
        rw [hrun] at hnext
        cases last <;> cases hnext
    | push c =>
      simp only [Smp.next] at hnext
      split at hnext <;> cases hnext
    | incRefcnt c pa =>
      simp only [Smp.next] at hnext
      split at hnext <;> cases hnext
    | give c d pa =>
      simp only [Smp.next] at hnext
      split at hnext <;> cases hnext
  · have hnil : l = [] := by
      refine List.eq_nil_iff_forall_not_mem.2 fun q hq => ?_
      rw [← Multiset.mem_coe, hl] at hq
      obtain ⟨c, hc⟩ := mem_transit_iff.1 hq
      rw [hidle c] at hc
      cases hc
    rw [hnil, List.append_nil] at hex
    by_cases hmem : pa ∈ refs s
    · exact Or.inr ⟨Multiset.count_pos.2 hmem, hex.count_eq pa hpa⟩
    · exact Or.inl ((hex.mem_free pa).2 ⟨hpa, hmem⟩)

end

/-- A kernel that leaves two pages to the allocator. -/
abbrev twoPages : KernelImage where
  kend := PHYSTOP - 2 * PGSIZE
  trampoline := KERNBASE
  kernbase_le_kend := by decide
  kend_le_phystop := by decide
  trampoline_aligned := by decide
  trampoline_lt_kend := by decide

def zeroPhys : Phys := ⟨[], fun _ => 0, fun _ => 0, false⟩

def twoIdle : State 2 where
  phys :=
    match @kinit twoPages zeroPhys with
    | .ok (_, k) => k
    | .error _ => zeroPhys
  freeing _ := none
  held _ := 0
  allocs _ := 0
  zeroed _ := 0
  pushes _ := 0

/-- Two processors share a page and both free it; the second is not done yet. -/
def shareAndFree : List (Event 2) :=
  [.kalloc 0, .incRefcnt 0 0x87fff000, .give 0 1 0x87fff000, .kfree 0 0x87fff000,
    .kfree 1 0x87fff000]

theorem shareAndFree_zeroed :
    (drive (@next 2 twoPages) shareAndFree twoIdle).freeing 1 = some 0x87fff000 ∧
    (drive (@next 2 twoPages) shareAndFree twoIdle).zeroed 0x87fff000 =
      (drive (@next 2 twoPages) shareAndFree twoIdle).pushes 0x87fff000 + 1 := by
  let _ := twoPages
  have hinit : Initial twoIdle := by
    obtain ⟨k', hrun, -⟩ := kinit_spec (k := zeroPhys) rfl
    refine ⟨zeroPhys, rfl, ?_, rfl, rfl, rfl, rfl, rfl⟩
    simp only [twoIdle]
    rw [hrun]
  have hreach : Reach (next (n := 2)) (fun _ _ => True) Initial
      (drive next shareAndFree twoIdle) := Reach.drive hinit fun _ _ _ => trivial
  have hfreeing : (drive next shareAndFree twoIdle).freeing 1 = some 0x87fff000 := by
    decide +kernel
  have hzeroed := (kalloc_smp_correct hreach).2.2.2.2.1 0x87fff000
  rw [if_pos ⟨1, hfreeing⟩] at hzeroed
  exact ⟨hfreeing, hzeroed⟩

end Xv6.Kernel.Smp
