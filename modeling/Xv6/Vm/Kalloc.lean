import Xv6.Library.Exec
import Xv6.Library.RefCount
import Xv6.Vm.Pte

/-! # The physical page allocator of kalloc.c

Pages between `end` and `PHYSTOP` are on the free list or counted.  A page may
have several references: copy-on-write fork maps one page in many page tables.
-/
namespace Xv6.Vm
open Library

/-- The calls of `panic` that memory management can reach, and the null
pointer dereferences it must avoid. -/
inductive Panic
  | walk
  | mappagesVaNotAligned
  | mappagesSizeNotAligned
  | mappagesSize
  | mappagesRemap
  | uvmunmapNotAligned
  | freewalkLeaf
  | freewalkData
  | uvmclear
  | kfree
  | loadseg
  | initExiting
  | filedup
  | fileclose
  | exec
  | nullPointer
  | endlessFault
  | ustackOverrun
  deriving DecidableEq, Repr

/-- Addresses that kernel.ld fixes: `end`, the first address after the kernel,
and the page of trampoline code inside the kernel. -/
class KernelImage where
  kend : ℕ
  trampoline : ℕ
  kernbase_le_kend : KERNBASE ≤ kend
  kend_le_phystop : kend ≤ PHYSTOP
  trampoline_aligned : trampoline % PGSIZE = 0
  trampoline_lt_kend : trampoline < kend

export KernelImage (kend trampoline)

/-- `kmem` and the physical memory.  `oom` records that some `kalloc` has
returned 0; no code reads it. -/
structure Phys where
  freelist : List ℕ
  refcnt : ℕ → ℤ
  mem : ℕ → UInt8
  oom : Bool

abbrev VmM := StateT Phys (Except Panic)

/-- Copy `n` bytes given by `src` to address `a`. -/
def memmove (a : ℕ) (src : ℕ → UInt8) (n : ℕ) (mem : ℕ → UInt8) : ℕ → UInt8 :=
  fun x => if a ≤ x ∧ x < a + n then src (x - a) else mem x

def memset (a : ℕ) (c : UInt8) (n : ℕ) : (ℕ → UInt8) → ℕ → UInt8 := memmove a (fun _ => c) n

def Phys.addRef (k : Phys) (pa : ℕ) (d : ℤ) : Phys :=
  { k with refcnt := Function.update k.refcnt (pa / PGSIZE) (k.refcnt (pa / PGSIZE) + d) }

def setMem (f : (ℕ → UInt8) → ℕ → UInt8) : VmM Unit :=
  fun k => .ok ((), { k with mem := f k.mem })

/-- Allocate one page of physical memory; `none` stands for the null pointer. -/
def kalloc : VmM (Option ℕ) := fun k =>
  match k.freelist with
  | [] => .ok (none, { k with oom := true })
  | r :: next =>
    let k := Phys.addRef { k with freelist := next } r 1
    .ok (some r, { k with mem := memset r 5 PGSIZE k.mem })

/-- Count another mapping of the page at `pa`. -/
def incRefcnt (pa : ℕ) : VmM Unit := fun k => .ok ((), k.addRef pa 1)

section
variable [KernelImage]

def PageAddr (pa : ℕ) : Prop := pa % PGSIZE = 0 ∧ kend ≤ pa ∧ pa < PHYSTOP

instance (pa : ℕ) : Decidable (PageAddr pa) := inferInstanceAs (Decidable (_ ∧ _ ∧ _))

/-- Drop one reference to the page at `pa`, and free it with the last one. -/
def kfree (pa : ℕ) : VmM Unit := fun k =>
  if pa % PGSIZE ≠ 0 ∨ pa < kend ∨ PHYSTOP ≤ pa then .error .kfree
  else
    let k := k.addRef pa (-1)
    if k.refcnt (pa / PGSIZE) = 0 then
      .ok ((), { k with freelist := pa :: k.freelist, mem := memset pa 1 PGSIZE k.mem })
    else .ok ((), k)

/-- The free list and the counts describe exactly the references `refs`. -/
def Acct (k : Phys) (refs : Multiset ℕ) : Prop :=
  RefCount.Exact PageAddr k.freelist (fun pa => k.refcnt (pa / PGSIZE)) refs

/-- The pages in `keep` and the pages of the kernel have the same contents in both
memories. -/
structure SameOn (keep : Multiset ℕ) (mem mem' : ℕ → UInt8) : Prop where
  page : ∀ pa ∈ keep, ∀ i < PGSIZE, mem' (pa + i) = mem (pa + i)
  text : ∀ pa, pa % PGSIZE = 0 → pa < kend → ∀ i < PGSIZE, mem' (pa + i) = mem (pa + i)

/-- What one piece of code may do to physical memory: the references become
`refs`, the pages in `keep` are not written, and a failed `kalloc` stays
recorded. -/
structure Step (k k' : Phys) (keep refs : Multiset ℕ) : Prop where
  acct : Acct k' refs
  same : SameOn keep k.mem k'.mem
  oom_mono : k.oom = true → k'.oom = true

theorem SameOn.refl (keep : Multiset ℕ) (mem : ℕ → UInt8) : SameOn keep mem mem :=
  ⟨fun _ _ _ _ => rfl, fun _ _ _ _ _ => rfl⟩

theorem SameOn.trans {keep : Multiset ℕ} {mem mem₁ mem₂ : ℕ → UInt8} (h : SameOn keep mem mem₁)
    (h' : SameOn keep mem₁ mem₂) : SameOn keep mem mem₂ := by
  constructor
  · intro pa hpa i hi
    rw [h'.page pa hpa i hi, h.page pa hpa i hi]
  · intro pa hal hlt i hi
    rw [h'.text pa hal hlt i hi, h.text pa hal hlt i hi]

theorem SameOn.mono {keep keep' : Multiset ℕ} {mem mem' : ℕ → UInt8} (h : SameOn keep' mem mem')
    (hsub : keep ⊆ keep') : SameOn keep mem mem' := ⟨fun pa hpa => h.page pa (hsub hpa), h.text⟩

theorem Step.refl {k : Phys} {refs : Multiset ℕ} (h : Acct k refs) (keep : Multiset ℕ) :
    Step k k keep refs := ⟨h, SameOn.refl keep k.mem, id⟩

theorem Step.trans {k k₁ k₂ : Phys} {keep refs₁ refs₂ : Multiset ℕ} (h : Step k k₁ keep refs₁)
    (h' : Step k₁ k₂ keep refs₂) : Step k k₂ keep refs₂ :=
  ⟨h'.acct, h.same.trans h'.same, fun hk => h'.oom_mono (h.oom_mono hk)⟩

theorem Step.mono {k k' : Phys} {keep keep' refs : Multiset ℕ} (h : Step k k' keep' refs)
    (hsub : keep ⊆ keep') : Step k k' keep refs :=
  ⟨h.acct, h.same.mono hsub, h.oom_mono⟩

theorem Step.congr {k k' : Phys} {keep refs refs' : Multiset ℕ} (h : Step k k' keep refs)
    (heq : refs = refs') : Step k k' keep refs' := heq ▸ h

omit [KernelImage] in
theorem pages_disjoint {a b i : ℕ} (ha : a % PGSIZE = 0) (hb : b % PGSIZE = 0) (hne : a ≠ b)
    (hi : i < PGSIZE) : ¬ (a ≤ b + i ∧ b + i < a + PGSIZE) := by
  simp only [PGSIZE] at *
  omega

theorem PageAddr.lt {pa : ℕ} (h : PageAddr pa) : pa < 2 ^ 56 := by
  obtain ⟨_, _, hlt⟩ := h
  unfold PHYSTOP KERNBASE at hlt
  omega

theorem PageAddr.div_ne {a b : ℕ} (ha : PageAddr a) (hb : PageAddr b) (hne : b ≠ a) :
    b / PGSIZE ≠ a / PGSIZE := by
  have h1 := ha.1
  have h2 := hb.1
  simp only [PGSIZE] at *
  omega

omit [KernelImage] in
theorem addRef_self (k : Phys) (pa : ℕ) (d : ℤ) :
    (k.addRef pa d).refcnt (pa / PGSIZE) = k.refcnt (pa / PGSIZE) + d := by
  simp [Phys.addRef]

theorem addRef_of_ne (k : Phys) {a b : ℕ} (d : ℤ) (ha : PageAddr a) (hb : PageAddr b)
    (hne : b ≠ a) : (k.addRef a d).refcnt (b / PGSIZE) = k.refcnt (b / PGSIZE) := by
  simp [Phys.addRef, ha.div_ne hb hne]

omit [KernelImage] in
theorem memmove_inside (a : ℕ) (src : ℕ → UInt8) {n i : ℕ} (mem : ℕ → UInt8) (hi : i < n) :
    memmove a src n mem (a + i) = src i := by
  rw [memmove, if_pos ⟨by omega, by omega⟩, Nat.add_sub_cancel_left]

omit [KernelImage] in
theorem memmove_outside {mem : ℕ → UInt8} (src : ℕ → UInt8) {pa q off n i : ℕ}
    (hal : pa % PGSIZE = 0) (hq : q % PGSIZE = 0) (hne : q ≠ pa) (hfit : off + n ≤ PGSIZE)
    (hi : i < PGSIZE) : memmove (pa + off) src n mem (q + i) = mem (q + i) := by
  have hdis := pages_disjoint hal hq (Ne.symm hne) hi
  simp only [memmove]
  rw [if_neg]
  rintro ⟨h1, h2⟩
  exact hdis ⟨by omega, by omega⟩

theorem sameOn_memmove {keep : Multiset ℕ} {mem : ℕ → UInt8} (src : ℕ → UInt8) {pa off n : ℕ}
    (hpa : PageAddr pa) (hkeep : ∀ q ∈ keep, q % PGSIZE = 0 ∧ q ≠ pa)
    (hfit : off + n ≤ PGSIZE) :
    SameOn keep mem (memmove (pa + off) src n mem) where
  page := fun q hq _ hi => memmove_outside src hpa.1 (hkeep q hq).1 (hkeep q hq).2 hfit hi
  text := fun _ hq hlt _ hi =>
    memmove_outside src hpa.1 hq (hlt.trans_le hpa.2.1).ne hfit hi

theorem sameOn_memmove_page {keep : Multiset ℕ} {mem : ℕ → UInt8} (src : ℕ → UInt8) {pa : ℕ}
    (hpa : PageAddr pa) (hkeep : ∀ q ∈ keep, q % PGSIZE = 0 ∧ q ≠ pa) :
    SameOn keep mem (memmove pa src PGSIZE mem) :=
  sameOn_memmove src hpa hkeep (le_of_eq (Nat.zero_add PGSIZE))

theorem sameOn_memset {keep : Multiset ℕ} {mem : ℕ → UInt8} {pa : ℕ} (c : UInt8)
    (hpa : PageAddr pa) (hkeep : ∀ q ∈ keep, q % PGSIZE = 0 ∧ q ≠ pa) :
    SameOn keep mem (memset pa c PGSIZE mem) := sameOn_memmove_page _ hpa hkeep

/-- There are at most 128 MB of free pages. -/
theorem Acct.length_le {k : Phys} {refs : Multiset ℕ} (h : Acct k refs) :
    k.freelist.length ≤ 32768 := by
  have hsub : k.freelist.toFinset ⊆
      (Finset.range 32768).image fun i => KERNBASE + i * PGSIZE := by
    intro pa hpa
    obtain ⟨⟨h1, h2, h3⟩, -⟩ := (h.mem_free pa).mp (List.mem_toFinset.mp hpa)
    have hk := KernelImage.kernbase_le_kend
    unfold PHYSTOP at h3
    refine Finset.mem_image.mpr ⟨(pa - KERNBASE) / PGSIZE, Finset.mem_range.mpr ?_, ?_⟩ <;>
      unfold KERNBASE PGSIZE at * <;> omega
  have hcard := Finset.card_le_card hsub
  rw [List.toFinset_card_of_nodup h.nodup] at hcard
  exact hcard.trans (Finset.card_image_le.trans (Finset.card_range _).le)

theorem kalloc_spec {k : Phys} {refs : Multiset ℕ} (h : Acct k refs) :
    kalloc k = .ok (none, { k with oom := true }) ∧ k.freelist = [] ∨
    ∃ pa k', kalloc k = .ok (some pa, k') ∧ Step k k' refs (pa ::ₘ refs) ∧ pa ∉ refs ∧
      PageAddr pa ∧ k.freelist = pa :: k'.freelist ∧ k'.oom = k.oom := by
  cases hf : k.freelist with
  | nil =>
    left
    simp [kalloc, hf]
  | cons r next =>
    right
    have hmem : r ∈ k.freelist := by rw [hf]; exact List.mem_cons_self
    obtain ⟨hr, hnot⟩ := (h.mem_free r).mp hmem
    have hex : RefCount.Exact PageAddr (r :: next) (fun pa => k.refcnt (pa / PGSIZE)) refs := by
      rw [← hf]
      exact h
    let k₁ := Phys.addRef { k with freelist := next } r 1
    refine ⟨r, { k₁ with mem := memset r 5 PGSIZE k₁.mem }, ?_, ⟨?_, ?_, id⟩, hnot, hr, rfl, rfl⟩
    · unfold kalloc
      rw [hf]
    · exact hex.alloc (addRef_self _ r 1) (fun b hb hne => addRef_of_ne _ 1 hr hb hne)
    · exact sameOn_memset 5 hr
        (fun q hq => ⟨(h.valid_of_mem q hq).1, fun hqr => hnot (hqr ▸ hq)⟩)

theorem kfree_spec {k : Phys} {refs : Multiset ℕ} {pa : ℕ} (h : Acct k (pa ::ₘ refs)) :
    ∃ k', kfree pa k = .ok ((), k') ∧ Step k k' refs refs ∧ k'.oom = k.oom := by
  have hpa := h.valid_of_mem pa (Multiset.mem_cons_self pa refs)
  have hguard : ¬ (pa % PGSIZE ≠ 0 ∨ pa < kend ∨ PHYSTOP ≤ pa) := by
    obtain ⟨h1, h2, h3⟩ := hpa
    omega
  have hself : (k.addRef pa (-1)).refcnt (pa / PGSIZE) = k.refcnt (pa / PGSIZE) - 1 := by
    rw [addRef_self]
    ring
  have hother (b : ℕ) (hb : PageAddr b) (hne : b ≠ pa) :
      (k.addRef pa (-1)).refcnt (b / PGSIZE) = k.refcnt (b / PGSIZE) :=
    addRef_of_ne k (-1) hpa hb hne
  by_cases hlast : (k.addRef pa (-1)).refcnt (pa / PGSIZE) = 0
  · have hexact := RefCount.Exact.release_last h hself hother hlast
    have hnot : pa ∉ refs := hexact.not_mem_of_free List.mem_cons_self
    let k₁ := k.addRef pa (-1)
    refine ⟨{ k₁ with freelist := pa :: k₁.freelist, mem := memset pa 1 PGSIZE k₁.mem },
      ?_, ⟨hexact, ?_, id⟩, rfl⟩
    · rw [kfree, if_neg hguard]
      exact if_pos hlast
    · exact sameOn_memset 1 hpa
        (fun q hq => ⟨(hexact.valid_of_mem q hq).1, fun hqr => hnot (hqr ▸ hq)⟩)
  · have hexact := RefCount.Exact.release h hself hother hlast
    refine ⟨k.addRef pa (-1), ?_, ⟨hexact, SameOn.refl refs k.mem, id⟩, rfl⟩
    rw [kfree, if_neg hguard]
    exact if_neg hlast

theorem incRefcnt_spec {k : Phys} {refs : Multiset ℕ} {pa : ℕ} (h : Acct k refs)
    (hpa : pa ∈ refs) (keep : Multiset ℕ) :
    ∃ k', incRefcnt pa k = .ok ((), k') ∧ Step k k' keep (pa ::ₘ refs) ∧ k'.oom = k.oom := by
  have hp := h.valid_of_mem pa hpa
  refine ⟨_, rfl, ⟨?_, SameOn.refl keep k.mem, id⟩, rfl⟩
  exact h.retain hpa (addRef_self _ pa 1) (fun b hb hne => addRef_of_ne _ 1 hp hb hne)

end

end Xv6.Vm
