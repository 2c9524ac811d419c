import Xv6.Library.Sums
import Xv6.Vm.Uvm

/-! # User address spaces

An address space is a page table seen as a map from page numbers to entries.
It owns the pages that its entries below `TRAPFRAME` map and the pages of the
table itself.  The rest of the kernel holds further references `G`; the
specifications of vm.c are stated for an arbitrary `G`.
-/
namespace Xv6.Vm
open Library Library.Exec Library.RefCount

/-- The number of pages below `TRAPFRAME`; the next two are those of the
trapframe and the trampoline. -/
@[irreducible] def UPAGES : ℕ := TRAPFRAME / PGSIZE

theorem UPAGES_eq : UPAGES = 67108862 := by
  unfold UPAGES
  rfl

/-- The number of pages that `sz` bytes need. -/
def npages (sz : ℕ) : ℕ := (sz + (PGSIZE - 1)) / PGSIZE

/-- The reference that an entry stands for. -/
def pteRef (pte : Pte) : Multiset ℕ := if pte.has PTE_V then {pte2pa pte} else 0

@[irreducible] def leafRefs (f : ℕ → Pte) : Multiset ℕ := ∑ v ∈ Finset.range UPAGES, pteRef (f v)

/-- The pages that an address space owns. -/
def own (pt : PageTable) : Multiset ℕ := leafRefs (leaf pt) + tables pt

/-- What the user finds in page `v`: an unmapped page reads as zeros once it
is allocated. -/
def view (pt : PageTable) (mem : ℕ → UInt8) (v i : ℕ) : UInt8 :=
  if (leaf pt v).has PTE_V then mem (pte2pa (leaf pt v) + i) else 0

/-- The access rights that copy-on-write must keep. -/
structure Rights where
  readable : Bool
  executable : Bool
  user : Bool
  writable : Bool
  deriving DecidableEq

def rights (pte : Pte) : Rights :=
  ⟨pte.has PTE_R, pte.has PTE_X, pte.has PTE_U, pte.has PTE_W || pte.has PTE_COW⟩

/-- What holds of every entry below `TRAPFRAME`, when `refs` are all references
to physical pages: it is readable, and if it is writable it is not marked
copy-on-write and its page has no other reference. -/
structure PteOk (refs : Multiset ℕ) (pte : Pte) : Prop where
  readable : pte.has PTE_V → pte.has PTE_R
  cow_ro : pte.has PTE_V → pte.has PTE_W → pte.has PTE_COW = false
  writable : pte.has PTE_V → pte.has PTE_W → refs.count (pte2pa pte) = 1

/-- A well-formed user page table. -/
structure Wf (pt : PageTable) (refs : Multiset ℕ) : Prop where
  entry : ∀ v < UPAGES, PteOk refs (leaf pt v)
  supervisor : ∀ v, UPAGES ≤ v → v < 2 ^ 27 → (leaf pt v).has PTE_U = false
  beyond : ∀ v, UPAGES + 2 ≤ v → v < 2 ^ 27 → (leaf pt v).has PTE_V = false

/-- `pt'` is `pt` with the entry of page `v` set to `x`. -/
def SetLeaf (pt pt' : PageTable) (v : ℕ) (x : Pte) : Prop :=
  ∀ w < 2 ^ 27, leaf pt' w = if w = v then x else leaf pt w

def SameLeaves (pt pt' : PageTable) : Prop := ∀ w < 2 ^ 27, leaf pt' w = leaf pt w

/-! ## Page arithmetic -/

theorem page_div (v : ℕ) : v * PGSIZE / PGSIZE = v := Nat.mul_div_cancel v (by decide)

theorem page_succ (v : ℕ) : v * PGSIZE + PGSIZE = (v + 1) * PGSIZE := by ring

theorem page_lt_maxva {v : ℕ} (hv : v < 2 ^ 26) : v * PGSIZE < MAXVA := by
  simp only [PGSIZE, MAXVA]
  omega

theorem pgroundup_eq {sz : ℕ} (h : sz ≤ MAXVA) : pgroundup sz = npages sz * PGSIZE := by
  simp only [MAXVA] at h
  simp only [pgroundup, npages, u64, PGSIZE]
  omega

theorem npages_page (v : ℕ) : npages (v * PGSIZE) = v := by
  simp only [npages, PGSIZE]
  omega

theorem npages_mono {a b : ℕ} (h : a ≤ b) : npages a ≤ npages b := by
  simp only [npages, PGSIZE]
  omega

theorem npages_le {sz : ℕ} (h : sz ≤ TRAPFRAME) : npages sz ≤ UPAGES := by
  have hT : TRAPFRAME = 274877898752 := rfl
  rw [UPAGES_eq]
  simp only [npages, PGSIZE]
  omega

theorem div_lt_npages {a sz : ℕ} (h : a < sz) : a / PGSIZE < npages sz := by
  simp only [npages, PGSIZE]
  omega

theorem pagesBetween_page (v n : ℕ) : pagesBetween (v * PGSIZE) ((v + n) * PGSIZE) = n := by
  simp only [pagesBetween, PGSIZE]
  omega

theorem intToU64_of_lt {n : ℕ} (h : n < 2 ^ 31) : intToU64 n = n := by
  have h32 : n % 2 ^ 32 = n := Nat.mod_eq_of_lt (by omega)
  rw [intToU64, h32, if_pos h]

/-! ## References of an address space -/

theorem leafRefs_congr {f g : ℕ → Pte} (h : ∀ v < UPAGES, g v = f v) :
    leafRefs g = leafRefs f := by
  unfold leafRefs
  exact Finset.sum_congr rfl fun v hv => by rw [h v (Finset.mem_range.mp hv)]

theorem leafRefs_update {f g : ℕ → Pte} {v : ℕ} (hv : v < UPAGES)
    (h : ∀ w < UPAGES, w ≠ v → g w = f w) :
    leafRefs g + pteRef (f v) = pteRef (g v) + leafRefs f := by
  unfold leafRefs
  exact sum_add_of_eq_off (f := fun w => pteRef (f w)) (g := fun w => pteRef (g w))
    (Finset.mem_range.mpr hv) fun w hw hne => by rw [h w (Finset.mem_range.mp hw) hne]

theorem pteRef_valid {pte : Pte} (h : pte.has PTE_V) : pteRef pte = {pte2pa pte} := if_pos h

theorem pteRef_invalid {pte : Pte} (h : pte.has PTE_V = false) : pteRef pte = 0 := by
  simp [pteRef, h]

theorem leafRefs_eq_zero {f : ℕ → Pte} (h : ∀ v < UPAGES, (f v).has PTE_V = false) :
    leafRefs f = 0 := by
  unfold leafRefs
  exact Finset.sum_eq_zero fun v hv => pteRef_invalid (h v (Finset.mem_range.mp hv))

theorem mem_own {pt : PageTable} {v : ℕ} (hv : v < UPAGES) (hV : (leaf pt v).has PTE_V) :
    pte2pa (leaf pt v) ∈ own pt := by
  have hle : pteRef (leaf pt v) ≤ leafRefs (leaf pt) := by
    unfold leafRefs
    exact Finset.single_le_sum (fun _ _ => Multiset.zero_le _) (Finset.mem_range.mpr hv)
  rw [pteRef_valid hV] at hle
  exact Multiset.mem_add.mpr (Or.inl (Multiset.singleton_le.mp hle))

theorem pteRef_add_le {f : ℕ → Pte} {v w : ℕ} (hv : v < UPAGES) (hw : w < UPAGES) (hne : v ≠ w) :
    pteRef (f v) + pteRef (f w) ≤ leafRefs f := by
  have hsub : ({v, w} : Finset ℕ) ⊆ Finset.range UPAGES := by
    intro x hx
    rcases Finset.mem_insert.mp hx with rfl | hx
    · exact Finset.mem_range.mpr hv
    · rw [Finset.mem_singleton.mp hx]
      exact Finset.mem_range.mpr hw
  have h := Finset.sum_le_sum_of_subset (f := fun v => pteRef (f v)) hsub
  rw [Finset.sum_pair hne] at h
  unfold leafRefs
  exact h

/-- Storing an entry exchanges one reference and adds the new table pages. -/
theorem own_setLeaf {pt pt' : PageTable} {v : ℕ} {x : Pte} (new : Multiset ℕ) (hv : v < UPAGES)
    (hset : SetLeaf pt pt' v x) (htab : tables pt' = new + tables pt) :
    own pt' + pteRef (leaf pt v) = pteRef x + new + own pt := by
  have hU := UPAGES_eq
  have hx : leaf pt' v = x := by rw [hset v (by omega), if_pos rfl]
  have hsum := leafRefs_update (f := leaf pt) (g := leaf pt') hv
    (fun w hw hne => by rw [hset w (by omega), if_neg hne])
  rw [hx] at hsum
  calc own pt' + pteRef (leaf pt v)
      = (leafRefs (leaf pt') + pteRef (leaf pt v)) + tables pt' := by
        rw [own]; abel
    _ = pteRef x + new + own pt := by
        rw [hsum, htab, own]; abel

theorem own_sameLeaves {pt pt' : PageTable} (new : Multiset ℕ) (hsame : SameLeaves pt pt')
    (htab : tables pt' = new + tables pt) : own pt' = new + own pt := by
  have hU := UPAGES_eq
  have hl : leafRefs (leaf pt') = leafRefs (leaf pt) :=
    leafRefs_congr fun w hw => hsame w (by omega)
  rw [own, own, hl, htab]
  abel

/-- Entries of kernel pages do not count as references. -/
theorem own_setLeaf_kernel {pt pt' : PageTable} {v : ℕ} {x : Pte} (new : Multiset ℕ)
    (hv : UPAGES ≤ v) (hset : SetLeaf pt pt' v x) (htab : tables pt' = new + tables pt) :
    own pt' = new + own pt := by
  have hU := UPAGES_eq
  have hl : leafRefs (leaf pt') = leafRefs (leaf pt) :=
    leafRefs_congr fun w hw => by rw [hset w (by omega), if_neg (by omega)]
  rw [own, own, hl, htab]
  abel

/-- No other entry maps a page with a single reference. -/
theorem page_ne_of_private {pt : PageTable} {refs : Multiset ℕ} {v w : ℕ} (hown : own pt ≤ refs)
    (hv : v < UPAGES) (hw : w < UPAGES) (hne : w ≠ v) (hV : (leaf pt v).has PTE_V)
    (hVw : (leaf pt w).has PTE_V) (hone : refs.count (pte2pa (leaf pt v)) = 1) :
    pte2pa (leaf pt w) ≠ pte2pa (leaf pt v) := by
  intro he
  have hle := pteRef_add_le (f := leaf pt) hv hw hne.symm
  rw [pteRef_valid hV, pteRef_valid hVw, he] at hle
  have h1 := Multiset.count_le_of_le (pte2pa (leaf pt v)) hle
  have h2 := Multiset.count_le_of_le (pte2pa (leaf pt v)) hown
  rw [Multiset.count_add, Multiset.count_singleton_self] at h1
  rw [own, Multiset.count_add] at h2
  omega

/-- A page with a single reference, held by an entry, is not referred to from
elsewhere. -/
theorem not_mem_of_private {pt : PageTable} {G : Multiset ℕ} {v : ℕ} (hv : v < UPAGES)
    (hV : (leaf pt v).has PTE_V) (hone : (own pt + G).count (pte2pa (leaf pt v)) = 1) :
    pte2pa (leaf pt v) ∉ G := by
  intro hG
  have h1 := Multiset.count_pos.mpr (mem_own hv hV)
  have h2 := Multiset.count_pos.mpr hG
  rw [Multiset.count_add] at hone
  omega

/-! ## Well-formedness -/

theorem PteOk.mono {refs refs' : Multiset ℕ} {pte : Pte} (h : PteOk refs pte)
    (hsh : NoNewSharing refs refs') (hmem : pte.has PTE_V → pte2pa pte ∈ refs') :
    PteOk refs' pte where
  readable := h.readable
  cow_ro := h.cow_ro
  writable := fun hV hW => hsh.count_eq_one (h.writable hV hW).le (hmem hV)

theorem PteOk.of_invalid {refs : Multiset ℕ} {pte : Pte} (h : pte.has PTE_V = false) :
    PteOk refs pte := by
  constructor <;> simp [h]

theorem mem_refs {pt : PageTable} {refs : Multiset ℕ} (hown : own pt ≤ refs) {v : ℕ}
    (hv : v < UPAGES) (hV : (leaf pt v).has PTE_V) : pte2pa (leaf pt v) ∈ refs :=
  Multiset.mem_of_le hown (mem_own hv hV)

/-- Only the entries below `TRAPFRAME` need a look when the others stay. -/
theorem Wf.of_entries {pt pt' : PageTable} {refs refs' : Multiset ℕ} (h : Wf pt refs)
    (hentry : ∀ v < UPAGES, PteOk refs' (leaf pt' v))
    (hkernel : ∀ v, UPAGES ≤ v → v < 2 ^ 27 → leaf pt' v = leaf pt v) : Wf pt' refs' where
  entry := hentry
  supervisor := fun v hv hlt => hkernel v hv hlt ▸ h.supervisor v hv hlt
  beyond := fun v hv hlt => hkernel v (by omega) hlt ▸ h.beyond v hv hlt

/-- Other references may change as long as a page with one reference keeps
one. -/
theorem Wf.mono {pt : PageTable} {refs refs' : Multiset ℕ} (h : Wf pt refs)
    (hone : ∀ a ∈ own pt, refs.count a = 1 → refs'.count a = 1) : Wf pt refs' :=
  h.of_entries (fun v hv => ⟨(h.entry v hv).readable, (h.entry v hv).cow_ro, fun hV hW =>
    hone _ (mem_own hv hV) ((h.entry v hv).writable hV hW)⟩) fun _ _ _ => rfl

/-- A well-formed table stays so when one entry changes to an acceptable one. -/
theorem Wf.setLeaf {pt pt' : PageTable} {refs refs' : Multiset ℕ} {v : ℕ} {x : Pte}
    (h : Wf pt refs) (hv : v < UPAGES) (hset : SetLeaf pt pt' v x)
    (hsh : NoNewSharing refs refs') (hown : own pt' ≤ refs') (hx : PteOk refs' x) :
    Wf pt' refs' := by
  have hU := UPAGES_eq
  refine h.of_entries ?_ fun w hw hlt => by rw [hset w hlt, if_neg (by omega)]
  intro w hw
  have hleaf := hset w (by omega)
  by_cases hwv : w = v
  · rw [hleaf, if_pos hwv]
    exact hx
  · have hmem := mem_refs hown hw
    rw [hleaf, if_neg hwv] at hmem ⊢
    exact (h.entry w hw).mono hsh hmem

theorem Wf.sameLeaves {pt pt' : PageTable} {refs refs' : Multiset ℕ} (h : Wf pt refs)
    (hsame : SameLeaves pt pt') (hsh : NoNewSharing refs refs') (hown : own pt' ≤ refs') :
    Wf pt' refs' := by
  have hU := UPAGES_eq
  refine h.of_entries ?_ fun w _ hlt => hsame w hlt
  intro w hw
  have hmem := mem_refs hown hw
  rw [hsame w (by omega)] at hmem ⊢
  exact (h.entry w hw).mono hsh hmem

/-- Changing kernel entries keeps a table well-formed if they stay out of
reach of the user. -/
theorem Wf.setKernel {pt pt' : PageTable} {refs refs' : Multiset ℕ} (h : Wf pt refs)
    (hlow : ∀ v < UPAGES, leaf pt' v = leaf pt v)
    (hsup : ∀ v, UPAGES ≤ v → v < 2 ^ 27 → (leaf pt' v).has PTE_U = false)
    (hbeyond : ∀ v, UPAGES + 2 ≤ v → v < 2 ^ 27 → (leaf pt' v).has PTE_V = false)
    (hsh : NoNewSharing refs refs') (hown : own pt' ≤ refs') : Wf pt' refs' where
  entry := by
    intro v hv
    have hmem := mem_refs hown hv
    rw [hlow v hv] at hmem ⊢
    exact (h.entry v hv).mono hsh hmem
  supervisor := hsup
  beyond := hbeyond

theorem TRAPFRAME_page : TRAPFRAME = UPAGES * PGSIZE := by
  rw [UPAGES_eq]
  rfl

theorem TRAMPOLINE_page : TRAMPOLINE = (UPAGES + 1) * PGSIZE := by
  rw [UPAGES_eq]
  rfl

/-! ## Reading slots -/

theorem has_zero (flag : Pte) : Pte.has 0 flag = false := by simp [Pte.has]

theorem slot_isSome_of_valid {pt : PageTable} {va : ℕ}
    (h : (leaf pt (va / PGSIZE)).has PTE_V) : (slot pt va).isSome := by
  cases hs : slot pt va with
  | some x => rfl
  | none =>
    rw [leaf, slot_page, hs, Option.getD_none, has_zero] at h
    cases h

theorem readSlot_run {pt : PageTable} {va : ℕ} (h : (slot pt va).isSome) (k : Phys) :
    readSlot pt va k = .ok (leaf pt (va / PGSIZE), k) := by
  rw [readSlot, slot_eq_leaf h]
  rfl

theorem setLeaf_setSlot {pt : PageTable} {v : ℕ} (hv : v < 2 ^ 27)
    (hs : (slot pt (v * PGSIZE)).isSome) (x : Pte) :
    SetLeaf pt (setSlot pt (v * PGSIZE) x) v x :=
  fun _ hw => leaf_setSlot x hv hw hs

end Xv6.Vm
