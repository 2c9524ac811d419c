import Xv6.Vm.Words

/-! # Page tables in memory

`walk`, `mappages`, `uvmunmap` and `freewalk` as vm.c runs them: a page table is the address
of its top page, an entry is the address of a word, and all entries are words in memory.
-/
namespace Xv6.Vm.Words
open Library

/-- `*pte` -/
def load (pte : ℕ) : VmM Pte := fun k => .ok (wordAt k.mem pte, k)

/-- `*pte = x` -/
def store (pte : ℕ) (x : Pte) : VmM Unit := setMem (setWord pte x)

/-- `&pagetable[i]` -/
def slotAt (pagetable : ℕ) (i : Fin 512) : ℕ := pagetable + 8 * i.val

/-- The loop of `walk` from `level` down. -/
def walkLoop (alloc : Bool) (va : ℕ) : (level : ℕ) → (pagetable : ℕ) → VmM (Option ℕ)
  | 0, pagetable => pure (some (slotAt pagetable (px va 0)))
  | level + 1, pagetable => do
    let pte := slotAt pagetable (px va (level + 1))
    let x ← load pte
    if x.has PTE_V then walkLoop alloc va level (pte2pa x)
    else if alloc then do
      match ← kalloc with
      | none => pure none
      | some page =>
        setMem (memset page 0 PGSIZE)
        store pte (pa2pte page ||| PTE_V)
        walkLoop alloc va level page
    else pure none

/-- The address of the entry for `va`, or `none` for the null pointer. -/
def walk (pagetable va : ℕ) (alloc : Bool) : VmM (Option ℕ) :=
  if MAXVA ≤ va then throw .walk else walkLoop alloc va 2 pagetable

def mappagesLoop (pagetable : ℕ) (perm : Pte) : (n : ℕ) → (a pa : ℕ) → VmM Bool
  | 0, _, _ => pure true
  | n + 1, a, pa => do
    match ← walk pagetable a true with
    | none => pure false
    | some pte =>
      let x ← load pte
      if x.has PTE_V then throw .mappagesRemap
      else do
        store pte (mapPte pa perm)
        mappagesLoop pagetable perm n (a + PGSIZE) (pa + PGSIZE)

/-- `true` stands for 0 and `false` for -1. -/
def mappages (pagetable va size pa : ℕ) (perm : Pte) : VmM Bool :=
  if va % PGSIZE ≠ 0 then throw .mappagesVaNotAligned
  else if size % PGSIZE ≠ 0 then throw .mappagesSizeNotAligned
  else if size = 0 then throw .mappagesSize
  else mappagesLoop pagetable perm (size / PGSIZE) va pa

def uvmcreate : VmM (Option ℕ) := do
  match ← kalloc with
  | none => pure none
  | some pagetable =>
    setMem (memset pagetable 0 PGSIZE)
    pure (some pagetable)

section
variable [KernelImage]

def uvmunmapPage (pagetable : ℕ) (doFree : Bool) (a : ℕ) : VmM Unit := do
  match ← walk pagetable a false with
  | none => pure ()
  | some pte =>
    let x ← load pte
    if x.has PTE_V then do
      if doFree then kfree (pte2pa x)
      store pte 0
    else pure ()

def uvmunmapLoop (pagetable : ℕ) (doFree : Bool) : (n : ℕ) → (a : ℕ) → VmM Unit
  | 0, _ => pure ()
  | n + 1, a => do
    uvmunmapPage pagetable doFree a
    uvmunmapLoop pagetable doFree n (a + PGSIZE)

def uvmunmap (pagetable va npages : ℕ) (doFree : Bool) : VmM Unit :=
  if va % PGSIZE ≠ 0 then throw .uvmunmapNotAligned
  else uvmunmapLoop pagetable doFree (pagesBetween va (u64 (va + npages * PGSIZE))) va

/-- `freewalk` with at most `depth` levels of tables; C would follow an entry below them into
the page it maps. -/
def freewalk : (depth : ℕ) → (pagetable : ℕ) → VmM Unit
  | 0, _ => throw .freewalkData
  | depth + 1, pagetable => do
    (List.finRange 512).forM fun i => do
      let x ← load (slotAt pagetable i)
      if x.has PTE_V then
        if (x &&& (PTE_R ||| PTE_W ||| PTE_X)) = 0 then do
          freewalk depth (pte2pa x)
          store (slotAt pagetable i) 0
        else throw .freewalkLeaf
      else pure ()
    kfree pagetable

end

end Xv6.Vm.Words
