import Xv6.Vm.PageTable

/-! # User memory operations of vm.c

Each function takes the page tables it works on and returns them changed.
Where C returns 0 or -1 the result is `true` or `false`, and a null pointer is
`none`.
-/
namespace Xv6.Vm
open Library

variable [KernelImage]

/-- Read the slot for `va` through the pointer that `walk` returned. -/
def readSlot (pt : PageTable) (va : ℕ) : VmM Pte :=
  match slot pt va with
  | some pte => pure pte
  | none => throw .nullPointer

/-- Look up a virtual address and return the physical page, for user pages. -/
def walkaddr (pt : PageTable) (va : ℕ) : VmM (Option ℕ) :=
  if MAXVA ≤ va then pure none
  else do
    let (found, _) ← walk pt va false
    if !found then pure none
    else
      let pte ← readSlot pt va
      if !pte.has PTE_V then pure none
      else if !pte.has PTE_U then pure none
      else pure (some (pte2pa pte))

/-- The loop of `mappages` over `n` more pages. -/
def mappagesLoop (perm : Pte) : (n : ℕ) → PageTable → ℕ → ℕ → VmM (Bool × PageTable)
  | 0, pt, _, _ => pure (true, pt)
  | n + 1, pt, a, pa => do
    let (found, pt) ← walk pt a true
    if !found then pure (false, pt)
    else
      let pte ← readSlot pt a
      if pte.has PTE_V then throw .mappagesRemap
      else mappagesLoop perm n (setSlot pt a (mapPte pa perm)) (a + PGSIZE) (pa + PGSIZE)

/-- Create entries for the pages from `va` that refer to the pages from `pa`. -/
def mappages (pt : PageTable) (va size pa : ℕ) (perm : Pte) : VmM (Bool × PageTable) :=
  if va % PGSIZE ≠ 0 then throw .mappagesVaNotAligned
  else if size % PGSIZE ≠ 0 then throw .mappagesSizeNotAligned
  else if size = 0 then throw .mappagesSize
  else mappagesLoop perm (size / PGSIZE) pt va pa

/-- Create an empty user page table. -/
def uvmcreate : VmM (Option PageTable) := do
  match ← kalloc with
  | none => pure none
  | some pa => pure (some (Radix.empty 0 pa 2))

/-- One round of the loop of `uvmunmap`, for the page at `a`. -/
def uvmunmapPage (doFree : Bool) (pt : PageTable) (a : ℕ) : VmM PageTable := do
  let (found, pt) ← walk pt a false
  if !found then pure pt
  else
    let pte ← readSlot pt a
    if !pte.has PTE_V then pure pt
    else do
      if doFree then kfree (pte2pa pte)
      pure (setSlot pt a 0)

def uvmunmapLoop (doFree : Bool) : (n : ℕ) → PageTable → ℕ → VmM PageTable
  | 0, pt, _ => pure pt
  | n + 1, pt, a => do
    let pt ← uvmunmapPage doFree pt a
    uvmunmapLoop doFree n pt (a + PGSIZE)

/-- How many values the counter of `for(a = lo; a < hi; a += PGSIZE)` takes. -/
def pagesBetween (lo hi : ℕ) : ℕ := (hi - lo + (PGSIZE - 1)) / PGSIZE

/-- Remove `npages` of mappings starting from `va`, optionally freeing the
physical memory.  It is fine if a mapping does not exist. -/
def uvmunmap (pt : PageTable) (va npages : ℕ) (doFree : Bool) : VmM PageTable :=
  if va % PGSIZE ≠ 0 then throw .uvmunmapNotAligned
  else uvmunmapLoop doFree (pagesBetween va (u64 (va + npages * PGSIZE))) pt va

/-- A page count stored in an `int` and passed on as `uint64`. -/
def intToU64 (n : ℕ) : ℕ :=
  if n % 2 ^ 32 < 2 ^ 31 then n % 2 ^ 32 else 2 ^ 64 - 2 ^ 32 + n % 2 ^ 32

/-- Deallocate user pages to bring the process size from `oldsz` to `newsz`. -/
def uvmdealloc (pt : PageTable) (oldsz newsz : ℕ) : VmM (ℕ × PageTable) :=
  if oldsz ≤ newsz then pure (oldsz, pt)
  else if pgroundup newsz < pgroundup oldsz then do
    let npages := intToU64 ((pgroundup oldsz - pgroundup newsz) / PGSIZE)
    let pt ← uvmunmap pt (pgroundup newsz) npages true
    pure (newsz, pt)
  else pure (newsz, pt)

/-- The loop of `uvmalloc` from page `a` on; `oldsz` is already rounded up. -/
def uvmallocLoop (oldsz : ℕ) (xperm : Pte) : (n : ℕ) → PageTable → ℕ → VmM (Bool × PageTable)
  | 0, pt, _ => pure (true, pt)
  | n + 1, pt, a => do
    match ← kalloc with
    | none =>
      let (_, pt) ← uvmdealloc pt a oldsz
      pure (false, pt)
    | some mem =>
      setMem (memset mem 0 PGSIZE)
      let (ok, pt) ← mappages pt a PGSIZE mem (PTE_R ||| PTE_U ||| xperm)
      if ok then uvmallocLoop oldsz xperm n pt (a + PGSIZE)
      else
        kfree mem
        let (_, pt) ← uvmdealloc pt a oldsz
        pure (false, pt)

/-- Allocate entries and physical memory to grow a process from `oldsz` to
`newsz`.  Returns the new size or 0 on error. -/
def uvmalloc (pt : PageTable) (oldsz newsz : ℕ) (xperm : Pte) : VmM (ℕ × PageTable) :=
  if newsz < oldsz then pure (oldsz, pt)
  else do
    let start := pgroundup oldsz
    let (ok, pt) ← uvmallocLoop start xperm (pagesBetween start newsz) pt start
    pure (if ok then newsz else 0, pt)

/-- Recursively free page-table pages; all leaf mappings must be gone.  A valid
bottom entry without permissions would send C into the page it maps. -/
def freewalk : (n : ℕ) → Table n → VmM Unit
  | 0, t => do
    (List.finRange 512).forM fun i =>
      if (t.2 i).has PTE_V then
        if (t.2 i &&& (PTE_R ||| PTE_W ||| PTE_X)) = 0 then throw .freewalkData
        else throw .freewalkLeaf
      else pure ()
    kfree t.1
  | n + 1, t => do
    (List.finRange 512).forM fun i =>
      match t.2 i with
      | some c => freewalk n c
      | none => pure ()
    kfree t.1

/-- Free user memory pages, then page-table pages. -/
def uvmfree (pt : PageTable) (sz : ℕ) : VmM Unit := do
  let pt ← if 0 < sz then uvmunmap pt 0 (pgroundup sz / PGSIZE) true else pure pt
  freewalk 2 pt

/-- One round of the loop of `uvmcopy`, for the page at `a`: share the page of
`old` with `new`, taking write permission from both. -/
def uvmcopyPage (old new : PageTable) (a : ℕ) : VmM (Bool × PageTable × PageTable) := do
  let (found, old) ← walk old a false
  if !found then pure (true, old, new)
  else
    let pte ← readSlot old a
    if !pte.has PTE_V then pure (true, old, new)
    else
      let pa := pte2pa pte
      let (old, flags) :=
        if pte.has PTE_W then (setSlot old a (sharePte pte), pteFlags (sharePte pte))
        else (old, pteFlags pte)
      let (ok, new) ← mappages new a PGSIZE pa flags
      if !ok then pure (false, old, new)
      else
        incRefcnt pa
        pure (true, old, new)

def uvmcopyLoop : (n : ℕ) → PageTable → PageTable → ℕ → VmM (Bool × PageTable × PageTable)
  | 0, old, new, _ => pure (true, old, new)
  | n + 1, old, new, i => do
    let (ok, old, new) ← uvmcopyPage old new i
    if ok then uvmcopyLoop n old new (i + PGSIZE)
    else
      let new ← uvmunmap new 0 (i / PGSIZE) true
      pure (false, old, new)

/-- Given a parent's page table, share its memory with a child's page table. -/
def uvmcopy (old new : PageTable) (sz : ℕ) : VmM (Bool × PageTable × PageTable) :=
  uvmcopyLoop (pagesBetween 0 sz) old new 0

/-- Mark an entry invalid for user access. -/
def uvmclear (pt : PageTable) (va : ℕ) : VmM PageTable := do
  let (found, pt) ← walk pt va false
  if !found then throw .uvmclear
  else
    let pte ← readSlot pt va
    pure (setSlot pt va (clearUserPte pte))

def ismapped (pt : PageTable) (va : ℕ) : VmM Bool := do
  let (found, _) ← walk pt va false
  if !found then pure false
  else
    let pte ← readSlot pt va
    pure (pte.has PTE_V)

/-- Allocate and map user memory for a page that was lazily allocated, or copy
a copy-on-write page that is being written.  `sz` is `myproc()->sz`. -/
def vmfault (pt : PageTable) (sz va : ℕ) (read : Bool) : VmM (Option ℕ × PageTable) :=
  if sz ≤ va then pure (none, pt)
  else do
    let va := pgrounddown va
    let mapped ← ismapped pt va
    if !mapped then do
      match ← kalloc with
      | none => pure (none, pt)
      | some mem =>
        setMem (memset mem 0 PGSIZE)
        let (ok, pt) ← mappages pt va PGSIZE mem (PTE_W ||| PTE_U ||| PTE_R)
        if !ok then
          kfree mem
          pure (none, pt)
        else pure (some mem, pt)
    else
      let (_, pt) ← walk pt va false
      let pte ← readSlot pt va
      let pa := pte2pa pte
      if !read && pte.has PTE_COW then do
        match ← kalloc with
        | none => pure (none, pt)
        | some mem =>
          setMem (fun m => memmove mem (fun i => m (pa + i)) PGSIZE m)
          let pt := setSlot pt va (copiedPte mem pte)
          kfree pa
          pure (some mem, pt)
      else pure (none, pt)

/-- How many of `len` bytes at `va` lie on the page of `va`. -/
def chunk (va len : ℕ) : ℕ := min (PGSIZE - (va - pgrounddown va)) len

/-- How `copyin` and `copyout` find the page of `va0`: by `walkaddr`, and by
`vmfault` when that returns 0. -/
def faultIn (pt : PageTable) (sz va0 : ℕ) : VmM (Option ℕ × PageTable) := do
  match ← walkaddr pt va0 with
  | some pa0 => pure (some pa0, pt)
  | none => vmfault pt sz va0 false

/-- The second lookup of `copyout`: a copy-on-write page is copied first. -/
def breakCow (pt : PageTable) (sz va0 pa0 : ℕ) : VmM (Option ℕ × PageTable) := do
  let pte ← readSlot pt va0
  if pte.has PTE_COW then vmfault pt sz va0 false else pure (some pa0, pt)

/-- The loop of `copyout`; `fuel` bounds the rounds, each of which copies at
least one byte. -/
def copyoutLoop (sz : ℕ) : (fuel : ℕ) → PageTable → ℕ → List UInt8 → VmM (Bool × PageTable)
  | 0, pt, _, _ => pure (true, pt)
  | fuel + 1, pt, dstva, src =>
    if src.length = 0 then pure (true, pt)
    else if MAXVA ≤ pgrounddown dstva then pure (false, pt)
    else do
      let va0 := pgrounddown dstva
      let (pa0, pt) ← faultIn pt sz va0
      match pa0 with
      | none => pure (false, pt)
      | some pa0 =>
        let (pa0, pt) ← breakCow pt sz va0 pa0
        match pa0 with
        | none => pure (false, pt)
        | some pa0 =>
          let pte ← readSlot pt va0
          if !pte.has PTE_W then pure (false, pt)
          else do
            let n := chunk dstva src.length
            setMem (memmove (pa0 + (dstva - va0)) (fun i => src.getD i 0) n)
            copyoutLoop sz fuel pt (va0 + PGSIZE) (src.drop n)

/-- Copy the bytes `src` from the kernel to user address `dstva`. -/
def copyout (pt : PageTable) (sz dstva : ℕ) (src : List UInt8) : VmM (Bool × PageTable) :=
  copyoutLoop sz src.length pt dstva src

/-- The bytes of physical memory from `a` to `a + n`. -/
def readMem (a n : ℕ) : VmM (List UInt8) :=
  fun k => .ok ((List.range n).map fun i => k.mem (a + i), k)

/-- The loop of `copyin`; the result has the bytes copied so far. -/
def copyinLoop (sz : ℕ) :
    (fuel : ℕ) → PageTable → ℕ → ℕ → VmM (Bool × List UInt8 × PageTable)
  | 0, pt, _, _ => pure (true, [], pt)
  | fuel + 1, pt, srcva, len =>
    if len = 0 then pure (true, [], pt)
    else do
      let va0 := pgrounddown srcva
      let (pa0, pt) ← faultIn pt sz va0
      match pa0 with
      | none => pure (false, [], pt)
      | some pa0 =>
        let n := chunk srcva len
        let bytes ← readMem (pa0 + (srcva - va0)) n
        let (ok, rest, pt) ← copyinLoop sz fuel pt (u64 (va0 + PGSIZE)) (len - n)
        pure (ok, bytes ++ rest, pt)

/-- Copy `len` bytes from user address `srcva` to the kernel. -/
def copyin (pt : PageTable) (sz srcva len : ℕ) : VmM (Bool × List UInt8 × PageTable) :=
  copyinLoop sz len pt srcva len

/-- The loop of `copyinstr`: whether it has found a null byte, and the bytes it has stored.
A page that is not mapped ends it; `vmfault` is not called. -/
def copyinstrLoop : (fuel : ℕ) → PageTable → ℕ → ℕ → VmM (Bool × List UInt8)
  | 0, _, _, _ => pure (false, [])
  | fuel + 1, pt, srcva, max =>
    if max = 0 then pure (false, [])
    else do
      let va0 := pgrounddown srcva
      match ← walkaddr pt va0 with
      | none => pure (false, [])
      | some pa0 =>
        let n := chunk srcva max
        let bytes ← readMem (pa0 + (srcva - va0)) n
        let str := bytes.takeWhile (· != 0)
        if str.length < n then pure (true, str ++ [0])
        else do
          let (gotNull, rest) ← copyinstrLoop fuel pt (u64 (va0 + PGSIZE)) (max - n)
          pure (gotNull, str ++ rest)

/-- Copy a null-terminated string of at most `max` bytes from the user. -/
def copyinstr (pt : PageTable) (srcva max : ℕ) : VmM (Bool × List UInt8) :=
  copyinstrLoop max pt srcva max

end Xv6.Vm
