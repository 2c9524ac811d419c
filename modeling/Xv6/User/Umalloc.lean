import Xv6.Library.Segments

/-! # The user heap

`malloc` and `free` of umalloc.c on the headers in memory.  Addresses are numbers of bytes, the size
fields are 32 bits wide.  A loop is given fuel, and has no result when it runs out.
-/
namespace Xv6.User
open Library

def HEADER : ℕ := 16

/-- The least that `morecore` asks for, in units. -/
def MINUNITS : ℕ := 4096

/-- The variables of the allocator and the headers in memory. -/
structure Heap (σ : Type) where
  /-- `s.ptr` of the header at an address. -/
  ptr : ℕ → ℕ
  /-- `s.size` of the header at an address. -/
  size : ℕ → ℕ
  freep : ℕ
  /-- What `sbrk` works on. -/
  env : σ
  /-- The regions that `morecore` has got. -/
  obtained : List Segment

namespace Heap

variable {σ ι : Type}

@[simps]
def setPtr (h : Heap σ) (p q : ℕ) : Heap σ := { h with ptr := Function.update h.ptr p q }

@[simps]
def setSize (h : Heap σ) (p n : ℕ) : Heap σ := { h with size := Function.update h.size p n }

/-! ## free -/

/-- The loop of `free`, which ends at the block that `bp` comes after. -/
def freeSearch (h : Heap σ) (bp : ℕ) : ℕ → ℕ → Option ℕ
  | 0, _ => none
  | fuel + 1, p =>
    if p < bp ∧ bp < h.ptr p then some p
    else if h.ptr p ≤ p ∧ (p < bp ∨ bp < h.ptr p) then some p
    else h.freeSearch bp fuel (h.ptr p)

def joinUpper (h : Heap σ) (bp p : ℕ) : Heap σ :=
  if bp + HEADER * h.size bp = h.ptr p then
    (h.setSize bp ((h.size bp + h.size (h.ptr p)) % 2 ^ 32)).setPtr bp (h.ptr (h.ptr p))
  else h.setPtr bp (h.ptr p)

def joinLower (h : Heap σ) (bp p : ℕ) : Heap σ :=
  if p + HEADER * h.size p = bp then
    (h.setSize p ((h.size p + h.size bp) % 2 ^ 32)).setPtr p (h.ptr bp)
  else h.setPtr p bp

def free (ap fuel : ℕ) (h : Heap σ) : Option (Heap σ) :=
  let bp := ap - HEADER
  (h.freeSearch bp fuel h.freep).map fun p =>
    { (h.joinUpper bp p).joinLower bp p with freep := p }

/-! ## malloc -/

section
variable (sbrk : ℤ → σ → Option ℕ × σ)

/-- The argument of `sbrk` is an `int`. -/
def sbrkArg (nu : ℕ) : ℤ := Int.bmod (nu * HEADER : ℕ) (2 ^ 32)

/-- The units that `morecore` asks for. -/
def coreUnits (nu : ℕ) : ℕ := if nu < MINUNITS then MINUNITS else nu

def morecore (nu fuel : ℕ) (h : Heap σ) : Option (ℕ × Heap σ) :=
  let nu := coreUnits nu
  match sbrk (sbrkArg nu) h.env with
  | (none, env) => some (0, { h with env := env })
  | (some hp, env) =>
    let h := { h with env := env, obtained := ⟨hp, HEADER * nu⟩ :: h.obtained }.setSize hp nu
    (h.free (hp + HEADER) fuel).map fun h => (h.freep, h)

/-- The block is unlinked, or its end is cut off. -/
def take (nunits prevp p : ℕ) (h : Heap σ) : ℕ × Heap σ :=
  if h.size p = nunits then (p + HEADER, { h.setPtr prevp (h.ptr p) with freep := prevp })
  else
    let rest := h.size p - nunits
    let q := p + HEADER * rest
    (q + HEADER, { (h.setSize p rest).setSize q nunits with freep := prevp })

def mallocLoop (nunits : ℕ) : ℕ → ℕ → ℕ → Heap σ → Option (ℕ × Heap σ)
  | 0, _, _, _ => none
  | fuel + 1, prevp, p, h =>
    if nunits ≤ h.size p then some (h.take nunits prevp p)
    else if p = h.freep then
      (h.morecore sbrk nunits fuel).bind fun r =>
        if r.1 = 0 then some (0, r.2) else mallocLoop nunits fuel r.1 (r.2.ptr r.1) r.2
    else mallocLoop nunits fuel p (h.ptr p) h

def nunits (nbytes : UInt32) : ℕ := ((nbytes.toNat + HEADER - 1) / HEADER + 1) % 2 ^ 32

/-- The list before the first call is empty: `base` points to itself. -/
def init (base : ℕ) (h : Heap σ) : Heap σ :=
  if h.freep = 0 then { (h.setPtr base base).setSize base 0 with freep := base } else h

@[simp] theorem init_env (base : ℕ) (h : Heap σ) : (h.init base).env = h.env := by
  unfold init
  split <;> rfl

@[simp] theorem init_obtained (base : ℕ) (h : Heap σ) : (h.init base).obtained = h.obtained := by
  unfold init
  split <;> rfl

def malloc (base : ℕ) (nbytes : UInt32) (fuel : ℕ) (h : Heap σ) : Option (ℕ × Heap σ) :=
  let h := h.init base
  mallocLoop sbrk (nunits nbytes) fuel h.freep (h.ptr h.freep) h

end

/-! ## A loop that has ended does not need more fuel -/

theorem freeSearch_mono {h : Heap σ} {bp p q fuel : ℕ} (hrun : h.freeSearch bp fuel p = some q)
    (k : ℕ) : h.freeSearch bp (fuel + k) p = some q := by
  induction fuel generalizing p with
  | zero => cases hrun
  | succ fuel ih =>
    rw [Nat.add_right_comm]
    unfold freeSearch at hrun ⊢
    split
    · rename_i hfirst
      rwa [if_pos hfirst] at hrun
    · rename_i hfirst
      rw [if_neg hfirst] at hrun
      split
      · rename_i hsecond
        rwa [if_pos hsecond] at hrun
      · rename_i hsecond
        rw [if_neg hsecond] at hrun
        exact ih hrun

theorem free_mono {h h' : Heap σ} {ap fuel : ℕ} (hrun : h.free ap fuel = some h') (k : ℕ) :
    h.free ap (fuel + k) = some h' := by
  obtain ⟨p, hp, heq⟩ := Option.map_eq_some_iff.mp hrun
  exact Option.map_eq_some_iff.mpr ⟨p, freeSearch_mono hp k, heq⟩

theorem morecore_mono {sbrk : ℤ → σ → Option ℕ × σ} {h : Heap σ} {nu fuel : ℕ} {r : ℕ × Heap σ}
    (hrun : h.morecore sbrk nu fuel = some r) (k : ℕ) :
    h.morecore sbrk nu (fuel + k) = some r := by
  unfold morecore at hrun ⊢
  dsimp only at hrun ⊢
  cases hs : sbrk (sbrkArg (coreUnits nu)) h.env with
  | mk got env =>
    rw [hs] at hrun
    cases got with
    | none => exact hrun
    | some hp =>
      obtain ⟨h', hfree, heq⟩ := Option.map_eq_some_iff.mp hrun
      exact Option.map_eq_some_iff.mpr ⟨h', free_mono hfree k, heq⟩

theorem mallocLoop_mono {sbrk : ℤ → σ → Option ℕ × σ} {h : Heap σ} {n fuel prevp p : ℕ}
    {r : ℕ × Heap σ} (hrun : mallocLoop sbrk n fuel prevp p h = some r) (k : ℕ) :
    mallocLoop sbrk n (fuel + k) prevp p h = some r := by
  induction fuel generalizing prevp p h with
  | zero => cases hrun
  | succ fuel ih =>
    rw [Nat.add_right_comm]
    unfold mallocLoop at hrun ⊢
    split
    · rename_i hfit
      rwa [if_pos hfit] at hrun
    · rename_i hfit
      rw [if_neg hfit] at hrun
      split
      · rename_i hback
        rw [if_pos hback] at hrun
        obtain ⟨c, hcore, hrest⟩ := Option.bind_eq_some_iff.mp hrun
        refine Option.bind_eq_some_iff.mpr ⟨c, morecore_mono hcore k, ?_⟩
        split
        · rename_i hzero
          rwa [if_pos hzero] at hrest
        · rename_i hzero
          rw [if_neg hzero] at hrest
          exact ih hrest
      · rename_i hback
        rw [if_neg hback] at hrun
        exact ih hrun

end Heap

end Xv6.User
