import Mathlib.Tactic

/-! # Sv39 addresses and page-table entries of riscv.h -/
namespace Xv6.Vm

def PGSIZE : ℕ := 4096

/-- `MAXVA` is `1L << (9 + 9 + 9 + 12 - 1)`. -/
def MAXVA : ℕ := 2 ^ 38
def TRAMPOLINE : ℕ := MAXVA - PGSIZE
def TRAPFRAME : ℕ := TRAMPOLINE - PGSIZE
def KERNBASE : ℕ := 0x80000000
def PHYSTOP : ℕ := KERNBASE + 128 * 1024 * 1024

/-- Unsigned 64-bit arithmetic. -/
def u64 (n : ℕ) : ℕ := n % 2 ^ 64

def pgroundup (sz : ℕ) : ℕ := u64 (sz + PGSIZE - 1) / PGSIZE * PGSIZE
def pgrounddown (a : ℕ) : ℕ := a / PGSIZE * PGSIZE

/-- The 9-bit page-table index `PX(level, va)`. -/
def px (va : ℕ) (level : ℕ) : Fin 512 := Fin.ofNat 512 (va / 2 ^ (12 + 9 * level))

abbrev Pte := BitVec 64

def PTE_V : Pte := 1#64 <<< 0
def PTE_R : Pte := 1#64 <<< 1
def PTE_W : Pte := 1#64 <<< 2
def PTE_X : Pte := 1#64 <<< 3
def PTE_U : Pte := 1#64 <<< 4
def PTE_COW : Pte := 1#64 <<< 8

/-- Shift a physical address to the right place for a PTE. -/
def pa2pte (pa : ℕ) : Pte := (BitVec.ofNat 64 pa >>> 12) <<< 10
def pte2pa (pte : Pte) : ℕ := ((pte >>> 10) <<< 12).toNat
def pteFlags (pte : Pte) : Pte := pte &&& 0x3FF#64

namespace Pte

/-- The C test `pte & flag`. -/
def has (pte flag : Pte) : Bool := (pte &&& flag) != 0#64

theorem has_shift (pte : Pte) (k : ℕ) : pte.has (1#64 <<< k) = pte.getLsbD k := by
  have h : pte &&& (1#64 <<< k) = if pte.getLsbD k then BitVec.twoPow 64 k else 0#64 :=
    BitVec.and_twoPow pte k
  unfold has
  rw [h]
  by_cases hk : pte.getLsbD k
  · have hlt : k < 64 := BitVec.lt_of_getLsbD hk
    have hne : BitVec.twoPow 64 k ≠ 0#64 := by
      intro h0
      have := congrArg (fun b : BitVec 64 => b.getLsbD k) h0
      simp [hlt] at this
    simp [hk, hne]
  · simp [hk]

/-! The flag tests as bits of the entry. -/

theorem has_V (pte : Pte) : pte.has PTE_V = pte.getLsbD 0 := has_shift pte 0
theorem has_R (pte : Pte) : pte.has PTE_R = pte.getLsbD 1 := has_shift pte 1
theorem has_W (pte : Pte) : pte.has PTE_W = pte.getLsbD 2 := has_shift pte 2
theorem has_X (pte : Pte) : pte.has PTE_X = pte.getLsbD 3 := has_shift pte 3
theorem has_U (pte : Pte) : pte.has PTE_U = pte.getLsbD 4 := has_shift pte 4
theorem has_COW (pte : Pte) : pte.has PTE_COW = pte.getLsbD 8 := has_shift pte 8

end Pte

theorem getLsbD_one_shift (k j : ℕ) (hk : k < 64) :
    (1#64 <<< k).getLsbD j = decide (j = k) := by
  have h : (1#64 <<< k) = BitVec.twoPow 64 k := rfl
  rw [h, BitVec.getLsbD_twoPow]
  simp [hk, eq_comm]

@[simp] theorem getLsbD_PTE_V (j : ℕ) : PTE_V.getLsbD j = decide (j = 0) :=
  getLsbD_one_shift 0 j (by omega)
@[simp] theorem getLsbD_PTE_R (j : ℕ) : PTE_R.getLsbD j = decide (j = 1) :=
  getLsbD_one_shift 1 j (by omega)
@[simp] theorem getLsbD_PTE_W (j : ℕ) : PTE_W.getLsbD j = decide (j = 2) :=
  getLsbD_one_shift 2 j (by omega)
@[simp] theorem getLsbD_PTE_X (j : ℕ) : PTE_X.getLsbD j = decide (j = 3) :=
  getLsbD_one_shift 3 j (by omega)
@[simp] theorem getLsbD_PTE_U (j : ℕ) : PTE_U.getLsbD j = decide (j = 4) :=
  getLsbD_one_shift 4 j (by omega)
@[simp] theorem getLsbD_PTE_COW (j : ℕ) : PTE_COW.getLsbD j = decide (j = 8) :=
  getLsbD_one_shift 8 j (by omega)

/-- The physical address depends only on the bits above the flags. -/
theorem pte2pa_congr {x y : Pte} (h : ∀ k, 10 ≤ k → x.getLsbD k = y.getLsbD k) :
    pte2pa x = pte2pa y := by
  have hs : x >>> 10 = y >>> 10 := by
    apply BitVec.eq_of_getLsbD_eq
    intro i _
    simp only [BitVec.getLsbD_ushiftRight]
    exact h (10 + i) (by omega)
  rw [pte2pa, pte2pa, hs]

theorem pa2pte_low (pa k : ℕ) (hk : k < 10) : (pa2pte pa).getLsbD k = false := by
  simp only [pa2pte, BitVec.getLsbD_shiftLeft]
  simp [hk]

/-- The low ten bits of `PA2PTE(pa) | flags` are those of `flags`. -/
theorem getLsbD_pa2pte_or (pa : ℕ) (flags : Pte) (k : ℕ) (hk : k < 10) :
    (pa2pte pa ||| flags).getLsbD k = flags.getLsbD k := by
  rw [BitVec.getLsbD_or, pa2pte_low pa k hk, Bool.false_or]

theorem pte2pa_pa2pte (pa : ℕ) (hal : pa % PGSIZE = 0) (hlt : pa < 2 ^ 56) :
    pte2pa (pa2pte pa) = pa := by
  simp only [PGSIZE] at hal
  simp only [pte2pa, pa2pte, BitVec.toNat_shiftLeft, BitVec.toNat_ushiftRight, BitVec.toNat_ofNat,
    Nat.shiftLeft_eq, Nat.shiftRight_eq_div_pow]
  omega

/-- Flags without bits above the tenth do not disturb the address. -/
theorem pte2pa_pa2pte_or (pa : ℕ) (flags : Pte) (hal : pa % PGSIZE = 0) (hlt : pa < 2 ^ 56)
    (hf : ∀ k, 10 ≤ k → flags.getLsbD k = false) : pte2pa (pa2pte pa ||| flags) = pa := by
  rw [pte2pa_congr (y := pa2pte pa), pte2pa_pa2pte pa hal hlt]
  intro k hk
  rw [BitVec.getLsbD_or, hf k hk, Bool.or_false]

theorem getLsbD_pteFlags (pte : Pte) (k : ℕ) :
    (pteFlags pte).getLsbD k = (pte.getLsbD k && decide (k < 10)) := by
  have hmask : (0x3FF#64).getLsbD k = decide (k < 10) := by
    by_cases hk : k < 64
    · have : ∀ k < 64, (0x3FF#64).getLsbD k = decide (k < 10) := by decide
      exact this k hk
    · rw [BitVec.getLsbD_of_ge _ _ (by omega)]
      simp
      omega
  rw [pteFlags, BitVec.getLsbD_and, hmask]

/-! ## The entries the kernel builds -/

/-- What `mappages` stores: `PA2PTE(pa) | perm | PTE_V`. -/
def mapPte (pa : ℕ) (perm : Pte) : Pte := pa2pte pa ||| perm ||| PTE_V

/-- What `uvmcopy` makes of a writable entry: `PTE_W` traded for `PTE_COW`. -/
def sharePte (pte : Pte) : Pte := (pte &&& ~~~PTE_W) ||| PTE_COW

/-- What `vmfault` stores after copying the page to `mem`. -/
def copiedPte (mem : ℕ) (pte : Pte) : Pte :=
  pa2pte mem ||| ((pteFlags pte &&& ~~~PTE_COW) ||| PTE_W)

/-- What `uvmclear` makes of an entry. -/
def clearUserPte (pte : Pte) : Pte := pte &&& ~~~PTE_U

/-- No bits above the ten flag bits. -/
def FlagsOnly (perm : Pte) : Prop := ∀ k, 10 ≤ k → perm.getLsbD k = false

theorem flagsOnly_pteFlags (pte : Pte) : FlagsOnly (pteFlags pte) := by
  intro k hk
  rw [getLsbD_pteFlags]
  simp
  omega

theorem FlagsOnly.or {x y : Pte} (hx : FlagsOnly x) (hy : FlagsOnly y) : FlagsOnly (x ||| y) := by
  intro k hk
  rw [BitVec.getLsbD_or, hx k hk, hy k hk]
  rfl

theorem flagsOnly_one_shift {k : ℕ} (hk : k < 10) : FlagsOnly (1#64 <<< k) := by
  intro j hj
  rw [getLsbD_one_shift k j (by omega)]
  simp
  omega

section
variable {pa : ℕ} {perm pte : Pte}

theorem getLsbD_mapPte {k : ℕ} (hk : k < 10) :
    (mapPte pa perm).getLsbD k = (perm.getLsbD k || decide (k = 0)) := by
  simp [mapPte, BitVec.getLsbD_or, pa2pte_low pa k hk]

theorem pte2pa_mapPte (hal : pa % PGSIZE = 0) (hlt : pa < 2 ^ 56) (hp : FlagsOnly perm) :
    pte2pa (mapPte pa perm) = pa := by
  rw [mapPte, BitVec.or_assoc]
  exact pte2pa_pa2pte_or pa _ hal hlt (hp.or (flagsOnly_one_shift (by omega)))

theorem getLsbD_sharePte {k : ℕ} (hk : k < 64) :
    (sharePte pte).getLsbD k = ((pte.getLsbD k && !decide (k = 2)) || decide (k = 8)) := by
  simp only [sharePte, BitVec.getLsbD_or, BitVec.getLsbD_and, BitVec.getLsbD_not, getLsbD_PTE_W,
    getLsbD_PTE_COW, hk, decide_true, Bool.true_and]

theorem pte2pa_sharePte : pte2pa (sharePte pte) = pte2pa pte := by
  apply pte2pa_congr
  intro k hk
  by_cases h64 : k < 64
  · rw [getLsbD_sharePte h64]
    have h2 : k ≠ 2 := by omega
    have h8 : k ≠ 8 := by omega
    simp [h2, h8]
  · rw [BitVec.getLsbD_of_ge _ _ (by omega), BitVec.getLsbD_of_ge _ _ (by omega)]

theorem getLsbD_copiedPte {k : ℕ} (hk : k < 10) :
    (copiedPte pa pte).getLsbD k = ((pte.getLsbD k && !decide (k = 8)) || decide (k = 2)) := by
  have h64 : k < 64 := by omega
  simp only [copiedPte, BitVec.getLsbD_or, BitVec.getLsbD_and, BitVec.getLsbD_not,
    getLsbD_pteFlags, pa2pte_low pa k hk, getLsbD_PTE_W, getLsbD_PTE_COW, hk, h64, decide_true,
    Bool.true_and, Bool.and_true, Bool.false_or]

theorem pte2pa_copiedPte (hal : pa % PGSIZE = 0) (hlt : pa < 2 ^ 56) :
    pte2pa (copiedPte pa pte) = pa := by
  apply pte2pa_pa2pte_or pa _ hal hlt
  apply FlagsOnly.or
  · intro k hk
    rw [BitVec.getLsbD_and, flagsOnly_pteFlags pte k hk, Bool.false_and]
  · exact flagsOnly_one_shift (by omega)

theorem getLsbD_clearUserPte {k : ℕ} (hk : k < 64) :
    (clearUserPte pte).getLsbD k = (pte.getLsbD k && !decide (k = 4)) := by
  simp only [clearUserPte, BitVec.getLsbD_and, BitVec.getLsbD_not, getLsbD_PTE_U, hk, decide_true,
    Bool.true_and]

theorem pte2pa_clearUserPte : pte2pa (clearUserPte pte) = pte2pa pte := by
  apply pte2pa_congr
  intro k hk
  by_cases h64 : k < 64
  · rw [getLsbD_clearUserPte h64]
    have h4 : k ≠ 4 := by omega
    simp [h4]
  · rw [BitVec.getLsbD_of_ge _ _ (by omega), BitVec.getLsbD_of_ge _ _ (by omega)]

/-! The flags of these entries. -/

@[simp] theorem mapPte_flags :
    (mapPte pa perm).has PTE_V = true ∧ (mapPte pa perm).has PTE_R = perm.has PTE_R ∧
    (mapPte pa perm).has PTE_W = perm.has PTE_W ∧ (mapPte pa perm).has PTE_X = perm.has PTE_X ∧
    (mapPte pa perm).has PTE_U = perm.has PTE_U ∧
    (mapPte pa perm).has PTE_COW = perm.has PTE_COW := by
  simp only [Pte.has_V, Pte.has_R, Pte.has_W, Pte.has_X, Pte.has_U, Pte.has_COW]
  refine ⟨?_, ?_, ?_, ?_, ?_, ?_⟩ <;> rw [getLsbD_mapPte (by omega)] <;> simp

@[simp] theorem sharePte_flags :
    (sharePte pte).has PTE_V = pte.has PTE_V ∧ (sharePte pte).has PTE_R = pte.has PTE_R ∧
    (sharePte pte).has PTE_W = false ∧ (sharePte pte).has PTE_X = pte.has PTE_X ∧
    (sharePte pte).has PTE_U = pte.has PTE_U ∧ (sharePte pte).has PTE_COW = true := by
  simp only [Pte.has_V, Pte.has_R, Pte.has_W, Pte.has_X, Pte.has_U, Pte.has_COW]
  refine ⟨?_, ?_, ?_, ?_, ?_, ?_⟩ <;> rw [getLsbD_sharePte (by omega)] <;> simp

@[simp] theorem copiedPte_flags :
    (copiedPte pa pte).has PTE_V = pte.has PTE_V ∧ (copiedPte pa pte).has PTE_R = pte.has PTE_R ∧
    (copiedPte pa pte).has PTE_W = true ∧ (copiedPte pa pte).has PTE_X = pte.has PTE_X ∧
    (copiedPte pa pte).has PTE_U = pte.has PTE_U ∧ (copiedPte pa pte).has PTE_COW = false := by
  simp only [Pte.has_V, Pte.has_R, Pte.has_W, Pte.has_X, Pte.has_U, Pte.has_COW]
  refine ⟨?_, ?_, ?_, ?_, ?_, ?_⟩ <;> rw [getLsbD_copiedPte (by omega)] <;> simp

@[simp] theorem clearUserPte_flags :
    (clearUserPte pte).has PTE_V = pte.has PTE_V ∧ (clearUserPte pte).has PTE_R = pte.has PTE_R ∧
    (clearUserPte pte).has PTE_W = pte.has PTE_W ∧ (clearUserPte pte).has PTE_X = pte.has PTE_X ∧
    (clearUserPte pte).has PTE_U = false ∧
    (clearUserPte pte).has PTE_COW = pte.has PTE_COW := by
  simp only [Pte.has_V, Pte.has_R, Pte.has_W, Pte.has_X, Pte.has_U, Pte.has_COW]
  refine ⟨?_, ?_, ?_, ?_, ?_, ?_⟩ <;> rw [getLsbD_clearUserPte (by omega)] <;> simp

@[simp] theorem pteFlags_flags :
    (pteFlags pte).has PTE_R = pte.has PTE_R ∧ (pteFlags pte).has PTE_W = pte.has PTE_W ∧
    (pteFlags pte).has PTE_X = pte.has PTE_X ∧ (pteFlags pte).has PTE_U = pte.has PTE_U ∧
    (pteFlags pte).has PTE_COW = pte.has PTE_COW := by
  simp only [Pte.has_R, Pte.has_W, Pte.has_X, Pte.has_U, Pte.has_COW]
  refine ⟨?_, ?_, ?_, ?_, ?_⟩ <;> rw [getLsbD_pteFlags] <;> simp

end

end Xv6.Vm
