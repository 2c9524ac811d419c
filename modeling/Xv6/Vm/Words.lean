import Xv6.Vm.Exec

/-! # 64-bit words in memory

Eight bytes, least significant first.
-/
namespace Xv6.Vm

theorem leNat_cons (b : UInt8) (bytes : List UInt8) :
    leNat (b :: bytes) = b.toNat + 256 * leNat bytes := rfl

/-- The digits of a number in base 256 add up to the number. -/
theorem leNat_digits (k n : ℕ) :
    leNat ((List.range k).map fun i => UInt8.ofNat (n / 256 ^ i)) = n % 256 ^ k := by
  induction k generalizing n with
  | zero => simp [leNat, Nat.mod_one]
  | succ k ih =>
    have hrest : (List.range k).map ((fun i => UInt8.ofNat (n / 256 ^ i)) ∘ Nat.succ) =
        (List.range k).map fun i => UInt8.ofNat (n / 256 / 256 ^ i) := by
      apply List.map_congr_left
      intro i _
      rw [Function.comp_apply, Nat.succ_eq_add_one, Nat.pow_succ', Nat.div_div_eq_div_mul]
    have hpow : 256 ^ (k + 1) = 256 * 256 ^ k := Nat.pow_succ'
    rw [List.range_succ_eq_map, List.map_cons, List.map_map, hrest, leNat_cons, ih, pow_zero,
      Nat.div_one, UInt8.toNat_ofNat', hpow, Nat.mod_mul]

theorem leNat_uint64Bytes (n : ℕ) : leNat (uint64Bytes n) = n % 2 ^ 64 := leNat_digits 8 n

theorem length_uint64Bytes (n : ℕ) : (uint64Bytes n).length = 8 := by simp [uint64Bytes]

/-- The word at address `a`. -/
def wordAt (mem : ℕ → UInt8) (a : ℕ) : Pte :=
  BitVec.ofNat 64 (leNat ((List.range 8).map fun i => mem (a + i)))

/-- Store a word at address `a`. -/
def setWord (a : ℕ) (w : Pte) : (ℕ → UInt8) → ℕ → UInt8 :=
  memmove a (fun i => UInt8.ofNat (w.toNat / 256 ^ i)) 8

variable {mem mem' : ℕ → UInt8} {a b : ℕ}

theorem wordAt_congr (h : ∀ i < 8, mem' (a + i) = mem (a + i)) : wordAt mem' a = wordAt mem a := by
  rw [wordAt, wordAt]
  congr 2
  apply List.map_congr_left
  intro i hi
  exact h i (List.mem_range.mp hi)

theorem setWord_outside (w : Pte) (mem : ℕ → UInt8) {x : ℕ} (h : x < a ∨ a + 8 ≤ x) :
    setWord a w mem x = mem x := by
  rw [setWord, memmove, if_neg (by omega)]

@[simp] theorem wordAt_setWord_self (w : Pte) (mem : ℕ → UInt8) :
    wordAt (setWord a w mem) a = w := by
  have hbytes : (List.range 8).map (fun i => setWord a w mem (a + i)) =
      (List.range 8).map fun i => UInt8.ofNat (w.toNat / 256 ^ i) := by
    apply List.map_congr_left
    intro i hi
    exact memmove_inside a _ mem (List.mem_range.mp hi)
  rw [wordAt, hbytes, leNat_digits]
  apply BitVec.eq_of_toNat_eq
  rw [BitVec.toNat_ofNat]
  have := w.isLt
  omega

theorem wordAt_setWord_of_disjoint (w : Pte) (mem : ℕ → UInt8) (h : b + 8 ≤ a ∨ a + 8 ≤ b) :
    wordAt (setWord a w mem) b = wordAt mem b :=
  wordAt_congr fun _ hi => setWord_outside w mem (by omega)

theorem wordAt_zero (h : ∀ i < 8, mem (a + i) = 0) : wordAt mem a = 0 := by
  have hbytes : (List.range 8).map (fun i => mem (a + i)) = (List.range 8).map fun _ => 0 :=
    List.map_congr_left fun i hi => h i (List.mem_range.mp hi)
  rw [wordAt, hbytes]
  rfl

end Xv6.Vm
