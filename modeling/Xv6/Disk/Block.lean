import Mathlib.Tactic

/-! # Disk blocks and the words stored in them

A block is the `BSIZE` bytes of `struct buf`'s `data`.  The kernel reads and
writes it as bytes and, through casts, as an array of 32-bit little-endian
words.
-/
namespace Xv6.Disk

def BSIZE : ℕ := 1024

abbrev Block := Fin BSIZE → UInt8

namespace Block

/-- Byte `i` of the block; only offsets below `BSIZE` are ever used. -/
def byte (b : Block) (i : ℕ) : UInt8 := if h : i < BSIZE then b ⟨i, h⟩ else 0

/-- `memmove(b + off, src, n)` restricted to the block. -/
def move (b : Block) (off : ℕ) (src : ℕ → UInt8) (n : ℕ) : Block :=
  fun i => if off ≤ i.val ∧ i.val < off + n then src (i.val - off) else b i

def zero : Block := fun _ => 0

theorem byte_move (b : Block) (off n i : ℕ) (src : ℕ → UInt8) (hi : i < BSIZE) :
    (b.move off src n).byte i =
      if off ≤ i ∧ i < off + n then src (i - off) else b.byte i := by
  simp [byte, move, hi]

@[simp] theorem byte_zero (i : ℕ) : zero.byte i = 0 := by
  simp [byte, zero]

theorem ext_byte {a b : Block} (h : ∀ i < BSIZE, a.byte i = b.byte i) : a = b := by
  funext i
  simpa [byte, i.isLt] using h i.val i.isLt

/-- Word `k` of `(uint *)data`. -/
def uint (b : Block) (k : ℕ) : ℕ :=
  (b.byte (4 * k)).toNat + 256 * (b.byte (4 * k + 1)).toNat +
    65536 * (b.byte (4 * k + 2)).toNat + 16777216 * (b.byte (4 * k + 3)).toNat

/-- The four bytes of a 32-bit word, low byte first. -/
def uintByte (v : ℕ) (i : ℕ) : UInt8 := UInt8.ofNat (v / 256 ^ i)

def setUint (b : Block) (k v : ℕ) : Block := b.move (4 * k) (uintByte v) 4

theorem uint_setUint_self (b : Block) (k v : ℕ) (hk : 4 * k + 3 < BSIZE) (hv : v < 2 ^ 32) :
    (b.setUint k v).uint k = v := by
  simp only [uint, setUint]
  rw [byte_move _ _ _ _ _ (by omega), byte_move _ _ _ _ _ (by omega),
    byte_move _ _ _ _ _ (by omega), byte_move _ _ _ _ _ hk]
  simp only [uintByte, le_refl, Nat.le_add_right, Nat.add_lt_add_iff_left, true_and,
    Nat.sub_self, Nat.add_sub_cancel_left]
  norm_num
  omega

theorem uint_setUint_of_ne (b : Block) {k j : ℕ} (v : ℕ) (hj : 4 * j + 3 < BSIZE)
    (hne : j ≠ k) : (b.setUint k v).uint j = b.uint j := by
  simp only [uint, setUint]
  rw [byte_move _ _ _ _ _ (by omega), byte_move _ _ _ _ _ (by omega),
    byte_move _ _ _ _ _ (by omega), byte_move _ _ _ _ _ hj]
  rw [if_neg (by omega), if_neg (by omega), if_neg (by omega), if_neg (by omega)]

@[simp] theorem uint_zero (k : ℕ) : zero.uint k = 0 := by
  simp [uint]

end Block

/-- A 32-bit word read as a C `int`. -/
def asInt (w : ℕ) : ℤ := if w < 2 ^ 31 then (w : ℤ) else (w : ℤ) - 2 ^ 32

/-- The 32-bit word that stores a C `int`. -/
def ofInt (n : ℤ) : ℕ := (n % 2 ^ 32).toNat

theorem ofInt_lt (n : ℤ) : ofInt n < 2 ^ 32 := by
  unfold ofInt
  omega

theorem asInt_ofInt (n : ℤ) (hlo : -2 ^ 31 ≤ n) (hhi : n < 2 ^ 31) : asInt (ofInt n) = n := by
  unfold asInt ofInt
  split <;> omega

end Xv6.Disk
