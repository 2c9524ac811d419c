import Xv6.Disk.Block
import Mathlib.Data.Nat.Bitwise

/-! # The file system on disk

The super block, and the inodes, bitmap bits and directory entries as bytes of
blocks (fs.h).
-/
namespace Xv6.Disk.Block

/-- Half word `k` of `(ushort *)data`. -/
def ushort (b : Block) (k : ℕ) : ℕ := (b.byte (2 * k)).toNat + 256 * (b.byte (2 * k + 1)).toNat

/-! ## Words of a moved range -/

section Move
variable (b : Block) {off n k : ℕ} {src : ℕ → UInt8}

theorem uint_move_of_disjoint (hk : 4 * k + 3 < BSIZE) (h : 4 * k + 4 ≤ off ∨ off + n ≤ 4 * k) :
    (b.move off src n).uint k = b.uint k := by
  simp only [uint]
  rw [byte_move _ _ _ _ _ (by omega), byte_move _ _ _ _ _ (by omega),
    byte_move _ _ _ _ _ (by omega), byte_move _ _ _ _ _ hk,
    if_neg (by omega), if_neg (by omega), if_neg (by omega), if_neg (by omega)]

theorem uint_move_inside (hk : 4 * k + 3 < BSIZE) (h : off ≤ 4 * k ∧ 4 * k + 4 ≤ off + n) :
    (b.move off src n).uint k =
      (src (4 * k - off)).toNat + 256 * (src (4 * k - off + 1)).toNat +
        65536 * (src (4 * k - off + 2)).toNat + 16777216 * (src (4 * k - off + 3)).toNat := by
  simp only [uint]
  rw [byte_move _ _ _ _ _ (by omega), byte_move _ _ _ _ _ (by omega),
    byte_move _ _ _ _ _ (by omega), byte_move _ _ _ _ _ hk,
    if_pos (by omega), if_pos (by omega), if_pos (by omega), if_pos (by omega),
    Nat.sub_add_comm h.1, Nat.sub_add_comm h.1, Nat.sub_add_comm h.1]

theorem ushort_move_of_disjoint (hk : 2 * k + 1 < BSIZE) (h : 2 * k + 2 ≤ off ∨ off + n ≤ 2 * k) :
    (b.move off src n).ushort k = b.ushort k := by
  simp only [ushort]
  rw [byte_move _ _ _ _ _ (by omega), byte_move _ _ _ _ _ hk,
    if_neg (by omega), if_neg (by omega)]

theorem ushort_move_inside (hk : 2 * k + 1 < BSIZE) (h : off ≤ 2 * k ∧ 2 * k + 2 ≤ off + n) :
    (b.move off src n).ushort k =
      (src (2 * k - off)).toNat + 256 * (src (2 * k - off + 1)).toNat := by
  simp only [ushort]
  rw [byte_move _ _ _ _ _ (by omega), byte_move _ _ _ _ _ hk,
    if_pos (by omega), if_pos (by omega), Nat.sub_add_comm h.1]

end Move

theorem uintByte_sum {v : ℕ} (hv : v < 2 ^ 32) :
    (uintByte v 0).toNat + 256 * (uintByte v 1).toNat + 65536 * (uintByte v 2).toNat +
      16777216 * (uintByte v 3).toNat = v := by
  simp only [uintByte, UInt8.toNat_ofNat']
  norm_num
  omega

theorem uintByte_sum_short {v : ℕ} (hv : v < 2 ^ 16) :
    (uintByte v 0).toNat + 256 * (uintByte v 1).toNat = v := by
  simp only [uintByte, UInt8.toNat_ofNat']
  norm_num
  omega

/-! ## Bits -/

/-- Is bit `bi` set: `data[bi/8] & (1 << (bi % 8))`. -/
def bit (b : Block) (bi : ℕ) : Bool := (b.byte (bi / 8)).toNat &&& (1 <<< (bi % 8)) != 0

/-- `data[bi/8] |= 1 << (bi % 8)`. -/
def setBit (b : Block) (bi : ℕ) : Block :=
  b.move (bi / 8) (fun _ => UInt8.ofNat ((b.byte (bi / 8)).toNat ||| (1 <<< (bi % 8)))) 1

/-- `data[bi/8] &= ~(1 << (bi % 8))`. -/
def clearBit (b : Block) (bi : ℕ) : Block :=
  b.move (bi / 8) (fun _ => UInt8.ofNat ((b.byte (bi / 8)).toNat &&& (255 ^^^ (1 <<< (bi % 8))))) 1

theorem bit_eq_testBit (b : Block) (bi : ℕ) :
    b.bit bi = (b.byte (bi / 8)).toNat.testBit (bi % 8) := by
  unfold bit
  rw [Nat.shiftLeft_eq, one_mul, Nat.and_two_pow]
  cases (b.byte (bi / 8)).toNat.testBit (bi % 8) <;> simp

theorem bit_move {b : Block} {bi bj v : ℕ} (hbj : bj < BSIZE * 8) (hv : v < 256) :
    (b.move (bi / 8) (fun _ => UInt8.ofNat v) 1).bit bj =
      if bj / 8 = bi / 8 then v.testBit (bj % 8) else b.bit bj := by
  have hlt : bj / 8 < BSIZE := by omega
  rw [bit_eq_testBit, bit_eq_testBit, byte_move _ _ _ _ _ hlt]
  by_cases h : bj / 8 = bi / 8
  · rw [if_pos (by omega), if_pos h, UInt8.toNat_ofNat', Nat.mod_eq_of_lt hv]
  · rw [if_neg (by omega), if_neg h]

theorem bit_setBit {b : Block} {bi bj : ℕ} (hbj : bj < BSIZE * 8) :
    (b.setBit bi).bit bj = (b.bit bj || bj == bi) := by
  have hbyte := (b.byte (bi / 8)).toNat_lt
  have hmask : 1 <<< (bi % 8) < 2 ^ 8 := by
    rw [Nat.shiftLeft_eq, one_mul]
    exact Nat.pow_lt_pow_right (by omega) (by omega)
  rw [setBit, bit_move hbj (Nat.or_lt_two_pow hbyte hmask)]
  by_cases h : bj / 8 = bi / 8
  · rw [if_pos h, Nat.testBit_or, Nat.shiftLeft_eq, one_mul, Nat.testBit_two_pow, bit_eq_testBit, h]
    have heq : decide (bi % 8 = bj % 8) = (bj == bi) := by
      rw [Bool.eq_iff_iff]
      simp only [decide_eq_true_eq, beq_iff_eq]
      omega
    rw [heq]
  · have hne : bj ≠ bi := fun he => h (by rw [he])
    simp [h, hne]

theorem bit_clearBit {b : Block} {bi bj : ℕ} (hbj : bj < BSIZE * 8) :
    (b.clearBit bi).bit bj = (b.bit bj && bj != bi) := by
  have hbyte := (b.byte (bi / 8)).toNat_lt
  rw [clearBit, bit_move hbj (lt_of_le_of_lt Nat.and_le_left hbyte)]
  by_cases h : bj / 8 = bi / 8
  · rw [if_pos h, Nat.testBit_and, Nat.testBit_xor, Nat.shiftLeft_eq, one_mul,
      Nat.testBit_two_pow, bit_eq_testBit, h]
    have hfull : Nat.testBit 255 (bj % 8) = true := by
      have hlt : bj % 8 < 8 := Nat.mod_lt _ (by omega)
      interval_cases bj % 8 <;> rfl
    have heq : (Nat.testBit 255 (bj % 8) ^^ decide (bi % 8 = bj % 8)) = (bj != bi) := by
      rw [hfull, Bool.eq_iff_iff]
      simp only [Bool.true_xor, Bool.not_eq_true', decide_eq_false_iff_not, bne_iff_ne]
      omega
    rw [heq]
  · have hne : bj ≠ bi := fun he => h (by rw [he])
    simp [h, hne]

end Xv6.Disk.Block

namespace Xv6.Fs
open Disk

def ROOTINO : ℕ := 1
def NDIRECT : ℕ := 12
def NINDIRECT : ℕ := BSIZE / 4
def MAXFILE : ℕ := NDIRECT + NINDIRECT
def DIRSIZ : ℕ := 14

def IPB : ℕ := BSIZE / 64

def BPB : ℕ := BSIZE * 8

def T_DIR : BitVec 16 := 1
def T_FILE : BitVec 16 := 2
def T_DEVICE : BitVec 16 := 3

/-- The super block: log, inode blocks, free bit map and data blocks follow each
other, and an inode number fits a directory entry. -/
class Superblock where
  size : ℕ
  nblocks : ℕ
  ninodes : ℕ
  inodestart : ℕ
  bmapstart : ℕ
  inode_lt : inodestart + (ninodes - 1) / IPB < bmapstart
  bmap_lt : bmapstart + (size - 1) / BPB < size - nblocks
  size_le : size ≤ 2 ^ 32
  root_lt : ROOTINO < ninodes
  ninodes_le : ninodes ≤ 2 ^ 16

/-- The first data block. -/
def Superblock.datastart (sb : Superblock) : ℕ := sb.size - sb.nblocks

section
variable [sb : Superblock]

/-- Block containing inode `i`. -/
def IBLOCK (i : ℕ) : ℕ := i / IPB + sb.inodestart

/-- Block of the free map containing the bit for block `b`. -/
def BBLOCK (b : ℕ) : ℕ := b / BPB + sb.bmapstart

end

/-! ## Inodes -/

/-- `struct dinode`. -/
@[ext] structure Dinode where
  type : BitVec 16
  major : BitVec 16
  minor : BitVec 16
  nlink : BitVec 16
  size : ℕ
  addrs : Fin (NDIRECT + 1) → ℕ
  deriving DecidableEq

namespace Dinode

def zero : Dinode := ⟨0, 0, 0, 0, 0, fun _ => 0⟩

/-- Inode `k` of a block of inodes. -/
def read (b : Block) (k : ℕ) : Dinode where
  type := BitVec.ofNat 16 (b.ushort (32 * k))
  major := BitVec.ofNat 16 (b.ushort (32 * k + 1))
  minor := BitVec.ofNat 16 (b.ushort (32 * k + 2))
  nlink := BitVec.ofNat 16 (b.ushort (32 * k + 3))
  size := b.uint (16 * k + 2)
  addrs j := b.uint (16 * k + 3 + j)

/-- The 64 bytes of an inode. -/
def bytes (d : Dinode) (i : ℕ) : UInt8 :=
  if i < 2 then Block.uintByte d.type.toNat i
  else if i < 4 then Block.uintByte d.major.toNat (i - 2)
  else if i < 6 then Block.uintByte d.minor.toNat (i - 4)
  else if i < 8 then Block.uintByte d.nlink.toNat (i - 6)
  else if i < 12 then Block.uintByte d.size (i - 8)
  else Block.uintByte (d.addrs (Fin.ofNat _ ((i - 12) / 4))) ((i - 12) % 4)

/-- Store inode `k` of a block of inodes. -/
def write (b : Block) (k : ℕ) (d : Dinode) : Block := b.move (64 * k) d.bytes 64

/-- The size and the addresses are 32-bit words. -/
structure Fits (d : Dinode) : Prop where
  size_lt : d.size < 2 ^ 32
  addrs_lt : ∀ j, d.addrs j < 2 ^ 32

theorem read_write_self (b : Block) {k : ℕ} {d : Dinode} (hk : k < IPB) (hd : d.Fits) :
    read (write b k d) k = d := by
  have hIPB : IPB = 16 := rfl
  have hB : BSIZE = 1024 := rfl
  have hshort (v : BitVec 16) (w j : ℕ) (hj : j < 4) (hw : w = 32 * k + j)
      (h0 : d.bytes (2 * j) = Block.uintByte v.toNat 0)
      (h1 : d.bytes (2 * j + 1) = Block.uintByte v.toNat 1) :
      BitVec.ofNat 16 ((write b k d).ushort w) = v := by
    rw [write, Block.ushort_move_inside _ (by omega) (by omega),
      show 2 * w - 64 * k = 2 * j by omega, h0, h1, Block.uintByte_sum_short v.isLt,
      BitVec.ofNat_toNat, BitVec.setWidth_eq]
  have hword (v w j : ℕ) (hv : v < 2 ^ 32) (hj : 4 * j + 4 ≤ 64) (hw : w = 16 * k + j)
      (hbyte : ∀ i < 4, d.bytes (4 * j + i) = Block.uintByte v i) :
      (write b k d).uint w = v := by
    rw [write, Block.uint_move_inside _ (by omega) (by omega),
      show 4 * w - 64 * k = 4 * j by omega, hbyte 1 (by omega), hbyte 2 (by omega),
      hbyte 3 (by omega)]
    exact (congrArg (fun x => x.toNat + _ + _ + _) (hbyte 0 (by omega))).trans
      (Block.uintByte_sum hv)
  ext1
  · exact hshort _ _ 0 (by omega) rfl rfl rfl
  · exact hshort _ _ 1 (by omega) rfl rfl rfl
  · exact hshort _ _ 2 (by omega) rfl rfl rfl
  · exact hshort _ _ 3 (by omega) rfl rfl rfl
  · refine hword _ _ 2 hd.size_lt (by omega) rfl fun i hi => ?_
    rw [bytes, if_neg (by omega), if_neg (by omega), if_neg (by omega), if_neg (by omega),
      if_pos (by omega), show 4 * 2 + i - 8 = i by omega]
  · funext j
    have hj : j.val < 13 := j.isLt
    refine hword _ _ (3 + j) (hd.addrs_lt j) (by omega) (by omega) fun i hi => ?_
    rw [bytes, if_neg (by omega), if_neg (by omega), if_neg (by omega), if_neg (by omega),
      if_neg (by omega), show (4 * (3 + j.val) + i - 12) / 4 = j.val by omega,
      show (4 * (3 + j.val) + i - 12) % 4 = i by omega]
    congr
    exact Fin.ofNat_val_eq_self j

theorem read_write_of_ne (b : Block) {k k' : ℕ} {d : Dinode} (hk' : k' < IPB) (hne : k' ≠ k) :
    read (write b k d) k' = read b k' := by
  have hIPB : IPB = 16 := rfl
  have hB : BSIZE = 1024 := rfl
  ext1
  iterate 4
    exact congrArg (BitVec.ofNat 16) (Block.ushort_move_of_disjoint _ (by omega) (by omega))
  · exact Block.uint_move_of_disjoint _ (by omega) (by omega)
  · funext j
    have hj : j.val < 13 := j.isLt
    exact Block.uint_move_of_disjoint _ (by omega) (by omega)

end Dinode

/-! ## Names: string.c

A list stands for the bytes from an address on, with a zero after its end.
-/

/-- `strncmp(p, q, n)`. -/
def strncmp : (n : ℕ) → (p q : List UInt8) → ℤ
  | 0, _, _ => 0
  | n + 1, p, q =>
    if p.headD 0 ≠ 0 ∧ p.headD 0 = q.headD 0 then strncmp n p.tail q.tail
    else (p.headD 0).toNat - (q.headD 0).toNat

/-- The bytes that `strncpy(s, t, n)` stores at `s`. -/
def strncpy : (n : ℕ) → (t : List UInt8) → List UInt8
  | 0, _ => []
  | n + 1, t =>
    if t.headD 0 = 0 then List.replicate (n + 1) 0 else t.headD 0 :: strncpy n t.tail

/-- The bytes before the first zero among the first `n`. -/
def firstChars (n : ℕ) (p : List UInt8) : List UInt8 := (p.take n).takeWhile (· != 0)

theorem firstChars_succ (n : ℕ) (p : List UInt8) :
    firstChars (n + 1) p = if p.headD 0 = 0 then [] else p.headD 0 :: firstChars n p.tail := by
  cases p with
  | nil => simp [firstChars]
  | cons c p =>
    by_cases hc : c = 0
    · simp [firstChars, hc]
    · simp [firstChars, hc]

theorem strncmp_eq_zero_iff (n : ℕ) (p q : List UInt8) :
    strncmp n p q = 0 ↔ firstChars n p = firstChars n q := by
  induction n generalizing p q with
  | zero => simp [strncmp, firstChars]
  | succ n ih =>
    rw [strncmp, firstChars_succ, firstChars_succ]
    by_cases hp : p.headD 0 = 0
    · rw [if_neg (fun h => h.1 hp), if_pos hp, hp]
      by_cases hq : q.headD 0 = 0
      · rw [if_pos hq, hq]
        simp
      · have hq' : (q.headD 0).toNat ≠ 0 := fun h => hq (UInt8.toNat_inj.mp h)
        rw [if_neg hq]
        simp only [UInt8.toNat_zero, reduceCtorEq, iff_false]
        omega
    · rw [if_neg hp]
      by_cases heq : p.headD 0 = q.headD 0
      · rw [if_pos ⟨hp, heq⟩, ih, ← heq, if_neg hp, List.cons.injEq]
        simp
      · rw [if_neg (fun h => heq h.2)]
        have hne : (p.headD 0).toNat ≠ (q.headD 0).toNat := fun h => heq (UInt8.toNat_inj.mp h)
        constructor
        · intro h
          omega
        · intro h
          split at h
          · cases h
          · exact absurd (List.cons.inj h).1 heq

@[simp] theorem length_strncpy (n : ℕ) (t : List UInt8) : (strncpy n t).length = n := by
  induction n generalizing t with
  | zero => rfl
  | succ n ih =>
    rw [strncpy]
    split
    · exact List.length_replicate
    · rw [List.length_cons, ih]

theorem firstChars_strncpy (n : ℕ) (t : List UInt8) :
    firstChars n (strncpy n t) = firstChars n t := by
  induction n generalizing t with
  | zero => simp [firstChars]
  | succ n ih =>
    rw [strncpy, firstChars_succ n t]
    split
    · simp [firstChars, List.replicate_succ]
    · next h => rw [firstChars_succ, List.headD_cons, if_neg h, List.tail_cons, ih]

/-! ## Directory entries -/

/-- `struct dirent`.  The name has `DIRSIZ` bytes and need not contain a zero. -/
structure Dirent where
  inum : ℕ
  name : List UInt8
  deriving DecidableEq

namespace Dirent

/-- The entry in 16 bytes. -/
def ofBytes (l : List UInt8) : Dirent where
  inum := (l.getD 0 0).toNat + 256 * (l.getD 1 0).toNat
  name := (l.drop 2).take DIRSIZ

/-- The 16 bytes of an entry; `inum` is an `ushort`. -/
def toBytes (de : Dirent) : List UInt8 :=
  Block.uintByte de.inum 0 :: Block.uintByte de.inum 1 :: de.name

theorem ofBytes_toBytes {de : Dirent} (hinum : de.inum < 2 ^ 16) (hlen : de.name.length = DIRSIZ) :
    ofBytes de.toBytes = de := by
  cases de
  simp only [ofBytes, toBytes, List.getD_cons_zero, List.getD_cons_succ, List.drop_succ_cons,
    List.drop_zero, mk.injEq]
  exact ⟨Block.uintByte_sum_short hinum, List.take_of_length_le (Nat.le_of_eq hlen)⟩

end Dirent

end Xv6.Fs
