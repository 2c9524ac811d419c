import Mathlib.Data.BitVec
import Xv6.Library.Copying
import Xv6.User.Ulib

/-! # Moving bytes

The two versions of `memmove`, in the kernel's string.c and the user's ulib.c.  Pointers are
words of 64 bits and their arithmetic wraps around.
-/
namespace Xv6.Memory

open Library

abbrev Ptr := BitVec 64

abbrev Bytes := Ptr → UInt8

/-- The kernel's version.  Its length is a `uint`. -/
def Kernel.memmove (mem : Bytes) (dst src : Ptr) (n : BitVec 32) : Ptr × Bytes :=
  if n = 0 then (dst, mem)
  else if src < dst ∧ dst < src + n.setWidth 64 then
    (dst, copyDown mem n.toNat (dst + n.setWidth 64) (src + n.setWidth 64))
  else (dst, copyUp mem n.toNat dst src)

/-- The user's version.  Its length is an `int`, and with a negative one no loop runs. -/
def Ulib.memmove (mem : Bytes) (vdst vsrc : Ptr) (n : BitVec 32) : Ptr × Bytes :=
  if vdst < vsrc then (vdst, copyUp mem n.toInt.toNat vdst vsrc)
  else (vdst, copyDown mem n.toInt.toNat (vdst + n.signExtend 64) (vsrc + n.signExtend 64))

def InRange (p : Ptr) (n : ℕ) (a : Ptr) : Prop := p.toNat ≤ a.toNat ∧ a.toNat < p.toNat + n

/-! ## Ranges that do not wrap around -/

section
variable {p q dst src : Ptr} {n i j : ℕ} {mem mem' : Bytes}

theorem toNat_add (h : p.toNat + i < 2 ^ 64) : (p + i).toNat = p.toNat + i := by
  rw [BitVec.natCast_eq_ofNat, BitVec.toNat_add, BitVec.toNat_ofNat, Nat.add_mod_mod,
    Nat.mod_eq_of_lt h]

theorem add_ne_add (hp : p.toNat + i < 2 ^ 64) (hq : q.toNat + j < 2 ^ 64)
    (h : p.toNat + i ≠ q.toNat + j) : p + i ≠ q + j := by
  intro heq
  apply h
  rw [← toNat_add hp, ← toNat_add hq, heq]

theorem distinct_of_bound (h : p.toNat + n ≤ 2 ^ 64) : Distinct p n :=
  fun _ _ hij hj => add_ne_add (by omega) (by omega) (by omega)

theorem not_inRange {a : Ptr} (h : p.toNat + n ≤ 2 ^ 64) (ha : ¬ InRange p n a) (hi : i < n) :
    a ≠ p + i := by
  rintro rfl
  apply ha
  unfold InRange
  rw [toNat_add (by omega)]
  omega

theorem copyUp_ptr (hd : dst.toNat + n ≤ 2 ^ 64) (hs : src.toNat + n ≤ 2 ^ 64)
    (h : dst.toNat ≤ src.toNat ∨ src.toNat + n ≤ dst.toNat) :
    Moved mem (copyUp mem n dst src) dst src n := by
  apply copyUp_moved (distinct_of_bound hd)
  intro i j hij hj
  exact add_ne_add (by omega) (by omega) (by omega)

theorem copyDown_ptr (hd : dst.toNat + n ≤ 2 ^ 64) (hs : src.toNat + n ≤ 2 ^ 64)
    (h : src.toNat ≤ dst.toNat) : Moved mem (copyDown mem n (dst + n) (src + n)) dst src n := by
  apply copyDown_moved (distinct_of_bound hd)
  intro i j hij hj
  exact add_ne_add (by omega) (by omega) (by omega)

end

/-! ## The two versions -/

section
variable (mem : Bytes) (dst src : Ptr) (n : BitVec 32)

theorem setWidth_eq_cast : n.setWidth 64 = (n.toNat : BitVec 64) := by
  apply BitVec.eq_of_toNat_eq
  rw [BitVec.natCast_eq_ofNat, BitVec.toNat_setWidth, BitVec.toNat_ofNat]

variable {n}

theorem msb_of_nonneg (h : 0 ≤ n.toInt) : n.msb = false := by
  by_contra hmsb
  rw [Bool.not_eq_false] at hmsb
  exact absurd (BitVec.toInt_neg_of_msb_true hmsb) (by omega)

theorem signExtend_eq_cast (h : 0 ≤ n.toInt) : n.signExtend 64 = (n.toNat : BitVec 64) := by
  rw [BitVec.signExtend_eq_setWidth_of_msb_false (msb_of_nonneg h), setWidth_eq_cast]

theorem toNat_toInt (h : 0 ≤ n.toInt) : n.toInt.toNat = n.toNat := by
  rw [BitVec.toInt_eq_toNat_of_msb (msb_of_nonneg h), Int.toNat_natCast]

variable {dst src}

/-- In `s + n > d` nothing wraps around: the source starts below `d`. -/
theorem overlap_iff (hd : dst.toNat + n.toNat ≤ 2 ^ 64) :
    (src < dst ∧ dst < src + n.setWidth 64) ↔
      src.toNat < dst.toNat ∧ dst.toNat < src.toNat + n.toNat := by
  rw [BitVec.lt_def]
  refine and_congr_right fun hlt => ?_
  rw [BitVec.lt_def, setWidth_eq_cast, toNat_add (by omega)]

theorem Kernel.memmove_moved (hd : dst.toNat + n.toNat ≤ 2 ^ 64)
    (hs : src.toNat + n.toNat ≤ 2 ^ 64) :
    Moved mem (Kernel.memmove mem dst src n).2 dst src n.toNat := by
  unfold Kernel.memmove
  by_cases hn : n = 0
  · rw [if_pos hn, hn]
    exact Moved.zero mem dst src
  · rw [if_neg hn]
    by_cases hover : src < dst ∧ dst < src + n.setWidth 64
    · rw [if_pos hover, setWidth_eq_cast]
      exact copyDown_ptr hd hs (Nat.le_of_lt ((overlap_iff hd).mp hover).1)
    · rw [if_neg hover]
      rw [overlap_iff hd] at hover
      exact copyUp_ptr hd hs (by omega)

theorem Ulib.memmove_moved (hn : 0 ≤ n.toInt) (hd : dst.toNat + n.toNat ≤ 2 ^ 64)
    (hs : src.toNat + n.toNat ≤ 2 ^ 64) :
    Moved mem (Ulib.memmove mem dst src n).2 dst src n.toNat := by
  unfold Ulib.memmove
  rw [toNat_toInt hn, signExtend_eq_cast hn]
  by_cases hlt : dst < src
  · rw [if_pos hlt]
    exact copyUp_ptr hd hs (Or.inl (Nat.le_of_lt hlt))
  · rw [if_neg hlt]
    exact copyDown_ptr hd hs (Nat.le_of_not_lt hlt)

/-- Where nothing wraps around, addresses may as well be numbers. -/
theorem Ulib.memmove_eq (hn : 0 ≤ n.toInt) (hd : dst.toNat + n.toNat ≤ 2 ^ 64)
    (hs : src.toNat + n.toNat ≤ 2 ^ 64) (a : Ptr) :
    (Ulib.memmove mem dst src n).2 a =
      User.memmove (fun b => mem (BitVec.ofNat 64 b)) dst.toNat src.toNat n.toNat a.toNat := by
  have hmoved := Ulib.memmove_moved mem hn hd hs
  rw [User.memmove_eq, User.moved]
  by_cases ha : dst.toNat ≤ a.toNat ∧ a.toNat < dst.toNat + n.toNat
  · obtain ⟨hlow, hhigh⟩ := ha
    have hat : a = dst + (a.toNat - dst.toNat : ℕ) := by
      apply BitVec.eq_of_toNat_eq
      rw [toNat_add (by omega), Nat.add_sub_cancel' hlow]
    rw [if_pos ⟨hlow, hhigh⟩, BitVec.ofNat_add, BitVec.ofNat_toNat, BitVec.setWidth_eq]
    nth_rewrite 1 [hat]
    exact hmoved.inside _ (by omega)
  · rw [if_neg ha, BitVec.ofNat_toNat, BitVec.setWidth_eq]
    exact hmoved.outside a fun i hi => not_inRange hd ha hi

end

/-! ## Any overlap -/

/-- Both versions move the bytes of a range that does not wrap around, wherever it goes. -/
theorem memmove_any_overlap (mem : Bytes) (dst src : Ptr) (n : BitVec 32)
    (hd : dst.toNat + n.toNat ≤ 2 ^ 64) (hs : src.toNat + n.toNat ≤ 2 ^ 64) :
    ((∀ i < n.toNat, (Kernel.memmove mem dst src n).2 (dst + i) = mem (src + i)) ∧
      (∀ a, ¬ InRange dst n.toNat a → (Kernel.memmove mem dst src n).2 a = mem a) ∧
      (Kernel.memmove mem dst src n).1 = dst) ∧
    (0 ≤ n.toInt →
      (∀ i < n.toNat, (Ulib.memmove mem dst src n).2 (dst + i) = mem (src + i)) ∧
      (∀ a, ¬ InRange dst n.toNat a → (Ulib.memmove mem dst src n).2 a = mem a) ∧
      (Ulib.memmove mem dst src n).1 = dst) := by
  refine ⟨?_, fun hn => ?_⟩
  · have hmoved := Kernel.memmove_moved mem hd hs
    refine ⟨hmoved.inside, fun a ha => hmoved.outside a fun i hi => not_inRange hd ha hi, ?_⟩
    unfold Kernel.memmove
    split_ifs <;> rfl
  · have hmoved := Ulib.memmove_moved mem hn hd hs
    refine ⟨hmoved.inside, fun a ha => hmoved.outside a fun i hi => not_inRange hd ha hi, ?_⟩
    unfold Ulib.memmove
    split_ifs <;> rfl

/-- Three bytes go one place up, to the end of the address space. -/
theorem memmove_at_top :
    (Kernel.memmove (fun a => UInt8.ofNat a.toNat) (-3) (-4) 3).2 (-1) = UInt8.ofNat (2 ^ 64 - 2) ∧
      (Ulib.memmove (fun a => UInt8.ofNat a.toNat) (-3) (-4) 3).2 (-1) = UInt8.ofNat (2 ^ 64 - 2) := by
  have h := memmove_any_overlap (fun a => UInt8.ofNat a.toNat) (-3) (-4) 3 (by decide) (by decide)
  exact ⟨h.1.1 2 (by decide), (h.2 (by decide)).1 2 (by decide)⟩

end Xv6.Memory
