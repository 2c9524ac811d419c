import Mathlib.Tactic

/-! # Ring buffers with counters that wrap around

A stream is written into a ring of slots, element by element, each at its
position modulo the capacity.  The positions are kept in fixed-width counters;
as long as the capacity divides the range of the counters and the ring is never
overfull, the wrap-around does not show.
-/
namespace Xv6.Library.RingBuffer

variable {α : Type*} {cap w : ℕ}

section Slots

variable [NeZero cap]

/-- The slots hold the elements of a stream from position `lo` on. -/
def Holds (slot : Fin cap → α) (stream : List α) (lo : ℕ) : Prop :=
  ∀ j, lo ≤ j → ∀ hj : j < stream.length, slot (Fin.ofNat cap j) = stream[j]

variable {slot : Fin cap → α} {stream : List α} {lo : ℕ}

theorem ofNat_ne {i j : ℕ} (hij : i < j) (hj : j < i + cap) :
    Fin.ofNat cap i ≠ Fin.ofNat cap j := by
  intro h
  have hmod : j ≡ i [MOD cap] := (congrArg Fin.val h).symm
  have hdvd : cap ∣ j - i := (Nat.modEq_iff_dvd' hij.le).1 hmod.symm
  have := Nat.le_of_dvd (by omega) hdvd
  omega

theorem Holds.push (h : Holds slot stream lo) (hroom : stream.length < lo + cap) (b : α) :
    Holds (Function.update slot (Fin.ofNat cap stream.length) b) (stream ++ [b]) lo := by
  intro j hlo hj
  rw [List.length_append, List.length_singleton] at hj
  by_cases hlast : j = stream.length
  · subst hlast
    simp
  · have hlt : j < stream.length := by omega
    rw [Function.update_of_ne (ofNat_ne hlt (by omega)), List.getElem_append_left hlt]
    exact h j hlo hlt

theorem Holds.pop (h : Holds slot stream lo) : Holds slot stream (lo + 1) :=
  fun j hlo hj => h j (by omega) hj

/-- The end of the stream is taken back. -/
theorem Holds.of_append {more : List α} (h : Holds slot (stream ++ more) lo) :
    Holds slot stream lo := by
  intro j hlo hj
  have hlt : j < (stream ++ more).length := by
    rw [List.length_append]
    omega
  rw [h j hlo hlt, List.getElem_append_left hj]

end Slots

section Counters

theorem toNat_mod (hdvd : cap ∣ 2 ^ w) (a : ℕ) : (BitVec.ofNat w a).toNat % cap = a % cap := by
  rw [BitVec.toNat_ofNat]
  exact Nat.mod_mod_of_dvd a hdvd

theorem sub_toNat {a b : ℕ} (hab : a ≤ b) (hlt : b - a < 2 ^ w) :
    (BitVec.ofNat w b - BitVec.ofNat w a).toNat = b - a := by
  have heq : BitVec.ofNat w b = BitVec.ofNat w a + BitVec.ofNat w (b - a) := by
    rw [← BitVec.ofNat_add]
    congr 1
    omega
  rw [heq, BitVec.add_comm, BitVec.add_sub_cancel, BitVec.toNat_ofNat, Nat.mod_eq_of_lt hlt]

/-- Two counters less than a turn apart compare like the positions they stand for. -/
theorem eq_add_iff {a b c : ℕ} (hab : a ≤ b) (hlt : b - a < 2 ^ w) (hc : c < 2 ^ w) :
    BitVec.ofNat w b = BitVec.ofNat w a + BitVec.ofNat w c ↔ b = a + c := by
  constructor
  · intro h
    have hsub := sub_toNat hab hlt
    rw [h, BitVec.add_comm, BitVec.add_sub_cancel, BitVec.toNat_ofNat, Nat.mod_eq_of_lt hc] at hsub
    omega
  · rintro rfl
    exact BitVec.ofNat_add a c

end Counters

end Xv6.Library.RingBuffer
