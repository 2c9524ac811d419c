import Mathlib.Data.Nat.Digits.Lemmas
import Mathlib.Tactic.Common

/-! # Numerals

How a number is written in a base up to 16: digits in either case, the first one not zero unless
it is the only one, and a minus sign before a negative number.
-/
namespace Xv6.Library

/-! ## The digits of a number -/

/-- The digits that repeated division gives, the last one of the numeral first.  Zero has one. -/
def lowDigits (b n : ℕ) : List ℕ := if n = 0 then [0] else Nat.digits b n

section
variable {b n : ℕ}

theorem lowDigits_succ (hb : 1 < b) (n : ℕ) :
    lowDigits b n = n % b :: if n / b = 0 then [] else lowDigits b (n / b) := by
  unfold lowDigits
  by_cases hn : n = 0
  · rw [if_pos hn, hn, Nat.zero_mod, Nat.zero_div, if_pos rfl]
  · rw [if_neg hn, Nat.digits_def' hb (Nat.pos_of_ne_zero hn)]
    by_cases hq : n / b = 0
    · rw [if_pos hq, hq, Nat.digits_zero]
    · rw [if_neg hq, if_neg hq]

theorem lowDigits_ne_nil (b n : ℕ) : lowDigits b n ≠ [] := by
  unfold lowDigits
  by_cases hn : n = 0
  · rw [if_pos hn]
    exact List.cons_ne_nil _ _
  · rw [if_neg hn]
    exact Nat.digits_ne_nil_iff_ne_zero.mpr hn

theorem lowDigits_lt (hb : 1 < b) {d : ℕ} (h : d ∈ lowDigits b n) : d < b := by
  unfold lowDigits at h
  by_cases hn : n = 0
  · rw [if_pos hn, List.mem_singleton] at h
    omega
  · rw [if_neg hn] at h
    exact Nat.digits_lt_base hb h

theorem ofDigits_lowDigits (b n : ℕ) : Nat.ofDigits b (lowDigits b n) = n := by
  unfold lowDigits
  by_cases hn : n = 0
  · rw [if_pos hn, Nat.ofDigits_singleton, hn]
  · rw [if_neg hn, Nat.ofDigits_digits]

theorem length_lowDigits_le {k : ℕ} (hb : 1 < b) (hk : 1 ≤ k) (h : n < b ^ k) :
    (lowDigits b n).length ≤ k := by
  unfold lowDigits
  by_cases hn : n = 0
  · rw [if_pos hn]
    exact hk
  · rw [if_neg hn]
    exact (Nat.digits_length_le_iff hb n).mpr h

/-- The numeral begins with a zero only if there is nothing else. -/
theorem lowDigits_of_getLast_zero (h : (lowDigits b n).getLast? = some 0) : lowDigits b n = [0] := by
  by_cases hn : n = 0
  · exact if_pos hn
  · rw [lowDigits, if_neg hn,
      List.getLast?_eq_some_getLast (Nat.digits_ne_nil_iff_ne_zero.mpr hn)] at h
    exact absurd (Option.some.inj h) (Nat.getLast_digit_ne_zero b hn)

end

/-! ## Text -/

def digitValue (b : ℕ) (c : Char) : Option ℕ :=
  let d := if '0' ≤ c ∧ c ≤ '9' then c.toNat - '0'.toNat
    else if 'a' ≤ c ∧ c ≤ 'f' then c.toNat - 'a'.toNat + 10
    else if 'A' ≤ c ∧ c ≤ 'F' then c.toNat - 'A'.toNat + 10
    else b
  if d < b then some d else none

def evalDigits (b : ℕ) (ds : List Char) : Option ℕ :=
  (ds.mapM (digitValue b)).map fun l => Nat.ofDigits b l.reverse

def minus (v : ℤ) : List Char := if v < 0 then ['-'] else []

/-- The text is the canonical numeral of `v`. -/
def IsNumeral (b : ℕ) (v : ℤ) (text : List Char) : Prop :=
  ∃ ds, text = minus v ++ ds ∧ ds ≠ [] ∧ evalDigits b ds = some v.natAbs ∧
    (ds.head? = some '0' → ds = ['0'])

section
variable {b : ℕ} {digit : ℕ → Char}

theorem mapM_digit (h : ∀ k < b, digitValue b (digit k) = some k) {l : List ℕ}
    (hl : ∀ k ∈ l, k < b) : (l.map digit).mapM (digitValue b) = some l := by
  induction l with
  | nil => rfl
  | cons k l ih =>
    rw [List.map_cons, List.mapM_cons, h k (hl k (List.mem_cons_self ..)),
      ih fun j hj => hl j (List.mem_cons_of_mem k hj)]
    rfl

theorem isNumeral_lowDigits (hb : 1 < b) (h : ∀ k < b, digitValue b (digit k) = some k)
    (h0 : ∀ k < b, digit k = '0' → k = 0) (h0' : digit 0 = '0') (v : ℤ) :
    IsNumeral b v (minus v ++ ((lowDigits b v.natAbs).map digit).reverse) := by
  refine ⟨_, rfl, ?_, ?_, ?_⟩
  · rw [Ne, List.reverse_eq_nil_iff, List.map_eq_nil_iff]
    exact lowDigits_ne_nil b _
  · have hm := mapM_digit h (l := (lowDigits b v.natAbs).reverse) fun k hk =>
      lowDigits_lt hb (List.mem_reverse.mp hk)
    rw [evalDigits, ← List.map_reverse, hm, Option.map_some, List.reverse_reverse, ofDigits_lowDigits]
  · intro hhead
    rw [List.head?_reverse, List.getLast?_map, Option.map_eq_some_iff] at hhead
    obtain ⟨k, hk, hk0⟩ := hhead
    rw [h0 k (lowDigits_lt hb (List.mem_of_getLast? hk)) hk0] at hk
    rw [lowDigits_of_getLast_zero hk, List.map_singleton, h0', List.reverse_singleton]

end

end Xv6.Library
