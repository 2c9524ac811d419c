import Mathlib.Data.BitVec
import Xv6.Library.Numerals

/-! # Printing numbers

The two versions of `printint`, in the kernel's and the user's printf.c.  Each puts the digits
into a buffer of 20 characters, last one first, and then sends the buffer backwards.  A run that
leaves the buffer or the table of digits has no result.
-/
namespace Xv6.Printf

open Library

abbrev Buf := Vector Char 20

def store (b : Buf × ℕ) (c : Char) : Option (Buf × ℕ) :=
  if h : b.2 < 20 then some (b.1.set b.2 c h, b.2 + 1) else none

/-- `do buf[i++] = digits[x % base]; while((x /= base) != 0)`.  There is room for 20 rounds. -/
def digitLoop (digits : List Char) (base : BitVec 64) : ℕ → Buf × ℕ → BitVec 64 → Option (Buf × ℕ)
  | 0, _, _ => none
  | room + 1, b, x => do
    let c ← digits[(x % base).toNat]?
    let b ← store b c
    if x / base ≠ 0 then digitLoop digits base room b (x / base) else some b

/-- `while(--i >= 0)`: the characters that are sent. -/
def sendLoop (buf : Buf) : ℕ → Option (List Char)
  | 0 => some []
  | i + 1 => do
    let c ← buf[i]?
    let rest ← sendLoop buf i
    some (c :: rest)

/-- What both versions do with the number without its sign. -/
def printUnsigned (digits : List Char) (buf : Buf) (x : BitVec 64) (base : BitVec 32) (neg : Prop)
    [Decidable neg] : Option (List Char) := do
  let b ← digitLoop digits (base.signExtend 64) 20 (buf, 0) x
  let b ← if neg then store b '-' else some b
  sendLoop b.1 b.2

namespace Kernel

def digits : List Char :=
  ['0', '1', '2', '3', '4', '5', '6', '7', '8', '9', 'a', 'b', 'c', 'd', 'e', 'f']

/-- The test of `sign` also sets it. -/
def printint (buf : Buf) (xx : BitVec 64) (base sign : BitVec 32) : Option (List Char) :=
  if sign ≠ 0 then
    let sign : BitVec 32 := if xx.toInt < 0 then 1 else 0
    if sign ≠ 0 then printUnsigned digits buf (-xx) base (sign ≠ 0)
    else printUnsigned digits buf xx base (sign ≠ 0)
  else printUnsigned digits buf xx base (sign ≠ 0)

end Kernel

namespace User

def digits : List Char :=
  ['0', '1', '2', '3', '4', '5', '6', '7', '8', '9', 'A', 'B', 'C', 'D', 'E', 'F']

def printint (buf : Buf) (xx : BitVec 64) (base sgn : BitVec 32) : Option (List Char) :=
  if sgn ≠ 0 ∧ xx.toInt < 0 then printUnsigned digits buf (-xx) base True
  else printUnsigned digits buf xx base False

end User

/-- The number that a call is to show. -/
def shown (xx : BitVec 64) (sign : BitVec 32) : ℤ := if sign ≠ 0 then xx.toInt else xx.toNat

/-! ## The buffer -/

def stored (b : Buf × ℕ) : List Char := b.1.toList.take b.2

section
variable {b b' : Buf × ℕ} {c : Char} {digits : List Char} {base x : BitVec 64}

theorem store_eq (h : b.2 < 20) (c : Char) :
    ∃ b', store b c = some b' ∧ b'.2 = b.2 + 1 ∧ stored b' = stored b ++ [c] := by
  refine ⟨_, dif_pos h, rfl, ?_⟩
  have hlen : b.2 < (b.1.toList.set b.2 c).length := by
    rw [List.length_set, Vector.length_toList]
    exact h
  change (b.1.set b.2 c h).toList.take (b.2 + 1) = _
  rw [Vector.toList_set, List.take_succ_eq_append_getElem hlen, List.getElem_set_self,
    List.take_set_of_le (Nat.le_refl _), stored]

theorem digitLoop_eq {digit : ℕ → Char} (hb : 1 < base.toNat)
    (hdigit : ∀ k < base.toNat, digits[k]? = some (digit k)) {room : ℕ} (hroom : b.2 + room = 20)
    (h : (lowDigits base.toNat x.toNat).length ≤ room) :
    ∃ b', digitLoop digits base room b x = some b' ∧
      b'.2 = b.2 + (lowDigits base.toNat x.toNat).length ∧
      stored b' = stored b ++ (lowDigits base.toNat x.toNat).map digit := by
  induction room generalizing b x with
  | zero => exact absurd (List.length_eq_zero_iff.mp (Nat.le_zero.mp h)) (lowDigits_ne_nil _ _)
  | succ room ih =>
    obtain ⟨b₁, hrun, hi, hst⟩ := store_eq (b := b) (by omega) (digit (x.toNat % base.toNat))
    have hloop : digitLoop digits base (room + 1) b x =
        if x / base ≠ 0 then digitLoop digits base room b₁ (x / base) else some b₁ := by
      rw [digitLoop, BitVec.toNat_umod, hdigit _ (Nat.mod_lt _ (by omega)), Option.bind_eq_bind,
        Option.bind_some, hrun, Option.bind_eq_bind, Option.bind_some]
    have hzero : x / base = 0 ↔ x.toNat / base.toNat = 0 := by
      rw [← BitVec.toNat_inj, BitVec.toNat_udiv]
      rfl
    rw [hloop]
    rw [lowDigits_succ hb] at h ⊢
    by_cases hq : x / base = 0
    · rw [if_neg (not_not_intro hq), if_pos (hzero.mp hq)]
      exact ⟨b₁, rfl, hi, hst⟩
    · rw [if_neg (mt hzero.mpr hq), ← BitVec.toNat_udiv] at h ⊢
      rw [if_pos hq]
      rw [List.length_cons] at h
      obtain ⟨b', hrun', hi', hst'⟩ := ih (b := b₁) (x := x / base) (by omega) (by omega)
      refine ⟨b', hrun', ?_, ?_⟩
      · rw [hi', hi, List.length_cons]
        omega
      · rw [hst', hst, List.map_cons, List.append_assoc, List.singleton_append]

theorem sendLoop_eq {buf : Buf} {i : ℕ} (h : i ≤ 20) :
    sendLoop buf i = some (stored (buf, i)).reverse := by
  induction i with
  | zero => rfl
  | succ i ih =>
    have hlen : i < buf.toList.length := by
      rw [Vector.length_toList]
      exact h
    have hread : buf[i]? = some buf.toList[i] := by
      rw [Vector.getElem_toList, Vector.getElem?_eq_getElem]
    rw [sendLoop, hread, Option.bind_eq_bind, Option.bind_some, ih (by omega), Option.bind_eq_bind,
      Option.bind_some, stored, stored, List.take_succ_eq_append_getElem hlen, List.reverse_append,
      List.reverse_singleton, List.singleton_append]

end

/-! ## The text -/

section
variable {digits : List Char} {digit : ℕ → Char} {base : BitVec 32} {x xx : BitVec 64}

theorem printUnsigned_eq (buf : Buf) (neg : Prop) [Decidable neg] (hb : 1 < (base.signExtend 64).toNat)
    (hdigit : ∀ k < (base.signExtend 64).toNat, digits[k]? = some (digit k))
    (h : (lowDigits (base.signExtend 64).toNat x.toNat).length + (if neg then 1 else 0) ≤ 20) :
    printUnsigned digits buf x base neg = some ((if neg then ['-'] else []) ++
      ((lowDigits (base.signExtend 64).toNat x.toNat).map digit).reverse) := by
  obtain ⟨b, hrun, hi, hst⟩ := digitLoop_eq (b := (buf, 0)) (x := x) hb hdigit (Nat.zero_add 20)
    (Nat.le_trans (Nat.le_add_right ..) h)
  by_cases hneg : neg
  · have hrest : printUnsigned digits buf x base neg =
        (store b '-').bind fun b => sendLoop b.1 b.2 := by
      rw [printUnsigned, hrun]
      exact if_pos hneg
    rw [if_pos hneg] at h ⊢
    obtain ⟨b', hrun', hi', hst'⟩ := store_eq (b := b) (by omega) '-'
    rw [hrest, hrun', Option.bind_some, sendLoop_eq (by omega), hst', hst]
    simp [stored]
  · have hrest : printUnsigned digits buf x base neg = sendLoop b.1 b.2 := by
      rw [printUnsigned, hrun]
      exact if_neg hneg
    rw [if_neg hneg] at h ⊢
    rw [hrest, sendLoop_eq (by omega), hst]
    simp [stored]

/-- The word without its sign: the most negative one is its own negation. -/
theorem toNat_neg_of_neg (h : xx.toInt < 0) : (-xx).toNat = xx.toInt.natAbs := by
  rw [BitVec.toInt_eq_toNat_cond] at h ⊢
  rw [BitVec.toNat_neg]
  have := xx.isLt
  split_ifs at h ⊢ <;> omega

theorem toNat_of_nonneg (h : ¬ xx.toInt < 0) : xx.toNat = xx.toInt.natAbs := by
  rw [BitVec.toInt_eq_toNat_cond] at h ⊢
  split_ifs at h ⊢ <;> omega

/-- The number fits: 20 digits, or 19 after a sign. -/
theorem length_numeral (hbase : base = 10 ∨ base = 16) {v : ℤ} (hv : v.natAbs < 2 ^ 64)
    (hneg : v < 0 → v.natAbs ≤ 2 ^ 63) :
    (lowDigits base.toNat v.natAbs).length + (if v < 0 then 1 else 0) ≤ 20 := by
  have hb : 1 < base.toNat := by rcases hbase with rfl | rfl <;> decide
  have hpow (k : ℕ) : 10 ^ k ≤ base.toNat ^ k := by
    apply Nat.pow_le_pow_left
    rcases hbase with rfl | rfl <;> decide
  by_cases h : v < 0
  · rw [if_pos h]
    have := length_lowDigits_le hb (n := v.natAbs) (k := 19) (by omega)
      (Nat.lt_of_lt_of_le (Nat.lt_of_le_of_lt (hneg h) (by norm_num)) (hpow 19))
    omega
  · rw [if_neg h]
    exact length_lowDigits_le hb (by omega)
      (Nat.lt_of_lt_of_le (Nat.lt_of_lt_of_le hv (by norm_num)) (hpow 20))

theorem printUnsigned_shown (buf : Buf) (hbase : base = 10 ∨ base = 16)
    (hdigit : ∀ k < 16, digits[k]? = some (digit k)) {v : ℤ} {neg : Prop} [Decidable neg]
    (hneg : neg ↔ v < 0) (hx : x.toNat = v.natAbs) (hmin : v < 0 → v.natAbs ≤ 2 ^ 63) :
    printUnsigned digits buf x base neg =
      some (minus v ++ ((lowDigits base.toNat v.natAbs).map digit).reverse) := by
  have hext : (base.signExtend 64).toNat = base.toNat := by rcases hbase with rfl | rfl <;> decide
  have hle : base.toNat ≤ 16 := by rcases hbase with rfl | rfl <;> decide
  have hlt : 1 < base.toNat := by rcases hbase with rfl | rfl <;> decide
  have hlen := length_numeral hbase (v := v) (by rw [← hx]; exact x.isLt) hmin
  have heq := printUnsigned_eq (x := x) buf neg (by rwa [hext])
    (fun k hk => hdigit k (by omega)) (by simpa only [hext, hx, hneg] using hlen)
  rw [heq, hext, hx]
  simp only [minus, hneg]

theorem natAbs_shown_le {sign : BitVec 32} (h : shown xx sign < 0) :
    (shown xx sign).natAbs ≤ 2 ^ 63 := by
  unfold shown at h ⊢
  by_cases hs : sign ≠ 0
  · rw [if_pos hs] at h ⊢
    have := BitVec.le_toInt xx
    omega
  · rw [if_neg hs] at h
    omega

theorem natAbs_shown_lt (xx : BitVec 64) (sign : BitVec 32) : (shown xx sign).natAbs < 2 ^ 64 := by
  unfold shown
  have := xx.isLt
  have := BitVec.le_toInt xx
  have := BitVec.toInt_lt (x := xx)
  split_ifs <;> omega

end

def Kernel.digit (k : ℕ) : Char := Kernel.digits.getD k '0'

def User.digit (k : ℕ) : Char := User.digits.getD k '0'

section
variable (buf : Buf) (xx : BitVec 64) {base : BitVec 32} (sign : BitVec 32)

theorem Kernel.printint_eq (hbase : base = 10 ∨ base = 16) :
    Kernel.printint buf xx base sign = some (minus (shown xx sign) ++
      ((lowDigits base.toNat (shown xx sign).natAbs).map Kernel.digit).reverse) := by
  have hdigit : ∀ k < 16, Kernel.digits[k]? = some (Kernel.digit k) := by decide
  have hmin := @natAbs_shown_le xx sign
  unfold Kernel.printint
  by_cases hs : sign ≠ 0
  · have hv : shown xx sign = xx.toInt := if_pos hs
    rw [hv] at hmin ⊢
    rw [if_pos hs]
    by_cases hneg : xx.toInt < 0
    · rw [if_pos hneg]
      exact printUnsigned_shown buf hbase hdigit (iff_of_true (by decide) hneg)
        (toNat_neg_of_neg hneg) hmin
    · rw [if_neg hneg]
      exact printUnsigned_shown buf hbase hdigit (iff_of_false (by decide) hneg)
        (toNat_of_nonneg hneg) hmin
  · have hv : shown xx sign = xx.toNat := if_neg hs
    rw [hv] at hmin ⊢
    rw [if_neg hs]
    exact printUnsigned_shown buf hbase hdigit (iff_of_false hs (by omega)) rfl hmin

theorem User.printint_eq (hbase : base = 10 ∨ base = 16) :
    User.printint buf xx base sign = some (minus (shown xx sign) ++
      ((lowDigits base.toNat (shown xx sign).natAbs).map User.digit).reverse) := by
  have hdigit : ∀ k < 16, User.digits[k]? = some (User.digit k) := by decide
  have hmin := @natAbs_shown_le xx sign
  unfold User.printint
  by_cases h : sign ≠ 0 ∧ xx.toInt < 0
  · have hv : shown xx sign = xx.toInt := if_pos h.1
    rw [hv] at hmin ⊢
    rw [if_pos h]
    exact printUnsigned_shown buf hbase hdigit (iff_of_true trivial h.2) (toNat_neg_of_neg h.2) hmin
  · rw [if_neg h]
    have hnat : xx.toNat = (shown xx sign).natAbs := by
      unfold shown
      by_cases hs : sign ≠ 0
      · rw [if_pos hs]
        exact toNat_of_nonneg fun hneg => h ⟨hs, hneg⟩
      · rw [if_neg hs]
        rfl
    have hpos : ¬ shown xx sign < 0 := by
      unfold shown
      by_cases hs : sign ≠ 0
      · rw [if_pos hs]
        exact fun hneg => h ⟨hs, hneg⟩
      · rw [if_neg hs]
        omega
    exact printUnsigned_shown buf hbase hdigit (iff_of_false not_false hpos) hnat hmin

end

/-! ## Both versions -/

/-- The text of a table of digits, for each number and either base. -/
theorem isNumeral_digit {digit : ℕ → Char} {base : BitVec 32} (hbase : base = 10 ∨ base = 16)
    (h : ∀ b ∈ [10, 16], ∀ k < b, digitValue b (digit k) = some k ∧ (digit k = '0' → k = 0))
    (h0 : digit 0 = '0') (v : ℤ) :
    IsNumeral base.toNat v (minus v ++ ((lowDigits base.toNat v.natAbs).map digit).reverse) := by
  have hmem : base.toNat ∈ [10, 16] := by rcases hbase with rfl | rfl <;> decide
  have hlt : 1 < base.toNat := by rcases hbase with rfl | rfl <;> decide
  exact isNumeral_lowDigits hlt (fun k hk => (h _ hmem k hk).1) (fun k hk => (h _ hmem k hk).2) h0 v

theorem length_text {base : BitVec 32} (hbase : base = 10 ∨ base = 16) (xx : BitVec 64)
    (sign : BitVec 32) (digit : ℕ → Char) :
    (minus (shown xx sign) ++
      ((lowDigits base.toNat (shown xx sign).natAbs).map digit).reverse).length ≤ 20 := by
  have := length_numeral hbase (natAbs_shown_lt xx sign) natAbs_shown_le
  rw [List.length_append, List.length_reverse, List.length_map, minus, Nat.add_comm]
  split_ifs at this ⊢ <;> exact this

theorem minus_toLower (v : ℤ) : (minus v).map Char.toLower = minus v := by
  unfold minus
  split_ifs <;> rfl

/-- Both versions stay inside their buffers and send the numeral of the value. -/
theorem printint_canonical (buf buf' : Buf) (xx : BitVec 64) (base sign : BitVec 32)
    (hbase : base = 10 ∨ base = 16) :
    ∃ text text', Kernel.printint buf xx base sign = some text ∧
      User.printint buf' xx base sign = some text' ∧
      text.length ≤ 20 ∧ text'.length ≤ 20 ∧
      IsNumeral base.toNat (shown xx sign) text ∧ IsNumeral base.toNat (shown xx sign) text' ∧
      text'.map Char.toLower = text := by
  refine ⟨_, _, Kernel.printint_eq buf xx sign hbase, User.printint_eq buf' xx sign hbase,
    length_text hbase xx sign _, length_text hbase xx sign _, ?_, ?_, ?_⟩
  · exact isNumeral_digit hbase (by decide) rfl _
  · exact isNumeral_digit hbase (by decide) rfl _
  · have hlower : ∀ k < 16, (User.digit k).toLower = Kernel.digit k := by decide
    have hle : base.toNat ≤ 16 := by rcases hbase with rfl | rfl <;> decide
    have hlt : 1 < base.toNat := by rcases hbase with rfl | rfl <;> decide
    rw [List.map_append, minus_toLower, List.map_reverse, List.map_map]
    congr 2
    apply List.map_congr_left
    intro k hk
    exact hlower k (Nat.lt_of_lt_of_le (lowDigits_lt hlt hk) hle)

/-- The most negative number fills the buffer. -/
theorem printint_most_negative :
    (Kernel.printint (Vector.replicate 20 ' ') (BitVec.intMin 64) 10 1).map List.length = some 20 ∧
      ∃ text, User.printint (Vector.replicate 20 ' ') (BitVec.intMin 64) 10 1 = some text ∧
        IsNumeral 10 (-2 ^ 63) text := by
  obtain ⟨_, text, -, huser, -, -, -, hnum, -⟩ := printint_canonical (Vector.replicate 20 ' ')
    (Vector.replicate 20 ' ') (BitVec.intMin 64) 10 1 (Or.inl rfl)
  have hshown : shown (BitVec.intMin 64) 1 = -2 ^ 63 := by decide
  rw [hshown] at hnum
  exact ⟨by decide +kernel, text, huser, hnum⟩

end Xv6.Printf
