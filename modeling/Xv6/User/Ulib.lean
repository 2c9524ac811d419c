import Mathlib.Logic.Function.Basic
import Mathlib.Tactic.Common

/-! # The user library

The functions of ulib.c that work on the memory of the program.
-/
namespace Xv6.User

abbrev Mem := ℕ → UInt8

/-! ## Strings -/

/-- The bytes of the string at `s`, if a zero is among the first `n`. -/
def cstring (mem : Mem) : (n s : ℕ) → List UInt8
  | 0, _ => []
  | n + 1, s => if mem s = 0 then [] else mem s :: cstring mem n (s + 1)

/-- The first place of `c` in the string at `s`, where a zero is among the first `n` bytes. -/
def strchr (mem : Mem) (c : UInt8) : (n s : ℕ) → Option ℕ
  | 0, _ => none
  | n + 1, s => if mem s = 0 then none else if mem s = c then some s else strchr mem c n (s + 1)

/-- The length of the string at `s`, where a zero is among the first `n + 1` bytes. -/
def strlen (mem : Mem) : (n s : ℕ) → ℕ
  | 0, _ => 0
  | n + 1, s => if mem s = 0 then 0 else strlen mem n (s + 1) + 1

def Holds (mem : Mem) (s : ℕ) (l : List UInt8) : Prop := ∀ i (h : i < l.length), mem (s + i) = l[i]

section
variable {mem : Mem} {s n : ℕ} {l l' : List UInt8} {c x : UInt8}

theorem holds_nil (mem : Mem) (s : ℕ) : Holds mem s [] := fun _ h => absurd h (Nat.not_lt_zero _)

theorem holds_cons : Holds mem s (x :: l) ↔ mem s = x ∧ Holds mem (s + 1) l := by
  constructor
  · intro h
    refine ⟨h 0 (Nat.zero_lt_succ _), fun i hi => ?_⟩
    have := h (i + 1) (Nat.succ_lt_succ hi)
    rwa [List.getElem_cons_succ, Nat.add_comm i 1, ← Nat.add_assoc] at this
  · rintro ⟨h0, hl⟩ i hi
    cases i with
    | zero => exact h0
    | succ i =>
      rw [List.getElem_cons_succ, Nat.add_comm i 1, ← Nat.add_assoc]
      exact hl i (Nat.lt_of_succ_lt_succ hi)

theorem holds_append : Holds mem s (l ++ l') ↔ Holds mem s l ∧ Holds mem (s + l.length) l' := by
  induction l generalizing s with
  | nil => simp [holds_nil]
  | cons x l ih =>
    rw [List.cons_append, holds_cons, holds_cons, ih, and_assoc, List.length_cons,
      Nat.add_right_comm, Nat.add_assoc s]

theorem Holds.congr {mem' : Mem} (h : Holds mem s l)
    (heq : ∀ a, s ≤ a → a < s + l.length → mem' a = mem a) : Holds mem' s l :=
  fun i hi => (heq (s + i) (by omega) (by omega)).trans (h i hi)

theorem cstring_of_holds (h : Holds mem s (l ++ [0])) (hl : 0 ∉ l) (hn : l.length < n) :
    cstring mem n s = l := by
  induction l generalizing s n with
  | nil =>
    obtain ⟨n, rfl⟩ := Nat.exists_eq_succ_of_ne_zero (Nat.ne_of_gt hn)
    exact if_pos (holds_cons.mp h).1
  | cons x l ih =>
    obtain ⟨n, rfl⟩ := Nat.exists_eq_succ_of_ne_zero (Nat.ne_of_gt (Nat.zero_lt_of_lt hn))
    obtain ⟨hx, hrest⟩ := holds_cons.mp h
    have hx0 : mem s ≠ 0 := by
      rw [hx]
      rintro rfl
      exact hl (List.mem_cons_self ..)
    rw [cstring, if_neg hx0, hx, ih hrest (fun hm => hl (List.mem_cons_of_mem x hm))
      (Nat.lt_of_succ_lt_succ hn)]

theorem strlen_of_holds (h : Holds mem s (l ++ [0])) (hl : 0 ∉ l) (hn : l.length ≤ n) :
    strlen mem n s = l.length := by
  induction l generalizing s n with
  | nil =>
    cases n with
    | zero => rfl
    | succ n => exact if_pos (holds_cons.mp h).1
  | cons x l ih =>
    obtain ⟨n, rfl⟩ := Nat.exists_eq_succ_of_ne_zero (Nat.ne_of_gt (Nat.zero_lt_of_lt hn))
    obtain ⟨hx, hrest⟩ := holds_cons.mp h
    have hx0 : mem s ≠ 0 := by
      rw [hx]
      rintro rfl
      exact hl (List.mem_cons_self ..)
    rw [strlen, if_neg hx0, ih hrest (fun hm => hl (List.mem_cons_of_mem x hm))
      (Nat.le_of_succ_le_succ hn), List.length_cons]

theorem strchr_found (h : Holds mem s (l ++ [c])) (hl : 0 ∉ l ∧ c ∉ l) (hc : c ≠ 0)
    (hn : l.length < n) : strchr mem c n s = some (s + l.length) := by
  induction l generalizing s n with
  | nil =>
    obtain ⟨n, rfl⟩ := Nat.exists_eq_succ_of_ne_zero (Nat.ne_of_gt hn)
    have hs : mem s = c := (holds_cons.mp h).1
    rw [strchr, if_neg (by rwa [hs]), if_pos hs]
    rfl
  | cons x l ih =>
    obtain ⟨n, rfl⟩ := Nat.exists_eq_succ_of_ne_zero (Nat.ne_of_gt (Nat.zero_lt_of_lt hn))
    obtain ⟨hx, hrest⟩ := holds_cons.mp h
    rw [List.mem_cons, List.mem_cons, not_or, not_or] at hl
    rw [strchr, hx, if_neg (Ne.symm hl.1.1), if_neg (Ne.symm hl.2.1),
      ih hrest ⟨hl.1.2, hl.2.2⟩ (Nat.lt_of_succ_lt_succ hn), List.length_cons,
      Nat.add_comm l.length 1, Nat.add_assoc]

theorem strchr_none (h : Holds mem s (l ++ [0])) (hl : c ∉ l) (hn : l.length < n) :
    strchr mem c n s = none := by
  induction l generalizing s n with
  | nil =>
    obtain ⟨n, rfl⟩ := Nat.exists_eq_succ_of_ne_zero (Nat.ne_of_gt hn)
    exact if_pos (holds_cons.mp h).1
  | cons x l ih =>
    obtain ⟨n, rfl⟩ := Nat.exists_eq_succ_of_ne_zero (Nat.ne_of_gt (Nat.zero_lt_of_lt hn))
    obtain ⟨hx, hrest⟩ := holds_cons.mp h
    rw [List.mem_cons, not_or] at hl
    rw [strchr, hx]
    by_cases hx0 : x = 0
    · rw [if_pos hx0]
    · rw [if_neg hx0, if_neg (Ne.symm hl.1), ih hrest hl.2 (Nat.lt_of_succ_lt_succ hn)]

end

/-! ## `memmove` -/

/-- `while(n-- > 0) *dst++ = *src++`. -/
def copyUp (mem : Mem) : (n dst src : ℕ) → Mem
  | 0, _, _ => mem
  | n + 1, dst, src => copyUp (Function.update mem dst (mem src)) n (dst + 1) (src + 1)

/-- `while(n-- > 0) *--dst = *--src`. -/
def copyDown (mem : Mem) : (n dst src : ℕ) → Mem
  | 0, _, _ => mem
  | n + 1, dst, src => copyDown (Function.update mem (dst - 1) (mem (src - 1))) n (dst - 1) (src - 1)

def memmove (mem : Mem) (dst src : ℕ) (n : ℕ) : Mem :=
  if dst < src then copyUp mem n dst src else copyDown mem n (dst + n) (src + n)

/-- What a copy should do. -/
def moved (mem : Mem) (dst src n : ℕ) : Mem :=
  fun a => if dst ≤ a ∧ a < dst + n then mem (src + (a - dst)) else mem a

/-- Copying upwards reads each byte of the source before it is overwritten. -/
theorem copyUp_eq (mem : Mem) {n dst src : ℕ} (h : dst < src) :
    copyUp mem n dst src = moved mem dst src n := by
  induction n generalizing mem dst src with
  | zero =>
    funext a
    exact (if_neg (by omega)).symm
  | succ n ih =>
    rw [copyUp, ih _ (by omega)]
    funext a
    unfold moved
    by_cases ha : a = dst
    · subst ha
      rw [if_neg (by omega), if_pos (by omega), Function.update_self, Nat.sub_self, Nat.add_zero]
    · by_cases hin : dst ≤ a ∧ a < dst + (n + 1)
      · rw [if_pos (by omega), if_pos hin, Function.update_of_ne (by omega)]
        congr 1
        omega
      · rw [if_neg (by omega), if_neg hin, Function.update_of_ne ha]

theorem copyDown_eq (mem : Mem) {n dst src : ℕ} (h : src ≤ dst) :
    copyDown mem n (dst + n) (src + n) = moved mem dst src n := by
  induction n generalizing mem with
  | zero =>
    funext a
    exact (if_neg (by omega)).symm
  | succ n ih =>
    rw [copyDown, show dst + (n + 1) - 1 = dst + n by omega,
      show src + (n + 1) - 1 = src + n by omega, ih]
    funext a
    unfold moved
    by_cases ha : a = dst + n
    · subst ha
      rw [if_neg (by omega), if_pos (by omega), Function.update_self]
      congr 1
      omega
    · by_cases hin : dst ≤ a ∧ a < dst + (n + 1)
      · rw [if_pos (by omega), if_pos hin, Function.update_of_ne (by omega)]
      · rw [if_neg (by omega), if_neg hin, Function.update_of_ne ha]

theorem memmove_eq (mem : Mem) (dst src n : ℕ) : memmove mem dst src n = moved mem dst src n := by
  unfold memmove
  by_cases h : dst < src
  · rw [if_pos h, copyUp_eq mem h]
  · rw [if_neg h, copyDown_eq mem (Nat.le_of_not_lt h)]

end Xv6.User
