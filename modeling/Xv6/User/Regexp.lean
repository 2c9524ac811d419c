import Mathlib.Data.List.Basic
import Mathlib.Tactic.Common

/-! # The matcher of grep

The regular expressions of grep.c.  A string is the list of its bytes; the zero that ends it is
the end of the list.
-/
namespace Xv6.User

/-- The bytes of `^`, `$`, `*` and `.`. -/
def CARET : UInt8 := 94
def DOLLAR : UInt8 := 36
def STAR : UInt8 := 42
def DOT : UInt8 := 46

mutual

/-- Search for `re` at the beginning of `text`. -/
def matchhere (re text : List UInt8) : Bool :=
  match re with
  | [] => true
  | c :: re =>
    if re.head? = some STAR then matchstar c re.tail text
    else if c = DOLLAR ∧ re = [] then text.isEmpty
    else
      match text with
      | [] => false
      | x :: text => (c == DOT || c == x) && matchhere re text
termination_by (re.length, text.length, 0)
decreasing_by
  · apply Prod.Lex.left
    simp only [List.length_cons, List.length_tail]
    omega
  · apply Prod.Lex.left
    exact Nat.lt_succ_self _

/-- Search for `c*re` at the beginning of `text`. -/
def matchstar (c : UInt8) (re text : List UInt8) : Bool :=
  matchhere re text ||
    match text with
    | [] => false
    | x :: text => (x == c || c == DOT) && matchstar c re text
termination_by (re.length, text.length, 1)
decreasing_by
  · apply Prod.Lex.right
    apply Prod.Lex.right
    exact Nat.zero_lt_one
  · apply Prod.Lex.right
    apply Prod.Lex.left
    exact Nat.lt_succ_self _

end

/-- Search for `re` anywhere in `text`: the loop of `match`. -/
def matchFrom (re : List UInt8) : (text : List UInt8) → Bool
  | [] => matchhere re []
  | x :: text => matchhere re (x :: text) || matchFrom re text

def matchText (re text : List UInt8) : Bool :=
  if re.head? = some CARET then matchhere re.tail text else matchFrom re text

/-! ## The language of a pattern -/

/-- Does `c` stand for `x`? -/
def Stands (c x : UInt8) : Prop := c = DOT ∨ c = x

/-- The pattern `re` matches `u` where `v` is the text after it. -/
inductive Lang : (re u v : List UInt8) → Prop
  | empty (v : List UInt8) : Lang [] [] v
  | star {c : UInt8} {re w u v : List UInt8} :
      (∀ x ∈ w, Stands c x) → Lang re u v → Lang (c :: STAR :: re) (w ++ u) v
  | dollar : Lang [DOLLAR] [] []
  | char {c x : UInt8} {re u v : List UInt8} :
      re.head? ≠ some STAR → ¬ (c = DOLLAR ∧ re = []) → Stands c x → Lang re u v →
        Lang (c :: re) (x :: u) v

/-- The pattern matches at the beginning of the text. -/
def Begins (re text : List UInt8) : Prop := ∃ u v, text = u ++ v ∧ Lang re u v

section
variable {c x : UInt8} {re text : List UInt8}

theorem begins_nil : Begins [] text := ⟨[], text, rfl, .empty text⟩

/-- A star stands for no character, or for one and then for more. -/
theorem begins_star : Begins (c :: STAR :: re) text ↔
    Begins re text ∨ ∃ x rest, text = x :: rest ∧ Stands c x ∧ Begins (c :: STAR :: re) rest := by
  constructor
  · rintro ⟨u, v, rfl, hlang⟩
    cases hlang with
    | @star _ _ w u _ hw hre =>
      cases w with
      | nil => exact Or.inl ⟨u, v, rfl, hre⟩
      | cons x w =>
        refine Or.inr ⟨x, w ++ u ++ v, rfl, hw x (List.mem_cons_self ..), w ++ u, v, rfl, ?_⟩
        exact .star (fun y hy => hw y (List.mem_cons_of_mem x hy)) hre
    | char hhead => exact absurd rfl hhead
  · rintro (⟨u, v, rfl, hre⟩ | ⟨x, rest, rfl, hx, u, v, rfl, hlang⟩)
    · exact ⟨u, v, rfl, .star (w := []) (by simp) hre⟩
    · cases hlang with
      | @star _ _ w u _ hw hre =>
        refine ⟨x :: w ++ u, v, rfl, .star (fun y hy => ?_) hre⟩
        rcases List.mem_cons.mp hy with rfl | hy
        · exact hx
        · exact hw y hy
      | char hhead => exact absurd rfl hhead

theorem begins_dollar : Begins [DOLLAR] text ↔ text = [] := by
  constructor
  · rintro ⟨u, v, rfl, hlang⟩
    cases hlang with
    | dollar => rfl
    | char _ hlast => exact absurd ⟨rfl, rfl⟩ hlast
  · rintro rfl
    exact ⟨[], [], rfl, .dollar⟩

theorem begins_char (hstar : re.head? ≠ some STAR) (hlast : ¬ (c = DOLLAR ∧ re = [])) :
    Begins (c :: re) text ↔ ∃ x rest, text = x :: rest ∧ Stands c x ∧ Begins re rest := by
  constructor
  · rintro ⟨u, v, rfl, hlang⟩
    cases hlang with
    | star => exact absurd rfl hstar
    | dollar => exact absurd ⟨rfl, rfl⟩ hlast
    | @char _ x _ u _ _ _ hx hre => exact ⟨x, u ++ v, rfl, hx, u, v, rfl, hre⟩
  · rintro ⟨x, rest, rfl, hx, u, v, rfl, hre⟩
    exact ⟨x :: u, v, rfl, .char hstar hlast hx hre⟩

/-! ## The matcher decides the language -/

theorem matchstar_iff (h : ∀ text, matchhere re text = true ↔ Begins re text) :
    matchstar c re text = true ↔ Begins (c :: STAR :: re) text := by
  induction text with
  | nil =>
    rw [matchstar, begins_star, Bool.or_false, h]
    simp
  | cons x text ih =>
    have hx : (x == c || c == DOT) = true ↔ Stands c x := by
      simp only [Bool.or_eq_true, beq_iff_eq, Stands]
      rw [or_comm, eq_comm (a := x)]
    rw [matchstar, begins_star, Bool.or_eq_true, Bool.and_eq_true, h, hx, ih]
    simp

theorem matchhere_star (c : UInt8) (re text : List UInt8) :
    matchhere (c :: STAR :: re) text = matchstar c re text := by
  rw [matchhere.eq_def]
  exact if_pos rfl

theorem matchhere_dollar (text : List UInt8) : matchhere [DOLLAR] text = text.isEmpty := by
  rw [matchhere.eq_def]
  rfl

theorem matchhere_char (hstar : re.head? ≠ some STAR) (hlast : ¬ (c = DOLLAR ∧ re = [])) :
    matchhere (c :: re) text =
      match text with
      | [] => false
      | x :: text => (c == DOT || c == x) && matchhere re text := by
  rw [matchhere.eq_def]
  dsimp only
  rw [if_neg hstar, if_neg hlast]

theorem matchhere_iff (re text : List UInt8) : matchhere re text = true ↔ Begins re text := by
  -- a star takes two characters off the pattern
  induction hn : re.length using Nat.strongRecOn generalizing re text with
  | ind n ih =>
    subst hn
    cases re with
    | nil =>
      rw [matchhere]
      exact iff_of_true rfl begins_nil
    | cons c re =>
      by_cases hstar : re.head? = some STAR
      · obtain ⟨re, rfl⟩ : ∃ rest, re = STAR :: rest := by
          cases re with
          | nil => cases hstar
          | cons d re => exact ⟨re, by rw [Option.some.inj hstar]⟩
        rw [matchhere_star]
        apply matchstar_iff
        intro text
        exact ih re.length (by simp only [List.length_cons]; omega) re text rfl
      · by_cases hlast : c = DOLLAR ∧ re = []
        · obtain ⟨rfl, rfl⟩ := hlast
          rw [matchhere_dollar, begins_dollar, List.isEmpty_iff]
        · rw [matchhere_char hstar hlast, begins_char hstar hlast]
          cases text with
          | nil => simp
          | cons x text =>
            have hx : (c == DOT || c == x) = true ↔ Stands c x := by
              simp only [Bool.or_eq_true, beq_iff_eq, Stands]
            have hrec := ih re.length (Nat.lt_succ_self _) re text rfl
            simp only [Bool.and_eq_true]
            rw [hx, hrec]
            simp

theorem matchFrom_iff (re text : List UInt8) :
    matchFrom re text = true ↔ ∃ before rest, text = before ++ rest ∧ Begins re rest := by
  induction text with
  | nil =>
    rw [matchFrom, matchhere_iff]
    constructor
    · intro h
      exact ⟨[], [], rfl, h⟩
    · rintro ⟨before, rest, heq, h⟩
      obtain ⟨-, rfl⟩ := List.append_eq_nil_iff.mp heq.symm
      exact h
  | cons x text ih =>
    rw [matchFrom, Bool.or_eq_true, matchhere_iff, ih]
    constructor
    · rintro (h | ⟨before, rest, rfl, h⟩)
      · exact ⟨[], x :: text, rfl, h⟩
      · exact ⟨x :: before, rest, rfl, h⟩
    · rintro ⟨before, rest, heq, h⟩
      cases before with
      | nil =>
        rw [List.nil_append] at heq
        rw [heq]
        exact Or.inl h
      | cons y before =>
        obtain ⟨-, rfl⟩ := List.cons.inj heq
        exact Or.inr ⟨before, rest, rfl, h⟩

/-- A pattern matches where its language has a substring of the text, at the beginning of the text
after `^`. -/
theorem matchText_iff (re text : List UInt8) : matchText re text = true ↔
    (∃ rest, re = CARET :: rest ∧ ∃ u v, text = u ++ v ∧ Lang rest u v) ∨
    (re.head? ≠ some CARET ∧ ∃ before u v, text = before ++ u ++ v ∧ Lang re u v) := by
  unfold matchText
  by_cases hcaret : re.head? = some CARET
  · obtain ⟨rest, rfl⟩ : ∃ rest, re = CARET :: rest := by
      cases re with
      | nil => cases hcaret
      | cons c re => exact ⟨re, by rw [Option.some.inj hcaret]⟩
    rw [if_pos hcaret, matchhere_iff]
    constructor
    · intro h
      exact Or.inl ⟨rest, rfl, h⟩
    · rintro (⟨rest', heq, h⟩ | ⟨hno, -⟩)
      · rw [(List.cons.inj heq).2]
        exact h
      · exact absurd hcaret hno
  · rw [if_neg hcaret, matchFrom_iff]
    constructor
    · rintro ⟨before, rest, rfl, u, v, rfl, h⟩
      exact Or.inr ⟨hcaret, before, u, v, by rw [List.append_assoc], h⟩
    · rintro (⟨rest, rfl, -⟩ | ⟨-, before, u, v, rfl, h⟩)
      · exact absurd rfl hcaret
      · exact ⟨before, u ++ v, by rw [List.append_assoc], u, v, rfl, h⟩

end

end Xv6.User
