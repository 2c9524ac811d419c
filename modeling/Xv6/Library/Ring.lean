import Mathlib.Data.List.Chain
import Mathlib.Tactic

/-! # Circular doubly linked lists

Nodes that point to a next and a previous node, threaded through a head that is
a node itself.  `Ring l h xs` says that the links lead from `h` through `xs` and
back to `h`, and the same way backwards.  Unlinking a node, putting one behind
the head and looking for one are related to the list `xs`.
-/
namespace Xv6.Library

structure Links (α : Type*) where
  next : α → α
  prev : α → α

namespace Links

variable {α : Type*}

def flip (l : Links α) : Links α := ⟨l.prev, l.next⟩

def Linked (l : Links α) (x y : α) : Prop := l.next x = y ∧ l.prev y = x

/-- From the head through `xs` and back, in both directions. -/
structure Ring (l : Links α) (h : α) (xs : List α) : Prop where
  nodup : (h :: xs).Nodup
  chain : List.IsChain l.Linked (h :: (xs ++ [h]))

variable {l l' : Links α} {h b : α} {xs ys : List α}

theorem Ring.flip (hr : l.Ring h xs) : l.flip.Ring h xs.reverse where
  nodup := by simpa using hr.nodup
  chain := by
    have hrev := List.isChain_reverse.2 hr.chain
    have heq : (h :: (xs ++ [h])).reverse = h :: (xs.reverse ++ [h]) := by simp
    rw [heq] at hrev
    exact hrev.imp fun x y hxy => ⟨hxy.2, hxy.1⟩

/-- A chain is kept where the pointers along it are. -/
theorem chain_congr {zs : List α} (hc : List.IsChain l.Linked zs)
    (hnext : ∀ y ∈ zs.dropLast, l'.next y = l.next y)
    (hprev : ∀ y ∈ zs.tail, l'.prev y = l.prev y) : List.IsChain l'.Linked zs := by
  induction zs with
  | nil => exact .nil
  | cons x zs ih =>
    cases zs with
    | nil => exact .singleton x
    | cons y zs =>
      obtain ⟨hxy, hc⟩ := List.isChain_cons_cons.1 hc
      refine List.isChain_cons_cons.2 ⟨⟨?_, ?_⟩, ih hc ?_ ?_⟩
      · rw [hnext x (by simp)]
        exact hxy.1
      · rw [hprev y (by simp)]
        exact hxy.2
      · intro z hz
        exact hnext z (by simp [hz])
      · intro z hz
        exact hprev z (List.mem_of_mem_tail hz)

/-- Where the loop goes that starts at the head's next node. -/
theorem Ring.induction (hr : l.Ring h xs) {motive : List α → α → Prop} (hend : motive [] h)
    (hstep : ∀ b ys, b ≠ h → motive ys (l.next b) → motive (b :: ys) b) : motive xs (l.next h) := by
  have hmain : ∀ ys x, List.IsChain l.Linked (x :: (ys ++ [h])) → h ∉ ys →
      motive ys (l.next x) := by
    intro ys
    induction ys with
    | nil =>
      intro x hc _
      rw [(List.isChain_cons_cons.1 hc).1.1]
      exact hend
    | cons b ys ih =>
      intro x hc hh
      obtain ⟨⟨hnext, -⟩, hc⟩ := List.isChain_cons_cons.1 hc
      rw [hnext]
      refine hstep b ys (fun hb => hh (by simp [hb])) (ih b hc fun hy => hh (by simp [hy]))
  exact hmain xs h hr.chain (List.nodup_cons.1 hr.nodup).1

section Edit

variable [DecidableEq α]

/-- `b->next->prev = b->prev; b->prev->next = b->next;` -/
def unlink (l : Links α) (b : α) : Links α :=
  let l := { l with prev := Function.update l.prev (l.next b) (l.prev b) }
  { l with next := Function.update l.next (l.prev b) (l.next b) }

/-- `b->next = h->next; b->prev = h; h->next->prev = b; h->next = b;` -/
def insert (l : Links α) (h b : α) : Links α :=
  let l := { l with next := Function.update l.next b (l.next h) }
  let l := { l with prev := Function.update l.prev b h }
  let l := { l with prev := Function.update l.prev (l.next h) b }
  { l with next := Function.update l.next h b }

theorem Ring.unlink (hr : l.Ring h (xs ++ b :: ys)) : (l.unlink b).Ring h (xs ++ ys) := by
  obtain ⟨hnodup, hchain⟩ := hr
  -- `a` stands before `b` and `c` behind it; either of them may be the head
  obtain ⟨pre, a, hpre⟩ : ∃ pre a, h :: xs = pre ++ [a] :=
    ⟨_, _, (List.dropLast_append_getLast (List.cons_ne_nil h xs)).symm⟩
  obtain ⟨c, post, hpost⟩ : ∃ c post, ys ++ [h] = c :: post :=
    List.exists_cons_of_ne_nil (by simp)
  have hcons (zs : List α) : h :: (xs ++ zs) = pre ++ a :: zs := by
    rw [← List.cons_append, hpre]
    simp
  have hsplit : (pre ++ [a]).Nodup ∧ (c :: post).Nodup ∧ b ≠ c ∧
      (∀ y ∈ xs, y ≠ c) ∧ ∀ y ∈ ys, y ≠ a := by
    have ha : a ∈ h :: xs := by simp [hpre]
    have hc : c ∈ ys ++ [h] := by simp [hpost]
    rw [← hpre, ← hpost]
    grind
  obtain ⟨hleft, hright, hbc, hc, ha⟩ := hsplit
  rw [List.append_assoc, List.cons_append, hpost, hcons] at hchain
  obtain ⟨hbefore, ⟨-, hprevb⟩, hbehind⟩ := List.isChain_append_cons_cons.1 hchain
  obtain ⟨⟨hnextb, -⟩, hbehind⟩ := List.isChain_cons_cons.1 hbehind
  have hnext : (l.unlink b).next = Function.update l.next a c := by
    simp [Links.unlink, hnextb, hprevb, Function.update_of_ne hbc]
  have hprev : (l.unlink b).prev = Function.update l.prev c a := by
    simp [Links.unlink, hnextb, hprevb]
  refine ⟨hnodup.sublist (by simp), ?_⟩
  rw [List.append_assoc, hpost, hcons]
  refine List.isChain_append_cons_cons.2 ⟨?_, ⟨by simp [hnext], by simp [hprev]⟩, ?_⟩
  · refine chain_congr hbefore ?_ ?_
    · intro y hy
      rw [hnext, Function.update_of_ne]
      rintro rfl
      rw [List.dropLast_concat] at hy
      exact (List.disjoint_of_nodup_append hleft) hy (by simp)
    · intro y hy
      rw [← hpre, List.tail_cons] at hy
      rw [hprev, Function.update_of_ne (hc y hy)]
  · refine chain_congr hbehind ?_ ?_
    · intro y hy
      rw [← hpost, List.dropLast_concat] at hy
      rw [hnext, Function.update_of_ne (ha y hy)]
    · intro y hy
      rw [hprev, Function.update_of_ne]
      rintro rfl
      exact (List.nodup_cons.1 hright).1 hy

theorem Ring.insert (hr : l.Ring h xs) (hb : b ∉ h :: xs) : (l.insert h b).Ring h (b :: xs) := by
  obtain ⟨hnodup, hchain⟩ := hr
  obtain ⟨c, post, hpost⟩ : ∃ c post, xs ++ [h] = c :: post :=
    List.exists_cons_of_ne_nil (by simp)
  have hsplit : (c :: post).Nodup ∧ b ≠ h ∧ b ∉ c :: post ∧ ∀ y ∈ xs, y ≠ h := by
    rw [← hpost]
    grind
  obtain ⟨hright, hbh, hbpost, hxs⟩ := hsplit
  rw [hpost] at hchain
  obtain ⟨⟨hnexth, -⟩, hbehind⟩ := List.isChain_cons_cons.1 hchain
  have hnext : (l.insert h b).next = Function.update (Function.update l.next b c) h b := by
    simp [Links.insert, hnexth]
  have hprev : (l.insert h b).prev = Function.update (Function.update l.prev b h) c b := by
    simp [Links.insert, hnexth, Function.update_of_ne hbh.symm]
  refine ⟨?_, ?_⟩
  · grind
  rw [List.cons_append, hpost]
  have hbc : b ≠ c := fun hc => hbpost (by simp [hc])
  refine List.isChain_cons_cons.2 ⟨⟨by simp [hnext], by simp [hprev, hbc]⟩,
    List.isChain_cons_cons.2 ⟨⟨by simp [hnext, hbh], by simp [hprev]⟩, ?_⟩⟩
  refine chain_congr hbehind ?_ ?_
  · intro y hy
    have hyb : y ≠ b := fun hc => hbpost (hc ▸ List.mem_of_mem_dropLast hy)
    rw [← hpost, List.dropLast_concat] at hy
    rw [hnext, Function.update_of_ne (hxs y hy), Function.update_of_ne hyb]
  · intro y hy
    have hyb : y ≠ b := fun hc => hbpost (hc ▸ List.mem_cons_of_mem c hy)
    have hyc : y ≠ c := by
      rintro rfl
      exact (List.nodup_cons.1 hright).1 hy
    rw [hprev, Function.update_of_ne hyc, Function.update_of_ne hyb]

/-- A node taken out and put back behind the head comes first. -/
theorem Ring.moveFront (hr : l.Ring h (xs ++ b :: ys)) :
    ((l.unlink b).insert h b).Ring h (b :: (xs ++ ys)) := by
  refine hr.unlink.insert ?_
  have hnodup := hr.nodup
  grind

end Edit

section Walk

variable [DecidableEq α]

/-- `for(; b != h; b = f(b)) if(p(b)) break;` with a bound on the number of
rounds: the node where the loop breaks, if it does. -/
def scan (f : α → α) (h : α) (p : α → Bool) : ℕ → α → Option (Option α)
  | 0, _ => none
  | k + 1, b => if b = h then some none else if p b then some (some b) else scan f h p k (f b)

/-- The nodes that such a loop visits when it does not break. -/
def walk (f : α → α) (h : α) : ℕ → α → Option (List α)
  | 0, _ => none
  | k + 1, b => if b = h then some [] else (walk f h k (f b)).map (b :: ·)

theorem Ring.scan_next (hr : l.Ring h xs) (p : α → Bool) {k : ℕ} (hk : xs.length < k) :
    scan l.next h p k (l.next h) = some (xs.find? p) := by
  revert k
  refine hr.induction (motive := fun ys b => ∀ {k}, ys.length < k →
    scan l.next h p k b = some (ys.find? p)) ?_ ?_
  · rintro (_ | k) hk
    · exact absurd hk (Nat.not_lt_zero _)
    · simp [scan]
  · rintro b ys hb ih (_ | k) hk
    · exact absurd hk (Nat.not_lt_zero _)
    · simp only [scan, hb, if_false, List.find?_cons]
      cases hp : p b with
      | true => simp
      | false => simpa using ih (by simpa using hk)

theorem Ring.walk_next (hr : l.Ring h xs) {k : ℕ} (hk : xs.length < k) :
    walk l.next h k (l.next h) = some xs := by
  revert k
  refine hr.induction (motive := fun ys b => ∀ {k}, ys.length < k →
    walk l.next h k b = some ys) ?_ ?_
  · rintro (_ | k) hk
    · exact absurd hk (Nat.not_lt_zero _)
    · simp [walk]
  · rintro b ys hb ih (_ | k) hk
    · exact absurd hk (Nat.not_lt_zero _)
    · simp [walk, hb, ih (by simpa using hk)]

theorem Ring.scan_prev (hr : l.Ring h xs) (p : α → Bool) {k : ℕ} (hk : xs.length < k) :
    scan l.prev h p k (l.prev h) = some (xs.reverse.find? p) :=
  hr.flip.scan_next p (by simpa using hk)

theorem Ring.walk_prev (hr : l.Ring h xs) {k : ℕ} (hk : xs.length < k) :
    walk l.prev h k (l.prev h) = some xs.reverse :=
  hr.flip.walk_next (by simpa using hk)

end Walk

end Links

end Xv6.Library
