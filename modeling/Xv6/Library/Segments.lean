import Mathlib.Tactic

/-! # Segments of an address space

Pieces that tile a list of regions, and lists of pieces in which each one ends before the next one
starts.
-/
namespace Xv6.Library

structure Segment where
  start : ℕ
  len : ℕ
  deriving DecidableEq

namespace Segment

def stop (s : Segment) : ℕ := s.start + s.len

def Has (s : Segment) (x : ℕ) : Prop := s.start ≤ x ∧ x < s.stop

def Apart (s t : Segment) : Prop := s.stop ≤ t.start ∨ t.stop ≤ s.start

variable {s t r : Segment}

theorem Apart.symm (h : Apart s t) : Apart t s := Or.symm h

theorem Apart.not_has (h : Apart s t) {x : ℕ} (hs : s.Has x) : ¬ t.Has x := by
  rintro ht
  have := hs.1
  have := hs.2
  have := ht.1
  have := ht.2
  rcases h with h | h <;> omega

theorem apart_of_not_has (hs : 0 < s.len) (ht : 0 < t.len) (h : ∀ x, s.Has x → ¬ t.Has x) :
    Apart s t := by
  by_contra hover
  unfold Apart at hover
  rw [not_or] at hover
  unfold Has stop at *
  refine h (max s.start t.start) ?_ ?_ <;> omega

/-! ## Tilings -/

/-- The pieces do not overlap and make up the regions. -/
structure Tiles (pieces regions : List Segment) : Prop where
  pos : ∀ s ∈ pieces, 0 < s.len
  apart : pieces.Pairwise Apart
  has_iff : ∀ x, (∃ s ∈ pieces, s.Has x) ↔ ∃ r ∈ regions, r.Has x
  total : (pieces.map len).sum = (regions.map len).sum

namespace Tiles

variable {pieces pieces' regions : List Segment} {a m n : ℕ}

theorem nil : Tiles [] [] :=
  ⟨fun _ hs => absurd hs List.not_mem_nil, .nil, fun _ => Iff.rfl, rfl⟩

theorem perm (h : Tiles pieces regions) (hp : pieces.Perm pieces') : Tiles pieces' regions where
  pos s hs := h.pos s (hp.mem_iff.mpr hs)
  apart := (hp.pairwise_iff Apart.symm).mp h.apart
  has_iff x := by
    rw [← h.has_iff x]
    simp only [hp.mem_iff]
  total := by
    rw [← h.total]
    exact ((hp.map len).sum_eq).symm

theorem apart_of_mem (h : Tiles (s :: pieces) regions) (ht : t ∈ pieces) : Apart s t :=
  List.rel_of_pairwise_cons h.apart ht

theorem split (h : Tiles (⟨a, m + n⟩ :: pieces) regions) (hm : 0 < m) (hn : 0 < n) :
    Tiles (⟨a, m⟩ :: ⟨a + m, n⟩ :: pieces) regions := by
  have hcut : ∀ t ∈ pieces, Apart ⟨a, m⟩ t ∧ Apart ⟨a + m, n⟩ t := by
    intro t ht
    have := h.apart_of_mem ht
    unfold Apart stop at *
    dsimp only at *
    omega
  refine ⟨?_, ?_, ?_, ?_⟩
  · intro s hs
    rcases List.mem_cons.mp hs with rfl | hs
    · exact hm
    · rcases List.mem_cons.mp hs with rfl | hs
      · exact hn
      · exact h.pos s (List.mem_cons_of_mem _ hs)
  · refine .cons ?_ (.cons (fun t ht => (hcut t ht).2) h.apart.of_cons)
    intro t ht
    rcases List.mem_cons.mp ht with rfl | ht
    · exact Or.inl le_rfl
    · exact (hcut t ht).1
  · intro x
    rw [← h.has_iff x, List.exists_mem_cons_iff, List.exists_mem_cons_iff,
      List.exists_mem_cons_iff, ← or_assoc]
    refine or_congr_left ?_
    unfold Has stop
    dsimp only
    omega
  · rw [← h.total]
    simp only [List.map_cons, List.sum_cons]
    omega

theorem join (h : Tiles (⟨a, m⟩ :: ⟨a + m, n⟩ :: pieces) regions) :
    Tiles (⟨a, m + n⟩ :: pieces) regions := by
  have hm : 0 < m := h.pos _ List.mem_cons_self
  refine ⟨?_, ?_, ?_, ?_⟩
  · intro s hs
    rcases List.mem_cons.mp hs with rfl | hs
    · exact Nat.add_pos_left hm n
    · exact h.pos s (List.mem_cons_of_mem _ (List.mem_cons_of_mem _ hs))
  · refine .cons ?_ h.apart.of_cons.of_cons
    intro t ht
    have hpos := h.pos t (List.mem_cons_of_mem _ (List.mem_cons_of_mem _ ht))
    have hleft := h.apart_of_mem (List.mem_cons_of_mem _ ht)
    have hright := List.rel_of_pairwise_cons h.apart.of_cons ht
    unfold Apart stop at *
    dsimp only at *
    omega
  · intro x
    rw [← h.has_iff x, List.exists_mem_cons_iff, List.exists_mem_cons_iff,
      List.exists_mem_cons_iff, ← or_assoc]
    refine or_congr_left ?_
    unfold Has stop
    dsimp only
    omega
  · rw [← h.total]
    simp only [List.map_cons, List.sum_cons]
    omega

theorem add (h : Tiles pieces regions) (hpos : 0 < r.len) (hr : ∀ t ∈ regions, Apart r t) :
    Tiles (r :: pieces) (r :: regions) := by
  refine ⟨?_, ?_, ?_, ?_⟩
  · intro s hs
    rcases List.mem_cons.mp hs with rfl | hs
    · exact hpos
    · exact h.pos s hs
  · refine .cons ?_ h.apart
    intro t ht
    refine apart_of_not_has hpos (h.pos t ht) fun x hx htx => ?_
    obtain ⟨u, hu, hux⟩ := (h.has_iff x).mp ⟨t, ht, htx⟩
    exact (hr u hu).not_has hx hux
  · intro x
    rw [List.exists_mem_cons_iff, List.exists_mem_cons_iff, h.has_iff x]
  · simp only [List.map_cons, List.sum_cons]
    rw [h.total]

theorem len_le_total (h : Tiles pieces regions) (hs : s ∈ pieces) :
    s.len ≤ (regions.map len).sum := by
  rw [← h.total]
  exact List.single_le_sum (fun _ _ => Nat.zero_le _) _ (List.mem_map_of_mem hs)

/-- Pieces lie where the regions are. -/
theorem start_ge (h : Tiles pieces regions) {lo : ℕ} (hlo : ∀ r ∈ regions, lo ≤ r.start)
    (hs : s ∈ pieces) : lo ≤ s.start := by
  have hpos := h.pos s hs
  have hx : s.Has s.start := ⟨le_rfl, Nat.lt_add_of_pos_right hpos⟩
  obtain ⟨r, hr, hrx⟩ := (h.has_iff s.start).mp ⟨s, hs, hx⟩
  exact (hlo r hr).trans hrx.1

theorem stop_le (h : Tiles pieces regions) {hi : ℕ} (hhi : ∀ r ∈ regions, r.stop ≤ hi)
    (hs : s ∈ pieces) : s.stop ≤ hi := by
  have hpos := h.pos s hs
  have hx : s.Has (s.stop - 1) := by
    unfold Has stop
    omega
  obtain ⟨r, hr, hrx⟩ := (h.has_iff (s.stop - 1)).mp ⟨s, hs, hx⟩
  have := hhi r hr
  have := hrx.2
  omega

end Tiles

/-! ## Lists in which no two segments touch -/

/-- Each segment ends before the next ones start. -/
def Separated (l : List Segment) : Prop := l.Pairwise fun s t => s.stop < t.start

theorem Separated.nodup {l : List Segment} (h : Separated l) : (l.map start).Nodup := by
  refine List.pairwise_map.mpr (h.imp ?_)
  intro s t hst
  unfold stop at hst
  omega

/-- A segment before a list; it takes in the first one if that starts where it ends. -/
def joinRight (s : Segment) : List Segment → List Segment
  | [] => [s]
  | t :: l => if s.stop = t.start then ⟨s.start, s.len + t.len⟩ :: l else s :: t :: l

variable {l pre post : List Segment} {p : Segment}

/-- Only the first segment is another one, and it starts where the given one starts. -/
theorem joinRight_cases (s : Segment) (l : List Segment) :
    ((∀ t ∈ l.head?, s.stop ≠ t.start) ∧ joinRight s l = s :: l) ∨
      ∃ t l', l = t :: l' ∧ s.stop = t.start ∧ joinRight s l = ⟨s.start, s.len + t.len⟩ :: l' := by
  cases l with
  | nil => exact Or.inl ⟨by simp, rfl⟩
  | cons t l =>
    by_cases h : s.stop = t.start
    · exact Or.inr ⟨t, l, rfl, h, if_pos h⟩
    · refine Or.inl ⟨?_, if_neg h⟩
      intro u hu
      cases hu
      exact h

theorem joinRight_eq_cons (s : Segment) (l : List Segment) :
    ∃ u l', joinRight s l = u :: l' ∧ u.start = s.start ∧ s.len ≤ u.len ∧ ∀ t ∈ l', t ∈ l := by
  rcases joinRight_cases s l with ⟨_, h⟩ | ⟨t, l', rfl, _, h⟩
  · exact ⟨s, l, h, rfl, le_rfl, fun _ ht => ht⟩
  · exact ⟨_, l', h, rfl, Nat.le_add_right _ _, fun _ ht => List.mem_cons_of_mem _ ht⟩

theorem length_joinRight_le (s : Segment) (l : List Segment) :
    (joinRight s l).length ≤ l.length + 1 := by
  rcases joinRight_cases s l with ⟨_, h⟩ | ⟨t, l', rfl, _, h⟩
  · rw [h, List.length_cons]
  · rw [h, List.length_cons, List.length_cons]
    omega

/-- What comes in is part of some segment. -/
theorem exists_mem_joinRight {u : Segment} (p : Segment) (hu : u ∈ l) :
    ∃ v ∈ joinRight p l, u.len ≤ v.len := by
  rcases joinRight_cases p l with ⟨_, h⟩ | ⟨t, l', rfl, _, h⟩
  · exact ⟨u, h ▸ List.mem_cons_of_mem _ hu, le_rfl⟩
  · rw [h]
    rcases List.mem_cons.mp hu with rfl | hu
    · exact ⟨_, List.mem_cons_self, Nat.le_add_left _ _⟩
    · exact ⟨u, List.mem_cons_of_mem _ hu, le_rfl⟩

theorem joinRight_separated (hl : Separated l) (hs : ∀ t ∈ l, s.stop ≤ t.start) :
    Separated (joinRight s l) := by
  rcases joinRight_cases s l with ⟨hne, heq⟩ | ⟨t, l', rfl, hstop, heq⟩
  · rw [heq]
    refine .cons ?_ hl
    intro u hu
    cases l with
    | nil => cases hu
    | cons t l =>
      have hlt : s.stop < t.start := lt_of_le_of_ne (hs t List.mem_cons_self) (hne t rfl)
      rcases List.mem_cons.mp hu with rfl | hu
      · exact hlt
      · have : t.stop < u.start := List.rel_of_pairwise_cons hl hu
        unfold stop at *
        omega
  · have hnext : ∀ u ∈ l', t.stop < u.start := fun u hu => List.rel_of_pairwise_cons hl hu
    rw [heq]
    refine .cons ?_ hl.of_cons
    intro u hu
    have := hnext u hu
    unfold stop at *
    dsimp only
    omega

/-- What comes after the segments before `p` may change, if it starts where `p` does. -/
theorem Separated.replace (h : Separated (pre ++ p :: post)) (hl : Separated (s :: l))
    (hstart : p.start ≤ s.start) : Separated (pre ++ s :: l) := by
  refine List.pairwise_append.mpr ⟨(List.pairwise_append.mp h).1, hl, ?_⟩
  intro a ha b hb
  have hlt : a.stop < p.start := (List.pairwise_append.mp h).2.2 a ha p List.mem_cons_self
  rcases List.mem_cons.mp hb with rfl | hb
  · omega
  · have : s.stop < b.start := List.rel_of_pairwise_cons hl hb
    unfold stop at *
    omega

theorem Separated.exists_last_before {x : ℕ} (h : Separated (s :: l)) (hx : s.start < x)
    (hne : ∀ t ∈ l, t.start ≠ x) :
    ∃ pre p post, s :: l = pre ++ p :: post ∧ p.start < x ∧ ∀ t ∈ post, x < t.start := by
  induction l generalizing s with
  | nil => exact ⟨[], s, [], rfl, hx, fun _ ht => absurd ht List.not_mem_nil⟩
  | cons t l ih =>
    rcases lt_or_gt_of_ne (hne t List.mem_cons_self) with hlt | hgt
    · obtain ⟨pre, p, post, heq, hp⟩ :=
        ih h.of_cons hlt fun u hu => hne u (List.mem_cons_of_mem _ hu)
      refine ⟨s :: pre, p, post, ?_, hp⟩
      rw [heq, List.cons_append]
    · refine ⟨[], s, t :: l, rfl, hx, ?_⟩
      intro u hu
      rcases List.mem_cons.mp hu with rfl | hu
      · exact hgt
      · have : t.stop < u.start := List.rel_of_pairwise_cons h.of_cons hu
        unfold stop at this
        omega

theorem Separated.remove (h : Separated (pre ++ p :: post)) : Separated (pre ++ post) := by
  refine h.sublist ?_
  exact List.Sublist.append_left (List.sublist_cons_self _ _) _

/-- `p` is cut off at its end. -/
theorem Separated.shrink (h : Separated (pre ++ p :: post)) {n : ℕ} (hn : n ≤ p.len) :
    Separated (pre ++ ⟨p.start, n⟩ :: post) := by
  have htail : Separated (p :: post) := (List.pairwise_append.mp h).2.1
  refine h.replace (.cons ?_ htail.of_cons) le_rfl
  intro t ht
  have : p.stop < t.start := List.rel_of_pairwise_cons htail ht
  unfold stop at *
  dsimp only
  omega

/-- A segment comes in after `p` and is joined to what it touches. -/
theorem Separated.insert (h : Separated (pre ++ p :: post)) (hp : p.stop ≤ s.start)
    (hs : ∀ t ∈ post, s.stop ≤ t.start) :
    Separated (pre ++ joinRight p (joinRight s post)) := by
  have htail : Separated (p :: post) := (List.pairwise_append.mp h).2.1
  have hright := joinRight_separated htail.of_cons hs
  obtain ⟨u, l', hu, hstart, _⟩ := joinRight_eq_cons p (joinRight s post)
  rw [hu]
  refine h.replace ?_ hstart.ge
  rw [← hu]
  apply joinRight_separated hright
  intro t ht
  obtain ⟨v, l'', hv, hvs, _, hsub⟩ := joinRight_eq_cons s post
  rw [hv] at ht
  rcases List.mem_cons.mp ht with rfl | ht
  · omega
  · have := hs t (hsub t ht)
    unfold stop at *
    omega

theorem Tiles.joinRight {regions : List Segment} (h : Tiles (s :: (l ++ post)) regions) :
    Tiles (Segment.joinRight s l ++ post) regions := by
  rcases joinRight_cases s l with ⟨_, heq⟩ | ⟨t, l', rfl, hstop, heq⟩
  · rw [heq]
    exact h
  · rw [heq]
    refine Tiles.join ?_
    have : (⟨s.start + s.len, t.len⟩ : Segment) = t := by
      rw [show s.start + s.len = t.start from hstop]
    rw [this]
    exact h

end Segment

end Xv6.Library
