import Xv6.Library.Cyclic
import Xv6.User.Umalloc

/-! # The free list of the user heap

The headers link the free blocks in the order of their addresses, in a ring through `base`; no two of
them touch.  `free` and `malloc` keep that, and what is free or in use is what `morecore` has got.
-/
namespace Xv6.User
open Library Segment

variable {σ : Type}

def nodes (base : ℕ) (fs : List Segment) : List Segment := ⟨base, 0⟩ :: fs

structure HeapInv (base : ℕ) (h : Heap σ) (fs live : List Segment) : Prop where
  pos : 0 < base
  freep : h.freep ∈ (nodes base fs).map start
  linked : Linked h.ptr ((nodes base fs).map start)
  separated : Separated (nodes base fs)
  size : ∀ s ∈ nodes base fs ++ live, HEADER * h.size s.start = s.len
  tiles : Tiles (fs ++ live) h.obtained
  above : ∀ r ∈ h.obtained, base + HEADER ≤ r.start
  bound : (h.obtained.map len).sum < HEADER * 2 ^ 32

namespace HeapInv

variable {base fuel : ℕ} {h : Heap σ} {fs live pre post : List Segment} {s t p v : Segment}

theorem base_lt (hi : HeapInv base h fs live) (hs : s ∈ fs ++ live) : base + HEADER ≤ s.start :=
  hi.tiles.start_ge hi.above hs

theorem start_lt (hi : HeapInv base h fs live) (heq : nodes base fs = pre ++ p :: post)
    (ht : t ∈ post) : p.stop < t.start := by
  have hsep := hi.separated
  rw [heq] at hsep
  exact List.rel_of_pairwise_cons (List.pairwise_append.mp hsep).2.1 ht

theorem base_le (hi : HeapInv base h fs live) (hs : s ∈ nodes base fs) : base ≤ s.start := by
  rcases List.mem_cons.mp hs with rfl | hs
  · exact le_rfl
  · have := hi.base_lt (List.mem_append_left _ hs)
    omega

theorem live_ne (hi : HeapInv base h fs live) (hs : s ∈ live) (ht : t ∈ nodes base fs) :
    s.start ≠ t.start := by
  rcases List.mem_cons.mp ht with rfl | ht
  · have := hi.base_lt (List.mem_append_right _ hs)
    unfold HEADER at this
    dsimp only
    omega
  · have hs' := hi.tiles.pos s (List.mem_append_right _ hs)
    have ht' := hi.tiles.pos t (List.mem_append_left _ ht)
    have hapart := (List.pairwise_append.mp hi.tiles.apart).2.2 t ht s hs
    unfold Apart stop at hapart
    omega

theorem live_start_ne (hi : HeapInv base h fs (s :: live)) (ht : t ∈ live) : s.start ≠ t.start := by
  have hpieces := (List.pairwise_append.mp hi.tiles.apart).2.1
  have hapart : Apart s t := List.rel_of_pairwise_cons hpieces ht
  have hs := hi.tiles.pos s (List.mem_append_right _ List.mem_cons_self)
  have ht := hi.tiles.pos t (List.mem_append_right _ (List.mem_cons_of_mem _ ht))
  unfold Apart stop at hapart
  omega

/-! ## The ring -/

/-- The link of a block leads to the next one, and that of the last block to `base`. -/
theorem ptr_eq (hi : HeapInv base h fs live) (heq : nodes base fs = pre ++ p :: post) :
    (post = [] ∧ h.ptr p.start = base) ∨ ∃ t post', post = t :: post' ∧ h.ptr p.start = t.start := by
  have hlink := hi.linked
  rw [heq, List.map_append] at hlink
  have hring := (Linked.cons_iff.mp hlink.rotate).1
  cases post with
  | nil =>
    refine Or.inl ⟨rfl, hring base ?_⟩
    have hhead := congrArg (fun l => (l.map start).head?) heq
    rw [List.map_append] at hhead
    exact hhead.symm
  | cons t post => exact Or.inr ⟨t, post, rfl, hring t.start rfl⟩

/-- A block that a link from the list leads to, other than `base`, is the next one. -/
theorem split_at_ptr (hi : HeapInv base h fs live) {prev q : ℕ}
    (hprev : prev ∈ (nodes base fs).map start) (hptr : h.ptr prev = q) (hq : q ≠ base) :
    ∃ pre v p post, nodes base fs = pre ++ v :: p :: post ∧ v.start = prev ∧ p.start = q := by
  obtain ⟨v, hv, rfl⟩ := List.mem_map.mp hprev
  obtain ⟨pre, post, heq⟩ := List.append_of_mem hv
  rcases hi.ptr_eq heq with ⟨rfl, hbase⟩ | ⟨p, post', rfl, hp⟩
  · exact absurd (hptr.symm.trans hbase) hq
  · exact ⟨pre, v, p, post', heq, rfl, hp.symm.trans hptr⟩

/-! ## The loop of free -/

def StopsAt (h : Heap σ) (bp p : ℕ) : Prop :=
  (p < bp ∧ bp < h.ptr p) ∨ (h.ptr p ≤ p ∧ (p < bp ∨ bp < h.ptr p))

theorem freeSearch_chain {bp q : ℕ} {zs : List ℕ}
    (hchain : (q :: zs).IsChain fun a b => h.ptr a = b) (hex : ∃ x ∈ q :: zs, StopsAt h bp x)
    (hfuel : zs.length < fuel) :
    ∃ x ∈ q :: zs, StopsAt h bp x ∧ h.freeSearch bp fuel q = some x := by
  induction zs generalizing q fuel with
  | nil =>
    obtain ⟨x, hx, hstop⟩ := hex
    obtain rfl := List.mem_singleton.mp hx
    obtain ⟨fuel, rfl⟩ := Nat.exists_eq_add_one_of_ne_zero (Nat.ne_of_gt hfuel)
    refine ⟨x, hx, hstop, ?_⟩
    unfold Heap.freeSearch
    by_cases hfirst : x < bp ∧ bp < h.ptr x
    · rw [if_pos hfirst]
    · rw [if_neg hfirst, if_pos (hstop.resolve_left hfirst)]
  | cons y zs ih =>
    obtain ⟨fuel, rfl⟩ := Nat.exists_eq_add_one_of_ne_zero (Nat.ne_zero_of_lt hfuel)
    by_cases hq : StopsAt h bp q
    · refine ⟨q, List.mem_cons_self, hq, ?_⟩
      unfold Heap.freeSearch
      by_cases hfirst : q < bp ∧ bp < h.ptr q
      · rw [if_pos hfirst]
      · rw [if_neg hfirst, if_pos (hq.resolve_left hfirst)]
    · rw [List.isChain_cons_cons] at hchain
      have hex' : ∃ x ∈ y :: zs, StopsAt h bp x := by
        obtain ⟨x, hx, hstop⟩ := hex
        rcases List.mem_cons.mp hx with rfl | hx
        · exact absurd hstop hq
        · exact ⟨x, hx, hstop⟩
      obtain ⟨x, hx, hstop, hrun⟩ := ih hchain.2 hex' (by simpa using hfuel)
      refine ⟨x, List.mem_cons_of_mem _ hx, hstop, ?_⟩
      unfold StopsAt at hq
      rw [not_or] at hq
      rw [Heap.freeSearch, if_neg hq.1, if_neg hq.2, hchain.1]
      exact hrun

/-- The loop ends at the block after which the address has its place. -/
theorem stopsAt_iff (hi : HeapInv base h fs live) (heq : nodes base fs = pre ++ p :: post) {bp : ℕ}
    (hbp : base < bp) : StopsAt h bp p.start ↔ p.start < bp ∧ ∀ t ∈ post, bp < t.start := by
  have hp : base ≤ p.start := hi.base_le (heq ▸ List.mem_append_right _ List.mem_cons_self)
  unfold StopsAt
  rcases hi.ptr_eq heq with ⟨rfl, hptr⟩ | ⟨t, post', rfl, hptr⟩
  · rw [hptr]
    simp only [List.not_mem_nil, false_imp_iff, implies_true, and_true]
    omega
  · have hfirst := hi.start_lt heq List.mem_cons_self
    have hall : (∀ u ∈ t :: post', bp < u.start) ↔ bp < t.start := by
      refine ⟨fun hu => hu t List.mem_cons_self, fun ht u hu => ?_⟩
      rcases List.mem_cons.mp hu with rfl | hu
      · exact ht
      · have heq' : nodes base fs = (pre ++ [p]) ++ t :: post' := by
          rw [heq, List.append_assoc]
          rfl
        have := hi.start_lt heq' hu
        unfold stop at this
        omega
    rw [hptr, hall]
    unfold stop at hfirst
    omega

theorem ring_at (hi : HeapInv base h fs live) (heq : nodes base fs = pre ++ p :: post) :
    Linked h.ptr ((p :: (post ++ pre)).map start) ∧ ((p :: (post ++ pre)).map start).Nodup := by
  have hlink := hi.linked
  have hnodup := hi.separated.nodup
  rw [heq, List.map_append] at hlink hnodup
  refine ⟨?_, ?_⟩
  · have := hlink.rotate
    rwa [← List.map_append] at this
  · have := List.nodup_append_comm.mp hnodup
    rwa [← List.map_append] at this

/-- The list from a block of it, around the ring. -/
theorem rotate_at (hi : HeapInv base h fs live) {q : ℕ} (hq : q ∈ (nodes base fs).map start) :
    ∃ l, Linked h.ptr (q :: l) ∧ (q :: l).Perm ((nodes base fs).map start) := by
  obtain ⟨pre, post, heq⟩ := List.append_of_mem hq
  have hlink := hi.linked
  rw [heq] at hlink ⊢
  exact ⟨post ++ pre, hlink.rotate, (@List.perm_append_comm _ pre (q :: post)).symm⟩

theorem freeSearch_spec (hi : HeapInv base h fs live) {bp : ℕ} (hbp : base < bp)
    (hne : ∀ t ∈ nodes base fs, t.start ≠ bp) (hfuel : fs.length < fuel) :
    ∃ pre p post, nodes base fs = pre ++ p :: post ∧ p.start < bp ∧
      (∀ t ∈ post, bp < t.start) ∧ h.freeSearch bp fuel h.freep = some p.start := by
  obtain ⟨l, hlink, hperm⟩ := hi.rotate_at hi.freep
  have hlen : l.length = fs.length := by
    have := hperm.length_eq
    simpa [nodes] using this
  have hex : ∃ x ∈ h.freep :: l, StopsAt h bp x := by
    obtain ⟨pre, p, post, heq, hp⟩ := hi.separated.exists_last_before hbp
      fun t ht => hne t (List.mem_cons_of_mem _ ht)
    change nodes base fs = _ at heq
    refine ⟨p.start, hperm.mem_iff.mpr ?_, (hi.stopsAt_iff heq hbp).mpr hp⟩
    rw [heq]
    exact List.mem_map_of_mem (List.mem_append_right _ List.mem_cons_self)
  have hchain : (h.freep :: l).IsChain fun a b => h.ptr a = b := by
    have := hlink.isChain
    rw [← List.cons_append] at this
    exact this.left_of_append
  obtain ⟨x, hx, hstop, hrun⟩ := freeSearch_chain hchain hex (hlen.trans_lt hfuel)
  obtain ⟨p, hp, rfl⟩ := List.mem_map.mp (hperm.mem_iff.mp hx)
  obtain ⟨pre, post, heq⟩ := List.append_of_mem hp
  obtain ⟨hlt, hpost⟩ := (hi.stopsAt_iff heq hbp).mp hstop
  exact ⟨pre, p, post, heq, hlt, hpost, hrun⟩

/-! ## Joining -/

theorem mem_fs_of_post (heq : nodes base fs = pre ++ p :: post) (ht : t ∈ post) : t ∈ fs := by
  cases pre with
  | nil =>
    obtain ⟨_, rfl⟩ := List.cons.inj heq
    exact ht
  | cons b pre =>
    obtain ⟨_, rfl⟩ := List.cons.inj heq
    exact List.mem_append_right _ (List.mem_cons_of_mem _ ht)

/-- A block in use has its place between the free ones. -/
theorem between (hi : HeapInv base h fs (s :: live)) (heq : nodes base fs = pre ++ p :: post)
    (hlt : p.start < s.start) (hpost : ∀ t ∈ post, s.start < t.start) :
    p.stop ≤ s.start ∧ ∀ t ∈ post, s.stop ≤ t.start := by
  have hs : s ∈ s :: live := List.mem_cons_self
  have hspos := hi.tiles.pos s (List.mem_append_right _ hs)
  constructor
  · have hp : p ∈ nodes base fs := heq ▸ List.mem_append_right _ List.mem_cons_self
    rcases List.mem_cons.mp hp with rfl | hp
    · exact hlt.le
    · have hapart := (List.pairwise_append.mp hi.tiles.apart).2.2 p hp s hs
      unfold Apart stop at *
      omega
  · intro t ht
    have hapart := (List.pairwise_append.mp hi.tiles.apart).2.2 t (mem_fs_of_post heq ht) s hs
    have hgt := hpost t ht
    have htpos := hi.tiles.pos t (List.mem_append_left _ (mem_fs_of_post heq ht))
    unfold Apart stop at *
    omega

/-- The list after the block came in, and the bounds of the sizes on the way. -/
theorem tiles_insert (hi : HeapInv base h fs (s :: live)) (heq : nodes base fs = pre ++ p :: post)
    (hlt : p.start < s.start) :
    ∃ fs', nodes base fs' = pre ++ joinRight p (joinRight s post) ∧
      Tiles (fs' ++ live) h.obtained ∧ (∀ u ∈ joinRight s post, u.len < HEADER * 2 ^ 32) ∧
      ∀ v ∈ joinRight p (joinRight s post), v.len < HEADER * 2 ^ 32 := by
  have hbound : ∀ {pieces : List Segment}, Tiles pieces h.obtained → ∀ u ∈ pieces,
      u.len < HEADER * 2 ^ 32 := fun ht u hu => (ht.len_le_total hu).trans_lt hi.bound
  cases pre with
  | nil =>
    obtain ⟨rfl, rfl⟩ := List.cons.inj heq
    have htiles : Tiles (joinRight s fs ++ live) h.obtained :=
      (hi.tiles.perm List.perm_middle).joinRight
    have hbase : joinRight ⟨base, 0⟩ (joinRight s fs) = ⟨base, 0⟩ :: joinRight s fs := by
      obtain ⟨u, l, hu, hstart, _⟩ := joinRight_eq_cons s fs
      rw [hu]
      refine if_neg ?_
      rw [hstart]
      exact hlt.ne
    refine ⟨joinRight s fs, by rw [hbase]; rfl, htiles, ?_, ?_⟩
    · intro u hu
      exact hbound htiles u (List.mem_append_left _ hu)
    · rw [hbase]
      intro v hv
      rcases List.mem_cons.mp hv with rfl | hv
      · unfold HEADER
        norm_num
      · exact hbound htiles v (List.mem_append_left _ hv)
  | cons b pre =>
    rw [List.cons_append] at heq
    obtain ⟨rfl, rfl⟩ := List.cons.inj heq
    have hfirst : Tiles (joinRight s post ++ (p :: (pre ++ live))) h.obtained := by
      refine Tiles.joinRight (hi.tiles.perm ?_)
      refine List.perm_middle.trans (List.Perm.cons s ?_)
      rw [List.append_assoc, List.cons_append]
      refine List.perm_middle.trans ?_
      refine List.Perm.trans ?_ List.perm_middle.symm
      refine List.Perm.cons p ?_
      rw [← List.append_assoc, ← List.append_assoc]
      exact List.Perm.append_right _ List.perm_append_comm
    have hsecond : Tiles (joinRight p (joinRight s post) ++ (pre ++ live)) h.obtained :=
      Tiles.joinRight (hfirst.perm List.perm_middle)
    refine ⟨pre ++ joinRight p (joinRight s post), rfl, ?_, ?_, ?_⟩
    · refine hsecond.perm ?_
      rw [← List.append_assoc]
      exact List.Perm.append_right _ List.perm_append_comm
    · intro u hu
      exact hbound hfirst u (List.mem_append_left _ hu)
    · intro v hv
      exact hbound hsecond v (List.mem_append_left _ hv)

theorem joinUpper_spec (hi : HeapInv base h fs (s :: live))
    (heq : nodes base fs = pre ++ p :: post) (hlt : p.start < s.start)
    (hbound : ∀ u ∈ joinRight s post, u.len < HEADER * 2 ^ 32) :
    ∃ u post' x m, joinRight s post = u :: post' ∧ u.start = s.start ∧ (∀ t ∈ post', t ∈ post) ∧
      h.joinUpper s.start p.start =
        { h with
          ptr := Function.update h.ptr s.start x, size := Function.update h.size s.start m } ∧
      HEADER * m = u.len ∧
      Linked (Function.update h.ptr p.start x) ((p :: (post' ++ pre)).map start) := by
  have hs : s ∈ nodes base fs ++ s :: live := List.mem_append_right _ List.mem_cons_self
  have hsize := hi.size s hs
  obtain ⟨hring, hnodup⟩ := hi.ring_at heq
  unfold Heap.joinUpper
  rw [hsize]
  rcases joinRight_cases s post with ⟨hapart, hjoin⟩ | ⟨t, post', rfl, htouch, hjoin⟩
  · have hne : s.start + s.len ≠ h.ptr p.start := by
      rcases hi.ptr_eq heq with ⟨rfl, hptr⟩ | ⟨t, post', rfl, hptr⟩
      · have := hi.base_le (heq ▸ List.mem_append_right _ List.mem_cons_self : p ∈ nodes base fs)
        omega
      · rw [hptr]
        exact hapart t rfl
    rw [if_neg hne]
    refine ⟨s, post, h.ptr p.start, h.size s.start, hjoin, rfl, fun _ ht => ht, ?_, hsize, ?_⟩
    · rw [Function.update_eq_self]
      rfl
    · rw [Function.update_eq_self]
      exact hring
  · have hptr : h.ptr p.start = t.start := by
      rcases hi.ptr_eq heq with ⟨hnil, _⟩ | ⟨t', post'', hcons, hptr⟩
      · cases hnil
      · obtain ⟨rfl, rfl⟩ := List.cons.inj hcons
        exact hptr
    have ht : t ∈ nodes base fs ++ s :: live := by
      refine List.mem_append_left _ (heq ▸ List.mem_append_right _ ?_)
      exact List.mem_cons_of_mem _ List.mem_cons_self
    have hsizet := hi.size t ht
    have hlen : s.len + t.len < HEADER * 2 ^ 32 := hbound _ (hjoin ▸ List.mem_cons_self)
    have hsum : h.size s.start + h.size t.start < 2 ^ 32 := by
      unfold HEADER at *
      omega
    rw [hptr, if_pos (show s.start + s.len = t.start from htouch), Nat.mod_eq_of_lt hsum]
    refine ⟨_, post', h.ptr t.start, h.size s.start + h.size t.start, hjoin, rfl,
      fun _ hu => List.mem_cons_of_mem _ hu, rfl, ?_, ?_⟩
    · rw [Nat.mul_add, hsize, hsizet]
    · rw [List.map_cons, List.cons_append, List.map_cons] at hring hnodup
      refine hring.remove ?_
      exact fun hm => (List.nodup_cons.mp hnodup).1 (List.mem_cons_of_mem _ hm)

/-- The heap after a block came in between `p` and the blocks after it. -/
theorem join_spec (hi : HeapInv base h fs (s :: live)) (heq : nodes base fs = pre ++ p :: post)
    (hlt : p.start < s.start)
    (hfirst : ∀ u ∈ joinRight s post, u.len < HEADER * 2 ^ 32)
    (hsecond : ∀ v ∈ joinRight p (joinRight s post), v.len < HEADER * 2 ^ 32) :
    ∃ ptr size, (h.joinUpper s.start p.start).joinLower s.start p.start =
        { h with ptr := ptr, size := size } ∧
      Linked ptr ((joinRight p (joinRight s post) ++ pre).map start) ∧
      (∀ v ∈ joinRight p (joinRight s post), HEADER * size v.start = v.len) ∧
      ∀ a, a ≠ p.start → a ≠ s.start → size a = h.size a := by
  obtain ⟨u, post', x, m, hu, hustart, hsub, hupper, hm, hlink⟩ := hi.joinUpper_spec heq hlt hfirst
  have hp : p ∈ nodes base fs := heq ▸ List.mem_append_right _ List.mem_cons_self
  have hsizep := hi.size p (List.mem_append_left _ hp)
  obtain ⟨_, hnodup⟩ := hi.ring_at heq
  have hsub' : ∀ t ∈ post' ++ pre, t ∈ post ++ pre := by
    intro t ht
    rcases List.mem_append.mp ht with ht | ht
    · exact List.mem_append_left _ (hsub t ht)
    · exact List.mem_append_right _ ht
  have hnot : p.start ∉ (post' ++ pre).map start := by
    intro hmem
    obtain ⟨t, ht, hts⟩ := List.mem_map.mp hmem
    exact (List.nodup_cons.mp hnodup).1 (List.mem_map.mpr ⟨t, hsub' t ht, hts⟩)
  have hnew : s.start ∉ (p :: (post' ++ pre)).map start := by
    intro hmem
    obtain ⟨t, ht, hts⟩ := List.mem_map.mp hmem
    refine hi.live_ne List.mem_cons_self ?_ hts.symm
    rcases List.mem_cons.mp ht with rfl | ht
    · exact hp
    · rw [heq]
      rcases List.mem_append.mp (hsub' t ht) with ht | ht
      · exact List.mem_append_right _ (List.mem_cons_of_mem _ ht)
      · exact List.mem_append_left _ ht
  have hrest : ∀ t ∈ post', HEADER * h.size t.start = t.len := by
    intro t ht
    refine hi.size t (List.mem_append_left _ (heq ▸ List.mem_append_right _ ?_))
    exact List.mem_cons_of_mem _ (hsub t ht)
  have hnep : ∀ t ∈ post', t.start ≠ p.start := by
    intro t ht hts
    exact hnot (List.mem_map.mpr ⟨t, List.mem_append_left _ ht, hts⟩)
  have hnes : ∀ t ∈ post', t.start ≠ s.start := by
    intro t ht hts
    refine hnew (List.mem_map.mpr ⟨t, List.mem_cons_of_mem _ (List.mem_append_left _ ht), hts⟩)
  rw [hu] at hsecond ⊢
  rw [hupper]
  unfold Heap.joinLower
  simp only [Function.update_of_ne hlt.ne, Function.update_self, hsizep]
  rcases joinRight_cases p (u :: post') with ⟨hapart, hjoin⟩ | ⟨t, l, hl, htouch, hjoin⟩
  · have hne : p.start + p.len ≠ s.start := by
      rw [← hustart]
      exact hapart u rfl
    rw [if_neg hne, hjoin]
    refine ⟨_, _, rfl, ?_, ?_, ?_⟩
    · have hins := hlink.insert hnot hnew
      rw [Function.update_self] at hins
      simp only [List.cons_append, List.map_cons, hustart]
      refine hins.congr ?_
      intro a _
      by_cases hap : a = p.start
      · rw [hap, Function.update_self, Function.update_self]
      · rw [Function.update_of_ne hap, Function.update_of_ne hap]
        by_cases has : a = s.start
        · rw [has, Function.update_self, Function.update_self]
        · rw [Function.update_of_ne has, Function.update_of_ne has, Function.update_of_ne hap]
    · intro v hv
      dsimp only
      rcases List.mem_cons.mp hv with rfl | hv
      · rw [Function.update_of_ne hlt.ne, hsizep]
      · rcases List.mem_cons.mp hv with rfl | hv
        · rw [hustart, Function.update_self, hm]
        · rw [Function.update_of_ne (hnes v hv), hrest v hv]
    · intro a _ has
      exact Function.update_of_ne has _ _
  · obtain ⟨rfl, rfl⟩ := List.cons.inj hl
    rw [hustart] at htouch
    rw [if_pos (show p.start + p.len = s.start from htouch), hjoin]
    have hsum : h.size p.start + m < 2 ^ 32 := by
      have : p.len + u.len < HEADER * 2 ^ 32 := hsecond _ (hjoin ▸ List.mem_cons_self)
      unfold HEADER at *
      omega
    rw [Nat.mod_eq_of_lt hsum]
    refine ⟨_, _, rfl, ?_, ?_, ?_⟩
    · refine hlink.congr ?_
      intro a ha
      dsimp only [Heap.setPtr, Heap.setSize]
      by_cases hap : a = p.start
      · rw [hap, Function.update_self, Function.update_self]
      · have has : a ≠ s.start := ne_of_mem_of_not_mem ha hnew
        rw [Function.update_of_ne hap, Function.update_of_ne hap, Function.update_of_ne has]
    · intro v hv
      dsimp only [Heap.setPtr, Heap.setSize]
      rcases List.mem_cons.mp hv with rfl | hv
      · rw [Function.update_self, Nat.mul_add, hsizep, hm]
      · rw [Function.update_of_ne (hnep v hv), Function.update_of_ne (hnes v hv), hrest v hv]
    · intro a hap has
      dsimp only [Heap.setPtr, Heap.setSize]
      rw [Function.update_of_ne hap, Function.update_of_ne has]

theorem free_spec (hi : HeapInv base h fs (s :: live)) (hfuel : fs.length < fuel) :
    ∃ h' fs', h.free (s.start + HEADER) fuel = some h' ∧ HeapInv base h' fs' live ∧
      h'.env = h.env ∧ h'.obtained = h.obtained ∧ fs'.length ≤ fs.length + 1 ∧
      ∃ t ∈ fs', s.len ≤ t.len := by
  have hs : s ∈ s :: live := List.mem_cons_self
  have hbp : base < s.start := by
    have := hi.base_lt (List.mem_append_right _ hs)
    unfold HEADER at this
    omega
  obtain ⟨pre, p, post, heq, hlt, hpost, hrun⟩ :=
    hi.freeSearch_spec hbp (fun t ht => (hi.live_ne hs ht).symm) hfuel
  obtain ⟨hbelow, habove⟩ := hi.between heq hlt hpost
  obtain ⟨fs', hfs', htiles, hfirst, hsecond⟩ := hi.tiles_insert heq hlt
  obtain ⟨ptr, size, hjoin, hlink, hsize, hsame⟩ := hi.join_spec heq hlt hfirst hsecond
  have hp : p ∈ nodes base fs := heq ▸ List.mem_append_right _ List.mem_cons_self
  refine ⟨{ h with ptr := ptr, size := size, freep := p.start }, fs', ?_, ?_, rfl, rfl, ?_, ?_⟩
  · unfold Heap.free
    dsimp only
    rw [Nat.add_sub_cancel, hrun, Option.map_some, hjoin]
  · obtain ⟨v, l, hv, hvstart, _⟩ := joinRight_eq_cons p (joinRight s post)
    refine ⟨hi.pos, ?_, ?_, ?_, ?_, htiles, hi.above, hi.bound⟩
    · rw [hfs', hv, ← hvstart]
      exact List.mem_map_of_mem (List.mem_append_right _ List.mem_cons_self)
    · rw [hfs', List.map_append]
      refine Linked.rotate ?_
      rwa [← List.map_append]
    · have hsep := hi.separated
      rw [heq] at hsep
      rw [hfs']
      exact hsep.insert hbelow habove
    · intro t ht
      dsimp only
      rw [hfs'] at ht
      rcases List.mem_append.mp ht with ht | ht
      · rcases List.mem_append.mp ht with ht | ht
        · have hmem : t ∈ nodes base fs := heq ▸ List.mem_append_left _ ht
          have hne : t.start ≠ p.start := by
            have hsep := hi.separated
            rw [heq] at hsep
            have : t.stop < p.start :=
              (List.pairwise_append.mp hsep).2.2 t ht p List.mem_cons_self
            unfold stop at this
            omega
          rw [hsame _ hne (hi.live_ne hs hmem).symm]
          exact hi.size t (List.mem_append_left _ hmem)
        · exact hsize t ht
      · have hmem : t ∈ s :: live := List.mem_cons_of_mem _ ht
        rw [hsame _ (hi.live_ne hmem hp) (hi.live_start_ne ht).symm]
        exact hi.size t (List.mem_append_right _ hmem)
  · have hlen := congrArg List.length hfs'
    have hold := congrArg List.length heq
    have hfirst := length_joinRight_le s post
    have hsecond := length_joinRight_le p (joinRight s post)
    simp only [nodes, List.length_cons, List.length_append] at hlen hold
    omega
  · obtain ⟨u, l, hu, _, hle, _⟩ := joinRight_eq_cons s post
    obtain ⟨t, ht, hle'⟩ := exists_mem_joinRight p (hu ▸ List.mem_cons_self : u ∈ joinRight s post)
    have hmem : t ∈ nodes base fs' := hfs' ▸ List.mem_append_right _ ht
    have hpos := hi.tiles.pos s (List.mem_append_right _ hs)
    rcases List.mem_cons.mp hmem with rfl | hmem
    · dsimp only at hle'
      omega
    · exact ⟨t, hmem, hle.trans hle'⟩

end HeapInv

end Xv6.User
