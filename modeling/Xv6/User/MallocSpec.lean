import Xv6.User.UmallocSpec

/-! # What malloc does to the user heap

It walks around the ring from `freep` to the first block that is large enough.  Back at `freep` it asks
for more core, and the walk over the new list finds a block.
-/
namespace Xv6.User
open Library Segment

variable {σ : Type} {sbrk : ℤ → σ → Option ℕ × σ}

/-- A region that `sbrk` may return: above `base`, apart from the ones before it, and not so large that
a block could outgrow its size field. -/
structure Fresh (base : ℕ) (h : Heap σ) (r : Segment) : Prop where
  above : base + HEADER ≤ r.start
  apart : ∀ t ∈ h.obtained, Apart r t
  bound : (h.obtained.map len).sum + r.len < HEADER * 2 ^ 32

instance {base : ℕ} {h : Heap σ} {r : Segment} : Decidable (Fresh base h r) :=
  decidable_of_iff
    (base + HEADER ≤ r.start ∧ (∀ t ∈ h.obtained, r.stop ≤ t.start ∨ t.stop ≤ r.start) ∧
      (h.obtained.map len).sum + r.len < HEADER * 2 ^ 32)
    ⟨fun ⟨above, apart, bound⟩ => ⟨above, apart, bound⟩,
      fun ⟨above, apart, bound⟩ => ⟨above, apart, bound⟩⟩

/-- What a call of `sbrk` does to the heap. -/
def Asked (sbrk : ℤ → σ → Option ℕ × σ) (nunits : ℕ) (h h' : Heap σ) : Prop :=
  ∃ got env, sbrk (Heap.sbrkArg (Heap.coreUnits nunits)) h.env = (got, env) ∧ h'.env = env ∧
    h'.obtained =
      (got.map fun a => (⟨a, HEADER * Heap.coreUnits nunits⟩ : Segment)).toList ++ h.obtained

namespace HeapInv

variable {base fuel n : ℕ} {h : Heap σ} {fs live pre post : List Segment} {s t p v : Segment}

theorem add_region (hi : HeapInv base h fs live) {r : Segment} (hr : Fresh base h r) {nu : ℕ}
    (hlen : HEADER * nu = r.len) (hnu : 0 < nu) (env : σ) :
    HeapInv base ({ h with env := env, obtained := r :: h.obtained }.setSize r.start nu) fs
      (r :: live) := by
  have hpos : 0 < r.len := by
    unfold HEADER at hlen
    omega
  have htiles : Tiles (r :: (fs ++ live)) (r :: h.obtained) := hi.tiles.add hpos hr.apart
  have hne : ∀ t ∈ nodes base fs ++ live, t.start ≠ r.start := by
    intro t ht
    rcases List.mem_append.mp ht with ht | ht
    · rcases List.mem_cons.mp ht with rfl | ht
      · have := hr.above
        unfold HEADER at this
        dsimp only
        omega
      · have hmem := List.mem_append_left live ht
        have hapart := htiles.apart_of_mem hmem
        have := hi.tiles.pos t hmem
        unfold Apart stop at hapart
        omega
    · have hmem := List.mem_append_right fs ht
      have hapart := htiles.apart_of_mem hmem
      have := hi.tiles.pos t hmem
      unfold Apart stop at hapart
      omega
  refine ⟨hi.pos, hi.freep, hi.linked, hi.separated, ?_, htiles.perm List.perm_middle.symm, ?_, ?_⟩
  · intro t ht
    rw [Heap.setSize_size]
    have hcases : t ∈ nodes base fs ++ live ∨ t = r := by
      rcases List.mem_append.mp ht with ht | ht
      · exact Or.inl (List.mem_append_left _ ht)
      · rcases List.mem_cons.mp ht with rfl | ht
        · exact Or.inr rfl
        · exact Or.inl (List.mem_append_right _ ht)
    rcases hcases with ht | rfl
    · rw [Function.update_of_ne (hne t ht)]
      exact hi.size t ht
    · rw [Function.update_self]
      exact hlen
  · intro t ht
    rcases List.mem_cons.mp ht with rfl | ht
    · exact hr.above
    · exact hi.above t ht
  · change (r.len + (h.obtained.map len).sum) < _
    have := hr.bound
    omega

theorem coreUnits_pos (n : ℕ) : 0 < Heap.coreUnits n := by
  unfold Heap.coreUnits MINUNITS
  split <;> omega

theorem le_coreUnits (n : ℕ) : n ≤ Heap.coreUnits n := by
  unfold Heap.coreUnits
  split <;> omega

theorem with_env (hi : HeapInv base h fs live) (env : σ) :
    HeapInv base { h with env := env } fs live := { hi with }

/-- `morecore` fails, or there is a block that is large enough on the list. -/
theorem morecore_spec (hi : HeapInv base h fs live) (hfuel : fs.length < fuel)
    (hsbrk : ∀ a env, sbrk (Heap.sbrkArg (Heap.coreUnits n)) h.env = (some a, env) →
      Fresh base h ⟨a, HEADER * Heap.coreUnits n⟩) :
    ∃ r h' fs', h.morecore sbrk n fuel = some (r, h') ∧ HeapInv base h' fs' live ∧
      Asked sbrk n h h' ∧
      (r = 0 ∨ r ≠ 0 ∧ h'.freep = r ∧ fs'.length ≤ fs.length + 1 ∧
        ∃ t ∈ fs', HEADER * n ≤ t.len) := by
  unfold Heap.morecore
  dsimp only
  cases hrun : sbrk (Heap.sbrkArg (Heap.coreUnits n)) h.env with
  | mk got env =>
    cases got with
    | none =>
      exact ⟨0, { h with env := env }, fs, rfl, hi.with_env env, ⟨none, env, hrun, rfl, rfl⟩,
        Or.inl rfl⟩
    | some a =>
      have hadd := hi.add_region (hsbrk a env hrun) rfl (coreUnits_pos n) env
      obtain ⟨h', fs', hfree, hi', henv, hobt, hlen, t, ht, hle⟩ := hadd.free_spec hfuel
      refine ⟨h'.freep, h', fs', ?_, hi', ⟨some a, env, hrun, henv, hobt⟩, Or.inr ⟨?_, rfl, hlen, t,
        ht, ?_⟩⟩
      · dsimp only
        dsimp only at hfree
        rw [hfree]
        rfl
      · obtain ⟨u, hu, hstart⟩ := List.mem_map.mp hi'.freep
        have := hi'.base_le hu
        have := hi'.pos
        omega
      · exact (Nat.mul_le_mul_left _ (le_coreUnits n)).trans hle

/-! ## Taking a block -/

theorem replace_node (heq : nodes base fs = pre ++ v :: p :: post) (l : List Segment) :
    ∃ fs' others, nodes base fs' = pre ++ v :: (l ++ post) ∧ fs.Perm (p :: others) ∧
      fs'.Perm (l ++ others) := by
  cases pre with
  | nil =>
    obtain ⟨rfl, rfl⟩ := List.cons.inj heq
    exact ⟨l ++ post, post, rfl, .refl _, .refl _⟩
  | cons b pre =>
    rw [List.cons_append] at heq
    obtain ⟨rfl, rfl⟩ := List.cons.inj heq
    refine ⟨pre ++ v :: (l ++ post), pre ++ v :: post, rfl, ?_, ?_⟩
    · have := @List.perm_middle _ p (pre ++ [v]) post
      rwa [← List.append_cons, ← List.append_cons] at this
    · have := @List.perm_append_comm_assoc _ (pre ++ [v]) l post
      rwa [← List.append_cons, ← List.append_cons] at this

theorem unlink (hi : HeapInv base h fs live) (heq : nodes base fs = pre ++ v :: p :: post) :
    ∃ fs', HeapInv base { h.setPtr v.start (h.ptr p.start) with freep := v.start } fs'
      (p :: live) := by
  obtain ⟨fs', others, hfs', hperm, hperm'⟩ := replace_node heq []
  have hsub : ∀ t ∈ nodes base fs', t ∈ nodes base fs := by
    intro t ht
    rw [hfs'] at ht
    rw [heq]
    rcases List.mem_append.mp ht with ht | ht
    · exact List.mem_append_left _ ht
    · refine List.mem_append_right _ ?_
      rcases List.mem_cons.mp ht with rfl | ht
      · exact List.mem_cons_self
      · exact List.mem_cons_of_mem _ (List.mem_cons_of_mem _ ht)
  have hp : p ∈ nodes base fs :=
    heq ▸ List.mem_append_right _ (List.mem_cons_of_mem _ List.mem_cons_self)
  obtain ⟨hring, hnodup⟩ := hi.ring_at heq
  refine ⟨fs', hi.pos, ?_, ?_, ?_, ?_, ?_, hi.above, hi.bound⟩
  · rw [hfs']
    exact List.mem_map_of_mem (List.mem_append_right _ List.mem_cons_self)
  · rw [hfs', List.map_append]
    refine Linked.rotate ?_
    rw [← List.map_append]
    refine hring.remove fun hm => (List.nodup_cons.mp hnodup).1 ?_
    exact List.mem_cons_of_mem _ hm
  · have hsep := hi.separated
    rw [heq, List.append_cons] at hsep
    rw [hfs', List.append_cons]
    exact hsep.remove
  · intro t ht
    refine hi.size t ?_
    rcases List.mem_append.mp ht with ht | ht
    · exact List.mem_append_left _ (hsub t ht)
    · rcases List.mem_cons.mp ht with rfl | ht
      · exact List.mem_append_left _ hp
      · exact List.mem_append_right _ ht
  · refine hi.tiles.perm ?_
    refine (List.Perm.append_right live (hperm.trans (hperm'.symm.cons p))).trans ?_
    exact List.perm_middle.symm

theorem cut (hi : HeapInv base h fs live) (heq : nodes base fs = pre ++ v :: p :: post)
    {rest : ℕ} (hlen : p.len = HEADER * rest + HEADER * n) (hrest : 0 < rest) (hn : 0 < n) :
    ∃ fs', HeapInv base
      { (h.setSize p.start rest).setSize (p.start + HEADER * rest) n with freep := v.start } fs'
      (⟨p.start + HEADER * rest, HEADER * n⟩ :: live) := by
  obtain ⟨fs', others, hfs', hperm, hperm'⟩ := replace_node heq [⟨p.start, HEADER * rest⟩]
  have hsep := hi.separated
  rw [heq, List.append_cons] at hsep
  have hHn : 0 < HEADER * n := Nat.mul_pos (by decide) hn
  have hHr : 0 < HEADER * rest := Nat.mul_pos (by decide) hrest
  have hmap : (nodes base fs').map start = (nodes base fs).map start := by
    rw [hfs', heq]
    simp only [List.map_append, List.map_cons, List.singleton_append]
  have htiles : Tiles (⟨p.start, HEADER * rest⟩ :: ⟨p.start + HEADER * rest, HEADER * n⟩ ::
      (others ++ live)) h.obtained := by
    refine Tiles.split ?_ hHr hHn
    rw [← hlen]
    exact hi.tiles.perm (List.Perm.append_right live hperm)
  have hlist : ∀ t ∈ (pre ++ [v]) ++ post, t ∈ nodes base fs ∧
      t.start ≠ p.start ∧ t.start ≠ p.start + HEADER * rest := by
    intro t ht
    rw [heq, List.append_cons]
    rcases List.mem_append.mp ht with ht | ht
    · have : t.stop < p.start := (List.pairwise_append.mp hsep).2.2 t ht p List.mem_cons_self
      unfold stop at this
      refine ⟨List.mem_append_left _ ht, ?_, ?_⟩ <;> omega
    · have : p.stop < t.start :=
        List.rel_of_pairwise_cons (List.pairwise_append.mp hsep).2.1 ht
      unfold stop at this
      refine ⟨List.mem_append_right _ (List.mem_cons_of_mem _ ht), ?_, ?_⟩ <;> omega
  have hlive : ∀ t ∈ live, t.start ≠ p.start ∧ t.start ≠ p.start + HEADER * rest := by
    intro t ht
    have hmem : t ∈ others ++ live := List.mem_append_right _ ht
    have hpos := hi.tiles.pos t (List.mem_append_right _ ht)
    have hlow := htiles.apart_of_mem (List.mem_cons_of_mem _ hmem)
    have hhigh := List.rel_of_pairwise_cons htiles.apart.of_cons hmem
    unfold Apart stop at hlow hhigh
    dsimp only at hlow hhigh
    constructor <;> omega
  refine ⟨fs', hi.pos, ?_, ?_, ?_, ?_, ?_, hi.above, hi.bound⟩
  · rw [hfs']
    exact List.mem_map_of_mem (List.mem_append_right _ List.mem_cons_self)
  · rw [hmap]
    exact hi.linked
  · rw [hfs', List.append_cons]
    refine hsep.shrink ?_
    omega
  · intro t ht
    change HEADER * Function.update (Function.update h.size p.start rest) _ n t.start = t.len
    rw [hfs'] at ht
    rcases List.mem_append.mp ht with ht | ht
    · have hcases : t ∈ (pre ++ [v]) ++ post ∨ t = ⟨p.start, HEADER * rest⟩ := by
        simp only [List.mem_append, List.mem_cons, List.not_mem_nil, or_false] at ht ⊢
        tauto
      rcases hcases with ht | rfl
      · obtain ⟨hmem, hne, hne'⟩ := hlist t ht
        rw [Function.update_of_ne hne', Function.update_of_ne hne]
        exact hi.size t (List.mem_append_left _ hmem)
      · dsimp only
        rw [Function.update_of_ne (by omega), Function.update_self]
    · rcases List.mem_cons.mp ht with rfl | ht
      · dsimp only
        rw [Function.update_self]
      · obtain ⟨hne, hne'⟩ := hlive t ht
        rw [Function.update_of_ne hne', Function.update_of_ne hne]
        exact hi.size t (List.mem_append_right _ ht)
  · refine htiles.perm ?_
    refine List.Perm.trans ?_ List.perm_middle.symm
    refine (List.Perm.swap _ _ _).trans (List.Perm.cons _ ?_)
    exact (List.Perm.append_right live hperm').symm

theorem take_spec (hi : HeapInv base h fs live) (hn : 0 < n) {prev q : ℕ}
    (hprev : prev ∈ (nodes base fs).map start) (hptr : h.ptr prev = q) (hq : n ≤ h.size q) :
    ∃ a fs', (h.take n prev q).1 = a + HEADER ∧
      HeapInv base (h.take n prev q).2 fs' (⟨a, HEADER * n⟩ :: live) ∧
      (h.take n prev q).2.env = h.env ∧ (h.take n prev q).2.obtained = h.obtained := by
  have hbase : q ≠ base := by
    rintro rfl
    have hzero : HEADER * h.size q = 0 :=
      hi.size ⟨q, 0⟩ (List.mem_append_left _ List.mem_cons_self)
    unfold HEADER at hzero
    omega
  obtain ⟨pre, v, p, post, heq, rfl, rfl⟩ := hi.split_at_ptr hprev hptr hbase
  have hp : p ∈ nodes base fs :=
    heq ▸ List.mem_append_right _ (List.mem_cons_of_mem _ List.mem_cons_self)
  have hsize := hi.size p (List.mem_append_left _ hp)
  unfold Heap.take
  by_cases hfit : h.size p.start = n
  · rw [if_pos hfit]
    obtain ⟨fs', hi'⟩ := hi.unlink heq
    refine ⟨p.start, fs', rfl, ?_, rfl, rfl⟩
    rw [hfit] at hsize
    rw [hsize]
    exact hi'
  · rw [if_neg hfit]
    obtain ⟨rest, hrest⟩ := Nat.exists_eq_add_of_lt (lt_of_le_of_ne hq (Ne.symm hfit))
    have hsub : h.size p.start - n = rest + 1 := by omega
    have hlen : p.len = HEADER * (rest + 1) + HEADER * n := by
      rw [← hsize, hrest]
      ring
    obtain ⟨fs', hi'⟩ := hi.cut heq hlen (Nat.succ_pos rest) hn
    dsimp only
    rw [hsub]
    exact ⟨_, fs', rfl, hi', rfl, rfl⟩

/-! ## The walk -/

/-- The loop of `malloc` on the way back to `freep`: it takes the first block that is large enough, or
comes to `freep` and asks for more core. -/
theorem mallocLoop_walk (sbrk : ℤ → σ → Option ℕ × σ) {prevp q : ℕ} {zs : List ℕ}
    (hchain : (prevp :: (zs ++ [q])).IsChain fun a b => h.ptr a = b) (hfreep : h.freep = q)
    (hq : q ∉ zs) :
    (∃ prev x, prev ∈ prevp :: zs ∧ h.ptr prev = x ∧ n ≤ h.size x ∧
      ∀ fuel, Heap.mallocLoop sbrk n (zs.length + 1 + fuel) prevp (h.ptr prevp) h =
        some (h.take n prev x)) ∨
    ((∀ x ∈ zs ++ [q], h.size x < n) ∧
      ∀ fuel, Heap.mallocLoop sbrk n (zs.length + 1 + fuel) prevp (h.ptr prevp) h =
        (h.morecore sbrk n fuel).bind fun r =>
          if r.1 = 0 then some (0, r.2) else Heap.mallocLoop sbrk n fuel r.1 (r.2.ptr r.1) r.2) := by
  induction zs generalizing prevp with
  | nil =>
    have hptr : h.ptr prevp = q := (List.isChain_cons_cons.mp hchain).1
    by_cases hfit : n ≤ h.size q
    · refine Or.inl ⟨prevp, q, List.mem_cons_self, hptr, hfit, fun fuel => ?_⟩
      rw [List.length_nil, Nat.zero_add, Nat.add_comm, Heap.mallocLoop, hptr, if_pos hfit]
    · refine Or.inr ⟨?_, fun fuel => ?_⟩
      · intro x hx
        obtain rfl := List.mem_singleton.mp hx
        omega
      · rw [List.length_nil, Nat.zero_add, Nat.add_comm, Heap.mallocLoop, hptr, if_neg hfit,
          if_pos hfreep.symm]
  | cons y zs ih =>
    rw [List.cons_append, List.isChain_cons_cons] at hchain
    rw [List.mem_cons, not_or] at hq
    have hlen : ∀ fuel, (y :: zs).length + 1 + fuel = (zs.length + 1 + fuel) + 1 := by
      intro fuel
      rw [List.length_cons]
      omega
    by_cases hfit : n ≤ h.size y
    · refine Or.inl ⟨prevp, y, List.mem_cons_self, hchain.1, hfit, fun fuel => ?_⟩
      rw [hlen, Heap.mallocLoop, hchain.1, if_pos hfit]
    · have hstep : ∀ fuel, Heap.mallocLoop sbrk n ((y :: zs).length + 1 + fuel) prevp (h.ptr prevp) h =
          Heap.mallocLoop sbrk n (zs.length + 1 + fuel) y (h.ptr y) h := by
        intro fuel
        rw [hlen, Heap.mallocLoop, hchain.1, if_neg hfit, if_neg]
        rw [hfreep]
        exact Ne.symm hq.1
      rcases ih hchain.2 hq.2 with ⟨prev, x, hprev, hx⟩ | ⟨hsmall, hrun⟩
      · refine Or.inl ⟨prev, x, List.mem_cons_of_mem _ hprev, hx.1, hx.2.1, fun fuel => ?_⟩
        rw [hstep]
        exact hx.2.2 fuel
      · refine Or.inr ⟨?_, fun fuel => ?_⟩
        · intro x hx
          rcases List.mem_cons.mp hx with rfl | hx
          · omega
          · exact hsmall x hx
        · rw [hstep]
          exact hrun fuel

/-- The result of a call of `malloc` for `n` units. -/
inductive MallocEnd (base n : ℕ) (live : List Segment) : ℕ → Heap σ → Prop
  | fail {h' : Heap σ} {fs' : List Segment} (hi : HeapInv base h' fs' live) :
      MallocEnd base n live 0 h'
  | block {h' : Heap σ} {fs' : List Segment} {a : ℕ}
      (hi : HeapInv base h' fs' (⟨a, HEADER * n⟩ :: live)) : MallocEnd base n live (a + HEADER) h'

theorem mallocLoop_around (sbrk : ℤ → σ → Option ℕ × σ) (hi : HeapInv base h fs live) (hn : 0 < n) :
    (∃ r h', MallocEnd base n live r h' ∧ h'.env = h.env ∧ h'.obtained = h.obtained ∧
      ∀ fuel, Heap.mallocLoop sbrk n (fs.length + 1 + fuel) h.freep (h.ptr h.freep) h =
        some (r, h')) ∨
    ((∀ t ∈ fs, t.len < HEADER * n) ∧
      ∀ fuel, Heap.mallocLoop sbrk n (fs.length + 1 + fuel) h.freep (h.ptr h.freep) h =
        (h.morecore sbrk n fuel).bind fun r =>
          if r.1 = 0 then some (0, r.2) else Heap.mallocLoop sbrk n fuel r.1 (r.2.ptr r.1) r.2) := by
  obtain ⟨l, hlink, hperm⟩ := hi.rotate_at hi.freep
  have hlen : l.length = fs.length := by
    have := hperm.length_eq
    simpa [nodes] using this
  have hnot : h.freep ∉ l :=
    (List.nodup_cons.mp ((hperm.nodup_iff).mpr hi.separated.nodup)).1
  rcases mallocLoop_walk sbrk (n := n) hlink.isChain rfl hnot with
    ⟨prev, x, hprev, hptr, hfit, hrun⟩ | ⟨hsmall, hrun⟩
  · obtain ⟨a, fs', hfst, hi', henv, hobt⟩ := hi.take_spec hn (hperm.mem_iff.mp hprev) hptr hfit
    refine Or.inl ⟨_, (h.take n prev x).2, .block hi', henv, hobt, fun fuel => ?_⟩
    rw [← hlen, hrun fuel, ← hfst]
  · refine Or.inr ⟨?_, fun fuel => ?_⟩
    · intro t ht
      have hmem : t ∈ nodes base fs := List.mem_cons_of_mem _ ht
      have hring : t.start ∈ l ++ [h.freep] := by
        have := hperm.mem_iff.mpr (List.mem_map_of_mem hmem)
        simpa [or_comm] using this
      rw [← hi.size t (List.mem_append_left _ hmem)]
      exact Nat.mul_lt_mul_of_pos_left (hsmall _ hring) (by decide)
    · rw [← hlen]
      exact hrun fuel

/-- A call of `malloc` comes back, with a block or without one, and calls `sbrk` at most once. -/
theorem mallocLoop_spec (hi : HeapInv base h fs live) (hn : 0 < n)
    (hfuel : 2 * fs.length + 3 ≤ fuel)
    (hsbrk : ∀ a env, sbrk (Heap.sbrkArg (Heap.coreUnits n)) h.env = (some a, env) →
      Fresh base h ⟨a, HEADER * Heap.coreUnits n⟩) :
    ∃ r h', Heap.mallocLoop sbrk n fuel h.freep (h.ptr h.freep) h = some (r, h') ∧
      MallocEnd base n live r h' ∧
      (h'.env = h.env ∧ h'.obtained = h.obtained ∨ Asked sbrk n h h') := by
  obtain ⟨k, rfl⟩ := Nat.exists_eq_add_of_le (show fs.length + 1 ≤ fuel by omega)
  rcases hi.mallocLoop_around sbrk hn with ⟨r, h', hend, henv, hobt, hrun⟩ | ⟨_, hrun⟩
  · exact ⟨r, h', hrun k, hend, Or.inl ⟨henv, hobt⟩⟩
  · have hk : fs.length < k := by omega
    obtain ⟨r, h₁, fs₁, hcore, hi₁, hasked, hr⟩ := hi.morecore_spec hk hsbrk
    rw [hrun k, hcore, Option.bind_some]
    dsimp only
    rcases hr with rfl | ⟨hne, rfl, hlen, t, ht, hlarge⟩
    · exact ⟨0, h₁, if_pos rfl, .fail hi₁, Or.inr hasked⟩
    · rw [if_neg hne]
      rcases hi₁.mallocLoop_around sbrk hn with ⟨r, h', hend, henv, hobt, hrun⟩ | ⟨hsmall, _⟩
      · obtain ⟨k', rfl⟩ := Nat.exists_eq_add_of_le (show fs₁.length + 1 ≤ k by omega)
        refine ⟨r, h', hrun k', hend, Or.inr ?_⟩
        obtain ⟨got, env, hs, henv₁, hobt₁⟩ := hasked
        exact ⟨got, env, hs, henv.trans henv₁, hobt.trans hobt₁⟩
      · exact absurd (hsmall t ht) (not_lt.mpr hlarge)

end HeapInv

end Xv6.User
