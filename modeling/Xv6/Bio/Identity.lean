import Xv6.Bio.Bcache
import Xv6.Library.Sums

/-! # Buffers and the blocks they are for

The list stays a ring of all buffers, the counts are the references that
processes and pins hold, each block is cached at most once, and the sleep lock
of a buffer tells who may use it.  Each of these is kept by every section of
every call.
-/
namespace Xv6.Bio
open Disk Library Sched

variable {n : ℕ}

/-- The buffer that a call has a reference to. -/
def Call.on : Call → Option (Fin NBUF)
  | .idle => none
  | .bget i _ | .bread i _ | .brelse i => some i

def Bcache.refs (c : Bcache n) (p : Fin n) (i : Fin NBUF) : ℕ :=
  (if (c.call p).on = some i then 1 else 0) + if (c.held p i).isSome then 1 else 0

/-- The list from the head on, most recently used first. -/
def Listed (c : Bcache n) : Prop :=
  ∃ xs : List (Fin NBUF), c.links.Ring none (xs.map some) ∧ ∀ i, i ∈ xs

def Counted (c : Bcache n) : Prop :=
  ∀ i, (c.buf i).refcnt = ∑ p, c.refs p i + c.pins i

/-- Which block each buffer is for. -/
structure Identified (c : Bcache n) : Prop where
  fresh : ∀ i, (c.buf i).dev ≠ ROOTDEV → (c.buf i).refcnt = 0 ∧ (c.buf i).valid = false
  unique : ∀ i j, (c.buf i).dev = ROOTDEV → (c.buf j).dev = ROOTDEV →
    (c.buf i).blockno = (c.buf j).blockno → i = j
  call : ∀ p i b, c.call p = .bget i b ∨ c.call p = .bread i b →
    (c.buf i).dev = ROOTDEV ∧ (c.buf i).blockno = b
  held : ∀ p i b, c.held p i = some b → (c.buf i).dev = ROOTDEV ∧ (c.buf i).blockno = b

/-- Who has a buffer locked. -/
structure Locked (c : Bcache n) : Prop where
  lock : ∀ p i, (c.buf i).lock = some p ↔ (∃ b, c.call p = .bread i b) ∨ (c.held p i).isSome
  apart : ∀ p i b, c.call p = .bread i b → c.held p i = none
  valid : ∀ p i, (c.held p i).isSome → (c.buf i).valid = true

open Bcache

variable {c c' : Bcache n} {e : Event n}

section Lists

theorem initLinks_ring (xs : List (Fin NBUF)) (hxs : xs.Nodup) :
    (xs.foldl (fun l b => l.insert none (some b)) ⟨fun _ => none, fun _ => none⟩ : Links Node).Ring
      none (xs.reverse.map some) := by
  induction xs using List.reverseRecOn with
  | nil => exact ⟨by simp, by simp [Links.Linked]⟩
  | append_singleton xs b ih =>
    obtain ⟨hxs, -, hb⟩ := List.nodup_append.1 hxs
    rw [List.foldl_concat, List.reverse_concat, List.map_cons]
    refine (ih hxs).insert ?_
    simp only [List.mem_cons, reduceCtorEq, List.mem_map, List.mem_reverse, Option.some.injEq,
      exists_eq_right, false_or]
    exact fun hmem => hb b hmem b (by simp) rfl

theorem Listed.binit (disk : BitVec 32 → Block) : Listed (binit disk : Bcache n) :=
  ⟨(List.finRange NBUF).reverse, initLinks_ring _ (List.nodup_finRange NBUF), by simp⟩

theorem Listed.length_lt {xs : List (Fin NBUF)} (hr : c.links.Ring none (xs.map some)) :
    (xs.map some).length < NBUF + 1 := by
  have hnodup : xs.Nodup := List.Nodup.of_map _ (List.nodup_cons.1 hr.nodup).2
  have hle := hnodup.length_le_card
  simp only [Fintype.card_fin] at hle
  simp only [List.length_map]
  omega

theorem Listed.findCached (h : Listed c) (dev : BitVec 32) (b : BlockNo) :
    (∃ i, c.findCached dev b = some (some (some i)) ∧ (c.buf i).dev = dev ∧
      (c.buf i).blockno = b) ∨
    (c.findCached dev b = some none ∧ ∀ i, (c.buf i).dev = dev → (c.buf i).blockno ≠ b) := by
  obtain ⟨xs, hr, hall⟩ := h
  have hscan := hr.scan_next (c.caches dev b) (Listed.length_lt hr)
  rw [List.find?_map] at hscan
  cases hf : xs.find? (c.caches dev b ∘ some) with
  | some i =>
    rw [hf] at hscan
    have hi := List.find?_some hf
    simp only [Function.comp_apply, caches, Option.any_some, decide_eq_true_eq] at hi
    exact Or.inl ⟨i, hscan, hi⟩
  | none =>
    rw [hf] at hscan
    refine Or.inr ⟨hscan, fun i hdev hb => ?_⟩
    have hi := List.find?_eq_none.1 hf i (hall i)
    simp [caches, hdev, hb] at hi

theorem Listed.findUnused (h : Listed c) :
    (∃ i, c.findUnused = some (some (some i)) ∧ (c.buf i).refcnt = 0) ∨
    (c.findUnused = some none ∧ ∀ i, (c.buf i).refcnt ≠ 0) := by
  obtain ⟨xs, hr, hall⟩ := h
  have hscan := hr.scan_prev c.unused (Listed.length_lt hr)
  rw [← List.map_reverse, List.find?_map] at hscan
  cases hf : xs.reverse.find? (c.unused ∘ some) with
  | some i =>
    rw [hf] at hscan
    have hi := List.find?_some hf
    simp only [Function.comp_apply, unused, Option.any_some, decide_eq_true_eq] at hi
    exact Or.inl ⟨i, hscan, hi⟩
  | none =>
    rw [hf] at hscan
    refine Or.inr ⟨hscan, fun i hi => ?_⟩
    have hi' := List.find?_eq_none.1 hf i (by simp [hall i])
    simp [unused, hi] at hi'

theorem Listed.unused_of_find (h : Listed c) {i : Fin NBUF}
    (hfind : c.findUnused = some (some (some i))) : (c.buf i).refcnt = 0 := by
  obtain ⟨i', hfind', hi⟩ := h.findUnused.resolve_right fun hno => by simp [hno.1] at hfind
  rw [hfind] at hfind'
  cases hfind'
  exact hi

theorem Listed.cached_of_find (h : Listed c) {i : Fin NBUF} {dev : BitVec 32} {b : BlockNo}
    (hfind : c.findCached dev b = some (some (some i))) :
    (c.buf i).dev = dev ∧ (c.buf i).blockno = b := by
  obtain ⟨i', hfind', hi⟩ := (h.findCached dev b).resolve_right fun hno => by simp [hno.1] at hfind
  rw [hfind] at hfind'
  cases hfind'
  exact hi

theorem Listed.not_cached (h : Listed c) {dev : BitVec 32} {b : BlockNo}
    (hfind : c.findCached dev b = some none) (i : Fin NBUF) (hi : (c.buf i).dev = dev) :
    (c.buf i).blockno ≠ b := by
  have hno := (h.findCached dev b).resolve_left fun ⟨i', hi', _⟩ => by simp [hi'] at hfind
  exact hno.2 i hi

theorem Listed.of_links (h : Listed c) (hlinks : c'.links = c.links) : Listed c' := by
  simpa [Listed, hlinks] using h

theorem Listed.moveFront (h : Listed c) {i : Fin NBUF}
    (hlinks : c'.links = (c.links.unlink (some i)).insert none (some i)) : Listed c' := by
  obtain ⟨xs, hr, hall⟩ := h
  obtain ⟨ys, zs, hxs⟩ := List.append_of_mem (hall i)
  subst hxs
  simp only [List.map_append, List.map_cons] at hr
  refine ⟨i :: (ys ++ zs), by simpa [hlinks] using hr.moveFront, fun j => ?_⟩
  have hj := hall j
  grind

theorem Listed.move (h : Listed c) (hm : Move c e c') : Listed c' := by
  cases hm with
  | @unref p i hp =>
    by_cases hi : (c.buf i).refcnt - 1 = 0
    · exact h.moveFront (i := i) (by simp [hi])
    · exact h.of_links (by simp [hi])
  | _ => exact h.of_links rfl

end Lists

section Counts

theorem Counted.refs_le (h : Counted c) (p : Fin n) (i : Fin NBUF) :
    c.refs p i ≤ (c.buf i).refcnt := by
  have hle := Finset.single_le_sum (f := fun q => c.refs q i) (fun q _ => Nat.zero_le _)
    (Finset.mem_univ p)
  have hi := h i
  omega

theorem Counted.unused (h : Counted c) {i : Fin NBUF} (hi : (c.buf i).refcnt = 0) (p : Fin n) :
    (c.call p).on ≠ some i ∧ c.held p i = none := by
  have hle := h.refs_le p i
  rw [hi, Nat.le_zero, refs, Nat.add_eq_zero_iff] at hle
  constructor
  · intro hon
    simp [hon] at hle
  · simpa using hle.2

theorem Counted.change (h : Counted c) (p : Fin n) (i : Fin NBUF)
    (hother : ∀ q, q ≠ p → ∀ j, c'.refs q j = c.refs q j)
    (hoff : ∀ j, j ≠ i → (c'.buf j).refcnt = (c.buf j).refcnt ∧ c'.refs p j = c.refs p j ∧
      c'.pins j = c.pins j)
    (hi : (c'.buf i).refcnt + c.refs p i + c.pins i =
      (c.buf i).refcnt + c'.refs p i + c'.pins i) : Counted c' := by
  intro j
  have hsum := sum_add_of_eq_off (s := Finset.univ) (f := fun q => c.refs q j)
    (g := fun q => c'.refs q j) (Finset.mem_univ p) fun q _ hq => hother q hq j
  have hj := h j
  by_cases hji : j = i
  · subst hji
    omega
  · obtain ⟨h1, h2, h3⟩ := hoff j hji
    omega

theorem Counted.move (h : Counted c) (hlist : Listed c) (hlock : Locked c) (hm : Move c e c') :
    Counted c' := by
  cases hm with
  | @hit p dev b i hp hfind =>
    refine h.change p i (fun q hq j => by simp [refs, hq]) (fun j hj => ?_) ?_
    · simp [refs, hp, Call.on, hj, Ne.symm hj]
    · simp [refs, hp, Call.on]
      omega
  | @miss p dev b i hp hnone hfind =>
    have hi := hlist.unused_of_find hfind
    refine h.change p i (fun q hq j => by simp [refs, hq]) (fun j hj => ?_) ?_
    · simp [refs, hp, Call.on, hj, Ne.symm hj]
    · simp [refs, hp, Call.on, hi]
  | @acquiresleep p i b hp hl =>
    refine h.change p i (fun q hq j => by simp [refs, hq]) (fun j hj => ?_) ?_
    · simp [refs, hp, Call.on, hj]
    · simp [refs, hp, Call.on]
  | @valid p i b hp hv =>
    refine h.change p i (fun q hq j => by simp [refs, hq]) (fun j hj => ?_) ?_
    · simp [refs, hp, Call.on, hj, Ne.symm hj]
    · simp [refs, hp, Call.on, hlock.apart p i b hp]
  | @fill p i b hp hv =>
    refine h.change p i (fun q hq j => by simp [refs, hq]) (fun j hj => ?_) ?_
    · simp [refs, hp, Call.on, hj, Ne.symm hj]
    · simp [refs, hp, Call.on, hlock.apart p i b hp]
  | @store p i data hp hl =>
    refine h.change p i (fun q hq j => by simp [refs]) (fun j hj => ?_) ?_
    · simp [refs, hj]
    · simp [refs]
  | @bwrite p i hp hl => exact h
  | @brelse p i hp hl =>
    have hheld : (c.held p i).isSome := ((hlock.lock p i).1 hl).resolve_left (by simp [hp])
    refine h.change p i (fun q hq j => by simp [refs, hq]) (fun j hj => ?_) ?_
    · simp [refs, hp, Call.on, hj, Ne.symm hj]
    · simp [refs, hp, Call.on, hheld]
  | @unref p i hp =>
    have hpos := h.refs_le p i
    simp only [refs, hp, Call.on, if_true] at hpos
    refine h.change p i (fun q hq j => by simp [refs, hq]) (fun j hj => ?_) ?_
    · simp [refs, hp, Call.on, hj, Ne.symm hj]
    · simp [refs, hp, Call.on]
      omega
  | @bpin p i hp hl =>
    refine h.change p i (fun q hq j => by simp [refs]) (fun j hj => ?_) ?_
    · simp [refs, hj]
    · simp [refs]
      omega
  | @bunpin i hpin =>
    intro j
    have hj := h j
    by_cases hji : j = i
    · subst hji
      simp only [bunpin_buf, bunpin_pins, Function.update_self] at hj ⊢
      simp only [refs, bunpin_call, bunpin_held] at hj ⊢
      omega
    · simpa [refs, hji] using hj

end Counts

section Identity

theorem Identified.congr (h : Identified c) (hbuf : c'.buf = c.buf) (hcall : c'.call = c.call)
    (hheld : c'.held = c.held) : Identified c' := by
  obtain ⟨h1, h2, h3, h4⟩ := h
  exact ⟨hbuf ▸ h1, hbuf ▸ h2, hbuf ▸ hcall ▸ h3, hbuf ▸ hheld ▸ h4⟩

/-- A buffer changes, but not the block it is for. -/
theorem Identified.setBuf (h : Identified c) {i : Fin NBUF} {x : Buf n}
    (hdev : x.dev = (c.buf i).dev) (hblock : x.blockno = (c.buf i).blockno)
    (hfresh : x.dev ≠ ROOTDEV → x.refcnt = 0 ∧ x.valid = false) : Identified (c.setBuf i x) := by
  have hsame : ∀ j, ((c.setBuf i x).buf j).dev = (c.buf j).dev ∧
      ((c.setBuf i x).buf j).blockno = (c.buf j).blockno := by
    intro j
    by_cases hj : j = i
    · subst hj
      simp [hdev, hblock]
    · simp [hj]
  refine ⟨?_, ?_, ?_, ?_⟩
  · intro j
    by_cases hj : j = i
    · subst hj
      simpa using hfresh
    · simpa [hj] using h.fresh j
  · intro j k
    rw [(hsame j).1, (hsame k).1, (hsame j).2, (hsame k).2]
    exact h.unique j k
  · intro p j b hp
    rw [(hsame j).1, (hsame j).2]
    exact h.call p j b hp
  · intro p j b hp
    rw [(hsame j).1, (hsame j).2]
    exact h.held p j b hp

theorem Identified.setCall (h : Identified c) {p : Fin n} {k : Call}
    (hk : ∀ i b, k = .bget i b ∨ k = .bread i b → (c.buf i).dev = ROOTDEV ∧ (c.buf i).blockno = b) :
    Identified (c.setCall p k) where
  fresh := h.fresh
  unique := h.unique
  call q i b hq := by
    by_cases hqp : q = p
    · subst hqp
      exact hk i b (by simpa using hq)
    · exact h.call q i b (by simpa [hqp] using hq)
  held := h.held

theorem Identified.setHeld (h : Identified c) {p : Fin n} {i : Fin NBUF} {o : Option BlockNo}
    (ho : ∀ b, o = some b → (c.buf i).dev = ROOTDEV ∧ (c.buf i).blockno = b) :
    Identified (c.setHeld p i o) where
  fresh := h.fresh
  unique := h.unique
  call := h.call
  held q j b hq := by
    by_cases hqp : q = p
    · subst hqp
      by_cases hj : j = i
      · subst hj
        exact ho b (by simpa using hq)
      · exact h.held q j b (by simpa [hj] using hq)
    · exact h.held q j b (by simpa [hqp] using hq)

/-- Nobody refers to the buffer that `bget` recycles, and no other one is for the
block it gets. -/
theorem Identified.recycle (h : Identified c) (hcount : Counted c) {i : Fin NBUF} {b : BlockNo}
    (hi : (c.buf i).refcnt = 0)
    (hnot : ∀ j, (c.buf j).dev = ROOTDEV → (c.buf j).blockno ≠ b) :
    Identified (c.recycle i ROOTDEV b) := by
  have hoff : ∀ {j}, j ≠ i → (c.recycle i ROOTDEV b).buf j = c.buf j := fun hj => by simp [hj]
  have hself : ((c.recycle i ROOTDEV b).buf i).dev = ROOTDEV ∧
      ((c.recycle i ROOTDEV b).buf i).blockno = b := by simp
  refine ⟨?_, ?_, ?_, ?_⟩
  · intro j
    by_cases hj : j = i
    · subst hj
      exact fun hne => absurd hself.1 hne
    · rw [hoff hj]
      exact h.fresh j
  · intro j k
    by_cases hj : j = i <;> by_cases hk : k = i
    · exact fun _ _ _ => hj.trans hk.symm
    · rw [hj, hself.2, hoff hk]
      exact fun _ hk' hb => absurd hb.symm (hnot k hk')
    · rw [hk, hself.2, hoff hj]
      exact fun hj' _ hb => absurd hb (hnot j hj')
    · rw [hoff hj, hoff hk]
      exact h.unique j k
  · intro q j b' hq
    have hj : j ≠ i := by
      rintro rfl
      have hno := (hcount.unused hi q).1
      rcases hq with hq | hq <;> simp only [recycle_call] at hq <;> simp [hq, Call.on] at hno
    rw [hoff hj]
    exact h.call q j b' hq
  · intro q j b' hq
    have hj : j ≠ i := by
      rintro rfl
      simp [(hcount.unused hi q).2] at hq
    rw [hoff hj]
    exact h.held q j b' hq

/-- The calls of `bread` are for the device `ROOTDEV`. -/
def Event.OnRootdev (e : Event n) : Prop := ∀ p dev b, e = .bread p dev b → dev = ROOTDEV

theorem Identified.of_held (h : Identified c) (hlock : Locked c) {p : Fin n} {i : Fin NBUF}
    (hl : (c.buf i).lock = some p) : (c.buf i).dev = ROOTDEV := by
  rcases (hlock.lock p i).1 hl with ⟨b, hb⟩ | hb
  · exact (h.call p i b (Or.inr hb)).1
  · obtain ⟨b, hb⟩ := Option.isSome_iff_exists.1 hb
    exact (h.held p i b hb).1

theorem Identified.unref (h : Identified c) (i : Fin NBUF) : Identified (c.unref i) := by
  refine (h.setBuf (i := i) (x := { c.buf i with refcnt := (c.buf i).refcnt - 1 }) rfl rfl
    fun hne => ?_).congr rfl rfl rfl
  have hf := h.fresh i hne
  exact ⟨by simp [hf.1], hf.2⟩

theorem Identified.ref (h : Identified c) {i : Fin NBUF} (hi : (c.buf i).dev = ROOTDEV) :
    Identified (c.ref i) :=
  h.setBuf rfl rfl fun hne => absurd hi hne

theorem Identified.setLock (h : Identified c) {i : Fin NBUF} (hi : (c.buf i).dev = ROOTDEV)
    (o : Option (Fin n)) : Identified (c.setLock i o) :=
  h.setBuf rfl rfl fun hne => absurd hi hne

theorem Identified.move (h : Identified c) (hlist : Listed c) (hcount : Counted c)
    (hlock : Locked c) (hdev : e.OnRootdev) (hm : Move c e c') : Identified c' := by
  cases hm with
  | @hit p dev b i hp hfind =>
    obtain rfl := hdev p dev b rfl
    obtain ⟨hi, hb⟩ := hlist.cached_of_find hfind
    refine (h.ref hi).setCall fun j b' hk => ?_
    simp only [Call.bget.injEq, reduceCtorEq, or_false] at hk
    obtain ⟨rfl, rfl⟩ := hk
    simp [hi, hb]
  | @miss p dev b i hp hnone hfind =>
    obtain rfl := hdev p dev b rfl
    refine (h.recycle hcount (hlist.unused_of_find hfind) (hlist.not_cached hnone)).setCall ?_
    intro j b' hk
    simp only [Call.bget.injEq, reduceCtorEq, or_false] at hk
    obtain ⟨rfl, rfl⟩ := hk
    simp
  | @acquiresleep p i b hp hl =>
    obtain ⟨hi, hb⟩ := h.call p i b (Or.inl hp)
    refine (h.setLock hi (some p)).setCall fun j b' hk => ?_
    simp only [reduceCtorEq, Call.bread.injEq, false_or] at hk
    obtain ⟨rfl, rfl⟩ := hk
    simp [hi, hb]
  | @valid p i b hp hv =>
    refine Identified.setHeld (h.setCall fun j b' hk => by simp at hk) fun b' hb' => ?_
    cases hb'
    exact h.call p i b (Or.inr hp)
  | @fill p i b hp hv =>
    obtain ⟨hi, hb⟩ := h.call p i b (Or.inr hp)
    have hread : Identified (c.readDisk i) := h.setBuf rfl rfl fun hne => absurd hi hne
    refine Identified.setHeld (hread.setCall fun j b' hk => by simp at hk) fun b' hb' => ?_
    cases hb'
    simp [hi, hb]
  | @store p i data hp hl =>
    have hi := h.of_held hlock hl
    exact (h.setBuf (x := { c.buf i with data := data }) rfl rfl
      fun hne => absurd hi hne).congr rfl rfl rfl
  | bwrite hp hl => exact h.congr rfl rfl rfl
  | @brelse p i hp hl =>
    refine Identified.setCall ((h.setLock (h.of_held hlock hl) none).setHeld fun b hb => ?_) ?_
    · cases hb
    · intro j b hk
      simp at hk
  | @unref p i hp =>
    have hrelse : Identified (c.brelse i) := (h.unref i).congr rfl rfl rfl
    exact hrelse.setCall fun j b hk => by simp at hk
  | @bpin p i hp hl => exact (h.ref (h.of_held hlock hl)).congr rfl rfl rfl
  | @bunpin i hpin => exact (h.unref i).congr rfl rfl rfl

end Identity

section Locks

theorem Locked.congr (h : Locked c) (hbuf : c'.buf = c.buf) (hcall : c'.call = c.call)
    (hheld : c'.held = c.held) : Locked c' := by
  obtain ⟨h1, h2, h3⟩ := h
  exact ⟨hbuf ▸ hcall ▸ hheld ▸ h1, hcall ▸ hheld ▸ h2, hbuf ▸ hheld ▸ h3⟩

theorem Locked.setBuf (h : Locked c) {i : Fin NBUF} {x : Buf n} (hlock : x.lock = (c.buf i).lock)
    (hvalid : ∀ p, (c.held p i).isSome → x.valid = true) : Locked (c.setBuf i x) where
  lock p j := by
    by_cases hj : j = i
    · subst hj
      simpa [hlock] using h.lock p j
    · simpa [hj] using h.lock p j
  apart := h.apart
  valid p j hp := by
    by_cases hj : j = i
    · subst hj
      simpa using hvalid p hp
    · simpa [hj] using h.valid p j hp

/-- A process goes on in a call that does not lock anything. -/
theorem Locked.setCall (h : Locked c) {p : Fin n} {k : Call} (hp : ∀ i b, c.call p ≠ .bread i b)
    (hk : ∀ i b, k ≠ .bread i b) : Locked (c.setCall p k) := by
  have hsame : ∀ q i b, (c.setCall p k).call q = .bread i b ↔ c.call q = .bread i b := by
    intro q i b
    by_cases hq : q = p
    · subst hq
      simp [hp, hk]
    · simp [hq]
  refine ⟨fun q i => ?_, fun q i b hq => h.apart q i b ((hsame q i b).1 hq), h.valid⟩
  simp only [hsame]
  exact h.lock q i

theorem Locked.change (h : Locked c) (p : Fin n) (i : Fin NBUF)
    (hbuf : ∀ j, j ≠ i → c'.buf j = c.buf j) (hcall : ∀ q, q ≠ p → c'.call q = c.call q)
    (hheld : ∀ q j, ¬ (q = p ∧ j = i) → c'.held q j = c.held q j)
    (hoff : ∀ j, j ≠ i → ∀ b, c'.call p = .bread j b ↔ c.call p = .bread j b)
    (hother : ∀ q, q ≠ p → ((c'.buf i).lock = some q ↔ (c.buf i).lock = some q))
    (hlock : (c'.buf i).lock = some p ↔ (∃ b, c'.call p = .bread i b) ∨ (c'.held p i).isSome)
    (hapart : ∀ b, c'.call p = .bread i b → c'.held p i = none)
    (hvalid : (c.buf i).valid = true → (c'.buf i).valid = true)
    (hself : (c'.held p i).isSome → (c'.buf i).valid = true) : Locked c' where
  lock q j := by
    by_cases hq : q = p
    · by_cases hj : j = i
      · rw [hq, hj]
        exact hlock
      · rw [hq, hbuf j hj, h.lock, hheld p j fun hc => hj hc.2]
        simp only [hoff j hj]
    · have hlk : (c'.buf j).lock = some q ↔ (c.buf j).lock = some q := by
        by_cases hj : j = i
        · rw [hj]
          exact hother q hq
        · rw [hbuf j hj]
      rw [hlk, h.lock, hcall q hq, hheld q j fun hc => hq hc.1]
  apart q j b hb := by
    by_cases hq : q = p
    · subst hq
      by_cases hj : j = i
      · subst hj
        exact hapart b hb
      · rw [hheld q j fun hc => hj hc.2]
        exact h.apart q j b ((hoff j hj b).1 hb)
    · rw [hheld q j fun hc => hq hc.1]
      exact h.apart q j b (hcall q hq ▸ hb)
  valid q j hj' := by
    by_cases hqj : q = p ∧ j = i
    · obtain ⟨rfl, rfl⟩ := hqj
      exact hself hj'
    · have hv := h.valid q j (hheld q j hqj ▸ hj')
      by_cases hj : j = i
      · subst hj
        exact hvalid hv
      · rw [hbuf j hj]
        exact hv

theorem Locked.ref (h : Locked c) (i : Fin NBUF) : Locked (c.ref i) :=
  h.setBuf rfl fun p => h.valid p i

theorem Locked.unref (h : Locked c) (i : Fin NBUF) : Locked (c.unref i) :=
  (h.setBuf (x := { c.buf i with refcnt := (c.buf i).refcnt - 1 }) rfl
    fun p => h.valid p i).congr rfl rfl rfl

theorem held_off {p q : Fin n} {i j : Fin NBUF} {o : Option BlockNo} (h : ¬ (q = p ∧ j = i)) :
    (c.setHeld p i o).held q j = c.held q j := by
  by_cases hq : q = p
  · subst hq
    have hj : j ≠ i := fun hj => h ⟨rfl, hj⟩
    simp [hj]
  · simp [hq]

theorem Locked.acquiresleep (h : Locked c) {p : Fin n} {i : Fin NBUF} {b : BlockNo}
    (hp : c.call p = .bget i b) (hl : (c.buf i).lock = none) :
    Locked ((c.setLock i (some p)).setCall p (.bread i b)) := by
  have hnone : c.held p i = none := by
    by_contra hne
    have hlock := (h.lock p i).2 (Or.inr (Option.isSome_iff_ne_none.2 hne))
    simp [hl] at hlock
  refine h.change p i (fun j hj => by simp [hj]) (fun q hq => by simp [hq]) (fun q j _ => rfl)
    (fun j hj b' => by simp [hp, Ne.symm hj]) (fun q hq => by simp [hl, Ne.symm hq]) ?_ ?_ ?_ ?_
  · simp
  · intro _ _
    exact hnone
  · simp
  · simp [hnone]

theorem Locked.bread (h : Locked c) {p : Fin n} {i : Fin NBUF} {b : BlockNo} {x : Buf n}
    (hp : c.call p = .bread i b) (hlock : x.lock = (c.buf i).lock) (hvalid : x.valid = true) :
    Locked (((c.setBuf i x).setCall p .idle).setHeld p i (some b)) := by
  refine h.change p i (fun j hj => by simp [hj]) (fun q hq => by simp [hq]) (fun q j hqj => ?_)
    (fun j hj b' => by simp [hp, Ne.symm hj]) (fun q hq => by simp [hlock]) ?_ ?_ ?_ ?_
  · exact held_off hqj
  · simpa [hlock] using (h.lock p i).2 (Or.inl ⟨b, hp⟩)
  · simp
  · simp [hvalid]
  · simp [hvalid]

theorem Locked.move (h : Locked c) (hlist : Listed c) (hcount : Counted c) (hm : Move c e c') :
    Locked c' := by
  cases hm with
  | @hit p dev b i hp hfind => exact (h.ref i).setCall (by simp [hp]) (by simp)
  | @miss p dev b i hp hnone hfind =>
    have hi := hcount.unused (hlist.unused_of_find hfind)
    have hrec : Locked (c.recycle i dev b) := h.setBuf rfl fun q hq => by simp [(hi q).2] at hq
    exact hrec.setCall (by simp [hp]) (by simp)
  | acquiresleep hp hl => exact h.acquiresleep hp hl
  | @valid p i b hp hv =>
    have hsame : c.setBuf i (c.buf i) = c := by simp [Bcache.setBuf]
    have hread := h.bread (x := c.buf i) hp rfl hv
    rwa [hsame] at hread
  | fill hp hv => exact h.bread hp rfl rfl
  | @store p i data hp hl =>
    exact (h.setBuf (x := { c.buf i with data := data }) rfl fun q => h.valid q i).congr rfl rfl rfl
  | bwrite hp hl => exact h.congr rfl rfl rfl
  | @brelse p i hp hl =>
    refine h.change p i (fun j hj => by simp [hj]) (fun q hq => by simp [hq]) (fun q j hqj => ?_)
      (fun j hj b' => by simp [hp]) (fun q hq => by simp [hl, Ne.symm hq]) ?_ ?_ ?_ ?_
    · exact held_off (c := c.setLock i none) hqj
    all_goals simp
  | @unref p i hp =>
    have hrelse : Locked (c.brelse i) := (h.unref i).congr rfl rfl rfl
    exact hrelse.setCall (by simp [hp]) (by simp)
  | @bpin p i hp hl => exact (h.ref i).congr rfl rfl rfl
  | @bunpin i hpin => exact (h.unref i).congr rfl rfl rfl

end Locks

/-- A buffer that somebody refers to stays with its block. -/
theorem Move.identity (hm : Move c e c') (h : Listed c) {i : Fin NBUF} (hr : 0 < (c.buf i).refcnt) :
    (c'.buf i).dev = (c.buf i).dev ∧ (c'.buf i).blockno = (c.buf i).blockno := by
  have hset : ∀ (j : Fin NBUF) (x : Buf n), x.dev = (c.buf j).dev → x.blockno = (c.buf j).blockno →
      (Function.update c.buf j x i).dev = (c.buf i).dev ∧
        (Function.update c.buf j x i).blockno = (c.buf i).blockno := by
    intro j x hdev hblock
    by_cases hij : i = j
    · subst hij
      simp [hdev, hblock]
    · simp [hij]
  cases hm with
  | @miss p dev b j hp hnone hfind =>
    have hij : i ≠ j := by
      rintro rfl
      have := h.unused_of_find hfind
      omega
    simp [hij]
  | valid hp hv => exact ⟨rfl, rfl⟩
  | bwrite hp hl => exact ⟨rfl, rfl⟩
  | _ => exact hset _ _ rfl rfl

def Event.proc : Event n → Option (Fin n)
  | .bread p _ _ | .acquiresleep p | .fill p | .store p _ _ | .bwrite p _ | .brelse p _ | .unref p
  | .bpin p _ => some p
  | .bunpin _ => none

def Event.IsPin : Event n → Prop
  | .bpin _ _ | .bunpin _ => True
  | _ => False

/-- A process does not notice the calls of the others. -/
theorem Move.frame (hm : Move c e c') {q : Fin n} (hq : e.proc ≠ some q) :
    c'.call q = c.call q ∧ c'.held q = c.held q := by
  have hne : ∀ p, some p ≠ some q → q ≠ p := by
    rintro p hp rfl
    exact hp rfl
  cases hm with
  | store hp hl => exact ⟨rfl, rfl⟩
  | bwrite hp hl => exact ⟨rfl, rfl⟩
  | bpin hp hl => exact ⟨rfl, rfl⟩
  | bunpin hpin => exact ⟨rfl, rfl⟩
  | _ =>
    have := hne _ hq
    simp [this]

theorem Move.pins (hm : Move c e c') (he : ¬ e.IsPin) : c'.pins = c.pins := by
  cases hm with
  | bpin hp hl => exact absurd trivial he
  | bunpin hpin => exact absurd trivial he
  | _ => rfl

theorem next_panic {msg : String} (h : next e c = .error (.panic msg)) :
    msg = "bget: no buffers" ∨ msg = "bwrite" ∨ msg = "brelse" := by
  cases e with
  | bread p dev b =>
    simp only [next] at h
    split at h
    · simp only [Bcache.bget] at h
      split at h
      · cases h
      · split at h <;> cases h
        exact Or.inl rfl
      · cases h
    · cases h
  | bwrite p i =>
    simp only [next] at h
    split at h
    · split at h <;> cases h
      exact Or.inr (Or.inl rfl)
    · cases h
  | brelse p i =>
    simp only [next] at h
    split at h
    · split at h <;> cases h
      exact Or.inr (Or.inr rfl)
    · cases h
  | _ =>
    simp only [next] at h
    repeat' split at h
    all_goals cases h

/-- What holds of the buffers whatever their contents. -/
structure Consistent (c : Bcache n) : Prop where
  listed : Listed c
  counted : Counted c
  identified : Identified c
  locked : Locked c

theorem Consistent.binit (disk : BitVec 32 → Block) : Consistent (binit disk : Bcache n) where
  listed := Listed.binit disk
  counted i := by simp [Bio.binit, refs, Call.on]
  identified := by constructor <;> simp [Bio.binit, ROOTDEV]
  locked := by constructor <;> simp [Bio.binit]

theorem Consistent.move (h : Consistent c) (hdev : e.OnRootdev) (hm : Move c e c') :
    Consistent c' where
  listed := h.listed.move hm
  counted := h.counted.move h.listed h.locked hm
  identified := h.identified.move h.listed h.counted h.locked hdev hm
  locked := h.locked.move h.listed h.counted hm

theorem Consistent.bget_ok (h : Consistent c) {b : BlockNo}
    (hfree : (∃ i, (c.buf i).dev = ROOTDEV ∧ (c.buf i).blockno = b) ∨ ∃ i, (c.buf i).refcnt = 0) :
    ∃ r, c.bget ROOTDEV b = .ok r := by
  unfold Bcache.bget
  rcases h.listed.findCached ROOTDEV b with ⟨i, hi, -⟩ | ⟨hnone, hnot⟩
  · exact ⟨_, by rw [hi]⟩
  · rw [hnone]
    obtain ⟨i, hi⟩ := hfree.resolve_left fun ⟨i, hdev, hb⟩ => hnot i hdev hb
    rcases h.listed.findUnused with ⟨j, hj, -⟩ | ⟨-, hused⟩
    · exact ⟨_, by rw [hj]⟩
    · exact absurd hi (hused i)

end Xv6.Bio
