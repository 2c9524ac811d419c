import Xv6.Bio.Identity

/-! # What the buffer cache keeps

A valid buffer has what was last stored in it, and so has the disk once that was
written.  With the facts about lists, counts, identities and locks this is the
invariant of the cache.
-/
namespace Xv6.Bio
open Disk Library Sched Bcache

variable {n : ℕ} {c c' : Bcache n} {e : Event n}

/-- The sector number of the block does not wrap around. -/
def OnDevice (blockno : BlockNo) : Prop := blockno.toNat * (BSIZE / 512) < 2 ^ 32

/-- Where the contents last stored for a block are. -/
structure Coherent (c : Bcache n) : Prop where
  device : ∀ i, (c.buf i).dev = ROOTDEV → OnDevice (c.buf i).blockno
  data : ∀ i, (c.buf i).valid = true → c.lost (c.buf i).blockno = false →
    (c.buf i).data = c.stored (c.buf i).blockno
  disk : ∀ b, OnDevice b → c.lost b = false → c.unsaved b = false → c.disk (sector b) = c.stored b
  unsaved : ∀ b, c.unsaved b = true → c.lost b = false →
    ∃ i, (c.buf i).dev = ROOTDEV ∧ (c.buf i).blockno = b ∧ (c.buf i).valid = true ∧
      0 < (c.buf i).refcnt

section Contents

theorem sector_inj {a b : BlockNo} (ha : OnDevice a) (hb : OnDevice b) (h : sector a = sector b) :
    a = b := by
  unfold OnDevice at ha hb
  unfold sector at h
  simp only [BSIZE] at ha hb h
  bv_omega

/-- A buffer changes, but not its contents, and it does not become unused. -/
theorem Coherent.setBuf (h : Coherent c) {i : Fin NBUF} {x : Buf n}
    (hdev : x.dev = (c.buf i).dev) (hblock : x.blockno = (c.buf i).blockno)
    (hvalid : x.valid = (c.buf i).valid) (hdata : x.data = (c.buf i).data)
    (hrefcnt : 0 < (c.buf i).refcnt → 0 < x.refcnt) : Coherent (c.setBuf i x) where
  device j := by
    by_cases hj : j = i
    · subst hj
      simpa [hdev, hblock] using h.device j
    · simpa [hj] using h.device j
  data j := by
    by_cases hj : j = i
    · subst hj
      simpa [hblock, hvalid, hdata] using h.data j
    · simpa [hj] using h.data j
  disk := h.disk
  unsaved b hb hl := by
    obtain ⟨j, h1, h2, h3, h4⟩ := h.unsaved b hb hl
    refine ⟨j, ?_⟩
    by_cases hj : j = i
    · subst hj
      simp [hdev, hblock, hvalid, h1, h2, h3, hrefcnt h4]
    · simp [hj, h1, h2, h3, h4]

theorem Coherent.congr (h : Coherent c) (hbuf : c'.buf = c.buf) (hdisk : c'.disk = c.disk)
    (hstored : c'.stored = c.stored) (hunsaved : c'.unsaved = c.unsaved)
    (hlost : c'.lost = c.lost) : Coherent c' := by
  obtain ⟨h1, h2, h3, h4⟩ := h
  exact ⟨hbuf ▸ h1, hbuf ▸ hlost ▸ hstored ▸ h2, hdisk ▸ hlost ▸ hstored ▸ hunsaved ▸ h3,
    hbuf ▸ hlost ▸ hunsaved ▸ h4⟩

theorem Coherent.recycle (h : Coherent c) {i : Fin NBUF} (hi : (c.buf i).refcnt = 0)
    (dev : BitVec 32) {b : BlockNo} (hon : OnDevice b) : Coherent (c.recycle i dev b) where
  device j := by
    by_cases hj : j = i
    · subst hj
      simpa using fun _ => hon
    · simpa [hj] using h.device j
  data j := by
    by_cases hj : j = i
    · subst hj
      simp
    · simpa [hj] using h.data j
  disk := h.disk
  unsaved b' hb hl := by
    obtain ⟨j, h1, h2, h3, h4⟩ := h.unsaved b' hb hl
    have hj : j ≠ i := by
      rintro rfl
      omega
    exact ⟨j, by simp [hj, h1, h2, h3, h4]⟩

/-- A buffer that is not valid is read from a disk that has what was last stored:
were it not saved, there would be a valid buffer for the block. -/
theorem Coherent.readDisk (h : Coherent c) (hid : Identified c) {i : Fin NBUF}
    (hi : (c.buf i).dev = ROOTDEV) (hv : (c.buf i).valid = false) : Coherent (c.readDisk i) where
  device j := by
    by_cases hj : j = i
    · subst hj
      simpa using h.device j
    · simpa [hj] using h.device j
  data j := by
    by_cases hj : j = i
    · subst hj
      simp only [readDisk_buf, Function.update_self, readDisk_lost, readDisk_stored, true_imp_iff]
      intro hl
      refine h.disk _ (h.device j hi) hl ?_
      by_contra hu
      obtain ⟨k, h1, h2, h3, -⟩ := h.unsaved _ (by simpa using hu) hl
      rw [hid.unique k j h1 hi h2, hv] at h3
      cases h3
    · simpa [hj] using h.data j
  disk := h.disk
  unsaved b hb hl := by
    obtain ⟨j, h1, h2, h3, h4⟩ := h.unsaved b hb hl
    refine ⟨j, ?_⟩
    by_cases hj : j = i
    · subst hj
      simp [h1, h2, h4]
    · simp [hj, h1, h2, h3, h4]

theorem Identified.dev_of_valid (h : Identified c) {i : Fin NBUF} (hv : (c.buf i).valid = true) :
    (c.buf i).dev = ROOTDEV := by
  by_contra hne
  simp [(h.fresh i hne).2] at hv

theorem Identified.dev_of_refcnt (h : Identified c) {i : Fin NBUF} (hr : 0 < (c.buf i).refcnt) :
    (c.buf i).dev = ROOTDEV := by
  by_contra hne
  simp [(h.fresh i hne).1] at hr

theorem Coherent.setData (h : Coherent c) (hid : Identified c) {i : Fin NBUF}
    (hv : (c.buf i).valid = true) (hr : 0 < (c.buf i).refcnt) (data : Block) :
    Coherent (c.setData i data) where
  device j := by
    by_cases hj : j = i
    · subst hj
      simpa using h.device j
    · simpa [hj] using h.device j
  data j := by
    by_cases hj : j = i
    · subst hj
      simp
    · -- no other valid buffer is for this block
      simp only [setData_buf, Function.update_of_ne hj, setData_lost, setData_stored]
      intro hvj
      have hne : (c.buf j).blockno ≠ (c.buf i).blockno := fun hb =>
        hj (hid.unique j i (hid.dev_of_valid hvj) (hid.dev_of_valid hv) hb)
      simpa [hne] using h.data j hvj
  disk b hon := by
    by_cases hb : b = (c.buf i).blockno
    · simp [hb]
    · simpa [hb] using h.disk b hon
  unsaved b := by
    by_cases hb : b = (c.buf i).blockno
    · exact fun _ _ => ⟨i, by simp [hb, hv, hr, hid.dev_of_valid hv]⟩
    · simp only [setData_unsaved, setData_lost, Function.update_of_ne hb]
      intro hu hl
      obtain ⟨j, h1, h2, h3, h4⟩ := h.unsaved b hu hl
      have hj : j ≠ i := by
        rintro rfl
        exact hb h2.symm
      exact ⟨j, by simp [hj, h1, h2, h3, h4]⟩

theorem Coherent.writeDisk (h : Coherent c) (hid : Identified c) {i : Fin NBUF}
    (hv : (c.buf i).valid = true) : Coherent (c.writeDisk i) where
  device := h.device
  data := h.data
  disk b hon := by
    by_cases hb : b = (c.buf i).blockno
    · subst hb
      simpa using h.data i hv
    · have hne : sector b ≠ sector (c.buf i).blockno := fun hs =>
        hb (sector_inj hon (h.device i (hid.dev_of_valid hv)) hs)
      simpa [hb, hne] using h.disk b hon
  unsaved b := by
    by_cases hb : b = (c.buf i).blockno
    · simp [hb]
    · simpa [hb] using h.unsaved b

theorem Coherent.unref (h : Coherent c) (hid : Identified c) {i : Fin NBUF}
    (hr : 0 < (c.buf i).refcnt) : Coherent (c.unref i) where
  device j := by
    by_cases hj : j = i
    · subst hj
      simpa using h.device j
    · simpa [hj] using h.device j
  data j := by
    have hl : (c.unref i).lost (c.buf j).blockno = false → c.lost (c.buf j).blockno = false := by
      by_cases hb : (c.buf j).blockno = (c.buf i).blockno
      · simp +contextual [hb]
      · simp [hb]
    by_cases hj : j = i
    · subst hj
      intro hv hlost
      simp only [unref_buf, Function.update_self] at hv hlost ⊢
      exact h.data j hv (hl hlost)
    · simp only [unref_buf, Function.update_of_ne hj]
      exact fun hv hlost => h.data j hv (hl hlost)
  disk b hon hlost := by
    refine h.disk b hon ?_
    by_cases hb : b = (c.buf i).blockno
    · subst hb
      simp only [unref_lost, Function.update_self, Bool.or_eq_false_iff] at hlost
      exact hlost.1
    · simpa [hb] using hlost
  unsaved b hu hlost := by
    by_cases hb : b = (c.buf i).blockno
    · subst hb
      rw [unref_unsaved] at hu
      simp only [unref_lost, Function.update_self, hu, Bool.and_true, Bool.or_eq_false_iff,
        decide_eq_false_iff_not] at hlost
      obtain ⟨j, h1, h2, h3, -⟩ := h.unsaved _ hu hlost.1
      have hji := hid.unique j i h1 (hid.dev_of_refcnt hr) h2
      subst hji
      refine ⟨j, ?_⟩
      simpa [h1, h3] using Nat.pos_of_ne_zero hlost.2
    · obtain ⟨j, h1, h2, h3, h4⟩ := h.unsaved b hu (by simpa [hb] using hlost)
      have hj : j ≠ i := by
        rintro rfl
        exact hb h2.symm
      exact ⟨j, by simp [hj, h1, h2, h3, h4]⟩

/-- The calls are for blocks of the device `ROOTDEV`. -/
def OnRootdev (_ : Bcache n) (e : Event n) : Prop :=
  ∀ p dev b, e = .bread p dev b → dev = ROOTDEV ∧ OnDevice b

theorem Coherent.move (h : Coherent c) (hc : Consistent c) (hdev : OnRootdev c e)
    (hm : Move c e c') : Coherent c' := by
  obtain ⟨hlist, hcount, hid, hlock⟩ := hc
  cases hm with
  | @hit p dev b i hp hfind =>
    have href : Coherent (c.ref i) := h.setBuf rfl rfl rfl rfl fun _ => Nat.succ_pos _
    exact href.congr rfl rfl rfl rfl rfl
  | @miss p dev b i hp hnone hfind =>
    exact (h.recycle (hlist.unused_of_find hfind) dev (hdev p dev b rfl).2).congr rfl rfl rfl rfl rfl
  | @acquiresleep p i b hp hl =>
    have hset : Coherent (c.setLock i (some p)) := h.setBuf rfl rfl rfl rfl id
    exact hset.congr rfl rfl rfl rfl rfl
  | valid hp hv => exact h.congr rfl rfl rfl rfl rfl
  | @fill p i b hp hv =>
    exact (h.readDisk hid (hid.call p i b (Or.inr hp)).1 hv).congr rfl rfl rfl rfl rfl
  | @store p i data hp hl =>
    have hheld := (hlock.lock p i).1 hl |>.resolve_left (by simp [hp])
    have hle := hcount.refs_le p i
    simp only [refs, hp, Call.on, hheld, if_true] at hle
    exact h.setData hid (hlock.valid p i hheld) (by omega) data
  | @bwrite p i hp hl =>
    have hheld := (hlock.lock p i).1 hl |>.resolve_left (by simp [hp])
    exact h.writeDisk hid (hlock.valid p i hheld)
  | @brelse p i hp hl =>
    have hset : Coherent (c.setLock i none) := h.setBuf rfl rfl rfl rfl id
    exact hset.congr rfl rfl rfl rfl rfl
  | @unref p i hp =>
    have hle := hcount.refs_le p i
    simp only [refs, hp, Call.on, if_true] at hle
    exact (h.unref hid (by omega)).congr rfl rfl rfl rfl rfl
  | @bpin p i hp hl =>
    have href : Coherent (c.ref i) := h.setBuf rfl rfl rfl rfl fun _ => Nat.succ_pos _
    exact href.congr rfl rfl rfl rfl rfl
  | @bunpin i hpin =>
    have hi := hcount i
    exact (h.unref hid (by omega)).congr rfl rfl rfl rfl rfl

end Contents

/-- The invariant of the buffer cache. -/
structure Inv (c : Bcache n) : Prop extends Consistent c where
  coherent : Coherent c

theorem Inv.binit (disk : BitVec 32 → Block) : Inv (binit disk : Bcache n) where
  toConsistent := Consistent.binit disk
  coherent := by constructor <;> simp [Bio.binit, ROOTDEV]

theorem Inv.move (h : Inv c) (hdev : OnRootdev c e) (hm : Move c e c') : Inv c' where
  toConsistent := h.toConsistent.move (fun p dev b he => (hdev p dev b he).1) hm
  coherent := h.coherent.move h.toConsistent hdev hm

/-- After `binit`, on any disk. -/
def Initial (c : Bcache n) : Prop := ∃ disk, c = binit disk

theorem Inv.reach (h : Reach step OnRootdev Initial c) : Inv c := by
  refine h.invariant ?_ fun c e _ c' hinv hdev hstep => hinv.move hdev (step_cases hstep)
  rintro _ ⟨disk, rfl⟩
  exact Inv.binit disk

/-- In every state that calls for blocks of `ROOTDEV` lead to: the list visits
each buffer once in both directions; a block has at most one buffer, and buffers
without a block are unused; a buffer in use is not given to another block, so what
`bread` was asked for is in the buffer until `brelse`; and `bread` returns what
was last stored for the block, unless the last reference to its buffer was
dropped before that was written. -/
theorem bcache_identity_persistence (h : Reach step OnRootdev Initial c) :
    (∃ xs : List (Fin NBUF), xs.Perm (List.finRange NBUF) ∧
      Links.walk c.links.next none (NBUF + 1) (c.links.next none) = some (xs.map some) ∧
      Links.walk c.links.prev none (NBUF + 1) (c.links.prev none) =
        some (xs.reverse.map some)) ∧
    (∀ i j, (c.buf i).dev = ROOTDEV → (c.buf j).dev = ROOTDEV →
      (c.buf i).blockno = (c.buf j).blockno → i = j) ∧
    (∀ i, (c.buf i).dev ≠ ROOTDEV → (c.buf i).refcnt = 0 ∧ (c.buf i).valid = false) ∧
    (∀ e c', next e c = .ok c' → ∀ i, 0 < (c.buf i).refcnt →
      (c'.buf i).dev = (c.buf i).dev ∧ (c'.buf i).blockno = (c.buf i).blockno) ∧
    (∀ p i b, c.call p = .bget i b ∨ c.call p = .bread i b ∨ c.held p i = some b →
      0 < (c.buf i).refcnt ∧ (c.buf i).dev = ROOTDEV ∧ (c.buf i).blockno = b) ∧
    ∀ p i b c', c.call p = .bread i b → next (.fill p) c = .ok c' →
      c'.held p i = some b ∧ (c'.buf i).blockno = b ∧
        (c.lost b = false → (c'.buf i).data = c.stored b) := by
  have hinv := Inv.reach h
  refine ⟨?_, hinv.identified.unique, hinv.identified.fresh, ?_, ?_, ?_⟩
  · obtain ⟨xs, hr, hall⟩ := hinv.listed
    have hlen := Listed.length_lt hr
    have hnodup : xs.Nodup := List.Nodup.of_map _ (List.nodup_cons.1 hr.nodup).2
    refine ⟨xs, ?_, hr.walk_next hlen, ?_⟩
    · exact (List.perm_ext_iff_of_nodup hnodup (List.nodup_finRange NBUF)).2 (by simp [hall])
    · rw [List.map_reverse]
      exact hr.walk_prev hlen
  · intro e c' hnext i hr
    exact (next_cases hnext).identity hinv.listed hr
  · intro p i b hp
    have hle := hinv.counted.refs_le p i
    refine ⟨?_, ?_⟩
    · rcases hp with hp | hp | hp <;> simp only [refs, hp, Call.on] at hle <;> simp at hle <;> omega
    · rcases hp with hp | hp | hp
      · exact hinv.identified.call p i b (Or.inl hp)
      · exact hinv.identified.call p i b (Or.inr hp)
      · exact hinv.identified.held p i b hp
  · intro p i b c' hp hnext
    have hm := next_cases hnext
    have hinv' := hinv.move (e := .fill p) (by simp [OnRootdev]) hm
    have hheld : c'.held p i = some b ∧ c'.lost = c.lost ∧ c'.stored = c.stored := by
      cases hm with
      | valid hp' hv =>
        rw [hp] at hp'
        cases hp'
        simp
      | fill hp' hv =>
        rw [hp] at hp'
        cases hp'
        simp
    obtain ⟨hheld, hlost, hstored⟩ := hheld
    have hb := (hinv'.identified.held p i b hheld).2
    refine ⟨hheld, hb, fun hl => ?_⟩
    have hdata := hinv'.coherent.data i (hinv'.locked.valid p i (by simp [hheld]))
    rw [hb, hlost, hstored] at hdata
    exact hdata hl

/-- Process 0 reads block 7, stores into it and pins it; process 1 is about to
return from `bread` of the same block. -/
def pinThenRead (data : Block) : List (Event 2) :=
  [.bread 0 ROOTDEV 7, .acquiresleep 0, .fill 0, .store 0 0 data, .bpin 0 0, .brelse 0 0, .unref 0,
    .bread 1 ROOTDEV 7, .acquiresleep 1]

theorem pinThenRead_returns_stored :
    (drive step (pinThenRead Block.zero) (binit fun _ _ => 1)).call 1 = .bread 0 7 ∧
    (drive step (pinThenRead Block.zero) (binit fun _ _ => 1)).lost 7 = false ∧
    ∀ c', next (.fill 1) (drive step (pinThenRead Block.zero) (binit fun _ _ => 1)) = .ok c' →
      (c'.buf 0).data =
        (drive step (pinThenRead Block.zero) (binit fun _ _ => 1)).stored 7 := by
  have hreach : Reach step OnRootdev Initial
      (drive step (pinThenRead Block.zero) (binit fun _ _ => 1)) := by
    refine Reach.drive ⟨_, rfl⟩ ?_
    rintro _ e he p dev b rfl
    simp only [pinThenRead, List.mem_cons, Event.bread.injEq, reduceCtorEq, List.not_mem_nil,
      or_false, false_or] at he
    rcases he with ⟨-, rfl, rfl⟩ | ⟨-, rfl, rfl⟩ <;> exact ⟨rfl, by simp [OnDevice, BSIZE]⟩
  have hrun : (drive step (pinThenRead Block.zero) (binit fun _ _ => 1)).call 1 = .bread 0 7 ∧
      (drive step (pinThenRead Block.zero) (binit fun _ _ => 1)).lost 7 = false := by
    decide +kernel
  refine ⟨hrun.1, hrun.2, fun c' hnext => ?_⟩
  exact ((bcache_identity_persistence hreach).2.2.2.2.2 1 0 7 c' hrun.1 hnext).2.2 hrun.2

end Xv6.Bio
