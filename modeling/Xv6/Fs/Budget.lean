import Xv6.Fs.ByteArray

/-! # Room for a write

A write takes one free block for each slot that it needs and that has none yet: the blocks of its
range, and the indirect block if one of them is beyond the direct ones.  With as many free blocks as
such slots, `writei` writes all of its data.
-/
namespace Xv6.Fs
open Disk Library

section
variable [sb : Superblock]

instance (disk : ℕ → Block) (b : ℕ) : Decidable (used disk b) :=
  inferInstanceAs (Decidable (_ = _))

def freeBlocks (disk : ℕ → Block) : Finset ℕ := (Finset.range sb.size).filter fun b => ¬ used disk b

theorem freeBlocks_eq_empty {disk : ℕ → Block} (h : ∀ b < sb.size, used disk b) :
    freeBlocks disk = ∅ := by
  apply Finset.filter_false_of_mem
  intro b hb hnot
  exact hnot (h b (Finset.mem_range.mp hb))

/-- The slots of `K` without a block. -/
def lacking (disk : ℕ → Block) (d : Dinode) (K : Finset ℕ) : Finset ℕ :=
  K.filter fun k => addr disk d k = 0

/-- The slots that block `bn` of a file needs. -/
def slotsFor (bn : ℕ) : Finset ℕ := if bn < NDIRECT then {bn} else {NDIRECT, bn + 1}

/-- The slots that `len` bytes at `off` need. -/
def needed (off len : ℕ) : Finset ℕ :=
  (Finset.Ico (off / BSIZE) ((off + len + (BSIZE - 1)) / BSIZE)).biUnion slotsFor

/-- As many blocks have been taken as slots of `K` have been filled. -/
def Budget (ip : InodeId) (K : Finset ℕ) (s s' : State) : Prop :=
  (freeBlocks s.disk).card + (lacking s'.disk (s'.itable ip).d K).card =
    (freeBlocks s'.disk).card + (lacking s.disk (s.itable ip).d K).card

section
variable {s s' s'' : State} {ip : InodeId} {K : Finset ℕ} {b k : ℕ}

theorem Budget.refl (ip : InodeId) (K : Finset ℕ) (s : State) : Budget ip K s s := rfl

theorem Budget.trans (h : Budget ip K s s') (h' : Budget ip K s' s'') : Budget ip K s s'' := by
  unfold Budget at *
  omega

/-- Neither the free map nor the slots have changed. -/
theorem Budget.of_same (hused : ∀ x < sb.size, used s'.disk x ↔ used s.disk x)
    (haddr : ∀ k, addr s'.disk (s'.itable ip).d k = addr s.disk (s.itable ip).d k) :
    Budget ip K s s' := by
  have hfree : freeBlocks s'.disk = freeBlocks s.disk := by
    apply Finset.filter_congr
    intro x hx
    rw [hused x (Finset.mem_range.mp hx)]
  have hlack : lacking s'.disk (s'.itable ip).d K = lacking s.disk (s.itable ip).d K := by
    apply Finset.filter_congr
    intro k _
    rw [haddr k]
  unfold Budget
  rw [hfree, hlack]

theorem Budget.fill {j : ℕ} (hj : j ∈ K) (hb : b < sb.size) (hfree : ¬ used s.disk b)
    (hused : ∀ x < sb.size, used s'.disk x ↔ used s.disk x ∨ x = b)
    (hempty : addr s.disk (s.itable ip).d j = 0) (hfull : addr s'.disk (s'.itable ip).d j ≠ 0)
    (haddr : ∀ k ≠ j, addr s'.disk (s'.itable ip).d k = addr s.disk (s.itable ip).d k) :
    Budget ip K s s' := by
  have hmem : b ∈ freeBlocks s.disk := Finset.mem_filter.mpr ⟨Finset.mem_range.mpr hb, hfree⟩
  have hjmem : j ∈ lacking s.disk (s.itable ip).d K := Finset.mem_filter.mpr ⟨hj, hempty⟩
  have hblocks : freeBlocks s'.disk = (freeBlocks s.disk).erase b := by
    ext x
    unfold freeBlocks
    rw [Finset.mem_erase, Finset.mem_filter, Finset.mem_filter, Finset.mem_range]
    constructor
    · rintro ⟨hx, hnot⟩
      rw [hused x hx, not_or] at hnot
      exact ⟨hnot.2, hx, hnot.1⟩
    · rintro ⟨hne, hx, hnot⟩
      rw [hused x hx, not_or]
      exact ⟨hx, hnot, hne⟩
  have hslots : lacking s'.disk (s'.itable ip).d K = (lacking s.disk (s.itable ip).d K).erase j := by
    ext k
    unfold lacking
    rw [Finset.mem_erase, Finset.mem_filter, Finset.mem_filter]
    by_cases hk : k = j
    · subst hk
      exact ⟨fun h => absurd h.2 hfull, fun h => absurd rfl h.1⟩
    · rw [haddr k hk]
      exact ⟨fun h => ⟨hk, h⟩, fun h => h.2⟩
  have h1 := Finset.card_pos.mpr ⟨b, hmem⟩
  have h2 := Finset.card_pos.mpr ⟨j, hjmem⟩
  unfold Budget
  rw [hblocks, hslots, Finset.card_erase_of_mem hmem, Finset.card_erase_of_mem hjmem]
  omega

/-! ## `bmap` -/

theorem Budget.attach {j : Fin (NDIRECT + 1)} (h : Held s ip) (hj : (s.itable ip).d.addrs j = 0)
    (hd : Data b) (hfree : ¬ used s.disk b) (hK : j.val ∈ K) : Budget ip K s (s.attach ip j b) := by
  apply Budget.fill hK hd.2 hfree
  · intro x hx
    exact used_takeBlock hd hx
  · rw [addr_fin, hj]
  · unfold State.attach
    rw [put_d, addr_setAddr_self]
    exact hd.ne_zero
  · intro k hk
    exact addr_attach_of_ne h hj hd hfree hk

theorem Budget.attachEntry {e : ℕ} (h : Held s ip) (hne : (s.itable ip).d.addrs INDIRECT ≠ 0)
    (he : e < NINDIRECT) (hz : (s.disk ((s.itable ip).d.addrs INDIRECT)).uint e = 0) (hd : Data b)
    (hfree : ¬ used s.disk b) (hK : NDIRECT + 1 + e ∈ K) :
    Budget ip K s (s.attachEntry ip e b) := by
  have hind : Data ((s.itable ip).d.addrs INDIRECT) := by
    have := hne
    rw [← addr_indirect s.disk] at this ⊢
    exact h.slot_data this
  apply Budget.fill hK hd.2 hfree
  · intro x hx
    rw [← used_takeBlock hd hx]
    exact used_congr (Function.update_of_ne (hind.ne_BBLOCK hx) ..)
  · rw [addr_entry, if_neg hne, hz]
  · change addr (s.attachEntry ip e b).disk (s.itable ip).d _ ≠ 0
    rw [addr_attachEntry_self hne hd he]
    exact hd.ne_zero
  · intro k hk
    change addr (s.attachEntry ip e b).disk (s.itable ip).d k = _
    by_cases hlt : k < NSLOT
    · exact addr_attachEntry_of_ne h hne hd hfree hlt hk
    · rw [addr_of_ge _ _ (Nat.le_of_not_lt hlt), addr_of_ge _ _ (Nat.le_of_not_lt hlt)]

theorem bmapAddr_budget (h : Held s ip) (ho : 1 ≤ s.outstanding) (j : Fin (NDIRECT + 1))
    (hK : j.val ∈ K) : Wp (bmapAddr ip j) s (fun _ s' => Budget ip K s s') (fun _ => False) := by
  unfold bmapAddr
  refine Wp.step_run (getInode_run ip s) ?_
  by_cases hj : (s.itable ip).d.addrs j = 0
  · rw [if_pos hj]
    rcases balloc_run h.files ho with ⟨hrun, -⟩ | ⟨b, hd, hfree, hrun⟩
    · refine Wp.step_run hrun ?_
      rw [if_pos rfl]
      exact Wp.pure (Budget.refl ip K s)
    · refine Wp.step_run hrun ?_
      rw [if_neg hd.ne_zero]
      have hset : setAddr ip j b (s.take b) = .ok () (s.attach ip j b) := rfl
      exact Wp.step_run hset (Wp.pure (Budget.attach h hj hd hfree hK))
  · rw [if_neg hj]
    exact Wp.pure (Budget.refl ip K s)

theorem bmap_budget {bn : ℕ} (h : Held s ip) (ho : 1 ≤ s.outstanding) (hbn : bn < MAXFILE)
    (hK : slotsFor bn ⊆ K) :
    Wp (bmap ip bn) s (fun _ s' => Budget ip K s s') (fun _ => False) := by
  unfold slotsFor at hK
  unfold bmap
  by_cases hdir : bn < NDIRECT
  · rw [if_pos hdir] at hK
    rw [dif_pos hdir]
    exact bmapAddr_budget h ho _ (hK (Finset.mem_singleton_self bn))
  · rw [if_neg hdir] at hK
    have he : bn - NDIRECT < NINDIRECT := by
      unfold MAXFILE at hbn
      omega
    have hentry : NDIRECT + 1 + (bn - NDIRECT) ∈ K := by
      have hslot : NDIRECT + 1 + (bn - NDIRECT) = bn + 1 := by omega
      rw [hslot]
      exact hK (by simp)
    rw [dif_neg hdir, if_pos he]
    generalize bn - NDIRECT = e at he hentry
    have hfirst := (bmapAddr_spec h ho INDIRECT).and
      (bmapAddr_budget h ho INDIRECT (K := K) (hK (Finset.mem_insert_self ..)))
    refine Wp.step (hfirst.weaken fun _ hf => hf.1) ?_
    rintro ind s₁ ⟨hm, hbudget⟩
    have hind : ind = (s₁.itable ip).d.addrs INDIRECT := hm.eq.trans (addr_fin ..)
    by_cases h0 : ind = 0
    · rw [if_pos h0]
      exact Wp.pure hbudget
    · rw [if_neg h0]
      rw [hind] at h0 ⊢
      refine Wp.step_run (bread_run ..) ?_
      have ho₁ : 1 ≤ s₁.outstanding := by rwa [hm.grew.outstanding]
      by_cases hz : (s₁.disk ((s₁.itable ip).d.addrs INDIRECT)).uint e = 0
      · rw [if_pos hz]
        rcases balloc_run hm.grew.held.files ho₁ with ⟨hrun, -⟩ | ⟨b, hd, hfree, hrun⟩
        · refine Wp.step_run hrun ?_
          rw [if_pos rfl]
          exact Wp.pure hbudget
        · refine Wp.step_run hrun ?_
          rw [if_neg hd.ne_zero]
          refine Wp.step_run (bread_run ..) (Wp.step_run (a := ()) rfl ?_)
          refine Wp.step_run (logWrite_run (s := s₁.take b) ho₁) (Wp.pure ?_)
          exact hbudget.trans (Budget.attachEntry hm.grew.held h0 he hz hd hfree hentry)
      · rw [if_neg hz]
        exact Wp.pure hbudget

/-! ## `writei` -/

variable {src : List UInt8} {fuel off tot n : ℕ}

omit sb in
theorem slotsFor_subset_needed (off : ℕ) {len : ℕ} (h : 0 < len) :
    slotsFor (off / BSIZE) ⊆ needed off len := by
  apply Finset.subset_biUnion_of_mem
  rw [Finset.mem_Ico]
  unfold BSIZE
  omega

omit sb in
theorem needed_subset_needed {off' len len' : ℕ} (h : off ≤ off') (h' : off' + len' ≤ off + len) :
    needed off' len' ⊆ needed off len := by
  apply Finset.biUnion_subset_biUnion_of_subset_left
  apply Finset.Ico_subset_Ico
  · exact Nat.div_le_div_right h
  · apply Nat.div_le_div_right
    omega

omit sb in
theorem slotOf_mem_slotsFor (bn : ℕ) : slotOf bn ∈ slotsFor bn := by
  unfold slotOf slotsFor
  split <;> simp

omit sb in
theorem addr_of_slotsFor {disk : ℕ → Block} {d : Dinode} {bn : ℕ} (h : addr disk d (slotOf bn) ≠ 0)
    (hk : k ∈ slotsFor bn) : addr disk d k ≠ 0 := by
  unfold slotOf at h
  unfold slotsFor at hk
  by_cases hbn : bn < NDIRECT
  · rw [if_pos hbn] at h hk
    rwa [Finset.mem_singleton.mp hk]
  · rw [if_neg hbn] at h hk
    rcases Finset.mem_insert.mp hk with rfl | hk
    · intro h0
      rw [addr_indirect] at h0
      apply h
      have hentry : bn + 1 = NDIRECT + 1 + (bn - NDIRECT) := by omega
      rw [hentry, addr_entry, if_pos h0]
    · rwa [Finset.mem_singleton.mp hk]

/-- A range inside the file has its blocks. -/
theorem lacking_needed (h : Held s ip) {len : ℕ} (hle : off + len ≤ (s.itable ip).d.size) :
    lacking s.disk (s.itable ip).d (needed off len) = ∅ := by
  apply Finset.filter_false_of_mem
  intro k hk
  obtain ⟨bn, hbn, hk⟩ := Finset.mem_biUnion.mp hk
  apply addr_of_slotsFor _ hk
  apply h.full
  have hlt := (Finset.mem_Ico.mp hbn).2
  unfold BSIZE at *
  omega

theorem Budget.store {m : ℕ} {lh : List ℕ} (h : Held s ip)
    (hne : addr s.disk (s.itable ip).d (slotOf m) ≠ 0) (data : Block) :
    Budget ip K s { s with
      disk := Function.update s.disk (addr s.disk (s.itable ip).d (slotOf m)) data, lh := lh } := by
  apply Budget.of_same
  · intro x hx
    exact used_congr (Function.update_of_ne ((h.slot_data hne).ne_BBLOCK hx) ..)
  · intro k
    have := addr_store h hne data h.alloc k
    rwa [live_self] at this

/-- The loop keeps the budget, and stops early only at a slot that is still empty. -/
theorem writeLoop_budget (h : Held s ip) (ho : 1 ≤ s.outstanding) (htot : tot ≤ n)
    (hmax : off + (n - tot) ≤ MAXFILE * BSIZE) (hfuel : n - tot ≤ fuel)
    (hK : needed off (n - tot) ⊆ K) :
    Wp (writeLoop ip src fuel off tot n) s
      (fun r s' => Budget ip K s s' ∧ (n ≤ src.length → r.2 < n →
        ∃ k ∈ K, addr s'.disk (s'.itable ip).d k = 0)) (fun _ => False) := by
  induction fuel generalizing off tot s with
  | zero =>
    refine Wp.pure ⟨Budget.refl ip K s, fun _ hlt => ?_⟩
    dsimp only at hlt
    omega
  | succ fuel ih =>
    unfold writeLoop
    by_cases hlt : tot < n
    · have hmod := mod_BSIZE_lt off
      have hbn : off / BSIZE < MAXFILE := by
        rw [Nat.div_lt_iff_lt_mul (by decide)]
        omega
      have hslots : slotsFor (off / BSIZE) ⊆ K :=
        (slotsFor_subset_needed off (by omega)).trans hK
      rw [if_pos hlt]
      have hmap := (bmap_spec h ho hbn).and (bmap_budget h ho hbn hslots)
      refine Wp.step (hmap.weaken fun _ hf => hf.1) ?_
      rintro a s₁ ⟨hm, hbudget⟩
      by_cases ha : a = 0
      · rw [if_pos ha]
        refine Wp.pure ⟨hbudget, fun _ _ => ⟨_, hslots (slotOf_mem_slotsFor _), ?_⟩⟩
        exact hm.eq.symm.trans ha
      · rw [if_neg ha]
        have hne := ha
        rw [hm.eq] at hne
        refine Wp.step_run (bread_run ..) ?_
        have ho₁ : 1 ≤ s₁.outstanding := by rwa [hm.grew.outstanding]
        generalize hmin : min (n - tot) (BSIZE - off % BSIZE) = m
        refine Wp.step_run (a := ()) rfl ?_
        generalize hc : min m (src.length - tot) = c
        by_cases hcm : c < m
        · rw [if_pos hcm]
          refine Wp.pure ⟨?_, fun hsrc _ => ?_⟩
          · have hstore : Budget ip K s₁ { s₁ with
                disk := Function.update s₁.disk a (copyBlock s₁ src off tot a c) } := by
              rw [hm.eq]
              exact Budget.store hm.grew.held hne _
            exact hbudget.trans hstore
          · omega
        · obtain rfl : c = m := by omega
          rw [if_neg hcm]
          refine Wp.step_run (logWrite_run ho₁) ?_
          have hturn := Grew.turn hm ha src tot c
          have hstore : Budget ip K s₁ (s₁.log a (copyBlock s₁ src off tot a c)) := by
            rw [hm.eq]
            exact Budget.store hm.grew.held hne _
          have hrest : needed (off + c) (n - (tot + c)) ⊆ K :=
            (needed_subset_needed (by omega) (by omega)).trans hK
          apply (ih hturn.held ho₁ (by omega) (by omega) (by omega) hrest).mono
          rintro r s' ⟨hb, hstuck⟩
          exact ⟨(hbudget.trans hstore).trans hb, hstuck⟩
    · rw [if_neg hlt]
      exact Wp.pure ⟨Budget.refl ip K s, fun _ h => absurd h hlt⟩

theorem flush_addr (d : Dinode) (h : Held s ip) (haddrs : d.addrs = (s.itable ip).d.addrs) (k : ℕ) :
    addr ((s.setD ip d).flush ip).disk (((s.setD ip d).flush ip).itable ip).d k =
      addr s.disk (s.itable ip).d k := by
  have hlt := h.lt
  have hd : (((s.setD ip d).flush ip).itable ip).d = d := setD_d
  rw [hd]
  apply addr_congr haddrs
  intro hne
  have hdata : Data ((s.itable ip).d.addrs INDIRECT) := by
    rw [← addr_indirect s.disk] at hne ⊢
    exact h.slot_data hne
  have hinum : ((s.setD ip d).itable ip).inum = (s.itable ip).inum := put_inum
  unfold State.flush State.writeInode
  rw [hinum]
  exact Function.update_of_ne (hdata.ne_IBLOCK hlt).symm ..

theorem flush_used {d : Dinode} (h : Held s ip) (x : ℕ) :
    used ((s.setD ip d).flush ip).disk x ↔ used s.disk x := by
  have hinum : ((s.setD ip d).itable ip).inum = (s.itable ip).inum := put_inum
  unfold State.flush
  rw [hinum, writeInode_used h.lt]
  rfl

theorem writei_budget (h : Clean s) (hip : Loaded s ip) (ho : 1 ≤ s.outstanding)
    (hn : n < 2 ^ 32) (hK : needed off n ⊆ K) :
    Wp (writei ip src off n) s (fun r s' => Budget ip K s s' ∧
      ∀ tot : ℕ, r = tot → n ≤ src.length → tot < n →
        ∃ k ∈ K, addr s'.disk (s'.itable ip).d k = 0) (fun _ => False) := by
  have hsize := (h.held hip).size_le
  have hsmall : MAXFILE * BSIZE < 2 ^ 32 := by decide
  have hbad : ∀ tot : ℕ, (-1 : ℤ) ≠ tot := fun tot => by omega
  unfold writei
  refine Wp.step_run (getInode_run ip s) ?_
  by_cases h1 : (s.itable ip).d.size < off ∨ (off + n) % 2 ^ 32 < off
  · rw [if_pos h1]
    exact Wp.pure ⟨Budget.refl ip K s, fun tot hr => absurd hr (hbad tot)⟩
  · rw [if_neg h1]
    by_cases h2 : MAXFILE * BSIZE < (off + n) % 2 ^ 32
    · rw [if_pos h2]
      exact Wp.pure ⟨Budget.refl ip K s, fun tot hr => absurd hr (hbad tot)⟩
    · rw [if_neg h2]
      have hmod : (off + n) % 2 ^ 32 = off + n := by omega
      have hheld := h.held hip
      have hloop : Wp (writeLoop ip src n off 0 n) s _ _ :=
        (writeLoop_spec hheld ho (Nat.zero_le n) (le_refl n) (by omega)).and
          (writeLoop_budget hheld ho (Nat.zero_le n) (by omega) (le_refl n) hK)
      refine Wp.step (hloop.weaken fun _ hf => hf.1) ?_
      rintro ⟨off', tot⟩ s₁ ⟨⟨w, U, hst⟩, hbudget, hstuck⟩
      have ho₁ : 1 ≤ s₁.outstanding := by rwa [hst.grew.outstanding]
      refine Wp.step_run (setDinode_run _) (Wp.step_run (iupdate_run ho₁) (Wp.pure ⟨?_, ?_⟩))
      · apply hbudget.trans
        apply Budget.of_same
        · intro x _
          exact flush_used hst.grew.held x
        · intro k
          exact flush_addr _ hst.grew.held (by rfl) k
      · intro tot' htot hsrc hlt
        have heq : tot' = tot := by exact_mod_cast htot.symm
        rw [heq] at hlt
        obtain ⟨k, hk, hzero⟩ := hstuck hsrc hlt
        exact ⟨k, hk, (flush_addr _ hst.grew.held (by rfl) k).trans hzero⟩

/-- With room for all of it, all of it is written. -/
theorem writei_whole (h : Clean s) (hip : Loaded s ip) (ho : 1 ≤ s.outstanding)
    (hoff : off = (s.itable ip).d.size) (hmax : off + n ≤ MAXFILE * BSIZE) (hsrc : n ≤ src.length)
    (hK : needed off n ⊆ K)
    (hroom : (lacking s.disk (s.itable ip).d K).card ≤ (freeBlocks s.disk).card) :
    Wp (writei ip src off n) s (fun r s' => r = n ∧ Written ip src off n n n ∅ s s' ∧
      Budget ip K s s') (fun _ => False) := by
  have hsmall : MAXFILE * BSIZE < 2 ^ 32 := by decide
  have hgood : ¬ BadRange (s.itable ip).d.size off n := by
    unfold BadRange
    rw [Nat.mod_eq_of_lt (by omega)]
    omega
  have hboth : Wp (writei ip src off n) s _ _ :=
    (writei_spec src off h hip ho (by omega)).and (writei_budget h hip ho (by omega) hK)
  apply (hboth.weaken fun _ hf => hf.1).mono
  rintro r s' ⟨⟨hbad, -⟩ | ⟨-, tot, w, U, rfl, hw⟩, hbudget, hstuck⟩
  · exact absurd hbad hgood
  · have htot : tot = n := by
      by_contra hne
      have hlt : tot < n := by
        have := hw.tot_le
        omega
      -- the disk is full, but a slot that the write needs is still empty
      obtain ⟨k, hk, hzero⟩ := hstuck tot rfl hsrc hlt
      have hfull := hw.full hsrc hlt
      have hnone := freeBlocks_eq_empty hfull
      have hmem : k ∈ lacking s'.disk (s'.itable ip).d K := Finset.mem_filter.mpr ⟨hk, hzero⟩
      have hsome := Finset.card_pos.mpr ⟨k, hmem⟩
      unfold Budget at hbudget
      rw [hnone, Finset.card_empty] at hbudget
      omega
    subst htot
    obtain ⟨rfl, rfl⟩ := hw.whole (Or.inl hsrc)
    exact ⟨rfl, hw, hbudget⟩

end

end

end Xv6.Fs
