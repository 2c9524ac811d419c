import Xv6.Fs.BmapSpec

/-! # `readi` and `writei`

What the loops over the blocks of a file read and write, as bytes of its content.
-/
namespace Xv6.Fs
open Disk Library

section
variable [sb : Superblock] {s s' : State} {ip : InodeId} {room : Option ℕ} {src : List UInt8}
  {fuel off tot n : ℕ}

omit sb in
theorem mod_BSIZE_lt (off : ℕ) : off % BSIZE < BSIZE := Nat.mod_lt _ (by decide)

omit sb in
theorem div_BSIZE_mul_le (off : ℕ) : off / BSIZE * BSIZE ≤ off := Nat.div_mul_le_self ..

omit sb in
theorem div_mod_of_lt (off : ℕ) {j : ℕ} (h : off % BSIZE + j < BSIZE) :
    (off + j) / BSIZE = off / BSIZE ∧ (off + j) % BSIZE = off % BSIZE + j := by
  unfold BSIZE at *
  omega

/-- `n` bytes of the content from `off` on. -/
def bytesAt (disk : ℕ → Block) (d : Dinode) (off n : ℕ) : List UInt8 :=
  (List.range n).map fun j => content disk d (off + j)

omit sb in
theorem bytesAt_add (disk : ℕ → Block) (d : Dinode) (off m n : ℕ) :
    bytesAt disk d off (m + n) = bytesAt disk d off m ++ bytesAt disk d (off + m) n := by
  unfold bytesAt
  rw [List.range_add, List.map_append, List.map_map]
  congr 1
  apply List.map_congr_left
  intro j _
  simp only [Function.comp_apply, Nat.add_assoc]

omit sb in
theorem bytesAt_block {disk : ℕ → Block} {d : Dinode} {m : ℕ}
    (hne : addr disk d (slotOf (off / BSIZE)) ≠ 0) (hm : m ≤ BSIZE - off % BSIZE) :
    bytesAt disk d off m = (List.range m).map fun j =>
      (disk (addr disk d (slotOf (off / BSIZE)))).byte (off % BSIZE + j) := by
  apply List.map_congr_left
  intro j hj
  rw [List.mem_range] at hj
  obtain ⟨hdiv, hmod⟩ := div_mod_of_lt off (j := j) (by omega)
  unfold content
  rw [hdiv, hmod, if_neg hne]

/-! ## `readi` -/

theorem readLoop_run (room : Option ℕ) (off tot : ℕ) (bytes : List UInt8)
    (hfull : ∀ n, n * BSIZE < (s.itable ip).d.size →
      addr s.disk (s.itable ip).d (slotOf n) ≠ 0)
    (hfuel : n - tot ≤ fuel) (htot : tot ≤ n) (hsize : off + (n - tot) ≤ (s.itable ip).d.size) :
    ∃ r, readLoop ip room fuel off tot n bytes s = .ok r s ∧ r.1 ≤ n ∧ ((∀ c ∈ room, n ≤ c) →
      r = ((n : ℤ), bytes ++ bytesAt s.disk (s.itable ip).d off (n - tot))) := by
  induction fuel generalizing off tot bytes with
  | zero =>
    have : tot = n := by omega
    subst this
    exact ⟨_, rfl, le_refl _, fun _ => by simp [bytesAt]⟩
  | succ fuel ih =>
    unfold readLoop
    by_cases hlt : tot < n
    · have hmod := mod_BSIZE_lt off
      have hne := hfull (off / BSIZE) (lt_of_le_of_lt (div_BSIZE_mul_le off) (by omega))
      rw [if_pos hlt, bind_run (bmap_mapped hne), if_neg hne, bind_run (bread_run ..)]
      generalize hm : min (n - tot) (BSIZE - off % BSIZE) = m
      have hblock := bytesAt_block (m := m) hne (by omega)
      rw [← hblock]
      by_cases hroom : room.any (· < tot + m) = true
      · rw [if_pos hroom]
        refine ⟨_, rfl, by dsimp only; omega, fun hc => ?_⟩
        obtain ⟨c, hmem, hcm⟩ := (Option.any_eq_true ..).mp hroom
        have := hc c hmem
        simp only [decide_eq_true_eq] at hcm
        omega
      · rw [if_neg hroom]
        obtain ⟨r, hrun, hle, heq⟩ := ih (off + m) (tot + m)
          (bytes ++ bytesAt s.disk (s.itable ip).d off m) (by omega) (by omega) (by omega)
        refine ⟨r, hrun, hle, fun hc => ?_⟩
        have hsplit : n - tot = m + (n - (tot + m)) := by omega
        rw [heq hc, List.append_assoc, ← bytesAt_add, ← hsplit]
    · have : tot = n := by omega
      subst this
      rw [if_neg hlt]
      exact ⟨_, rfl, le_refl _, fun _ => by simp [bytesAt]⟩

/-- `readi` changes nothing, and returns the bytes if the destination has room for them. -/
theorem readi_run (h : Held s ip) (room : Option ℕ) (off n : ℕ) :
    ∃ r, readi ip room off n s = .ok r s ∧ r.1 ≤ n ∧ ((∀ c ∈ room, n ≤ c) → r =
      if (s.itable ip).d.size < off ∨ (off + n) % 2 ^ 32 < off then ((0 : ℤ), [])
      else (((min n ((s.itable ip).d.size - off) : ℕ) : ℤ),
        bytesAt s.disk (s.itable ip).d off (min n ((s.itable ip).d.size - off)))) := by
  unfold readi
  rw [bind_run (getInode_run ip s)]
  by_cases hout : (s.itable ip).d.size < off ∨ (off + n) % 2 ^ 32 < off
  · rw [if_pos hout]
    exact ⟨_, rfl, Int.natCast_nonneg n, fun _ => by rw [if_pos hout]⟩
  · rw [if_neg hout]
    have hn : (if (s.itable ip).d.size < off + n then (s.itable ip).d.size - off else n) =
        min n ((s.itable ip).d.size - off) := by
      split <;> omega
    rw [hn]
    obtain ⟨r, hrun, hle, heq⟩ := readLoop_run room off 0 []
      (n := min n ((s.itable ip).d.size - off)) (fun _ => h.full) (le_refl _) (Nat.zero_le _)
      (by omega)
    refine ⟨r, hrun, by omega, fun hc => ?_⟩
    rw [if_neg hout, heq]
    · rfl
    · intro c hmem
      exact le_trans (min_le_left _ _) (hc c hmem)

/-! ## The loop of `writei` -/

section Store
variable {data : Block} {lh : List ℕ} {U : Set ℕ} (h : Held s ip)
  (hne : addr s.disk (s.itable ip).d (slotOf n) ≠ 0)

include h hne

/-- A write to a block with content of `ip` changes no address. -/
theorem addr_store (data : Block) {i : ℕ} (ha : Alloc (s.live ip) i) (k : ℕ) :
    addr (Function.update s.disk (addr s.disk (s.itable ip).d (slotOf n)) data) (s.live ip i) k =
      addr s.disk (s.live ip i) k := by
  apply addr_congr rfl
  intro hind
  apply Function.update_of_ne
  have := (h.files.indirect_ne ha hind h.alloc (slot_lt hne) (Or.inr (slotOf_ne_indirect n))).symm
  rwa [live_self] at this

theorem store_block_of_ne (data : Block) {i k : ℕ} (ha : Alloc (s.live ip) i) (hk : addr s.disk (s.live ip i) k ≠ 0)
    (hik : i ≠ (s.itable ip).inum ∨ k ≠ slotOf n) :
    Function.update s.disk (addr s.disk (s.itable ip).d (slotOf n)) data
      (addr s.disk (s.live ip i) k) = s.disk (addr s.disk (s.live ip i) k) := by
  apply Function.update_of_ne
  intro heq
  rw [← live_self] at hne heq
  obtain ⟨hi, hk⟩ := h.files.slot_inj h.alloc (slot_lt hne) hne ha (slot_lt hk) heq
  rcases hik with hne' | hne'
  · exact hne' hi
  · exact hne' hk

theorem content_store (o : ℕ) :
    content (Function.update s.disk (addr s.disk (s.itable ip).d (slotOf n)) data)
      (s.itable ip).d o =
      if o / BSIZE = n then data.byte (o % BSIZE) else content s.disk (s.itable ip).d o := by
  have haddr := addr_store h hne data h.alloc (slotOf (o / BSIZE))
  rw [live_self] at haddr
  by_cases ho : o / BSIZE = n
  · rw [if_pos ho]
    unfold content
    rw [haddr, ho, if_neg hne, Function.update_self]
  · rw [if_neg ho]
    apply content_congr haddr
    intro hk
    have := store_block_of_ne h hne data h.alloc (k := slotOf (o / BSIZE))
    rw [live_self] at this
    exact this hk (Or.inr fun he => ho (slotOf_inj he))

theorem Grew.store (data : Block) (lh : List ℕ)
    (hlogs : Logs U s { s with
      disk := Function.update s.disk (addr s.disk (s.itable ip).d (slotOf n)) data, lh := lh })
    (hwithin : ∀ b ∈ lh, b ∈ s.lh ∨ b = addr s.disk (s.itable ip).d (slotOf n)) :
    Grew ip {slotOf n} U s { s with
      disk := Function.update s.disk (addr s.disk (s.itable ip).d (slotOf n)) data, lh := lh } := by
  have hd := h.slot_data hne
  have hself (k : ℕ) := addr_store h hne data h.alloc k
  simp only [live_self] at hself
  have hdinode (i : ℕ) (hi : i < sb.ninodes) : State.dinode { s with
      disk := Function.update s.disk (addr s.disk (s.itable ip).d (slotOf n)) data, lh := lh } i =
      s.dinode i :=
    dinode_congr (Function.update_of_ne (hd.ne_IBLOCK hi) ..)
  refine ⟨frame_of_itable, ⟨?_, h.lt, h.type⟩, rfl, hdinode, ?_, ?_, hlogs, ?_⟩
  · have hf : Files (Function.update s.disk (addr s.disk (s.itable ip).d (slotOf n)) data)
        (s.live ip) ∅ := by
      apply h.files.congr
      · intro b hb
        exact used_congr (Function.update_of_ne (hd.ne_BBLOCK hb) ..)
      · intro i hi k _
        exact addr_store h hne data hi k
    exact hf.inoCongr fun i hi => live_congr (by rfl) (hdinode i hi)
  · intro i hi ha o
    apply content_of_blocks
    intro k _ hk
    have := store_block_of_ne h hne data (k := k) (ha.live hi)
    rw [live_of_ne hi] at this
    exact this hk (Or.inl hi)
  · intro k _
    exact hself k
  · intro b hb
    rcases hwithin b hb with hb | hb
    · exact Or.inl hb
    · refine Or.inr (Or.inr ⟨slotOf n, Finset.mem_singleton_self _, ?_, ?_⟩)
      · rw [hb]
        exact (hself _).symm
      · rw [hb]
        exact hne

theorem content_move {f : ℕ → UInt8} {c : ℕ} (hn : n = off / BSIZE) (hc : off % BSIZE + c ≤ BSIZE)
    (o : ℕ) :
    content (Function.update s.disk (addr s.disk (s.itable ip).d (slotOf n))
      ((s.disk (addr s.disk (s.itable ip).d (slotOf n))).move (off % BSIZE) f c))
      (s.itable ip).d o =
      if off ≤ o ∧ o < off + c then f (o - off) else content s.disk (s.itable ip).d o := by
  rw [content_store h hne]
  by_cases ho : o / BSIZE = n
  · have hiff : (off % BSIZE ≤ o % BSIZE ∧ o % BSIZE < off % BSIZE + c) ↔
        off ≤ o ∧ o < off + c := by
      unfold BSIZE at *
      omega
    have hsub : off ≤ o → o % BSIZE - off % BSIZE = o - off := by
      unfold BSIZE at *
      omega
    have hold : content s.disk (s.itable ip).d o =
        (s.disk (addr s.disk (s.itable ip).d (slotOf n))).byte (o % BSIZE) := by
      unfold content
      rw [ho, if_neg hne]
    rw [if_pos ho, Block.byte_move _ _ _ _ _ (mod_BSIZE_lt o), hold]
    by_cases hin : off ≤ o ∧ o < off + c
    · rw [if_pos (hiff.mpr hin), if_pos hin, hsub hin.1]
    · rw [if_neg (fun hlt => hin (hiff.mp hlt)), if_neg hin]
  · rw [if_neg ho, if_neg]
    unfold BSIZE at *
    omega

end Store

/-- The slots that a write of `len` bytes at `off` can change. -/
def span (off len : ℕ) : Finset ℕ :=
  insert NDIRECT ((Finset.Ico (off / BSIZE) ((off + len + (BSIZE - 1)) / BSIZE)).image slotOf)

omit sb in
theorem first_subset_span (off len : ℕ) (h : 0 < len) :
    {NDIRECT, slotOf (off / BSIZE)} ⊆ span off len := by
  intro k hk
  rcases Finset.mem_insert.mp hk with rfl | hk
  · exact Finset.mem_insert_self ..
  · apply Finset.mem_insert_of_mem
    rw [Finset.mem_singleton.mp hk]
    apply Finset.mem_image_of_mem
    rw [Finset.mem_Ico]
    unfold BSIZE
    omega

omit sb in
theorem span_subset_span (off : ℕ) {m n : ℕ} (h : m ≤ n) : span (off + m) (n - m) ⊆ span off n := by
  apply Finset.insert_subset_insert
  apply Finset.image_subset_image
  apply Finset.Ico_subset_Ico
  · exact Nat.div_le_div_right (Nat.le_add_right ..)
  · apply Nat.div_le_div_right
    omega

/-- The source ends at the end of a block, or where the write does, or has ended already. -/
def Whole (src : List UInt8) (n off tot : ℕ) : Prop :=
  n ≤ src.length ∨ src.length ≤ tot ∨ (off + (src.length - tot)) % BSIZE = 0

/-- The loop has got from `off` and `tot` to `r`, and has stored `w` bytes. -/
structure Stored (ip : InodeId) (src : List UInt8) (n off tot w : ℕ) (U : Set ℕ) (s : State)
    (r : ℕ × ℕ) (s' : State) : Prop where
  grew : Grew ip (span off (n - tot)) U s s'
  le : tot ≤ r.2 ∧ r.2 ≤ n
  off_eq : r.1 = off + (r.2 - tot)
  w_le : r.2 - tot ≤ w ∧ w ≤ n - tot ∧ w ≤ src.length - tot
  content : ∀ o, content s'.disk (s'.itable ip).d o =
    if off ≤ o ∧ o < off + w then src.getD (tot + (o - off)) 0
    else content s.disk (s.itable ip).d o
  mapped : ∀ o, off ≤ o → o < r.1 → addr s'.disk (s'.itable ip).d (slotOf (o / BSIZE)) ≠ 0
  whole : Whole src n off tot → w = r.2 - tot ∧ U = ∅
  full : n ≤ src.length → r.2 < n → ∀ b < sb.size, used s'.disk b
  stuck : n ≤ src.length → r.2 < n → addr s.disk (s.itable ip).d (slotOf (r.1 / BSIZE)) = 0
  edge : r.2 = n ∨ r.2 = tot ∨ r.1 % BSIZE = 0
  grown : tot < r.2 → addr s.disk (s.itable ip).d (slotOf (off / BSIZE)) = 0 →
    ∃ b < sb.size, ¬ used s.disk b
  copied : ∀ b ∈ U, ∃ m, b = addr s'.disk (s'.itable ip).d (slotOf m) ∧ b ≠ 0

theorem Stored.stop (h : Grew ip (span off (n - tot)) ∅ s s') (htot : tot ≤ n)
    (hcontent : ∀ o, Fs.content s'.disk (s'.itable ip).d o =
      Fs.content s.disk (s.itable ip).d o)
    (hfull : n ≤ src.length → tot < n → (∀ b < sb.size, used s'.disk b) ∧
      addr s'.disk (s'.itable ip).d (slotOf (off / BSIZE)) = 0) :
    Stored ip src n off tot 0 ∅ s (off, tot) s' where
  grew := h
  le := ⟨le_refl _, htot⟩
  off_eq := by
    dsimp only
    omega
  w_le := by
    dsimp only
    omega
  content o := by
    rw [if_neg (by omega)]
    exact hcontent o
  mapped o hle hlt := absurd hlt (Nat.not_lt.mpr hle)
  whole _ := ⟨(Nat.sub_self tot).symm, rfl⟩
  full hn hlt := (hfull hn hlt).1
  stuck hn hlt := by
    by_contra hne
    exact hne ((h.stable _ hne).symm.trans (hfull hn hlt).2)
  edge := Or.inr (Or.inl rfl)
  grown hlt := absurd hlt (lt_irrefl _)
  copied b hb := by cases hb

section Turn
variable {s₁ s₂ : State} {a c m : ℕ} (htot : tot < n)
  (hm : m = min (n - tot) (BSIZE - off % BSIZE))
  (hmap : Mapped ip {NDIRECT, slotOf (off / BSIZE)} (slotOf (off / BSIZE)) s a s₁) (ha : a ≠ 0)

/-- The block with `c` more bytes of the source. -/
def copyBlock (s : State) (src : List UInt8) (off tot a c : ℕ) : Block :=
  (s.disk a).move (off % BSIZE) (fun j => src.getD (tot + j) 0) c

include hmap ha

theorem content_turn {lh : List ℕ} (hc : c ≤ BSIZE - off % BSIZE)
    (hs₂ : s₂ = { s₁ with
      disk := Function.update s₁.disk a (copyBlock s₁ src off tot a c), lh := lh }) (o : ℕ) :
    content s₂.disk (s₂.itable ip).d o =
      if off ≤ o ∧ o < off + c then src.getD (tot + (o - off)) 0
      else content s.disk (s.itable ip).d o := by
  have hmod := mod_BSIZE_lt off
  have hne := ha
  rw [hmap.eq] at hne
  rw [hs₂, hmap.eq, ← hmap.content o]
  exact content_move hmap.grew.held hne rfl (by omega) o

theorem Grew.turn (src : List UInt8) (tot m : ℕ) :
    Grew ip {slotOf (off / BSIZE)} ∅ s₁ (s₁.log a (copyBlock s₁ src off tot a m)) := by
  have hne := ha
  rw [hmap.eq] at hne ⊢
  refine Grew.store hmap.grew.held hne _ _ (Logs.log ..) fun b hb => ?_
  exact (mem_log_lh Block.zero).mp hb

include htot hm

theorem Stored.fail (hc : c = min m (src.length - tot)) (hlt : c < m) :
    Stored ip src n off tot c {b | b = a ∧ c ≠ 0} s (off, tot)
      { s₁ with disk := Function.update s₁.disk a (copyBlock s₁ src off tot a c) } := by
  have hmod := mod_BSIZE_lt off
  have hne := ha
  rw [hmap.eq] at hne
  have hlogs : Logs {b | b = a ∧ c ≠ 0} s₁
      { s₁ with disk := Function.update s₁.disk a (copyBlock s₁ src off tot a c) } := by
    refine ⟨List.Subset.refl _, fun h => h, fun b _ hb => ?_⟩
    by_cases hba : b = a
    · have hc0 : c = 0 := by
        by_contra hc0
        exact hb ⟨hba, hc0⟩
      have hsame : copyBlock s₁ src off tot a 0 = s₁.disk a := by
        apply Block.ext_byte
        intro i hi
        rw [copyBlock, Block.byte_move _ _ _ _ _ hi, if_neg (by omega)]
      rw [hc0, hsame, Function.update_eq_self]
    · exact Function.update_of_ne hba ..
  have hstore := Grew.store hmap.grew.held hne (copyBlock s₁ src off tot a c) s₁.lh
    (by rw [← hmap.eq]; exact hlogs) fun b hb => Or.inl hb
  rw [← hmap.eq] at hstore
  have hfirst := first_subset_span off (n - tot) (by omega)
  refine ⟨?_, by dsimp only; omega, by dsimp only; omega, by dsimp only; omega, ?_, ?_, ?_, ?_, ?_,
    Or.inr (Or.inl rfl), fun hlt => absurd hlt (lt_irrefl _), ?_⟩
  · apply (hmap.grew.trans hstore).mono
    · exact Finset.union_subset hfirst (Finset.Subset.trans (by simp) hfirst)
    · simp
  · exact content_turn hmap ha (by omega) rfl
  · intro o hle hlt
    exact absurd hlt (Nat.not_lt.mpr hle)
  · intro hwhole
    have hc0 : c = 0 := by
      unfold Whole at hwhole
      unfold BSIZE at *
      omega
    refine ⟨by dsimp only; omega, ?_⟩
    ext b
    simp [hc0]
  · intro hn
    omega
  · intro hn
    omega
  · rintro b ⟨rfl, -⟩
    refine ⟨off / BSIZE, ?_, ha⟩
    have := hstore.stable (slotOf (off / BSIZE)) hne
    rw [this]
    exact hmap.eq

/-- The copy succeeds, and the rest of the loop stores `w` bytes more. -/
theorem Stored.next {w : ℕ} {U : Set ℕ} {r : ℕ × ℕ} (hc : m ≤ src.length - tot)
    (h : Stored ip src n (off + m) (tot + m) w U
      (s₁.log a (copyBlock s₁ src off tot a m)) r s') :
    Stored ip src n off tot (m + w) U s r s' := by
  have hmod := mod_BSIZE_lt off
  have hne := ha
  rw [hmap.eq] at hne
  have hstore := Grew.turn hmap ha src tot m
  have hle := h.le
  have hoff := h.off_eq
  have hw := h.w_le
  have hturn (o : ℕ) : Fs.content (s₁.log a (copyBlock s₁ src off tot a m)).disk
      ((s₁.log a (copyBlock s₁ src off tot a m)).itable ip).d o = if off ≤ o ∧ o < off + m then src.getD (tot + (o - off)) 0
        else Fs.content s.disk (s.itable ip).d o :=
    content_turn hmap ha (by omega) rfl o
  refine ⟨?_, by omega, by omega, by omega, ?_, ?_, ?_, h.full, ?_, ?_, ?_, h.copied⟩
  · have hgrew := (hmap.grew.trans hstore).trans h.grew
    apply hgrew.mono
    · have hfirst := first_subset_span off (n - tot) (by omega)
      have hrest := span_subset_span off (m := m) (n := n - tot) (by omega)
      rw [Nat.sub_sub] at hrest
      refine Finset.union_subset (Finset.union_subset hfirst ?_) hrest
      exact Finset.Subset.trans (by simp) hfirst
    · simp
  · intro o
    rw [h.content o, hturn o]
    by_cases hin : off ≤ o ∧ o < off + (m + w)
    · rw [if_pos hin]
      by_cases hfirst : o < off + m
      · rw [if_neg (by omega), if_pos ⟨hin.1, hfirst⟩]
      · rw [if_pos (by omega)]
        congr 1
        omega
    · rw [if_neg (by omega), if_neg hin, if_neg (by omega)]
  · intro o hlo hhi
    by_cases hfirst : o < off + m
    · have hdiv : o / BSIZE = off / BSIZE := by
        unfold BSIZE at *
        omega
      rw [hdiv]
      have h1 := hstore.stable (slotOf (off / BSIZE)) hne
      have h2 := h.grew.stable (slotOf (off / BSIZE)) (by rw [h1]; exact hne)
      rw [h2, h1]
      exact hne
    · exact h.mapped o (by omega) hhi
  · intro hwhole
    have hrest : Whole src n (off + m) (tot + m) := by
      unfold Whole at *
      rcases hwhole with hw | hw | hw
      · exact Or.inl hw
      · omega
      · refine Or.inr (Or.inr ?_)
        have : off + m + (src.length - (tot + m)) = off + (src.length - tot) := by omega
        rw [this, hw]
    obtain ⟨h1, h2⟩ := h.whole hrest
    exact ⟨by omega, h2⟩
  · intro hn hlt
    by_contra hne'
    have h1 := hmap.grew.stable _ hne'
    have h2 := hstore.stable _ (by rw [h1]; exact hne')
    have h3 := h.stuck hn hlt
    rw [h2, h1] at h3
    exact hne' h3
  · rcases h.edge with hr | hr | hr
    · exact Or.inl hr
    · unfold BSIZE at *
      omega
    · exact Or.inr (Or.inr hr)
  · intro _ h0
    by_contra hall
    push Not at hall
    rw [hmap.still hall, h0] at hne
    exact hne rfl

end Turn

theorem writeLoop_spec (h : Held s ip) (ho : 1 ≤ s.outstanding) (htot : tot ≤ n)
    (hfuel : n - tot ≤ fuel) (hmax : off + (n - tot) ≤ MAXFILE * BSIZE) :
    Wp (writeLoop ip src fuel off tot n) s
      (fun r s' => ∃ w U, Stored ip src n off tot w U s r s') (fun _ => False) := by
  induction fuel generalizing off tot s with
  | zero =>
    refine Wp.pure ⟨0, ∅, Stored.stop (Grew.refl h _ _) htot (fun _ => rfl) fun _ hlt => ?_⟩
    omega
  | succ fuel ih =>
    unfold writeLoop
    by_cases hlt : tot < n
    · have hmod := mod_BSIZE_lt off
      have hbn : off / BSIZE < MAXFILE := by
        rw [Nat.div_lt_iff_lt_mul (by decide)]
        omega
      rw [if_pos hlt]
      refine Wp.step (bmap_spec h ho hbn) fun a s₁ hmap => ?_
      by_cases ha : a = 0
      · rw [if_pos ha]
        refine Wp.pure ⟨0, ∅, Stored.stop ?_ htot hmap.content
          fun _ _ => ⟨hmap.full ha, hmap.eq.symm.trans ha⟩⟩
        exact hmap.grew.mono (first_subset_span _ _ (by omega)) (Set.Subset.refl _)
      · rw [if_neg ha]
        refine Wp.step_run (bread_run ..) ?_
        have ho₁ : 1 ≤ s₁.outstanding := by rwa [hmap.grew.outstanding]
        generalize hm : min (n - tot) (BSIZE - off % BSIZE) = m
        refine Wp.step_run (a := ()) rfl ?_
        generalize hc : min m (src.length - tot) = c
        by_cases hcm : c < m
        · rw [if_pos hcm]
          exact Wp.pure ⟨c, _, Stored.fail hlt hm.symm hmap ha hc.symm hcm⟩
        · obtain rfl : c = m := by omega
          rw [if_neg hcm]
          refine Wp.step_run (logWrite_run ho₁) ?_
          have hheld := (Grew.turn hmap ha src tot c).held
          refine (ih hheld ho₁ (by omega) (by omega) (by omega)).mono ?_
          rintro r s' ⟨w, U, hr⟩
          exact ⟨c + w, U, Stored.next hlt hm.symm hmap ha (by omega) hr⟩
    · rw [if_neg hlt]
      exact Wp.pure ⟨0, ∅, Stored.stop (Grew.refl h _ _) htot (fun _ => rfl)
        fun _ h => absurd h hlt⟩

end

end Xv6.Fs
