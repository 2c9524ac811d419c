import Xv6.Fs.BlockSpec

/-! # Blocks of a locked inode

Between `ilock` and the `iupdate` that ends a write, the in-memory inode is ahead of the disk:
the files are those of `State.live`.  `Grew` is what `bmap`, and so the loop of `writei`, does to
such a state.
-/
namespace Xv6.Fs
open Disk Library

/-! ## Logged writes -/

/-- `data` goes into the buffer for block `b` and `b` into the log. -/
def State.log (s : State) (b : ℕ) (data : Block) : State :=
  { s with
    disk := Function.update s.disk b data
    lh := if b ∈ s.lh then s.lh else s.lh ++ [b] }

theorem mem_log_lh {s : State} {b x : ℕ} (data : Block) :
    x ∈ (s.log b data).lh ↔ x ∈ s.lh ∨ x = b := by
  unfold State.log
  dsimp only
  by_cases hb : b ∈ s.lh
  · rw [if_pos hb]
    constructor
    · exact Or.inl
    · rintro (h | rfl)
      · exact h
      · exact hb
  · rw [if_neg hb, List.mem_append, List.mem_singleton]

theorem nodup_log_lh {s : State} {b : ℕ} {data : Block} (h : s.lh.Nodup) :
    (s.log b data).lh.Nodup := by
  unfold State.log
  dsimp only
  by_cases hb : b ∈ s.lh
  · rw [if_pos hb]
    exact h
  · rw [if_neg hb]
    exact h.append (List.nodup_singleton b) (by simpa using hb)

theorem log_disk_of_notMem {s : State} {b x : ℕ} {data : Block} (h : x ∉ (s.log b data).lh) :
    (s.log b data).disk x = s.disk x := by
  apply Function.update_of_ne
  rintro rfl
  exact h ((mem_log_lh _).mpr (Or.inr rfl))

theorem logWrite_run {s : State} {b : ℕ} {data : Block} (h : 1 ≤ s.outstanding) :
    logWrite b { s with disk := Function.update s.disk b data } = .ok () (s.log b data) := by
  change (if s.outstanding < 1 then _ else _ : FsM Unit) _ = _
  rw [if_neg (by omega)]
  rfl

theorem setData_logWrite_run {s : State} {b : ℕ} {data : Block} (h : 1 ≤ s.outstanding) :
    (do setData b data; logWrite b) s = .ok () (s.log b data) :=
  (bind_run rfl).trans (logWrite_run h)

theorem bread_run (b : ℕ) (s : State) : bread b s = .ok (s.disk b) s := rfl

theorem getInode_run (ip : InodeId) (s : State) : getInode ip s = .ok (s.itable ip) s := rfl

/-- `commit` writes the blocks of the log: the others keep what they had, apart from `U`. -/
structure Logs (U : Set ℕ) (s s' : State) : Prop where
  keeps : s.lh ⊆ s'.lh
  nodup : s.lh.Nodup → s'.lh.Nodup
  rest : ∀ b ∉ s'.lh, b ∉ U → s'.disk b = s.disk b

namespace Logs
variable {U V : Set ℕ} {s s' s'' : State} {b : ℕ} {data : Block}

theorem refl (U : Set ℕ) (s : State) : Logs U s s :=
  ⟨List.Subset.refl _, fun h => h, fun _ _ _ => rfl⟩

theorem trans (h : Logs U s s') (h' : Logs V s' s'') : Logs (U ∪ V) s s'' where
  keeps := List.Subset.trans h.keeps h'.keeps
  nodup hn := h'.nodup (h.nodup hn)
  rest b hb hU := by
    rw [h'.rest b hb fun hV => hU (Or.inr hV)]
    exact h.rest b (fun hm => hb (h'.keeps hm)) fun hU' => hU (Or.inl hU')

theorem mono (h : Logs U s s') (hUV : U ⊆ V) : Logs V s s' :=
  ⟨h.keeps, h.nodup, fun b hb hV => h.rest b hb fun hU => hV (hUV hU)⟩

theorem trans_empty (h : Logs ∅ s s') (h' : Logs U s' s'') : Logs U s s'' :=
  (h.trans h').mono (by simp)

theorem log (s : State) (b : ℕ) (data : Block) : Logs ∅ s (s.log b data) :=
  ⟨fun _ h => (mem_log_lh data).mpr (Or.inl h), nodup_log_lh, fun _ hb _ => log_disk_of_notMem hb⟩

/-- Nothing but the disk and the log counts. -/
theorem congr {t t' : State} (h : Logs U s s') (hd : t.disk = s.disk) (hl : t.lh = s.lh)
    (hd' : t'.disk = s'.disk) (hl' : t'.lh = s'.lh) : Logs U t t' := by
  constructor
  · rw [hl, hl']
    exact h.keeps
  · rw [hl, hl']
    exact h.nodup
  · rw [hl', hd, hd']
    exact h.rest

end Logs

section
variable [sb : Superblock] {s s' s'' : State} {ip : InodeId} {d : Dinode} {K K' : Finset ℕ}
  {U V : Set ℕ} {b bn k : ℕ} {ino : ℕ → Dinode} {spare : Set ℕ}

/-! ## `balloc` and `bfree` -/

def State.take (s : State) (b : ℕ) : State :=
  (s.log (BBLOCK b) ((s.disk (BBLOCK b)).setBit (b % BPB))).log b Block.zero

theorem mem_take_lh {x : ℕ} : x ∈ (s.take b).lh ↔ x ∈ s.lh ∨ x = BBLOCK b ∨ x = b := by
  unfold State.take
  rw [mem_log_lh, mem_log_lh, or_assoc]

theorem Logs.take (s : State) (b : ℕ) : Logs ∅ s (s.take b) :=
  (Logs.log ..).trans_empty (Logs.log ..)

theorem balloc_run (hf : Files s.disk ino spare) (ho : 1 ≤ s.outstanding) :
    (balloc s = .ok 0 s ∧ ∀ b < sb.size, used s.disk b) ∨
      ∃ b, Data b ∧ ¬ used s.disk b ∧ balloc s = .ok b (s.take b) := by
  cases hfind : (List.range sb.size).find? fun b => !(s.disk (BBLOCK b)).bit (b % BPB) with
  | none =>
    have hrun : balloc s = .ok 0 s := by
      unfold balloc
      rw [bind_run (m := get) rfl, hfind]
      rfl
    refine Or.inl ⟨hrun, fun b hb => ?_⟩
    have := List.find?_eq_none.mp hfind b (List.mem_range.mpr hb)
    simpa [used] using this
  | some b =>
    have hrun : balloc s = (do
        let data ← bread (BBLOCK b)
        setData (BBLOCK b) (data.setBit (b % BPB))
        logWrite (BBLOCK b)
        bzero b
        pure b : FsM ℕ) s := by
      unfold balloc
      rw [bind_run (m := get) rfl, hfind]
    have hb : b < sb.size := List.mem_range.mp (List.mem_of_find?_eq_some hfind)
    have hfree : ¬ used s.disk b := by
      have := List.find?_some hfind
      simpa [used] using this
    have hd : Data b := by
      refine ⟨?_, hb⟩
      by_contra hlt
      exact hfree (hf.reserved b (by omega))
    refine Or.inr ⟨b, hd, hfree, ?_⟩
    rw [hrun]
    have hzero : bzero b (s.log (BBLOCK b) ((s.disk (BBLOCK b)).setBit (b % BPB))) =
        .ok () (s.take b) := setData_logWrite_run ho
    exact (bind_run (logWrite_run ho)).trans (bind_run hzero)

def State.drop (s : State) (b : ℕ) : State :=
  s.log (BBLOCK b) ((s.disk (BBLOCK b)).clearBit (b % BPB))

theorem bfree_run (hu : used s.disk b) (ho : 1 ≤ s.outstanding) :
    bfree b s = .ok () (s.drop b) := by
  have hrun : bfree b s = (if (s.disk (BBLOCK b)).bit (b % BPB) = false then
      throw .freeingFreeBlock
    else do
      setData (BBLOCK b) ((s.disk (BBLOCK b)).clearBit (b % BPB))
      logWrite (BBLOCK b) : FsM Unit) s := bind_run rfl
  have hbit : ¬ (s.disk (BBLOCK b)).bit (b % BPB) = false := by
    rw [Bool.not_eq_false]
    exact hu
  rw [hrun, if_neg hbit]
  exact setData_logWrite_run ho

/-! ## The inode in memory -/

/-- The inodes, with `ip` as it is in memory. -/
def State.live (s : State) (ip : InodeId) : ℕ → Dinode :=
  Function.update s.dinode (s.itable ip).inum (s.itable ip).d

def State.put (s : State) (ip : InodeId) (disk : ℕ → Block) (lh : List ℕ) (d : Dinode) : State :=
  { s with
    disk := disk
    lh := lh
    itable := Function.update s.itable ip { s.itable ip with d := d } }

omit sb in
theorem put_d {disk : ℕ → Block} {lh : List ℕ} : ((s.put ip disk lh d).itable ip).d = d := by
  simp only [State.put, Function.update_self]

omit sb in
theorem put_inum {disk : ℕ → Block} {lh : List ℕ} :
    ((s.put ip disk lh d).itable ip).inum = (s.itable ip).inum := by
  simp only [State.put, Function.update_self]

omit sb in
theorem put_self : s.put ip s.disk s.lh (s.itable ip).d = s := by
  simp only [State.put, Function.update_eq_self]

omit sb in
theorem put_put {disk disk' : ℕ → Block} {lh lh' : List ℕ} {d' : Dinode} :
    (s.put ip disk lh d).put ip disk' lh' d' = s.put ip disk' lh' d' := by
  simp only [State.put, Function.update_self, Function.update_idem]

/-- The byte at offset `o` of the inode's content, 0 where it has no block. -/
def content (disk : ℕ → Block) (d : Dinode) (o : ℕ) : UInt8 :=
  if addr disk d (slotOf (o / BSIZE)) = 0 then 0
  else (disk (addr disk d (slotOf (o / BSIZE)))).byte (o % BSIZE)

omit sb in
theorem content_congr {disk disk' : ℕ → Block} {d d' : Dinode} {o : ℕ}
    (haddr : addr disk' d' (slotOf (o / BSIZE)) = addr disk d (slotOf (o / BSIZE)))
    (hblk : addr disk d (slotOf (o / BSIZE)) ≠ 0 →
      disk' (addr disk d (slotOf (o / BSIZE))) = disk (addr disk d (slotOf (o / BSIZE)))) :
    content disk' d' o = content disk d o := by
  unfold content
  rw [haddr]
  by_cases hz : addr disk d (slotOf (o / BSIZE)) = 0
  · rw [if_pos hz, if_pos hz]
  · rw [if_neg hz, if_neg hz, hblk hz]

omit sb in
/-- The content is in the blocks that the inode refers to. -/
theorem content_of_blocks {disk disk' : ℕ → Block} {d : Dinode}
    (h : ∀ k < NSLOT, addr disk d k ≠ 0 → disk' (addr disk d k) = disk (addr disk d k)) (o : ℕ) :
    content disk' d o = content disk d o := by
  apply content_congr
  · apply addr_congr rfl
    have := h NDIRECT indirect_lt
    rw [addr_indirect] at this
    exact this
  · intro hne
    exact h _ (slot_lt hne) hne

/-- `ip` is in use and the files are consistent, with `ip` as it is in memory. -/
structure Held (s : State) (ip : InodeId) : Prop where
  files : Files s.disk (s.live ip) ∅
  lt : (s.itable ip).inum < sb.ninodes
  type : (s.itable ip).d.type ≠ 0

theorem live_self : s.live ip (s.itable ip).inum = (s.itable ip).d := Function.update_self ..

theorem Held.alloc (h : Held s ip) : Alloc (s.live ip) (s.itable ip).inum := by
  unfold Alloc
  rw [live_self]
  exact ⟨h.lt, h.type⟩

theorem Held.slot_data (h : Held s ip) (hne : addr s.disk (s.itable ip).d k ≠ 0) :
    Data (addr s.disk (s.itable ip).d k) := by
  have := h.files.slot_data h.alloc (slot_lt hne)
  rw [live_self] at this
  exact this hne

theorem Held.slot_inj {k' : ℕ} (h : Held s ip) (hne : addr s.disk (s.itable ip).d k ≠ 0)
    (heq : addr s.disk (s.itable ip).d k' = addr s.disk (s.itable ip).d k) : k' = k := by
  rw [← live_self] at hne heq
  exact (h.files.slot_inj h.alloc (slot_lt hne) hne h.alloc (slot_lt (heq ▸ hne)) heq).2

theorem Held.size_le (h : Held s ip) : (s.itable ip).d.size ≤ MAXFILE * BSIZE := by
  have := h.files.size_le _ h.alloc
  rwa [live_self] at this

theorem Held.full (h : Held s ip) {n : ℕ} (hn : n * BSIZE < (s.itable ip).d.size) :
    addr s.disk (s.itable ip).d (slotOf n) ≠ 0 := by
  have := h.files.full _ h.alloc n
  rw [live_self] at this
  exact this hn

/-- Only blocks of `ip`, and the free map, have changed.  The blocks in the log are in the slots
`K` of `ip`. -/
structure Grew (ip : InodeId) (K : Finset ℕ) (U : Set ℕ) (s s' : State) : Prop where
  frame : s' = s.put ip s'.disk s'.lh (s'.itable ip).d
  held : Held s' ip
  fields : (s'.itable ip).d = { (s.itable ip).d with addrs := (s'.itable ip).d.addrs }
  dinode : ∀ i < sb.ninodes, s'.dinode i = s.dinode i
  other : ∀ i ≠ (s.itable ip).inum, Alloc s.dinode i → ∀ o,
    content s'.disk (s.dinode i) o = content s.disk (s.dinode i) o
  stable : ∀ k, addr s.disk (s.itable ip).d k ≠ 0 →
    addr s'.disk (s'.itable ip).d k = addr s.disk (s.itable ip).d k
  logs : Logs U s s'
  within : ∀ b ∈ s'.lh, b ∈ s.lh ∨ (∃ x < sb.size, b = BBLOCK x) ∨
    ∃ k ∈ K, b = addr s'.disk (s'.itable ip).d k ∧ b ≠ 0

namespace Grew

theorem inum (h : Grew ip K U s s') : (s'.itable ip).inum = (s.itable ip).inum := by
  rw [h.frame]
  exact put_inum

theorem outstanding (h : Grew ip K U s s') : s'.outstanding = s.outstanding := by
  rw [h.frame]
  rfl

theorem refl (h : Held s ip) (K : Finset ℕ) (U : Set ℕ) : Grew ip K U s s where
  frame := put_self.symm
  held := h
  fields := rfl
  dinode _ _ := rfl
  other _ _ _ _ := rfl
  stable _ _ := rfl
  logs := Logs.refl U s
  within _ hb := Or.inl hb

theorem trans (h : Grew ip K U s s') (h' : Grew ip K' V s' s'') :
    Grew ip (K ∪ K') (U ∪ V) s s'' where
  frame := by
    have h2 := h'.frame
    rw [h.frame, put_put] at h2
    exact h2
  held := h'.held
  fields := by
    rw [h'.fields, h.fields]
  dinode i hi := (h'.dinode i hi).trans (h.dinode i hi)
  other i hne ha o := by
    have heq := h.dinode i ha.1
    have ha' : Alloc s'.dinode i := by
      unfold Alloc
      rw [heq]
      exact ha
    have h2 := h'.other i (by rwa [h.inum]) ha' o
    rw [heq] at h2
    exact h2.trans (h.other i hne ha o)
  stable k hne := by
    have h1 := h.stable k hne
    rw [h'.stable k (by rwa [h1]), h1]
  logs := h.logs.trans h'.logs
  within b hb := by
    rcases h'.within b hb with hb | hb | ⟨k, hK, rfl, hne⟩
    · rcases h.within b hb with hb | hb | ⟨k, hK, rfl, hne⟩
      · exact Or.inl hb
      · exact Or.inr (Or.inl hb)
      · refine Or.inr (Or.inr ⟨k, Finset.mem_union_left _ hK, ?_, hne⟩)
        exact (h'.stable k hne).symm
    · exact Or.inr (Or.inl hb)
    · exact Or.inr (Or.inr ⟨k, Finset.mem_union_right _ hK, rfl, hne⟩)

theorem mono (h : Grew ip K U s s') (hK : K ⊆ K') (hU : U ⊆ V) : Grew ip K' V s s' :=
  { h with
    logs := h.logs.mono hU
    within := by
      intro b hb
      rcases h.within b hb with hb | hb | ⟨k, hk, hrest⟩
      · exact Or.inl hb
      · exact Or.inr (Or.inl hb)
      · exact Or.inr (Or.inr ⟨k, hK hk, hrest⟩) }

end Grew

theorem dinode_congr {i : ℕ} (h : s'.disk (IBLOCK i) = s.disk (IBLOCK i)) :
    s'.dinode i = s.dinode i := by
  unfold State.dinode
  rw [h]

/-- An inode other than `ip`, seen with `ip` as it is in memory. -/
theorem live_of_ne {i : ℕ} (hi : i ≠ (s.itable ip).inum) : s.live ip i = s.dinode i :=
  Function.update_of_ne hi ..

theorem Alloc.live {i : ℕ} (ha : Alloc s.dinode i) (hi : i ≠ (s.itable ip).inum) :
    Alloc (s.live ip) i := by
  unfold Alloc
  rw [live_of_ne hi]
  exact ha

theorem live_setFields (hinum : (s'.itable ip).inum = (s.itable ip).inum) {i : ℕ}
    (hi : i < sb.ninodes) (hdinode : ∀ i < sb.ninodes, s'.dinode i = s.dinode i) :
    s'.live ip i = Function.update (s.live ip) (s.itable ip).inum (s'.itable ip).d i := by
  unfold State.live
  rw [hinum, Function.update_idem]
  by_cases h : i = (s.itable ip).inum
  · rw [h, Function.update_self, Function.update_self]
  · rw [Function.update_of_ne h, Function.update_of_ne h, hdinode i hi]

theorem live_congr (hit : s'.itable ip = s.itable ip) {i : ℕ} (hi : s'.dinode i = s.dinode i) :
    s'.live ip i = s.live ip i := by
  unfold State.live
  rw [hit]
  by_cases h : i = (s.itable ip).inum
  · rw [h, Function.update_self, Function.update_self]
  · rw [Function.update_of_ne h, Function.update_of_ne h, hi]

theorem Files.slot_ne_free {disk : ℕ → Block} {i : ℕ} (h : Files disk ino spare)
    (ha : Alloc ino i) (hb : ¬ used disk b) (hne : addr disk (ino i) k ≠ 0) :
    addr disk (ino i) k ≠ b := by
  rintro rfl
  exact hb (h.slot_used ha (slot_lt hne) hne)

theorem Held.slot_ne_free (h : Held s ip) (hb : ¬ used s.disk b)
    (hne : addr s.disk (s.itable ip).d k ≠ 0) : addr s.disk (s.itable ip).d k ≠ b := by
  have := h.files.slot_ne_free (k := k) h.alloc hb
  rw [live_self] at this
  exact this hne

theorem Files.content_take {disk : ℕ → Block} {i : ℕ} (h : Files disk ino spare)
    (ha : Alloc ino i) (hd : Data b) (hb : ¬ used disk b) (o : ℕ) :
    content (takeBlock disk b) (ino i) o = content disk (ino i) o := by
  apply content_of_blocks
  intro k hk hne
  exact takeBlock_data hd (h.slot_data ha hk hne) (h.slot_ne_free ha hb hne)

def State.attach (s : State) (ip : InodeId) (j : Fin (NDIRECT + 1)) (b : ℕ) : State :=
  (s.take b).put ip (s.take b).disk (s.take b).lh
    { (s.itable ip).d with addrs := Function.update (s.itable ip).d.addrs j b }

section
variable {j : Fin (NDIRECT + 1)} (h : Held s ip) (hj : (s.itable ip).d.addrs j = 0) (hd : Data b)
  (hfree : ¬ used s.disk b)

include h hj hd hfree

theorem addr_attach_of_ne (hne : k ≠ j) :
    addr (s.attach ip j b).disk ((s.attach ip j b).itable ip).d k =
      addr s.disk (s.itable ip).d k := by
  have hind : (s.itable ip).d.addrs INDIRECT ≠ 0 →
      takeBlock s.disk b ((s.itable ip).d.addrs INDIRECT) =
        s.disk ((s.itable ip).d.addrs INDIRECT) := by
    intro hne
    rw [← addr_indirect s.disk] at hne ⊢
    exact takeBlock_data hd (h.slot_data hne) (h.slot_ne_free hfree hne)
  unfold State.attach
  rw [put_d]
  exact (addr_setAddr_of_ne hj (fun _ => takeBlock_self) hne).trans (addr_congr rfl hind k)

theorem Grew.attach : Grew ip {j.val} ∅ s (s.attach ip j b) := by
  have hinum : ((s.attach ip j b).itable ip).inum = (s.itable ip).inum := put_inum
  have hd' : ((s.attach ip j b).itable ip).d =
      { (s.itable ip).d with addrs := Function.update (s.itable ip).d.addrs j b } := put_d
  have hdinode (i : ℕ) (hi : i < sb.ninodes) : (s.attach ip j b).dinode i = s.dinode i :=
    dinode_congr (takeBlock_IBLOCK hd hi)
  have hself : addr (s.attach ip j b).disk ((s.attach ip j b).itable ip).d j = b := by
    rw [hd', addr_setAddr_self]
  refine ⟨?_, ⟨?_, ?_, ?_⟩, ?_, hdinode, ?_, ?_, (Logs.take s b).congr rfl rfl rfl rfl, ?_⟩
  · rw [hd']
    rfl
  · have hf := (h.files.take hd hfree).attach h.alloc (Set.mem_insert b ∅)
      (by rw [live_self]; exact hj) fun _ => takeBlock_self
    rw [live_self, ← hd', insert_empty_eq, Set.sdiff_self] at hf
    exact hf.inoCongr fun i hi => live_setFields hinum hi hdinode
  · rw [hinum]
    exact h.lt
  · rw [hd']
    exact h.type
  · rw [hd']
  · intro i hi ha o
    have := h.files.content_take (ha.live hi) hd hfree o
    rwa [live_of_ne hi] at this
  · intro k hne
    apply addr_attach_of_ne h hj hd hfree
    rintro rfl
    exact hne ((addr_fin ..).trans hj)
  · intro x hx
    rcases mem_take_lh.mp hx with hx | hx | hx
    · exact Or.inl hx
    · exact Or.inr (Or.inl ⟨b, hd.2, hx⟩)
    · refine Or.inr (Or.inr ⟨j, Finset.mem_singleton_self _, ?_, ?_⟩)
      · rw [hself, hx]
      · rw [hx]
        exact hd.ne_zero

theorem content_attach (o : ℕ) :
    content (s.attach ip j b).disk ((s.attach ip j b).itable ip).d o =
      content s.disk (s.itable ip).d o := by
  by_cases hk : slotOf (o / BSIZE) = j
  · have hself : addr (s.attach ip j b).disk ((s.attach ip j b).itable ip).d j = b := by
      unfold State.attach
      rw [put_d, addr_setAddr_self]
    unfold content
    rw [hk, hself, addr_fin, hj, if_pos rfl, if_neg hd.ne_zero]
    change (takeBlock s.disk b b).byte _ = 0
    rw [takeBlock_self, Block.byte_zero]
  · apply content_congr (addr_attach_of_ne h hj hd hfree hk)
    intro hne
    exact takeBlock_data hd (h.slot_data hne) (h.slot_ne_free hfree hne)

end

def State.attachEntry (s : State) (ip : InodeId) (e b : ℕ) : State :=
  (s.take b).log ((s.itable ip).d.addrs INDIRECT)
    (((s.take b).disk ((s.itable ip).d.addrs INDIRECT)).setUint e b)

omit sb in
theorem frame_of_itable {disk : ℕ → Block} {lh : List ℕ} :
    { s with disk := disk, lh := lh } = s.put ip disk lh (s.itable ip).d := by
  simp only [State.put, Function.update_eq_self]

section
variable {e : ℕ} (h : Held s ip) (hne : (s.itable ip).d.addrs INDIRECT ≠ 0) (he : e < NINDIRECT)
  (hz : (s.disk ((s.itable ip).d.addrs INDIRECT)).uint e = 0) (hd : Data b)
  (hfree : ¬ used s.disk b)

include h hne hd hfree

theorem take_indirect : takeBlock s.disk b ((s.itable ip).d.addrs INDIRECT) =
    s.disk ((s.itable ip).d.addrs INDIRECT) := by
  rw [← addr_indirect s.disk] at hne ⊢
  exact takeBlock_data hd (h.slot_data hne) (h.slot_ne_free hfree hne)

theorem addr_attachEntry_of_ne (hk : k < NSLOT) (hke : k ≠ NDIRECT + 1 + e) :
    addr (s.attachEntry ip e b).disk (s.itable ip).d k = addr s.disk (s.itable ip).d k := by
  refine (addr_setEntry_of_ne (takeBlock s.disk b) hk hke).trans ?_
  exact addr_congr rfl (fun _ => take_indirect h hne hd hfree) k

omit h hfree in
theorem addr_attachEntry_self (he : e < NINDIRECT) :
    addr (s.attachEntry ip e b).disk (s.itable ip).d (NDIRECT + 1 + e) = b :=
  addr_setEntry_self (takeBlock s.disk b) he (lt_of_lt_of_le hd.2 sb.size_le) hne

/-- The blocks in the slots of an inode, but for the indirect block of `ip`. -/
theorem attachEntry_block {i : ℕ} (ha : Alloc (s.live ip) i)
    (hik : i ≠ (s.itable ip).inum ∨ k ≠ NDIRECT) (hk : addr s.disk (s.live ip i) k ≠ 0) :
    (s.attachEntry ip e b).disk (addr s.disk (s.live ip i) k) =
      s.disk (addr s.disk (s.live ip i) k) := by
  have hind := h.files.indirect_ne h.alloc (k := k) (by rwa [live_self]) ha (slot_lt hk) hik
  rw [live_self] at hind
  refine (Function.update_of_ne hind ..).trans ?_
  exact takeBlock_data hd (h.files.slot_data ha (slot_lt hk) hk)
    (h.files.slot_ne_free ha hfree hk)

include he hz

theorem Grew.attachEntry :
    Grew ip {NDIRECT, NDIRECT + 1 + e} ∅ s (s.attachEntry ip e b) := by
  have hind : Data ((s.itable ip).d.addrs INDIRECT) := by
    rw [← addr_indirect s.disk] at hne ⊢
    exact h.slot_data hne
  have hdinode (i : ℕ) (hi : i < sb.ninodes) : (s.attachEntry ip e b).dinode i = s.dinode i := by
    apply dinode_congr
    refine (Function.update_of_ne (hind.ne_IBLOCK hi) ..).trans ?_
    exact takeBlock_IBLOCK hd hi
  refine ⟨frame_of_itable, ⟨?_, h.lt, h.type⟩, rfl, hdinode, ?_, ?_, ?_, ?_⟩
  · have hf := (h.files.take hd hfree).attachEntry h.alloc (Set.mem_insert b ∅)
      (by rwa [live_self]) he (by rw [live_self, take_indirect h hne hd hfree, hz])
    rw [live_self, insert_empty_eq, Set.sdiff_self] at hf
    exact hf.inoCongr fun i hi => live_congr (by rfl) (hdinode i hi)
  · intro i hi ha o
    apply content_of_blocks
    intro k _ hk
    have := attachEntry_block (e := e) (k := k) h hne hd hfree (ha.live hi) (Or.inl hi)
    rw [live_of_ne hi] at this
    exact this hk
  · intro k hk
    apply addr_attachEntry_of_ne h hne hd hfree (slot_lt hk)
    rintro rfl
    rw [addr_entry, if_neg hne, hz] at hk
    exact hk rfl
  · exact (Logs.take s b).trans_empty (Logs.log ..)
  · intro x hx
    unfold State.attachEntry at hx
    rw [mem_log_lh, mem_take_lh] at hx
    rcases hx with (hx | hx | hx) | hx
    · exact Or.inl hx
    · exact Or.inr (Or.inl ⟨b, hd.2, hx⟩)
    · refine Or.inr (Or.inr ⟨NDIRECT + 1 + e, by simp, ?_, ?_⟩)
      · rw [hx]
        exact (addr_attachEntry_self hne hd he).symm
      · rw [hx]
        exact hd.ne_zero
    · refine Or.inr (Or.inr ⟨NDIRECT, by simp, ?_, ?_⟩)
      · rw [hx, addr_indirect]
        rfl
      · rw [hx]
        exact hne

theorem content_attachEntry (o : ℕ) :
    content (s.attachEntry ip e b).disk (s.itable ip).d o = content s.disk (s.itable ip).d o := by
  by_cases hk : slotOf (o / BSIZE) = NDIRECT + 1 + e
  · have hblk : (s.attachEntry ip e b).disk b = Block.zero := by
      refine (Function.update_of_ne ?_ ..).trans takeBlock_self
      rw [← addr_indirect s.disk] at hne ⊢
      exact (h.slot_ne_free hfree hne).symm
    unfold content
    rw [hk, addr_attachEntry_self hne hd he, addr_entry, if_neg hne, hz, if_pos rfl,
      if_neg hd.ne_zero, hblk, Block.byte_zero]
  · by_cases hlt : slotOf (o / BSIZE) < NSLOT
    · apply content_congr (addr_attachEntry_of_ne h hne hd hfree hlt hk)
      intro hne'
      have := attachEntry_block (e := e) (k := slotOf (o / BSIZE)) h hne hd hfree h.alloc
        (Or.inr (slotOf_ne_indirect _))
      rw [live_self] at this
      exact this hne'
    · unfold content
      rw [addr_of_ge _ _ (by omega), addr_of_ge _ _ (by omega), if_pos rfl, if_pos rfl]

end

/-! ## `bmap` -/

/-- `bmap` has returned `a` for slot `k`: 0 only if the disk is full. -/
structure Mapped (ip : InodeId) (K : Finset ℕ) (k : ℕ) (s : State) (a : ℕ) (s' : State) : Prop where
  grew : Grew ip K ∅ s s'
  content : ∀ o, content s'.disk (s'.itable ip).d o = content s.disk (s.itable ip).d o
  eq : a = addr s'.disk (s'.itable ip).d k
  full : a = 0 → ∀ b < sb.size, used s'.disk b
  still : (∀ b < sb.size, used s.disk b) → s' = s

theorem Mapped.refl (h : Held s ip) (K : Finset ℕ) (hk : addr s.disk (s.itable ip).d k ≠ 0) :
    Mapped ip K k s (addr s.disk (s.itable ip).d k) s :=
  ⟨Grew.refl h K ∅, fun _ => rfl, rfl, fun h0 => absurd h0 hk, fun _ => rfl⟩

theorem bmapAddr_spec (h : Held s ip) (ho : 1 ≤ s.outstanding) (j : Fin (NDIRECT + 1)) :
    Wp (bmapAddr ip j) s (Mapped ip {j.val} j s) (fun _ => False) := by
  unfold bmapAddr
  refine Wp.step_run (getInode_run ip s) ?_
  by_cases hj : (s.itable ip).d.addrs j = 0
  · rw [if_pos hj]
    rcases balloc_run h.files ho with ⟨hrun, hfull⟩ | ⟨b, hd, hfree, hrun⟩
    · refine Wp.step_run hrun ?_
      rw [if_pos rfl]
      refine Wp.pure ⟨Grew.refl h _ _, fun _ => rfl, ?_, fun _ => hfull, fun _ => rfl⟩
      rw [addr_fin, hj]
    · refine Wp.step_run hrun ?_
      rw [if_neg hd.ne_zero]
      have hset : setAddr ip j b (s.take b) = .ok () (s.attach ip j b) := rfl
      refine Wp.step_run hset (Wp.pure ?_)
      refine ⟨Grew.attach h hj hd hfree, content_attach h hj hd hfree, ?_, ?_, ?_⟩
      · unfold State.attach
        rw [put_d, addr_setAddr_self]
      · intro h0
        exact absurd h0 hd.ne_zero
      · intro hall
        exact absurd (hall b hd.2) hfree
  · rw [if_neg hj]
    have hk := addr_fin s.disk (s.itable ip).d j
    have := Mapped.refl (k := j) h {j.val} (by rwa [hk])
    rw [hk] at this
    exact Wp.pure this

theorem bmap_spec (h : Held s ip) (ho : 1 ≤ s.outstanding) (hbn : bn < MAXFILE) :
    Wp (bmap ip bn) s (Mapped ip {NDIRECT, slotOf bn} (slotOf bn) s) (fun _ => False) := by
  unfold bmap
  by_cases hdir : bn < NDIRECT
  · rw [dif_pos hdir]
    refine (bmapAddr_spec h ho ⟨bn, Nat.lt_succ_of_lt hdir⟩).mono fun a s' hm => ?_
    have hslot : slotOf bn = bn := if_pos hdir
    rw [hslot]
    exact ⟨hm.grew.mono (by simp) (Set.Subset.refl _), hm.content, hm.eq, hm.full, hm.still⟩
  · have he : bn - NDIRECT < NINDIRECT := by
      unfold MAXFILE at hbn
      omega
    have hslot : slotOf bn = NDIRECT + 1 + (bn - NDIRECT) := by
      unfold slotOf
      rw [if_neg hdir]
      omega
    rw [dif_neg hdir, if_pos he, hslot]
    generalize bn - NDIRECT = e at he
    refine Wp.step (bmapAddr_spec h ho INDIRECT) fun ind s₁ hm => ?_
    have hind : ind = (s₁.itable ip).d.addrs INDIRECT := hm.eq.trans (addr_fin ..)
    have hsub : ({INDIRECT.val} : Finset ℕ) ⊆ {NDIRECT, NDIRECT + 1 + e} := by
      simp [INDIRECT]
    by_cases h0 : ind = 0
    · rw [if_pos h0]
      refine Wp.pure ⟨hm.grew.mono hsub (Set.Subset.refl _), hm.content, ?_, fun _ => hm.full h0,
        hm.still⟩
      rw [addr_entry, if_pos (by rw [← hind, h0])]
    · rw [if_neg h0]
      rw [hind] at h0 ⊢
      refine Wp.step_run (bread_run ..) ?_
      have ho₁ : 1 ≤ s₁.outstanding := by rwa [hm.grew.outstanding]
      have hentry := addr_entry s₁.disk (s₁.itable ip).d e
      rw [if_neg h0] at hentry
      by_cases hz : (s₁.disk ((s₁.itable ip).d.addrs INDIRECT)).uint e = 0
      · rw [if_pos hz]
        rcases balloc_run hm.grew.held.files ho₁ with ⟨hrun, hfull⟩ | ⟨b, hd, hfree, hrun⟩
        · refine Wp.step_run hrun ?_
          rw [if_pos rfl]
          refine Wp.pure ⟨hm.grew.mono hsub (Set.Subset.refl _), hm.content, ?_, fun _ => hfull,
            hm.still⟩
          rw [hentry, hz]
        · refine Wp.step_run hrun ?_
          rw [if_neg hd.ne_zero]
          have hgrew := Grew.attachEntry hm.grew.held h0 he hz hd hfree
          refine Wp.step_run (bread_run ..) ?_
          refine Wp.step_run (a := ()) rfl ?_
          refine Wp.step_run (logWrite_run (s := s₁.take b) ho₁) (Wp.pure ?_)
          refine ⟨(hm.grew.trans hgrew).mono ?_ (by simp), ?_, ?_, ?_, ?_⟩
          · exact Finset.union_subset hsub (Finset.Subset.refl _)
          · intro o
            rw [← hm.content o]
            exact content_attachEntry hm.grew.held h0 he hz hd hfree o
          · exact (addr_attachEntry_self h0 hd he).symm
          · intro hb0
            exact absurd hb0 hd.ne_zero
          · intro hall
            rw [hm.still hall] at hfree
            exact absurd (hall b hd.2) hfree
      · rw [if_neg hz]
        exact Wp.pure ⟨hm.grew.mono hsub (Set.Subset.refl _), hm.content, hentry.symm,
          fun h0 => absurd h0 hz, hm.still⟩

theorem bmap_mapped (hne : addr s.disk (s.itable ip).d (slotOf bn) ≠ 0) :
    bmap ip bn s = .ok (addr s.disk (s.itable ip).d (slotOf bn)) s := by
  have haddr (j : Fin (NDIRECT + 1)) (hj : (s.itable ip).d.addrs j ≠ 0) :
      bmapAddr ip j s = .ok ((s.itable ip).d.addrs j) s := by
    refine (bind_run (getInode_run ip s)).trans ?_
    rw [if_neg hj]
    rfl
  unfold bmap
  by_cases hdir : bn < NDIRECT
  · have hslot : slotOf bn = (⟨bn, Nat.lt_succ_of_lt hdir⟩ : Fin (NDIRECT + 1)) := if_pos hdir
    rw [dif_pos hdir]
    rw [hslot, addr_fin] at hne ⊢
    exact haddr _ hne
  · have hlt := slot_lt hne
    have hslot : slotOf bn = NDIRECT + 1 + (bn - NDIRECT) := by
      unfold slotOf
      rw [if_neg hdir]
      omega
    rw [hslot] at hne hlt ⊢
    have he : bn - NDIRECT < NINDIRECT := by
      unfold NSLOT at hlt
      omega
    rw [addr_entry] at hne ⊢
    have hind : (s.itable ip).d.addrs INDIRECT ≠ 0 := by
      intro h0
      rw [if_pos h0] at hne
      exact hne rfl
    rw [if_neg hind] at hne ⊢
    rw [dif_neg hdir, if_pos he]
    refine (bind_run (haddr INDIRECT hind)).trans ?_
    rw [if_neg hind]
    refine (bind_run (bread_run ..)).trans ?_
    rw [if_neg hne]
    rfl

end

end Xv6.Fs
