import Xv6.Fs.ReadWrite

/-! # Files

What the inodes and their blocks stand for: numbered files, each with its type, its link count and
a list of bytes.  `Clean` states are those in which no in-memory inode is ahead of the disk;
`View` is what the rest of the kernel sees of one.
-/
namespace Xv6.Fs
open Disk Library

/-- A file as the layers above the inodes see it. -/
@[ext] structure Afile where
  type : BitVec 16
  major : BitVec 16
  minor : BitVec 16
  nlink : BitVec 16
  data : List UInt8
  deriving DecidableEq

/-- The file of an inode, if it is allocated. -/
def fileOf (disk : ℕ → Block) (d : Dinode) : Option Afile :=
  if d.type = 0 then none
  else some ⟨d.type, d.major, d.minor, d.nlink, bytesAt disk d 0 d.size⟩

theorem length_bytesAt (disk : ℕ → Block) (d : Dinode) (off n : ℕ) :
    (bytesAt disk d off n).length = n := by
  unfold bytesAt
  rw [List.length_map, List.length_range]

theorem bytesAt_congr {disk disk' : ℕ → Block} {d d' : Dinode} {off n : ℕ}
    (h : ∀ o, off ≤ o → o < off + n → content disk' d' o = content disk d o) :
    bytesAt disk' d' off n = bytesAt disk d off n := by
  apply List.map_congr_left
  intro j hj
  rw [List.mem_range] at hj
  exact h (off + j) (by omega) (by omega)

theorem bytesAt_eq_slice (disk : ℕ → Block) (d : Dinode) {off n size : ℕ} (h : off + n ≤ size) :
    bytesAt disk d off n = ((bytesAt disk d 0 size).drop off).take n := by
  obtain ⟨k, rfl⟩ := Nat.exists_eq_add_of_le h
  rw [bytesAt_add, bytesAt_add, Nat.zero_add, List.append_assoc,
    List.drop_left' (length_bytesAt ..), List.take_left' (length_bytesAt ..)]

theorem getD_bytesAt {disk : ℕ → Block} {d : Dinode} {off n o : ℕ} (ho : o < n) :
    (bytesAt disk d off n).getD o 0 = content disk d (off + o) := by
  unfold bytesAt
  rw [List.getD_eq_getElem?_getD, List.getElem?_map, List.getElem?_range ho]
  rfl

theorem bytesAt_eq {disk : ℕ → Block} {d : Dinode} {n : ℕ} {l : List UInt8} (hlen : l.length = n)
    (h : ∀ o < n, content disk d o = l.getD o 0) : bytesAt disk d 0 n = l := by
  unfold bytesAt
  apply List.ext_getElem
  · rw [List.length_map, List.length_range, hlen]
  · intro o h₁ h₂
    have := h o (by rwa [← hlen])
    rw [List.getD_eq_getElem?_getD, List.getElem?_eq_getElem h₂, Option.getD_some] at this
    rw [List.getElem_map, List.getElem_range, Nat.zero_add, this]

theorem fileOf_congr {disk disk' : ℕ → Block} {d : Dinode}
    (h : d.type ≠ 0 → ∀ o, content disk' d o = content disk d o) :
    fileOf disk' d = fileOf disk d := by
  unfold fileOf
  by_cases ht : d.type = 0
  · rw [if_pos ht, if_pos ht]
  · rw [if_neg ht, if_neg ht, bytesAt_congr fun o _ _ => h ht o]

/-- `bytes` in the place of what is in `data` at `off`. -/
def splice (data : List UInt8) (off : ℕ) (bytes : List UInt8) : List UInt8 :=
  data.take off ++ bytes ++ data.drop (off + bytes.length)

theorem length_splice {data bytes : List UInt8} {off : ℕ} (h : off ≤ data.length) :
    (splice data off bytes).length = max data.length (off + bytes.length) := by
  unfold splice
  rw [List.length_append, List.length_append, List.length_take, List.length_drop]
  omega

theorem getD_take {l : List UInt8} {n o : ℕ} (h : o < n) : (l.take n).getD o 0 = l.getD o 0 := by
  rw [List.getD_eq_getElem?_getD, List.getElem?_take, if_pos h, ← List.getD_eq_getElem?_getD]

theorem getD_splice {data bytes : List UInt8} {off : ℕ} (h : off ≤ data.length) (o : ℕ) :
    (splice data off bytes).getD o 0 =
      if off ≤ o ∧ o < off + bytes.length then bytes.getD (o - off) 0 else data.getD o 0 := by
  have htake : (data.take off).length = off := by
    rw [List.length_take]
    omega
  unfold splice
  by_cases hlo : off ≤ o
  · by_cases hhi : o < off + bytes.length
    · rw [if_pos ⟨hlo, hhi⟩, List.getD_append _ _ _ _ (by rw [List.length_append]; omega),
        List.getD_append_right _ _ _ _ (by omega), htake]
    · rw [if_neg (fun hc => hhi hc.2),
        List.getD_append_right _ _ _ _ (by rw [List.length_append]; omega), List.length_append,
        htake, List.getD_eq_getElem?_getD, List.getElem?_drop, ← List.getD_eq_getElem?_getD]
      congr 1
      omega
  · rw [if_neg (fun hc => hlo hc.1), List.append_assoc,
      List.getD_append _ _ _ _ (by omega), getD_take (by omega)]

section
variable [sb : Superblock] {s s' s'' : State} {ip : InodeId} {i : ℕ} {I J : Set ℕ} {k l : ℕ}
  {U V : Set ℕ} {d : Dinode}

def State.file (s : State) (i : ℕ) : Option Afile :=
  if i < sb.ninodes then fileOf s.disk (s.dinode i) else none

/-- The in-memory inode `ip` is in use and has been read from disk. -/
structure Loaded (s : State) (ip : InodeId) : Prop where
  ref : 0 < (s.itable ip).ref
  valid : (s.itable ip).valid = true

omit sb in
theorem Loaded.congr (h : Loaded s ip) (ht : s'.itable = s.itable) : Loaded s' ip := by
  refine ⟨?_, ?_⟩
  · rw [ht]
    exact h.ref
  · rw [ht]
    exact h.valid

/-- No in-memory inode is ahead of the disk, and none has two copies. -/
structure Clean (s : State) : Prop where
  files : Files s.disk s.dinode ∅
  coherent : ∀ t, Loaded s t → (s.itable t).d = s.dinode (s.itable t).inum ∧ (s.itable t).d.type ≠ 0
  unique : ∀ t t', 0 < (s.itable t).ref → 0 < (s.itable t').ref →
    (s.itable t).inum = (s.itable t').inum → t = t'
  inum_lt : ∀ t, 0 < (s.itable t).ref → (s.itable t).inum < sb.ninodes

theorem dinode_of_disk (h : s'.disk = s.disk) : s'.dinode = s.dinode := by
  unfold State.dinode
  rw [h]

/-- Nothing but the disk and the inode table counts. -/
theorem Clean.congr (h : Clean s) (hd : s'.disk = s.disk) (ht : s'.itable = s.itable) :
    Clean s' := by
  refine ⟨?_, fun t hload => ?_, ?_, ?_⟩
  · rw [dinode_of_disk hd, hd]
    exact h.files
  · have hr := hload.ref
    have hv := hload.valid
    rw [ht] at hr hv ⊢
    rw [dinode_of_disk hd]
    exact h.coherent t ⟨hr, hv⟩
  · rw [ht]
    exact h.unique
  · rw [ht]
    exact h.inum_lt

theorem Clean.held (h : Clean s) (hip : Loaded s ip) : Held s ip := by
  obtain ⟨hd, ht⟩ := h.coherent ip hip
  refine ⟨?_, h.inum_lt ip hip.ref, ht⟩
  have : s.live ip = s.dinode := by
    unfold State.live
    rw [hd, Function.update_eq_self]
  rw [this]
  exact h.files

/-- The file of a loaded inode. -/
def afile (s : State) (ip : InodeId) : Afile :=
  ⟨(s.itable ip).d.type, (s.itable ip).d.major, (s.itable ip).d.minor, (s.itable ip).d.nlink,
    bytesAt s.disk (s.itable ip).d 0 (s.itable ip).d.size⟩

omit sb in
theorem fileOf_afile (h : (s.itable ip).d.type ≠ 0) :
    fileOf s.disk (s.itable ip).d = some (afile s ip) := if_neg h

theorem Clean.file_eq (h : Clean s) (hip : Loaded s ip) :
    s.file (s.itable ip).inum = some (afile s ip) := by
  obtain ⟨hd, ht⟩ := h.coherent ip hip
  unfold State.file
  rw [if_pos (h.inum_lt ip hip.ref), ← hd, fileOf_afile ht]

/-! ## The view of a state -/

/-- A state without the log and the layout of the files. -/
@[ext] structure View where
  file : ℕ → Option Afile
  inum : InodeId → ℕ
  ref : InodeId → ℕ
  valid : InodeId → Bool
  ftable : FileId → File
  proc : ProcId → Option Proc
  outstanding : ℕ
  commits : List (List ℕ)

def State.view (s : State) : View where
  file := s.file
  inum t := (s.itable t).inum
  ref t := (s.itable t).ref
  valid t := (s.itable t).valid
  ftable := s.ftable
  proc := s.proc
  outstanding := s.outstanding
  commits := s.commits

/-- File `i` becomes `f`. -/
def View.store (v : View) (i : ℕ) (f : Option Afile) : View :=
  { v with file := Function.update v.file i f }

/-- Besides blocks of the free map, only blocks of the inodes `I` and at most `k` others have been
logged. -/
structure Logged (I : Set ℕ) (k : ℕ) (U : Set ℕ) (s s' : State) : Prop where
  logs : Logs U s s'
  within : ∃ Y : Finset ℕ, Y.card ≤ k ∧ ∀ b ∈ s'.lh,
    b ∈ s.lh ∨ (∃ x < sb.size, b = BBLOCK x) ∨ (∃ i ∈ I, b = IBLOCK i) ∨ b ∈ Y

namespace Logged

theorem refl (s : State) : Logged ∅ 0 ∅ s s :=
  ⟨Logs.refl ∅ s, ∅, le_refl _, fun _ hb => Or.inl hb⟩

theorem trans (h : Logged I k U s s') (h' : Logged J l V s' s'') :
    Logged (I ∪ J) (k + l) (U ∪ V) s s'' := by
  obtain ⟨Y, hY, hin⟩ := h.within
  obtain ⟨Z, hZ, hin'⟩ := h'.within
  refine ⟨h.logs.trans h'.logs, Y ∪ Z, ?_, ?_⟩
  · have := Finset.card_union_le Y Z
    omega
  · intro b hb
    rcases hin' b hb with hb | hb | ⟨i, hi, hb⟩ | hb
    · rcases hin b hb with hb | hb | ⟨i, hi, hb⟩ | hb
      · exact Or.inl hb
      · exact Or.inr (Or.inl hb)
      · exact Or.inr (Or.inr (Or.inl ⟨i, Or.inl hi, hb⟩))
      · exact Or.inr (Or.inr (Or.inr (Finset.mem_union_left _ hb)))
    · exact Or.inr (Or.inl hb)
    · exact Or.inr (Or.inr (Or.inl ⟨i, Or.inr hi, hb⟩))
    · exact Or.inr (Or.inr (Or.inr (Finset.mem_union_right _ hb)))

theorem mono (h : Logged I k U s s') (hI : I ⊆ J) (hk : k ≤ l) (hU : U ⊆ V) :
    Logged J l V s s' := by
  obtain ⟨Y, hY, hin⟩ := h.within
  refine ⟨h.logs.mono hU, Y, hY.trans hk, fun b hb => ?_⟩
  rcases hin b hb with hb | hb | ⟨i, hi, hb⟩ | hb
  · exact Or.inl hb
  · exact Or.inr (Or.inl hb)
  · exact Or.inr (Or.inr (Or.inl ⟨i, hI hi, hb⟩))
  · exact Or.inr (Or.inr (Or.inr hb))

/-- Nothing but the disk and the log counts. -/
theorem congr {t t' : State} (h : Logged I k U s s') (hd : t.disk = s.disk) (hl : t.lh = s.lh)
    (hd' : t'.disk = s'.disk) (hl' : t'.lh = s'.lh) : Logged I k U t t' := by
  refine ⟨h.logs.congr hd hl hd' hl', ?_⟩
  rw [hl, hl']
  exact h.within

end Logged

/-! ## Writing an inode -/

def State.writeInode (s : State) (i : ℕ) (d : Dinode) : State :=
  s.log (IBLOCK i) (Dinode.write (s.disk (IBLOCK i)) (i % IPB) d)

theorem writeInode_dinode (hfits : d.Fits) :
    (s.writeInode i d).dinode = Function.update s.dinode i d := by
  funext j
  unfold State.dinode State.writeInode
  change Dinode.read (Function.update s.disk _ _ _) _ = _
  by_cases hj : j = i
  · rw [hj, Function.update_self, Function.update_self]
    exact Dinode.read_write_self _ (Nat.mod_lt _ (by decide)) hfits
  · rw [Function.update_of_ne hj]
    by_cases hb : IBLOCK j = IBLOCK i
    · rw [hb, Function.update_self]
      apply Dinode.read_write_of_ne _ (Nat.mod_lt _ (by decide))
      intro hmod
      apply hj
      have hdiv : j / IPB = i / IPB := Nat.add_right_cancel hb
      rw [← Nat.div_add_mod j IPB, ← Nat.div_add_mod i IPB, hdiv, hmod]
    · rw [Function.update_of_ne hb]

theorem writeInode_used {b : ℕ} (hi : i < sb.ninodes) :
    used (s.writeInode i d).disk b ↔ used s.disk b :=
  used_congr (Function.update_of_ne (IBLOCK_ne_BBLOCK hi b).symm ..)

theorem Files.writeInode {ino : ℕ → Dinode} {spare : Set ℕ} (h : Files s.disk ino spare)
    (hi : i < sb.ninodes) (d : Dinode) : Files (s.writeInode i d).disk ino spare := by
  apply h.write
  · intro x _
    exact (IBLOCK_ne_BBLOCK hi x).symm
  · intro j ha hne
    exact ((h.indirect_data ha hne).ne_IBLOCK hi).symm

theorem Files.content_writeInode {ino : ℕ → Dinode} {spare : Set ℕ} {j : ℕ}
    (h : Files s.disk ino spare) (hi : i < sb.ninodes) (d : Dinode) (ha : Alloc ino j) (o : ℕ) :
    content (s.writeInode i d).disk (ino j) o = content s.disk (ino j) o := by
  apply content_of_blocks
  intro k hk hne
  exact Function.update_of_ne ((h.slot_data ha hk hne).ne_IBLOCK hi).symm ..

theorem file_writeInode (h : Files s.disk (Function.update s.dinode i d) ∅) (hi : i < sb.ninodes)
    (hfits : d.Fits) :
    (s.writeInode i d).file = Function.update s.file i (fileOf s.disk d) := by
  funext j
  unfold State.file
  rw [writeInode_dinode hfits]
  by_cases hlt : j < sb.ninodes
  · rw [if_pos hlt]
    have hcongr : fileOf (s.writeInode i d).disk (Function.update s.dinode i d j) =
        fileOf s.disk (Function.update s.dinode i d j) := by
      apply fileOf_congr
      intro ht o
      exact h.content_writeInode hi d ⟨hlt, ht⟩ o
    rw [hcongr]
    by_cases hj : j = i
    · rw [hj, Function.update_self, Function.update_self]
    · rw [Function.update_of_ne hj, Function.update_of_ne hj, if_pos hlt]
  · have hj : j ≠ i := by
      rintro rfl
      exact hlt hi
    rw [if_neg hlt, Function.update_of_ne hj, if_neg hlt]

theorem Files.fits {disk : ℕ → Block} {ino : ℕ → Dinode} {spare : Set ℕ}
    (h : Files disk ino spare) (ha : Alloc ino i) : (ino i).Fits where
  size_lt := lt_of_le_of_lt (h.size_le i ha) (by decide)
  addrs_lt j := by
    rw [← addr_fin disk]
    by_cases h0 : addr disk (ino i) j = 0
    · rw [h0]
      norm_num
    · exact lt_of_lt_of_le (h.slot_data ha (slot_lt h0) h0).2 sb.size_le

theorem Logged.writeInode (s : State) (i : ℕ) (d : Dinode) :
    Logged {i} 0 ∅ s (s.writeInode i d) := by
  refine ⟨Logs.log .., ∅, le_refl _, fun b hb => ?_⟩
  rcases (mem_log_lh _).mp hb with hb | hb
  · exact Or.inl hb
  · exact Or.inr (Or.inr (Or.inl ⟨_, rfl, hb⟩))

/-! ## `iupdate` -/

/-- The in-memory inode goes to disk. -/
def State.flush (s : State) (ip : InodeId) : State :=
  s.writeInode (s.itable ip).inum (s.itable ip).d

theorem Logged.flush (s : State) (ip : InodeId) :
    Logged {(s.itable ip).inum} 0 ∅ s (s.flush ip) :=
  Logged.writeInode ..

theorem iupdate_run (ho : 1 ≤ s.outstanding) : iupdate ip s = .ok () (s.flush ip) :=
  (bind_run (getInode_run ip s)).trans ((bind_run (bread_run ..)).trans (setData_logWrite_run ho))

/-- The in-memory inode `ip` and its blocks have changed, and nothing else. -/
structure Ahead (ip : InodeId) (s s' : State) : Prop where
  frame : s' = s.put ip s'.disk s'.lh (s'.itable ip).d
  files : Files s'.disk (s'.live ip) ∅
  fits : (s'.itable ip).d.Fits
  dinode : ∀ i < sb.ninodes, s'.dinode i = s.dinode i
  other : ∀ i ≠ (s.itable ip).inum, Alloc s.dinode i → ∀ o,
    content s'.disk (s.dinode i) o = content s.disk (s.dinode i) o

namespace Ahead

theorem inum (h : Ahead ip s s') : (s'.itable ip).inum = (s.itable ip).inum := by
  rw [h.frame]
  exact put_inum

theorem itable_of_ne (h : Ahead ip s s') {t : InodeId} (ht : t ≠ ip) :
    s'.itable t = s.itable t := by
  rw [h.frame]
  exact Function.update_of_ne ht ..

theorem entry (h : Ahead ip s s') (t : InodeId) : (s'.itable t).inum = (s.itable t).inum ∧
    (s'.itable t).ref = (s.itable t).ref ∧ (s'.itable t).valid = (s.itable t).valid := by
  by_cases ht : t = ip
  · subst ht
    rw [h.frame]
    simp only [State.put, Function.update_self, and_self]
  · rw [h.itable_of_ne ht]
    exact ⟨rfl, rfl, rfl⟩

theorem file_of_ne (h : Ahead ip s s') (hi : i ≠ (s.itable ip).inum) : s'.file i = s.file i := by
  unfold State.file
  by_cases hlt : i < sb.ninodes
  · rw [if_pos hlt, if_pos hlt, h.dinode i hlt]
    apply fileOf_congr
    intro ht o
    exact h.other i hi ⟨hlt, ht⟩ o
  · rw [if_neg hlt, if_neg hlt]

theorem flush_dinode (h : Ahead ip s s') : (s'.flush ip).dinode = s'.live ip :=
  writeInode_dinode h.fits

theorem flush_files (h : Ahead ip s s') (hlt : (s.itable ip).inum < sb.ninodes) :
    Files (s'.flush ip).disk (s'.flush ip).dinode ∅ := by
  rw [h.flush_dinode]
  exact h.files.writeInode (by rwa [h.inum]) _

theorem flush_view (h : Ahead ip s s') (hlt : (s.itable ip).inum < sb.ninodes) :
    (s'.flush ip).view = s.view.store (s.itable ip).inum (fileOf s'.disk (s'.itable ip).d) := by
  ext1
  · have hfile : (s'.flush ip).file =
        Function.update s'.file (s'.itable ip).inum (fileOf s'.disk (s'.itable ip).d) :=
      file_writeInode h.files (by rwa [h.inum]) h.fits
    change (s'.flush ip).file = Function.update s.file _ _
    rw [hfile, h.inum]
    funext i
    by_cases hi : i = (s.itable ip).inum
    · rw [hi, Function.update_self, Function.update_self]
    · rw [Function.update_of_ne hi, Function.update_of_ne hi, h.file_of_ne hi]
  · funext t
    exact (h.entry t).1
  · funext t
    exact (h.entry t).2.1
  · funext t
    exact (h.entry t).2.2
  · change s'.ftable = s.ftable
    rw [h.frame]
    rfl
  · change s'.proc = s.proc
    rw [h.frame]
    rfl
  · change s'.outstanding = s.outstanding
    rw [h.frame]
    rfl
  · change s'.commits = s.commits
    rw [h.frame]
    rfl

/-- The other in-memory inodes still agree with the disk. -/
theorem flush_coherent (h : Ahead ip s s') (hs : Clean s) (hip : 0 < (s.itable ip).ref)
    {t : InodeId} (ht : t ≠ ip) (hload : Loaded s t) :
    (s'.itable t).d = (s'.flush ip).dinode (s'.itable t).inum ∧ (s'.itable t).d.type ≠ 0 := by
  have hi : (s.itable t).inum ≠ (s.itable ip).inum :=
    fun he => ht (hs.unique t ip hload.ref hip he)
  rw [h.itable_of_ne ht, h.flush_dinode, live_of_ne (by rwa [h.inum]),
    h.dinode _ (hs.inum_lt t hload.ref)]
  exact hs.coherent t hload

theorem flush_clean (h : Ahead ip s s') (hs : Clean s) (hip : 0 < (s.itable ip).ref)
    (ht : (s'.itable ip).d.type ≠ 0) : Clean (s'.flush ip) := by
  refine ⟨h.flush_files (hs.inum_lt ip hip), ?_, ?_, ?_⟩
  · intro t hload
    by_cases htip : t = ip
    · subst htip
      rw [h.flush_dinode]
      exact ⟨(live_self (s := s')).symm, ht⟩
    · apply h.flush_coherent hs hip htip
      refine ⟨?_, ?_⟩
      · rw [← (h.entry t).2.1]
        exact hload.ref
      · rw [← (h.entry t).2.2]
        exact hload.valid
  · intro t t' ht ht' heq
    change 0 < (s'.itable t).ref at ht
    change 0 < (s'.itable t').ref at ht'
    change (s'.itable t).inum = (s'.itable t').inum at heq
    rw [(h.entry t).2.1] at ht
    rw [(h.entry t').2.1] at ht'
    rw [(h.entry t).1, (h.entry t').1] at heq
    exact hs.unique t t' ht ht' heq
  · intro t ht
    change (s'.itable t).inum < _
    change 0 < (s'.itable t).ref at ht
    rw [(h.entry t).2.1] at ht
    rw [(h.entry t).1]
    exact hs.inum_lt t ht

end Ahead

end

end Xv6.Fs
