import Xv6.Fs.Session
import Xv6.Fs.Path

/-! # An empty file system

The image with nothing but a root directory, and the state in which one process runs in it.
-/
namespace Xv6.Disk.Block

/-- The block with the given bits. -/
def ofBits (f : ℕ → Bool) : Block :=
  fun i => UInt8.ofNat (Nat.ofBits fun j : Fin 8 => f (8 * i.val + j.val))

theorem bit_ofBits (f : ℕ → Bool) {bi : ℕ} (h : bi < BSIZE * 8) : (ofBits f).bit bi = f bi := by
  have hi : bi / 8 < BSIZE := by omega
  have hlt : Nat.ofBits (fun j : Fin 8 => f (8 * (bi / 8) + j.val)) < 256 := Nat.ofBits_lt_two_pow _
  have hbyte : (ofBits f).byte (bi / 8) =
      UInt8.ofNat (Nat.ofBits fun j : Fin 8 => f (8 * (bi / 8) + j.val)) := dif_pos hi
  have hbit : bi % 8 < 8 := Nat.mod_lt _ (by omega)
  rw [bit_eq_testBit, hbyte, UInt8.toNat_ofNat', Nat.mod_eq_of_lt hlt,
    Nat.testBit_ofBits_lt _ _ hbit]
  dsimp only
  rw [Nat.div_add_mod]

end Xv6.Disk.Block

namespace Xv6.Fs
open Disk Library

section
variable [sb : Superblock]

/-- The root directory has one block, the first of the data area. -/
def rootDinode : Dinode where
  type := T_DIR
  major := 0
  minor := 0
  nlink := 1
  size := 2 * DIRENT
  addrs j := if j.val = 0 then sb.datastart else 0

def rootEntries : List UInt8 :=
  Dirent.toBytes ⟨ROOTINO, strncpy DIRSIZ DOT⟩ ++ Dirent.toBytes ⟨ROOTINO, strncpy DIRSIZ DOTDOT⟩

def formatDisk (b : ℕ) : Block :=
  if b = IBLOCK ROOTINO then Dinode.write Block.zero (ROOTINO % IPB) rootDinode
  else if sb.bmapstart ≤ b ∧ b < sb.datastart then
    Block.ofBits fun bi => (b - sb.bmapstart) * BPB + bi ≤ sb.datastart
  else if b = sb.datastart then fun i => rootEntries.getD i.val 0
  else Block.zero

def rootId : InodeId := ⟨0, by decide⟩

/-- The first process, with the root as its current directory. -/
def format : State where
  disk := formatDisk
  outstanding := 0
  lh := []
  commits := []
  itable t := if t.val = 0 then ⟨ROOTINO, 1, true, rootDinode⟩ else ⟨0, 0, false, Dinode.zero⟩
  ftable _ := ⟨.none, 0, false, false, rootId, 0, 0⟩
  proc p := if p.val = 0 then some ⟨fun _ => none, rootId⟩ else none

omit sb in
theorem read_zero (k : ℕ) : Dinode.read Block.zero k = Dinode.zero := by
  unfold Dinode.read Dinode.zero
  have hshort (k : ℕ) : Block.zero.ushort k = 0 := by
    unfold Block.ushort
    simp
  simp only [hshort, Block.uint_zero]
  rfl

theorem rootDinode_fits (h : sb.datastart < sb.size) : rootDinode.Fits := by
  have := sb.size_le
  refine ⟨by norm_num [rootDinode, DIRENT], fun j => ?_⟩
  unfold rootDinode
  dsimp only
  split <;> omega

theorem format_dinode (h : sb.datastart < sb.size) {i : ℕ} (hi : i < sb.ninodes) :
    (format.dinode i) = if i = ROOTINO then rootDinode else Dinode.zero := by
  have hIPB : i % IPB < IPB := Nat.mod_lt _ (by decide)
  unfold State.dinode
  change Dinode.read (formatDisk (IBLOCK i)) _ = _
  unfold formatDisk
  by_cases hb : IBLOCK i = IBLOCK ROOTINO
  · rw [if_pos hb]
    by_cases hroot : i = ROOTINO
    · rw [if_pos hroot, hroot]
      exact Dinode.read_write_self _ (by decide) (rootDinode_fits h)
    · rw [if_neg hroot, Dinode.read_write_of_ne _ hIPB, read_zero]
      intro hmod
      apply hroot
      have hdiv : i / IPB = ROOTINO / IPB := Nat.add_right_cancel hb
      rw [← Nat.div_add_mod i IPB, ← Nat.div_add_mod ROOTINO IPB, hdiv, hmod]
  · have hlt := IBLOCK_lt hi
    have hroot : i ≠ ROOTINO := fun he => hb (by rw [he])
    have hdata : sb.bmapstart ≤ sb.datastart :=
      (bmapstart_le_BBLOCK _).trans (BBLOCK_lt h).le
    rw [if_neg hb, if_neg (by omega), if_neg (by omega), if_neg hroot, read_zero]

theorem format_used {b : ℕ} (hb : b < sb.size) :
    used format.disk b ↔ b ≤ sb.datastart := by
  have hlo := bmapstart_le_BBLOCK b
  have hhi := BBLOCK_lt hb
  have hne : BBLOCK b ≠ IBLOCK ROOTINO := (IBLOCK_ne_BBLOCK sb.root_lt b).symm
  have hsub : (BBLOCK b - sb.bmapstart) * BPB + b % BPB = b := by
    unfold BBLOCK
    rw [Nat.add_sub_cancel, Nat.mul_comm, Nat.div_add_mod]
  have hlt : b % BPB < BSIZE * 8 := Nat.mod_lt _ (by decide)
  unfold used
  change (formatDisk _).bit _ = true ↔ _
  unfold formatDisk
  rw [if_neg hne, if_pos ⟨hlo, hhi⟩, Block.bit_ofBits _ hlt, hsub, decide_eq_true_eq]

theorem rootDinode_addr (disk : ℕ → Block) (k : ℕ) :
    addr disk rootDinode k = if k = 0 then sb.datastart else 0 := by
  unfold addr
  by_cases hk : k < NDIRECT + 1
  · rw [dif_pos hk]
    rfl
  · have hind : rootDinode.addrs INDIRECT = 0 := rfl
    rw [dif_neg hk, if_pos hind, if_neg (by omega)]

theorem format_slotRef (h : sb.datastart < sb.size) {a : ℕ × ℕ} {b : ℕ} :
    slotRef format.disk format.dinode a = some b ↔ a = (ROOTINO, 0) ∧ b = sb.datastart := by
  have hne : sb.datastart ≠ 0 := by
    have : 0 < sb.datastart := datastart_pos
    omega
  rw [slotRef_eq_some]
  constructor
  · rintro ⟨ha, hk, rfl, hb⟩
    obtain ⟨i, k⟩ := a
    have hd := format_dinode h ha.1
    have hroot : i = ROOTINO := by
      by_contra hroot
      have := ha.2
      rw [hd, if_neg hroot] at this
      exact this rfl
    subst hroot
    rw [if_pos rfl] at hd
    dsimp only at hb ⊢
    rw [hd, rootDinode_addr] at hb ⊢
    by_cases hk0 : k = 0
    · rw [if_pos hk0, hk0]
      exact ⟨rfl, rfl⟩
    · rw [if_neg hk0] at hb
      exact absurd rfl hb
  · rintro ⟨rfl, rfl⟩
    have hd := format_dinode h sb.root_lt
    rw [if_pos rfl] at hd
    refine ⟨⟨sb.root_lt, ?_⟩, by decide, ?_, hne⟩
    · rw [hd]
      exact (by decide : T_DIR ≠ 0)
    · rw [hd, rootDinode_addr, if_pos rfl]

theorem format_files (h : sb.datastart < sb.size) : Files format.disk format.dinode ∅ where
  reserved b hb := (format_used (by omega)).mpr hb.le
  exact := by
    refine ⟨fun b hb => ?_, fun a b hr => ?_, fun a a' b hr hr' => ?_, fun b hb => ?_,
      fun b hb => ?_⟩
    · rw [format_used hb.2]
      constructor
      · intro hle
        refine Or.inl ⟨(ROOTINO, 0), (format_slotRef h).mpr ⟨rfl, ?_⟩⟩
        have := hb.1
        omega
      · rintro (⟨a, ha⟩ | hs)
        · exact ((format_slotRef h).mp ha).2.le
        · cases hs
    · obtain ⟨-, rfl⟩ := (format_slotRef h).mp hr
      exact ⟨le_refl _, h⟩
    · rw [((format_slotRef h).mp hr).1, ((format_slotRef h).mp hr').1]
    · cases hb
    · cases hb
  full i ha n hn := by
    have hd := format_dinode h ha.1
    have hroot : i = ROOTINO := by
      by_contra hroot
      have := ha.2
      rw [hd, if_neg hroot] at this
      exact this rfl
    rw [if_pos hroot] at hd
    rw [hd] at hn ⊢
    have hn0 : n = 0 := by
      unfold rootDinode DIRENT BSIZE at hn
      dsimp only at hn
      omega
    have : 0 < sb.datastart := datastart_pos
    have hslot : slotOf 0 = 0 := rfl
    rw [hn0, rootDinode_addr, if_pos hslot]
    omega
  size_le i ha := by
    rw [format_dinode h ha.1]
    split
    · exact (by decide : 2 * DIRENT ≤ MAXFILE * BSIZE)
    · exact Nat.zero_le _

theorem format_root_data (h : sb.datastart < sb.size) :
    bytesAt format.disk rootDinode 0 (2 * DIRENT) = rootEntries := by
  have hpos : sb.datastart ≠ 0 := Nat.ne_of_gt datastart_pos
  have hroot := IBLOCK_lt sb.root_lt
  have hdata : sb.bmapstart ≤ sb.datastart := (bmapstart_le_BBLOCK _).trans (BBLOCK_lt h).le
  have hblock : format.disk sb.datastart = fun i => rootEntries.getD i.val 0 := by
    change formatDisk sb.datastart = _
    unfold formatDisk
    rw [if_neg (by omega), if_neg (by omega), if_pos rfl]
  have hlen : rootEntries.length = 2 * DIRENT := rfl
  unfold bytesAt
  apply List.ext_getElem
  · rw [List.length_map, List.length_range, hlen]
  · intro j hj hj'
    rw [List.length_map, List.length_range] at hj
    have hsmall : j < BSIZE := hj.trans (by decide)
    have hbyte : (format.disk sb.datastart).byte j = rootEntries.getD j 0 := by
      rw [hblock]
      exact dif_pos hsmall
    rw [List.getElem_map, List.getElem_range, Nat.zero_add]
    unfold content
    have hslot : slotOf 0 = 0 := rfl
    rw [Nat.div_eq_of_lt hsmall, Nat.mod_eq_of_lt hsmall, hslot, rootDinode_addr, if_pos rfl,
      if_neg hpos, hbyte, List.getD_eq_getElem _ _ hj']

theorem format_file (h : sb.datastart < sb.size) (i : ℕ) :
    format.file i = if i = ROOTINO then some ⟨T_DIR, 0, 0, 1, rootEntries⟩ else none := by
  unfold State.file
  by_cases hi : i < sb.ninodes
  · rw [if_pos hi, format_dinode h hi]
    by_cases hroot : i = ROOTINO
    · rw [if_pos hroot, if_pos hroot, ← format_root_data h]
      rfl
    · rw [if_neg hroot, if_neg hroot]
      rfl
  · have hroot : i ≠ ROOTINO := by
      rintro rfl
      exact hi sb.root_lt
    rw [if_neg hi, if_neg hroot]

theorem format_clean (h : sb.datastart < sb.size) : Clean format := by
  have hzero (t : InodeId) (ht : 0 < (format.itable t).ref) : t.val = 0 := by
    by_contra hne
    unfold format at ht
    dsimp only at ht
    rw [if_neg hne] at ht
    exact absurd ht (lt_irrefl 0)
  have hroot : format.itable rootId = ⟨ROOTINO, 1, true, rootDinode⟩ := rfl
  have hcase (t : InodeId) (ht : 0 < (format.itable t).ref) : t = rootId := Fin.ext (hzero t ht)
  refine ⟨format_files h, fun t ht => ?_, fun t t' ht ht' _ => ?_, fun t ht => ?_⟩
  · rw [hcase t ht.ref, hroot, format_dinode h sb.root_lt, if_pos rfl]
    exact ⟨rfl, (by decide : T_DIR ≠ 0)⟩
  · rw [hcase t ht, hcase t' ht']
  · rw [hcase t ht, hroot]
    exact sb.root_lt

theorem format_users (t : InodeId) : format.users t = if t = rootId then 1 else 0 := by
  have hfiles : (Finset.univ.filter fun f => (format.ftable f).uses t) = ∅ := by
    apply Finset.filter_false_of_mem
    intro f _
    exact Bool.false_ne_true
  have hcwd (p : ProcId) : cwdIs (format.proc p) t = (p.val == 0 && t == rootId) := by
    unfold format cwdIs
    dsimp only
    by_cases hp : p.val = 0
    · simp [hp, eq_comm]
    · simp [hp]
  unfold State.users users
  rw [hfiles, Finset.card_empty, Nat.zero_add]
  simp only [hcwd]
  by_cases ht : t = rootId
  · have hone : (Finset.univ.filter fun p : ProcId => (p.val == 0 && t == rootId) = true) =
        {⟨0, by decide⟩} := by
      ext p
      simp [ht, Fin.ext_iff]
    rw [hone, Finset.card_singleton, if_pos ht]
  · rw [if_neg ht, Finset.filter_false_of_mem, Finset.card_empty]
    intro p _
    simp [ht]

theorem format_sess (h : sb.datastart < sb.size) : Sess 0 format := by
  refine ⟨format_clean h, fun t => ?_⟩
  rw [format_users, Multiset.count_zero]
  change (if t.val = 0 then (⟨ROOTINO, 1, true, rootDinode⟩ : Inode) else _).ref = _
  by_cases ht : t = rootId
  · subst ht
    rfl
  · have : t.val ≠ 0 := fun he => ht (Fin.ext he)
    rw [if_neg this, if_neg ht]

end

/-- Eight blocks: the inodes are in block 2, the free map in block 3. -/
@[reducible] def tiny : Superblock where
  size := 8
  nblocks := 4
  ninodes := 16
  inodestart := 2
  bmapstart := 3
  inode_lt := by decide
  bmap_lt := by decide
  size_le := by decide
  root_lt := by decide
  ninodes_le := by decide

/-- The empty file system in a transaction. -/
def tinyRoot : State := (@format tiny).begun

theorem tinyRoot_clean : @Clean tiny tinyRoot :=
  @Clean.congr tiny _ _ (@format_clean tiny (by decide)) rfl rfl

theorem tinyRoot_loaded : Loaded tinyRoot rootId := ⟨by decide, rfl⟩

end Xv6.Fs
