import Xv6.Fs.Inode
import Xv6.Library.Allocation
import Xv6.Library.Wp

/-! # Which blocks are in use

The free map marks the blocks before the data area and every block that some slot of an
allocated inode refers to: a direct address, the indirect block, or an entry of it.  No block
has two slots.  `spare` are blocks between `balloc` and their slot, or between their slot and
`bfree`.
-/
namespace Xv6.Fs
open Disk Library Library.Allocation

section
variable [sb : Superblock] {disk disk' : ℕ → Block} {ino ino' : ℕ → Dinode} {spare : Set ℕ}
  {d d' : Dinode} {i k b x : ℕ}

/-! ## Regions of the disk -/

theorem datastart_pos : 0 < sb.datastart := by
  have h := sb.bmap_lt
  exact Nat.zero_lt_of_lt h

theorem IBLOCK_lt (hi : i < sb.ninodes) : IBLOCK i < sb.bmapstart := by
  have hle : i / IPB ≤ (sb.ninodes - 1) / IPB := Nat.div_le_div_right (by omega)
  have := sb.inode_lt
  unfold IBLOCK
  omega

theorem bmapstart_le_BBLOCK (b : ℕ) : sb.bmapstart ≤ BBLOCK b := Nat.le_add_left _ _

theorem BBLOCK_lt (hb : b < sb.size) : BBLOCK b < sb.datastart := by
  have hle : b / BPB ≤ (sb.size - 1) / BPB := Nat.div_le_div_right (by omega)
  have := sb.bmap_lt
  unfold BBLOCK Superblock.datastart
  omega

/-- A block of the data area. -/
def Data (b : ℕ) : Prop := sb.datastart ≤ b ∧ b < sb.size

theorem Data.ne_zero (h : Data b) : b ≠ 0 := by
  have hpos : 0 < sb.datastart := datastart_pos
  have := h.1
  omega

theorem Data.ne_BBLOCK (h : Data b) (hx : x < sb.size) : BBLOCK x ≠ b := by
  have := BBLOCK_lt hx
  have := h.1
  omega

theorem Data.ne_IBLOCK (h : Data b) (hi : i < sb.ninodes) : IBLOCK i ≠ b := by
  have h1 := IBLOCK_lt hi
  have h2 := BBLOCK_lt h.2
  have h3 := bmapstart_le_BBLOCK b
  have h4 := h.1
  omega

theorem IBLOCK_ne_BBLOCK (hi : i < sb.ninodes) (b : ℕ) : IBLOCK i ≠ BBLOCK b := by
  have h1 := IBLOCK_lt hi
  have h2 := bmapstart_le_BBLOCK b
  omega

/-! ## The free map -/

/-- The free map marks block `b`. -/
def used (disk : ℕ → Block) (b : ℕ) : Prop := (disk (BBLOCK b)).bit (b % BPB) = true

def takeBlock (disk : ℕ → Block) (b : ℕ) : ℕ → Block :=
  Function.update (Function.update disk (BBLOCK b) ((disk (BBLOCK b)).setBit (b % BPB))) b
    Block.zero

def dropBlock (disk : ℕ → Block) (b : ℕ) : ℕ → Block :=
  Function.update disk (BBLOCK b) ((disk (BBLOCK b)).clearBit (b % BPB))

theorem used_congr (h : disk' (BBLOCK b) = disk (BBLOCK b)) : used disk' b ↔ used disk b := by
  unfold used
  rw [h]

theorem BBLOCK_eq_iff (h : BBLOCK x = BBLOCK b) : x % BPB = b % BPB ↔ x = b := by
  have hdiv : x / BPB = b / BPB := Nat.add_right_cancel h
  constructor
  · intro hmod
    rw [← Nat.div_add_mod x BPB, ← Nat.div_add_mod b BPB, hdiv, hmod]
  · rintro rfl
    rfl

theorem used_takeBlock (hb : Data b) (hx : x < sb.size) :
    used (takeBlock disk b) x ↔ used disk x ∨ x = b := by
  have hlt : x % BPB < BSIZE * 8 := Nat.mod_lt _ (by decide)
  unfold used takeBlock
  rw [Function.update_of_ne (hb.ne_BBLOCK hx)]
  by_cases h : BBLOCK x = BBLOCK b
  · rw [h, Function.update_self, Block.bit_setBit hlt, Bool.or_eq_true, beq_iff_eq,
      BBLOCK_eq_iff h]
  · have hne : x ≠ b := fun he => h (by rw [he])
    rw [Function.update_of_ne h]
    simp [hne]

theorem used_dropBlock (x : ℕ) : used (dropBlock disk b) x ↔ used disk x ∧ x ≠ b := by
  have hlt : x % BPB < BSIZE * 8 := Nat.mod_lt _ (by decide)
  unfold used dropBlock
  by_cases h : BBLOCK x = BBLOCK b
  · rw [h, Function.update_self, Block.bit_clearBit hlt, Bool.and_eq_true, bne_iff_ne, Ne,
      BBLOCK_eq_iff h]
  · have hne : x ≠ b := fun he => h (by rw [he])
    rw [Function.update_of_ne h]
    simp [hne]

theorem takeBlock_self : takeBlock disk b b = Block.zero := Function.update_self ..

theorem takeBlock_data (hb : Data b) (hx : Data x) (hne : x ≠ b) : takeBlock disk b x = disk x := by
  unfold takeBlock
  rw [Function.update_of_ne hne, Function.update_of_ne (hx.ne_BBLOCK hb.2).symm]

theorem takeBlock_IBLOCK (hb : Data b) (hi : i < sb.ninodes) :
    takeBlock disk b (IBLOCK i) = disk (IBLOCK i) := by
  unfold takeBlock
  rw [Function.update_of_ne (hb.ne_IBLOCK hi), Function.update_of_ne (IBLOCK_ne_BBLOCK hi b)]

theorem dropBlock_data (hb : b < sb.size) (hx : Data x) : dropBlock disk b x = disk x := by
  unfold dropBlock
  rw [Function.update_of_ne (hx.ne_BBLOCK hb).symm]

/-! ## The slots of an inode -/

/-- The addresses that an inode holds: direct ones, the indirect block and its entries. -/
def NSLOT : ℕ := NDIRECT + 1 + NINDIRECT

/-- The address in slot `k`, 0 if there is none. -/
def addr (disk : ℕ → Block) (d : Dinode) (k : ℕ) : ℕ :=
  if h : k < NDIRECT + 1 then d.addrs ⟨k, h⟩
  else if d.addrs INDIRECT = 0 then 0
  else (disk (d.addrs INDIRECT)).uint (k - (NDIRECT + 1))

/-- The slot with the address of block `n` of the file. -/
def slotOf (n : ℕ) : ℕ := if n < NDIRECT then n else n + 1

omit sb in
theorem indirect_lt : NDIRECT < NSLOT := by decide

omit sb in
theorem addr_fin (disk : ℕ → Block) (d : Dinode) (j : Fin (NDIRECT + 1)) :
    addr disk d j = d.addrs j := by
  unfold addr
  rw [dif_pos j.isLt]

omit sb in
theorem addr_indirect (disk : ℕ → Block) (d : Dinode) : addr disk d NDIRECT = d.addrs INDIRECT :=
  addr_fin disk d INDIRECT

omit sb in
theorem addr_entry (disk : ℕ → Block) (d : Dinode) (e : ℕ) : addr disk d (NDIRECT + 1 + e) =
    if d.addrs INDIRECT = 0 then 0 else (disk (d.addrs INDIRECT)).uint e := by
  unfold addr
  rw [dif_neg (by omega), Nat.add_sub_cancel_left]

omit sb in
theorem addr_of_ge (disk : ℕ → Block) (d : Dinode) (hk : NSLOT ≤ k) : addr disk d k = 0 := by
  have hB : BSIZE = 1024 := rfl
  unfold NSLOT NINDIRECT at hk
  have hbyte (b : Block) (i : ℕ) : b.byte (4 * (k - (NDIRECT + 1)) + i) = 0 := by
    unfold Block.byte
    rw [dif_neg]
    omega
  have huint (b : Block) : b.uint (k - (NDIRECT + 1)) = 0 := by
    unfold Block.uint
    rw [hbyte b 1, hbyte b 2, hbyte b 3]
    have h0 := hbyte b 0
    rw [Nat.add_zero] at h0
    rw [h0]
    rfl
  unfold addr
  rw [dif_neg (by omega), huint, ite_self]

omit sb in
theorem slot_lt (h : addr disk d k ≠ 0) : k < NSLOT := by
  by_contra hge
  exact h (addr_of_ge disk d (by omega))

omit sb in
theorem addr_congr (haddrs : d'.addrs = d.addrs)
    (h : d.addrs INDIRECT ≠ 0 → disk' (d.addrs INDIRECT) = disk (d.addrs INDIRECT)) (k : ℕ) :
    addr disk' d' k = addr disk d k := by
  unfold addr
  rw [haddrs]
  by_cases hz : d.addrs INDIRECT = 0
  · simp only [hz, if_true]
  · simp only [hz, if_false, h hz]

omit sb in
theorem slotOf_lt {n : ℕ} (h : n < MAXFILE) : slotOf n < NSLOT := by
  unfold slotOf NSLOT
  unfold MAXFILE at h
  split <;> omega

omit sb in
theorem slotOf_ne_indirect (n : ℕ) : slotOf n ≠ NDIRECT := by
  unfold slotOf
  split <;> omega

omit sb in
theorem slotOf_inj {n m : ℕ} (h : slotOf n = slotOf m) : n = m := by
  unfold slotOf at h
  split at h <;> split at h <;> omega

def Alloc (ino : ℕ → Dinode) (i : ℕ) : Prop := i < sb.ninodes ∧ (ino i).type ≠ 0

instance (ino : ℕ → Dinode) (i : ℕ) : Decidable (Alloc ino i) :=
  inferInstanceAs (Decidable (_ ∧ _))

/-- The block that slot `a.2` of inode `a.1` refers to. -/
def slotRef (disk : ℕ → Block) (ino : ℕ → Dinode) (a : ℕ × ℕ) : Option ℕ :=
  if Alloc ino a.1 ∧ a.2 < NSLOT ∧ addr disk (ino a.1) a.2 ≠ 0 then some (addr disk (ino a.1) a.2)
  else none

theorem slotRef_eq_some {a : ℕ × ℕ} : slotRef disk ino a = some b ↔
    Alloc ino a.1 ∧ a.2 < NSLOT ∧ addr disk (ino a.1) a.2 = b ∧ b ≠ 0 := by
  unfold slotRef
  constructor
  · intro h
    split at h
    · next hc =>
      obtain rfl := Option.some.inj h
      exact ⟨hc.1, hc.2.1, rfl, hc.2.2⟩
    · cases h
  · rintro ⟨ha, hk, rfl, hne⟩
    rw [if_pos ⟨ha, hk, hne⟩]

theorem slotRef_congr {a : ℕ × ℕ} (halloc : Alloc ino' a.1 ↔ Alloc ino a.1)
    (haddr : Alloc ino a.1 → a.2 < NSLOT → addr disk' (ino' a.1) a.2 = addr disk (ino a.1) a.2) :
    slotRef disk' ino' a = slotRef disk ino a := by
  apply Option.ext
  intro b
  rw [slotRef_eq_some, slotRef_eq_some, halloc]
  constructor
  · rintro ⟨ha, hk, heq, hne⟩
    exact ⟨ha, hk, by rw [← haddr ha hk, heq], hne⟩
  · rintro ⟨ha, hk, heq, hne⟩
    exact ⟨ha, hk, by rw [haddr ha hk, heq], hne⟩

theorem slotRef_update_of_ne {a : ℕ × ℕ} (hne : a.1 ≠ i) :
    slotRef disk (Function.update ino i d') a = slotRef disk ino a := by
  have heq : Function.update ino i d' a.1 = ino a.1 := Function.update_of_ne hne ..
  apply slotRef_congr
  · unfold Alloc
    rw [heq]
  · intro _ _
    rw [heq]

omit sb in
theorem addr_none (h : ∀ j, d.addrs j = 0) (k : ℕ) : addr disk d k = 0 := by
  unfold addr
  split
  · exact h _
  · rw [if_pos (h INDIRECT)]

theorem slotRef_none (h : Alloc ino i → ∀ j, (ino i).addrs j = 0) (k : ℕ) :
    slotRef disk ino (i, k) = none := by
  unfold slotRef
  rw [if_neg]
  rintro ⟨ha, -, hne⟩
  exact hne (addr_none (h ha) k)

/-! ## Changes of the addresses -/

omit sb in
theorem addr_setAddr_of_ne {j : Fin (NDIRECT + 1)} (hj : d.addrs j = 0)
    (hz : j = INDIRECT → disk b = Block.zero) (hk : k ≠ j) :
    addr disk { d with addrs := Function.update d.addrs j b } k = addr disk d k := by
  unfold addr
  dsimp only
  split
  · next hlt =>
    have hne : (⟨k, hlt⟩ : Fin (NDIRECT + 1)) ≠ j := fun he => hk (congrArg Fin.val he)
    rw [Function.update_of_ne hne]
  · by_cases hind : j = INDIRECT
    · subst hind
      simp only [Function.update_self, hj, if_true, hz rfl, Block.uint_zero, ite_self]
    · simp only [Function.update_of_ne (Ne.symm hind)]

omit sb in
theorem addr_setAddr_self (j : Fin (NDIRECT + 1)) :
    addr disk { d with addrs := Function.update d.addrs j b } j = b := by
  rw [addr_fin]
  exact Function.update_self ..

/-- The disk after entry `e` of the indirect block `ind` is set to `b`. -/
def setEntry (disk : ℕ → Block) (ind e b : ℕ) : ℕ → Block :=
  Function.update disk ind ((disk ind).setUint e b)

omit sb in
theorem addr_setEntry_of_ne (disk : ℕ → Block) {e : ℕ} (hk : k < NSLOT)
    (hne : k ≠ NDIRECT + 1 + e) :
    addr (setEntry disk (d.addrs INDIRECT) e b) d k = addr disk d k := by
  unfold addr setEntry
  split
  · rfl
  · next hlt =>
    have h4 : 4 * (k - (NDIRECT + 1)) + 3 < BSIZE := by
      unfold NSLOT NINDIRECT at hk
      omega
    rw [Function.update_self, Block.uint_setUint_of_ne _ _ h4 (by omega)]

omit sb in
theorem addr_setEntry_self (disk : ℕ → Block) {e : ℕ} (he : e < NINDIRECT) (hb : b < 2 ^ 32)
    (hne : d.addrs INDIRECT ≠ 0) :
    addr (setEntry disk (d.addrs INDIRECT) e b) d (NDIRECT + 1 + e) = b := by
  have h4 : 4 * e + 3 < BSIZE := by
    unfold NINDIRECT at he
    omega
  rw [addr_entry, if_neg hne, setEntry, Function.update_self, Block.uint_setUint_self _ _ _ h4 hb]

def blocks (disk : ℕ → Block) (d : Dinode) : Set ℕ := {b | b ≠ 0 ∧ ∃ k < NSLOT, addr disk d k = b}

/-! ## Exactness -/

/-- The files on disk, when the inodes are `ino`. -/
structure Files (disk : ℕ → Block) (ino : ℕ → Dinode) (spare : Set ℕ) : Prop where
  reserved : ∀ b < sb.datastart, used disk b
  exact : Exact Data (used disk) (slotRef disk ino) spare
  full : ∀ i, Alloc ino i → ∀ n, n * BSIZE < (ino i).size → addr disk (ino i) (slotOf n) ≠ 0
  size_le : ∀ i, Alloc ino i → (ino i).size ≤ MAXFILE * BSIZE

namespace Files

theorem slot_data (h : Files disk ino spare) (ha : Alloc ino i) (hk : k < NSLOT)
    (hne : addr disk (ino i) k ≠ 0) : Data (addr disk (ino i) k) :=
  h.exact.valid_of_ref (i, k) _ (slotRef_eq_some.mpr ⟨ha, hk, rfl, hne⟩)

theorem slot_used (h : Files disk ino spare) (ha : Alloc ino i) (hk : k < NSLOT)
    (hne : addr disk (ino i) k ≠ 0) : used disk (addr disk (ino i) k) :=
  h.exact.used_of_ref (a := (i, k)) (slotRef_eq_some.mpr ⟨ha, hk, rfl, hne⟩)

theorem slot_inj {i' k' : ℕ} (h : Files disk ino spare) (ha : Alloc ino i) (hk : k < NSLOT)
    (hne : addr disk (ino i) k ≠ 0) (ha' : Alloc ino i') (hk' : k' < NSLOT)
    (heq : addr disk (ino i') k' = addr disk (ino i) k) : i' = i ∧ k' = k := by
  have := h.exact.inj (i', k') (i, k) _ (slotRef_eq_some.mpr ⟨ha', hk', heq, hne⟩)
    (slotRef_eq_some.mpr ⟨ha, hk, rfl, hne⟩)
  exact ⟨congrArg Prod.fst this, congrArg Prod.snd this⟩

theorem indirect_ne {i' : ℕ} (h : Files disk ino spare) (ha : Alloc ino i)
    (hne : (ino i).addrs INDIRECT ≠ 0) (ha' : Alloc ino i') (hk : k < NSLOT)
    (hik : i' ≠ i ∨ k ≠ NDIRECT) : addr disk (ino i') k ≠ (ino i).addrs INDIRECT := by
  intro heq
  rw [← addr_indirect disk] at hne heq
  obtain ⟨h1, h2⟩ := h.slot_inj ha indirect_lt hne ha' hk heq
  rcases hik with hi | hk
  · exact hi h1
  · exact hk h2

theorem indirect_data (h : Files disk ino spare) (ha : Alloc ino i)
    (hne : (ino i).addrs INDIRECT ≠ 0) : Data ((ino i).addrs INDIRECT) := by
  rw [← addr_indirect disk] at hne ⊢
  exact h.slot_data ha indirect_lt hne

theorem indirect_ne_free (h : Files disk ino spare) (ha : Alloc ino i) (hd : Data b)
    (hb : ¬ used disk b) : (ino i).addrs INDIRECT ≠ b := by
  rintro rfl
  refine h.exact.unref hb (i, NDIRECT) (slotRef_eq_some.mpr ⟨ha, indirect_lt, ?_, hd.ne_zero⟩)
  exact addr_indirect disk _

/-- The disk has changed, but neither the free map nor an address. -/
theorem congr (h : Files disk ino spare) (hu : ∀ b < sb.size, (used disk' b ↔ used disk b))
    (ha : ∀ i, Alloc ino i → ∀ k < NSLOT, addr disk' (ino i) k = addr disk (ino i) k) :
    Files disk' ino spare where
  reserved b hb := by
    have hlt : b < sb.size := by
      unfold Superblock.datastart at hb
      omega
    exact (hu b hlt).mpr (h.reserved b hb)
  exact := by
    have href : slotRef disk' ino = slotRef disk ino := by
      funext a
      exact slotRef_congr Iff.rfl fun halloc hk => ha a.1 halloc a.2 hk
    rw [href]
    exact h.exact.congr fun b hb => hu b hb.2
  full i hi n hn := by
    have hlt : n < MAXFILE := by
      have := h.size_le i hi
      exact lt_of_mul_lt_mul_right (hn.trans_le this) (Nat.zero_le _)
    rw [ha i hi _ (slotOf_lt hlt)]
    exact h.full i hi n hn
  size_le := h.size_le

/-- A write to a block that is neither in the free map nor an indirect block. -/
theorem write (h : Files disk ino spare) (data : Block) (hmap : ∀ x < sb.size, BBLOCK x ≠ b)
    (hind : ∀ i, Alloc ino i → (ino i).addrs INDIRECT ≠ 0 → (ino i).addrs INDIRECT ≠ b) :
    Files (Function.update disk b data) ino spare := by
  apply h.congr
  · intro x hx
    exact used_congr (Function.update_of_ne (hmap x hx) ..)
  · intro i hi k _
    apply addr_congr rfl
    intro hne
    exact Function.update_of_ne (hind i hi hne) ..

/-- The inodes have changed, but no slot. -/
theorem setIno (h : Files disk ino spare)
    (href : ∀ a, slotRef disk ino' a = slotRef disk ino a)
    (hfull : ∀ i, Alloc ino' i → ∀ n, n * BSIZE < (ino' i).size → addr disk (ino' i) (slotOf n) ≠ 0)
    (hsize : ∀ i, Alloc ino' i → (ino' i).size ≤ MAXFILE * BSIZE) : Files disk ino' spare where
  reserved := h.reserved
  exact := by
    rw [funext href]
    exact h.exact
  full := hfull
  size_le := hsize

theorem take (h : Files disk ino spare) (hd : Data b) (hb : ¬ used disk b) :
    Files (takeBlock disk b) ino (insert b spare) := by
  have haddr (i : ℕ) (hi : Alloc ino i) (k : ℕ) :
      addr (takeBlock disk b) (ino i) k = addr disk (ino i) k := by
    apply addr_congr rfl
    intro hne
    exact takeBlock_data hd (h.indirect_data hi hne) (h.indirect_ne_free hi hd hb)
  refine ⟨fun x hx => ?_, ?_, ?_, h.size_le⟩
  · have hlt : x < sb.size := by
      unfold Superblock.datastart at hx
      omega
    exact (used_takeBlock hd hlt).mpr (Or.inl (h.reserved x hx))
  · have href : slotRef (takeBlock disk b) ino = slotRef disk ino := by
      funext a
      exact slotRef_congr Iff.rfl fun halloc _ => haddr a.1 halloc a.2
    rw [href]
    exact h.exact.take hd hb fun c hc => used_takeBlock hd hc.2
  · intro i hi n hn
    rw [haddr i hi]
    exact h.full i hi n hn

theorem drop (h : Files disk ino spare) (hb : b ∈ spare) :
    Files (dropBlock disk b) ino (spare \ {b}) := by
  have hd := h.exact.valid_of_spare b hb
  have haddr (i : ℕ) (hi : Alloc ino i) (k : ℕ) :
      addr (dropBlock disk b) (ino i) k = addr disk (ino i) k := by
    apply addr_congr rfl
    intro hne
    exact dropBlock_data hd.2 (h.indirect_data hi hne)
  refine ⟨fun x hx => ?_, ?_, ?_, h.size_le⟩
  · refine (used_dropBlock x).mpr ⟨h.reserved x hx, ?_⟩
    have := hd.1
    omega
  · have href : slotRef (dropBlock disk b) ino = slotRef disk ino := by
      funext a
      exact slotRef_congr Iff.rfl fun halloc _ => haddr a.1 halloc a.2
    rw [href]
    exact h.exact.release hb fun c _ => used_dropBlock c
  · intro i hi n hn
    rw [haddr i hi]
    exact h.full i hi n hn

theorem inoCongr (h : Files disk ino spare) (hino : ∀ i < sb.ninodes, ino' i = ino i) :
    Files disk ino' spare := by
  have halloc (i : ℕ) : Alloc ino' i ↔ Alloc ino i := by
    apply and_congr_right
    intro hi
    rw [hino i hi]
  apply h.setIno
  · intro a
    apply slotRef_congr (halloc a.1)
    intro ha _
    rw [hino a.1 ha.1]
  · intro i hi
    rw [hino i hi.1]
    exact h.full i ((halloc i).mp hi)
  · intro i hi
    rw [hino i hi.1]
    exact h.size_le i ((halloc i).mp hi)

theorem setOne (h : Files disk ino spare)
    (href : ∀ k, slotRef disk (Function.update ino i d') (i, k) = slotRef disk ino (i, k))
    (hfull : i < sb.ninodes → d'.type ≠ 0 →
      ∀ n, n * BSIZE < d'.size → addr disk d' (slotOf n) ≠ 0)
    (hsize : i < sb.ninodes → d'.type ≠ 0 → d'.size ≤ MAXFILE * BSIZE) :
    Files disk (Function.update ino i d') spare := by
  apply h.setIno
  · rintro ⟨i', k⟩
    by_cases hi : i' = i
    · rw [hi]
      exact href k
    · exact slotRef_update_of_ne hi
  · intro i' ha
    by_cases hi : i' = i
    · subst hi
      unfold Alloc at ha
      rw [Function.update_self] at ha ⊢
      exact hfull ha.1 ha.2
    · unfold Alloc at ha
      rw [Function.update_of_ne hi] at ha ⊢
      exact h.full i' ha
  · intro i' ha
    by_cases hi : i' = i
    · subst hi
      unfold Alloc at ha
      rw [Function.update_self] at ha ⊢
      exact hsize ha.1 ha.2
    · unfold Alloc at ha
      rw [Function.update_of_ne hi] at ha ⊢
      exact h.size_le i' ha

theorem setFields (h : Files disk ino spare) (ha : Alloc ino i) (ht : d'.type ≠ 0)
    (haddrs : d'.addrs = (ino i).addrs) (hsize : d'.size ≤ MAXFILE * BSIZE)
    (hfull : ∀ n, n * BSIZE < d'.size → addr disk d' (slotOf n) ≠ 0) :
    Files disk (Function.update ino i d') spare := by
  apply h.setOne
  · intro k
    apply slotRef_congr
    · unfold Alloc
      rw [Function.update_self]
      exact ⟨fun _ => ha, fun _ => ⟨ha.1, ht⟩⟩
    · intro _ _
      rw [Function.update_self]
      exact addr_congr haddrs (fun _ => rfl) k
  · intro _ _
    exact hfull
  · intro _ _
    exact hsize

/-- An inode without blocks is allocated or freed. -/
theorem setEmpty (h : Files disk ino spare) (hold : Alloc ino i → ∀ j, (ino i).addrs j = 0)
    (hnew : ∀ j, d'.addrs j = 0) (hsize : d'.size = 0) :
    Files disk (Function.update ino i d') spare := by
  apply h.setOne
  · intro k
    rw [slotRef_none hold, slotRef_none]
    intro _ j
    rw [Function.update_self]
    exact hnew j
  · intro _ _ n hn
    rw [hsize] at hn
    cases hn
  · intro _ _
    rw [hsize]
    exact Nat.zero_le _

theorem attach {j : Fin (NDIRECT + 1)} (h : Files disk ino spare) (ha : Alloc ino i)
    (hb : b ∈ spare) (hj : (ino i).addrs j = 0) (hz : j = INDIRECT → disk b = Block.zero) :
    Files disk (Function.update ino i
      { ino i with addrs := Function.update (ino i).addrs j b }) (spare \ {b}) := by
  have hb0 : b ≠ 0 := (h.exact.valid_of_spare b hb).ne_zero
  have halloc (i' : ℕ) : Alloc (Function.update ino i
      { ino i with addrs := Function.update (ino i).addrs j b }) i' ↔ Alloc ino i' := by
    unfold Alloc
    by_cases hi : i' = i
    · rw [hi, Function.update_self]
    · rw [Function.update_of_ne hi]
  have href : slotRef disk (Function.update ino i
      { ino i with addrs := Function.update (ino i).addrs j b }) =
      Function.update (slotRef disk ino) (i, j.val) (some b) := by
    funext ⟨i', k⟩
    by_cases hi : i' = i
    · subst hi
      by_cases hk : k = j
      · subst hk
        rw [Function.update_self, slotRef_eq_some, halloc]
        refine ⟨ha, ?_, ?_, hb0⟩
        · exact lt_of_lt_of_le j.isLt (by decide)
        · dsimp only
          rw [Function.update_self, addr_setAddr_self]
      · rw [Function.update_of_ne (fun he => hk (congrArg Prod.snd he))]
        apply slotRef_congr (halloc i')
        intro _ _
        dsimp only
        rw [Function.update_self, addr_setAddr_of_ne hj hz hk]
    · rw [Function.update_of_ne (fun he => hi (congrArg Prod.fst he)), slotRef_update_of_ne hi]
  refine ⟨h.reserved, ?_, ?_, ?_⟩
  · rw [href]
    apply h.exact.attach hb
    unfold slotRef
    rw [if_neg]
    rintro ⟨-, -, hne⟩
    exact hne ((addr_fin disk (ino i) j).trans hj)
  · intro i' hi' n hn
    rw [halloc] at hi'
    by_cases hi : i' = i
    · subst hi
      rw [Function.update_self] at hn ⊢
      by_cases hk : slotOf n = j
      · rw [hk, addr_setAddr_self]
        exact hb0
      · rw [addr_setAddr_of_ne hj hz hk]
        exact h.full i' hi' n hn
    · rw [Function.update_of_ne hi] at hn ⊢
      exact h.full i' hi' n hn
  · intro i' hi'
    rw [halloc] at hi'
    by_cases hi : i' = i
    · subst hi
      rw [Function.update_self]
      exact h.size_le i' hi'
    · rw [Function.update_of_ne hi]
      exact h.size_le i' hi'

theorem attachEntry {e : ℕ} (h : Files disk ino spare) (ha : Alloc ino i) (hb : b ∈ spare)
    (hne : (ino i).addrs INDIRECT ≠ 0) (he : e < NINDIRECT)
    (hz : (disk ((ino i).addrs INDIRECT)).uint e = 0) :
    Files (setEntry disk ((ino i).addrs INDIRECT) e b) ino (spare \ {b}) := by
  have hd := h.exact.valid_of_spare b hb
  have hind := h.indirect_data ha hne
  have hb32 : b < 2 ^ 32 := lt_of_lt_of_le hd.2 sb.size_le
  have hother (i' : ℕ) (hi' : Alloc ino i') (hi : i' ≠ i) (k : ℕ) :
      addr (setEntry disk ((ino i).addrs INDIRECT) e b) (ino i') k = addr disk (ino i') k := by
    apply addr_congr rfl
    intro _
    apply Function.update_of_ne
    rw [← addr_indirect disk]
    exact h.indirect_ne ha hne hi' indirect_lt (Or.inl hi)
  have hused (x : ℕ) (hx : x < sb.size) :
      used (setEntry disk ((ino i).addrs INDIRECT) e b) x ↔ used disk x :=
    used_congr (Function.update_of_ne (hind.ne_BBLOCK hx) ..)
  have hold : addr disk (ino i) (NDIRECT + 1 + e) = 0 := by rw [addr_entry, if_neg hne, hz]
  have href : slotRef (setEntry disk ((ino i).addrs INDIRECT) e b) ino =
      Function.update (slotRef disk ino) (i, NDIRECT + 1 + e) (some b) := by
    funext ⟨i', k⟩
    by_cases hi : i' = i
    · subst hi
      by_cases hk : k = NDIRECT + 1 + e
      · subst hk
        rw [Function.update_self, slotRef_eq_some]
        refine ⟨ha, ?_, addr_setEntry_self disk he hb32 hne, hd.ne_zero⟩
        unfold NSLOT
        dsimp only
        omega
      · rw [Function.update_of_ne (fun heq => hk (congrArg Prod.snd heq))]
        exact slotRef_congr Iff.rfl fun _ hlt => addr_setEntry_of_ne disk hlt hk
    · rw [Function.update_of_ne (fun heq => hi (congrArg Prod.fst heq))]
      exact slotRef_congr Iff.rfl fun halloc _ => hother i' halloc hi k
  refine ⟨?_, ?_, ?_, h.size_le⟩
  · intro x hx
    refine (hused x ?_).mpr (h.reserved x hx)
    unfold Superblock.datastart at hx
    omega
  · rw [href]
    refine (h.exact.attach hb ?_).congr fun x hx => hused x hx.2
    unfold slotRef
    rw [if_neg]
    rintro ⟨-, -, hne'⟩
    exact hne' hold
  · intro i' hi' n hn
    by_cases hi : i' = i
    · subst hi
      by_cases hk : slotOf n = NDIRECT + 1 + e
      · rw [hk, addr_setEntry_self disk he hb32 hne]
        exact hd.ne_zero
      · have hlt : n < MAXFILE :=
          lt_of_mul_lt_mul_right (hn.trans_le (h.size_le i' hi')) (Nat.zero_le _)
        rw [addr_setEntry_of_ne disk (slotOf_lt hlt) hk]
        exact h.full i' hi' n hn
    · rw [hother i' hi' hi]
      exact h.full i' hi' n hn

theorem truncate (d' : Dinode) (h : Files disk ino ∅) (ha : Alloc ino i) (hnew : ∀ j, d'.addrs j = 0)
    (hsize : d'.size = 0) : Files disk (Function.update ino i d') (blocks disk (ino i)) := by
  have hnone (k : ℕ) : slotRef disk (Function.update ino i d') (i, k) = none := by
    apply slotRef_none
    intro _ j
    rw [Function.update_self]
    exact hnew j
  have hcases (a : ℕ × ℕ) : slotRef disk (Function.update ino i d') a = slotRef disk ino a ∨
      slotRef disk (Function.update ino i d') a = none := by
    by_cases hi : a.1 = i
    · obtain ⟨i', k⟩ := a
      subst hi
      exact Or.inr (hnone k)
    · exact Or.inl (slotRef_update_of_ne hi)
  have hspare : (∅ ∪ {b | ∃ a, slotRef disk ino a = some b ∧
      slotRef disk (Function.update ino i d') a = none}) = blocks disk (ino i) := by
    ext b
    rw [Set.empty_union, Set.mem_ofPred_eq]
    constructor
    · rintro ⟨⟨i', k⟩, hsome, hno⟩
      by_cases hi : i' = i
      · subst hi
        obtain ⟨-, hk, heq, hb⟩ := slotRef_eq_some.mp hsome
        exact ⟨hb, k, hk, heq⟩
      · rw [slotRef_update_of_ne hi, hsome] at hno
        cases hno
    · rintro ⟨hb, k, hk, heq⟩
      exact ⟨(i, k), slotRef_eq_some.mpr ⟨ha, hk, heq, hb⟩, hnone k⟩
  refine ⟨h.reserved, ?_, ?_, ?_⟩
  · rw [← hspare]
    exact h.exact.detach hcases
  · intro i' hi' n hn
    by_cases hi : i' = i
    · subst hi
      rw [Function.update_self, hsize] at hn
      cases hn
    · unfold Alloc at hi'
      rw [Function.update_of_ne hi] at hn hi' ⊢
      exact h.full i' hi' n hn
  · intro i' hi'
    by_cases hi : i' = i
    · subst hi
      rw [Function.update_self, hsize]
      exact Nat.zero_le _
    · unfold Alloc at hi'
      rw [Function.update_of_ne hi] at hi' ⊢
      exact h.size_le i' hi'

end Files

end

end Xv6.Fs
