import Xv6.Fs.Budget
import Xv6.Fs.Syscall
import Xv6.Library.SlotTable

/-! # Directories

The data of a directory is a table of slots of 16 bytes.  A slot in use binds a name, its first
`DIRSIZ` bytes up to a zero, to an inode number.
-/
namespace Xv6.Fs
open Disk Library

/-! ## The table of a directory -/

def entry (data : List UInt8) (k : ℕ) : Dirent := .ofBytes ((data.drop (DIRENT * k)).take DIRENT)

/-- What counts of a name. -/
def key (name : Name) : Name := firstChars DIRSIZ name

/-- The binding of an entry in use. -/
def Dirent.binding (de : Dirent) : Option (Name × ℕ) :=
  if de.inum = 0 then none else some (key de.name, de.inum)

def table (data : List UInt8) : List (Option (Name × ℕ)) :=
  (List.range (slots data.length)).map fun k => (entry data k).binding

def bindings (data : List UInt8) : List (Name × ℕ) := (table data).reduceOption

def Aligned (data : List UInt8) : Prop := data.length % DIRENT = 0

section
variable {data bytes : List UInt8} {k inum : ℕ} {name : Name} {de : Dirent}

theorem namecmp_eq_zero_iff (s t : List UInt8) : namecmp s t = 0 ↔ key s = key t :=
  strncmp_eq_zero_iff ..

theorem Aligned.length_eq (h : Aligned data) : data.length = DIRENT * slots data.length := by
  unfold Aligned at h
  unfold slots DIRENT at *
  omega

theorem Aligned.le_length (h : Aligned data) (hk : k < slots data.length) :
    DIRENT * k + DIRENT ≤ data.length := by
  rw [h.length_eq]
  calc DIRENT * k + DIRENT = DIRENT * (k + 1) := rfl
    _ ≤ DIRENT * slots data.length := Nat.mul_le_mul_left _ hk

@[simp] theorem length_table (data : List UInt8) : (table data).length = slots data.length := by
  unfold table
  rw [List.length_map, List.length_range]

theorem getElem?_table (hk : k < slots data.length) :
    (table data)[k]? = some (entry data k).binding := by
  unfold table
  rw [List.getElem?_map, List.getElem?_range hk, Option.map_some]

theorem lt_of_getElem?_table {x : Option (Name × ℕ)} (h : (table data)[k]? = some x) :
    k < slots data.length := by
  rw [← length_table]
  exact (List.getElem?_eq_some_iff.mp h).1

theorem slots_splice (h : Aligned data) (hk : k ≤ slots data.length) (hb : bytes.length = DIRENT) :
    slots (splice data (DIRENT * k) bytes).length = max (slots data.length) (k + 1) := by
  have hlen := h.length_eq
  rw [length_splice (by rw [hlen]; exact Nat.mul_le_mul_left _ hk), hb]
  unfold slots DIRENT at *
  omega

theorem Aligned.splice (h : Aligned data) (hk : k ≤ slots data.length)
    (hb : bytes.length = DIRENT) : Aligned (splice data (DIRENT * k) bytes) := by
  have hlen := h.length_eq
  unfold Aligned
  rw [length_splice (by rw [hlen]; exact Nat.mul_le_mul_left _ hk), hb]
  unfold slots DIRENT at *
  omega

theorem entry_splice_self (h : Aligned data) (hk : k ≤ slots data.length)
    (hb : bytes.length = DIRENT) : entry (splice data (DIRENT * k) bytes) k = .ofBytes bytes := by
  have hle : DIRENT * k ≤ data.length := by
    rw [h.length_eq]
    exact Nat.mul_le_mul_left _ hk
  have hlen : (data.take (DIRENT * k)).length = DIRENT * k := by
    rw [List.length_take]
    omega
  unfold entry Fs.splice
  rw [List.append_assoc, List.drop_left' hlen, ← hb, List.take_left]

theorem entry_splice_of_ne {j : ℕ} (h : Aligned data) (hk : k ≤ slots data.length)
    (hb : bytes.length = DIRENT) (hj : j ≠ k) :
    entry (splice data (DIRENT * k) bytes) j = entry data j := by
  have hle : DIRENT * k ≤ data.length := by
    rw [h.length_eq]
    exact Nat.mul_le_mul_left _ hk
  unfold entry
  congr 1
  apply List.ext_getElem?
  intro i
  rw [List.getElem?_take, List.getElem?_take]
  by_cases hi : i < DIRENT
  · rw [if_pos hi, if_pos hi, List.getElem?_drop, List.getElem?_drop]
    apply getElem?_splice hle
    rw [hb]
    unfold DIRENT at *
    omega
  · rw [if_neg hi, if_neg hi]

theorem table_splice (h : Aligned data) (hk : k ≤ slots data.length) (hb : bytes.length = DIRENT) :
    table (splice data (DIRENT * k) bytes) =
      (table data).take k ++ (Dirent.ofBytes bytes).binding :: (table data).drop (k + 1) := by
  have htake : ((table data).take k).length = k := by
    rw [List.length_take, length_table]
    omega
  apply List.ext_getElem?
  intro j
  by_cases hj : j < max (slots data.length) (k + 1)
  · rw [getElem?_table (by rwa [slots_splice h hk hb])]
    rcases lt_trichotomy j k with hlt | rfl | hgt
    · rw [entry_splice_of_ne h hk hb hlt.ne, List.getElem?_append_left (by omega),
        List.getElem?_take, if_pos hlt, getElem?_table (by omega)]
    · rw [entry_splice_self h hk hb, List.getElem?_append_right (by omega), htake, Nat.sub_self,
        List.getElem?_cons_zero]
    · rw [entry_splice_of_ne h hk hb hgt.ne', List.getElem?_append_right (by omega), htake,
        show j - k = (j - k - 1) + 1 by omega, List.getElem?_cons_succ, List.getElem?_drop,
        show k + 1 + (j - k - 1) = j by omega, getElem?_table (by omega)]
  · rw [List.getElem?_eq_none (by rw [length_table, slots_splice h hk hb]; omega),
      List.getElem?_eq_none]
    rw [List.length_append, List.length_cons, List.length_drop, htake, length_table]
    omega

def entryBytes (name : Name) (inum : ℕ) : List UInt8 := Dirent.toBytes ⟨inum, strncpy DIRSIZ name⟩

theorem length_entryBytes (name : Name) (inum : ℕ) : (entryBytes name inum).length = DIRENT := by
  unfold entryBytes Dirent.toBytes
  rw [List.length_cons, List.length_cons, length_strncpy]
  rfl

theorem binding_entryBytes (hpos : 0 < inum) (hlt : inum < 2 ^ 16) :
    (Dirent.ofBytes (entryBytes name inum)).binding = some (key name, inum) := by
  unfold entryBytes
  rw [Dirent.ofBytes_toBytes hlt (length_strncpy ..)]
  unfold Dirent.binding key
  dsimp only
  rw [if_neg (by omega), firstChars_strncpy]

theorem table_link (h : Aligned data) (hk : k ≤ slots data.length) (hpos : 0 < inum)
    (hlt : inum < 2 ^ 16) :
    table (splice data (DIRENT * k) (entryBytes name inum)) =
      fillSlot (table data) k (key name, inum) := by
  rw [table_splice h hk (length_entryBytes ..), binding_entryBytes hpos hlt]
  rfl

theorem table_clear (h : Aligned data) (hk : k ≤ slots data.length) :
    table (splice data (DIRENT * k) (List.replicate DIRENT 0)) = clearSlot (table data) k := by
  rw [table_splice h hk List.length_replicate]
  rfl

theorem binding_eq_none : de.binding = none ↔ de.inum = 0 := by
  unfold Dirent.binding
  by_cases h : de.inum = 0
  · rw [if_pos h, iff_true_right h]
  · rw [if_neg h, iff_false_right h]
    exact Option.some_ne_none _

theorem binding_eq_some : de.binding = some (name, inum) ↔
    de.inum ≠ 0 ∧ key de.name = name ∧ de.inum = inum := by
  unfold Dirent.binding
  by_cases h : de.inum = 0
  · simp [h]
  · simp [h]

theorem getElem?_table_of_inum (hk : k < slots data.length) (hne : (entry data k).inum ≠ 0) :
    (table data)[k]? = some (some (key (entry data k).name, (entry data k).inum)) := by
  rw [getElem?_table hk, binding_eq_some.mpr ⟨hne, rfl, rfl⟩]

theorem bindings_link (h : Aligned data) (hpos : 0 < inum) (hlt : inum < 2 ^ 16)
    (hk : (table data)[k]? = some none ∨ k = slots data.length) :
    (bindings (splice data (DIRENT * k) (entryBytes name inum))).Perm
      ((key name, inum) :: bindings data) := by
  have hle : k ≤ slots data.length := by
    rcases hk with hk | rfl
    · exact (lt_of_getElem?_table hk).le
    · exact le_refl _
  unfold bindings
  rw [table_link h hle hpos hlt]
  exact fillSlot_perm (by rwa [length_table]) _

theorem bindings_clear (h : Aligned data) (hk : (table data)[k]? = some (some (name, inum))) :
    (bindings data).Perm
      ((name, inum) :: bindings (splice data (DIRENT * k) (List.replicate DIRENT 0))) := by
  unfold bindings
  rw [table_clear h (lt_of_getElem?_table hk).le]
  exact clearSlot_perm hk

end

/-! ## Scanning a directory -/

section
variable [sb : Superblock] {s s' : State} {dp ip : InodeId} {H : Multiset InodeId} {name : Name}
  {inum k : ℕ}

/-- The data of a directory has whole slots, and its entries are numbers of inodes. -/
structure IsDir (f : Afile) : Prop where
  type : f.type = T_DIR
  aligned : Aligned f.data
  inum_lt : ∀ b ∈ bindings f.data, b.2 < sb.ninodes

theorem Clean.length_le (h : Clean s) (hip : Loaded s ip) :
    (afile s ip).data.length ≤ MAXFILE * BSIZE := by
  rw [length_data]
  exact (h.held hip).size_le

theorem readi_entry (h : Clean s) (hip : Loaded s dp)
    (hk : DIRENT * k + DIRENT ≤ (afile s dp).data.length) :
    readi dp none (DIRENT * k) DIRENT s =
      .ok (DIRENT, ((afile s dp).data.drop (DIRENT * k)).take DIRENT) s := by
  have hle := h.length_le hip
  have hsmall : MAXFILE * BSIZE < 2 ^ 32 := by decide
  rw [readi_data h hip (by simp), if_neg]
  · rw [List.length_take, List.length_drop, Nat.min_eq_left (by omega)]
  · rw [Nat.mod_eq_of_lt (by omega)]
    omega

theorem scanDir_run (h : Clean s) (hip : Loaded s dp) (err : Panic) (wanted : Dirent → Bool)
    (ks : List ℕ) (hks : ∀ k ∈ ks, DIRENT * k + DIRENT ≤ (afile s dp).data.length) :
    scanDir dp err wanted ks s =
      .ok ((ks.find? fun k => wanted (entry (afile s dp).data k)).map
        fun k => (k, entry (afile s dp).data k)) s := by
  induction ks with
  | nil => rfl
  | cons k ks ih =>
    have hread := readi_entry h hip (hks k (List.mem_cons_self ..))
    rw [scanDir, bind_run hread, if_neg (fun hne => hne rfl)]
    by_cases hw : wanted (entry (afile s dp).data k) = true
    · rw [List.find?_cons_of_pos (p := fun k => wanted (entry (afile s dp).data k)) hw]
      exact congrFun (if_pos hw) s
    · rw [List.find?_cons_of_neg (p := fun k => wanted (entry (afile s dp).data k)) hw,
        ← ih fun k hk => hks k (List.mem_cons_of_mem _ hk)]
      exact congrFun (if_neg hw) s

theorem scanDir_range (h : Clean s) (hip : Loaded s dp) (hdir : Aligned (afile s dp).data)
    (err : Panic) (wanted : Dirent → Bool) :
    scanDir dp err wanted (List.range (slots (s.itable dp).d.size)) s =
      .ok (((List.range (slots (afile s dp).data.length)).find?
        fun k => wanted (entry (afile s dp).data k)).map
        fun k => (k, entry (afile s dp).data k)) s := by
  rw [← length_data]
  apply scanDir_run h hip
  intro k hk
  exact hdir.le_length (List.mem_range.mp hk)

/-! ## `dirlookup` -/

/-- `dirlookup` has found the name in slot `k`. -/
structure Found (H : Multiset InodeId) (dp : InodeId) (name : Name) (s : State) (ip : InodeId)
    (k inum : ℕ) (s' : State) : Prop where
  slot : (table (afile s dp).data)[k]? = some (some (key name, inum))
  got : Got H inum s ip s'

theorem dirlookup_value (h : Sess H s) (hip : Loaded s dp) (hdir : IsDir (afile s dp))
    (name : Name) :
    Wp (dirlookup dp name) s (fun r s' =>
      (r = none ∧ s' = s ∧ valueOf (bindings (afile s dp).data) (key name) = none) ∨
      ∃ ip k inum, r = some (ip, k) ∧ Found H dp name s ip k inum s' ∧
        valueOf (bindings (afile s dp).data) (key name) = some inum)
      (fun e => e = .igetNoInodes ∧ ∀ t, 0 < (s.itable t).ref) := by
  unfold dirlookup
  refine Wp.step_run (getInode_run dp s) ?_
  rw [if_neg (fun hne => hne hdir.type)]
  refine Wp.step_run (scanDir_range h.clean hip hdir.aligned ..) ?_
  generalize hw : (fun k => (entry (afile s dp).data k).inum != 0 &&
    namecmp name (entry (afile s dp).data k).name == 0) = wanted
  have hwanted (k inum : ℕ) : wanted k = true ∧ (entry (afile s dp).data k).inum = inum ↔
      (entry (afile s dp).data k).binding = some (key name, inum) := by
    rw [binding_eq_some, ← hw]
    simp only [Bool.and_eq_true, bne_iff_ne, beq_iff_eq, namecmp_eq_zero_iff]
    rw [and_assoc, eq_comm (a := key name)]
  have hvalue := find?_eq_valueOf hwanted (List.range (slots (afile s dp).data.length))
  change _ = valueOf (bindings (afile s dp).data) (key name) at hvalue
  cases hfind : (List.range (slots (afile s dp).data.length)).find? wanted with
  | none =>
    rw [hfind] at hvalue
    exact Wp.pure (Or.inl ⟨rfl, rfl, hvalue.symm⟩)
  | some k =>
    rw [hfind] at hvalue
    have hlt := List.mem_range.mp (List.mem_of_find?_eq_some hfind)
    have hslot : (table (afile s dp).data)[k]? =
        some (some (key name, (entry (afile s dp).data k).inum)) := by
      rw [getElem?_table hlt, (hwanted k _).mp ⟨List.find?_some hfind, rfl⟩]
    refine Wp.step (iget_full h (hdir.inum_lt _ (mem_bindings_of_slot hslot))) fun ip s' hgot => ?_
    exact Wp.pure (Or.inr ⟨ip, k, _, rfl, ⟨hslot, hgot⟩, hvalue.symm⟩)

/-- The reference that `dirlookup` returns can be dropped at once. -/
theorem Found.iput (h : Found H dp name s ip k inum s') (ho : 1 ≤ s.outstanding) :
    Wp (iput ip) s' (fun _ t => Sess H t ∧ Act H ∅ 0 s t ∧ t.disk = s.disk) (fun _ => False) := by
  have hgot := h.got
  refine (iput_keeps hgot.sess (by rwa [hgot.act.outstanding]) ?_).mono ?_
  · intro hload f _ _
    rw [hgot.act.users]
    exact hgot.kept.resolve_right fun hv => by rw [hload.valid] at hv; cases hv
  · rintro - t ⟨hsess, hact, hdisk⟩
    exact ⟨hsess, hgot.act.trans_left hact, hdisk.trans hgot.disk⟩

/-! ## Writing an entry -/

omit sb in
theorem card_span_entry (k : ℕ) : (span (DIRENT * k) DIRENT).card ≤ 2 := by
  unfold span
  refine (Finset.card_insert_le ..).trans (Nat.succ_le_succ (Finset.card_image_le.trans ?_))
  rw [Nat.card_Ico]
  unfold DIRENT BSIZE
  omega

/-- What a write of one slot does. -/
structure Stamped (H : Multiset InodeId) (dp : InodeId) (data : List UInt8) (s s' : State) :
    Prop where
  sess : Sess H s'
  act : Act H {(s.itable dp).inum} 2 s s'
  loaded : Loaded s' dp
  inum : (s'.itable dp).inum = (s.itable dp).inum
  file : s'.file = Function.update s.file (s.itable dp).inum (some { afile s dp with data := data })

/-- Another slot fits: the directory is not of the largest size, and there are as many free blocks as
the slot needs. -/
def CanGrow (dp : InodeId) (s : State) : Prop :=
  (afile s dp).data.length + DIRENT ≤ MAXFILE * BSIZE ∧
    (lacking s.disk (s.itable dp).d (needed (afile s dp).data.length DIRENT)).card ≤
      (freeBlocks s.disk).card

/-- All or nothing of the slot is written. -/
theorem writei_entry (h : Sess H s) (hip : Loaded s dp) (hdir : Aligned (afile s dp).data)
    (ho : 1 ≤ s.outstanding) {bytes : List UInt8} (hb : bytes.length = DIRENT)
    (hk : k ≤ slots (afile s dp).data.length) :
    Wp (writei dp bytes (DIRENT * k) DIRENT) s (fun r s' =>
      (r = DIRENT ∧ Stamped H dp (splice (afile s dp).data (DIRENT * k) bytes) s s' ∧
        (k = slots (afile s dp).data.length → CanGrow dp s)) ∨
      (r ≠ DIRENT ∧ k = slots (afile s dp).data.length ∧ Stamped H dp (afile s dp).data s s' ∧
        ¬ CanGrow dp s))
      (fun _ => False) := by
  have hle := h.clean.length_le hip
  have hsmall : MAXFILE * BSIZE + DIRENT < 2 ^ 32 := by decide
  have hlen := hdir.length_eq
  have hoff : DIRENT * k ≤ (afile s dp).data.length := by
    rw [hlen]
    exact Nat.mul_le_mul_left _ hk
  have hboth : Wp (writei dp bytes (DIRENT * k) DIRENT) s _ _ :=
    (writei_spec bytes (DIRENT * k) h.clean hip ho (by decide)).and
      (writei_budget h.clean hip ho (by decide) (Finset.Subset.refl (needed (DIRENT * k) DIRENT)))
  refine (hboth.weaken fun _ hf => hf.1).mono ?_
  rintro r s' ⟨⟨hbad, rfl, rfl⟩ | ⟨hgood, tot, w, U, rfl, hw⟩, hbudget, hshort⟩
  · have hend : k = slots (afile s' dp).data.length := by
      by_contra hne
      have := hdir.le_length (Nat.lt_of_le_of_ne hk hne)
      unfold BadRange at hbad
      rw [← length_data, Nat.mod_eq_of_lt (by omega)] at hbad
      omega
    refine Or.inr ⟨by decide, hend, ⟨h, ?_, hip, rfl, ?_⟩, fun hgrow => ?_⟩
    · exact (Act.refl H s').mono (fun _ ht => ht) (Set.empty_subset _) (Nat.zero_le _)
    · rw [← h.clean.file_eq hip, Function.update_eq_self]
    · have := hgrow.1
      unfold BadRange at hbad
      rw [← length_data, Nat.mod_eq_of_lt (by omega), hend, ← hlen] at hbad
      omega
  · obtain ⟨rfl, rfl⟩ := hw.whole (Or.inl (Nat.le_of_eq hb.symm))
    have hact : Act H {(s.itable dp).inum} 2 s s' := by
      apply Act.of_view hw.view
      exact hw.logged.mono (Set.Subset.refl _) (card_span_entry k) (Set.Subset.refl _)
    have hinum : (s'.itable dp).inum = (s.itable dp).inum :=
      congrFun (congrArg View.inum hw.view) dp
    have hfile := hw.file
    rw [take_splice hoff hw.tot_le.2.2] at hfile
    have hsess := h.of_view hw.clean hw.view
    have hload := hw.loaded hip
    unfold Budget at hbudget
    -- the slot does not cross the end of a block
    have hcases : w = DIRENT ∨ w = 0 := by
      have hedge := hw.edge
      have hle := hw.tot_le.2.1
      unfold DIRENT BSIZE at *
      omega
    rcases hcases with rfl | rfl
    · rw [List.take_of_length_le (Nat.le_of_eq hb)] at hfile
      refine Or.inl ⟨rfl, ⟨hsess, hact, hload, hinum, hfile⟩, ?_⟩
      rintro rfl
      refine ⟨?_, ?_⟩
      · by_contra hmax
        apply hgood
        unfold BadRange
        rw [← hlen, Nat.mod_eq_of_lt (by omega)]
        omega
      · -- the blocks of the new slot have come from the free map
        have hsize : DIRENT * slots (afile s dp).data.length + DIRENT ≤ (s'.itable dp).d.size := by
          have hf := hw.clean.file_eq hload
          rw [hfile, hinum, Function.update_self] at hf
          rw [← length_data, ← Option.some.inj hf]
          dsimp only
          rw [length_splice hoff, hb]
          exact le_max_right ..
        rw [lacking_needed (hw.clean.held hload) hsize, Finset.card_empty, ← hlen] at hbudget
        omega
    · have hpos : 0 < DIRENT := by decide
      have hsame : splice (afile s dp).data (DIRENT * k) (bytes.take 0) = (afile s dp).data := by
        unfold splice
        rw [List.take_zero, List.append_nil, List.length_nil, Nat.add_zero,
          List.take_append_drop]
      rw [hsame] at hfile
      have hend : k = slots (afile s dp).data.length := by
        by_contra hne
        have hin := hdir.le_length (Nat.lt_of_le_of_ne hk hne)
        apply (h.clean.held hip).full (n := (DIRENT * k) / BSIZE) _
          (hw.stuck (Nat.le_of_eq hb.symm) hpos)
        rw [← length_data]
        have := div_BSIZE_mul_le (DIRENT * k)
        omega
      refine Or.inr ⟨by decide, hend, ⟨hsess, hact, hload, hinum, hfile⟩, fun hgrow => ?_⟩
      obtain ⟨j, hj, hzero⟩ := hshort 0 rfl (Nat.le_of_eq hb.symm) hpos
      have hsome : 0 < (lacking s'.disk (s'.itable dp).d (needed (DIRENT * k) DIRENT)).card :=
        Finset.card_pos.mpr ⟨j, Finset.mem_filter.mpr ⟨hj, hzero⟩⟩
      have hroom := hgrow.2
      rw [hlen, ← hend] at hroom
      rw [freeBlocks_eq_empty (hw.full (Nat.le_of_eq hb.symm) hpos), Finset.card_empty] at hbudget
      omega

/-! ## `dirlink` -/

/-- A free slot, or the end if there is none. -/
def FreeSlot (data : List UInt8) (k : ℕ) : Prop :=
  (table data)[k]? = some none ∨ k = slots data.length ∧ ∀ j : ℕ, (table data)[j]? ≠ some none

omit sb in
theorem FreeSlot.le {data : List UInt8} (h : FreeSlot data k) : k ≤ slots data.length := by
  rcases h with h | ⟨rfl, -⟩
  · exact (lt_of_getElem?_table h).le
  · exact le_refl _

/-- How `dirlink` ends: the name is there already, or it has been added, or there is no room. -/
inductive Dirlinked (H : Multiset InodeId) (dp : InodeId) (name : Name) (inum : ℕ) (s : State) :
    Bool → State → Prop
  | present {s' : State} : valueOf (bindings (afile s dp).data) (key name) ≠ none →
      Sess H s' → Act H ∅ 0 s s' → s'.disk = s.disk → Dirlinked H dp name inum s false s'
  | added {s' : State} (k : ℕ) : valueOf (bindings (afile s dp).data) (key name) = none →
      FreeSlot (afile s dp).data k → (k = slots (afile s dp).data.length → CanGrow dp s) →
      Stamped H dp (splice (afile s dp).data (DIRENT * k) (entryBytes name inum)) s s' →
      Dirlinked H dp name inum s true s'
  | noRoom {s' : State} : valueOf (bindings (afile s dp).data) (key name) = none →
      (∀ j : ℕ, (table (afile s dp).data)[j]? ≠ some none) → ¬ CanGrow dp s →
      Stamped H dp (afile s dp).data s s' → Dirlinked H dp name inum s false s'

omit sb in
theorem freeSlot_find (data : List UInt8) :
    FreeSlot data ((((List.range (slots data.length)).find? fun k => (entry data k).inum == 0).map
      fun k => (k, entry data k)).elim (slots data.length) (·.1)) := by
  cases hfind : (List.range (slots data.length)).find? fun k => (entry data k).inum == 0 with
  | none =>
    refine Or.inr ⟨rfl, fun j hj => ?_⟩
    have hlt := lt_of_getElem?_table hj
    rw [getElem?_table hlt] at hj
    have := List.find?_eq_none.mp hfind j (List.mem_range.mpr hlt)
    rw [binding_eq_none.mp (Option.some.inj hj)] at this
    exact this rfl
  | some k =>
    refine Or.inl ?_
    have hlt := List.mem_range.mp (List.mem_of_find?_eq_some hfind)
    have hzero := List.find?_some hfind
    rw [beq_iff_eq] at hzero
    change (table data)[k]? = _
    rw [getElem?_table hlt, binding_eq_none.mpr hzero]

theorem dirlink_spec (h : Sess H s) (hip : Loaded s dp) (hdir : IsDir (afile s dp))
    (ho : 1 ≤ s.outstanding) (name : Name) (inum : ℕ) :
    Wp (dirlink dp name inum) s (Dirlinked H dp name inum s)
      (fun e => e = .igetNoInodes ∧ ∀ t, 0 < (s.itable t).ref) := by
  unfold dirlink
  refine Wp.step (dirlookup_value h hip hdir name) ?_
  rintro r s₁ (⟨rfl, rfl, hnone⟩ | ⟨ip, k, inum', rfl, hfound, -⟩)
  · refine Wp.step_run (getInode_run dp s₁) ?_
    refine Wp.step_run (scanDir_range h.clean hip hdir.aligned ..) ?_
    have hslot := freeSlot_find (afile s₁ dp).data
    rw [← length_data]
    generalize ((((List.range (slots (afile s₁ dp).data.length)).find?
      fun k => (entry (afile s₁ dp).data k).inum == 0).map
      fun k => (k, entry (afile s₁ dp).data k)).elim
        (slots (afile s₁ dp).data.length) (·.1)) = k at hslot
    refine Wp.step ((writei_entry h hip hdir.aligned ho (length_entryBytes name inum)
      hslot.le).weaken fun _ hf => hf.elim) ?_
    rintro r s₂ (⟨rfl, hst, hroom⟩ | ⟨hr, rfl, hst, hfull⟩)
    · exact Wp.pure (Dirlinked.added k hnone hslot hroom hst)
    · have hfalse : (r == (DIRENT : ℤ)) = false := beq_false_of_ne hr
      rw [hfalse]
      refine Wp.pure (Dirlinked.noRoom hnone ?_ hfull hst)
      rcases hslot with hslot | ⟨-, hslot⟩
      · exact absurd (lt_of_getElem?_table hslot) (lt_irrefl _)
      · exact hslot
  · refine Wp.step ((hfound.iput ho).weaken fun _ hf => hf.elim) ?_
    rintro - s₂ ⟨hsess, hact, hdisk⟩
    refine Wp.pure (Dirlinked.present ?_ hsess hact hdisk)
    rw [ne_eq, valueOf_eq_none]
    exact fun hno => hno _ (mem_bindings_of_slot hfound.slot)

/-! ## `isdirempty` -/

/-- Only the first two slots are in use. -/
def OnlyDots (data : List UInt8) : Prop := ∀ k, 2 ≤ k → ∀ b, (table data)[k]? ≠ some (some b)

theorem isdirempty_run (h : Clean s) (hip : Loaded s dp) (hdir : Aligned (afile s dp).data) :
    ∃ r, isdirempty dp s = .ok r s ∧ (r = true ↔ OnlyDots (afile s dp).data) := by
  have hscan := scanDir_run h hip .isdiremptyReadi (fun de => de.inum != 0)
    (List.range' 2 (slots (s.itable dp).d.size - 2)) (by
      intro k hk
      rw [List.mem_range'_1, ← length_data] at hk
      exact hdir.le_length (by omega))
  refine ⟨_, (bind_run (getInode_run dp s)).trans (bind_run hscan), ?_⟩
  rw [Option.isNone_iff_eq_none, Option.map_eq_none_iff, List.find?_eq_none, ← length_data]
  constructor
  · intro hnone k hk b hb
    have hlt := lt_of_getElem?_table hb
    rw [getElem?_table hlt] at hb
    have hne : (entry (afile s dp).data k).inum ≠ 0 := (binding_eq_some.mp (Option.some.inj hb)).1
    exact hnone k (List.mem_range'_1.mpr (by omega)) (bne_iff_ne.mpr hne)
  · intro honly k hk hne
    rw [List.mem_range'_1] at hk
    have hlt : k < slots (afile s dp).data.length := by omega
    apply honly k hk.1 (key (entry (afile s dp).data k).name, (entry (afile s dp).data k).inum)
    rw [getElem?_table hlt, binding_eq_some.mpr ⟨bne_iff_ne.mp hne, rfl, rfl⟩]

end

end Xv6.Fs
