import Xv6.Fs.DirSpec
import Xv6.Fs.Format

/-! # A directory is a map

Through any sequence of `dirlink` calls and removals of entries, the slots of a directory stand for
a map from names to inode numbers, with `.` and `..` in the first two.
-/
namespace Xv6.Fs
open Disk Library

section
variable [sb : Superblock]

/-- Directory `i`: no name is in two slots, and `.` and `..` are in the first two. -/
structure DirOk (i : ℕ) (f : Afile) : Prop extends IsDir f where
  keyed : Keyed (bindings f.data)
  dot : (table f.data)[0]? = some (some (DOT, i))
  dotdot : ∃ p, (table f.data)[1]? = some (some (DOTDOT, p))

namespace DirOk

variable {i k inum : ℕ} {f : Afile} {name : Name}

theorem two_le (h : DirOk i f) : 2 ≤ slots f.data.length := by
  obtain ⟨p, hp⟩ := h.dotdot
  exact lt_of_getElem?_table hp

theorem change {data : List UInt8} (h : DirOk i f) (haligned : Aligned data)
    (hlt : ∀ b ∈ bindings data, b.2 < sb.ninodes) (hkeyed : Keyed (bindings data))
    (hslot : ∀ j < 2, (table data)[j]? = (table f.data)[j]?) : DirOk i { f with data := data } where
  type := h.type
  aligned := haligned
  inum_lt := hlt
  keyed := hkeyed
  dot := (hslot 0 (by decide)).trans h.dot
  dotdot := by
    obtain ⟨p, hp⟩ := h.dotdot
    exact ⟨p, (hslot 1 (by decide)).trans hp⟩

theorem two_le_of_freeSlot (h : DirOk i f) (hk : FreeSlot f.data k) : 2 ≤ k := by
  rcases hk with hk | ⟨rfl, -⟩
  · obtain ⟨p, hp⟩ := h.dotdot
    by_contra hlt
    have hcase : k = 0 ∨ k = 1 := by omega
    rcases hcase with rfl | rfl
    · rw [h.dot] at hk
      cases hk
    · rw [hp] at hk
      cases hk
  · exact h.two_le

theorem link (h : DirOk i f) (hnone : valueOf (bindings f.data) (key name) = none)
    (hk : FreeSlot f.data k) (hpos : 0 < inum) (hlt : inum < sb.ninodes) :
    DirOk i { f with data := splice f.data (DIRENT * k) (entryBytes name inum) } ∧
      valueOf (bindings (splice f.data (DIRENT * k) (entryBytes name inum))) =
        Function.update (valueOf (bindings f.data)) (key name) (some inum) := by
  have hsmall : inum < 2 ^ 16 := lt_of_lt_of_le hlt sb.ninodes_le
  have hfree : (table f.data)[k]? = some none ∨ k = slots f.data.length := hk.imp_right And.left
  have hperm : (bindings (splice f.data (DIRENT * k) (entryBytes name inum))).Perm
      ((key name, inum) :: bindings f.data) := bindings_link h.aligned hpos hsmall hfree
  obtain ⟨hkeyed, hvalue⟩ := h.keyed.insert hnone hperm
  refine ⟨h.change (h.aligned.splice hk.le (length_entryBytes ..)) ?_ hkeyed ?_, hvalue⟩
  · intro b hb
    rcases List.mem_cons.mp (hperm.mem_iff.mp hb) with rfl | hb
    · exact hlt
    · exact h.inum_lt b hb
  · intro j hj
    have := h.two_le_of_freeSlot hk
    rw [table_link h.aligned hk.le hpos hsmall]
    exact getElem?_fillSlot_of_ne (by rw [length_table]; exact hk.le) (by omega)

theorem clear (h : DirOk i f) (hk : (table f.data)[k]? = some (some (name, inum)))
    (hdot : name ≠ DOT) (hdotdot : name ≠ DOTDOT) :
    DirOk i { f with data := splice f.data (DIRENT * k) (List.replicate DIRENT 0) } ∧
      valueOf (bindings (splice f.data (DIRENT * k) (List.replicate DIRENT 0))) =
        Function.update (valueOf (bindings f.data)) name none := by
  have hle := (lt_of_getElem?_table hk).le
  have hperm := bindings_clear h.aligned hk
  obtain ⟨hkeyed, hvalue⟩ := h.keyed.remove hperm
  refine ⟨h.change (h.aligned.splice hle List.length_replicate) ?_ hkeyed ?_, hvalue⟩
  · intro b hb
    exact h.inum_lt b (hperm.mem_iff.mpr (List.mem_cons_of_mem _ hb))
  · intro j hj
    have hjk : j ≠ k := by
      rintro rfl
      obtain ⟨p, hp⟩ := h.dotdot
      have hcase : j = 0 ∨ j = 1 := by omega
      rcases hcase with rfl | rfl
      · rw [h.dot] at hk
        cases hk
        exact hdot rfl
      · rw [hp] at hk
        cases hk
        exact hdotdot rfl
    rw [table_clear h.aligned hle]
    exact getElem?_clearSlot_of_ne (by rw [length_table]; exact hle) hjk

/-- No other name is there exactly if only the first two slots are in use. -/
theorem onlyDots_iff (h : DirOk i f) : OnlyDots f.data ↔
    ∀ name, valueOf (bindings f.data) name ≠ none → name = DOT ∨ name = DOTDOT := by
  obtain ⟨p, hp⟩ := h.dotdot
  constructor
  · intro honly name hname
    obtain ⟨inum, hv⟩ := Option.ne_none_iff_exists'.mp hname
    obtain ⟨k, hk⟩ := exists_slot ((valueOf_eq_some h.keyed).mp hv)
    have hlt : k < 2 := by
      by_contra hge
      exact honly k (by omega) _ hk
    have hcase : k = 0 ∨ k = 1 := by omega
    rcases hcase with rfl | rfl
    · rw [h.dot] at hk
      cases hk
      exact Or.inl rfl
    · rw [hp] at hk
      cases hk
      exact Or.inr rfl
  · rintro hall k hk ⟨name, inum⟩ hslot
    have hv := (valueOf_eq_some h.keyed).mpr (mem_bindings_of_slot hslot)
    have hne : valueOf (bindings f.data) name ≠ none := by
      rw [hv]
      exact Option.some_ne_none _
    rcases hall name hne with rfl | rfl
    · have := h.keyed.slot_unique hslot h.dot
      omega
    · have := h.keyed.slot_unique hslot hp
      omega

end DirOk

/-! ## Operations on a directory -/

/-- What `sys_unlink` does to the directory: find the entry and write zeroes over it. -/
def removeEntry (dp : InodeId) (name : Name) : FsM Bool :=
  if namecmp name DOT = 0 ∨ namecmp name DOTDOT = 0 then pure false
  else do
    let found ← dirlookup dp name
    match found with
    | none => pure false
    | some (ip, k) => do
      let r ← writei dp (List.replicate DIRENT 0) (DIRENT * k) DIRENT
      if r ≠ DIRENT then throw .unlinkWritei
      else do
        iput ip
        pure true

/-- In a call that holds `H`, the locked directory `dp` stands for the map `m`. -/
structure StandsFor (H : Multiset InodeId) (dp : InodeId) (m : Name → Option ℕ) (s : State) :
    Prop where
  sess : Sess H s
  mem : dp ∈ H
  loaded : Loaded s dp
  outstanding : 1 ≤ s.outstanding
  ok : DirOk (s.itable dp).inum (afile s dp)
  value : valueOf (bindings (afile s dp).data) = m

section
variable {H : Multiset InodeId} {dp : InodeId} {m : Name → Option ℕ} {s s' : State} {I : Set ℕ}
  {k inum : ℕ} {name : Name}

theorem Clean.afile_eq {ip : InodeId} {f : Afile} (h : Clean s) (hip : Loaded s ip)
    (hf : s.file (s.itable ip).inum = some f) : afile s ip = f :=
  Option.some.inj ((h.file_eq hip).symm.trans hf)

namespace StandsFor

theorem keep {H' K : Multiset InodeId} (h : StandsFor H dp m s) (hdp : dp ∈ H') (hs : Sess H' s')
    (hK : dp ∈ K) (hact : Act K I k s s')
    (hfile : s'.file (s.itable dp).inum = s.file (s.itable dp).inum) : StandsFor H' dp m s' := by
  obtain ⟨hinum, hvalid⟩ := hact.keep dp (Or.inr hK)
  have hload : Loaded s' dp := hs.loaded hdp (hvalid h.loaded.valid)
  have hafile : afile s' dp = afile s dp := by
    apply hs.clean.afile_eq hload
    rw [hinum, hfile, h.sess.clean.file_eq h.loaded]
  refine ⟨hs, hdp, hload, ?_, ?_, ?_⟩
  · rw [hact.outstanding]
    exact h.outstanding
  · rw [hinum, hafile]
    exact h.ok
  · rw [hafile, h.value]

theorem stamped {data : List UInt8} {m' : Name → Option ℕ} (h : StandsFor H dp m s)
    (hst : Stamped H dp data s s') (hok : DirOk (s.itable dp).inum { afile s dp with data := data })
    (hvalue : valueOf (bindings data) = m') : StandsFor H dp m' s' := by
  have hafile : afile s' dp = { afile s dp with data := data } := by
    apply hst.sess.clean.afile_eq hst.loaded
    rw [hst.inum, hst.file, Function.update_self]
  refine ⟨hst.sess, h.mem, hst.loaded, ?_, ?_, ?_⟩
  · rw [hst.act.outstanding]
    exact h.outstanding
  · rw [hst.inum, hafile]
    exact hok
  · rw [hafile, hvalue]

theorem iput {ip : InodeId} (h : StandsFor (ip ::ₘ H) dp m s) (hdp : dp ∈ H) :
    Wp (iput ip) s (fun _ s' => StandsFor H dp m s') (fun _ => False) := by
  refine (iput_spec h.sess h.outstanding).mono ?_
  rintro - s' ⟨hs, ⟨hact, hdisk, -⟩ | hdrop⟩
  · exact h.keep hdp hs hdp hact (by rw [file_of_disk hdisk])
  · apply h.keep hdp hs hdp hdrop.act
    rw [hdrop.file]
    apply Function.update_of_ne
    intro heq
    have := h.sess.clean.unique dp ip h.loaded.ref hdrop.loaded.ref heq
    exact hdrop.notMem (this ▸ hdp)

/-- `dirlookup` finds the value of the name, and the slot that holds it. -/
theorem dirlookup (h : StandsFor H dp m s) (name : Name) :
    Wp (dirlookup dp name) s (fun r s' =>
      (r = none ∧ m (key name) = none ∧ s' = s) ∨
      ∃ ip k inum, r = some (ip, k) ∧ m (key name) = some inum ∧ Found H dp name s ip k inum s')
      (fun e => e = .igetNoInodes ∧ ∀ t, 0 < (s.itable t).ref) := by
  apply (dirlookup_value h.sess h.loaded h.ok.toIsDir name).mono
  rw [h.value]
  rintro r s' (⟨hr, hs, hv⟩ | ⟨ip, k, inum, hr, hfound, hv⟩)
  · exact Or.inl ⟨hr, hv, hs⟩
  · exact Or.inr ⟨ip, k, inum, hr, hv, hfound⟩

theorem dirlink (h : StandsFor H dp m s) (name : Name) (hpos : 0 < inum)
    (hlt : inum < sb.ninodes) :
    Wp (dirlink dp name inum) s (fun ok s' =>
      (ok = true ↔ m (key name) = none ∧
        ((∃ k : ℕ, (table (afile s dp).data)[k]? = some none) ∨ CanGrow dp s)) ∧
      (ok = true → (∃ k : ℕ, (table (afile s dp).data)[k]? = some none) →
        (afile s' dp).data.length = (afile s dp).data.length) ∧
      StandsFor H dp (if ok then Function.update m (key name) (some inum) else m) s')
      (fun e => e = .igetNoInodes ∧ ∀ t, 0 < (s.itable t).ref) := by
  apply (dirlink_spec h.sess h.loaded h.ok.toIsDir h.outstanding name inum).mono
  rintro ok s' hlinked
  cases hlinked with
  | present hsome hs hact hdisk =>
    rw [h.value] at hsome
    refine ⟨?_, nofun, h.keep h.mem hs h.mem hact (by rw [file_of_disk hdisk])⟩
    exact ⟨nofun, fun hc => absurd hc.1 hsome⟩
  | added k hnone hfree hgrow hst =>
    obtain ⟨hok, hvalue⟩ := h.ok.link hnone hfree hpos hlt
    rw [h.value] at hnone hvalue
    refine ⟨⟨fun _ => ⟨hnone, ?_⟩, fun _ => rfl⟩, ?_, h.stamped hst hok hvalue⟩
    · exact hfree.imp (fun hk => ⟨k, hk⟩) fun hk => hgrow hk.1
    · rintro - ⟨j, hj⟩
      have hk : (table (afile s dp).data)[k]? = some none :=
        hfree.resolve_right fun hfull => hfull.2 j hj
      have hafile := (h.stamped hst hok hvalue).sess.clean.afile_eq hst.loaded
        (by rw [hst.inum, hst.file, Function.update_self])
      have hin := h.ok.aligned.le_length (lt_of_getElem?_table hk)
      rw [hafile]
      dsimp only
      rw [length_splice (by omega), length_entryBytes]
      exact max_eq_left hin
  | noRoom hnone hfull hgrow hst =>
    refine ⟨⟨nofun, ?_⟩, nofun, h.stamped hst h.ok h.value⟩
    rintro ⟨-, ⟨j, hj⟩ | hc⟩
    · exact absurd hj (hfull j)
    · exact absurd hc hgrow

/-- A name other than `.` and `..` is removed if it is there. -/
theorem removeEntry (h : StandsFor H dp m s) (name : Name) :
    Wp (removeEntry dp name) s (fun ok s' =>
      (ok = true ↔ m (key name) ≠ none ∧ key name ≠ DOT ∧ key name ≠ DOTDOT) ∧
      StandsFor H dp (if ok then Function.update m (key name) none else m) s')
      (fun e => e = .igetNoInodes ∧ ∀ t, 0 < (s.itable t).ref) := by
  have hdots : (namecmp name DOT = 0 ∨ namecmp name DOTDOT = 0) ↔
      (key name = DOT ∨ key name = DOTDOT) := by
    rw [namecmp_eq_zero_iff, namecmp_eq_zero_iff]
    rfl
  unfold Fs.removeEntry
  by_cases hdot : key name = DOT ∨ key name = DOTDOT
  · rw [if_pos (hdots.mpr hdot)]
    refine Wp.pure ⟨⟨nofun, ?_⟩, h⟩
    rintro ⟨-, hne⟩
    exact absurd hdot (not_or.mpr hne)
  · rw [if_neg fun hc => hdot (hdots.mp hc)]
    refine Wp.step (h.dirlookup name) ?_
    rintro r s₁ (⟨rfl, hnone, rfl⟩ | ⟨ip, k, inum, rfl, hsome, hfound⟩)
    · refine Wp.pure ⟨⟨nofun, ?_⟩, h⟩
      rintro ⟨hne, -⟩
      exact absurd hnone hne
    · have hgot := hfound.got
      have h₁ : StandsFor (ip ::ₘ H) dp m s₁ :=
        h.keep (Multiset.mem_cons_of_mem h.mem) hgot.sess h.mem hgot.act
          (by rw [file_of_disk hgot.disk])
      have hafile : afile s₁ dp = afile s dp := by
        apply h₁.sess.clean.afile_eq h₁.loaded
        rw [(hgot.act.keep dp (Or.inr h.mem)).1, file_of_disk hgot.disk]
        exact h.sess.clean.file_eq h.loaded
      have hslot := hfound.slot
      rw [← hafile] at hslot
      have hlt := lt_of_getElem?_table hslot
      refine Wp.step ((writei_entry h₁.sess h₁.loaded h₁.ok.aligned h₁.outstanding
        List.length_replicate hlt.le).weaken nofun) ?_
      rintro r s₂ (⟨rfl, hst, -⟩ | ⟨-, rfl, -⟩)
      · obtain ⟨hok, hvalue⟩ := h₁.ok.clear hslot (fun hd => hdot (Or.inl hd))
          (fun hd => hdot (Or.inr hd))
        rw [h₁.value] at hvalue
        rw [if_neg fun hne => hne rfl]
        refine Wp.step (((h₁.stamped hst hok hvalue).iput h.mem).weaken nofun) ?_
        rintro - s₃ h₃
        refine Wp.pure ⟨⟨fun _ => ⟨?_, not_or.mp hdot⟩, fun _ => rfl⟩, h₃⟩
        rw [hsome]
        exact Option.some_ne_none _
      · exact absurd hlt (lt_irrefl _)

end StandsFor

/-! ## Sequences of operations -/

/-- One operation on the directory, with what it does to the map; or something else that leaves the
directory as it is. -/
inductive DirStep (dp : InodeId) : State × (Name → Option ℕ) → State × (Name → Option ℕ) → Prop
  | dirlink {s s' : State} {m : Name → Option ℕ} (name : Name) {inum : ℕ} {ok : Bool} :
      0 < inum → inum < sb.ninodes → dirlink dp name inum s = .ok ok s' →
      DirStep dp (s, m) (s', if ok then Function.update m (key name) (some inum) else m)
  | removeEntry {s s' : State} {m : Name → Option ℕ} (name : Name) {ok : Bool} :
      removeEntry dp name s = .ok ok s' →
      DirStep dp (s, m) (s', if ok then Function.update m (key name) none else m)
  | elsewhere {s s' : State} {m : Name → Option ℕ} {H : Multiset InodeId} :
      Sess H s' → dp ∈ H → Loaded s' dp → 1 ≤ s'.outstanding →
      (s'.itable dp).inum = (s.itable dp).inum → afile s' dp = afile s dp →
      DirStep dp (s, m) (s', m)

/-- The operations treat the directory as the map `m`. -/
structure IsMap (dp : InodeId) (m : Name → Option ℕ) (s : State) : Prop where
  distinct : ∀ i < slots (afile s dp).data.length, ∀ j < slots (afile s dp).data.length,
    (entry (afile s dp).data i).inum ≠ 0 → (entry (afile s dp).data j).inum ≠ 0 →
    namecmp (entry (afile s dp).data i).name (entry (afile s dp).data j).name = 0 → i = j
  finite : {name | m name ≠ none}.Finite
  dirlookup : ∀ name, Wp (dirlookup dp name) s (fun r s' =>
    (r = none ∧ m (key name) = none) ∨
    ∃ ip k inum, r = some (ip, k) ∧ m (key name) = some inum ∧ (s'.itable ip).inum = inum ∧
      k < slots (afile s dp).data.length ∧ (entry (afile s dp).data k).inum = inum ∧
      namecmp name (entry (afile s dp).data k).name = 0)
    (fun e => e = .igetNoInodes ∧ ∀ t, 0 < (s.itable t).ref)
  dirlink : ∀ name inum, 0 < inum → inum < sb.ninodes → Wp (dirlink dp name inum) s (fun ok s' =>
    (ok = true ↔ m (key name) = none ∧
      ((∃ k : ℕ, (table (afile s dp).data)[k]? = some none) ∨ CanGrow dp s)) ∧
    (ok = true → (∃ k : ℕ, (table (afile s dp).data)[k]? = some none) →
      (afile s' dp).data.length = (afile s dp).data.length) ∧
    ∃ H, StandsFor H dp (if ok then Function.update m (key name) (some inum) else m) s')
    (fun e => e = .igetNoInodes ∧ ∀ t, 0 < (s.itable t).ref)
  removeEntry : ∀ name, Wp (removeEntry dp name) s (fun ok s' =>
    (ok = true ↔ m (key name) ≠ none ∧ key name ≠ DOT ∧ key name ≠ DOTDOT) ∧
    ∃ H, StandsFor H dp (if ok then Function.update m (key name) none else m) s')
    (fun e => e = .igetNoInodes ∧ ∀ t, 0 < (s.itable t).ref)
  dot : (table (afile s dp).data)[0]? = some (some (DOT, (s.itable dp).inum))
  dotdot : ∃ p, (table (afile s dp).data)[1]? = some (some (DOTDOT, p))
  isdirempty : ∃ r, isdirempty dp s = .ok r s ∧
    (r = true ↔ ∀ name, m name ≠ none → name = DOT ∨ name = DOTDOT)

theorem DirStep.standsFor {x y : State × (Name → Option ℕ)} (h : DirStep dp x y)
    (hx : ∃ H, StandsFor H dp x.2 x.1) : ∃ H, StandsFor H dp y.2 y.1 := by
  obtain ⟨H, hx⟩ := hx
  cases h with
  | dirlink name hpos hlt hrun => exact ⟨H, ((hx.dirlink name hpos hlt).ok hrun).2.2⟩
  | removeEntry name hrun => exact ⟨H, ((hx.removeEntry name).ok hrun).2⟩
  | elsewhere hs hdp hload ho hinum hafile =>
    refine ⟨_, hs, hdp, hload, ho, ?_, ?_⟩
    · rw [hinum, hafile]
      exact hx.ok
    · rw [hafile]
      exact hx.value

theorem StandsFor.isMap (h : StandsFor H dp m s) : IsMap dp m s where
  distinct i hi j hj hne hne' hcmp := by
    have hslot := getElem?_table_of_inum hi hne
    rw [(namecmp_eq_zero_iff ..).mp hcmp] at hslot
    exact h.ok.keyed.slot_unique hslot (getElem?_table_of_inum hj hne')
  finite := by
    apply ((bindings (afile s dp).data).map Prod.fst).toFinset.finite_toSet.subset
    intro name hname
    obtain ⟨inum, hv⟩ := Option.ne_none_iff_exists'.mp hname
    rw [← h.value] at hv
    rw [Finset.mem_coe, List.mem_toFinset, List.mem_map]
    exact ⟨_, (valueOf_eq_some h.ok.keyed).mp hv, rfl⟩
  dirlookup name := by
    apply (h.dirlookup name).mono
    rintro r s' (⟨hr, hnone, -⟩ | ⟨ip, k, inum, hr, hsome, hfound⟩)
    · exact Or.inl ⟨hr, hnone⟩
    · have hlt := lt_of_getElem?_table hfound.slot
      have hslot := hfound.slot
      rw [getElem?_table hlt] at hslot
      obtain ⟨-, hname, hinum⟩ := binding_eq_some.mp (Option.some.inj hslot)
      exact Or.inr ⟨ip, k, inum, hr, hsome, hfound.got.inum, hlt, hinum,
        (namecmp_eq_zero_iff ..).mpr hname.symm⟩
  dirlink name inum hpos hlt := by
    apply (h.dirlink name hpos hlt).mono
    rintro ok s' ⟨hiff, hlen, h'⟩
    exact ⟨hiff, hlen, H, h'⟩
  removeEntry name := by
    apply (h.removeEntry name).mono
    rintro ok s' ⟨hiff, h'⟩
    exact ⟨hiff, H, h'⟩
  dot := h.ok.dot
  dotdot := h.ok.dotdot
  isdirempty := by
    obtain ⟨r, hrun, hr⟩ := isdirempty_run h.sess.clean h.loaded h.ok.aligned
    refine ⟨r, hrun, ?_⟩
    rw [hr, h.ok.onlyDots_iff, h.value]

/-! ## The root directory -/

theorem format_root_ok : DirOk ROOTINO ⟨T_DIR, 0, 0, 1, rootEntries⟩ where
  type := rfl
  aligned := (by decide : rootEntries.length % DIRENT = 0)
  inum_lt b hb := by
    have hentries : ∀ b ∈ bindings rootEntries, b.2 = ROOTINO := by decide
    rw [hentries b hb]
    exact sb.root_lt
  keyed := (by decide : ((bindings rootEntries).map (·.1)).Nodup)
  dot := by decide
  dotdot := ⟨ROOTINO, by decide⟩

/-- The root of an empty file system, in a call that has a reference to it. -/
theorem format_standsFor (h : sb.datastart < sb.size) :
    StandsFor {rootId} rootId (valueOf (bindings rootEntries)) (format.begun.incRef rootId) := by
  have hclean : Clean format.begun := (format_clean h).congr rfl rfl
  have hsess : Sess 0 format.begun := ⟨hclean, (format_sess h).refs⟩
  have hload : Loaded (format.begun.incRef rootId) rootId := ⟨Nat.zero_lt_two, rfl⟩
  have hs : Sess (rootId ::ₘ 0) (format.begun.incRef rootId) := hsess.incRef Nat.zero_lt_one
  have hafile : afile (format.begun.incRef rootId) rootId = ⟨T_DIR, 0, 0, 1, rootEntries⟩ := by
    apply hs.clean.afile_eq hload
    have hfile : (format.begun.incRef rootId).file = format.file := file_of_disk rfl
    rw [hfile]
    exact (format_file h ROOTINO).trans (if_pos rfl)
  refine ⟨hs, Multiset.mem_cons_self .., hload, Nat.le_refl 1, ?_, ?_⟩
  · rw [hafile]
    exact format_root_ok
  · rw [hafile]

theorem format_canGrow : CanGrow rootId (format.begun.incRef rootId) := by
  have hlen : (afile (format.begun.incRef rootId) rootId).data.length = 2 * DIRENT := length_data ..
  have hneeded : needed (2 * DIRENT) DIRENT = {0} := by decide
  have hlack : lacking (format.begun.incRef rootId).disk
      ((format.begun.incRef rootId).itable rootId).d {0} = ∅ := by
    apply Finset.filter_false_of_mem
    intro k hk
    rw [Finset.mem_singleton.mp hk]
    change addr _ rootDinode 0 ≠ 0
    rw [rootDinode_addr, if_pos rfl]
    exact Nat.ne_of_gt datastart_pos
  unfold CanGrow
  rw [hlen, hneeded, hlack]
  exact ⟨by decide, Nat.zero_le _⟩

/-- After any sequence of operations, the directory is the map that they have made of the first
one. -/
theorem directory_is_map {s₀ : State} {m₀ : Name → Option ℕ} (h₀ : StandsFor H dp m₀ s₀)
    (hrun : Relation.ReflTransGen (DirStep dp) (s₀, m₀) (s, m)) : IsMap dp m s := by
  have hinv : ∀ y, Relation.ReflTransGen (DirStep dp) (s₀, m₀) y → ∃ H, StandsFor H dp y.2 y.1 := by
    intro y hy
    induction hy with
    | refl => exact ⟨H, h₀⟩
    | tail _ hstep ih => exact hstep.standsFor ih
  obtain ⟨H', h⟩ := hinv _ hrun
  exact h.isMap

end

end

/-- In an empty file system, `a` is linked to inode 2. -/
theorem directory_is_map_root : ∃ s',
    @dirlink tiny rootId [97] 2 ((@format tiny).begun.incRef rootId) = .ok true s' ∧
      @IsMap tiny rootId (Function.update (valueOf (bindings rootEntries)) [97] (some 2)) s' := by
  let _ : Superblock := tiny
  have hdata : tiny.datastart < tiny.size := by decide
  have h₀ := format_standsFor hdata
  have hspec := h₀.dirlink [97] (Nat.zero_lt_two) (by decide : 2 < tiny.ninodes)
  obtain ⟨ok, s', hrun, hiff, -, -⟩ :=
    (hspec.weaken fun e he => absurd (he.2 ⟨1, by decide⟩) (by decide)).exists_ok
  have hok : ok = true := hiff.mpr ⟨by decide, Or.inr format_canGrow⟩
  rw [hok] at hrun
  exact ⟨s', hrun, directory_is_map h₀
    (Relation.ReflTransGen.single (DirStep.dirlink [97] (by decide) (by decide) hrun))⟩

end Xv6.Fs
