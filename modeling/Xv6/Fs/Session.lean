import Xv6.Fs.InodeSpec
import Xv6.Library.Sums

/-! # References to in-memory inodes

Inside a system call, a reference to an in-memory inode belongs to an open file, to a current
directory, or to the call itself.  `Sess H s`: the call holds the references `H`.  `Act` says what
a piece of the call leaves alone.
-/
namespace Xv6.Fs
open Disk Library

/-! ## Users of an in-memory inode -/

/-- Is `ip` the inode of this open file? -/
def File.uses (file : File) (ip : InodeId) : Bool :=
  file.ref != 0 && file.type != .none && file.ip == ip

def cwdIs (pr : Option Proc) (ip : InodeId) : Bool := pr.any (·.cwd == ip)

/-- The number of open files and current directories that use `ip`. -/
def users (ftable : FileId → File) (proc : ProcId → Option Proc) (ip : InodeId) : ℕ :=
  (Finset.univ.filter fun f => (ftable f).uses ip).card +
    (Finset.univ.filter fun p => cwdIs (proc p) ip).card

abbrev State.users (s : State) (ip : InodeId) : ℕ := Fs.users s.ftable s.proc ip

/-! ## Transactions -/

def State.begun (s : State) : State := { s with outstanding := s.outstanding + 1 }

def State.ended (s : State) : State :=
  if s.outstanding - 1 = 0 then
    { s with outstanding := 0, lh := [], commits := s.commits ++ [s.lh] }
  else { s with outstanding := s.outstanding - 1 }

theorem beginOp_run (s : State) : beginOp s = .ok () s.begun := rfl

theorem endOp_run (s : State) : endOp s = .ok () s.ended := rfl

@[simp] theorem ended_disk (s : State) : s.ended.disk = s.disk := by
  unfold State.ended
  split <;> rfl

@[simp] theorem ended_itable (s : State) : s.ended.itable = s.itable := by
  unfold State.ended
  split <;> rfl

section
variable [sb : Superblock] {s s' s'' : State} {ip : InodeId} {H H' : Multiset InodeId}
  {I J : Set ℕ} {k l inum : ℕ}

/-- The call holds the references `H` besides those of the open files and current directories. -/
structure Sess (H : Multiset InodeId) (s : State) : Prop where
  clean : Clean s
  refs : ∀ t, (s.itable t).ref = s.users t + H.count t

/-- Open files and processes are left alone, and so are the in-memory inodes that they or `H` refer
to. -/
structure Act (H : Multiset InodeId) (I : Set ℕ) (k : ℕ) (s s' : State) : Prop where
  ftable : s'.ftable = s.ftable
  proc : s'.proc = s.proc
  outstanding : s'.outstanding = s.outstanding
  commits : s'.commits = s.commits
  keep : ∀ t, 0 < s.users t ∨ t ∈ H → (s'.itable t).inum = (s.itable t).inum ∧
    ((s.itable t).valid = true → (s'.itable t).valid = true)
  logged : Logged I k ∅ s s'

namespace Act

theorem users (h : Act H I k s s') (t : InodeId) : s'.users t = s.users t := by
  unfold State.users
  rw [h.ftable, h.proc]

theorem refl (H : Multiset InodeId) (s : State) : Act H ∅ 0 s s :=
  ⟨rfl, rfl, rfl, rfl, fun _ _ => ⟨rfl, fun hv => hv⟩, Logged.refl s⟩

theorem trans (h : Act H I k s s') (h' : Act H J l s' s'') : Act H (I ∪ J) (k + l) s s'' where
  ftable := h'.ftable.trans h.ftable
  proc := h'.proc.trans h.proc
  outstanding := h'.outstanding.trans h.outstanding
  commits := h'.commits.trans h.commits
  keep t ht := by
    obtain ⟨h1, h2⟩ := h.keep t ht
    obtain ⟨h3, h4⟩ := h'.keep t (by rwa [h.users])
    exact ⟨h3.trans h1, fun hv => h4 (h2 hv)⟩
  logged := by
    have := h.logged.trans h'.logged
    rwa [Set.union_self] at this

theorem mono (h : Act H I k s s') (hH : ∀ t ∈ H', t ∈ H) (hI : I ⊆ J) (hk : k ≤ l) :
    Act H' J l s s' :=
  { h with
    keep := fun t ht => h.keep t (ht.imp_right (hH t))
    logged := h.logged.mono hI hk (Set.Subset.refl _) }

/-- A step that logs nothing. -/
theorem trans_left (h : Act H ∅ 0 s s') (h' : Act H J l s' s'') : Act H J l s s'' :=
  (h.trans h').mono (fun _ ht => ht) (by simp) (by simp)

theorem trans_right (h : Act H I k s s') (h' : Act H ∅ 0 s' s'') : Act H I k s s'' :=
  (h.trans h').mono (fun _ ht => ht) (by simp) (by simp)

theorem of_itable {itable : InodeId → Inode}
    (hkeep : ∀ t, 0 < s.users t ∨ t ∈ H → (itable t).inum = (s.itable t).inum ∧
      ((s.itable t).valid = true → (itable t).valid = true)) :
    Act H ∅ 0 s { s with itable := itable } where
  ftable := rfl
  proc := rfl
  outstanding := rfl
  commits := rfl
  keep := hkeep
  logged := (Logged.refl s).congr rfl rfl rfl rfl

theorem of_view {f : Option Afile} (hview : s'.view = s.view.store inum f) (hlogged : Logged I k ∅ s s') :
    Act H I k s s' where
  ftable := congrArg View.ftable hview
  proc := congrArg View.proc hview
  outstanding := congrArg View.outstanding hview
  commits := congrArg View.commits hview
  keep t _ := ⟨congrFun (congrArg View.inum hview) t,
    fun hv => (congrFun (congrArg View.valid hview) t).trans hv⟩
  logged := hlogged

end Act

namespace Sess

theorem ref_pos (h : Sess H s) (hip : ip ∈ H) : 0 < (s.itable ip).ref := by
  have := Multiset.count_pos.mpr hip
  rw [h.refs]
  omega

theorem loaded (h : Sess H s) (hip : ip ∈ H) (hv : (s.itable ip).valid = true) : Loaded s ip :=
  ⟨h.ref_pos hip, hv⟩

/-- A reference of an open file or of a current directory keeps the inode in memory. -/
theorem ref_pos_of_users (h : Sess H s) (hip : 0 < s.users ip) : 0 < (s.itable ip).ref := by
  rw [h.refs]
  omega

theorem held_of_ref (h : Sess H s) (hip : 0 < (s.itable ip).ref) : 0 < s.users ip ∨ ip ∈ H := by
  rw [h.refs] at hip
  rw [← Multiset.count_pos]
  omega

theorem of_view {f : Option Afile} (h : Sess H s) (hclean : Clean s')
    (hview : s'.view = s.view.store inum f) : Sess H s' := by
  refine ⟨hclean, fun t => ?_⟩
  have href : (s'.itable t).ref = (s.itable t).ref := congrFun (congrArg View.ref hview) t
  have hft : s'.ftable = s.ftable := congrArg View.ftable hview
  have hpr : s'.proc = s.proc := congrArg View.proc hview
  unfold State.users
  rw [href, hft, hpr]
  exact h.refs t

end Sess

/-! ## `iget` and `idup` -/

theorem file_of_disk (h : s'.disk = s.disk) : s'.file = s.file := by
  unfold State.file
  rw [dinode_of_disk h, h]

def State.incRef (s : State) (ip : InodeId) : State :=
  { s with
    itable := Function.update s.itable ip { s.itable ip with ref := (s.itable ip).ref + 1 } }

theorem Clean.setEntry {e : Inode} (h : Clean s)
    (hload : 0 < e.ref → e.valid = true → e.d = s.dinode e.inum ∧ e.d.type ≠ 0)
    (hnew : 0 < e.ref → e.inum < sb.ninodes ∧
      ∀ t, t ≠ ip → 0 < (s.itable t).ref → (s.itable t).inum ≠ e.inum) :
    Clean { s with itable := Function.update s.itable ip e } := by
  refine ⟨h.files, fun t ⟨ht, hv⟩ => ?_, fun t t' ht ht' heq => ?_, fun t ht => ?_⟩ <;>
    simp only [Function.update_apply] at *
  · split at ht
    · simp_all [State.dinode]
    · simp_all only [if_false]
      exact h.coherent t ⟨ht, hv⟩
  · have := h.unique t t'
    grind
  · have := h.inum_lt t
    grind

/-- The entry is for the same inode. -/
theorem Clean.reEntry {e : Inode} (h : Clean s) (hinum : e.inum = (s.itable ip).inum)
    (href : 0 < e.ref → 0 < (s.itable ip).ref)
    (hload : 0 < e.ref → e.valid = true → e.d = s.dinode e.inum ∧ e.d.type ≠ 0) :
    Clean { s with itable := Function.update s.itable ip e } := by
  refine h.setEntry hload fun hpos => ?_
  rw [hinum]
  exact ⟨h.inum_lt ip (href hpos), fun t hne ht heq => hne (h.unique t ip ht (href hpos) heq)⟩

theorem Sess.setEntry {e : Inode} (h : Sess H s)
    (hclean : Clean { s with itable := Function.update s.itable ip e })
    (hcount : ∀ t, t ≠ ip → H'.count t = H.count t) (href : e.ref = s.users ip + H'.count ip) :
    Sess H' { s with itable := Function.update s.itable ip e } := by
  refine ⟨hclean, fun t => ?_⟩
  have := h.refs t
  simp only [Function.update_apply]
  split
  · simp_all
  · rw [hcount t ‹_›, this]

theorem Clean.incRef (h : Clean s) (href : 0 < (s.itable ip).ref) : Clean (s.incRef ip) :=
  h.reEntry rfl (fun _ => href) fun _ hv => h.coherent ip ⟨href, hv⟩

/-- Nothing that counts for references has changed. -/
theorem Sess.congr (h : Sess H s) (hdisk : s'.disk = s.disk) (hitable : s'.itable = s.itable)
    (husers : ∀ t, s'.users t = s.users t) : Sess H s' := by
  refine ⟨h.clean.congr hdisk hitable, fun t => ?_⟩
  rw [hitable, husers]
  exact h.refs t

theorem Sess.incRef (h : Sess H s) (href : 0 < (s.itable ip).ref) :
    Sess (ip ::ₘ H) (s.incRef ip) := by
  refine h.setEntry (h.clean.incRef href) (fun t ht => Multiset.count_cons_of_ne ht H) ?_
  rw [Multiset.count_cons_self, h.refs, Nat.add_assoc]

theorem Act.incRef (H : Multiset InodeId) (s : State) (ip : InodeId) :
    Act H ∅ 0 s (s.incRef ip) := by
  apply Act.of_itable
  intro t _
  simp only [Function.update_apply]
  grind

def State.newEntry (s : State) (ip : InodeId) (inum : ℕ) : State :=
  { s with
    itable := Function.update s.itable ip
      { s.itable ip with inum := inum, ref := 1, valid := false } }

omit sb in
theorem newEntry_self : (s.newEntry ip inum).itable ip =
    { s.itable ip with inum := inum, ref := 1, valid := false } :=
  Function.update_self ..

theorem Sess.newEntry (h : Sess H s) (hfree : (s.itable ip).ref = 0) (hlt : inum < sb.ninodes)
    (hnew : ∀ t, 0 < (s.itable t).ref → (s.itable t).inum ≠ inum) :
    Sess (ip ::ₘ H) (s.newEntry ip inum) := by
  have hclean : Clean (s.newEntry ip inum) :=
    h.clean.setEntry (fun _ hv => absurd hv Bool.false_ne_true) fun _ => ⟨hlt, fun t _ => hnew t⟩
  refine h.setEntry hclean (fun t ht => Multiset.count_cons_of_ne ht H) ?_
  have := h.refs ip
  rw [Multiset.count_cons_self]
  change 1 = _
  omega

theorem Act.newEntry (h : Sess H s) (hfree : (s.itable ip).ref = 0) :
    Act H ∅ 0 s (s.newEntry ip inum) := by
  apply Act.of_itable
  intro t ht
  have hne : t ≠ ip := by
    rintro rfl
    have := h.refs t
    rcases ht with ht | ht
    · omega
    · have := Multiset.count_pos.mpr ht
      omega
  rw [Function.update_of_ne hne]
  exact ⟨rfl, fun hv => hv⟩

/-- `iget` has returned `ip`. -/
structure Got (H : Multiset InodeId) (inum : ℕ) (s : State) (ip : InodeId) (s' : State) : Prop where
  sess : Sess (ip ::ₘ H) s'
  act : Act H ∅ 0 s s'
  inum : (s'.itable ip).inum = inum
  disk : s'.disk = s.disk
  kept : (0 < s.users ip ∨ ip ∈ H) ∨ (s'.itable ip).valid = false

/-- `iget` panics only if the whole table is in use. -/
theorem iget_full (h : Sess H s) (hlt : inum < sb.ninodes) :
    Wp (iget inum) s (Got H inum s)
      (fun e => e = .igetNoInodes ∧ ∀ t, 0 < (s.itable t).ref) := by
  unfold iget
  refine Wp.step_run (a := s) rfl ?_
  cases hfind : (List.finRange NINODE).find? fun t =>
      0 < (s.itable t).ref && (s.itable t).inum == inum with
  | some ip =>
    have hin := List.find?_some hfind
    simp only [Bool.and_eq_true, decide_eq_true_eq, beq_iff_eq] at hin
    have hrun : (do
        setInode ip fun inode => { inode with ref := inode.ref + 1 }
        pure ip : FsM InodeId) s = .ok ip (s.incRef ip) := rfl
    refine Wp.of_run hrun ?_
    exact ⟨h.incRef hin.1, Act.incRef H s ip, (by simpa [State.incRef] using hin.2), rfl,
      Or.inl (h.held_of_ref hin.1)⟩
  | none =>
    have hnew (t : InodeId) (ht : 0 < (s.itable t).ref) : (s.itable t).inum ≠ inum := by
      have := List.find?_eq_none.mp hfind t (List.mem_finRange t)
      simp only [Bool.and_eq_true, decide_eq_true_eq, beq_iff_eq, not_and] at this
      exact this ht
    dsimp only
    cases hfree : (List.finRange NINODE).find? fun t => (s.itable t).ref == 0 with
    | none =>
      refine Wp.throw ⟨rfl, fun t => ?_⟩
      have := List.find?_eq_none.mp hfree t (List.mem_finRange t)
      rw [beq_iff_eq] at this
      exact Nat.pos_of_ne_zero this
    | some ip =>
      have hzero : (s.itable ip).ref = 0 := by
        have := List.find?_some hfree
        simpa using this
      have hrun : (do
          setInode ip fun inode => { inode with inum := inum, ref := 1, valid := false }
          pure ip : FsM InodeId) s = .ok ip (s.newEntry ip inum) := rfl
      refine Wp.of_run hrun ?_
      refine ⟨h.newEntry hzero hlt hnew, Act.newEntry h hzero, ?_, rfl, Or.inr ?_⟩
      · rw [newEntry_self]
      · rw [newEntry_self]

theorem idup_spec (h : Sess H s) (href : 0 < (s.itable ip).ref) :
    Wp (idup ip) s (fun r s' => r = ip ∧ Got H (s.itable ip).inum s ip s') (fun _ => False) :=
  have hrun : idup ip s = .ok ip (s.incRef ip) := rfl
  Wp.of_run hrun ⟨rfl, h.incRef href, Act.incRef H s ip, (by simp [State.incRef]), rfl,
    Or.inl (h.held_of_ref href)⟩

/-! ## `ilock` and `iunlock` -/

def State.load (s : State) (ip : InodeId) : State :=
  { s with
    itable := Function.update s.itable ip
      { s.itable ip with valid := true, d := s.dinode (s.itable ip).inum } }

theorem load_self : (s.load ip).itable ip =
    { s.itable ip with valid := true, d := s.dinode (s.itable ip).inum } :=
  Function.update_self ..

/-- `ilock` has returned: the inode is in memory. -/
structure Lockd (H : Multiset InodeId) (ip : InodeId) (s s' : State) : Prop where
  sess : Sess H s'
  act : Act H ∅ 0 s s'
  disk : s'.disk = s.disk
  inum : (s'.itable ip).inum = (s.itable ip).inum
  loaded : Loaded s' ip

theorem ilock_spec (h : Sess H s) (href : 0 < (s.itable ip).ref) :
    Wp (ilock ip) s (fun _ s' => Lockd H ip s s')
      (fun e => e = .ilockNoType ∧ s.file (s.itable ip).inum = none) := by
  have hlt := h.clean.inum_lt ip href
  unfold ilock
  refine Wp.step_run (a := s) rfl ?_
  rw [if_neg (by omega)]
  by_cases hv : (s.itable ip).valid = true
  · rw [if_pos hv]
    exact Wp.pure ⟨h, Act.refl H s, rfl, rfl, href, hv⟩
  · rw [if_neg hv]
    have hrun : setInode ip (fun inode => { inode with
        valid := true, d := s.dinode (s.itable ip).inum }) s = .ok () (s.load ip) := rfl
    refine Wp.step_run hrun ?_
    by_cases ht : (s.dinode (s.itable ip).inum).type = 0
    · rw [if_pos ht]
      refine Wp.throw ⟨rfl, ?_⟩
      unfold State.file fileOf
      rw [if_pos hlt, if_pos ht]
    · rw [if_neg ht]
      have hclean : Clean (s.load ip) := h.clean.reEntry rfl (fun _ => href) fun _ _ => ⟨rfl, ht⟩
      refine Wp.pure ⟨h.setEntry hclean (fun _ _ => rfl) (h.refs ip), ?_, rfl, ?_, ?_, ?_⟩
      · apply Act.of_itable
        intro t _
        simp only [Function.update_apply]
        grind
      · rw [load_self]
      · rw [load_self]
        exact href
      · rw [load_self]

omit sb in
theorem iunlock_run (href : 0 < (s.itable ip).ref) : iunlock ip s = .ok () s := by
  refine (bind_run (getInode_run ip s)).trans ?_
  rw [if_neg (by omega)]
  rfl

/-! ## `iput` -/

def State.decRef (s : State) (ip : InodeId) : State :=
  { s with
    itable := Function.update s.itable ip { s.itable ip with ref := (s.itable ip).ref - 1 } }

theorem Sess.decRef (h : Sess (ip ::ₘ H) s) : Sess H (s.decRef ip) := by
  have hr := h.refs ip
  rw [Multiset.count_cons_self] at hr
  have href : 0 < (s.itable ip).ref := by omega
  have hclean : Clean (s.decRef ip) :=
    h.clean.reEntry rfl (fun _ => href) fun _ hv => h.clean.coherent ip ⟨href, hv⟩
  refine h.setEntry hclean (fun t ht => (Multiset.count_cons_of_ne ht H).symm) ?_
  change (s.itable ip).ref - 1 = _
  omega

theorem Act.decRef (H : Multiset InodeId) (s : State) (ip : InodeId) :
    Act H ∅ 0 s (s.decRef ip) := by
  apply Act.of_itable
  intro t _
  simp only [Function.update_apply]
  grind

theorem Sess.writeInode {d : Dinode} (h : Sess H s) (hnot : ∀ t, Loaded s t → (s.itable t).inum ≠ inum)
    (hlt : inum < sb.ninodes) (hfits : d.Fits)
    (hfiles : Files s.disk (Function.update s.dinode inum d) ∅) : Sess H (s.writeInode inum d) := by
  refine ⟨⟨?_, fun t ht => ?_, h.clean.unique, h.clean.inum_lt⟩, h.refs⟩
  · rw [writeInode_dinode hfits]
    exact hfiles.writeInode hlt d
  · obtain ⟨h1, h2⟩ := h.clean.coherent t ⟨ht.ref, ht.valid⟩
    rw [writeInode_dinode hfits]
    exact ⟨h1.trans (Function.update_of_ne (hnot t ⟨ht.ref, ht.valid⟩) ..).symm, h2⟩

theorem Act.writeInode (H : Multiset InodeId) (s : State) (inum : ℕ) (d : Dinode) :
    Act H {inum} 0 s (s.writeInode inum d) :=
  ⟨rfl, rfl, rfl, rfl, fun _ _ => ⟨rfl, fun hv => hv⟩, Logged.writeInode s inum d⟩

theorem ifree_spec (h : Sess (ip ::ₘ H) s) (hip : Loaded s ip) (hlast : s.users ip = 0 ∧ ip ∉ H)
    (ho : 1 ≤ s.outstanding) :
    Wp (ifree ip) s (fun _ s' => Sess (ip ::ₘ H) s' ∧ Act H {(s.itable ip).inum} 0 s s' ∧
      s'.file = Function.update s.file (s.itable ip).inum none) (fun _ => False) := by
  unfold ifree
  refine Wp.step (itrunc_spec h.clean hip ho) ?_
  rintro - s₁ ⟨hclean, hview, hd, hlog⟩
  have hmem : ip ∈ ip ::ₘ H := Multiset.mem_cons_self ..
  have h₁ : Sess (ip ::ₘ H) s₁ := h.of_view hclean hview
  have hact₁ : Act (ip ::ₘ H) {(s.itable ip).inum} 0 s s₁ := Act.of_view hview hlog
  obtain ⟨hinum₁, hvalid₁⟩ := hact₁.keep ip (Or.inr hmem)
  have hload₁ := h₁.loaded hmem (hvalid₁ hip.valid)
  have hou : 1 ≤ s₁.outstanding := by rwa [hact₁.outstanding]
  refine Wp.step_run (setDinode_run _) (Wp.step_run (iupdate_run hou) ?_)
  generalize hd' : { (s₁.itable ip).d with type := 0 } = d'
  have hempty : (∀ j, d'.addrs j = 0) ∧ d'.size = 0 := by
    rw [← hd', hd]
    exact ⟨fun _ => rfl, rfl⟩
  -- the entry of the table is invalidated last, but it may as well be first
  let e : Inode := { s₁.itable ip with valid := false, d := d' }
  let s₂ : State := { s₁ with itable := Function.update s₁.itable ip e }
  have hrun : setInode ip (fun inode => { inode with valid := false }) ((s₁.setD ip d').flush ip) =
      .ok () (s₂.writeInode (s.itable ip).inum d') := by
    change EStateM.Result.ok () _ = _
    simp [s₂, e, State.flush, State.setD, State.put, State.writeInode, State.log, hinum₁]
  have h₂ : Sess (ip ::ₘ H) s₂ := by
    refine h₁.setEntry (h₁.clean.reEntry rfl (fun _ => hload₁.ref) ?_) (fun _ _ => rfl) (h₁.refs ip)
    exact fun _ hv => absurd hv Bool.false_ne_true
  have hnot (t : InodeId) (ht : Loaded s₂ t) : (s₂.itable t).inum ≠ (s.itable ip).inum := by
    have htip : t ≠ ip := by
      rintro rfl
      have := ht.valid
      simp [s₂, e] at this
    have hself : (s₂.itable ip).inum = (s.itable ip).inum := by simp [s₂, e, hinum₁]
    rw [← hself]
    exact fun heq => htip (h₂.clean.unique t ip ht.ref (h₂.ref_pos hmem) heq)
  have hfits : d'.Fits := ⟨by rw [hempty.2]; norm_num, fun j => by rw [hempty.1]; norm_num⟩
  have hlt : (s.itable ip).inum < sb.ninodes := h.clean.inum_lt ip hip.ref
  have hfiles : Files s₂.disk (Function.update s₂.dinode (s.itable ip).inum d') ∅ := by
    refine h₂.clean.files.setEmpty (fun _ j => ?_) hempty.1 hempty.2
    change (s₁.dinode (s.itable ip).inum).addrs j = 0
    rw [← hinum₁, ← (hclean.coherent ip hload₁).1, hd]
    rfl
  refine Wp.of_run hrun ⟨h₂.writeInode hnot hlt hfits hfiles, ?_, ?_⟩
  · have hact₂ : Act H ∅ 0 s₁ s₂ := by
      apply Act.of_itable
      intro t ht
      have hne : t ≠ ip := by
        rintro rfl
        rw [hact₁.users, hlast.1] at ht
        exact ht.elim (lt_irrefl 0) hlast.2
      simp [Function.update_of_ne hne]
    have hact := ((hact₁.mono (fun t ht => Multiset.mem_cons_of_mem ht) (Set.Subset.refl _)
      (le_refl _)).trans_right hact₂).trans (Act.writeInode H s₂ (s.itable ip).inum d')
    rwa [Set.union_self] at hact
  · have hnone : fileOf s₂.disk d' = none := by
      rw [← hd']
      rfl
    have h1 : s₂.file = Function.update s.file (s.itable ip).inum _ := congrArg View.file hview
    rw [file_writeInode hfiles hlt hfits, hnone, h1, Function.update_idem]

/-- `iput` drops the reference; the last one to a file without links frees it. -/
structure Dropped (H : Multiset InodeId) (ip : InodeId) (s s' : State) : Prop where
  users : s.users ip = 0
  notMem : ip ∉ H
  loaded : Loaded s ip
  nlink : ∃ f, s.file (s.itable ip).inum = some f ∧ f.nlink = 0
  act : Act H {(s.itable ip).inum} 0 s s'
  file : s'.file = Function.update s.file (s.itable ip).inum none

theorem iput_spec (h : Sess (ip ::ₘ H) s) (ho : 1 ≤ s.outstanding) :
    Wp (iput ip) s (fun _ s' => Sess H s' ∧
      ((Act H ∅ 0 s s' ∧ s'.disk = s.disk ∧ ((s.itable ip).valid = true →
        (s.itable ip).d.nlink = 0 → 0 < s.users ip ∨ ip ∈ H)) ∨ Dropped H ip s s'))
      (fun _ => False) := by
  have href := h.refs ip
  rw [Multiset.count_cons, if_pos rfl] at href
  unfold iput
  refine Wp.step_run (getInode_run ip s) ?_
  by_cases hfree : (s.itable ip).ref = 1 ∧ (s.itable ip).valid = true ∧ (s.itable ip).d.nlink = 0
  · rw [if_pos hfree]
    have hip : Loaded s ip := ⟨by omega, hfree.2.1⟩
    have hlast : s.users ip = 0 ∧ ip ∉ H := by
      refine ⟨by omega, fun hm => ?_⟩
      have := Multiset.count_pos.mpr hm
      omega
    refine Wp.step (ifree_spec h hip hlast ho) ?_
    rintro - s₁ ⟨h₁, hact, hfile⟩
    have hrun : decRef ip s₁ = .ok () (s₁.decRef ip) := rfl
    refine Wp.of_run hrun ⟨h₁.decRef, Or.inr ⟨hlast.1, hlast.2, hip, ?_, ?_, ?_⟩⟩
    · exact ⟨_, h.clean.file_eq hip, hfree.2.2⟩
    · exact hact.trans_right (Act.decRef H s₁ ip)
    · rw [← hfile]
      exact file_of_disk rfl
  · rw [if_neg hfree]
    have hrun : decRef ip s = .ok () (s.decRef ip) := rfl
    refine Wp.of_run hrun ⟨h.decRef, Or.inl ⟨Act.decRef H s ip, rfl, fun hv hn => ?_⟩⟩
    rw [← Multiset.count_pos]
    by_contra hnot
    exact hfree ⟨by omega, hv, hn⟩

/-- A reference that is not the last one, or that is to a file with links. -/
theorem iput_keeps (h : Sess (ip ::ₘ H) s) (ho : 1 ≤ s.outstanding)
    (hkeep : Loaded s ip → ∀ f, s.file (s.itable ip).inum = some f → f.nlink = 0 →
      0 < s.users ip ∨ ip ∈ H) :
    Wp (iput ip) s (fun _ s' => Sess H s' ∧ Act H ∅ 0 s s' ∧ s'.disk = s.disk)
      (fun _ => False) := by
  refine (iput_spec h ho).mono ?_
  rintro - s' ⟨hs', ⟨hact, hdisk, -⟩ | hdrop⟩
  · exact ⟨hs', hact, hdisk⟩
  · obtain ⟨f, hf, hn⟩ := hdrop.nlink
    have := hdrop.users
    rcases hkeep hdrop.loaded f hf hn with hu | hm
    · omega
    · exact absurd hm hdrop.notMem

/-! ## `ialloc` -/

/-- `ialloc` has returned `ip`, for inode `inum`. -/
structure Alloced (H : Multiset InodeId) (type : BitVec 16) (inum : ℕ) (s : State) (ip : InodeId)
    (s' : State) : Prop where
  free : s.file inum = none
  lt : 0 < inum ∧ inum < sb.ninodes
  sess : Sess (ip ::ₘ H) s'
  act : Act H {inum} 0 s s'
  inum_eq : (s'.itable ip).inum = inum
  file : s'.file = Function.update s.file inum (some ⟨type, 0, 0, 0, []⟩)

theorem ialloc_spec {type : BitVec 16} (h : Sess H s) (ho : 1 ≤ s.outstanding) (ht : type ≠ 0) :
    Wp (ialloc type) s (fun r s' => (r = none ∧ s' = s ∧
        ∀ i, 0 < i → i < sb.ninodes → s.file i ≠ none) ∨
      ∃ ip inum, r = some ip ∧ Alloced H type inum s ip s')
      (fun e => e = .igetNoInodes ∧ ∀ t, 0 < (s.itable t).ref) := by
  unfold ialloc
  refine Wp.step_run (a := s) rfl ?_
  cases hfind : (List.range' 1 (sb.ninodes - 1)).find? fun inum => (s.dinode inum).type == 0 with
  | none =>
    refine Wp.pure (Or.inl ⟨rfl, rfl, fun i hpos hlt => ?_⟩)
    have hused := List.find?_eq_none.mp hfind i (by rw [List.mem_range'_1]; omega)
    rw [beq_iff_eq] at hused
    unfold State.file fileOf
    rw [if_pos hlt, if_neg hused]
    exact Option.some_ne_none _
  | some inum =>
    have hmem := List.mem_of_find?_eq_some hfind
    rw [List.mem_range'_1] at hmem
    have htype : (s.dinode inum).type = 0 := by
      have := List.find?_some hfind
      simpa using this
    have hlt : inum < sb.ninodes := by omega
    have hnone : s.file inum = none := by
      unfold State.file fileOf
      rw [if_pos hlt, if_pos htype]
    generalize hd : { Dinode.zero with type := type } = d
    have hfits : d.Fits := by
      rw [← hd]
      exact ⟨by norm_num [Dinode.zero], fun _ => by norm_num [Dinode.zero]⟩
    have hfiles : Files s.disk (Function.update s.dinode inum d) ∅ := by
      apply h.clean.files.setEmpty
      · intro ha
        exact absurd htype ha.2
      · rw [← hd]
        exact fun _ => rfl
      · rw [← hd]
        rfl
    have hsess : Sess H (s.writeInode inum d) := by
      refine h.writeInode (fun t ht => ?_) hlt hfits hfiles
      rintro rfl
      obtain ⟨h1, h2⟩ := h.clean.coherent t ht
      rw [h1] at h2
      exact h2 htype
    have hact := Act.writeInode H s inum d
    refine Wp.step_run (bread_run ..) (Wp.step_run (a := ()) rfl ?_)
    refine Wp.step_run (logWrite_run ho) (Wp.step (iget_full hsess hlt) fun ip s' hgot => ?_)
    refine Wp.pure (Or.inr ⟨ip, inum, rfl, hnone, by omega, hgot.sess, ?_, hgot.inum, ?_⟩)
    · exact hact.trans_right hgot.act
    · have hnew : fileOf s.disk d = some ⟨type, 0, 0, 0, []⟩ := by
        rw [← hd]
        exact if_neg ht
      rw [file_of_disk hgot.disk, ← hnew]
      exact file_writeInode hfiles hlt hfits

/-! ## Changes of a loaded inode -/

/-! ## Open files -/

def State.install (s : State) (f : FileId) (file : File) : State :=
  { s with ftable := Function.update s.ftable f file }

omit sb in
theorem users_setFile (s : State) (f : FileId) (file : File) (t : InodeId) :
    (s.install f file).users t + (if (s.ftable f).uses t then 1 else 0) =
      s.users t + if file.uses t then 1 else 0 := by
  have := card_filter_update (·.uses t) s.ftable f file
  have hproc : (s.install f file).proc = s.proc := rfl
  unfold State.users users
  rw [hproc]
  change (Finset.univ.filter fun g => (Function.update s.ftable f file g).uses t).card + _ + _ = _
  omega

omit sb in
theorem users_install {f : FileId} {file : File} (hfree : (s.ftable f).ref = 0)
    (huse : file.uses ip = true) (t : InodeId) :
    (s.install f file).users t = s.users t + if t = ip then 1 else 0 := by
  have hold : (s.ftable f).uses t = false := by simp [File.uses, hfree]
  have hnew : file.uses t = true ↔ t = ip := by
    simp only [File.uses, Bool.and_eq_true, beq_iff_eq] at huse ⊢
    rw [huse.2]
    exact ⟨fun h => h.2.symm, fun h => ⟨huse.1, h.symm⟩⟩
  have := users_setFile s f file t
  simpa [hold, hnew] using this

/-- The reference of the call becomes that of an open file. -/
theorem Sess.install {f : FileId} {file : File} (h : Sess (ip ::ₘ H) s)
    (hfree : (s.ftable f).ref = 0) (huse : file.uses ip = true) : Sess H (s.install f file) := by
  refine ⟨h.clean.congr rfl rfl, fun t => ?_⟩
  rw [users_install hfree huse]
  have := h.refs t
  rw [Multiset.count_cons] at this
  change (s.itable t).ref = _
  omega

end

end Xv6.Fs
