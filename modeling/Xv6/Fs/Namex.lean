import Xv6.Fs.DirSpec
import Xv6.Fs.Format

/-! # Path names

The elements of a path are its components, and `namex` follows them from directory to directory.
-/
namespace Xv6.Fs
open Disk Library

/-! ## The components of a path -/

/-- The non-empty parts between slashes, cut to `DIRSIZ` bytes. -/
def components (path : List UInt8) : List Name :=
  ((path.splitOnP (· == SLASH)).filter (· != [])).map (·.take DIRSIZ)

section
variable {path rest : List UInt8} {name : Name}

theorem components_slash (path : List UInt8) : components (SLASH :: path) = components path := by
  unfold components
  rw [List.splitOnP_cons_eq_if_modifyHead, if_pos (beq_self_eq_true SLASH)]
  rfl

theorem components_dropWhile (path : List UInt8) :
    components (path.dropWhile (· == SLASH)) = components path := by
  induction path with
  | nil => rfl
  | cons c path ih =>
    by_cases hc : (c == SLASH) = true
    · rw [List.dropWhile_cons_of_pos (p := (· == SLASH)) hc, ih, beq_iff_eq.mp hc,
        components_slash]
    · rw [List.dropWhile_cons_of_neg (p := (· == SLASH)) hc]

theorem components_cons {c : UInt8} (hc : (c == SLASH) = false) (path : List UInt8) :
    components (c :: path) = ((c :: path).takeWhile (· != SLASH)).take DIRSIZ ::
      components ((c :: path).dropWhile (· != SLASH)) := by
  have hword : ∀ d ∈ (c :: path).takeWhile (· != SLASH), (d == SLASH) = false := by
    intro d hd
    have := List.all_eq_true.mp List.all_takeWhile d hd
    rwa [bne, Bool.not_eq_true'] at this
  have hne : (c :: path).takeWhile (· != SLASH) ≠ [] := by
    rw [List.takeWhile_cons_of_pos (by rw [bne, hc]; rfl)]
    exact List.cons_ne_nil _ _
  have hsplit := List.takeWhile_append_dropWhile (p := (· != SLASH)) (l := c :: path)
  have hstop := List.head?_dropWhile_not (· != SLASH) (c :: path)
  generalize (c :: path).takeWhile (· != SLASH) = word at *
  generalize (c :: path).dropWhile (· != SLASH) = rest at *
  rw [← hsplit]
  cases rest with
  | nil =>
    unfold components
    rw [List.append_nil, List.splitOnP_eq_singleton hword,
      List.filter_cons_of_pos (p := (· != [])) (bne_iff_ne.mpr hne)]
    rfl
  | cons d rest =>
    have hd : d = SLASH := by
      rw [List.head?_cons] at hstop
      simpa using hstop
    rw [hd, components_slash]
    unfold components
    rw [List.splitOnP_append_cons_of_forall_mem hword SLASH (beq_self_eq_true SLASH),
      List.filter_cons_of_pos (p := (· != [])) (bne_iff_ne.mpr hne), List.map_cons]

theorem skipelem_none (h : skipelem path = none) : components path = [] := by
  unfold skipelem at h
  rw [← components_dropWhile]
  cases hdrop : path.dropWhile (· == SLASH) with
  | nil => rfl
  | cons c s =>
    rw [hdrop] at h
    cases h

theorem skipelem_some (h : skipelem path = some (name, rest)) :
    components path = name :: components rest ∧ rest.length < path.length ∧
      (rest = [] ↔ components rest = []) := by
  unfold skipelem at h
  have hlen : (path.dropWhile (· == SLASH)).length ≤ path.length :=
    (List.dropWhile_sublist _).length_le
  have hslash := List.head?_dropWhile_not (· == SLASH) path
  rw [← components_dropWhile path]
  generalize path.dropWhile (· == SLASH) = p at *
  cases p with
  | nil => cases h
  | cons c s =>
    have hc : (c == SLASH) = false := hslash
    have hcne : (c != SLASH) = true := by rw [bne, hc]; rfl
    simp only [Option.some.injEq, Prod.mk.injEq] at h
    obtain ⟨rfl, rfl⟩ := h
    have hcut : ((c :: s).dropWhile (· != SLASH)).length ≤ s.length := by
      rw [List.dropWhile_cons_of_pos (p := (· != SLASH)) hcne]
      exact (List.dropWhile_sublist _).length_le
    have hskip : (((c :: s).dropWhile (· != SLASH)).dropWhile (· == SLASH)).length ≤
        ((c :: s).dropWhile (· != SLASH)).length := (List.dropWhile_sublist _).length_le
    refine ⟨?_, ?_, ?_⟩
    · rw [components_dropWhile, components_cons hc]
    · rw [List.length_cons] at hlen
      omega
    · have hstop := List.head?_dropWhile_not (· == SLASH) ((c :: s).dropWhile (· != SLASH))
      generalize ((c :: s).dropWhile (· != SLASH)).dropWhile (· == SLASH) = rest at hstop
      cases rest with
      | nil => exact ⟨fun _ => rfl, fun _ => rfl⟩
      | cons d rest =>
        rw [components_cons hstop]
        exact ⟨nofun, nofun⟩

theorem elems_eq {fuel : ℕ} (h : path.length ≤ fuel) : elems fuel path = components path := by
  induction fuel generalizing path with
  | zero =>
    rw [List.length_eq_zero_iff.mp (Nat.le_zero.mp h)]
    rfl
  | succ fuel ih =>
    rw [elems]
    cases hskip : skipelem path with
    | none => exact (skipelem_none hskip).symm
    | some r =>
      obtain ⟨hcomp, hlen, -⟩ := skipelem_some hskip
      dsimp only
      rw [ih (by omega), hcomp]

end

/-! ## Following a path -/

section
variable [sb : Superblock]

/-- The inode that a name stands for in a directory. -/
def lookup (file : ℕ → Option Afile) (i : ℕ) (name : Name) : Option ℕ :=
  (file i).bind fun f => if f.type = T_DIR then valueOf (bindings f.data) (key name) else none

/-- Look up one name after the other. -/
def walk (file : ℕ → Option Afile) (i : ℕ) (names : List Name) : Option ℕ :=
  names.foldlM (lookup file) i

/-- The inode of a path, or the directory of all but its last name with that name. -/
def resolve (file : ℕ → Option Afile) (parent : Bool) (i : ℕ) (names : List Name) :
    Option (ℕ × Name) :=
  if parent then
    names.getLast?.bind fun last => (walk file i names.dropLast).bind fun j =>
      if (file j).any (·.type = T_DIR) then some (j, last) else none
  else (walk file i names).map fun j => (j, [])

/-- The loop of `namex` over what is left of the path, as the source has it. -/
def namexPath (nameiparent : Bool) : (fuel : ℕ) → InodeId → List UInt8 →
    FsM (Option (InodeId × Name))
  | 0, _, _ => pure none
  | fuel + 1, ip, path =>
    match skipelem path with
    | none =>
      if nameiparent then do
        iput ip
        pure none
      else pure (some (ip, []))
    | some (name, rest) => do
      ilock ip
      let inode ← getInode ip
      if inode.d.type ≠ T_DIR then do
        iunlockput ip
        pure none
      else if nameiparent ∧ rest = [] then do
        iunlock ip
        pure (some (ip, name))
      else do
        let found ← dirlookup ip name
        iunlockput ip
        match found with
        | none => pure none
        | some (next, _) => namexPath nameiparent fuel next rest

theorem namexPath_eq (parent : Bool) {fuel : ℕ} {path : List UInt8} (ip : InodeId)
    (h : path.length < fuel) : namexPath parent fuel ip path = namexLoop parent ip (components path) := by
  induction fuel generalizing path ip with
  | zero => exact absurd h (Nat.not_lt_zero _)
  | succ fuel ih =>
    rw [namexPath]
    cases hskip : skipelem path with
    | none =>
      rw [skipelem_none hskip]
      rfl
    | some r =>
      obtain ⟨name, rest⟩ := r
      obtain ⟨hcomp, hlen, hend⟩ := skipelem_some hskip
      rw [hcomp, namexLoop]
      refine bind_congr fun _ => bind_congr fun inode => ?_
      by_cases htype : inode.d.type ≠ T_DIR
      · rw [if_pos htype, if_pos htype]
      · rw [if_neg htype, if_neg htype]
        by_cases hlast : parent = true ∧ rest = []
        · rw [if_pos hlast, if_pos ⟨hlast.1, hend.mp hlast.2⟩]
        · rw [if_neg hlast, if_neg fun hc => hlast ⟨hc.1, hend.mpr hc.2⟩]
          refine bind_congr fun found => bind_congr fun _ => ?_
          cases found with
          | none => rfl
          | some x => exact ih x.1 (by omega)

section
variable {file : ℕ → Option Afile} {i : ℕ} {name : Name} {names : List Name} {f : Afile}

omit sb in
theorem lookup_of_not_dir (hf : file i = some f) (ht : f.type ≠ T_DIR) : lookup file i name = none := by
  unfold lookup
  rw [hf, Option.bind_some, if_neg ht]

omit sb in
theorem lookup_of_dir (hf : file i = some f) (ht : f.type = T_DIR) :
    lookup file i name = valueOf (bindings f.data) (key name) := by
  unfold lookup
  rw [hf, Option.bind_some, if_pos ht]

omit sb in
theorem walk_cons : walk file i (name :: names) = (lookup file i name).bind fun j => walk file j names := rfl

omit sb in
theorem resolve_nil (parent : Bool) :
    resolve file parent i [] = if parent then none else some (i, []) := by
  cases parent <;> rfl

omit sb in
theorem resolve_last (hf : file i = some f) :
    resolve file true i [name] = if f.type = T_DIR then some (i, name) else none := by
  change (if (file i).any (·.type = T_DIR) then some (i, name) else none) = _
  rw [hf]
  simp only [Option.any_some, decide_eq_true_eq]

omit sb in
/-- Unless the walk stops here, it goes on from the inode that the name stands for. -/
theorem resolve_cons {parent : Bool} (h : ¬ (parent = true ∧ names = [])) :
    resolve file parent i (name :: names) =
      (lookup file i name).bind fun j => resolve file parent j names := by
  cases parent with
  | false =>
    change Option.map _ ((lookup file i name).bind _) = _
    rw [Option.map_bind]
    rfl
  | true =>
    obtain ⟨name', names, rfl⟩ := List.exists_cons_of_ne_nil fun hn => h ⟨rfl, hn⟩
    unfold resolve
    rw [if_pos rfl, List.getLast?_cons_cons, List.dropLast_cons_cons, walk_cons]
    cases hlook : lookup file i name with
    | none =>
      rw [Option.bind_none, Option.bind_none]
      exact Option.bind_fun_none ..
    | some j => rfl

end

/-! ## File trees -/

/-- Directories are well formed and their entries are inodes in use, and so are the inodes in memory;
what has no link is in use by an open file, by a process or by `H`. -/
structure FileTree (H : Multiset InodeId) (s : State) : Prop where
  isDir : ∀ {i f}, s.file i = some f → f.type = T_DIR → IsDir f
  target : ∀ {i f}, s.file i = some f → f.type = T_DIR → ∀ b ∈ bindings f.data, (s.file b.2).isSome
  root : (s.file ROOTINO).isSome
  held : ∀ t, 0 < s.users t ∨ t ∈ H → (s.file (s.itable t).inum).isSome
  quiet : ∀ {i f}, s.file i = some f → f.nlink = 0 →
    ∃ t, (0 < s.users t ∨ t ∈ H) ∧ (s.itable t).inum = i

/-- What a walk needs of the files: well-formed directories, and that what has no link is in use by an
open file, by a process or by `H`. -/
structure Walkable (H : Multiset InodeId) (s : State) : Prop where
  isDir : ∀ {i f}, s.file i = some f → f.type = T_DIR → IsDir f
  quiet : ∀ {i f}, s.file i = some f → f.nlink = 0 →
    ∃ t, (0 < s.users t ∨ t ∈ H) ∧ (s.itable t).inum = i

/-- How a walk that holds `H` may stop: one more reference takes the last entry of the inode table, or
a name stands for an inode that is not in use. -/
inductive Stuck (H : Multiset InodeId) (s : State) (i : ℕ) : Panic → Prop
  | full (ip : InodeId) (h : ∀ t, 0 < s.users t + (ip ::ₘ H).count t) : Stuck H s i .igetNoInodes
  | first (h : s.file i = none) : Stuck H s i .ilockNoType
  | dangling {j : ℕ} {f : Afile} {b : Name × ℕ} (hf : s.file j = some f) (ht : f.type = T_DIR)
      (hb : b ∈ bindings f.data) (h : s.file b.2 = none) : Stuck H s i .ilockNoType

/-- Two entries of the inode table are free. -/
def Room (H : Multiset InodeId) (s : State) : Prop :=
  ∃ a b : InodeId, a ≠ b ∧ ∀ t ∈ [a, b], s.users t = 0 ∧ t ∉ H

section
variable {s s' : State} {H : Multiset InodeId} {ip : InodeId} {I : Set ℕ} {k : ℕ}

theorem FileTree.walkable (h : FileTree H s) : Walkable H s := ⟨h.isDir, h.quiet⟩

theorem Walkable.step (h : Walkable H s) (hact : Act H I k s s') (hdisk : s'.disk = s.disk) :
    Walkable H s' := by
  have hfile := file_of_disk hdisk
  constructor
  · rw [hfile]
    exact h.isDir
  · intro i f hf hn
    rw [hfile] at hf
    obtain ⟨t, ht, hinum⟩ := h.quiet hf hn
    refine ⟨t, ?_, ?_⟩
    · rwa [hact.users]
    · rw [(hact.keep t ht).1, hinum]

theorem Stuck.before {s₁ : State} {i : ℕ} {e : Panic} (h : Stuck H s₁ i e)
    (hact : Act H I k s s₁) (hdisk : s₁.disk = s.disk) : Stuck H s i e := by
  have hfile := file_of_disk hdisk
  cases h with
  | full ip h =>
    refine Stuck.full ip fun t => ?_
    rw [← hact.users]
    exact h t
  | first h =>
    rw [hfile] at h
    exact Stuck.first h
  | dangling hf ht hb h =>
    rw [hfile] at hf h
    exact Stuck.dangling hf ht hb h

omit sb in
/-- A full table does not leave room for one more reference. -/
theorem Room.not_full (h : Room H s) (ip : InodeId) :
    ¬ ∀ t, 0 < s.users t + (ip ::ₘ H).count t := by
  intro hfull
  obtain ⟨a, b, hne, hfree⟩ := h
  have heq : ∀ t ∈ [a, b], t = ip := by
    intro t ht
    by_contra htip
    obtain ⟨hu, hm⟩ := hfree t ht
    have := hfull t
    rw [hu, Multiset.count_cons_of_ne htip, Multiset.count_eq_zero_of_notMem hm] at this
    exact absurd this (lt_irrefl 0)
  exact hne ((heq a (by simp)).trans (heq b (by simp)).symm)

theorem FileTree.stuck {i : ℕ} {e : Panic} (h : FileTree H s) (hi : (s.file i).isSome)
    (he : Stuck H s i e) : e = .igetNoInodes ∧ ¬ Room H s := by
  cases he with
  | full ip hfull => exact ⟨rfl, fun hroom => hroom.not_full ip hfull⟩
  | first hnone =>
    rw [hnone] at hi
    cases hi
  | dangling hf ht hb hnone =>
    have := h.target hf ht _ hb
    rw [hnone] at this
    cases this

/-- During a walk, dropping a reference frees nothing. -/
theorem Walkable.iput {K : Multiset InodeId} (h : Walkable H s) (hs : Sess (ip ::ₘ K) s)
    (hHK : ∀ t ∈ H, t ∈ K) (ho : 1 ≤ s.outstanding) :
    Wp (iput ip) s (fun _ s' => Sess K s' ∧ Act K ∅ 0 s s' ∧ s'.disk = s.disk) (fun _ => False) := by
  apply iput_keeps hs ho
  intro hload f hf hn
  obtain ⟨t, ht, hinum⟩ := h.quiet hf hn
  have href : 0 < (s.itable t).ref := by
    rcases ht with hu | hm
    · exact hs.ref_pos_of_users hu
    · exact hs.ref_pos (Multiset.mem_cons_of_mem (hHK t hm))
  have heq := hs.clean.unique t ip href hload.ref hinum
  rw [heq] at ht
  exact ht.imp_right (hHK ip)

theorem Walkable.iunlockput {K : Multiset InodeId} (h : Walkable H s) (hs : Sess (ip ::ₘ K) s)
    (hHK : ∀ t ∈ H, t ∈ K) (ho : 1 ≤ s.outstanding) :
    Wp (iunlockput ip) s (fun _ s' => Sess K s' ∧ Act K ∅ 0 s s' ∧ s'.disk = s.disk)
      (fun _ => False) :=
  Wp.step_run (iunlock_run (hs.ref_pos (Multiset.mem_cons_self ..))) (h.iput hs hHK ho)

/-- `namex` has ended: it holds a reference to what it has found, and none if it has failed. -/
structure Resolved (H : Multiset InodeId) (s : State) (want : Option (ℕ × Name))
    (r : Option (InodeId × Name)) (s' : State) : Prop where
  act : Act H ∅ 0 s s'
  disk : s'.disk = s.disk
  fails : want = none → r = none ∧ Sess H s'
  finds : ∀ j name, want = some (j, name) →
    ∃ ip, r = some (ip, name) ∧ (s'.itable ip).inum = j ∧ Sess (ip ::ₘ H) s'

theorem Resolved.of_none (hact : Act H ∅ 0 s s') (hdisk : s'.disk = s.disk) (hs : Sess H s') :
    Resolved H s none none s' :=
  ⟨hact, hdisk, fun _ => ⟨rfl, hs⟩, nofun⟩

theorem Resolved.of_some {name : Name} (hact : Act H ∅ 0 s s') (hdisk : s'.disk = s.disk)
    (hs : Sess (ip ::ₘ H) s') {j : ℕ} (hj : (s'.itable ip).inum = j) :
    Resolved H s (some (j, name)) (some (ip, name)) s' := by
  refine ⟨hact, hdisk, nofun, ?_⟩
  rintro j' name' ⟨⟩
  exact ⟨ip, rfl, hj, hs⟩

theorem Resolved.after {s₁ : State} {want : Option (ℕ × Name)} {r : Option (InodeId × Name)}
    (h : Resolved H s₁ want r s') (hact : Act H ∅ 0 s s₁) (hdisk : s₁.disk = s.disk) :
    Resolved H s want r s' :=
  ⟨hact.trans_left h.act, h.disk.trans hdisk, h.fails, h.finds⟩

omit sb in
theorem mem_of_mem_cons_self (H : Multiset InodeId) (ip : InodeId) : ∀ t ∈ H, t ∈ ip ::ₘ H :=
  fun _ ht => Multiset.mem_cons_of_mem ht

theorem namexLoop_walk (parent : Bool) (names : List Name) {s : State} {ip : InodeId}
    (hwalk : Walkable H s) (hs : Sess (ip ::ₘ H) s) (ho : 1 ≤ s.outstanding) :
    Wp (namexLoop parent ip names) s
      (Resolved H s (resolve s.file parent (s.itable ip).inum names))
      (Stuck H s (s.itable ip).inum) := by
  induction names generalizing s ip with
  | nil =>
    rw [resolve_nil, namexLoop]
    cases parent with
    | false => exact Wp.pure (Resolved.of_some (Act.refl H s) rfl hs rfl)
    | true =>
      refine Wp.step ((hwalk.iput hs (fun _ ht => ht) ho).weaken nofun) ?_
      rintro - s' ⟨hs', hact, hdisk⟩
      exact Wp.pure (Resolved.of_none hact hdisk hs')
  | cons name names ih =>
    have hself : ip ∈ ip ::ₘ H := Multiset.mem_cons_self ..
    rw [namexLoop]
    have hlock : Wp (ilock ip) s (fun _ s' => Lockd (ip ::ₘ H) ip s s')
        (Stuck H s (s.itable ip).inum) := by
      apply (ilock_spec hs (hs.ref_pos hself)).weaken
      rintro e ⟨rfl, hnone⟩
      exact Stuck.first hnone
    refine Wp.step hlock ?_
    rintro - s₁ hl
    have hact₁ : Act H ∅ 0 s s₁ :=
      hl.act.mono (mem_of_mem_cons_self H ip) (Set.Subset.refl _) (le_refl _)
    have hwalk₁ : Walkable H s₁ := hwalk.step hact₁ hl.disk
    have hf₁ : s₁.file (s₁.itable ip).inum = some (afile s₁ ip) := hl.sess.clean.file_eq hl.loaded
    have ho₁ : 1 ≤ s₁.outstanding := by rwa [hact₁.outstanding]
    rw [← file_of_disk hl.disk, ← hl.inum]
    refine Wp.step_run (getInode_run ip s₁) ?_
    by_cases htype : (afile s₁ ip).type = T_DIR
    · have hnot : ¬ (s₁.itable ip).d.type ≠ T_DIR := fun hne => hne htype
      rw [if_neg hnot]
      by_cases hlast : parent = true ∧ names = []
      · obtain ⟨rfl, rfl⟩ := hlast
        rw [if_pos ⟨rfl, rfl⟩, resolve_last hf₁, if_pos htype]
        refine Wp.step_run (iunlock_run (hl.sess.ref_pos hself)) ?_
        exact Wp.pure (Resolved.of_some hact₁ hl.disk hl.sess rfl)
      · rw [if_neg hlast, resolve_cons hlast, lookup_of_dir hf₁ htype]
        have hdir : IsDir (afile s₁ ip) := hwalk₁.isDir hf₁ htype
        refine Wp.step ((dirlookup_value hl.sess hl.loaded hdir name).weaken ?_) ?_
        · rintro e ⟨rfl, hfull⟩
          refine Stuck.full ip fun t => ?_
          have := hfull t
          rwa [hl.sess.refs, hact₁.users] at this
        rintro r s₂ (⟨rfl, rfl, hvalue⟩ | ⟨next, k, inum, rfl, hfound, hvalue⟩)
        · rw [hvalue, Option.bind_none]
          refine Wp.step ((hwalk₁.iunlockput hl.sess (fun _ ht => ht) ho₁).weaken nofun) ?_
          rintro - s₃ ⟨hs₃, hact₃, hdisk₃⟩
          exact Wp.pure ((Resolved.of_none hact₃ hdisk₃ hs₃).after hact₁ hl.disk)
        · have hgot := hfound.got
          have hact₂ : Act H ∅ 0 s₁ s₂ :=
            hgot.act.mono (mem_of_mem_cons_self H ip) (Set.Subset.refl _) (le_refl _)
          have hwalk₂ : Walkable H s₂ := hwalk₁.step hact₂ hgot.disk
          have hs₂ : Sess (ip ::ₘ next ::ₘ H) s₂ := by
            rw [Multiset.cons_swap]
            exact hgot.sess
          have ho₂ : 1 ≤ s₂.outstanding := by rwa [hact₂.outstanding]
          rw [hvalue, Option.bind_some]
          refine Wp.step
            ((hwalk₂.iunlockput hs₂ (mem_of_mem_cons_self H next) ho₂).weaken nofun) ?_
          rintro - s₃ ⟨hs₃, hact₃', hdisk₃⟩
          have hact₃ : Act H ∅ 0 s₂ s₃ :=
            hact₃'.mono (mem_of_mem_cons_self H next) (Set.Subset.refl _) (le_refl _)
          have hact : Act H ∅ 0 s s₃ := (hact₁.trans_left hact₂).trans_left hact₃
          have hdisk : s₃.disk = s₁.disk := hdisk₃.trans hgot.disk
          have hinum : (s₃.itable next).inum = inum := by
            rw [(hact₃'.keep next (Or.inr (Multiset.mem_cons_self ..))).1, hgot.inum]
          have hrec := ih (hwalk₂.step hact₃ hdisk₃) hs₃ (by rwa [hact₃.outstanding])
          rw [hinum, file_of_disk hdisk] at hrec
          apply (hrec.mono fun r s' hr => hr.after hact (hdisk.trans hl.disk)).weaken
          intro e he
          -- a start that is not in use is a dangling entry of the directory before it
          cases he.before hact (hdisk.trans hl.disk) with
          | full ip h => exact Stuck.full ip h
          | first h =>
            rw [← file_of_disk hl.disk] at h
            have hmem := mem_bindings_of_slot hfound.slot
            rw [file_of_disk hl.disk] at hf₁ h
            exact Stuck.dangling hf₁ htype hmem h
          | dangling hf ht hb h => exact Stuck.dangling hf ht hb h
    · have hne : (s₁.itable ip).d.type ≠ T_DIR := htype
      have hwant : resolve s₁.file parent (s₁.itable ip).inum (name :: names) = none := by
        by_cases hlast : parent = true ∧ names = []
        · obtain ⟨rfl, rfl⟩ := hlast
          rw [resolve_last hf₁, if_neg htype]
        · rw [resolve_cons hlast, lookup_of_not_dir hf₁ htype, Option.bind_none]
      rw [if_pos hne, hwant]
      refine Wp.step ((hwalk₁.iunlockput hl.sess (fun _ ht => ht) ho₁).weaken nofun) ?_
      rintro - s₂ ⟨hs₂, hact₂, hdisk₂⟩
      exact Wp.pure ((Resolved.of_none hact₂ hdisk₂ hs₂).after hact₁ hl.disk)

def start (s : State) (cwd : InodeId) (path : Path) : ℕ :=
  if path.val.head? = some SLASH then ROOTINO else (s.itable cwd).inum

omit sb in
theorem Path.elems_eq (path : Path) : path.elems = components path.val := Fs.elems_eq (le_refl _)

theorem namex_walk {cwd : InodeId} (hwalk : Walkable H s) (hs : Sess H s) (hcwd : 0 < s.users cwd)
    (ho : 1 ≤ s.outstanding) (path : Path) (parent : Bool) :
    Wp (namex cwd path parent) s
      (Resolved H s (resolve s.file parent (start s cwd path) (components path.val)))
      (Stuck H s (start s cwd path)) := by
  have hget : Wp (if path.val.head? = some SLASH then iget ROOTINO else idup cwd) s
      (Got H (start s cwd path) s) (Stuck H s (start s cwd path)) := by
    unfold start
    by_cases hslash : path.val.head? = some SLASH
    · rw [if_pos hslash, if_pos hslash]
      apply (iget_full hs sb.root_lt).weaken
      rintro e ⟨rfl, hfull⟩
      refine Stuck.full cwd fun t => ?_
      have := hfull t
      rw [hs.refs] at this
      exact this.trans_le (Nat.add_le_add_left (Multiset.count_le_count_cons t cwd H) _)
    · rw [if_neg hslash, if_neg hslash]
      apply ((idup_spec hs (hs.ref_pos_of_users hcwd)).mono ?_).weaken nofun
      rintro ip s' ⟨rfl, hgot⟩
      exact hgot
  have hnamex : namex cwd path parent =
      (if path.val.head? = some SLASH then iget ROOTINO else idup cwd) >>= fun ip =>
        namexLoop parent ip path.elems := by
    unfold namex
    split <;> rfl
  rw [hnamex]
  refine Wp.step hget ?_
  intro ip s₁ hgot
  rw [path.elems_eq]
  have hfile := file_of_disk hgot.disk
  have hloop := namexLoop_walk parent (components path.val) (hwalk.step hgot.act hgot.disk)
    hgot.sess (by rwa [hgot.act.outstanding])
  rw [hgot.inum, hfile] at hloop
  apply (hloop.mono fun r s' hr => hr.after hgot.act hgot.disk).weaken
  intro e he
  exact he.before hgot.act hgot.disk

theorem format_tree (h : sb.datastart < sb.size) : FileTree 0 format := by
  have hcase : ∀ {i f}, format.file i = some f → i = ROOTINO ∧ f = ⟨T_DIR, 0, 0, 1, rootEntries⟩ := by
    intro i f hf
    rw [format_file h] at hf
    by_cases hi : i = ROOTINO
    · rw [if_pos hi] at hf
      exact ⟨hi, (Option.some.inj hf).symm⟩
    · rw [if_neg hi] at hf
      cases hf
  have hroot : (format.file ROOTINO).isSome := by
    rw [format_file h, if_pos rfl]
    rfl
  have hentries : ∀ b ∈ bindings rootEntries, b.2 = ROOTINO := by decide
  constructor
  · intro i f hf _
    obtain ⟨-, rfl⟩ := hcase hf
    refine ⟨rfl, (by decide : rootEntries.length % DIRENT = 0), fun b hb => ?_⟩
    rw [hentries b hb]
    exact sb.root_lt
  · intro i f hf _ b hb
    obtain ⟨-, rfl⟩ := hcase hf
    rw [hentries b hb]
    exact hroot
  · exact hroot
  · rintro t (ht | ht)
    · have heq : t = rootId := by
        by_contra hne
        rw [format_users, if_neg hne] at ht
        exact absurd ht (lt_irrefl 0)
      rw [heq]
      exact hroot
    · exact absurd ht (Multiset.notMem_zero t)
  · intro i f hf hn
    obtain ⟨-, rfl⟩ := hcase hf
    exact absurd hn (by decide : (1 : BitVec 16) ≠ 0)

theorem FileTree.begun (h : FileTree H s) : FileTree H s.begun :=
  ⟨h.isDir, h.target, h.root, h.held, h.quiet⟩

theorem format_room : Room 0 format := by
  refine ⟨⟨1, by decide⟩, ⟨2, by decide⟩, by decide, fun t ht => ⟨?_, Multiset.notMem_zero t⟩⟩
  rw [format_users, if_neg]
  rintro rfl
  exact absurd ht (by decide)

theorem format_lookup (h : sb.datastart < sb.size) (name : Name) :
    lookup format.file ROOTINO name = valueOf (bindings rootEntries) (key name) := by
  have hroot : format.file ROOTINO = some ⟨T_DIR, 0, 0, 1, rootEntries⟩ := by
    rw [format_file h, if_pos rfl]
  rw [lookup_of_dir hroot rfl]

/-- In an empty file system, a name that is not there has a parent. -/
theorem format_resolve (h : sb.datastart < sb.size) :
    resolve format.file true ROOTINO [DOTDOT, [97]] = some (ROOTINO, [97]) ∧
      resolve format.file false ROOTINO [DOTDOT, [97]] = none := by
  have hroot : format.file ROOTINO = some ⟨T_DIR, 0, 0, 1, rootEntries⟩ := by
    rw [format_file h, if_pos rfl]
  have hdotdot : lookup format.file ROOTINO DOTDOT = some ROOTINO := by
    rw [format_lookup h]
    decide
  have ha : lookup format.file ROOTINO [97] = none := by
    rw [format_lookup h]
    decide
  constructor
  · rw [resolve_cons (by decide), hdotdot, Option.bind_some, resolve_last hroot, if_pos rfl]
  · rw [resolve_cons (by decide), hdotdot, Option.bind_some, resolve_cons (by decide), ha,
      Option.bind_none]

end

end

def samplePath : Path := ⟨[47, 47, 46, 46, 47, 47, 97], by decide⟩

end Xv6.Fs
