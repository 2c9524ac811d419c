import Xv6.Fs.Format

/-! # A file is an array of bytes

`readi` and `writei` on a loaded inode, and what a write that fails half way leaves behind.
-/
namespace Xv6.Fs
open Disk Library

section
variable [sb : Superblock] {s s' : State} {ip : InodeId} {src : List UInt8} {off n tot w : ℕ}
  {U : Set ℕ}

theorem readi_data (h : Clean s) (hip : Loaded s ip) {room : Option ℕ}
    (hroom : ∀ c ∈ room, n ≤ c) :
    readi ip room off n s = .ok
      (if (afile s ip).data.length < off ∨ (off + n) % 2 ^ 32 < off then ((0 : ℤ), [])
        else ((((afile s ip).data.drop off).take n).length, ((afile s ip).data.drop off).take n))
      s := by
  obtain ⟨r, hrun, -, heq⟩ := readi_run (h.held hip) room off n
  rw [hrun, heq hroom, length_data]
  by_cases hout : (s.itable ip).d.size < off ∨ (off + n) % 2 ^ 32 < off
  · rw [if_pos hout, if_pos hout]
  · have hlen : ((afile s ip).data.drop off).length = (s.itable ip).d.size - off := by
      rw [List.length_drop, length_data]
    have hslice : bytesAt s.disk (s.itable ip).d off (min n ((s.itable ip).d.size - off)) =
        ((afile s ip).data.drop off).take n := by
      have hle : off + min n ((s.itable ip).d.size - off) ≤ (s.itable ip).d.size := by omega
      rw [bytesAt_eq_slice _ _ hle]
      change ((afile s ip).data.drop off).take _ = _
      rw [List.take_eq_take_iff, hlen]
      omega
    rw [if_neg hout, if_neg hout, hslice, List.length_take, hlen]

theorem Written.file (h : Written ip src off n tot w U s s') : s'.file =
    Function.update s.file (s.itable ip).inum (some { afile s ip with
      data := (splice (afile s ip).data off (src.take w)).take
        (max (afile s ip).data.length (off + tot)) }) :=
  congrArg View.file h.view

theorem Written.loaded (h : Written ip src off n tot w U s s') (hip : Loaded s ip) :
    Loaded s' ip := by
  have href : (s'.itable ip).ref = (s.itable ip).ref := congrFun (congrArg View.ref h.view) ip
  have hvalid : (s'.itable ip).valid = (s.itable ip).valid :=
    congrFun (congrArg View.valid h.view) ip
  exact ⟨by rw [href]; exact hip.ref, by rw [hvalid]; exact hip.valid⟩

theorem Written.data (h : Written ip src off n tot w U s s') (hip : Loaded s ip) :
    (afile s' ip).data = (splice (afile s ip).data off (src.take w)).take
      (max (afile s ip).data.length (off + tot)) := by
  have hinum : (s'.itable ip).inum = (s.itable ip).inum := congrFun (congrArg View.inum h.view) ip
  have hself := h.clean.file_eq (h.loaded hip)
  rw [hinum, h.file, Function.update_self] at hself
  exact (congrArg Afile.data (Option.some.inj hself)).symm

omit sb in
theorem take_splice {data : List UInt8} (hoff : off ≤ data.length) (htot : tot ≤ src.length) :
    (splice data off (src.take tot)).take (max data.length (off + tot)) =
      splice data off (src.take tot) := by
  apply List.take_of_length_le
  rw [length_splice hoff, List.length_take, Nat.min_eq_left htot]

end

section
variable [sb : Superblock] {s s' : State} {ip : InodeId} {src : List UInt8} {off n tot w : ℕ}
  {U : Set ℕ}

/-- What one call of `writei` should do: when it reports `tot` bytes, only these have changed in
the file, and a block that it has not logged is still the one on disk. -/
def ChangesOnlyReported (ip : InodeId) (src : List UInt8) (off n : ℕ) (ondisk : ℕ → Block)
    (s : State) : Prop :=
  ∃ r s', writei ip src off n s = .ok r s' ∧ ∀ tot : ℕ, r = tot →
    (∀ o, o < off ∨ off + tot ≤ o → (afile s' ip).data[o]? = (afile s ip).data[o]?) ∧
    (∀ room o m, (∀ c ∈ room, m ≤ c) → readi ip room o m s' = .ok
      (if (afile s' ip).data.length < o ∨ (o + m) % 2 ^ 32 < o then ((0 : ℤ), [])
        else ((((afile s' ip).data.drop o).take m).length, ((afile s' ip).data.drop o).take m)) s') ∧
    ∀ b ∉ s'.lh, s'.disk b = ondisk b

omit sb in
theorem getElem?_splice {data : List UInt8} {o : ℕ} (hoff : off ≤ data.length)
    (ho : o < off ∨ off + src.length ≤ o) : (splice data off src)[o]? = data[o]? := by
  unfold splice
  rcases ho with ho | ho
  · rw [List.append_assoc, List.getElem?_append_left (by rw [List.length_take]; omega),
      List.getElem?_take, if_pos ho]
  · rw [List.getElem?_append_right (by rw [List.length_append, List.length_take]; omega),
      List.length_append, List.length_take, List.getElem?_drop]
    congr 1
    omega

end

section
variable [sb : Superblock]

/-! ## A write that breaks off in a block -/

/-- A new file of two bytes, in a new transaction. -/
def newFile : FsM InodeId := do
  beginOp
  let r ← ialloc T_FILE
  match r with
  | none => throw .ilock
  | some ip => do
    ilock ip
    let _ ← writei ip [1, 2] 0 2
    endOp
    beginOp
    pure ip

theorem newFile_spec (h : sb.datastart < sb.size) :
    Wp newFile format (fun ip s => Clean s ∧ Loaded s ip ∧ 1 ≤ s.outstanding) (fun _ => True) := by
  unfold newFile
  refine Wp.step_run (beginOp_run format) ?_
  have hstart : Sess 0 format.begun := ⟨(format_clean h).congr rfl rfl, (format_sess h).refs⟩
  refine Wp.step ((ialloc_spec hstart (Nat.le_add_left ..) (by decide)).weaken fun _ _ => trivial) ?_
  rintro r s₁ (⟨rfl, -⟩ | ⟨ip, inum, rfl, ha⟩)
  · exact Wp.throw trivial
  · have ho₁ : 1 ≤ s₁.outstanding := by rw [ha.act.outstanding]; exact Nat.le_add_left ..
    refine Wp.step ((ilock_spec ha.sess (ha.sess.ref_pos (Multiset.mem_cons_self ..))).weaken
      fun _ _ => trivial) fun _ s₂ hlock => ?_
    have ho₂ : 1 ≤ s₂.outstanding := by rwa [hlock.act.outstanding]
    refine Wp.step ((writei_spec [1, 2] 0 hlock.sess.clean hlock.loaded ho₂ (by decide)).weaken
      fun _ _ => trivial) fun _ s₃ hw => ?_
    have hs₃ : Clean s₃ ∧ Loaded s₃ ip := by
      rcases hw with ⟨-, -, rfl⟩ | ⟨-, tot, w, U, -, hw⟩
      · exact ⟨hlock.sess.clean, hlock.loaded⟩
      · exact ⟨hw.clean, hw.loaded hlock.loaded⟩
    refine Wp.step_run (endOp_run s₃) (Wp.step_run (beginOp_run s₃.ended) (Wp.pure ?_))
    refine ⟨hs₃.1.congr (ended_disk s₃) (ended_itable s₃), hs₃.2.congr (ended_itable s₃), ?_⟩
    exact Nat.le_add_left ..

/-- One byte of the source can be read, and two are to be written. -/
def breakOff : FsM Bool := do
  let ip ← newFile
  let before ← readi ip none 0 1
  let r ← writei ip [9] 0 2
  let after ← readi ip none 0 1
  pure (r == 0 && before.2 == [1] && after.2 == [9])

def succeeds (r : EStateM.Result Panic State Bool) : Bool :=
  match r with
  | .ok b _ => b
  | .error _ _ => false

theorem not_changesOnlyReported {s₀ : State}
    (hnew : Wp newFile s₀ (fun ip s => Clean s ∧ Loaded s ip ∧ 1 ≤ s.outstanding) fun _ => True)
    (hcheck : succeeds (breakOff s₀) = true) : ∃ s ip, Clean s ∧ Loaded s ip ∧ 1 ≤ s.outstanding ∧
      ¬ ChangesOnlyReported ip [9] 0 2 s.disk s := by
  unfold breakOff at hcheck
  cases hrun₀ : newFile s₀ with
  | error e t =>
    rw [bind_error hrun₀] at hcheck
    cases hcheck
  | ok ip s =>
    obtain ⟨hclean, hip, ho⟩ := hnew.ok hrun₀
    refine ⟨s, ip, hclean, hip, ho, ?_⟩
    rintro ⟨r, s', hrun, hrep⟩
    have hroom : ∀ c ∈ (none : Option ℕ), 1 ≤ c := by simp
    rw [bind_run hrun₀, bind_run (readi_data hclean hip hroom), bind_run hrun] at hcheck
    cases hafter : readi ip none 0 1 s' with
    | error e t =>
      rw [bind_error hafter] at hcheck
      cases hcheck
    | ok after t =>
      rw [bind_run hafter] at hcheck
      change (r == 0 && _ == [(1 : UInt8)] && after.2 == [9]) = true at hcheck
      simp only [Nat.not_lt_zero, or_self, if_false, List.drop_zero, Bool.and_eq_true,
        beq_iff_eq, Nat.zero_add, Nat.reducePow, Nat.reduceMod] at hcheck
      obtain ⟨⟨hr, hb⟩, ha⟩ := hcheck
      obtain ⟨hsame, hread, -⟩ := hrep 0 hr
      rw [hread none 0 1 hroom] at hafter
      injection hafter with hafter
      simp only [Nat.not_lt_zero, or_self, if_false, List.drop_zero, Nat.zero_add,
        Nat.reducePow, Nat.reduceMod] at hafter
      rw [← hafter] at ha
      dsimp only at ha
      have h0 := hsame 0 (Or.inr (le_refl 0))
      have hb0 : ((afile s ip).data.take 1)[0]? = some 1 := by rw [hb]; rfl
      have ha0 : ((afile s' ip).data.take 1)[0]? = some 9 := by rw [ha]; rfl
      rw [List.getElem?_take, if_pos Nat.one_pos] at hb0 ha0
      rw [hb0, ha0] at h0
      cases h0

end

end Xv6.Fs
