import Xv6.Log.Transaction
import Xv6.Bio.Identity

/-! # Log space and pinned buffers

Every running operation has log space for the blocks it has not logged yet, the
logged blocks are the pinned ones, and nobody is in an operation while a commit
is under way.  These facts are kept by each change of `struct log`.
-/
namespace Xv6.Log.Transaction
open Disk Sched Bio Library

variable {n : ℕ}

/-- How much an operation counts in `log.outstanding`. -/
def opCount : Option (Finset BlockNo) → ℤ
  | none => 0
  | some _ => 1

/-- The log space that is still reserved for an operation. -/
def opRoom : Option (Finset BlockNo) → ℕ
  | none => 0
  | some blocks => MAXOPBLOCKS - blocks.card

@[simp] theorem opCount_none : opCount none = 0 := rfl
@[simp] theorem opCount_some (blocks : Finset BlockNo) : opCount (some blocks) = 1 := rfl
@[simp] theorem opRoom_none : opRoom none = 0 := rfl
@[simp] theorem opRoom_some (blocks : Finset BlockNo) :
    opRoom (some blocks) = MAXOPBLOCKS - blocks.card := rfl

/-- The blocks that `install_trans` has not unpinned. -/
def Data.pinned (d : Data n) : List BlockNo := d.lh.drop d.unpinned

/-- The pinned buffers are those of the logged blocks, each pinned once. -/
structure Pinned (d : Data n) : Prop where
  buf : ∀ i, 0 < d.bcache.pins i → (d.bcache.buf i).dev = ROOTDEV ∧ d.bcache.pins i = 1 ∧
    (d.bcache.buf i).blockno ∈ d.pinned
  block : ∀ b ∈ d.pinned, ∃ i, 0 < d.bcache.pins i ∧ (d.bcache.buf i).blockno = b

/-- The invariant of `struct log`, for operations that log at most `limit` blocks. -/
structure LogInv (limit : ℕ) (d : Data n) : Prop where
  cache : Consistent d.bcache
  outstanding : d.outstanding = ∑ p, opCount (d.op p)
  committer : d.committing = d.committer.isSome
  alone : d.committing = true → ∀ p, d.op p = none
  nodup : d.lh.Nodup
  reserve : d.lh.length + ∑ p, opRoom (d.op p) ≤ LOGBLOCKS
  full : d.lh.length < LOGBLOCKS
  logged : ∀ p blocks, d.op p = some blocks → blocks.card ≤ limit ∧ ∀ b ∈ blocks, b ∈ d.lh
  ended : ∀ blocks ∈ d.ended, ∀ b ∈ blocks, b ∈ d.lh
  headers : ∀ h ∈ d.headers, ∀ blocks ∈ h.2, ∀ b ∈ blocks, b ∈ h.1
  installed : d.committing = false → d.unpinned = 0
  pinned : Pinned d

theorem LogInv.init (limit : ℕ) (start : BlockNo) (disk : BitVec 32 → Block) :
    LogInv limit (Data.init start disk : Data n) where
  cache := Consistent.binit disk
  outstanding := by simp [Data.init]
  committer := rfl
  alone h := by simp [Data.init] at h
  nodup := List.nodup_nil
  reserve := by simp [Data.init]
  full := by simp [Data.init, LOGBLOCKS, MAXOPBLOCKS]
  logged p blocks h := by simp [Data.init] at h
  ended := by simp [Data.init]
  headers := by simp [Data.init]
  installed _ := rfl
  pinned := ⟨by simp [Data.init, binit], by simp [Data.init, Data.pinned]⟩

variable {limit : ℕ} {d : Data n} {p : Fin n}

/-- A process in an operation excludes a commit. -/
theorem LogInv.not_committing (h : LogInv limit d) (hp : (d.op p).isSome) :
    d.committing = false := by
  by_contra hc
  simp [h.alone (by simpa using hc) p] at hp

theorem LogInv.opCount_le (h : LogInv limit d) (p : Fin n) : opCount (d.op p) ≤ d.outstanding := by
  rw [h.outstanding]
  refine Finset.single_le_sum (f := fun q => opCount (d.op q)) (fun q _ => ?_) (Finset.mem_univ p)
  cases d.op q <;> simp

theorem LogInv.opRoom_le (h : LogInv limit d) (p : Fin n) :
    d.lh.length + opRoom (d.op p) ≤ LOGBLOCKS := by
  have hle := Finset.single_le_sum (f := fun q => opRoom (d.op q)) (fun q _ => Nat.zero_le _)
    (Finset.mem_univ p)
  have hres := h.reserve
  omega

theorem LogInv.bio (h : LogInv limit d) {e : Bio.Event n} {c' : Bcache n}
    (hm : Bio.Move d.bcache e c') (hroot : e.OnRootdev) (hpin : ¬ e.IsPin) :
    LogInv limit { d with bcache := c' } := by
  have hpins := hm.pins hpin
  have hsame : ∀ i, 0 < d.bcache.pins i → (c'.buf i).dev = (d.bcache.buf i).dev ∧
      (c'.buf i).blockno = (d.bcache.buf i).blockno := by
    intro i hi
    refine hm.identity h.cache.listed ?_
    have := h.cache.counted i
    omega
  refine { h with cache := h.cache.move hroot hm, pinned := ⟨fun i hi => ?_, fun b hb => ?_⟩ }
  · simp only [hpins] at hi ⊢
    rw [(hsame i hi).1, (hsame i hi).2]
    exact h.pinned.buf i hi
  · obtain ⟨i, hi, hblock⟩ := h.pinned.block b hb
    refine ⟨i, ?_, ?_⟩
    · simpa [hpins] using hi
    · simpa [(hsame i hi).2] using hblock

/-- No operation has more than `MAXOPBLOCKS` reserved. -/
theorem LogInv.sum_opRoom_le (h : LogInv limit d) :
    ((∑ q, opRoom (d.op q) : ℕ) : ℤ) ≤ d.outstanding * MAXOPBLOCKS := by
  rw [h.outstanding, Finset.sum_mul, Nat.cast_sum]
  refine Finset.sum_le_sum fun q _ => ?_
  cases d.op q <;> simp

theorem LogInv.begin (h : LogInv limit d) (hp : d.op p = none) (hidle : d.committing = false)
    (hroom : d.hasRoom = true) :
    LogInv limit { d with
      outstanding := d.outstanding + 1
      op := Function.update d.op p (some ∅) } := by
  have hcount := sum_comp_update_add opCount d.op p (some ∅)
  have hsum := sum_comp_update_add opRoom d.op p (some ∅)
  have hle := h.sum_opRoom_le
  simp only [hp, opCount_none, opCount_some, opRoom_none, opRoom_some, Finset.card_empty] at hcount hsum
  simp only [Data.hasRoom, decide_eq_true_eq] at hroom
  refine { h with
    outstanding := ?_, alone := fun hc => by simp [hidle] at hc, reserve := ?_, logged := ?_
    pinned := ⟨h.pinned.buf, h.pinned.block⟩ }
  · have hout := h.outstanding
    dsimp only
    omega
  · have hmul : (d.outstanding + 1) * (MAXOPBLOCKS : ℤ) = d.outstanding * MAXOPBLOCKS + MAXOPBLOCKS := by
      ring
    dsimp only
    omega
  · intro q blocks hq
    by_cases hqp : q = p
    · subst hqp
      simp only [Function.update_self, Option.some.injEq] at hq
      subst hq
      simp
    · simp only [Function.update_of_ne hqp] at hq
      exact h.logged q blocks hq

theorem Data.absorb_eq (d : Data n) (p : Fin n) {i : Fin NBUF} {b : BlockNo}
    (hb : (d.bcache.buf i).blockno = b) :
    (b ∈ d.lh ∧ d.absorb p i =
      { d with op := Function.update d.op p ((d.op p).map (insert b)) }) ∨
    (b ∉ d.lh ∧ d.absorb p i =
      { d with
        op := Function.update d.op p ((d.op p).map (insert b))
        bcache := d.bcache.bpin i
        lh := d.lh ++ [b] }) := by
  unfold Data.absorb
  simp only [hb]
  by_cases hmem : b ∈ d.lh
  · refine Or.inl ⟨hmem, ?_⟩
    have hlt := List.idxOf_lt_length_of_mem hmem
    have hset : d.lh.set (d.lh.idxOf b) b = d.lh := by
      conv_rhs => rw [← List.set_getElem_self hlt, List.getElem_idxOf]
    rw [if_neg hlt.ne, hset]
  · refine Or.inr ⟨hmem, ?_⟩
    rw [if_pos (List.idxOf_eq_length hmem)]

theorem LogInv.absorb_old (h : LogInv limit d) {b : BlockNo} {blocks : Finset BlockNo}
    (hp : d.op p = some blocks) (hcard : (insert b blocks).card ≤ limit) (hb : b ∈ d.lh) :
    LogInv limit { d with op := Function.update d.op p (some (insert b blocks)) } := by
  have hcount := sum_comp_update_add opCount d.op p (some (insert b blocks))
  have hsum := sum_comp_update_add opRoom d.op p (some (insert b blocks))
  have hle := Finset.card_le_card (Finset.subset_insert b blocks)
  have hidle := h.not_committing (p := p) (by simp [hp])
  simp only [hp, opCount_some, opRoom_some] at hcount hsum
  refine { h with
    outstanding := ?_, alone := fun hc => by simp [hidle] at hc, reserve := ?_, logged := ?_
    pinned := ⟨h.pinned.buf, h.pinned.block⟩ }
  · have hout := h.outstanding
    dsimp only
    omega
  · have hres := h.reserve
    dsimp only
    omega
  · intro q blocks' hq
    by_cases hqp : q = p
    · subst hqp
      simp only [Function.update_self, Option.some.injEq] at hq
      subst hq
      refine ⟨hcard, fun b' hb' => ?_⟩
      rcases Finset.mem_insert.1 hb' with rfl | hb'
      · exact hb
      · exact (h.logged q blocks hp).2 b' hb'
    · simp only [Function.update_of_ne hqp] at hq
      exact h.logged q blocks' hq

theorem LogInv.absorb_new (h : LogInv limit d) (hlimit : limit < MAXOPBLOCKS) {i : Fin NBUF}
    {b : BlockNo} {blocks : Finset BlockNo} (hcall : d.bcache.call p = .idle)
    (hheld : d.bcache.held p i = some b) (hp : d.op p = some blocks)
    (hcard : (insert b blocks).card ≤ limit) (hb : b ∉ d.lh) :
    LogInv limit { d with
      op := Function.update d.op p (some (insert b blocks))
      bcache := d.bcache.bpin i
      lh := d.lh ++ [b] } := by
  have hcount := sum_comp_update_add opCount d.op p (some (insert b blocks))
  have hsum := sum_comp_update_add opRoom d.op p (some (insert b blocks))
  have hidle := h.not_committing (p := p) (by simp [hp])
  have hout := h.outstanding
  have hres := h.reserve
  have hroom := h.opRoom_le p
  obtain ⟨hi, hbi⟩ := h.cache.identified.held p i b hheld
  have hlock := (h.cache.locked.lock p i).2 (Or.inr (by simp [hheld]))
  have hnew : b ∉ blocks := fun hmem => hb ((h.logged p blocks hp).2 b hmem)
  have hinsert := Finset.card_insert_of_notMem hnew
  have hunpinned := h.installed hidle
  have hpinned : d.pinned = d.lh := by simp [Data.pinned, hunpinned]
  have hpin0 : d.bcache.pins i = 0 := by
    by_contra hne
    have := (h.pinned.buf i (Nat.pos_of_ne_zero hne)).2.2
    rw [hbi, hpinned] at this
    exact hb this
  simp only [hp, opCount_some, opRoom_some] at hcount hsum hroom
  refine { h with
    cache := h.cache.move (e := .bpin p i) (by simp [Event.OnRootdev]) (.bpin hcall hlock)
    outstanding := ?_, alone := fun hc => by simp [hidle] at hc, nodup := ?_, reserve := ?_, full := ?_
    logged := ?_, ended := ?_, pinned := ⟨?_, ?_⟩ }
  · dsimp only
    omega
  · exact List.nodup_append.2 ⟨h.nodup, by simp, by
      rintro x hx y hy rfl
      exact hb (List.mem_singleton.1 hy ▸ hx)⟩
  · simp only [List.length_append, List.length_singleton]
    omega
  · simp only [List.length_append, List.length_singleton]
    omega
  · intro q blocks' hq
    by_cases hqp : q = p
    · subst hqp
      simp only [Function.update_self, Option.some.injEq] at hq
      subst hq
      refine ⟨hcard, fun b' hb' => ?_⟩
      rcases Finset.mem_insert.1 hb' with rfl | hb'
      · simp
      · exact List.mem_append_left _ ((h.logged q blocks hp).2 b' hb')
    · simp only [Function.update_of_ne hqp] at hq
      exact ⟨(h.logged q blocks' hq).1,
        fun b' hb' => List.mem_append_left _ ((h.logged q blocks' hq).2 b' hb')⟩
  · exact fun blocks' hmem b' hb' => List.mem_append_left _ (h.ended blocks' hmem b' hb')
  · intro j hj
    by_cases hji : j = i
    · subst hji
      simp [hi, hbi, hpin0, Data.pinned, hunpinned]
    · simp only [Bcache.bpin_pins, Bcache.bpin_buf, Function.update_of_ne hji] at hj ⊢
      obtain ⟨h1, h2, h3⟩ := h.pinned.buf j hj
      rw [hpinned] at h3
      exact ⟨h1, h2, by simp [Data.pinned, hunpinned, h3]⟩
  · intro b' hb'
    simp only [Data.pinned, hunpinned, List.drop_zero, List.mem_append, List.mem_singleton] at hb'
    rcases hb' with hb' | rfl
    · obtain ⟨j, hj, hbj⟩ := h.pinned.block b' (hpinned ▸ hb')
      have hji : j ≠ i := by
        rintro rfl
        omega
      exact ⟨j, by simpa [hji] using hj, by simpa [hji] using hbj⟩
    · exact ⟨i, by simp, by simpa using hbi⟩

theorem LogInv.absorb (h : LogInv limit d) (hlimit : limit < MAXOPBLOCKS) {i : Fin NBUF}
    {b : BlockNo} {blocks : Finset BlockNo} (hcall : d.bcache.call p = .idle)
    (hheld : d.bcache.held p i = some b) (hp : d.op p = some blocks)
    (hcard : (insert b blocks).card ≤ limit) : LogInv limit (d.absorb p i) := by
  rcases d.absorb_eq p (h.cache.identified.held p i b hheld).2 with ⟨hb, heq⟩ | ⟨hb, heq⟩
  · rw [heq, hp, Option.map_some]
    exact h.absorb_old hp hcard hb
  · rw [heq, hp, Option.map_some]
    exact h.absorb_new hlimit hcall hheld hp hcard hb

/-- An operation ends: its blocks are all in the log. -/
theorem LogInv.endOp (h : LogInv limit d) {blocks : Finset BlockNo} (hp : d.op p = some blocks) :
    LogInv limit { d with
      outstanding := d.outstanding - 1
      op := Function.update d.op p none
      ended := d.ended ++ [blocks] } := by
  have hcount := sum_comp_update_add opCount d.op p none
  have hsum := sum_comp_update_add opRoom d.op p none
  have hidle := h.not_committing (p := p) (by simp [hp])
  have hout := h.outstanding
  have hres := h.reserve
  simp only [hp, opCount_none, opCount_some, opRoom_none, opRoom_some] at hcount hsum
  refine { h with
    outstanding := ?_, alone := fun hc => by simp [hidle] at hc, reserve := ?_, logged := ?_
    ended := ?_, pinned := ⟨h.pinned.buf, h.pinned.block⟩ }
  · dsimp only
    omega
  · dsimp only
    omega
  · intro q blocks' hq
    by_cases hqp : q = p
    · subst hqp
      simp at hq
    · simp only [Function.update_of_ne hqp] at hq
      exact h.logged q blocks' hq
  · intro blocks' hmem b hb
    rcases List.mem_append.1 hmem with hmem | hmem
    · exact h.ended blocks' hmem b hb
    · rw [List.mem_singleton.1 hmem] at hb
      exact (h.logged p blocks hp).2 b hb

theorem LogInv.decide (h : LogInv limit d) (p : Fin n) (hout : d.outstanding = 0) :
    LogInv limit { d with committing := true, committer := some p } := by
  refine { h with
    committer := rfl, alone := fun _ q => ?_, installed := fun hc => by simp at hc
    pinned := ⟨h.pinned.buf, h.pinned.block⟩ }
  have hle := h.opCount_le q
  cases hq : d.op q with
  | none => rfl
  | some blocks => simp [hq, hout] at hle

theorem LogInv.noteHeader (h : LogInv limit d) (clear : Bool) : LogInv limit (d.noteHeader clear) := by
  cases clear with
  | true => exact h
  | false =>
    refine { h with ended := by simp [Data.noteHeader], headers := fun hd hmem => ?_
                    pinned := ⟨h.pinned.buf, h.pinned.block⟩ }
    simp only [Data.noteHeader, Bool.false_eq_true, if_false, List.mem_append,
      List.mem_singleton] at hmem
    rcases hmem with hmem | rfl
    · exact h.headers hd hmem
    · exact h.ended

theorem LogInv.unpin (h : LogInv limit d) (hc : d.committing = true) {i : Fin NBUF}
    (htail : d.unpinned < d.lh.length) (hheld : d.bcache.held p i = some (d.block d.unpinned)) :
    LogInv limit { d with bcache := d.bcache.bunpin i, unpinned := d.unpinned + 1 } := by
  obtain ⟨hi, hbi⟩ := h.cache.identified.held p i _ hheld
  have hblock : d.block d.unpinned = d.lh[d.unpinned] := by simp [Data.block, htail]
  have hsplit : d.pinned = d.block d.unpinned :: d.lh.drop (d.unpinned + 1) := by
    rw [Data.pinned, List.drop_eq_getElem_cons htail, hblock]
  have hnodup : d.pinned.Nodup := h.nodup.sublist (List.drop_sublist _ _)
  rw [hsplit, List.nodup_cons] at hnodup
  have hsame : ∀ j, 0 < d.bcache.pins j → (d.bcache.buf j).blockno = d.block d.unpinned → j = i :=
    fun j hj hb => h.cache.identified.unique j i (h.pinned.buf j hj).1 hi (hb.trans hbi.symm)
  obtain ⟨j, hj, hbj⟩ := h.pinned.block (d.block d.unpinned) (by simp [hsplit])
  obtain rfl := hsame j hj hbj
  have hone := (h.pinned.buf j hj).2.1
  refine { h with
    cache := h.cache.move (e := .bunpin j) (by simp [Event.OnRootdev]) (.bunpin hj)
    installed := fun hc' => by simp [hc] at hc', pinned := ⟨fun k hk => ?_, fun b hb => ?_⟩ }
  · have hkj : k ≠ j := by
      rintro rfl
      simp [hone] at hk
    simp only [Bcache.bunpin_pins, Bcache.bunpin_buf, Function.update_of_ne hkj] at hk ⊢
    obtain ⟨h1, h2, h3⟩ := h.pinned.buf k hk
    refine ⟨h1, h2, ?_⟩
    rw [hsplit, List.mem_cons] at h3
    exact h3.resolve_left fun hb => hkj (hsame k hk hb)
  · obtain ⟨k, hk, hbk⟩ := h.pinned.block b (by rw [hsplit]; exact List.mem_cons_of_mem _ hb)
    have hkj : k ≠ j := by
      rintro rfl
      exact hnodup.1 (by rwa [← hbj, hbk])
    exact ⟨k, by simpa [hkj] using hk, by simpa [hkj] using hbk⟩

/-- `log.lh.n = 0` once everything is unpinned. -/
theorem LogInv.clear (h : LogInv limit d) (hc : d.committing = true) (hended : d.ended = [])
    (hall : d.lh.length ≤ d.unpinned) : LogInv limit { d with lh := [], unpinned := 0 } := by
  have hnone : d.pinned = [] := by simpa [Data.pinned] using hall
  refine { h with
    nodup := List.nodup_nil, reserve := ?_, full := ?_, logged := ?_
    ended := by simp [hended], installed := fun _ => rfl, pinned := ⟨fun i hi => ?_, ?_⟩ }
  · have hres := h.reserve
    simp only [List.length_nil]
    omega
  · simp [LOGBLOCKS, MAXOPBLOCKS]
  · intro q blocks hq
    simp [h.alone hc q] at hq
  · have := (h.pinned.buf i hi).2.2
    simp [hnone] at this
  · simp [Data.pinned]

theorem LogInv.done (h : LogInv limit d) (hunpinned : d.unpinned = 0) :
    LogInv limit { d with committing := false, committer := none } :=
  { h with
    committer := rfl, alone := fun hc => by simp at hc, installed := fun _ => hunpinned
    pinned := ⟨h.pinned.buf, h.pinned.block⟩ }

end Xv6.Log.Transaction
