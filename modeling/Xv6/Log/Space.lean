import Xv6.Log.TransactionSpec

/-! # Log space and buffers for a commit

`begin_op` reserves `MAXOPBLOCKS` log blocks for each operation.  As long as no
operation logs that many, `log_write` finds the log not full and `commit` finds a
buffer besides the pinned ones.  Three operations that use their whole reservation
fill the log, and then `log_write` panics even for a block it would absorb.
-/
namespace Xv6.Log.Transaction
open Disk Sched Bio Library

variable {n : ℕ}

/-- The block that `commit` reads at a point. -/
def Data.reads (d : Data n) : Point → Option BlockNo
  | .logTo tail | .instLbuf tail => some (d.logBlock tail)
  | .logFrom tail _ | .instDbuf tail _ => some (d.block tail)
  | .headRead _ => some d.start
  | _ => none

/-- The buffer that `commit` holds when it reads a second one. -/
def Point.holds : Point → Option (Fin NBUF)
  | .logFrom _ buf | .instDbuf _ buf => some buf
  | _ => none

/-- Every buffer in use is a pinned one of a logged block, or `commit`'s own. -/
def OnlyPinned (d : Data n) (k : Point) : Prop :=
  ∀ i, 0 < (d.bcache.buf i).refcnt → 0 < d.bcache.pins i ∨ k.holds = some i

variable {limit : ℕ} {d : Data n} {p : Fin n} {k : Point}

/-- There are no more pinned buffers than logged blocks. -/
theorem LogInv.exists_unpinned (h : LogInv limit d) : ∃ i, d.bcache.pins i = 0 := by
  by_contra hall
  push Not at hall
  have hpos : ∀ i, 0 < d.bcache.pins i := fun i => Nat.pos_of_ne_zero (hall i)
  have hinj : Function.Injective fun i => (d.bcache.buf i).blockno := fun i j hij =>
    h.cache.identified.unique i j (h.pinned.buf i (hpos i)).1 (h.pinned.buf j (hpos j)).1 hij
  have hsub : Finset.univ.image (fun i => (d.bcache.buf i).blockno) ⊆ d.lh.toFinset := by
    intro b hb
    obtain ⟨i, -, rfl⟩ := Finset.mem_image.1 hb
    exact List.mem_toFinset.2 (List.mem_of_mem_drop (h.pinned.buf i (hpos i)).2.2)
  have hcard := Finset.card_le_card hsub
  rw [Finset.card_image_of_injective _ hinj, Finset.card_univ, Fintype.card_fin] at hcard
  have hlen := List.toFinset_card_le d.lh
  have hfull := h.full
  have hnbuf : NBUF = LOGBLOCKS := rfl
  omega

/-- The logged block at `tail` is cached until it is unpinned. -/
theorem LogInv.block_cached (h : LogInv limit d) {tail : ℕ} (hle : d.unpinned ≤ tail)
    (hlt : tail < d.lh.length) :
    ∃ i, (d.bcache.buf i).dev = ROOTDEV ∧ (d.bcache.buf i).blockno = d.block tail := by
  have hmem : d.block tail ∈ d.pinned := by
    have hblock : d.block tail = d.lh[tail] := by simp [Data.block, hlt]
    rw [hblock, Data.pinned, List.mem_drop_iff_getElem]
    exact ⟨tail - d.unpinned, by omega, by congr 1; omega⟩
  obtain ⟨i, hi, hb⟩ := h.pinned.block _ hmem
  exact ⟨i, (h.pinned.buf i hi).1, hb⟩

theorem LogInv.commit_bget (h : LogInv limit d) (hown : Own limit p k d) {b : BlockNo}
    (hreads : d.reads k = some b) (honly : OnlyPinned d k) :
    ∃ r, d.bcache.bget ROOTDEV b = .ok r := by
  have hunused : k.holds = none → ∃ i, (d.bcache.buf i).refcnt = 0 := by
    intro hnone
    obtain ⟨i, hi⟩ := h.exists_unpinned
    refine ⟨i, ?_⟩
    by_contra hne
    rcases honly i (Nat.pos_of_ne_zero hne) with hpin | hholds
    · omega
    · simp [hnone] at hholds
  cases k with
  | logTo tail => exact h.cache.bget_ok (Or.inr (hunused rfl))
  | instLbuf tail => exact h.cache.bget_ok (Or.inr (hunused rfl))
  | headRead clear => exact h.cache.bget_ok (Or.inr (hunused rfl))
  | logFrom tail dst =>
    obtain ⟨hunpinned, hlt⟩ := hown.commit ((hown.committer id).2 trivial)
    cases hreads
    exact h.cache.bget_ok
      (Or.inl (h.block_cached (le_of_eq_of_le hunpinned (Nat.zero_le _)) hlt))
  | instDbuf tail lbuf =>
    obtain ⟨⟨hunpinned, -, hlt⟩, -⟩ := hown.commit ((hown.committer id).2 trivial)
    cases hreads
    exact h.cache.bget_ok (Or.inl (h.block_cached (le_of_eq hunpinned) hlt))
  | _ => cases hreads

/-- While every operation logs fewer than `MAXOPBLOCKS` distinct blocks,
`log_write` does not find the log full, and `commit`'s `bread` gets a buffer if
only pinned ones are in use besides its own. -/
theorem log_space_suffices (hlimit : limit < MAXOPBLOCKS) {s : Machine n (Data n) Unit Point}
    (h : Reach (step (prog limit)) (fun _ _ => True) Initial s) :
    (∀ e, nextState (prog limit) e s ≠ .error (.panic "too big a transaction")) ∧
    ∀ p k b, s.thread p = .run k → s.data.reads k = some b → OnlyPinned s.data k →
      ∃ r, s.data.bcache.bget ROOTDEV b = .ok r := by
  have hgood := log_good hlimit h
  refine ⟨fun e => hgood.no_panic (log_sound hlimit) fun p k hk d _ hown _ => ?_,
    fun p k b ht hreads honly => ?_⟩
  · cases k with
    | panic locked msg =>
      cases hk
      exact hown.logging.1 rfl
    | _ => cases hk
  · exact LogInv.commit_bget hgood.inv (hgood.own_run ht) hreads honly

def twoIdle : Machine 2 (Data 2) Unit Point :=
  .start (.init 2 fun _ => Block.zero) fun _ => .idle

/-- A process in an operation reads a block into buffer `i` and logs it. -/
def logBlock (p : Fin 2) (i : ℕ) : List (Sched.Event 2 Input) :=
  List.flatten [[.proc p (.use (.bread (BitVec.ofNat 32 (i + 100)))), .proc p (.use .acquiresleep),
    .proc p (.use .fill)], run p 5 (.logWrite (Fin.ofNat NBUF i))]

def logTen (p : Fin 2) (i : ℕ) : List (Sched.Event 2 Input) :=
  (List.range 10).flatMap fun j => logBlock p (i + j)

/-- One operation logs a block, ends and commits; the other process is idle. -/
def oneCommit : List (Sched.Event 2 Input) :=
  List.flatten [resume 0, run 0 5 .beginOp, logBlock 0 0,
    [.proc 0 (.use (.brelse 0)), .proc 0 (.use .unref)], run 0 6 .endOp]

theorem oneCommit_space :
    (drive (step (prog 9)) oneCommit twoIdle).thread 0 = .run (.logTo 0) ∧
    ∃ r, (drive (step (prog 9)) oneCommit twoIdle).data.bcache.bget ROOTDEV 3 = .ok r := by
  have hreach : Reach (step (prog 9)) (fun _ _ => True) Initial
      (drive (step (prog 9)) oneCommit twoIdle) :=
    Reach.drive ⟨_, _, rfl⟩ fun _ _ _ => trivial
  have hrun : (drive (step (prog 9)) oneCommit twoIdle).thread 0 = .run (.logTo 0) ∧
      (drive (step (prog 9)) oneCommit twoIdle).data.reads (.logTo 0) = some 3 ∧
      ∀ i, 0 < ((drive (step (prog 9)) oneCommit twoIdle).data.bcache.buf i).refcnt →
        0 < (drive (step (prog 9)) oneCommit twoIdle).data.bcache.pins i := by
    decide +kernel
  obtain ⟨hthread, hreads, hpins⟩ := hrun
  exact ⟨hthread, (log_space_suffices (by decide) hreach).2 0 (.logTo 0) 3 hthread hreads
    fun i hi => Or.inl (hpins i hi)⟩

/-- Two operations of ten blocks while a third is open, which logs ten blocks too. -/
def threeTens : List (Sched.Event 2 Input) :=
  List.flatten [resume 0, run 0 5 .beginOp, resume 1, run 1 5 .beginOp, logTen 1 0, run 1 9 .endOp,
    run 1 4 .beginOp, logTen 1 10, logTen 0 20]

def logAgain : List (Sched.Event 2 Input) := List.flatten [threeTens, run 0 3 (.logWrite 20)]

def endAll : List (Sched.Event 2 Input) :=
  List.flatten [threeTens,
    (List.range 20).flatMap fun i =>
      [.proc 1 (.use (.brelse (Fin.ofNat NBUF i))), .proc 1 (.use .unref)],
    (List.range 10).flatMap fun i =>
      [.proc 0 (.use (.brelse (Fin.ofNat NBUF (i + 20)))), .proc 0 (.use .unref)],
    run 1 9 .endOp, run 0 7 .endOp]

/-- With `MAXOPBLOCKS` blocks for each operation, `log_write` panics on a block
that is in the log, and `commit` panics for want of a buffer. -/
theorem threeTens_panics :
    (∃ s : Machine 2 (Data 2) Unit Point,
      Reach (step (prog MAXOPBLOCKS)) (fun _ _ => True) Initial s ∧
      nextState (prog MAXOPBLOCKS) (.proc 0 .endOp) s =
        .error (.panic "too big a transaction")) ∧
    ∃ s : Machine 2 (Data 2) Unit Point,
      Reach (step (prog MAXOPBLOCKS)) (fun _ _ => True) Initial s ∧
      s.data.committing = true ∧
      nextState (prog MAXOPBLOCKS) (.proc 0 .endOp) s = .error (.panic "bget: no buffers") := by
  have hrun : (drive (step (prog MAXOPBLOCKS)) logAgain twoIdle).thread 0 =
        .run (.panic true "too big a transaction") ∧
      (drive (step (prog MAXOPBLOCKS)) endAll twoIdle).thread 0 =
        .run (.panic false "bget: no buffers") ∧
      (drive (step (prog MAXOPBLOCKS)) endAll twoIdle).data.committing = true := by decide +kernel
  obtain ⟨hagain, hend, hcommitting⟩ := hrun
  have hreach (evs) : Reach (step (prog MAXOPBLOCKS)) (fun _ _ => True) Initial
      (drive (step (prog MAXOPBLOCKS)) evs twoIdle) :=
    Reach.drive ⟨_, _, rfl⟩ fun _ _ _ => trivial
  refine ⟨⟨_, hreach logAgain, ?_⟩, ⟨_, hreach endAll, hcommitting, ?_⟩⟩
  · simp only [nextState, procStep, hagain, prog, actStep]
  · simp only [nextState, procStep, hend, prog, actStep]

end Xv6.Log.Transaction
