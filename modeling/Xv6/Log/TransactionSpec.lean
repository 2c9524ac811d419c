import Xv6.Log.Reserve
import Xv6.Sched.Rule

/-! # Interleavings of operations and commits

What each point of log.c says about `struct log` and the buffer cache.  With the
rule for condition channels it follows that no operation is left asleep in
`begin_op`, that a commit runs alone and takes the operations before it whole, and
that operations which log fewer than `MAXOPBLOCKS` blocks never fill the log.
-/
namespace Xv6.Log.Transaction
open Disk Sched Bio Library

variable {n : ℕ}

/-- The points between `acquire(&log.lock)` and `release(&log.lock)`. -/
def Holds : Point → Prop
  | .beginTest | .beginSleep | .beginUnlock | .writeTest _ | .writeAbsorb _ | .writeUnlock
  | .endCount | .endWake | .endUnlock _ | .doneClear | .doneWake | .doneUnlock => True
  | .panic locked _ => locked = true
  | _ => False

/-- The points of a process whose operation is counted in `log.outstanding`. -/
def InOp : Point → Prop
  | .beginUnlock | .op | .logWrite _ | .writeTest _ | .writeAbsorb _ | .writeUnlock | .endOp
  | .endCount => True
  | _ => False

/-- The points from the decision to commit until `log.committing = 0`. -/
def Commits : Point → Prop
  | .endUnlock doCommit => doCommit = true
  | .commit | .logLoop _ | .logTo _ | .logFrom _ _ | .logCopy _ _ _ | .logBwrite _ _ _
  | .logBrelseFrom _ _ _ | .logBrelseTo _ _ | .headRead _ | .headStore _ _ | .headBwrite _ _
  | .headBrelse _ _ | .instLoop _ | .instLbuf _ | .instDbuf _ _ | .instCopy _ _ _
  | .instBwrite _ _ _ | .instUnpin _ _ _ | .instBrelseL _ _ _ | .instBrelseD _ _ | .clear
  | .doneLock | .doneClear => True
  | _ => False

def Panicked : Point → Prop
  | .panic _ _ => True
  | _ => False

/-- The process holds the buffer it passes to `log_write`, and its operation may
log the block. -/
def MayLog (limit : ℕ) (p : Fin n) (d : Data n) (b : Fin NBUF) : Prop :=
  d.bcache.call p = .idle ∧ ∃ blockno blocks, d.bcache.held p b = some blockno ∧
    d.op p = some blocks ∧ (insert blockno blocks).card ≤ limit

/-- What a process in an operation knows, and how one can have panicked. -/
def AtOp (limit : ℕ) (p : Fin n) (d : Data n) : Point → Prop
  | .logWrite b | .writeTest b | .writeAbsorb b => MayLog limit p d b
  | .panic _ msg => msg ≠ "too big a transaction" ∧ msg ≠ "log_write outside of trans" ∧
    msg ≠ "log.committing"
  | _ => True

structure View where
  call : Call
  held : Fin NBUF → Option BlockNo
  lh : List BlockNo
  unpinned : ℕ
  ended : List (Finset BlockNo)

def Data.view (d : Data n) (p : Fin n) : View :=
  ⟨d.bcache.call p, d.bcache.held p, d.lh, d.unpinned, d.ended⟩

/-- `install_trans` is about to install block `tail`. -/
def View.Installs (v : View) (tail : ℕ) : Prop :=
  v.unpinned = tail ∧ v.ended = [] ∧ tail < v.lh.length

/-- What the committing process knows. -/
def AtCommit (v : View) : Point → Prop
  | .logTo tail | .logFrom tail _ => v.unpinned = 0 ∧ tail < v.lh.length
  | .headBrelse false _ => v.unpinned = 0 ∧ v.ended = []
  | .instLoop tail => v.unpinned = tail ∧ v.ended = []
  | .instLbuf tail => v.Installs tail
  | .instDbuf tail _ => v.Installs tail ∧
    ∀ i b, v.call = .bget i b ∨ v.call = .bread i b → b = v.lh.getD tail 0
  | .instCopy tail _ dbuf | .instBwrite tail _ dbuf | .instUnpin tail _ dbuf =>
    v.Installs tail ∧ v.held dbuf = some (v.lh.getD tail 0)
  | .instBrelseL tail _ _ | .instBrelseD tail _ => v.unpinned = tail + 1 ∧ v.ended = []
  | .clear => v.lh.length ≤ v.unpinned ∧ v.ended = []
  | .panic _ _ => True
  | _ => v.unpinned = 0

/-- What a process knows at a point, whatever the others do. -/
structure Own (limit : ℕ) (p : Fin n) (k : Point) (d : Data n) : Prop where
  op : ¬ Panicked k → ((d.op p).isSome ↔ InOp k)
  committer : ¬ Panicked k → (d.committer = some p ↔ Commits k)
  logging : AtOp limit p d k
  commit : d.committer = some p → AtCommit (d.view p) k

/-- What the sleepers in `begin_op` wait for. -/
def Ready (d : Data n) : Prop := d.committing = false ∧ d.hasRoom = true

def logSpec (limit : ℕ) : Spec n (Data n) Unit Point where
  holds := Holds
  inv := LogInv limit
  own := Own limit
  seen _ k d := k = .beginSleep → ¬ Ready d
  ready _ := Ready
  owes _ k _ := k = .endWake ∨ k = .doneWake
  cleared _ _ _ := False
  calm _ _ := False

variable {limit : ℕ} {d d' : Data n} {p q : Fin n} {k k' : Point}

theorem Own.other (h : Own limit q k d) (hop : d'.op q = d.op q)
    (hcommitter : d'.committer = some q ↔ d.committer = some q)
    (hcall : d'.bcache.call q = d.bcache.call q) (hheld : d'.bcache.held q = d.bcache.held q)
    (hlog : d.committer = some q →
      d'.lh = d.lh ∧ d'.unpinned = d.unpinned ∧ d'.ended = d.ended) : Own limit q k d' where
  op hpanic := by
    rw [hop]
    exact h.op hpanic
  committer hpanic := by
    rw [hcommitter]
    exact h.committer hpanic
  logging := by
    have hmay : ∀ b, MayLog limit q d b → MayLog limit q d' b := by
      intro b hb
      simpa [MayLog, hop, hcall, hheld] using hb
    have hl := h.logging
    cases k with
    | logWrite b => exact hmay b hl
    | writeTest b => exact hmay b hl
    | writeAbsorb b => exact hmay b hl
    | _ => exact hl
  commit hc := by
    have hc := hcommitter.1 hc
    obtain ⟨h1, h2, h3⟩ := hlog hc
    have hview : d'.view q = d.view q := by simp [Data.view, hcall, hheld, h1, h2, h3]
    rw [hview]
    exact h.commit hc

/-- What a step does that leaves the lock alone: the data stay such that nobody
in `begin_op` can go on who could not before. -/
theorem free_sound (hk : ¬ Holds k) (hk' : ¬ Holds k') (hinv : LogInv limit d')
    (hown : Own limit p k' d') (hready : Ready d' → Ready d)
    (hother : ∀ q j, q ≠ p → Own limit q j d → Own limit q j d') :
    (logSpec limit).StepSound p k k' d d' where
  holds := iff_of_false hk' hk
  calm := id
  inv := hinv
  own := hown
  seen h := absurd h hk'
  cleared _ := id
  ready h := absurd h hk
  ready_free _ _ := hready
  own_other := hother
  seen_other _ _ _ _ _ hs hj hr := hs hj (hready hr)

/-- A section of bio.c that a process enters outside of `log.lock`, with a note
of its own before it. -/
theorem bio_sound_note {d₀ : Data n} {e : Bio.Event n} {k'' : Point} (hproc : e.proc = some p)
    (hroot : e.OnRootdev) (hpin : ¬ e.IsPin) (hk : ¬ Holds k) (hk' : ¬ Holds k')
    (hinv : LogInv limit d) (hf : d.bio e k' = some (d', k'')) (hready : Ready d → Ready d₀)
    (hother : ∀ q j, q ≠ p → Own limit q j d₀ → Own limit q j d)
    (hown : ∀ c', Bio.Move d.bcache e c' → Own limit p k' { d with bcache := c' }) :
    (logSpec limit).StepSound p k k'' d₀ d' := by
  unfold Data.bio at hf
  cases hn : Bio.next e d.bcache with
  | ok c =>
    rw [hn] at hf
    cases hf
    have hm := Bio.next_cases hn
    refine free_sound hk hk' (hinv.bio hm hroot hpin) (hown c hm) hready fun q j hq ho => ?_
    obtain ⟨hcall, hheld⟩ := hm.frame (q := q) fun hc => by
      rw [hproc] at hc
      exact hq (Option.some.inj hc).symm
    exact (hother q j hq ho).other rfl Iff.rfl hcall hheld fun _ => ⟨rfl, rfl, rfl⟩
  | error err =>
    rw [hn] at hf
    cases err with
    | blocked => cases hf
    | panic msg =>
      cases hf
      have hmsg := Bio.next_panic hn
      refine free_sound hk (by simp [Holds]) hinv ⟨?_, ?_, ?_, fun _ => trivial⟩ hready hother
      · exact fun h => absurd trivial h
      · exact fun h => absurd trivial h
      · rcases hmsg with rfl | rfl | rfl <;> exact ⟨by decide, by decide, by decide⟩

theorem bio_sound {e : Bio.Event n} {k'' : Point} (hproc : e.proc = some p) (hroot : e.OnRootdev)
    (hpin : ¬ e.IsPin) (hk : ¬ Holds k) (hk' : ¬ Holds k') (hinv : LogInv limit d)
    (hf : d.bio e k' = some (d', k''))
    (hown : ∀ c', Bio.Move d.bcache e c' → Own limit p k' { d with bcache := c' }) :
    (logSpec limit).StepSound p k k'' d d' :=
  bio_sound_note hproc hroot hpin hk hk' hinv hf id (fun _ _ _ => id) hown

section Commit

/-- The points where a process commits without holding `log.lock`. -/
structure Busy (k : Point) : Prop where
  commits : Commits k
  free : ¬ Holds k

theorem Busy.outside (h : Busy k) : ¬ InOp k := by
  obtain ⟨hc, hf⟩ := h
  cases k <;> first | exact id | exact hc.elim

theorem Busy.alive (h : Busy k) : ¬ Panicked k := by
  obtain ⟨hc, hf⟩ := h
  cases k <;> first | exact id | exact hc.elim

theorem Busy.logging (h : Busy k) (limit : ℕ) (p : Fin n) (d : Data n) : AtOp limit p d k := by
  obtain ⟨hc, hf⟩ := h
  cases k <;> first | exact hc.elim | exact trivial

theorem Own.is_committer (h : Own limit p k d) (hk : Busy k) : d.committer = some p :=
  (h.committer hk.alive).2 hk.commits

theorem Own.busy (h : Own limit p k d) (hk : Busy k) (hk' : Busy k') (hop : d'.op p = d.op p)
    (hcommitter : d'.committer = d.committer) (hcommit : AtCommit (d'.view p) k') :
    Own limit p k' d' where
  op _ := by
    rw [hop, h.op hk.alive]
    exact iff_of_false hk.outside hk'.outside
  committer _ := by
    rw [hcommitter, h.committer hk.alive]
    exact iff_of_true hk.commits hk'.commits
  logging := hk'.logging limit p d'
  commit _ := hcommit

/-- The committing process changes what only it uses now. -/
theorem Own.beside {j : Point} (h : Own limit q j d) (hcommitter : d.committer = some p) (hq : q ≠ p)
    (hop : d'.op q = d.op q) (hcommitter' : d'.committer = some p ∨ d'.committer = none)
    (hcall : d'.bcache.call q = d.bcache.call q) (hheld : d'.bcache.held q = d.bcache.held q) :
    Own limit q j d' := by
  have hne : d.committer ≠ some q := by
    rw [hcommitter]
    exact fun hc => hq (Option.some.inj hc).symm
  refine h.other hop (iff_of_false ?_ hne) hcall hheld fun hc => absurd hc hne
  rcases hcommitter' with hc | hc <;> rw [hc]
  · exact fun hc => hq (Option.some.inj hc).symm
  · simp

variable (hk : Busy k) (hinv : LogInv limit d) (hown : Own limit p k d)

include hk hinv hown

theorem busy_look (hk' : Busy k') (hcommit : AtCommit (d.view p) k') :
    (logSpec limit).StepSound p k k' d d :=
  free_sound hk.free hk'.free hinv (hown.busy hk hk' rfl rfl hcommit) id fun _ _ _ ho => ho

theorem busy_bio {e : Bio.Event n} {k'' : Point} (hf : d.bio e k' = some (d', k''))
    (hk' : Busy k') (hproc : e.proc = some p) (hroot : e.OnRootdev) (hpin : ¬ e.IsPin)
    (hcommit : ∀ c', Bio.Move d.bcache e c' → AtCommit ({ d with bcache := c' }.view p) k') :
    (logSpec limit).StepSound p k k'' d d' :=
  bio_sound hproc hroot hpin hk.free hk'.free hinv hf fun c' hm =>
    hown.busy hk hk' rfl rfl (hcommit c' hm)

theorem busy_bread {b : BlockNo} {next : Fin NBUF → Point} {k'' : Point}
    (hf : d.bread p b k next = some (d', k'')) (hk' : ∀ i, Busy (next i))
    (hstay : ∀ c' : Bcache n, (∀ i b', c'.call p = .bget i b' ∨ c'.call p = .bread i b' →
      b' = b ∨ d.bcache.call p = .bget i b') → AtCommit ({ d with bcache := c' }.view p) k)
    (hnext : ∀ (c' : Bcache n) i b', d.bcache.call p = .bread i b' → c'.call p = .idle →
      c'.held p i = some b' → AtCommit ({ d with bcache := c' }.view p) (next i)) :
    (logSpec limit).StepSound p k k'' d d' := by
  unfold Data.bread at hf
  cases hcall : d.bcache.call p with
  | idle =>
    rw [hcall] at hf
    refine busy_bio hk hinv hown hf hk rfl (fun _ _ _ h => by cases h; rfl) id fun c' hm => ?_
    refine hstay c' fun i b' hb => Or.inl ?_
    cases hm <;> simp at hb <;> exact hb.2.symm
  | bget i b' =>
    rw [hcall] at hf
    refine busy_bio hk hinv hown hf hk rfl (by simp [Event.OnRootdev]) id fun c' hm => ?_
    refine hstay c' fun j b'' hb => Or.inr ?_
    cases hm with
    | acquiresleep hp hl => simp_all
  | bread i b' =>
    rw [hcall] at hf
    refine busy_bio hk hinv hown hf (hk' i) rfl (by simp [Event.OnRootdev]) id fun c' hm => ?_
    refine hnext c' i b' hcall ?_ ?_
    · cases hm <;> simp
    · cases hm <;> simp_all
  | brelse i =>
    rw [hcall] at hf
    cases hf

theorem busy_brelse {i : Fin NBUF} {k'' : Point} (hf : d.brelse p i k k' = some (d', k''))
    (hk' : Busy k')
    (hcommit : ∀ c' : Bcache n, AtCommit ({ d with bcache := c' }.view p) k ∧
      AtCommit ({ d with bcache := c' }.view p) k') :
    (logSpec limit).StepSound p k k'' d d' := by
  unfold Data.brelse at hf
  split at hf
  · exact busy_bio hk hinv hown hf hk rfl (by simp [Event.OnRootdev]) id fun c' _ => (hcommit c').1
  · exact busy_bio hk hinv hown hf hk' rfl (by simp [Event.OnRootdev]) id fun c' _ => (hcommit c').2
  · cases hf

end Commit

section Locked

/-- A step under `log.lock`: what makes room in the log is followed by a wakeup. -/
theorem locked_sound (hk : Holds k) (hk' : Holds k') (hinv : LogInv limit d')
    (hown : Own limit p k' d') (hseen : k' = .beginSleep → ¬ Ready d')
    (hready : Ready d' → (k' = .endWake ∨ k' = .doneWake) ∨
      (Ready d ∧ ¬ (k = .endWake ∨ k = .doneWake)))
    (hother : ∀ q j, q ≠ p → Own limit q j d → Own limit q j d') :
    (logSpec limit).StepSound p k k' d d' where
  holds := iff_of_true hk' hk
  calm := id
  inv := hinv
  own := hown
  seen _ := hseen
  cleared _ := id
  ready _ _ hr := (hready hr).imp_right Or.inr
  ready_free h := absurd hk h
  own_other := hother
  seen_other h := absurd hk h

theorem beginStep_sound (hinv : LogInv limit d) (hown : Own limit p .beginTest d)
    (hf : d.beginStep p = (d', k')) : (logSpec limit).StepSound p .beginTest k' d d' := by
  have hnone : d.op p = none := by simpa [InOp] using hown.op id
  have hnot : d.committer ≠ some p := fun hc => (hown.committer id).1 hc
  have hsleep : ¬ Ready d → (logSpec limit).StepSound p .beginTest .beginSleep d d := by
    intro hr
    refine locked_sound trivial trivial hinv ?_ (fun _ => hr) (fun h => absurd h hr)
      fun _ _ _ ho => ho
    exact ⟨hown.op, hown.committer, trivial, fun hc => absurd hc hnot⟩
  unfold Data.beginStep at hf
  split at hf
  · rename_i hc
    cases hf
    exact hsleep fun hr => by simp [hr.1] at hc
  · rename_i hc
    have hidle : d.committing = false := by simpa using hc
    split at hf
    · rename_i hroom
      cases hf
      refine locked_sound trivial trivial (hinv.begin hnone hidle hroom) ?_ (by simp)
        (fun _ => Or.inr ⟨⟨hidle, hroom⟩, by simp⟩) fun q j hq ho => ?_
      · refine ⟨fun _ => by simp [InOp], hown.committer, trivial, fun hc => absurd hc hnot⟩
      · exact ho.other (by simp [hq]) Iff.rfl rfl rfl fun _ => ⟨rfl, rfl, rfl⟩
    · rename_i hroom
      cases hf
      exact hsleep fun hr => hroom hr.2

theorem writeStep_eq (hinv : LogInv limit d) (hp : (d.op p).isSome) (b : Fin NBUF) :
    d.writeStep b = .writeAbsorb b := by
  obtain ⟨blocks, hp⟩ := Option.isSome_iff_exists.1 hp
  have hcount := hinv.opCount_le p
  rw [hp, opCount_some] at hcount
  have hfull := hinv.full
  rw [Data.writeStep, if_neg (by omega), if_neg (by omega)]

theorem absorb_sound (hlimit : limit < MAXOPBLOCKS) (hinv : LogInv limit d) {b : Fin NBUF}
    (hown : Own limit p (.writeAbsorb b) d) :
    (logSpec limit).StepSound p (.writeAbsorb b) .writeUnlock d (d.absorb p b) := by
  obtain ⟨hcall, blockno, blocks, hheld, hp, hcard⟩ := hown.logging
  have hidle := hinv.not_committing (p := p) (by simp [hp])
  have hnone : d.committer = none := by
    have := hinv.committer
    rw [hidle] at this
    simpa using this.symm
  have hsame : (d.absorb p b).committing = d.committing ∧
      (d.absorb p b).outstanding = d.outstanding ∧ (d.absorb p b).committer = d.committer ∧
      (d.absorb p b).op = Function.update d.op p (some (insert blockno blocks)) ∧
      (d.absorb p b).bcache.call = d.bcache.call ∧ (d.absorb p b).bcache.held = d.bcache.held ∧
      d.lh.length ≤ (d.absorb p b).lh.length := by
    rcases d.absorb_eq p (hinv.cache.identified.held p b _ hheld).2 with ⟨-, heq⟩ | ⟨-, heq⟩ <;>
      simp [heq, hp]
  obtain ⟨h1, h2, h3, h4, h5, h6, h7⟩ := hsame
  refine locked_sound trivial trivial (hinv.absorb hlimit hcall hheld hp hcard) ?_ (by simp)
    (fun hr => Or.inr ⟨?_, by simp⟩) fun q j hq ho => ?_
  · exact ⟨fun _ => by simp [h4, InOp], fun _ => by simp [h3, hnone, Commits], trivial,
      fun hc => by simp [h3, hnone] at hc⟩
  · obtain ⟨hc, hroom⟩ := hr
    refine ⟨h1 ▸ hc, ?_⟩
    simp only [Data.hasRoom, h2, decide_eq_true_eq] at hroom ⊢
    omega
  · exact ho.other (by simp [h4, hq]) (by rw [h3]) (by rw [h5]) (by rw [h6])
      fun hc => by simp [hnone] at hc

theorem endStep_sound (hinv : LogInv limit d) (hown : Own limit p .endCount d)
    (hf : d.endStep p = (d', k')) : (logSpec limit).StepSound p .endCount k' d d' := by
  obtain ⟨blocks, hp⟩ := Option.isSome_iff_exists.1 ((hown.op id).2 trivial)
  have hidle := hinv.not_committing (p := p) (by simp [hp])
  have hnone : d.committer = none := by
    have := hinv.committer
    rw [hidle] at this
    simpa using this.symm
  have hend := hinv.endOp hp
  unfold Data.endStep at hf
  dsimp only at hf
  rw [if_neg (by simp [hidle]), hp, Option.getD_some] at hf
  split at hf
  · rename_i hzero
    cases hf
    refine locked_sound trivial trivial (hend.decide p hzero) ?_ (by simp)
      (fun hr => by simp [Ready] at hr) fun q j hq ho => ?_
    · refine ⟨fun _ => by simp [InOp], fun _ => by simp [Commits], trivial, fun _ => ?_⟩
      exact hinv.installed hidle
    · refine ho.other (by simp [hq]) ?_ rfl rfl fun hc => by simp [hnone] at hc
      simp [hnone, Ne.symm hq]
  · cases hf
    refine locked_sound trivial trivial hend ?_ (by simp) (fun _ => Or.inl (Or.inl rfl))
      fun q j hq ho => ?_
    · exact ⟨fun _ => by simp [InOp], fun _ => by simp [hnone, Commits], trivial,
        fun hc => by simp [hnone] at hc⟩
    · exact ho.other (by simp [hq]) Iff.rfl rfl rfl fun hc => by simp [hnone] at hc

theorem doneClear_sound (hinv : LogInv limit d) (hown : Own limit p .doneClear d) :
    (logSpec limit).StepSound p .doneClear .doneWake d
      { d with committing := false, committer := none } := by
  have hcommitter := (hown.committer id).2 trivial
  have hunpinned : d.unpinned = 0 := hown.commit hcommitter
  refine locked_sound trivial trivial (hinv.done hunpinned) ?_ (by simp)
    (fun _ => Or.inl (Or.inr rfl)) fun q j hq ho => ?_
  · exact ⟨hown.op, fun _ => by simp [Commits], trivial, fun hc => by simp at hc⟩
  · exact ho.beside hcommitter hq rfl (Or.inr rfl) rfl rfl

end Locked

section Program

/-- `write_head` writes the header block; the first time that ends the batch. -/
theorem headBwrite_sound {clear : Bool} {buf : Fin NBUF} {k'' : Point} (hinv : LogInv limit d)
    (hown : Own limit p (.headBwrite clear buf) d)
    (hf : (d.noteHeader clear).bio (.bwrite p buf) (.headBrelse clear buf) = some (d', k'')) :
    (logSpec limit).StepSound p (.headBwrite clear buf) k'' d d' := by
  have hb : Busy (.headBwrite clear buf) := ⟨trivial, id⟩
  have hb' : Busy (.headBrelse clear buf) := ⟨trivial, id⟩
  have hcommitter := hown.is_committer hb
  have hcommit := hown.commit hcommitter
  cases clear with
  | true => exact busy_bio hb hinv hown hf hb' rfl (by simp [Event.OnRootdev]) id fun _ _ => hcommit
  | false =>
    refine bio_sound_note rfl (by simp [Event.OnRootdev]) id hb.free hb'.free (hinv.noteHeader false)
      hf id ?_ fun c' _ => hown.busy hb hb' rfl rfl ⟨hcommit, rfl⟩
    exact fun q j hq ho => ho.beside hcommitter hq rfl (Or.inl hcommitter) rfl rfl

theorem unpin_sound {tail : ℕ} {lbuf dbuf : Fin NBUF} (hinv : LogInv limit d)
    (hown : Own limit p (.instUnpin tail lbuf dbuf) d) :
    (logSpec limit).StepSound p (.instUnpin tail lbuf dbuf) (.instBrelseL tail lbuf dbuf) d
      { d with bcache := d.bcache.bunpin dbuf, unpinned := d.unpinned + 1 } := by
  have hb : Busy (.instUnpin tail lbuf dbuf) := ⟨trivial, id⟩
  have hb' : Busy (.instBrelseL tail lbuf dbuf) := ⟨trivial, id⟩
  have hcommitter := hown.is_committer hb
  obtain ⟨⟨htail, hended, hlt⟩, hheld⟩ := hown.commit hcommitter
  have hc : d.committing = true := by rw [hinv.committer, hcommitter]; rfl
  subst htail
  refine free_sound hb.free hb'.free (hinv.unpin hc hlt hheld)
    (hown.busy hb hb' rfl rfl ⟨rfl, hended⟩) id fun q j hq ho => ?_
  exact ho.beside hcommitter hq rfl (Or.inl hcommitter) rfl rfl

theorem clear_sound (hinv : LogInv limit d) (hown : Own limit p .clear d) :
    (logSpec limit).StepSound p .clear (.headRead true) d { d with lh := [], unpinned := 0 } := by
  have hb : Busy .clear := ⟨trivial, id⟩
  have hb' : Busy (.headRead true) := ⟨trivial, id⟩
  have hcommitter := hown.is_committer hb
  obtain ⟨hall, hended⟩ := hown.commit hcommitter
  have hc : d.committing = true := by rw [hinv.committer, hcommitter]; rfl
  refine free_sound hb.free hb'.free (hinv.clear hc hended hall)
    (hown.busy hb hb' rfl rfl rfl) (fun hr => ?_) fun q j hq ho => ?_
  · have := hr.1
    simp [hc] at this
  · exact ho.beside hcommitter hq rfl (Or.inl hcommitter) rfl rfl

theorem Use.event_ok (u : Use) (p : Fin n) :
    (u.event p).proc = some p ∧ (u.event p).OnRootdev ∧ ¬ (u.event p).IsPin := by
  cases u <;> simp [Use.event, Bio.Event.proc, Event.OnRootdev, Event.IsPin]

theorem use_sound {u : Use} {k'' : Point} (hk : k = .idle ∨ k = .op) (hinv : LogInv limit d)
    (hown : Own limit p k d) (hf : d.bio (u.event p) k = some (d', k'')) :
    (logSpec limit).StepSound p k k'' d d' := by
  obtain ⟨hproc, hroot, hpin⟩ := u.event_ok p
  have hfree : ¬ Holds k := by rcases hk with rfl | rfl <;> exact id
  refine bio_sound hproc hroot hpin hfree hfree hinv hf fun c' _ => ?_
  rcases hk with rfl | rfl
  · exact ⟨hown.op, hown.committer, trivial, fun hc => absurd ((hown.committer id).1 hc) id⟩
  · exact ⟨hown.op, hown.committer, trivial, fun hc => absurd ((hown.committer id).1 hc) id⟩

/-- A process that does not commit goes on; the data stay as they are. -/
theorem Own.step (h : Own limit p k d) (hpanic : ¬ Panicked k) (hin : InOp k' ↔ InOp k)
    (hcommits : ¬ Commits k) (hcommits' : ¬ Commits k') (hlogging : AtOp limit p d k') :
    Own limit p k' d := by
  have hnot : d.committer ≠ some p := fun hc => hcommits ((h.committer hpanic).1 hc)
  exact ⟨fun _ => by rw [hin]; exact h.op hpanic, fun _ => iff_of_false hnot hcommits', hlogging,
    fun hc => absurd hc hnot⟩

theorem op_sound {x : Input} (hinv : LogInv limit d) (hown : Own limit p .op d)
    (hf : (match x with
      | .use u => d.bio (u.event p) .op
      | .logWrite b =>
        match d.bcache.held p b, d.op p with
        | some blockno, some blocks =>
          if d.bcache.call p = .idle ∧ (insert blockno blocks).card ≤ limit then some (d, .logWrite b)
          else none
        | _, _ => none
      | .endOp => if d.bcache.call p = .idle then some (d, .endOp) else none
      | .beginOp => none) = some (d', k')) : (logSpec limit).StepSound p .op k' d d' := by
  cases x with
  | use u => exact use_sound (Or.inr rfl) hinv hown hf
  | beginOp => cases hf
  | logWrite b =>
    dsimp only at hf
    split at hf
    · split at hf
      · rename_i blockno blocks hheld hp hmay
        cases hf
        refine free_sound id id hinv ?_ id fun _ _ _ ho => ho
        exact hown.step id Iff.rfl id id ⟨hmay.1, blockno, blocks, hheld, hp, hmay.2⟩
      · cases hf
    · cases hf
  | endOp =>
    dsimp only at hf
    split at hf <;> cases hf
    exact free_sound id id hinv (hown.step id Iff.rfl id id trivial) id fun _ _ _ ho => ho

theorem idle_sound {x : Input} (hinv : LogInv limit d) (hown : Own limit p .idle d)
    (hf : (match x with
      | .use u => d.bio (u.event p) .idle
      | .beginOp => if d.bcache.call p = .idle then some (d, .beginOp) else none
      | _ => none) = some (d', k')) : (logSpec limit).StepSound p .idle k' d d' := by
  cases x with
  | use u => exact use_sound (Or.inl rfl) hinv hown hf
  | beginOp =>
    dsimp only at hf
    split at hf <;> cases hf
    exact free_sound id id hinv (hown.step id Iff.rfl id id trivial) id fun _ _ _ ho => ho
  | logWrite b => cases hf
  | endOp => cases hf

theorem entry_of (hk : Holds k) (hsleep : k ≠ .beginSleep) :
    (logSpec (n := n) limit).Entry p k :=
  ⟨hk, fun _ => id, id, fun _ _ _ h => absurd h hsleep⟩

theorem commit_sound (hk : Busy k) (hlock : k ≠ .doneLock) :
    (logSpec limit).ActSound p k (prog limit p k) := by
  cases k with
  | commit =>
    intro x d d' k' hf hinv hown _
    cases hf
    have hcommit := hown.commit (hown.is_committer hk)
    split
    · exact busy_look hk hinv hown ⟨trivial, id⟩ hcommit
    · exact busy_look hk hinv hown ⟨trivial, id⟩ hcommit
  | logLoop tail =>
    intro x d d' k' hf hinv hown _
    cases hf
    have hcommit := hown.commit (hown.is_committer hk)
    split
    · rename_i hlt
      exact busy_look hk hinv hown ⟨trivial, id⟩ ⟨hcommit, hlt⟩
    · exact busy_look hk hinv hown ⟨trivial, id⟩ hcommit
  | logTo tail =>
    intro x d d' k' hf hinv hown _
    have hcommit := hown.commit (hown.is_committer hk)
    exact busy_bread hk hinv hown hf (fun _ => ⟨trivial, id⟩) (fun _ _ => hcommit)
      fun _ _ _ _ _ _ => hcommit
  | logFrom tail dst =>
    intro x d d' k' hf hinv hown _
    have hcommit := hown.commit (hown.is_committer hk)
    exact busy_bread hk hinv hown hf (fun _ => ⟨trivial, id⟩) (fun _ _ => hcommit)
      fun _ _ _ _ _ _ => hcommit.1
  | logCopy tail dst src =>
    intro x d d' k' hf hinv hown _
    have hcommit := hown.commit (hown.is_committer hk)
    exact busy_bio hk hinv hown hf ⟨trivial, id⟩ rfl (by simp [Event.OnRootdev]) id
      fun _ _ => hcommit
  | logBwrite tail dst src =>
    intro x d d' k' hf hinv hown _
    have hcommit := hown.commit (hown.is_committer hk)
    exact busy_bio hk hinv hown hf ⟨trivial, id⟩ rfl (by simp [Event.OnRootdev]) id
      fun _ _ => hcommit
  | logBrelseFrom tail dst src =>
    intro x d d' k' hf hinv hown _
    have hcommit := hown.commit (hown.is_committer hk)
    exact busy_brelse hk hinv hown hf ⟨trivial, id⟩ fun _ => ⟨hcommit, hcommit⟩
  | logBrelseTo tail dst =>
    intro x d d' k' hf hinv hown _
    have hcommit := hown.commit (hown.is_committer hk)
    exact busy_brelse hk hinv hown hf ⟨trivial, id⟩ fun _ => ⟨hcommit, hcommit⟩
  | headRead clear =>
    intro x d d' k' hf hinv hown _
    have hcommit := hown.commit (hown.is_committer hk)
    refine busy_bread hk hinv hown hf (fun _ => ⟨trivial, id⟩) ?_ ?_
    · cases clear <;> exact fun _ _ => hcommit
    · cases clear <;> exact fun _ _ _ _ _ _ => hcommit
  | headStore clear buf =>
    intro x d d' k' hf hinv hown _
    have hcommit := hown.commit (hown.is_committer hk)
    refine busy_bio hk hinv hown hf ⟨trivial, id⟩ rfl (by simp [Event.OnRootdev]) id ?_
    cases clear <;> exact fun _ _ => hcommit
  | headBwrite clear buf =>
    intro x d d' k' hf hinv hown _
    exact headBwrite_sound hinv hown hf
  | headBrelse clear buf =>
    intro x d d' k' hf hinv hown _
    have hcommit := hown.commit (hown.is_committer hk)
    cases clear with
    | true => exact busy_brelse hk hinv hown hf ⟨trivial, id⟩ fun _ => ⟨hcommit, hcommit⟩
    | false => exact busy_brelse hk hinv hown hf ⟨trivial, id⟩ fun _ => ⟨hcommit, hcommit⟩
  | instLoop tail =>
    intro x d d' k' hf hinv hown _
    cases hf
    have hcommit := hown.commit (hown.is_committer hk)
    split
    · rename_i hlt
      exact busy_look hk hinv hown ⟨trivial, id⟩ ⟨hcommit.1, hcommit.2, hlt⟩
    · rename_i hlt
      refine busy_look hk hinv hown ⟨trivial, id⟩ ⟨?_, hcommit.2⟩
      exact hcommit.1 ▸ not_lt.1 hlt
  | instLbuf tail =>
    intro x d d' k' hf hinv hown _
    have hcommit := hown.commit (hown.is_committer hk)
    refine busy_bread hk hinv hown hf (fun _ => ⟨trivial, id⟩) (fun _ _ => hcommit) ?_
    intro c' i b' _ hidle _
    refine ⟨hcommit, fun j b hcall => ?_⟩
    simp [Data.view, hidle] at hcall
  | instDbuf tail lbuf =>
    intro x d d' k' hf hinv hown _
    obtain ⟨hinst, hcall⟩ := hown.commit (hown.is_committer hk)
    refine busy_bread hk hinv hown hf (fun _ => ⟨trivial, id⟩) ?_ ?_
    · intro c' hc'
      refine ⟨hinst, fun i b hb => ?_⟩
      rcases hc' i b hb with rfl | hold
      · rfl
      · exact hcall i b (Or.inl hold)
    · intro c' i b hold _ hheld
      refine ⟨hinst, ?_⟩
      rw [hcall i b (Or.inr hold)] at hheld
      exact hheld
  | instCopy tail lbuf dbuf =>
    intro x d d' k' hf hinv hown _
    have hcommit := hown.commit (hown.is_committer hk)
    refine busy_bio hk hinv hown hf ⟨trivial, id⟩ rfl (by simp [Event.OnRootdev]) id ?_
    intro c' hm
    cases hm
    exact hcommit
  | instBwrite tail lbuf dbuf =>
    intro x d d' k' hf hinv hown _
    have hcommit := hown.commit (hown.is_committer hk)
    refine busy_bio hk hinv hown hf ⟨trivial, id⟩ rfl (by simp [Event.OnRootdev]) id ?_
    intro c' hm
    cases hm
    exact hcommit
  | instUnpin tail lbuf dbuf =>
    intro x d d' k' hf hinv hown _
    cases hf
    exact unpin_sound hinv hown
  | instBrelseL tail lbuf dbuf =>
    intro x d d' k' hf hinv hown _
    have hcommit := hown.commit (hown.is_committer hk)
    exact busy_brelse hk hinv hown hf ⟨trivial, id⟩ fun _ => ⟨hcommit, hcommit⟩
  | instBrelseD tail dbuf =>
    intro x d d' k' hf hinv hown _
    have hcommit := hown.commit (hown.is_committer hk)
    exact busy_brelse hk hinv hown hf ⟨trivial, id⟩ fun _ => ⟨hcommit, hcommit⟩
  | clear =>
    intro x d d' k' hf hinv hown _
    cases hf
    exact clear_sound hinv hown
  | doneLock => exact absurd rfl hlock
  | endUnlock _ => exact absurd trivial hk.free
  | doneClear => exact absurd trivial hk.free
  | _ => exact hk.commits.elim

theorem log_sound (hlimit : limit < MAXOPBLOCKS) : (logSpec limit).Sound (prog (n := n) limit) where
  calm _ _ h := h.elim
  act p k := by
    cases k with
    | idle =>
      intro x d d' k' hf hinv hown _
      exact idle_sound hinv hown hf
    | beginOp =>
      exact ⟨id, entry_of trivial (by simp), fun d _ ho => ho.step id Iff.rfl id id trivial⟩
    | beginTest =>
      intro x d d' k' hf hinv hown _
      exact beginStep_sound hinv hown (Option.some.inj hf)
    | beginSleep =>
      refine ⟨trivial, entry_of trivial (by simp), by simp [logSpec], fun d _ ho hs => ?_⟩
      exact ⟨hs rfl, ho.step id Iff.rfl id id trivial⟩
    | beginUnlock =>
      exact ⟨trivial, id, by simp [logSpec], fun d _ ho _ => ho.step id Iff.rfl id id trivial⟩
    | op =>
      intro x d d' k' hf hinv hown _
      exact op_sound hinv hown hf
    | logWrite b =>
      exact ⟨id, entry_of trivial (by simp), fun d _ ho => ho.step id Iff.rfl id id ho.logging⟩
    | writeTest b =>
      intro x d d' k' hf hinv hown _
      have hstep := writeStep_eq hinv ((hown.op id).2 trivial) b
      simp only [hstep] at hf
      cases hf
      exact locked_sound trivial trivial hinv (hown.step id Iff.rfl id id hown.logging) (by simp)
        (fun hr => Or.inr ⟨hr, by simp⟩) fun _ _ _ ho => ho
    | writeAbsorb b =>
      intro x d d' k' hf hinv hown _
      cases hf
      exact absorb_sound hlimit hinv hown
    | writeUnlock =>
      exact ⟨trivial, id, by simp [logSpec], fun d _ ho _ => ho.step id Iff.rfl id id trivial⟩
    | endOp =>
      exact ⟨id, entry_of trivial (by simp), fun d _ ho => ho.step id Iff.rfl id id trivial⟩
    | endCount =>
      intro x d d' k' hf hinv hown _
      exact endStep_sound hinv hown (Option.some.inj hf)
    | endWake =>
      refine ⟨trivial, trivial, fun c _ => Or.inr rfl, fun _ h => Or.inl h, id, fun d _ ho _ => ?_⟩
      exact ⟨ho.step id Iff.rfl id (by simp [Commits]) trivial, by simp [logSpec]⟩
    | endUnlock doCommit =>
      refine ⟨trivial, ?_, by simp [logSpec], fun d _ ho _ => ?_⟩
      · cases doCommit <;> exact id
      · cases doCommit with
        | false => exact ho.step id Iff.rfl (by simp [Commits]) id trivial
        | true =>
          have hcommitter : d.committer = some p := (ho.committer id).2 rfl
          exact ⟨ho.op, fun _ => iff_of_true hcommitter trivial, trivial, ho.commit⟩
    | doneLock =>
      exact ⟨id, entry_of trivial (by simp),
        fun d _ ho => ⟨ho.op, ho.committer, trivial, ho.commit⟩⟩
    | doneClear =>
      intro x d d' k' hf hinv hown _
      cases hf
      exact doneClear_sound hinv hown
    | doneWake =>
      refine ⟨trivial, trivial, fun c _ => Or.inr rfl, fun _ h => Or.inl h, id, fun d _ ho _ => ?_⟩
      exact ⟨ho.step id Iff.rfl id id trivial, by simp [logSpec]⟩
    | doneUnlock =>
      exact ⟨trivial, id, by simp [logSpec], fun d _ ho _ => ho.step id Iff.rfl id id trivial⟩
    | panic locked msg => trivial
    | _ => exact commit_sound ⟨trivial, id⟩ (by simp)

theorem Data.bio_op {e : Bio.Event n} {k'' : Point} (h : d.bio e k = some (d', k'')) :
    d'.op = d.op := by
  unfold Data.bio at h
  split at h <;> cases h <;> rfl

theorem Data.bread_op {b : BlockNo} {next : Fin NBUF → Point} {k'' : Point}
    (h : d.bread p b k next = some (d', k'')) : d'.op = d.op := by
  unfold Data.bread at h
  split at h
  · exact Data.bio_op h
  · exact Data.bio_op h
  · exact Data.bio_op h
  · cases h

theorem Data.brelse_op {i : Fin NBUF} {k'' : Point} (h : d.brelse p i k k' = some (d', k'')) :
    d'.op = d.op := by
  unfold Data.brelse at h
  split at h
  · exact Data.bio_op h
  · exact Data.bio_op h
  · cases h

/-- While a commit is under way, no operation starts, and none is left to end. -/
theorem prog_op_eq {f : Input → Data n → Option (Data n × Point)} {x : Input}
    (hf : prog limit p k = .step f) (hx : f x d = some (d', k')) (hinv : LogInv limit d)
    (hown : Own limit p k d) (hc : d.committing = true) : d'.op = d.op := by
  have hout : InOp k → ¬ Panicked k → d'.op = d.op := by
    intro hin halive
    have hp := (hown.op halive).2 hin
    simp [hinv.alone hc p] at hp
  cases k with
  | idle =>
    cases hf
    cases x with
    | use u => exact Data.bio_op hx
    | beginOp =>
      dsimp only at hx
      split at hx <;> cases hx
      rfl
    | logWrite b => cases hx
    | endOp => cases hx
  | beginTest =>
    cases hf
    simp only [Data.beginStep, hc, if_true] at hx
    cases hx
    rfl
  | op => exact hout trivial id
  | writeTest b => exact hout trivial id
  | writeAbsorb b => exact hout trivial id
  | endCount => exact hout trivial id
  | logTo tail => cases hf; exact Data.bread_op hx
  | logFrom tail dst => cases hf; exact Data.bread_op hx
  | headRead clear => cases hf; exact Data.bread_op hx
  | instLbuf tail => cases hf; exact Data.bread_op hx
  | instDbuf tail lbuf => cases hf; exact Data.bread_op hx
  | logCopy tail dst src => cases hf; exact Data.bio_op hx
  | logBwrite tail dst src => cases hf; exact Data.bio_op hx
  | headStore clear buf => cases hf; exact Data.bio_op hx
  | instCopy tail lbuf dbuf => cases hf; exact Data.bio_op hx
  | instBwrite tail lbuf dbuf => cases hf; exact Data.bio_op hx
  | headBwrite clear buf =>
    cases hf
    have hop := Data.bio_op hx
    cases clear <;> exact hop
  | logBrelseFrom tail dst src => cases hf; exact Data.brelse_op hx
  | logBrelseTo tail dst => cases hf; exact Data.brelse_op hx
  | headBrelse clear buf => cases hf; exact Data.brelse_op hx
  | instBrelseL tail lbuf dbuf => cases hf; exact Data.brelse_op hx
  | instBrelseD tail dbuf => cases hf; exact Data.brelse_op hx
  | _ => cases hf <;> cases hx <;> rfl

end Program

section Results

variable {s : Machine n (Data n) Unit Point}

theorem log_good (hlimit : limit < MAXOPBLOCKS)
    (h : Reach (step (prog limit)) (fun _ _ => True) Initial s) : Good (logSpec limit) s := by
  refine Good.reach_all (log_sound hlimit) (fun _ _ => id) ?_ h
  rintro _ ⟨start, disk, rfl⟩
  refine Good.start (LogInv.init limit start disk) (fun p => ?_) fun _ => id
  exact ⟨by simp [Data.init, InOp], by simp [Data.init, Commits], trivial,
    fun hc => by simp [Data.init] at hc⟩

/-- With operations of at most `MAXOPBLOCKS - 1` blocks: `commit` runs only when
no operation is outstanding; none starts from the decision to commit until
`log.committing = 0`; while `log.lock` is free nobody sleeps in `begin_op` who
could go on; and all blocks of an operation are in the log, then in the one header
that commits it. -/
theorem begin_op_not_stranded
    (h : Reach (step (prog (MAXOPBLOCKS - 1))) (fun _ _ => True) Initial s) :
    (∀ p, Commits (s.thread p).point → s.data.committing = true ∧ s.data.outstanding = 0) ∧
    (∀ e s', nextState (prog (MAXOPBLOCKS - 1)) e s = .ok s' → s.data.committing = true →
      ∀ q, s.data.op q = none ∧ s'.data.op q = none) ∧
    (s.lk = none → ∀ q, s.state q = .sleeping → s.chan q = some () →
      ¬ (s.data.committing = false ∧
        (s.data.lh.length : ℤ) + (s.data.outstanding + 1) * MAXOPBLOCKS ≤ LOGBLOCKS)) ∧
    (∀ q blocks, s.data.op q = some blocks → ∀ b ∈ blocks, b ∈ s.data.lh) ∧
    (∀ blocks ∈ s.data.ended, ∀ b ∈ blocks, b ∈ s.data.lh) ∧
    ∀ header ∈ s.data.headers, ∀ blocks ∈ header.2, ∀ b ∈ blocks, b ∈ header.1 := by
  have hgood := log_good (by decide) h
  have hinv : LogInv (MAXOPBLOCKS - 1) s.data := hgood.inv
  refine ⟨fun p hp => ?_, fun e s' hs' hc q => ?_, fun hlk q hq hchan => ?_,
    fun q blocks hq => (hinv.logged q blocks hq).2, hinv.ended, hinv.headers⟩
  · have hown : Own (MAXOPBLOCKS - 1) p (s.thread p).point s.data := hgood.own p
    have halive : ¬ Panicked (s.thread p).point := by
      intro hpanic
      cases hk : (s.thread p).point <;> rw [hk] at hp hpanic <;>
        first | exact hp.elim | exact hpanic.elim
    have hc : s.data.committing = true := by
      rw [hinv.committer, (hown.committer halive).2 hp]
      rfl
    refine ⟨hc, ?_⟩
    rw [hinv.outstanding]
    exact Finset.sum_eq_zero fun q _ => by rw [hinv.alone hc q, opCount_none]
  · refine ⟨hinv.alone hc q, ?_⟩
    rw [← hinv.alone hc q]
    cases nextState_cases hs' with
    | step ht ha hf =>
      exact congrFun (prog_op_eq ha hf hinv (hgood.own_run ht) hc) q
    | _ => rfl
  · rintro ⟨hidle, hroom⟩
    exact hgood.not_ready hlk hq hchan ⟨hidle, by simpa [Data.hasRoom] using hroom⟩

def fourBegin : List (Sched.Event 4 Input) :=
  List.flatten [resume 0, run 0 5 .beginOp, resume 1, run 1 5 .beginOp, resume 2, run 2 5 .beginOp,
    resume 3, run 3 8 .beginOp, [.schedRelease 3]]

def fourIdle : Machine 4 (Data 4) Unit Point :=
  .start (.init 2 fun _ => Block.zero) fun _ => .idle

/-- The fourth has no room and sleeps. -/
theorem fourBegin_not_stranded :
    (drive (step (prog (MAXOPBLOCKS - 1))) fourBegin fourIdle).state 3 = .sleeping ∧
    (drive (step (prog (MAXOPBLOCKS - 1))) fourBegin fourIdle).data.outstanding = 3 ∧
    ¬ ((drive (step (prog (MAXOPBLOCKS - 1))) fourBegin fourIdle).data.committing = false ∧
      ((drive (step (prog (MAXOPBLOCKS - 1))) fourBegin fourIdle).data.lh.length : ℤ) +
        ((drive (step (prog (MAXOPBLOCKS - 1))) fourBegin fourIdle).data.outstanding + 1) *
          MAXOPBLOCKS ≤ LOGBLOCKS) := by
  have hreach : Reach (step (prog (MAXOPBLOCKS - 1))) (fun _ _ => True) Initial
      (drive (step (prog (MAXOPBLOCKS - 1))) fourBegin fourIdle) :=
    Reach.drive ⟨_, _, rfl⟩ fun _ _ _ => trivial
  have hrun : (drive (step (prog (MAXOPBLOCKS - 1))) fourBegin fourIdle).state 3 = .sleeping ∧
      (drive (step (prog (MAXOPBLOCKS - 1))) fourBegin fourIdle).data.outstanding = 3 ∧
      (drive (step (prog (MAXOPBLOCKS - 1))) fourBegin fourIdle).lk = none ∧
      (drive (step (prog (MAXOPBLOCKS - 1))) fourBegin fourIdle).chan 3 = some () := by
    decide +kernel
  obtain ⟨hst, hout, hlk, hchan⟩ := hrun
  exact ⟨hst, hout, (begin_op_not_stranded hreach).2.2.1 hlk 3 hst hchan⟩

end Results

end Xv6.Log.Transaction
