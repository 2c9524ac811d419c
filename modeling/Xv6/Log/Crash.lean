import Xv6.Log.Basic

/-! # Crash atomicity of the redo log

Power may fail between any two block writes of `commit`, and again during
each recovery that follows.  Before the header reaches the disk every recovery
leaves the old home blocks; from then on every recovery installs the new ones.
-/
namespace Xv6.Log
open Disk Library.WriteTrace

/-! ## Reading back what was written -/

theorem bread_bwrite (b c : ℕ) (data : Block) (s : LogState) :
    bread (bwrite b data s) c = if c = b then data else bread s c := by
  by_cases h : c = b
  · subst h
    cases hc : s.cache c <;> simp [bread, bwrite, hc]
  · simp [bread, bwrite, h]

theorem copyBlocks_succ (dst src : ℕ → ℕ) (n : ℕ) (s : LogState) :
    copyBlocks dst src (n + 1) s =
      bwrite (dst n) (bread (copyBlocks dst src n s) (src n)) (copyBlocks dst src n s) := by
  simp [copyBlocks, List.range_succ]

@[simp] theorem copyBlocks_start (dst src : ℕ → ℕ) (n : ℕ) (s : LogState) :
    (copyBlocks dst src n s).start = s.start := by
  induction n with
  | zero => rfl
  | succ n ih => rw [copyBlocks_succ]; exact ih

@[simp] theorem copyBlocks_lh (dst src : ℕ → ℕ) (n : ℕ) (s : LogState) :
    (copyBlocks dst src n s).lh = s.lh := by
  induction n with
  | zero => rfl
  | succ n ih => rw [copyBlocks_succ]; exact ih

theorem bread_copyBlocks_outside (dst src : ℕ → ℕ) (n : ℕ) (s : LogState) (b : ℕ)
    (hb : ∀ t < n, dst t ≠ b) : bread (copyBlocks dst src n s) b = bread s b := by
  induction n with
  | zero => rfl
  | succ n ih =>
    rw [copyBlocks_succ, bread_bwrite, if_neg (Ne.symm (hb n (Nat.lt_succ_self n)))]
    exact ih (fun t ht => hb t (Nat.lt_succ_of_lt ht))

/-- The writes of a copying loop when no block is read after it was written. -/
def copyWrites (dst : ℕ → ℕ) (val : ℕ → Block) (n : ℕ) : List (ℕ × Block) :=
  (List.range n).map fun t => (dst t, val t)

theorem copyWrites_succ (dst : ℕ → ℕ) (val : ℕ → Block) (n : ℕ) :
    copyWrites dst val (n + 1) = copyWrites dst val n ++ [(dst n, val n)] := by
  simp [copyWrites, List.range_succ]

@[simp] theorem copyWrites_length (dst : ℕ → ℕ) (val : ℕ → Block) (n : ℕ) :
    (copyWrites dst val n).length = n := by
  simp [copyWrites]

theorem mem_copyWrites (dst : ℕ → ℕ) (val : ℕ → Block) (n : ℕ) (w : ℕ × Block) :
    w ∈ copyWrites dst val n ↔ ∃ t < n, w = (dst t, val t) := by
  simp [copyWrites, eq_comm]

theorem copyBlocks_writes (dst src : ℕ → ℕ) (n : ℕ) (s : LogState)
    (hsep : ∀ t < n, ∀ i < n, dst i ≠ src t) :
    (copyBlocks dst src n s).writes = s.writes ++ copyWrites dst (fun t => bread s (src t)) n := by
  induction n with
  | zero => simp [copyBlocks, copyWrites]
  | succ n ih =>
    have hread : bread (copyBlocks dst src n s) (src n) = bread s (src n) :=
      bread_copyBlocks_outside dst src n s _
        (fun t ht => hsep n (Nat.lt_succ_self n) t (Nat.lt_succ_of_lt ht))
    have hprev := ih (fun t ht i hi => hsep t (Nat.lt_succ_of_lt ht) i (Nat.lt_succ_of_lt hi))
    rw [copyBlocks_succ, copyWrites_succ, hread]
    simp only [bwrite, hprev, List.append_assoc]

/-- Every operation of the log records the block writes that changed the disk. -/
def Traced (d : ℕ → Block) (s : LogState) : Prop := s.disk = applyWrites d s.writes

theorem Traced.bwrite {d : ℕ → Block} {s : LogState} (h : Traced d s) (b : ℕ) (data : Block) :
    Traced d (bwrite b data s) := by
  simp only [Traced, Log.bwrite, applyWrites_concat]
  rw [h]

theorem Traced.copyBlocks {d : ℕ → Block} {s : LogState} (h : Traced d s)
    (dst src : ℕ → ℕ) (n : ℕ) : Traced d (copyBlocks dst src n s) := by
  induction n with
  | zero => exact h
  | succ n ih =>
    rw [copyBlocks_succ]
    exact ih.bwrite _ _

theorem Traced.writeHead {d : ℕ → Block} {s : LogState} (h : Traced d s) :
    Traced d (writeHead s) := h.bwrite _ _

/-! ## The header block -/

/-- The first entries of the header block, as far as they have been stored. -/
theorem encodeHead_prefix (lh : LogHeader) (b : Block) (k : ℕ) (hk : k ≤ LOGBLOCKS) :
    ((List.range k).foldl (fun b i => b.setUint (i + 1) (homeBlock lh i))
        (b.setUint 0 (ofInt lh.n))).uint 0 = ofInt lh.n ∧
    ∀ j < k, ((List.range k).foldl (fun b i => b.setUint (i + 1) (homeBlock lh i))
        (b.setUint 0 (ofInt lh.n))).uint (j + 1) = homeBlock lh j := by
  simp only [LOGBLOCKS, MAXOPBLOCKS] at hk
  induction k with
  | zero =>
    refine ⟨?_, by omega⟩
    exact Block.uint_setUint_self b 0 _ (by simp [BSIZE]) (ofInt_lt _)
  | succ k ih =>
    obtain ⟨hn, hblock⟩ := ih (by omega)
    simp only [List.range_succ, List.foldl_append, List.foldl_cons, List.foldl_nil]
    refine ⟨?_, ?_⟩
    · rw [Block.uint_setUint_of_ne _ _ (by simp [BSIZE]) (by omega)]
      exact hn
    · intro j hj
      by_cases hjk : j = k
      · subst hjk
        exact Block.uint_setUint_self _ _ _ (by simp [BSIZE]; omega) (UInt32.toNat_lt _)
      · rw [Block.uint_setUint_of_ne _ _ (by simp [BSIZE]; omega) (by omega)]
        exact hblock j (by omega)

theorem decodeHead_encodeHead (lh : LogHeader) (b : Block) (h0 : 0 ≤ lh.n)
    (hn : lh.n ≤ LOGBLOCKS) :
    (decodeHead (encodeHead lh b)).n = lh.n ∧
    ∀ j < lh.n.toNat, (decodeHead (encodeHead lh b)).block j = lh.block j := by
  have hcount : lh.n.toNat ≤ LOGBLOCKS := by omega
  obtain ⟨hzero, hblock⟩ := encodeHead_prefix lh b lh.n.toNat hcount
  simp only [LOGBLOCKS, MAXOPBLOCKS] at hn
  refine ⟨?_, ?_⟩
  · simp only [decodeHead, encodeHead, hzero]
    exact asInt_ofInt _ (by omega) (by omega)
  · intro j hj
    rw [decodeHead, encodeHead]
    simp only [hblock j hj]
    exact UInt32.ofNat_toNat

theorem writeHead_clearHead (s : LogState) :
    ∃ hb, (decodeHead hb).n = 0 ∧
      (writeHead (clearHead s)).writes = s.writes ++ [(s.start, hb)] :=
  ⟨_, (decodeHead_encodeHead { s.lh with n := 0 } _ le_rfl (by simp)).1, rfl⟩

/-! ## Transactions and the states of the disk around a commit -/

/-- The blocks that hold the log: its header and `LOGBLOCKS` contents. -/
def LogArea (start b : ℕ) : Prop := start ≤ b ∧ b ≤ start + LOGBLOCKS

/-- A non-empty in-memory header as `log_write` leaves it for `commit`. -/
structure Transaction (start : ℕ) where
  lh : LogHeader
  pos : 0 < lh.n
  fits : lh.n ≤ LOGBLOCKS
  distinct : ∀ i < lh.n.toNat, ∀ j < lh.n.toNat, homeBlock lh i = homeBlock lh j → i = j
  outside : ∀ i < lh.n.toNat, ¬ LogArea start (homeBlock lh i)

namespace Transaction

variable {start : ℕ} (t : Transaction start)

def count : ℕ := t.lh.n.toNat

def Home (b : ℕ) : Prop := ∃ i < t.count, homeBlock t.lh i = b

theorem count_le : t.count ≤ LOGBLOCKS := by
  have := t.fits
  unfold count
  omega

theorem home_not_logArea {b : ℕ} (hb : t.Home b) : ¬ LogArea start b := by
  obtain ⟨i, hi, rfl⟩ := hb
  exact t.outside i hi

theorem logBlock_logArea {i : ℕ} (hi : i < t.count) : LogArea start (logBlock start i) := by
  have := t.count_le
  unfold LogArea logBlock
  omega

theorem homeBlock_ne_logBlock {i j : ℕ} (hi : i < t.count) (hj : j < t.count) :
    homeBlock t.lh i ≠ logBlock start j := by
  intro h
  exact t.outside i hi (h ▸ t.logBlock_logArea hj)

end Transaction

/-- The log header on disk `d` announces no blocks. -/
def EmptyLog (start : ℕ) (d : ℕ → Block) : Prop := (decodeHead (d start)).n = 0

/-- The header has not been written: nothing outside the log differs from `old`. -/
structure Clean (start : ℕ) (old d : ℕ → Block) : Prop where
  empty : EmptyLog start d
  same : ∀ b, ¬ LogArea start b → d b = old b

section Phases
variable {start : ℕ} (t : Transaction start) (old : ℕ → Block) (new : ℕ → Block)

/-- The header is on disk: the log holds the whole transaction, and the home
blocks may have any contents. -/
structure Committed (d : ℕ → Block) : Prop where
  count : (decodeHead (d start)).n = t.lh.n
  block : ∀ i < t.count, (decodeHead (d start)).block i = t.lh.block i
  logged : ∀ i < t.count, d (logBlock start i) = new (homeBlock t.lh i)
  same : ∀ b, ¬ LogArea start b → ¬ t.Home b → d b = old b

/-- The header has been cleared after all home blocks were written. -/
structure Installed (d : ℕ → Block) : Prop where
  empty : EmptyLog start d
  home : ∀ b, t.Home b → d b = new b
  same : ∀ b, ¬ LogArea start b → ¬ t.Home b → d b = old b

end Phases

/-! ## The writes of recovery -/

theorem recoverFromLog_empty {start : ℕ} {d : ℕ → Block} (h : EmptyLog start d) :
    ∃ hb, (decodeHead hb).n = 0 ∧ (recoverFromLog (boot start d)).writes = [(start, hb)] := by
  have hn : (decodeHead (d start)).n = 0 := h
  obtain ⟨hb, hz, hw⟩ := writeHead_clearHead (installTrans (readHead (boot start d)))
  refine ⟨hb, hz, ?_⟩
  rw [recoverFromLog, hw]
  simp [installTrans, readHead, boot, bread, hn, copyBlocks]

/-- The in-memory header that recovery reads from a committed log. -/
theorem readHead_committed {start : ℕ} {t : Transaction start} {old new d : ℕ → Block}
    (h : Committed t old new d) :
    (readHead (boot start d)).lh.n = t.lh.n ∧
    ∀ i < t.count, homeBlock (readHead (boot start d)).lh i = homeBlock t.lh i := by
  refine ⟨h.count, ?_⟩
  intro i hi
  have hlt : (i : ℤ) < t.lh.n := by
    unfold Transaction.count at hi
    omega
  simp [readHead, boot, bread, homeBlock, h.count, hlt, h.block i hi]

theorem copyWrites_congr {dst dst' : ℕ → ℕ} {val val' : ℕ → Block} {n : ℕ}
    (hd : ∀ i < n, dst i = dst' i) (hv : ∀ i < n, val i = val' i) :
    copyWrites dst val n = copyWrites dst' val' n := by
  apply List.map_congr_left
  intro i hi
  have hin := List.mem_range.mp hi
  rw [hd i hin, hv i hin]

/-- Recovery from a committed log writes every home block, then the header. -/
theorem recoverFromLog_committed {start : ℕ} {t : Transaction start} {old new d : ℕ → Block}
    (h : Committed t old new d) :
    ∃ hb, (decodeHead hb).n = 0 ∧ (recoverFromLog (boot start d)).writes =
      copyWrites (homeBlock t.lh) (fun i => new (homeBlock t.lh i)) t.count ++ [(start, hb)] := by
  obtain ⟨hn, hhome⟩ := readHead_committed h
  have hcount : (readHead (boot start d)).lh.n.toNat = t.count := by rw [hn]; rfl
  have hwrites : (installTrans (readHead (boot start d))).writes =
      copyWrites (homeBlock t.lh) (fun i => new (homeBlock t.lh i)) t.count := by
    rw [installTrans, copyBlocks_writes]
    · rw [hcount]
      simp only [readHead, boot, List.nil_append]
      exact copyWrites_congr hhome h.logged
    · intro i hi j hj
      rw [hcount] at hi hj
      rw [hhome j hj]
      exact t.homeBlock_ne_logBlock hj hi
  obtain ⟨hb, hz, hw⟩ := writeHead_clearHead (installTrans (readHead (boot start d)))
  refine ⟨hb, hz, ?_⟩
  rw [recoverFromLog, hw, hwrites, installTrans, copyBlocks_start]
  rfl

theorem recoverFromLog_disk (start : ℕ) (d : ℕ → Block) :
    (recoverFromLog (boot start d)).disk =
      crashStore d (recoverFromLog (boot start d)).writes
        (recoverFromLog (boot start d)).writes.length := by
  have htraced : Traced d (recoverFromLog (boot start d)) := by
    apply Traced.writeHead
    apply Traced.copyBlocks
    rfl
  rw [crashStore, List.take_length]
  exact htraced

/-! ## How recovery moves between the phases -/

section
variable {start : ℕ} {t : Transaction start} {old new d : ℕ → Block}

/-- Rewriting only an empty header keeps the log empty and the rest of the disk. -/
theorem crashStore_header {hb : Block} (hz : (decodeHead hb).n = 0) (he : EmptyLog start d)
    (k : ℕ) : EmptyLog start (crashStore d [(start, hb)] k) ∧
      ∀ b, ¬ LogArea start b → crashStore d [(start, hb)] k b = d b := by
  refine ⟨?_, ?_⟩
  · cases k with
    | zero => simpa [crashStore] using he
    | succ k => simpa [crashStore, EmptyLog] using hz
  · intro b hb
    apply crashStore_outside
    intro w hw
    have : w = (start, _) := List.mem_singleton.mp hw
    rw [this]
    rintro rfl
    exact hb ⟨le_rfl, by omega⟩

theorem Clean.recover (h : Clean start old d) (k : ℕ) :
    Clean start old (crashStore d (recoverFromLog (boot start d)).writes k) := by
  obtain ⟨hb, hz, hw⟩ := recoverFromLog_empty h.empty
  obtain ⟨hempty, hsame⟩ := crashStore_header hz h.empty k
  rw [hw]
  exact ⟨hempty, fun b hb => (hsame b hb).trans (h.same b hb)⟩

theorem Installed.recover (h : Installed t old new d) (k : ℕ) :
    Installed t old new (crashStore d (recoverFromLog (boot start d)).writes k) := by
  obtain ⟨hb, hz, hw⟩ := recoverFromLog_empty h.empty
  obtain ⟨hempty, hsame⟩ := crashStore_header hz h.empty k
  rw [hw]
  refine ⟨hempty, ?_, ?_⟩
  · intro b hb
    exact (hsame b (t.home_not_logArea hb)).trans (h.home b hb)
  · intro b hb hhome
    exact (hsame b hb).trans (h.same b hb hhome)

/-- The writes that install the transaction touch only its home blocks. -/
theorem mem_installWrites {w : ℕ × Block}
    (hw : w ∈ copyWrites (homeBlock t.lh) (fun i => new (homeBlock t.lh i)) t.count) :
    t.Home w.1 ∧ w.2 = new w.1 := by
  obtain ⟨i, hi, rfl⟩ := (mem_copyWrites _ _ _ _).mp hw
  exact ⟨⟨i, hi, rfl⟩, rfl⟩

/-- A committed log stays committed while home blocks are being installed. -/
theorem Committed.install (h : Committed t old new d) (k : ℕ) :
    Committed t old new (crashStore d
      (copyWrites (homeBlock t.lh) (fun i => new (homeBlock t.lh i)) t.count) k) := by
  have hout (b : ℕ) (hb : ¬ t.Home b) : crashStore d
      (copyWrites (homeBlock t.lh) (fun i => new (homeBlock t.lh i)) t.count) k b = d b := by
    apply crashStore_outside
    rintro w hw rfl
    exact hb (mem_installWrites hw).1
  have hstart : ¬ t.Home start := fun hs => t.home_not_logArea hs ⟨le_rfl, by omega⟩
  refine ⟨?_, ?_, ?_, ?_⟩
  · rw [hout start hstart]
    exact h.count
  · rw [hout start hstart]
    exact h.block
  · intro i hi
    rw [hout _ (fun hs => t.home_not_logArea hs (t.logBlock_logArea hi))]
    exact h.logged i hi
  · intro b hb hhome
    rw [hout b hhome]
    exact h.same b hb hhome

/-- Once all home blocks and the cleared header are written, the transaction
is installed. -/
theorem Committed.finish (h : Committed t old new d) {hb : Block} (hz : (decodeHead hb).n = 0) :
    Installed t old new (applyWrites d
      (copyWrites (homeBlock t.lh) (fun i => new (homeBlock t.lh i)) t.count ++
        [(start, hb)])) := by
  rw [applyWrites_concat]
  refine ⟨?_, ?_, ?_⟩
  · simpa [EmptyLog] using hz
  · intro b hb
    have hne : b ≠ start := by
      rintro rfl
      exact t.home_not_logArea hb ⟨le_rfl, by omega⟩
    rw [Function.update_of_ne hne]
    obtain ⟨i, hi, rfl⟩ := hb
    apply applyWrites_of_mem
    · exact (mem_copyWrites _ _ _ _).mpr ⟨i, hi, rfl⟩
    · intro w hw hwb
      rw [(mem_installWrites hw).2, hwb]
  · intro b hb hhome
    have hne : b ≠ start := by
      rintro rfl
      exact hb ⟨le_rfl, by omega⟩
    rw [Function.update_of_ne hne, applyWrites_outside]
    · exact h.same b hb hhome
    · rintro w hw rfl
      exact hhome (mem_installWrites hw).1

/-- Cutting the installation of a committed log at any write leaves it
committed, until the last write has installed it. -/
theorem Committed.crash (h : Committed t old new d) {hb : Block} (hz : (decodeHead hb).n = 0)
    (k : ℕ) : Committed t old new (crashStore d
        (copyWrites (homeBlock t.lh) (fun i => new (homeBlock t.lh i)) t.count ++
          [(start, hb)]) k) ∨
      Installed t old new (crashStore d
        (copyWrites (homeBlock t.lh) (fun i => new (homeBlock t.lh i)) t.count ++
          [(start, hb)]) k) := by
  by_cases hk : k ≤ t.count
  · left
    rw [crashStore, List.take_append_of_le_length (by simpa using hk)]
    exact h.install k
  · right
    rw [crashStore, List.take_of_length_le (by simp; omega)]
    exact h.finish hz

theorem Committed.recover (h : Committed t old new d) (k : ℕ) :
    Committed t old new (crashStore d (recoverFromLog (boot start d)).writes k) ∨
      Installed t old new (crashStore d (recoverFromLog (boot start d)).writes k) := by
  obtain ⟨hb, hz, hw⟩ := recoverFromLog_committed h
  rw [hw]
  exact h.crash hz k

theorem Committed.recover_all (h : Committed t old new d) :
    Installed t old new (recoverFromLog (boot start d)).disk := by
  obtain ⟨hb, hz, hw⟩ := recoverFromLog_committed h
  rw [recoverFromLog_disk, hw, crashStore, List.take_length]
  exact h.finish hz

theorem Clean.recovers {d' : ℕ → Block} (hr : Recovers start d d')
    (h : Clean start old d) : Clean start old d' := by
  induction hr with
  | done d =>
    rw [recoverFromLog_disk]
    exact h.recover _
  | crash d d' k _ ih => exact ih (h.recover k)

/-- Whatever the crashes, recovery of a committed log ends with it installed. -/
theorem recovers_installed {d' : ℕ → Block} (hr : Recovers start d d')
    (h : Committed t old new d ∨ Installed t old new d) : Installed t old new d' := by
  induction hr with
  | done d =>
    rcases h with h | h
    · exact h.recover_all
    · rw [recoverFromLog_disk]
      exact h.recover _
  | crash d d' k _ ih =>
    rcases h with h | h
    · exact ih (h.recover k)
    · exact ih (Or.inr (h.recover k))

end

/-! ## The writes of commit -/

theorem bread_copyBlocks_mem (dst src : ℕ → ℕ) (n : ℕ) (s : LogState)
    (hinj : ∀ i < n, ∀ j < n, dst i = dst j → i = j) (hsep : ∀ t < n, ∀ i < n, dst i ≠ src t)
    {i : ℕ} (hi : i < n) : bread (copyBlocks dst src n s) (dst i) = bread s (src i) := by
  induction n with
  | zero => omega
  | succ n ih =>
    rw [copyBlocks_succ, bread_bwrite]
    by_cases hin : i = n
    · subst hin
      rw [if_pos rfl]
      exact bread_copyBlocks_outside dst src i s _ (fun t ht => hsep i hi t (by omega))
    · rw [if_neg (fun h => hin (hinj i hi n (Nat.lt_succ_self n) h))]
      exact ih (fun a ha b hb => hinj a (by omega) b (by omega))
        (fun a ha b hb => hsep a (by omega) b (by omega)) (by omega)

/-- `commit` writes the log, the header, the home blocks and the empty header. -/
theorem commit_writes (s : LogState) (t : Transaction s.start) (hlh : s.lh = t.lh) :
    ∃ hdr hb, (decodeHead hdr).n = t.lh.n ∧
      (∀ i < t.count, (decodeHead hdr).block i = t.lh.block i) ∧ (decodeHead hb).n = 0 ∧
      (commit s).writes = s.writes ++
        copyWrites (logBlock s.start) (fun i => bread s (homeBlock t.lh i)) t.count ++
        (s.start, hdr) ::
          (copyWrites (homeBlock t.lh) (fun i => bread s (homeBlock t.lh i)) t.count ++
            [(s.start, hb)]) := by
  have hcount : s.lh.n.toNat = t.count := by rw [hlh]; rfl
  obtain ⟨hdrn, hdrblock⟩ := decodeHead_encodeHead t.lh
    (bread (writeLog s) s.start) (le_of_lt t.pos) t.fits
  obtain ⟨hb, hz, hw⟩ := writeHead_clearHead (installTrans (writeHead (writeLog s)))
  have hstart : (writeHead (writeLog s)).start = s.start := by
    simp [writeHead, writeLog, bwrite]
  have hsame : (writeHead (writeLog s)).lh = t.lh := by
    simp [writeHead, writeLog, bwrite, hlh]
  -- the log blocks still hold what `writeLog` copied when `installTrans` reads them
  have hlog (i : ℕ) (hi : i < t.count) : bread (writeHead (writeLog s)) (logBlock s.start i) =
      bread s (homeBlock t.lh i) := by
    rw [writeHead, bread_bwrite, if_neg]
    · rw [writeLog, hcount, hlh]
      refine bread_copyBlocks_mem _ _ _ _ ?_ ?_ hi
      · intro a _ b _ hab
        unfold logBlock at hab
        omega
      · intro a ha b hb
        exact Ne.symm (t.homeBlock_ne_logBlock ha hb)
    · simp [writeLog, logBlock]
      omega
  have hwrite : (writeHead (writeLog s)).writes = s.writes ++
      copyWrites (logBlock s.start) (fun i => bread s (homeBlock t.lh i)) t.count ++
        [(s.start, encodeHead t.lh (bread (writeLog s) s.start))] := by
    have hsep : ∀ i < t.count, ∀ j < t.count, logBlock s.start j ≠ homeBlock t.lh i :=
      fun i hi j hj => Ne.symm (t.homeBlock_ne_logBlock hi hj)
    have hlogged := copyBlocks_writes (logBlock s.start) (homeBlock t.lh) t.count s hsep
    rw [← hlh, ← hcount] at hlogged
    change (writeLog s).writes ++ [((writeLog s).start, _)] = _
    rw [writeLog, hlogged, copyBlocks_start, copyBlocks_lh, hlh]
    rfl
  have hinstall : (installTrans (writeHead (writeLog s))).writes =
      (writeHead (writeLog s)).writes ++
        copyWrites (homeBlock t.lh) (fun i => bread s (homeBlock t.lh i)) t.count := by
    have hsep : ∀ i < t.count, ∀ j < t.count, homeBlock t.lh j ≠ logBlock s.start i :=
      fun i hi j hj => t.homeBlock_ne_logBlock hj hi
    have hcopied := copyBlocks_writes _ _ t.count (writeHead (writeLog s)) hsep
    rw [copyWrites_congr (fun _ _ => rfl) hlog] at hcopied
    rw [installTrans, hsame, hstart]
    exact hcopied
  refine ⟨_, hb, hdrn, hdrblock, hz, ?_⟩
  rw [commit, if_pos (hlh ▸ t.pos), hw, hinstall, hwrite, installTrans, copyBlocks_start, hstart]
  simp

theorem recoverFromLog_emptyLog (start : ℕ) (d : ℕ → Block) :
    EmptyLog start (recoverFromLog (boot start d)).disk := by
  obtain ⟨hb, hz, hw⟩ := writeHead_clearHead (installTrans (readHead (boot start d)))
  have hs : (installTrans (readHead (boot start d))).start = start := copyBlocks_start _ _ _ _
  rw [recoverFromLog_disk, crashStore, List.take_length, recoverFromLog, hw, applyWrites_concat, hs]
  simpa [EmptyLog] using hz

/-! ## Crash atomicity -/

section
variable {s : LogState} {t : Transaction s.start}

theorem clean_of_writeLog (hempty : EmptyLog s.start s.disk) (k : ℕ) (new : ℕ → Block) :
    Clean s.start s.disk
      (crashStore s.disk (copyWrites (logBlock s.start) new t.count) k) := by
  have hmem (w : ℕ × Block) (hw : w ∈ copyWrites (logBlock s.start) new t.count) :
      LogArea s.start w.1 ∧ w.1 ≠ s.start := by
    obtain ⟨i, hi, rfl⟩ := (mem_copyWrites _ _ _ _).mp hw
    refine ⟨t.logBlock_logArea hi, ?_⟩
    simp only [logBlock]
    omega
  refine ⟨?_, ?_⟩
  · rw [EmptyLog, crashStore_outside _ _ _ _ (fun w hw => (hmem w hw).2)]
    exact hempty
  · intro b hb
    apply crashStore_outside
    rintro w hw rfl
    exact hb (hmem w hw).1

/-- Once the header is written on top of a complete log, the log is committed. -/
theorem committed_of_writeHead {hdr : Block} (hn : (decodeHead hdr).n = t.lh.n)
    (hblock : ∀ i < t.count, (decodeHead hdr).block i = t.lh.block i) (new : ℕ → Block) :
    Committed t s.disk new (applyWrites s.disk
      (copyWrites (logBlock s.start) (fun i => new (homeBlock t.lh i)) t.count ++
        [(s.start, hdr)])) := by
  rw [applyWrites_concat]
  refine ⟨?_, ?_, ?_, ?_⟩
  · simpa using hn
  · simpa using hblock
  · intro i hi
    rw [Function.update_of_ne (by simp only [logBlock]; omega)]
    apply applyWrites_of_mem
    · exact (mem_copyWrites _ _ _ _).mpr ⟨i, hi, rfl⟩
    · intro w hw hwi
      obtain ⟨j, _, rfl⟩ := (mem_copyWrites _ _ _ _).mp hw
      have hji : j = i := by
        simp only [logBlock] at hwi
        omega
      rw [hji]
  · intro b hb _
    have hne : b ≠ s.start := by
      rintro rfl
      exact hb ⟨le_rfl, by omega⟩
    rw [Function.update_of_ne hne]
    apply applyWrites_outside
    rintro w hw rfl
    obtain ⟨i, hi, rfl⟩ := (mem_copyWrites _ _ _ _).mp hw
    exact hb (t.logBlock_logArea hi)

/-- Where a crash during `commit` can leave the disk. -/
theorem commit_crash_phase (hlh : s.lh = t.lh) (hempty : EmptyLog s.start s.disk)
    (hw : s.writes = []) (k : ℕ) :
    (k ≤ t.count ∧ Clean s.start s.disk (crashStore s.disk (commit s).writes k)) ∨
    (t.count < k ∧
      (Committed t s.disk (bread s) (crashStore s.disk (commit s).writes k) ∨
        Installed t s.disk (bread s) (crashStore s.disk (commit s).writes k))) := by
  obtain ⟨hdr, hb, hn, hblock, hz, hwrites⟩ := commit_writes s t hlh
  rw [hwrites, hw, List.nil_append]
  by_cases hk : k ≤ t.count
  · left
    refine ⟨hk, ?_⟩
    rw [crashStore, List.take_append_of_le_length (by simpa using hk)]
    exact clean_of_writeLog hempty k _
  · right
    refine ⟨by omega, ?_⟩
    have hc := committed_of_writeHead hn hblock (bread s)
    obtain ⟨j, rfl⟩ : ∃ j, k = t.count + 1 + j := ⟨k - (t.count + 1), by omega⟩
    have hsplit : copyWrites (logBlock s.start) (fun i => bread s (homeBlock t.lh i)) t.count ++
        (s.start, hdr) ::
          (copyWrites (homeBlock t.lh) (fun i => bread s (homeBlock t.lh i)) t.count ++
            [(s.start, hb)]) =
        (copyWrites (logBlock s.start) (fun i => bread s (homeBlock t.lh i)) t.count ++
          [(s.start, hdr)]) ++
          (copyWrites (homeBlock t.lh) (fun i => bread s (homeBlock t.lh i)) t.count ++
            [(s.start, hb)]) := by simp
    rw [hsplit, crashStore, List.take_append, List.take_of_length_le (by simp),
      applyWrites_append]
    simp only [List.length_append, copyWrites_length, List.length_cons, List.length_nil]
    rw [Nat.zero_add, Nat.add_sub_cancel_left]
    exact hc.crash hz j

/-- A crash anywhere in `commit`, followed by any number of interrupted
recoveries and a complete one, leaves all home blocks old or all of them new,
and new whenever the first header write completed. -/
theorem commit_crash_atomic (hlh : s.lh = t.lh) (hempty : EmptyLog s.start s.disk)
    (hw : s.writes = []) (k : ℕ) (d' : ℕ → Block)
    (hr : Recovers s.start (crashStore s.disk (commit s).writes k) d') :
    ((∀ b, t.Home b → d' b = s.disk b) ∨ (∀ b, t.Home b → d' b = bread s b)) ∧
      (∀ b, ¬ LogArea s.start b → ¬ t.Home b → d' b = s.disk b) ∧
      EmptyLog s.start d' ∧
      (t.count + 1 ≤ k → ∀ b, t.Home b → d' b = bread s b) := by
  rcases commit_crash_phase hlh hempty hw k with ⟨hk, hclean⟩ | ⟨hk, hphase⟩
  · have hend := hclean.recovers hr
    refine ⟨Or.inl ?_, ?_, hend.empty, by omega⟩
    · intro b hb
      exact hend.same b (t.home_not_logArea hb)
    · intro b hb _
      exact hend.same b hb
  · have hend := recovers_installed hr hphase
    exact ⟨Or.inr hend.home, hend.same, hend.empty, fun _ => hend.home⟩

end

/-- A machine about to commit one block: block 40 of a zeroed disk has been
filled with ones in the cache, and the log starts at block 2. -/
def oneBlock : LogState where
  start := 2
  disk := fun _ => Block.zero
  cache := fun b => if b = 40 then some (fun _ => 1) else none
  lh := { n := 1, block := fun _ => 40 }
  writes := []

def oneBlockTransaction : Transaction oneBlock.start where
  lh := oneBlock.lh
  pos := by decide
  fits := by decide
  distinct := by
    intro i hi j hj _
    simp only [oneBlock, Int.toNat_one] at hi hj
    omega
  outside := by
    intro i _
    simp [LogArea, homeBlock, oneBlock, LOGBLOCKS, MAXOPBLOCKS]

/-- Power fails after the header write, and again before recovery has written
anything; block 40 ends with its new contents. -/
theorem oneBlock_crash_atomic :
    ∃ d', Recovers 2 (crashStore oneBlock.disk (commit oneBlock).writes 2) d' ∧
      d' 40 = fun _ => 1 := by
  have hr : Recovers 2 (crashStore oneBlock.disk (commit oneBlock).writes 2) _ :=
    Recovers.crash _ _ 0 (Recovers.done _)
  refine ⟨_, hr, ?_⟩
  have hempty : EmptyLog oneBlock.start oneBlock.disk := by
    simp [EmptyLog, decodeHead, oneBlock, asInt]
  have h := commit_crash_atomic (t := oneBlockTransaction) rfl hempty rfl 2 _ hr
  exact h.2.2.2 (by decide) 40 ⟨0, by decide, rfl⟩

end Xv6.Log
