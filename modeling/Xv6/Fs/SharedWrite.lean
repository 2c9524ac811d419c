import Xv6.Fs.Budget
import Xv6.Fs.FileRead

/-! # Writers that share an open file

Calls of `filewrite` on one open file take turns.  A turn is what a call does between two tests of
its loop: a transaction in which it locks the inode, writes a chunk and moves the offset.
-/
namespace Xv6.Fs
open Disk Library

/-! ## One chunk -/

section
variable [sb : Superblock] {s s' : State} {f : FileId} {K : Finset ℕ} {ip : InodeId} {inum : ℕ}
  {data : List UInt8} {H : Multiset InodeId}

def State.seek (s : State) (f : FileId) (off : ℕ) : State :=
  { s with ftable := Function.update s.ftable f { s.ftable f with off := off } }

omit sb in
theorem users_seek (s : State) (f : FileId) (off : ℕ) (t : InodeId) :
    (s.seek f off).users t = s.users t := by
  have := users_setFile s f { s.ftable f with off := off } t
  exact Nat.add_right_cancel this

omit sb in
theorem splice_end (data bytes : List UInt8) : splice data data.length bytes = data ++ bytes := by
  unfold splice
  rw [List.take_length, List.drop_eq_nil_of_le (Nat.le_add_right ..), List.append_nil]

/-- The file `f` is open on inode `inum`, whose data is `data`, with its offset at the end; there is
a free block for each slot of `K` that has none. -/
structure Appending (f : FileId) (K : Finset ℕ) (ip : InodeId) (inum : ℕ) (data : List UInt8)
    (s : State) : Prop where
  sess : ∃ H, Sess H s
  uses : (s.ftable f).uses ip = true
  inum_eq : (s.itable ip).inum = inum
  file : (s.file inum).map Afile.data = some data
  off : (s.ftable f).off = data.length
  room : (lacking s.disk (s.dinode inum) K).card ≤ (freeBlocks s.disk).card

theorem Appending.ip_eq (h : Appending f K ip inum data s) : (s.ftable f).ip = ip := by
  have := h.uses
  unfold File.uses at this
  rw [Bool.and_eq_true, beq_iff_eq] at this
  exact this.2

/-- A chunk for which there is room is appended, and the offset is at the end again. -/
theorem Appending.writeChunk (h : Appending f K ip inum data s) (src : List UInt8) {i n1 : ℕ}
    (hsrc : i + n1 ≤ src.length) (hmax : data.length + n1 ≤ MAXFILE * BSIZE)
    (hK : needed data.length n1 ⊆ K) :
    Wp (writeChunk f src i n1) s
      (fun r s' => r = n1 ∧ Appending f K ip inum (data ++ (src.drop i).take n1) s')
      (fun _ => False) := by
  obtain ⟨H, hsess⟩ := h.sess
  have hip := h.ip_eq
  have hbegun : Sess H s.begun := hsess.congr rfl rfl fun _ => rfl
  have href : 0 < (s.begun.itable ip).ref := hsess.ref_pos_of_users (Read.users_pos h.uses)
  unfold Fs.writeChunk
  refine Wp.step_run (Read.getFile_run f s) (Wp.step_run (beginOp_run s) ?_)
  rw [hip]
  refine Wp.step ((ilock_spec hbegun href).weaken ?_) ?_
  · rintro e ⟨-, hnone⟩
    have hfile := h.file
    have : s.file inum = none := h.inum_eq ▸ hnone
    rw [this] at hfile
    cases hfile
  rintro - s₁ hl
  have hinum₁ : (s₁.itable ip).inum = inum := hl.inum.trans h.inum_eq
  have hdata₁ : (afile s₁ ip).data = data := by
    have hfile := hl.sess.clean.file_eq hl.loaded
    have hsame : s₁.file = s.file := file_of_disk hl.disk
    have hold := h.file
    rw [hsame, hinum₁] at hfile
    rw [hfile] at hold
    exact Option.some.inj hold
  have hsize₁ : data.length = (s₁.itable ip).d.size := by rw [← hdata₁, length_data]
  have hd₁ : (s₁.itable ip).d = s₁.dinode inum := hinum₁ ▸ (hl.sess.clean.coherent ip hl.loaded).1
  have ho₁ : 1 ≤ s₁.outstanding := by
    rw [hl.act.outstanding]
    exact Nat.le_add_left ..
  have hroom₁ : (lacking s₁.disk (s₁.itable ip).d K).card ≤ (freeBlocks s₁.disk).card := by
    rw [hd₁, dinode_of_disk hl.disk, hl.disk]
    exact h.room
  have hdrop : n1 ≤ (src.drop i).length := by
    rw [List.length_drop]
    omega
  rw [h.off]
  refine Wp.step (writei_whole hl.sess.clean hl.loaded ho₁ hsize₁ hmax hdrop hK hroom₁) ?_
  rintro r s₂ ⟨rfl, hw, hbudget⟩
  have hload₂ := hw.loaded hl.loaded
  have hinum₂ : (s₂.itable ip).inum = inum :=
    (congrFun (congrArg View.inum hw.view) ip).trans hinum₁
  have hft₂ : s₂.ftable = s.ftable := (congrArg View.ftable hw.view).trans hl.act.ftable
  have hd₂ : (s₂.itable ip).d = s₂.dinode inum := hinum₂ ▸ (hw.clean.coherent ip hload₂).1
  have hsess₂ : Sess H s₂ := hl.sess.of_view hw.clean hw.view
  have hset : setFile f (fun file => { file with off := file.off + ((n1 : ℕ) : ℤ).toNat }) s₂ =
      .ok () (s₂.seek f (data.length + n1)) := by
    rw [Read.setFile_run]
    unfold State.seek
    rw [Int.toNat_natCast, hft₂, h.off]
  refine Wp.step_run hset ?_
  refine Wp.step_run (iunlock_run (s := s₂.seek f (data.length + n1)) hload₂.ref) ?_
  refine Wp.step_run (endOp_run _) (Wp.pure ⟨rfl, ?_⟩)
  have hended : (s₂.seek f (data.length + n1)).ended.ftable = (s₂.seek f (data.length + n1)).ftable ∧
      (s₂.seek f (data.length + n1)).ended.proc = s₂.proc := by
    unfold State.ended
    split <;> exact ⟨rfl, rfl⟩
  have hft₃ : (s₂.seek f (data.length + n1)).ended.ftable f =
      { s.ftable f with off := data.length + n1 } := by
    rw [hended.1]
    simp [State.seek, hft₂]
  have husers (t : InodeId) : (s₂.seek f (data.length + n1)).ended.users t = s₂.users t := by
    rw [← users_seek s₂ f (data.length + n1) t]
    unfold State.users
    rw [hended.1, hended.2]
    rfl
  have hdisk : (s₂.seek f (data.length + n1)).ended.disk = s₂.disk := ended_disk _
  have hitable : (s₂.seek f (data.length + n1)).ended.itable = s₂.itable := ended_itable _
  constructor
  · exact ⟨H, hsess₂.congr hdisk hitable husers⟩
  · rw [hft₃]
    exact h.uses
  · rw [hitable, hinum₂]
  · have hdata₂ := hw.data hl.loaded
    rw [hdata₁, take_splice (le_refl _) hdrop, splice_end] at hdata₂
    rw [file_of_disk hdisk, ← hinum₂, hw.clean.file_eq hload₂, Option.map_some, hdata₂]
  · rw [hft₃, List.length_append, List.length_take, Nat.min_eq_left hdrop]
  · rw [dinode_of_disk hdisk, hdisk, ← hd₂]
    unfold Budget at hbudget
    omega

end

/-! ## Calls that take turns -/

/-- A call that writes `n` bytes.  `src` is what can be read of its buffer. -/
structure WriteCall where
  src : List UInt8
  n : ℕ
  valid : n ≤ src.length

/-- The calls, how far each has got and what it has returned; `chunks` records what has been written
in each critical section, in the order in which the inode was locked. -/
structure Writers (ι : Type) where
  fs : State
  pos : ι → ℕ
  ret : ι → Option ℤ
  chunks : List (ι × List UInt8)

section
variable {ι : Type}

/-- What the chunks add up to. -/
def written (chunks : List (ι × List UInt8)) : List UInt8 := (chunks.map (·.2)).flatten

theorem written_append (l l' : List (ι × List UInt8)) :
    written (l ++ l') = written l ++ written l' := by
  unfold written
  rw [List.map_append, List.flatten_append]

variable [DecidableEq ι]

/-- What call `c` has written. -/
def writtenBy (c : ι) (chunks : List (ι × List UInt8)) : List UInt8 :=
  written (chunks.filter (·.1 = c))

theorem writtenBy_append_self (c : ι) (l : List (ι × List UInt8)) (bytes : List UInt8) :
    writtenBy c (l ++ [(c, bytes)]) = writtenBy c l ++ bytes := by
  unfold writtenBy
  rw [List.filter_append, written_append, List.filter_cons_of_pos (by simp)]
  simp [written]

theorem writtenBy_append_of_ne {c c' : ι} (h : c' ≠ c) (l : List (ι × List UInt8))
    (bytes : List UInt8) : writtenBy c (l ++ [(c', bytes)]) = writtenBy c l := by
  unfold writtenBy
  rw [List.filter_append, written_append, List.filter_cons_of_neg (by simpa using h)]
  simp [written]

end

section
variable [sb : Superblock] {ι : Type} [DecidableEq ι] (calls : ι → WriteCall) (f : FileId)

/-- A turn of the loop of `filewrite`, or the return after it. -/
def turn (c : ι) (m : Writers ι) : Option (Writers ι) :=
  let n := (calls c).n
  let i := m.pos c
  let value : ℤ := if i = n then n else -1
  if (m.ret c).isSome then none
  else if i < n then
    let n1 := min (n - i) MAXWRITE
    match writeChunk f (calls c).src i n1 m.fs with
    | .error _ _ => none
    | .ok r fs =>
      let chunks := m.chunks ++ [(c, ((calls c).src.drop i).take r.toNat)]
      if r ≠ n1 then some { m with fs, ret := Function.update m.ret c (some value), chunks }
      else some { m with fs, pos := Function.update m.pos c (i + n1), chunks }
  else some { m with ret := Function.update m.ret c (some value) }

/-- Others leave the file, its place in memory and the room for it alone. -/
structure Elsewhere (f : FileId) (K : Finset ℕ) (s s' : State) : Prop where
  sess : ∃ H, Sess H s'
  ftable : s'.ftable f = s.ftable f
  inum : (s'.itable (s.ftable f).ip).inum = (s.itable (s.ftable f).ip).inum
  data : (s'.file (s.itable (s.ftable f).ip).inum).map Afile.data =
    (s.file (s.itable (s.ftable f).ip).inum).map Afile.data
  room : (lacking s'.disk (s'.dinode (s.itable (s.ftable f).ip).inum) K).card ≤
    (freeBlocks s'.disk).card

/-- A call takes a turn, or something happens elsewhere. -/
inductive Writers.Step (K : Finset ℕ) : Writers ι → Writers ι → Prop
  | turn {m m' : Writers ι} (c : ι) (h : turn calls f c m = some m') : Step K m m'
  | other {m : Writers ι} {fs : State} (h : Elsewhere f K m.fs fs) : Step K m { m with fs }

def left (c : ι) (m : Writers ι) : ℕ :=
  (calls c).n - m.pos c + if (m.ret c).isSome then 0 else 1

variable [Fintype ι]

def total : ℕ := ∑ c, (calls c).n

/-- No call has begun.  The file is open for writing with its offset at the end, and there is room for
all data: the file does not get too large, and there is a free block for each one it needs. -/
structure Writers.Start (K : Finset ℕ) (ip : InodeId) (inum : ℕ) (data : List UInt8)
    (m : Writers ι) : Prop where
  pos : ∀ c, m.pos c = 0
  ret : ∀ c, m.ret c = none
  chunks : m.chunks = []
  type : (m.fs.ftable f).type = .inode
  writable : (m.fs.ftable f).writable = true
  appending : Appending f K ip inum data m.fs
  fits : data.length + total calls ≤ MAXFILE * BSIZE
  slots : K = needed data.length (total calls)

/-- The invariant of the runs. -/
structure Writers.Inv (K : Finset ℕ) (ip : InodeId) (inum : ℕ) (data : List UInt8)
    (m : Writers ι) : Prop where
  appending : Appending f K ip inum (data ++ written m.chunks) m.fs
  pos_le : ∀ c, m.pos c ≤ (calls c).n
  own : ∀ c, writtenBy c m.chunks = (calls c).src.take (m.pos c)
  sum : (written m.chunks).length = ∑ c, m.pos c
  small : ∀ x ∈ m.chunks, 0 < x.2.length ∧ x.2.length ≤ MAXWRITE
  done : ∀ c r, m.ret c = some r → r = (calls c).n ∧ m.pos c = (calls c).n

variable {calls f} {K : Finset ℕ} {ip : InodeId} {inum : ℕ} {data : List UInt8} {m m' : Writers ι}

omit sb [DecidableEq ι] in
/-- What is left of one call fits into what is left of all. -/
theorem sum_add_le (hpos : ∀ c, m.pos c ≤ (calls c).n) (c : ι) :
    ∑ c, m.pos c + ((calls c).n - m.pos c) ≤ total calls := by
  classical
  unfold total
  rw [← Finset.add_sum_erase _ _ (Finset.mem_univ c), ← Finset.add_sum_erase _ (fun c => (calls c).n) (Finset.mem_univ c)]
  have hrest : ∑ x ∈ Finset.univ.erase c, m.pos x ≤ ∑ x ∈ Finset.univ.erase c, (calls x).n :=
    Finset.sum_le_sum fun x _ => hpos x
  have := hpos c
  omega

theorem Writers.Start.inv (h : Start calls f K ip inum data m) : Inv calls f K ip inum data m where
  appending := by simpa [h.chunks, written] using h.appending
  pos_le c := by simp [h.pos]
  own c := by simp [h.chunks, h.pos, writtenBy, written]
  sum := by simp [h.chunks, h.pos, written]
  small x hx := by simp [h.chunks] at hx
  done c r hr := by simp [h.ret] at hr

theorem Writers.Inv.chunk (h : Inv calls f K ip inum data m)
    (hfits : data.length + total calls ≤ MAXFILE * BSIZE)
    (hslots : K = needed data.length (total calls)) {c : ι} (hlt : m.pos c < (calls c).n) :
    ∃ fs, writeChunk f (calls c).src (m.pos c) (min ((calls c).n - m.pos c) MAXWRITE) m.fs =
        .ok ((min ((calls c).n - m.pos c) MAXWRITE : ℕ) : ℤ) fs ∧
      Appending f K ip inum (data ++ written m.chunks ++
        ((calls c).src.drop (m.pos c)).take (min ((calls c).n - m.pos c) MAXWRITE)) fs := by
  have hvalid := (calls c).valid
  have hsum := sum_add_le h.pos_le c
  have hlen : (data ++ written m.chunks).length = data.length + ∑ c, m.pos c := by
    rw [List.length_append, h.sum]
  have hK : needed (data ++ written m.chunks).length (min ((calls c).n - m.pos c) MAXWRITE) ⊆ K := by
    rw [hslots]
    apply needed_subset_needed
    · omega
    · omega
  have hend : m.pos c + min ((calls c).n - m.pos c) MAXWRITE ≤ (calls c).src.length := by omega
  have hspec := h.appending.writeChunk (calls c).src hend (by omega) hK
  cases hrun : writeChunk f (calls c).src (m.pos c) (min ((calls c).n - m.pos c) MAXWRITE) m.fs with
  | error e fs => exact (hspec.error hrun).elim
  | ok r fs =>
    obtain ⟨rfl, happ⟩ := hspec.ok hrun
    exact ⟨fs, rfl, happ⟩

/-- The state after a turn that writes a chunk of `n1` bytes. -/
def Writers.wrote (calls : ι → WriteCall) (c : ι) (n1 : ℕ) (fs : State) (m : Writers ι) :
    Writers ι :=
  { m with
    fs
    pos := Function.update m.pos c (m.pos c + n1)
    chunks := m.chunks ++ [(c, ((calls c).src.drop (m.pos c)).take n1)] }

theorem Writers.Inv.wrote (h : Inv calls f K ip inum data m) {c : ι} {n1 : ℕ} {fs : State}
    (hn1 : n1 = min ((calls c).n - m.pos c) MAXWRITE) (hlt : m.pos c < (calls c).n)
    (hret : m.ret c = none)
    (happ : Appending f K ip inum (data ++ written m.chunks ++
      ((calls c).src.drop (m.pos c)).take n1) fs) :
    Inv calls f K ip inum data (m.wrote calls c n1 fs) := by
  have hvalid := (calls c).valid
  have hmax : 0 < MAXWRITE := by decide
  have hlen : (((calls c).src.drop (m.pos c)).take n1).length = n1 := by
    rw [List.length_take, List.length_drop]
    omega
  have hwritten : written (m.wrote calls c n1 fs).chunks =
      written m.chunks ++ ((calls c).src.drop (m.pos c)).take n1 := by
    change written (m.chunks ++ _) = _
    rw [written_append]
    simp [written]
  constructor
  · rw [hwritten, ← List.append_assoc]
    exact happ
  · intro c'
    have := h.pos_le c'
    simp only [Writers.wrote, Function.update_apply]
    grind
  · intro c'
    simp only [Writers.wrote, Function.update_apply]
    split
    · next hc => rw [hc, writtenBy_append_self, h.own, List.take_add]
    · next hc => rw [writtenBy_append_of_ne (Ne.symm hc), h.own]
  · change _ = ∑ c', Function.update m.pos c (m.pos c + n1) c'
    rw [hwritten, List.length_append, hlen, h.sum, Finset.sum_update_of_mem (Finset.mem_univ c),
      ← Finset.add_sum_erase _ m.pos (Finset.mem_univ c), Finset.sdiff_singleton_eq_erase]
    omega
  · intro x hx
    rcases List.mem_append.mp hx with hx | hx
    · exact h.small x hx
    · rw [List.mem_singleton.mp hx]
      dsimp only
      omega
  · intro c' r hr
    change m.ret c' = some r at hr
    have := h.done c' r hr
    simp only [Writers.wrote, Function.update_apply]
    grind

theorem Writers.Inv.returned (h : Inv calls f K ip inum data m) {c : ι}
    (hpos : m.pos c = (calls c).n) :
    Inv calls f K ip inum data
      { m with ret := Function.update m.ret c (some ((calls c).n : ℤ)) } := by
  refine ⟨h.appending, h.pos_le, h.own, h.sum, h.small, fun c' r hr => ?_⟩
  have := h.done c' r
  simp only [Function.update_apply] at hr
  grind

section
variable (h : Writers.Inv calls f K ip inum data m)
  (hfits : data.length + total calls ≤ MAXFILE * BSIZE)
  (hslots : K = needed data.length (total calls))

include h hfits hslots

/-- A call that has not returned can take its turn, and gets on with it; the others stay where they
are. -/
theorem Writers.Inv.turn {c : ι} (hret : m.ret c = none) :
    ∃ m', Fs.turn calls f c m = some m' ∧ Inv calls f K ip inum data m' ∧
      left calls c m' < left calls c m ∧ ∀ c' ≠ c, left calls c' m' = left calls c' m := by
  by_cases hlt : m.pos c < (calls c).n
  · obtain ⟨fs, hrun, happ⟩ := h.chunk hfits hslots hlt
    generalize hn1 : min ((calls c).n - m.pos c) MAXWRITE = n1 at hrun happ
    have hpos : 0 < n1 := by
      have : 0 < MAXWRITE := by decide
      omega
    refine ⟨m.wrote calls c n1 fs, ?_, h.wrote hn1.symm hlt hret happ, ?_, fun c' hc => ?_⟩
    · simp [Fs.turn, Writers.wrote, hret, hlt, hn1, hrun]
    · simp [left, Writers.wrote, hret]
      omega
    · simp only [left, Writers.wrote, Function.update_of_ne hc]
      rfl
  · have hpos : m.pos c = (calls c).n := Nat.le_antisymm (h.pos_le c) (Nat.le_of_not_lt hlt)
    refine ⟨_, ?_, h.returned hpos, ?_, fun c' hc => ?_⟩
    · simp [Fs.turn, hret, hpos]
    · simp [left, hret]
    · simp only [left, Function.update_of_ne hc]

theorem Writers.Inv.step (hstep : Step calls f K m m') : Inv calls f K ip inum data m' := by
  cases hstep with
  | turn c hturn =>
    cases hret : m.ret c with
    | some r => simp [Fs.turn, hret] at hturn
    | none =>
      obtain ⟨m'', hturn', hinv, -⟩ := h.turn hfits hslots hret
      rw [hturn'] at hturn
      cases hturn
      exact hinv
  | @other fs hother =>
    have happ := h.appending
    have hip := happ.ip_eq
    have hinum := happ.inum_eq
    obtain ⟨hsess, hftable, hinum', hdata, hroom⟩ := hother
    rw [hip, hinum] at hinum' hdata hroom
    refine ⟨⟨hsess, ?_, hinum', hdata.trans happ.file, ?_, hroom⟩, h.pos_le, h.own, h.sum, h.small,
      h.done⟩
    · simpa only [hftable] using happ.uses
    · simpa only [hftable] using happ.off

end

theorem Writers.Start.reach {m₀ : Writers ι} (h : Start calls f K ip inum data m₀)
    (hreach : Relation.ReflTransGen (Step calls f K) m₀ m) : Inv calls f K ip inum data m := by
  induction hreach with
  | refl => exact h.inv
  | tail _ hstep ih => exact ih.step h.fits h.slots hstep

/-- However the calls take turns, the file gets the chunks one after the other in the order of the
locks; each call's chunks are its data; offset and size advance by what has been written; every call
goes on until it returns its `n`. -/
theorem shared_writers {m₀ : Writers ι} (hstart : Writers.Start calls f K ip inum data m₀)
    (hreach : Relation.ReflTransGen (Writers.Step calls f K) m₀ m) :
    (m.fs.file inum).map Afile.data = some (data ++ written m.chunks) ∧
    (∀ x ∈ m.chunks, 0 < x.2.length ∧ x.2.length ≤ (MAXOPBLOCKS - 4) / 2 * BSIZE) ∧
    (∀ c, writtenBy c m.chunks = (calls c).src.take (m.pos c) ∧ m.pos c ≤ (calls c).n) ∧
    (m.fs.ftable f).off = data.length + ∑ c, m.pos c ∧
    (written m.chunks).length = ∑ c, m.pos c ∧
    (∀ c r, m.ret c = some r → r = (calls c).n ∧ m.pos c = (calls c).n) ∧
    ((∀ c, (m.ret c).isSome) → (m.fs.ftable f).off = data.length + total calls) ∧
    ∀ c, m.ret c = none → ∃ m', turn calls f c m = some m' ∧ left calls c m' < left calls c m ∧
      ∀ c' ≠ c, left calls c' m' = left calls c' m := by
  have hinv := hstart.reach hreach
  have hoff : (m.fs.ftable f).off = data.length + ∑ c, m.pos c := by
    rw [hinv.appending.off, List.length_append, hinv.sum]
  refine ⟨hinv.appending.file, hinv.small, fun c => ⟨hinv.own c, hinv.pos_le c⟩, hoff, hinv.sum,
    hinv.done, fun hall => ?_, fun c hret => ?_⟩
  · have hpos : ∀ c, m.pos c = (calls c).n := by
      intro c
      obtain ⟨r, hr⟩ := Option.isSome_iff_exists.mp (hall c)
      exact (hinv.done c r hr).2
    rw [hoff]
    unfold total
    simp only [hpos]
  · obtain ⟨m', hturn, -, hless, hsame⟩ := hinv.turn hstart.fits hstart.slots hret
    exact ⟨m', hturn, hless, hsame⟩

end

section
variable [sb : Superblock]

/-- A new file is opened for writing. -/
theorem Alloced.appending {inum : ℕ} {s s' : State} {ip : InodeId} {K : Finset ℕ}
    (h : Alloced 0 T_FILE inum s ip s') (hfree : (s'.ftable Read.firstFile).ref = 0)
    (hK : K.card ≤ (freeBlocks s'.disk).card) :
    Appending Read.firstFile K ip inum []
      (s'.install Read.firstFile ⟨.inode, 1, true, true, ip, 0, 0⟩) := by
  have huses : File.uses ⟨.inode, 1, true, true, ip, 0, 0⟩ ip = true := by simp [File.uses]
  constructor
  · exact ⟨0, h.sess.install hfree huses⟩
  · simp only [State.install, Function.update_self]
    exact huses
  · exact h.inum_eq
  · change (s'.file inum).map Afile.data = _
    rw [h.file, Function.update_self]
    rfl
  · simp only [State.install, Function.update_self]
    rfl
  · exact (Finset.card_filter_le K _).trans hK

/-- Has an inode been found, and is there a free block? -/
def hasRoom : EStateM.Result Panic State (Option InodeId) → Bool
  | .ok (some _) s => decide (1 ≤ (freeBlocks s.disk).card ∧ (s.ftable Read.firstFile).ref = 0)
  | _ => false

end

/-- Two calls, of three and of two bytes. -/
def twoCalls : Bool → WriteCall
  | true => ⟨[1, 2, 3], 3, by decide⟩
  | false => ⟨[4, 5], 2, by decide⟩

/-- Two calls share a new file of an empty file system. -/
theorem shared_writers_two :
    ∃ K ip inum m₀ m, @Writers.Start tiny Bool twoCalls Read.firstFile _ K ip inum [] m₀ ∧
      @Writers.Step tiny Bool _ twoCalls Read.firstFile K m₀ m ∧
      (@State.file tiny m.fs inum).map Afile.data = some (written m.chunks) ∧
      left twoCalls true m < left twoCalls true m₀ := by
  let _ : Superblock := tiny
  have hroom : hasRoom (ialloc T_FILE tinyRoot) = true := by decide +kernel
  have hbegun : Sess 0 tinyRoot := ⟨tinyRoot_clean, (format_sess (by decide)).refs⟩
  have hspec := ialloc_spec hbegun (by decide) (by decide : T_FILE ≠ 0)
  cases hrun : ialloc T_FILE tinyRoot with
  | error e s =>
    rw [hrun] at hroom
    cases hroom
  | ok r s =>
    rw [hrun] at hroom
    rcases hspec.ok hrun with ⟨rfl, -⟩ | ⟨ip, inum, rfl, halloc⟩
    · cases hroom
    · obtain ⟨hfree, href⟩ := of_decide_eq_true hroom
      have hK : (needed 0 (total twoCalls)).card ≤ (freeBlocks s.disk).card := by
        have hone : (needed 0 (total twoCalls)).card = 1 := by decide
        omega
      let m₀ : Writers Bool :=
        ⟨s.install Read.firstFile ⟨.inode, 1, true, true, ip, 0, 0⟩, fun _ => 0, fun _ => none, []⟩
      have hstart : Writers.Start twoCalls Read.firstFile (needed 0 (total twoCalls)) ip inum [] m₀ :=
        ⟨fun _ => rfl, fun _ => rfl, rfl, rfl, rfl, halloc.appending href hK, by decide, rfl⟩
      obtain ⟨m, hturn, hless, -⟩ := (shared_writers hstart .refl).2.2.2.2.2.2.2 true rfl
      have hstep : Writers.Step twoCalls Read.firstFile (needed 0 (total twoCalls)) m₀ m :=
        .turn true hturn
      exact ⟨_, ip, inum, m₀, m, hstart, hstep, (shared_writers hstart (.single hstep)).1, hless⟩

end Xv6.Fs
