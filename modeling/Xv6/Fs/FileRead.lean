import Xv6.Fs.Format
import Xv6.Fs.Syscall
import Xv6.Ipc.ConsoleLine
import Xv6.Ipc.PipeRead

/-! # Reading from files of all types

`fileread` with an `int` length, and what it stores into user memory.  A read that has to wait is
given what it sees each time it looks.
-/
namespace Xv6.Fs.Read
open Disk Library Ipc

/-- The value that `read` returns, and the bytes that it has stored from `addr` on. -/
structure Outcome where
  value : ℤ
  stored : List UInt8

def Outcome.memory (r : Outcome) (addr : ℕ) (mem : ℕ → UInt8) (a : ℕ) : UInt8 :=
  if addr ≤ a ∧ a < addr + r.stored.length then r.stored.getD (a - addr) 0 else mem a

/-- An `int` passed as `uint`. -/
def uint (n : ℤ) : ℕ := (n % 2 ^ 32).toNat

/-- `piperead(pi, addr, n)` when the first `valid` bytes at `addr` can be written.  It sees the pipe
and whether it is killed. -/
def piperead (n : ℤ) (valid : ℕ) : List (Pipe × Bool) → Option Outcome
  | [] => none
  | (pi, killed) :: seen =>
    if pi.isEmpty && pi.writeopen then
      if killed then some ⟨-1, []⟩ else piperead n valid seen
    else
      let r := pipereadCopy n valid pi
      some ⟨r.1, r.2.delivered.drop pi.delivered.length⟩

/-- The loop of `consoleread(1, addr, target)` with `n` bytes to go. -/
def consoleLoop (target : ℤ) (valid : ℕ) :
    (n : ℤ) → List UInt8 → List (Console.Cons × Bool) → Option Outcome
  | _, _, [] => none
  | n, stored, (c, killed) :: seen =>
    let x := Console.Input.copyout (target - n < valid)
    let stored' := stored ++ (Console.storedBy n x c).toList
    match Console.readStep target n x c with
    | some (_, .rLoop _ n) => consoleLoop target valid n stored' seen
    | some (_, .rKilled _ _) =>
      if killed then some ⟨-1, stored⟩ else consoleLoop target valid n stored seen
    | some (_, .unlock r) => some ⟨r, stored'⟩
    | _ => none

def consoleread (n : ℤ) (valid : ℕ) (seen : List (Console.Cons × Bool)) : Option Outcome :=
  consoleLoop n valid n [] seen

def CONSOLE : BitVec 16 := 1

/-- An open file: one of type `FD_PIPE`, or one of the file system with what a read of the console
sees. -/
inductive OpenFile
  | pipe (readable : Bool) (seen : List (Pipe × Bool))
  | file (f : FileId) (seen : List (Console.Cons × Bool))

section
variable [sb : Superblock]

/-- Read from file `f`: nothing while it waits. -/
def fileread (o : OpenFile) (valid : ℕ) (n : ℤ) : FsM (Option Outcome) :=
  match o with
  | .pipe readable seen => pure (if readable then piperead n valid seen else some ⟨-1, []⟩)
  | .file f seen => do
    let file ← getFile f
    if file.readable = false then pure (some ⟨-1, []⟩)
    else
      match file.type with
      | .none => throw .fileread
      | .device =>
        -- only the console has a read routine
        pure (if badMajor file.major || file.major != CONSOLE then some ⟨-1, []⟩
          else consoleread n valid seen)
      | .inode => do
        ilock file.ip
        let r ← readi file.ip (some valid) file.off (uint n)
        if 0 < r.1 then setFile f fun file => { file with off := file.off + r.1.toNat } else pure ()
        iunlock file.ip
        pure (some ⟨r.1, r.2⟩)

end

/-- At most `max(n, 0)` bytes. -/
structure Bounded (n : ℤ) (r : Outcome) : Prop where
  value : r.value ≤ max n 0
  stored : (r.stored.length : ℤ) ≤ max n 0

theorem Bounded.error (n : ℤ) : Bounded n ⟨-1, []⟩ :=
  ⟨(by decide : (-1 : ℤ) ≤ 0).trans (le_max_right _ _), le_max_right _ _⟩

/-- Nothing outside of the buffer changes. -/
theorem Bounded.memory {n : ℤ} {r : Outcome} (h : Bounded n r) (addr : ℕ) (mem : ℕ → UInt8) (a : ℕ)
    (ha : a < addr ∨ addr + (max n 0).toNat ≤ a) : r.memory addr mem a = mem a := by
  have := h.stored
  exact if_neg (by omega)

/-! ## Pipes -/

theorem copyLoop_stored (n : ℤ) (valid fuel : ℕ) (i : ℤ) (pi : Pipe) :
    ∃ l, (copyLoop n valid fuel i pi).2.delivered = pi.delivered ++ l ∧
      (copyLoop n valid fuel i pi).1 = i + l.length ∧ i + l.length ≤ max i n := by
  induction fuel generalizing i pi with
  | zero => exact ⟨[], (List.append_nil _).symm, (Int.add_zero i).symm, by simp⟩
  | succ fuel ih =>
    unfold copyLoop readStep
    by_cases hlt : i < n
    · rw [if_pos hlt]
      cases hempty : pi.isEmpty with
      | true => exact ⟨[], (List.append_nil _).symm, (Int.add_zero i).symm, by simp⟩
      | false =>
        cases hok : decide (i < (valid : ℤ)) with
        | true =>
          obtain ⟨l, hdel, hval, hle⟩ := ih (i + 1) (pi.take true)
          refine ⟨pi.data (Fin.ofNat PIPESIZE pi.nread.toNat) :: l, ?_, ?_, ?_⟩
          · rw [List.append_cons]
            exact hdel
          · refine hval.trans ?_
            rw [List.length_cons]
            omega
          · rw [List.length_cons]
            omega
        | false => exact ⟨[], (List.append_nil _).symm, (Int.add_zero i).symm, by simp⟩
    · rw [if_neg hlt]
      exact ⟨[], (List.append_nil _).symm, (Int.add_zero i).symm, by simp⟩

theorem piperead_bounded {n : ℤ} {valid : ℕ} {seen : List (Pipe × Bool)} {r : Outcome}
    (h : piperead n valid seen = some r) : Bounded n r := by
  induction seen with
  | nil => cases h
  | cons x seen ih =>
    obtain ⟨pi, killed⟩ := x
    unfold piperead at h
    by_cases hwait : (pi.isEmpty && pi.writeopen) = true
    · rw [if_pos hwait] at h
      cases killed with
      | true =>
        cases h
        exact Bounded.error n
      | false => exact ih h
    · rw [if_neg hwait] at h
      obtain ⟨l, hdel, hval, hle⟩ := copyLoop_stored n valid (n.toNat + 1) 0 pi
      cases h
      refine ⟨?_, ?_⟩
      · change (copyLoop n valid (n.toNat + 1) 0 pi).1 ≤ _
        omega
      · change ((List.drop _ (copyLoop n valid (n.toNat + 1) 0 pi).2.delivered).length : ℤ) ≤ _
        rw [hdel, List.drop_left]
        omega

/-! ## The console -/

/-- What a turn of the loop of `consoleread` does, with the number of bytes it stores. -/
inductive Turn (target n : ℤ) : Option UInt8 → Console.Point → Prop
  | next (ch : UInt8) (hn : 0 < n) : Turn target n (some ch) (.rLoop target (n - 1))
  | last (ch : UInt8) (hn : 0 < n) : Turn target n (some ch) (.unlock (target - (n - 1)))
  | wait (hn : 0 < n) : Turn target n none (.rKilled target n)
  | done : Turn target n none (.unlock (target - n))

theorem readStep_turn (target n : ℤ) (ok : Bool) (c : Console.Cons) :
    ∃ c' k, Console.readStep target n (.copyout ok) c = some (c', k) ∧
      Turn target n (Console.storedBy n (.copyout ok) c) k := by
  have hnone : ¬ (0 < n ∧ c.r ≠ c.w ∧ c.buf (Console.Cons.slot c.r) ≠ Console.control 'D') →
      Console.storedBy n (.copyout ok) c = none := fun h => if_neg h
  unfold Console.readStep
  by_cases hn : 0 < n
  · rw [if_pos hn]
    by_cases hempty : c.r = c.w
    · rw [if_pos hempty, hnone fun h => h.2.1 hempty]
      exact ⟨_, _, rfl, .wait hn⟩
    · rw [if_neg hempty]
      dsimp only
      by_cases hD : c.buf (Console.Cons.slot c.r) = Console.control 'D'
      · rw [if_pos hD, hnone fun h => h.2.2 hD]
        exact ⟨_, _, rfl, .done⟩
      · rw [if_neg hD]
        unfold Console.storedBy
        rw [if_pos (show 0 < n ∧ c.r ≠ c.w ∧ _ from ⟨hn, hempty, hD⟩)]
        cases ok with
        | false => exact ⟨_, _, rfl, .done⟩
        | true =>
          refine ⟨_, _, rfl, ?_⟩
          by_cases hnl : c.buf (Console.Cons.slot c.r) = Console.newline
          · rw [if_pos hnl]
            exact .last _ hn
          · rw [if_neg hnl]
            exact .next _ hn
  · rw [if_neg hn, hnone fun h => hn h.1]
    exact ⟨_, _, rfl, .done⟩

theorem consoleLoop_bounded {target n : ℤ} {valid : ℕ} {stored : List UInt8}
    {seen : List (Console.Cons × Bool)} {r : Outcome}
    (hcount : (stored.length : ℤ) = target - n) (hle : target - n ≤ max target 0)
    (h : consoleLoop target valid n stored seen = some r) : Bounded target r := by
  induction seen generalizing n stored with
  | nil => cases h
  | cons x seen ih =>
    obtain ⟨c, killed⟩ := x
    unfold consoleLoop at h
    obtain ⟨c', k, hrun, hturn⟩ := readStep_turn target n (decide (target - n < valid)) c
    dsimp only at h
    rw [hrun] at h
    generalize Console.storedBy n (.copyout (decide (target - n < valid))) c = ch at *
    cases hturn with
    | next ch hn =>
      refine ih ?_ ?_ h
      · rw [Option.toList_some, List.length_append, List.length_singleton]
        omega
      · omega
    | last ch hn =>
      cases h
      refine ⟨?_, ?_⟩
      · dsimp only
        omega
      · dsimp only
        rw [Option.toList_some, List.length_append, List.length_singleton]
        omega
    | wait hn =>
      cases killed with
      | true =>
        cases h
        refine ⟨by dsimp only; omega, ?_⟩
        dsimp only
        omega
      | false => exact ih hcount hle h
    | done =>
      cases h
      refine ⟨hle, ?_⟩
      dsimp only
      rw [Option.toList_none, List.append_nil]
      omega

theorem consoleread_bounded {n : ℤ} {valid : ℕ} {seen : List (Console.Cons × Bool)} {r : Outcome}
    (h : consoleread n valid seen = some r) : Bounded n r := by
  refine consoleLoop_bounded ?_ ?_ h
  · rw [List.length_nil]
    omega
  · omega

/-! ## Inodes -/

section
variable [sb : Superblock] {s : State} {ip : InodeId}

theorem readLoop_stored (room : Option ℕ) (fuel off tot n : ℕ) (bytes : List UInt8)
    (htot : tot ≤ n) (hlen : bytes.length = tot) :
    Wp (readLoop ip room fuel off tot n bytes) s
      (fun r _ => r.1 ≤ n ∧ r.2.length ≤ n) (fun _ => True) := by
  induction fuel generalizing off tot bytes s with
  | zero => exact Wp.pure ⟨Int.ofNat_le.mpr htot, hlen.trans_le htot⟩
  | succ fuel ih =>
    unfold readLoop
    by_cases hlt : tot < n
    · rw [if_pos hlt]
      refine Wp.step (Wp.any _ _) fun addr s₁ _ => ?_
      by_cases haddr : addr = 0
      · rw [if_pos haddr]
        exact Wp.pure ⟨Int.ofNat_le.mpr htot, hlen.trans_le htot⟩
      · rw [if_neg haddr]
        refine Wp.step (Wp.any _ _) fun data s₂ _ => ?_
        have hmod := mod_BSIZE_lt off
        generalize hm : min (n - tot) (BSIZE - off % BSIZE) = m
        dsimp only
        by_cases hroom : room.any (· < tot + m) = true
        · rw [if_pos hroom]
          refine Wp.pure ⟨?_, ?_⟩
          · dsimp only
            omega
          · rw [List.length_append, List.length_take, List.length_map, List.length_range]
            omega
        · rw [if_neg hroom]
          refine ih _ _ _ (by omega) ?_
          rw [List.length_append, List.length_map, List.length_range, hlen]
    · rw [if_neg hlt]
      exact Wp.pure ⟨Int.ofNat_le.mpr htot, hlen.trans_le htot⟩

/-- The bytes of a file that a read from `off` may return. -/
def readable (size off n : ℕ) : ℕ :=
  if size < off ∨ (off + n) % 2 ^ 32 < off then 0 else min n (size - off)

theorem readi_stored (room : Option ℕ) (off n : ℕ) :
    Wp (readi ip room off n) s
      (fun r _ => r.1 ≤ readable (s.itable ip).d.size off n ∧
        r.2.length ≤ readable (s.itable ip).d.size off n) (fun _ => True) := by
  unfold readi readable
  refine Wp.step_run (getInode_run ip s) ?_
  by_cases hout : (s.itable ip).d.size < off ∨ (off + n) % 2 ^ 32 < off
  · rw [if_pos hout, if_pos hout]
    exact Wp.pure ⟨le_rfl, le_rfl⟩
  · rw [if_neg hout, if_neg hout]
    have hn : (if (s.itable ip).d.size < off + n then (s.itable ip).d.size - off else n) =
        min n ((s.itable ip).d.size - off) := by
      split <;> omega
    rw [hn]
    exact readLoop_stored room _ off 0 _ [] (Nat.zero_le _) rfl

/-! ## All files -/

def fileSize (s : State) (f : FileId) : ℕ :=
  ((s.file (s.itable (s.ftable f).ip).inum).map fun a => a.data.length).getD 0

/-- The file is open; its inode is allocated, and `f->off` is a `uint`. -/
def IsOpen (s : State) : OpenFile → Prop
  | .pipe .. => True
  | .file f _ => (s.ftable f).uses (s.ftable f).ip = true ∧
      (s.file (s.itable (s.ftable f).ip).inum).isSome = true ∧ (s.ftable f).off < 2 ^ 32

/-- The length is not negative, or `off + n` is out of range as a `uint`, or there is nothing to
read; only inodes need it. -/
def Safe (s : State) (n : ℤ) : OpenFile → Prop
  | .pipe .. => True
  | .file f _ => (s.ftable f).type = .inode →
      0 ≤ n ∨ -n ≤ (s.ftable f).off ∨ fileSize s f ≤ (s.ftable f).off

omit sb in
theorem getFile_run (f : FileId) (s : State) : getFile f s = .ok (s.ftable f) s := rfl

omit sb in
theorem setFile_run (f : FileId) (g : File → File) (s : State) :
    setFile f g s = .ok () { s with ftable := Function.update s.ftable f (g (s.ftable f)) } := rfl

omit sb in
theorem users_pos {f : FileId} (h : (s.ftable f).uses ip = true) : 0 < s.users ip := by
  refine Nat.add_pos_left (Finset.card_pos.mpr ⟨f, ?_⟩) _
  exact Finset.mem_filter.mpr ⟨Finset.mem_univ f, h⟩

omit sb in
theorem readable_le {size off : ℕ} {n : ℤ} (hn : n < 2 ^ 31) (hmin : -2 ^ 31 ≤ n)
    (hoff : off < 2 ^ 32) (h : 0 ≤ n ∨ -n ≤ off ∨ size ≤ off) :
    (readable size off (uint n) : ℤ) ≤ max n 0 := by
  unfold readable uint
  split <;> omega

theorem fileread_inode {H : Multiset InodeId} {f : FileId} {seen : List (Console.Cons × Bool)}
    (hsess : Sess H s) (hopen : IsOpen s (.file f seen)) (htype : (s.ftable f).type = .inode)
    (hread : (s.ftable f).readable = true) (valid : ℕ) (n : ℤ) :
    ∃ r s', fileread (.file f seen) valid n s = .ok (some r) s' ∧
      r.value ≤ readable (fileSize s f) (s.ftable f).off (uint n) ∧
      r.stored.length ≤ readable (fileSize s f) (s.ftable f).off (uint n) ∧
      (s'.ftable f).off = (s.ftable f).off + r.value.toNat := by
  obtain ⟨huses, hsome, _⟩ := hopen
  have href := hsess.ref_pos_of_users (users_pos huses)
  cases hlock : ilock (s.ftable f).ip s with
  | error e t =>
    have hnone := ((ilock_spec hsess href).error hlock).2
    rw [hnone] at hsome
    cases hsome
  | ok u s₁ =>
    have hl := (ilock_spec hsess href).ok hlock
    have hsize : fileSize s f = (s₁.itable (s.ftable f).ip).d.size := by
      have hfile := hl.sess.clean.file_eq hl.loaded
      have hdisk : s₁.file = s.file := by
        funext i
        unfold State.file State.dinode
        rw [hl.disk]
      rw [hdisk, hl.inum] at hfile
      unfold fileSize
      rw [hfile, Option.map_some, Option.getD_some, length_data]
    obtain ⟨r, hr, _⟩ := readi_run (hl.sess.clean.held hl.loaded) (some valid) (s.ftable f).off (uint n)
    obtain ⟨hvalue, hstored⟩ := (readi_stored ..).ok hr
    have hreadable : ¬ (s.ftable f).readable = false := by
      rw [hread]
      exact Bool.noConfusion
    have hunlock : ∀ ftable, iunlock (s.ftable f).ip { s₁ with ftable := ftable } =
        .ok () { s₁ with ftable := ftable } := fun ftable => iunlock_run hl.loaded.ref
    have hftable : s₁.ftable f = s.ftable f := congrFun hl.act.ftable f
    rw [hsize]
    unfold fileread
    dsimp only
    rw [bind_run (getFile_run f s), if_neg hreadable]
    simp only [htype]
    rw [bind_run hlock, bind_run hr]
    by_cases hpos : 0 < r.1
    · rw [if_pos hpos, bind_run (setFile_run ..), bind_run (hunlock _)]
      refine ⟨⟨r.1, r.2⟩, _, rfl, hvalue, hstored, ?_⟩
      dsimp only
      rw [Function.update_self, hftable]
    · rw [if_neg hpos, bind_run (hunlock s₁.ftable)]
      refine ⟨⟨r.1, r.2⟩, _, rfl, hvalue, hstored, ?_⟩
      rw [hftable, Int.toNat_of_nonpos (not_lt.mp hpos), Nat.add_zero]

def firstFile : FileId := ⟨0, by decide⟩

/-- The root directory of an empty file system is open for reading. -/
def rootOpened : State := (format.incRef rootId).install firstFile ⟨.inode, 1, true, false, rootId, 0, 0⟩

theorem rootOpened_sess (h : sb.datastart < sb.size) : Sess 0 rootOpened := by
  have href : 0 < (format.itable rootId).ref := Nat.one_pos
  exact ((format_sess h).incRef href).install rfl rfl

theorem rootOpened_isOpen (h : sb.datastart < sb.size) : IsOpen rootOpened (.file firstFile []) := by
  have href : 0 < (rootOpened.itable rootId).ref := by
    refine (rootOpened_sess h).ref_pos_of_users (users_pos (f := firstFile) rfl)
  have hload : Loaded rootOpened rootId := ⟨href, rfl⟩
  refine ⟨rfl, ?_, (by decide : 0 < 2 ^ 32)⟩
  have := (rootOpened_sess h).clean.file_eq hload
  change (rootOpened.file (rootOpened.itable rootId).inum).isSome = true
  rw [this]
  rfl

end

/-- What a read has returned and how many bytes it has stored. -/
def reported : EStateM.Result Panic State (Option Outcome) → Option (ℤ × ℕ)
  | .ok (some r) _ => some (r.value, r.stored.length)
  | _ => none

end Xv6.Fs.Read
