import Xv6.Proc.Killed

/-! # Process ids

`allocpid` hands out the values of one counter, a 32-bit `int`.  While the counter
has not wrapped around, processes have different positive pids, `kkill` finds the
process that was meant, and a sleep-lock, which remembers its holder's pid, knows its
holder.
-/
namespace Xv6.Proc.Pid
open Kernel Library Killed

variable {n : ℕ} {L : Type*} [DecidableEq L]

structure SleepLock where
  locked : Bool
  pid : BitVec 32

/-- The process table and the sleep-locks; `holder` records who acquired a lock. -/
structure System (n : ℕ) (L : Type*) where
  slots : Slots n
  lock : L → SleepLock
  holder : L → Option (Fin n)

inductive Event (n : ℕ) (L : Type*)
  | slots (e : Killed.Event n)
  | acquiresleep (p : Fin n) (l : L)
  | releasesleep (l : L)

/-- `acquiresleep` when it finds the lock free. -/
def System.acquiresleep (s : System n L) (p : Fin n) (l : L) : System n L :=
  { s with
    lock := Function.update s.lock l ⟨true, (s.slots.slot p).pid⟩
    holder := Function.update s.holder l (some p) }

def System.releasesleep (s : System n L) (l : L) : System n L :=
  { s with
    lock := Function.update s.lock l ⟨false, 0⟩
    holder := Function.update s.holder l none }

def System.holdingsleep (s : System n L) (p : Fin n) (l : L) : Bool :=
  (s.lock l).locked && (s.lock l).pid == (s.slots.slot p).pid

def step (e : Event n L) (s : System n L) : Except Unit (Unit × System n L) :=
  match e with
  | .slots e =>
    match s.slots.next e with
    | some t => .ok ((), { s with slots := t })
    | none => .error ()
  | .acquiresleep p l =>
    if Active (s.slots.slot p).state ∧ (s.lock l).locked = false then .ok ((), s.acquiresleep p l)
    else .error ()
  | .releasesleep l => .ok ((), s.releasesleep l)

def Initial (s : System n L) : Prop :=
  s = ⟨.boot, fun _ => ⟨false, 0⟩, fun _ => none⟩

/-- A process is allocated only while the counter has not wrapped around. -/
def NotWrapped (s : System n L) (e : Event n L) : Prop :=
  ∀ np memory, e = .slots (.alloc np memory) → 0 < s.slots.nextpid.toInt

theorem toInt_pos_iff (x : BitVec 32) : 0 < x.toInt ↔ 0 < x.toNat ∧ x.toNat < 2 ^ 31 := by
  have hlt := x.isLt
  rw [BitVec.toInt_eq_toNat_cond]
  split <;> omega

/-! ## What a step does to pids -/

def InUse (t : Slots n) (i : Fin n) : Prop := (t.slot i).state ≠ .unused

/-- `freeproc` of a slot, `allocproc` of one while the counter is positive, the two in
a row, or nothing. -/
inductive Change (t t' : Slots n) : Prop
  | same (hnext : t'.nextpid = t.nextpid) (hpid : ∀ i, (t'.slot i).pid = (t.slot i).pid)
      (huse : ∀ i, InUse t' i ↔ InUse t i)
  | free (i : Fin n) (h : t' = t.freeproc i)
  | take (np : Fin n) (hpos : 0 < t.nextpid.toInt) (h : t' = t.take np)
  | fail (np : Fin n) (hpos : 0 < t.nextpid.toInt) (h : t' = (t.take np).freeproc np)

theorem active_ne {state : ProcState} (h : Active state) : state ≠ .unused := by
  rcases h with h | h | h <;> simp [h]

theorem Change.setSlot {t t' : Slots n} {i : Fin n} {c : Slot}
    (hslot : t'.slot = Function.update t.slot i c) (hnext : t'.nextpid = t.nextpid)
    (hpid : c.pid = (t.slot i).pid) (huse : c.state ≠ .unused ↔ (t.slot i).state ≠ .unused) :
    Change t t' := by
  refine .same hnext (fun j => ?_) fun j => ?_
  · by_cases hj : j = i
    · subst hj
      simp [hslot, hpid]
    · simp [hslot, hj]
  · by_cases hj : j = i
    · subst hj
      simpa [InUse, hslot] using huse
    · simp [InUse, hslot, hj]

theorem scanStep_change {t t' : Slots n} {p : Fin n} (hs : t.scanStep p = some t') :
    Change t t' := by
  cases hp : t.scan p with
  | none => simp [Slots.scanStep, hp] at hs
  | some c =>
    obtain ⟨pid, i⟩ := c
    simp only [Slots.scanStep, hp] at hs
    split at hs
    · next hi =>
      split at hs
      · cases hs
        refine Change.setSlot (i := ⟨i, hi⟩) rfl rfl rfl ?_
        by_cases hsl : (t.slot ⟨i, hi⟩).state = .sleeping <;> simp [hsl]
      · cases hs
        exact .same rfl (fun _ => rfl) fun _ => Iff.rfl
    · cases hs
      exact .same rfl (fun _ => rfl) fun _ => Iff.rfl

theorem next_change {t t' : Slots n} {e : Killed.Event n} (hs : t.next e = some t')
    (hguard : ∀ np memory, e = .alloc np memory → 0 < t.nextpid.toInt) : Change t t' := by
  cases e with
  | alloc np memory =>
    have hpos := hguard np memory rfl
    simp only [Slots.next] at hs
    split at hs <;> cases hs
    cases memory
    · exact .fail np hpos rfl
    · exact .take np hpos rfl
  | start np =>
    simp only [Slots.next] at hs
    split at hs <;> cases hs
    next hused => exact .setSlot rfl rfl rfl (by simp [hused])
  | schedule p state =>
    simp only [Slots.next] at hs
    split at hs <;> cases hs
    next hact => exact .setSlot rfl rfl rfl (by simp [active_ne hact.1, active_ne hact.2])
  | exit p =>
    simp only [Slots.next] at hs
    split at hs <;> cases hs
    next hact => exact .setSlot rfl rfl rfl (by simp [active_ne hact])
  | wait pp =>
    simp only [Slots.next] at hs
    split at hs <;> cases hs
    exact .free pp rfl
  | setkilled p =>
    simp only [Slots.next] at hs
    split at hs <;> cases hs
    exact .setSlot (i := p) rfl rfl rfl Iff.rfl
  | kkill p pid =>
    simp only [Slots.next] at hs
    split at hs <;> cases hs
    exact .same rfl (fun _ => rfl) fun _ => Iff.rfl
  | scan p => exact scanStep_change hs

section
variable {t : Slots n}

@[simp] theorem freeproc_self (i : Fin n) : (t.freeproc i).slot i = ⟨.unused, 0, false⟩ := by
  simp [Slots.freeproc, Slots.setSlot]

theorem freeproc_of_ne {i j : Fin n} (hj : j ≠ i) : (t.freeproc i).slot j = t.slot j := by
  simp [Slots.freeproc, Slots.setSlot, hj]

@[simp] theorem take_pid (np : Fin n) : ((t.take np).slot np).pid = t.nextpid := by
  simp [Slots.take]

@[simp] theorem take_state (np : Fin n) : ((t.take np).slot np).state = .used := by
  simp [Slots.take]

theorem take_of_ne {np j : Fin n} (hj : j ≠ np) : (t.take np).slot j = t.slot j := by
  simp [Slots.take, hj]

theorem take_nextpid (np : Fin n) (hpos : 0 < t.nextpid.toInt) :
    (t.take np).nextpid.toNat = t.nextpid.toNat + 1 := by
  obtain ⟨-, hhi⟩ := (toInt_pos_iff _).1 hpos
  change (t.nextpid + 1#32).toNat = _
  rw [BitVec.toNat_add]
  simp only [BitVec.toNat_ofNat]
  omega

end

/-! ## Pids and holders -/

/-- The pids in use are positive, below the counter and different, and so is the pid in
a lock that is held: among the processes it is the holder's. -/
structure Inv (s : System n L) : Prop where
  nextpid : 0 < s.slots.nextpid.toNat ∧ s.slots.nextpid.toNat ≤ 2 ^ 31
  unused : ∀ i, ¬ InUse s.slots i → (s.slots.slot i).pid = 0
  range : ∀ i, InUse s.slots i →
    0 < (s.slots.slot i).pid.toNat ∧ (s.slots.slot i).pid.toNat < s.slots.nextpid.toNat
  inj : ∀ i j, InUse s.slots i → (s.slots.slot i).pid = (s.slots.slot j).pid → i = j
  lock : ∀ l, (s.lock l).locked = true → (s.lock l).pid.toNat < s.slots.nextpid.toNat ∧
    ∀ q, InUse s.slots q → (s.lock l).pid = (s.slots.slot q).pid → s.holder l = some q

namespace Inv

variable {s s' : System n L} {t' : Slots n}

omit [DecidableEq L] in
theorem initial (h : Initial s) : Inv s := by
  subst h
  exact ⟨by simp [Slots.boot], fun _ _ => rfl, fun _ h => absurd rfl h, fun _ _ h => absurd rfl h,
    fun _ h => by simp at h⟩

omit [DecidableEq L] in
theorem free (h : Inv s) (i : Fin n) : Inv { s with slots := s.slots.freeproc i } := by
  have huse (j : Fin n) (hj : InUse (s.slots.freeproc i) j) : j ≠ i ∧ InUse s.slots j := by
    by_cases hji : j = i
    · subst hji
      simp [InUse] at hj
    · exact ⟨hji, by simpa [InUse, freeproc_of_ne hji] using hj⟩
  refine ⟨h.nextpid, fun j hj => ?_, fun j hj => ?_, fun j k hj hjk => ?_, fun l hl => ?_⟩
  · by_cases hji : j = i
    · subst hji
      simp
    · simp only [freeproc_of_ne hji]
      exact h.unused j (by simpa [InUse, freeproc_of_ne hji] using hj)
  · obtain ⟨hji, hj⟩ := huse j hj
    simp only [freeproc_of_ne hji]
    exact h.range j hj
  · obtain ⟨hji, hj'⟩ := huse j hj
    simp only [freeproc_of_ne hji] at hjk
    by_cases hki : k = i
    · subst hki
      have hpos := (h.range j hj').1
      simp [hjk] at hpos
    · rw [freeproc_of_ne hki] at hjk
      exact h.inj j k hj' hjk
  · refine ⟨(h.lock l hl).1, fun q hq hpid => ?_⟩
    obtain ⟨hqi, hq⟩ := huse q hq
    simp only [freeproc_of_ne hqi] at hpid
    exact (h.lock l hl).2 q hq hpid

omit [DecidableEq L] in
theorem take (h : Inv s) {np : Fin n} (hpos : 0 < s.slots.nextpid.toInt) :
    Inv { s with slots := s.slots.take np } := by
  obtain ⟨hlo, hhi⟩ := (toInt_pos_iff _).1 hpos
  have hnext := take_nextpid np hpos
  have huse (j : Fin n) (hj : j ≠ np) : InUse (s.slots.take np) j ↔ InUse s.slots j := by
    simp [InUse, take_of_ne hj]
  -- the new pid is the counter, and every pid in the table lies below it
  have hbelow (j : Fin n) : (s.slots.slot j).pid.toNat < s.slots.nextpid.toNat := by
    by_cases hj : InUse s.slots j
    · exact (h.range j hj).2
    · rw [h.unused j hj]
      exact hlo
  have hfresh (j : Fin n) : (s.slots.slot j).pid ≠ s.slots.nextpid := fun heq =>
    absurd (hbelow j) (by rw [heq]; exact lt_irrefl _)
  refine ⟨⟨by simp only [hnext]; omega, by simp only [hnext]; omega⟩, fun j hj => ?_,
    fun j hj => ?_, fun j k hj hjk => ?_, fun l hl => ?_⟩
  · by_cases hjn : j = np
    · subst hjn
      simp [InUse] at hj
    · simp only [take_of_ne hjn]
      exact h.unused j (by rwa [← huse j hjn])
  · simp only [hnext]
    by_cases hjn : j = np
    · subst hjn
      simp only [take_pid]
      omega
    · simp only [take_of_ne hjn]
      have := h.range j ((huse j hjn).1 hj)
      omega
  · by_cases hjn : j = np <;> by_cases hkn : k = np
    · exact hjn.trans hkn.symm
    · subst hjn
      simp only [take_pid, take_of_ne hkn] at hjk
      exact absurd hjk.symm (hfresh k)
    · subst hkn
      simp only [take_pid, take_of_ne hjn] at hjk
      exact absurd hjk (hfresh j)
    · simp only [take_of_ne hjn, take_of_ne hkn] at hjk
      exact h.inj j k ((huse j hjn).1 hj) hjk
  · obtain ⟨hlt, hholder⟩ := h.lock l hl
    refine ⟨by simp only [hnext]; omega, fun q hq hpid => ?_⟩
    by_cases hqn : q = np
    · subst hqn
      simp only [take_pid] at hpid
      rw [hpid] at hlt
      exact absurd hlt (lt_irrefl _)
    · simp only [take_of_ne hqn] at hpid
      exact hholder q ((huse q hqn).1 hq) hpid

omit [DecidableEq L] in
theorem change (h : Inv s) (hc : Change s.slots t') : Inv { s with slots := t' } := by
  cases hc with
  | same hnext hpid huse =>
    refine ⟨?_, fun i hi => ?_, fun i hi => ?_, fun i j hi hij => ?_, fun l hl => ?_⟩
    · simpa only [hnext] using h.nextpid
    · simpa only [hpid] using h.unused i (by rwa [← huse i])
    · simpa only [hpid, hnext] using h.range i ((huse i).1 hi)
    · simp only [hpid] at hij
      exact h.inj i j ((huse i).1 hi) hij
    · refine ⟨by simpa only [hnext] using (h.lock l hl).1, fun q hq hq' => ?_⟩
      simp only [hpid] at hq'
      exact (h.lock l hl).2 q ((huse q).1 hq) hq'
  | free i hi =>
    rw [hi]
    exact h.free i
  | take np hpos ht =>
    rw [ht]
    exact h.take hpos
  | fail np hpos ht =>
    rw [ht]
    exact (h.take hpos).free np

theorem acquiresleep (h : Inv s) {p : Fin n} (hp : Active (s.slots.slot p).state) (l : L) :
    Inv (s.acquiresleep p l) := by
  have huse : InUse s.slots p := active_ne hp
  refine ⟨h.nextpid, h.unused, h.range, h.inj, fun l' hl' => ?_⟩
  by_cases hll : l' = l
  · subst hll
    simp only [System.acquiresleep, Function.update_self]
    exact ⟨(h.range p huse).2, fun q hq hpid => congrArg some (h.inj p q huse hpid)⟩
  · simp only [System.acquiresleep, Function.update_of_ne hll] at hl' ⊢
    exact h.lock l' hl'

theorem releasesleep (h : Inv s) (l : L) : Inv (s.releasesleep l) := by
  refine ⟨h.nextpid, h.unused, h.range, h.inj, fun l' hl' => ?_⟩
  by_cases hll : l' = l
  · subst hll
    simp [System.releasesleep] at hl'
  · simp only [System.releasesleep, Function.update_of_ne hll] at hl' ⊢
    exact h.lock l' hl'

theorem step (h : Inv s) {e : Event n L} (hguard : NotWrapped s e)
    (hstep : Pid.step e s = .ok ((), s')) : Inv s' := by
  cases e with
  | slots e =>
    simp only [Pid.step] at hstep
    split at hstep <;> cases hstep
    next t hs =>
      exact h.change (next_change hs fun np memory he => hguard np memory (congrArg _ he))
  | acquiresleep p l =>
    simp only [Pid.step] at hstep
    split at hstep <;> cases hstep
    next hok => exact h.acquiresleep hok.1 l
  | releasesleep l =>
    cases hstep
    exact h.releasesleep l

theorem reach (h : Reach Pid.step NotWrapped Initial s) : Inv s :=
  h.invariant (fun _ => initial) fun _ _ _ _ hs hguard hstep => hs.step hguard hstep

end Inv

/-- While no process is allocated after the counter has wrapped around, processes in
use have different positive pids; `kfork` returns a positive number; a slot that
`kkill` strikes for a positive pid is the one process with this pid; and
`holdingsleep` is true of the holder only. -/
theorem pid_identifies {s : System n L} (h : Reach step NotWrapped Initial s) :
    (∀ i, InUse s.slots i → 0 < (s.slots.slot i).pid.toInt) ∧
    (∀ i j, InUse s.slots i → InUse s.slots j → (s.slots.slot i).pid = (s.slots.slot j).pid →
      i = j) ∧
    (∀ np t', 0 < s.slots.nextpid.toInt → s.slots.next (.alloc np true) = some t' →
      0 < (t'.slot np).pid.toInt) ∧
    (∀ p pid i hi, s.slots.scan p = some (pid, i) → 0 < pid.toInt →
      (s.slots.slot ⟨i, hi⟩).pid = pid →
      InUse s.slots ⟨i, hi⟩ ∧ ∀ j, (s.slots.slot j).pid = pid → j = ⟨i, hi⟩) ∧
    ∀ p l, InUse s.slots p → s.holdingsleep p l = true → s.holder l = some p := by
  have hinv := Inv.reach h
  refine ⟨fun i hi => ?_, fun i j hi _ => hinv.inj i j hi, fun np t' hpos hs => ?_,
    fun p pid i hi _ hpos hpid => ?_, fun p l hp hholding => ?_⟩
  · have hrange := hinv.range i hi
    have hnext := hinv.nextpid
    exact (toInt_pos_iff _).2 ⟨hrange.1, by omega⟩
  · simp only [Slots.next] at hs
    split at hs <;> cases hs
    simpa using hpos
  · have huse : InUse s.slots ⟨i, hi⟩ := by
      by_contra hnot
      rw [← hpid, hinv.unused _ hnot] at hpos
      simp at hpos
    exact ⟨huse, fun j hj => (hinv.inj _ _ huse (hpid.trans hj.symm)).symm⟩
  · rw [System.holdingsleep, Bool.and_eq_true, beq_iff_eq] at hholding
    exact (hinv.lock l hholding.1).2 p hp hholding.2

/-- Two processes; the first one holds a sleep-lock. -/
def twoProcesses : List (Event 2 Unit) :=
  [.slots (.alloc 0 true), .slots (.start 0), .acquiresleep 0 (), .slots (.alloc 1 true),
    .slots (.start 1)]

def booted : System 2 Unit := ⟨.boot, fun _ => ⟨false, 0⟩, fun _ => none⟩

theorem initial_booted : Initial booted := rfl

theorem twoProcesses_pids :
    InUse (drive step twoProcesses booted).slots 1 ∧
    0 < ((drive step twoProcesses booted).slots.slot 1).pid.toInt ∧
    (drive step twoProcesses booted).holder () = some 0 := by
  have hreach : Reach step NotWrapped Initial (drive step twoProcesses booted) := by
    refine Reach.drive_allowed initial_booted ?_
    refine ⟨fun _ _ _ => ?_, nofun, nofun, fun _ _ _ => ?_, nofun, trivial⟩ <;> decide
  have hrun : ((drive step twoProcesses booted).slots.slot 1).state ≠ .unused ∧
      ((drive step twoProcesses booted).slots.slot 0).state ≠ .unused ∧
      (drive step twoProcesses booted).holdingsleep 0 () = true := by decide +kernel
  have hpids := pid_identifies hreach
  exact ⟨hrun.1, hpids.1 1 hrun.1, hpids.2.2.2.2 0 () hrun.2.1 hrun.2.2⟩

/-! ## When the counter wraps around -/

/-- The first process waits, the other slot is free, and `allocpid` comes to `k`. -/
structure Resting (k : ℕ) (s : System 2 Unit) : Prop where
  first : (s.slots.slot 0).state = .runnable ∧ (s.slots.slot 0).pid = 1
  second : (s.slots.slot 1).state = .unused
  nextpid : s.slots.nextpid = BitVec.ofNat 32 k

/-- A child is forked, exits and is waited for. -/
def childLife : List (Event 2 Unit) :=
  [.slots (.alloc 1 true), .slots (.start 1), .slots (.exit 1), .slots (.wait 1)]

theorem Resting.childLife {k : ℕ} {s : System 2 Unit} (h : Resting k s) :
    Resting (k + 1) (drive step childLife s) := by
  have hne : (0 : Fin 2) ≠ 1 := by decide
  have hrun : (drive step Pid.childLife s).slots.slot 0 = s.slots.slot 0 ∧
      ((drive step Pid.childLife s).slots.slot 1).state = .unused ∧
      (drive step Pid.childLife s).slots.nextpid = s.slots.nextpid + 1 := by
    simp [drive, Pid.childLife, step, Slots.next, h.second, Slots.take, Slots.setSlot,
      Slots.freeproc, Active, hne]
  refine ⟨by rw [hrun.1]; exact h.first, hrun.2.1, ?_⟩
  rw [hrun.2.2, h.nextpid, BitVec.ofNat_add]
  rfl

theorem reach_resting (k : ℕ) :
    ∃ s, Reach step (fun _ _ => True) Initial s ∧ Resting (k + 2) s := by
  induction k with
  | zero =>
    refine ⟨drive step [.slots (.alloc 0 true), .slots (.start 0)] booted,
      Reach.drive initial_booted fun _ _ _ => trivial, ?_⟩
    exact ⟨by decide, by decide, by decide⟩
  | succ k ih =>
    obtain ⟨s, ⟨s₀, evs, hinit, hrun⟩, hs⟩ := ih
    have hallowed : Allowed step (fun _ _ => True) childLife s :=
      Allowed.of_forall (fun _ _ _ => trivial) s
    obtain ⟨evs', hrun'⟩ := Run.drive hallowed
    exact ⟨_, ⟨s₀, evs ++ evs', hinit, hrun.append hrun'⟩, hs.childLife⟩

/-- Fork once more: the child's pid is the counter. -/
theorem Resting.fork {k : ℕ} {s : System 2 Unit} (h : Resting k s)
    (hreach : Reach step (fun _ _ => True) Initial s) :
    ∃ s' : System 2 Unit, Reach step (fun _ _ => True) Initial s' ∧ InUse s'.slots 0 ∧ InUse s'.slots 1 ∧
      (s'.slots.slot 0).pid = 1 ∧ (s'.slots.slot 1).pid = BitVec.ofNat 32 k := by
  have hnext : s.slots.next (.alloc 1 true) = some (s.slots.take 1) := by
    simp [Slots.next, h.second]
  have hzero : (s.slots.take 1).slot 0 = s.slots.slot 0 := take_of_ne (by decide)
  refine ⟨{ s with slots := s.slots.take 1 },
    hreach.next (i := .slots (.alloc 1 true)) (r := ()) trivial (by simp [step, hnext]), ?_, ?_,
    ?_, ?_⟩
  · simp [InUse, hzero, h.first.1]
  · simp [InUse]
  · rw [hzero]
    exact h.first.2
  · rw [take_pid, h.nextpid]

/-- After enough forks a process has a negative pid, and later one has the pid of the
first process, which still runs. -/
theorem pid_wraps :
    (∃ s : System 2 Unit, Reach step (fun _ _ => True) Initial s ∧ InUse s.slots 1 ∧
      (s.slots.slot 1).pid.toInt < 0) ∧
    ∃ s : System 2 Unit, Reach step (fun _ _ => True) Initial s ∧ InUse s.slots 0 ∧
      InUse s.slots 1 ∧ (s.slots.slot 1).pid = (s.slots.slot 0).pid := by
  obtain ⟨s₁, hreach₁, hs₁⟩ := reach_resting (2 ^ 31 - 2)
  obtain ⟨s₂, hreach₂, hs₂⟩ := reach_resting (2 ^ 32 - 1)
  obtain ⟨t₁, ht₁, -, huse₁, -, hpid₁⟩ := hs₁.fork hreach₁
  obtain ⟨t₂, ht₂, hzero, hone, hpid, hpid₂⟩ := hs₂.fork hreach₂
  refine ⟨⟨t₁, ht₁, huse₁, ?_⟩, ⟨t₂, ht₂, hzero, hone, ?_⟩⟩
  · rw [hpid₁]
    decide
  · rw [hpid₂, hpid]
    decide

end Xv6.Proc.Pid
