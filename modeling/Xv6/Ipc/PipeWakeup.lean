import Xv6.Ipc.Pipe

/-! # Wakeups of readers and writers

Which exits of the loops of pipe.c wake the other side.  All of them do, except
one: a writer that finds itself killed after it has stored bytes returns without
`wakeup(&pi->nread)`.  Where no kill lands in that stretch, no reader and no
writer is left asleep.
-/
namespace Xv6.Ipc
open Library Sched

variable {p : ℕ}

/-- Past a `killed(pr)` of `pipewrite` that came back 0 and before the `wakeup`
that follows. -/
def MidWrite : Point → Prop
  | .wStore _ _ _ => True
  | .wLoop _ _ stored | .wKilled _ _ stored => stored = true
  | _ => False

def Unlocked : Point → Prop
  | .idle | .pipewrite _ | .piperead _ | .pipeclose _ => True
  | _ => False

/-- What the tests at the head of the loops found, until the lock is dropped. -/
def Tested (pi : Pipe) : Point → Prop
  | .wLoop _ _ stored => stored = true → pi.readopen = true
  | .wKilled _ _ _ | .wStore _ _ _ => pi.readopen = true
  | .wWakeFull _ _ | .wSleep _ _ => pi.isFull = true ∧ pi.readopen = true
  | .rKilled _ | .rSleep _ => pi.isEmpty = true ∧ pi.writeopen = true
  | _ => True

/-- What the sleepers of a channel wait for. -/
def Ready (pi : Pipe) : Chan → Prop
  | .nread => pi.isEmpty = false ∨ pi.writeopen = false
  | .nwrite => pi.isFull = false ∨ pi.readopen = false

def Owes (c : Chan) : Point → Prop
  | .wLoop _ _ stored | .wKilled _ _ stored | .wStore _ _ stored => stored = true ∧ c = .nread
  | .wWakeFull _ _ | .wDone _ => c = .nread
  | .rCopy _ _ | .rDone _ => c = .nwrite
  | .cWake writable => c = Chan.ofEnd writable
  | _ => False

def wakeSpec (p : ℕ) : Spec p Pipe Chan Point where
  holds k := ¬ Unlocked k
  inv _ := True
  own _ _ _ := True
  seen _ k pi := Tested pi k
  ready c pi := Ready pi c
  owes _ k c := Owes c k
  cleared _ _ _ := False
  calm _ k := MidWrite k

theorem entry_of {q : Fin p} {k : Point} (hk : ¬ Unlocked k) (hcalm : ¬ MidWrite k)
    (hseen : ∀ pi, Tested pi k) : (wakeSpec p).Entry q k :=
  ⟨hk, fun _ => id, hcalm, fun d _ _ => hseen d⟩

/-- A step that leaves the pipe as it is. -/
theorem look_sound {q : Fin p} {k k' : Point} {pi : Pipe} (hk : Unlocked k' ↔ Unlocked k)
    (hcalm : MidWrite k' → MidWrite k) (hseen : Tested pi k') (howes : ∀ c, Owes c k → Owes c k') :
    (wakeSpec p).StepSound q k k' pi pi :=
  Spec.StepSound.same trivial (not_congr hk) hcalm trivial (fun _ => hseen) (fun _ => id) howes

/-- A step under the lock that changes the pipe: what becomes ready, the process
owes from then on. -/
theorem change_sound {q : Fin p} {k k' : Point} {pi pi' : Pipe} (hk : ¬ Unlocked k)
    (hk' : ¬ Unlocked k') (hcalm : MidWrite k' → MidWrite k) (hseen : Tested pi' k')
    (hready : ∀ c, Ready pi' c → Owes c k' ∨ (Ready pi c ∧ ¬ Owes c k)) :
    (wakeSpec p).StepSound q k k' pi pi' where
  holds := iff_of_true hk' hk
  calm := hcalm
  inv := trivial
  own := trivial
  seen _ := hseen
  cleared _ := id
  ready _ c hr := (hready c hr).imp_right Or.inr
  ready_free h := absurd hk h
  own_other _ _ _ := id
  seen_other h := absurd hk h

theorem writeStep_sound {q : Fin p} {n i : ℤ} {stored : Bool} {x : Input} {pi pi' : Pipe}
    {k' : Point} (hopen : pi.readopen = true) (hf : writeStep n i x pi = some (pi', k')) :
    (wakeSpec p).StepSound q (.wStore n i stored) k' pi pi' := by
  simp only [writeStep] at hf
  split at hf
  · rename_i hfull
    cases hf
    exact look_sound (by simp [Unlocked]) (by simp [MidWrite]) ⟨hfull, hopen⟩
      fun c hc => hc.2
  · rename_i hfull
    split at hf
    · cases hf
      exact look_sound (by simp [Unlocked]) (by simp [MidWrite]) trivial fun c hc => hc.2
    · cases hf
      refine change_sound (by simp [Unlocked]) (by simp [Unlocked]) (by simp [MidWrite])
        (fun _ => hopen) fun c hc => ?_
      cases c with
      | nread => exact Or.inl ⟨rfl, rfl⟩
      | nwrite => exact Or.inr ⟨Or.inl (Bool.eq_false_iff.2 hfull), by simp [Owes]⟩
    · cases hf

theorem readStep_sound {q : Fin p} {n i : ℤ} {x : Input} {pi pi' : Pipe} {k' : Point}
    (hf : readStep n i x pi = some (pi', k')) :
    (wakeSpec p).StepSound q (.rCopy n i) k' pi pi' := by
  have hdone : (wakeSpec p).StepSound q (.rCopy n i) (.rDone i) pi pi :=
    look_sound (by simp [Unlocked]) (by simp [MidWrite]) trivial fun c hc => hc
  have htake : pi.isEmpty = false → ∀ c, ∀ b, Ready (pi.take b) c →
      c = .nwrite ∨ (Ready pi c ∧ ¬ Owes c (.rCopy n i)) := by
    intro hempty c b _
    cases c with
    | nread => exact Or.inr ⟨Or.inl hempty, by simp [Owes]⟩
    | nwrite => exact Or.inl rfl
  simp only [readStep] at hf
  split at hf
  · split at hf
    · cases hf
      exact hdone
    · rename_i hempty
      have hempty := Bool.eq_false_iff.2 hempty
      split at hf
      · cases hf
        exact change_sound (by simp [Unlocked]) (by simp [Unlocked]) (by simp [MidWrite]) trivial
          fun c hc => htake hempty c _ hc
      · cases hf
        exact change_sound (by simp [Unlocked]) (by simp [Unlocked]) (by simp [MidWrite]) trivial
          fun c hc => htake hempty c _ hc
      · cases hf
  · cases hf
    exact hdone

theorem shut_sound {q : Fin p} (writable : Bool) (pi : Pipe) :
    (wakeSpec p).StepSound q (.cShut writable) (.cWake writable) pi (pi.shut writable) := by
  refine change_sound (by simp [Unlocked]) (by simp [Unlocked]) (by simp [MidWrite]) trivial ?_
  intro c hc
  cases writable <;> cases c
  · exact Or.inr ⟨hc, by simp [Owes]⟩
  · exact Or.inl rfl
  · exact Or.inl rfl
  · exact Or.inr ⟨hc, by simp [Owes]⟩

theorem wLoop_sound {q : Fin p} {n i : ℤ} {stored : Bool} {pi : Pipe}
    (hseen : Tested pi (.wLoop n i stored)) :
    (wakeSpec p).StepSound q (.wLoop n i stored)
      (if i < n then if pi.readopen then .wKilled n i stored else .unlock (-1) else .wDone i)
      pi pi := by
  by_cases hi : i < n
  · by_cases hopen : pi.readopen = true
    · simp only [hi, hopen, ite_true]
      exact look_sound (by simp [Unlocked]) id hopen fun c hc => hc
    · -- bytes are stored only while the reading end is open
      simp only [hi, hopen, ite_true]
      refine look_sound (by simp [Unlocked]) (by simp [MidWrite]) trivial fun c hc => ?_
      exact absurd (hseen hc.1) hopen
  · simp only [hi, ite_false]
    exact look_sound (by simp [Unlocked]) (by simp [MidWrite]) trivial fun c hc => hc.2

theorem wake_sound : (wakeSpec p).Sound prog where
  calm q k hk := by
    cases k <;> simp_all [wakeSpec, MidWrite, Unlocked]
  act q k := by
    cases k with
    | idle =>
      intro x pi pi' k' hf _ _ _
      obtain ⟨k, hcall, hk⟩ := Option.map_eq_some_iff.1 hf
      cases hk
      cases x <;> cases hcall <;>
        exact look_sound (by simp [Unlocked]) (by simp [MidWrite]) trivial (by simp [Owes])
    | pipewrite n =>
      exact ⟨by simp [wakeSpec, Unlocked], entry_of (by simp [Unlocked]) (by simp [MidWrite])
        (by simp [Tested]), fun _ _ => id⟩
    | wLoop n i stored =>
      intro x pi pi' k' hf _ _ hseen
      cases hf
      exact wLoop_sound (hseen (by simp [wakeSpec, Unlocked]))
    | wKilled n i stored =>
      rintro b hb
      cases b with
      | true =>
        have hst : stored = false := by simpa [wakeSpec, MidWrite] using hb
        simp [wakeSpec, Unlocked, Owes, MidWrite, Tested, hst]
      | false => simp [wakeSpec, Unlocked, Owes, Tested]
    | wStore n i stored =>
      intro x pi pi' k' hf _ _ hseen
      exact writeStep_sound (hseen (by simp [wakeSpec, Unlocked])) hf
    | wWakeFull n i => simp [prog, Spec.ActSound, wakeSpec, Unlocked, Owes, Tested, MidWrite]
    | wSleep n i =>
      refine ⟨by simp [wakeSpec, Unlocked], entry_of (by simp [Unlocked]) (by simp [MidWrite])
        (by simp [Tested]), by simp [wakeSpec, Owes], ?_⟩
      rintro pi - - ⟨hfull, hopen⟩
      simp [wakeSpec, Ready, hfull, hopen]
    | wDone i => simp [prog, Spec.ActSound, wakeSpec, Unlocked, Owes, Tested, MidWrite]
    | piperead n =>
      exact ⟨by simp [wakeSpec, Unlocked], entry_of (by simp [Unlocked]) (by simp [MidWrite])
        (by simp [Tested]), fun _ _ => id⟩
    | rLoop n =>
      intro x pi pi' k' hf _ _ _
      cases hf
      split
      · rename_i hc
        exact look_sound (by simp [Unlocked]) (by simp [MidWrite])
          (by simpa [Tested] using hc) (by simp [Owes])
      · exact look_sound (by simp [Unlocked]) (by simp [MidWrite]) trivial (by simp [Owes])
    | rKilled n =>
      rintro b -
      cases b <;> simp [wakeSpec, Unlocked, Owes, MidWrite, Tested]
    | rSleep n =>
      refine ⟨by simp [wakeSpec, Unlocked], entry_of (by simp [Unlocked]) (by simp [MidWrite])
        (by simp [Tested]), by simp [wakeSpec, Owes], ?_⟩
      rintro pi - - ⟨hempty, hopen⟩
      simp [wakeSpec, Ready, hempty, hopen]
    | rCopy n i =>
      intro x pi pi' k' hf _ _ _
      exact readStep_sound hf
    | rDone i => simp [prog, Spec.ActSound, wakeSpec, Unlocked, Owes, Tested, MidWrite]
    | pipeclose writable =>
      exact ⟨by simp [wakeSpec, Unlocked], entry_of (by simp [Unlocked]) (by simp [MidWrite])
        (by simp [Tested]), fun _ _ => id⟩
    | cShut writable =>
      intro x pi pi' k' hf _ _ _
      cases hf
      exact shut_sound writable pi
    | cWake writable => simp [prog, Spec.ActSound, wakeSpec, Unlocked, Owes, Tested, MidWrite]
    | unlock r => simp [prog, Spec.ActSound, wakeSpec, Unlocked, Owes]

/-- No kill hits a process in the middle of a write. -/
def NoKillMidWrite (s : Machine p Pipe Chan Point) (e : Event p Input) : Prop :=
  ∀ q, e = .kkill q → ¬ MidWrite (s.thread q).point

theorem NoKillMidWrite.guard {s : Machine p Pipe Chan Point} {e : Event p Input}
    (h : NoKillMidWrite s e) : (wakeSpec p).Guard s e := by
  intro q he hcalm
  have hmid := h q he
  cases ht : s.thread q <;> rw [ht] at hcalm hmid
  case run k => exact hmid hcalm
  case wake1 c i k => exact hmid hcalm
  case wake2 c i k => exact hmid hcalm
  all_goals exact hcalm

/-- While `pi->lock` is free, no reader sleeps on a pipe with bytes or without
writers, and no writer on a pipe with room or without readers. -/
theorem pipe_no_lost_wakeup {s : Machine p Pipe Chan Point}
    (h : Reach (step prog) NoKillMidWrite Initial s) (hlk : s.lk = none) (q : Fin p) :
    ¬ (s.state q = .sleeping ∧ s.chan q = some .nread ∧
      (s.data.nread ≠ s.data.nwrite ∨ s.data.writeopen = false)) ∧
    ¬ (s.state q = .sleeping ∧ s.chan q = some .nwrite ∧
      (s.data.nwrite ≠ s.data.nread + BitVec.ofNat 32 PIPESIZE ∨ s.data.readopen = false)) := by
  have hgood : Good (wakeSpec p) s := by
    refine h.invariant ?_ fun s e _ s' hg hguard hstep =>
      hg.move wake_sound (step_cases hstep) hguard.guard
    rintro _ ⟨page, rfl⟩
    exact Good.start trivial (fun _ => trivial) fun _ => by simp [wakeSpec, Unlocked]
  constructor
  · rintro ⟨hst, hc, hready⟩
    refine hgood.not_ready hlk hst hc (hready.imp_left fun hne => ?_)
    simpa [Pipe.isEmpty] using hne
  · rintro ⟨hst, hc, hready⟩
    refine hgood.not_ready hlk hst hc (hready.imp_left fun hne => ?_)
    simpa [Pipe.isFull] using hne

def emptyPipe : Machine 2 Pipe Chan Point := .start (.alloc fun _ => 0) fun _ => .idle

/-- Process 0 calls `piperead` on the empty pipe and sleeps. -/
def readerSleeps : List (Event 2 Input) :=
  List.flatten [resume 0, run 0 9 (.read 4), [.schedRelease 0]]

theorem readerSleeps_not_lost :
    (drive (step prog) readerSleeps emptyPipe).state 0 = .sleeping ∧
    (drive (step prog) readerSleeps emptyPipe).lk = none ∧
    ¬ ((drive (step prog) readerSleeps emptyPipe).state 0 = .sleeping ∧
      (drive (step prog) readerSleeps emptyPipe).chan 0 = some .nread ∧
      ((drive (step prog) readerSleeps emptyPipe).data.nread ≠
        (drive (step prog) readerSleeps emptyPipe).data.nwrite ∨
        (drive (step prog) readerSleeps emptyPipe).data.writeopen = false)) := by
  have hreach : Reach (step prog) NoKillMidWrite Initial
      (drive (step prog) readerSleeps emptyPipe) := by
    refine Reach.drive ⟨fun _ => 0, rfl⟩ ?_
    rintro _ e he q rfl
    simp [readerSleeps, resume, run] at he
  have hrun : (drive (step prog) readerSleeps emptyPipe).state 0 = .sleeping ∧
      (drive (step prog) readerSleeps emptyPipe).lk = none := by decide +kernel
  exact ⟨hrun.1, hrun.2, (pipe_no_lost_wakeup hreach hrun.2 0).1⟩

/-- Then process 1 writes, is killed after its first byte and returns. -/
def writerKilled : List (Event 2 Input) :=
  List.flatten [readerSleeps, resume 1, run 1 2 (.write 2), run 1 4 (.copyin (some 7)),
    [.kkill 1], run 1 3 (.copyin (some 8))]

/-- The reader is left asleep beside a byte it could read. -/
theorem writerKilled_loses_wakeup :
    ∃ s : Machine 2 Pipe Chan Point, Reach (step prog) (fun _ _ => True) Initial s ∧
      s.lk = none ∧ s.state 0 = .sleeping ∧ s.chan 0 = some .nread ∧
      s.data.nread ≠ s.data.nwrite :=
  ⟨drive (step prog) writerKilled emptyPipe,
    Reach.drive ⟨fun _ => 0, rfl⟩ fun _ _ _ => trivial, by decide +kernel⟩

end Xv6.Ipc
