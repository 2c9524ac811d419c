import Xv6.Library.Run

/-! # Spinlocks and interrupts

spinlock.c on several cpus.  Every access to a lock's fields is a step of its own,
so those of different cpus interleave; `push_off` and `pop_off` only touch the
cpu they run on.
-/
namespace Xv6.Sched.Spin
open Library

variable {n : ℕ} {L : Type}

/-- Where a cpu is in `acquire` or `release`. -/
inductive Point (L : Type)
  | run
  /-- In `holding(lk)`, called from `acquire` or `release`, before it reads `lk->locked`. -/
  | holding (lk : L) (acquires : Bool)
  /-- The same before it reads `lk->cpu`. -/
  | compare (lk : L) (acquires locked : Bool)
  /-- `while(__sync_lock_test_and_set(&lk->locked, 1) != 0)`. -/
  | spin (lk : L)
  /-- `lk->cpu = mycpu()`. -/
  | own (lk : L)
  /-- `lk->cpu = 0`. -/
  | clear (lk : L)
  /-- `__sync_lock_release(&lk->locked)`. -/
  | unlock (lk : L)
  | pop

/-- `held` lists the locks that the cpu has taken and `pushed` counts its own calls of
`push_off`, whose `pop_off` is to come. -/
structure Cpu (L : Type) where
  intr : Bool
  noff : ℕ
  intena : Bool
  pc : Point L
  held : List L
  pushed : ℕ

structure State (n : ℕ) (L : Type) where
  locked : L → Bool
  owner : L → Option (Fin n)
  cpu : Fin n → Cpu L

inductive Stop
  | panic (msg : String)

/-- What the code of a cpu calls next. -/
inductive Call (L : Type)
  | acquire (lk : L)
  | release (lk : L)
  | pushOff
  | popOff
  /-- `intr_on` or `intr_off`. -/
  | intr (on : Bool)

def Cpu.pushOff (u : Cpu L) : Cpu L :=
  { u with intr := false, intena := if u.noff = 0 then u.intr else u.intena, noff := u.noff + 1 }

def Cpu.popOff (u : Cpu L) : Except Stop (Cpu L) :=
  if u.intr then .error (.panic "pop_off - interruptible")
  else if u.noff < 1 then .error (.panic "pop_off")
  else .ok { u with noff := u.noff - 1, intr := u.noff - 1 = 0 && u.intena, pc := .run }

def call (u : Cpu L) : Call L → Cpu L
  | .acquire lk => { u.pushOff with pc := .holding lk true }
  | .release lk => { u with pc := .holding lk false }
  | .pushOff => { u.pushOff with pushed := u.pushed + 1 }
  | .popOff => { u with pc := .pop, pushed := u.pushed - 1 }
  | .intr on => { u with intr := on }

def State.put (s : State n L) (c : Fin n) (u : Cpu L) : State n L :=
  { s with cpu := Function.update s.cpu c u }

variable [DecidableEq L]

def step (e : Fin n × Call L) (s : State n L) : Except Stop (Unit × State n L) :=
  let c := e.1
  let u := s.cpu c
  match u.pc with
  | .run => .ok ((), s.put c (call u e.2))
  | .holding lk acquires => .ok ((), s.put c { u with pc := .compare lk acquires (s.locked lk) })
  | .compare lk acquires locked =>
    match locked && s.owner lk == some c, acquires with
    | true, true => .error (.panic "acquire")
    | false, true => .ok ((), s.put c { u with pc := .spin lk })
    | true, false => .ok ((), s.put c { u with pc := .clear lk })
    | false, false => .error (.panic "release")
  | .spin lk =>
    if s.locked lk then .ok ((), s)
    else .ok ((), { s with locked := Function.update s.locked lk true }.put c
      { u with pc := .own lk, held := lk :: u.held })
  | .own lk => .ok ((), { s with owner := Function.update s.owner lk (some c) }.put c
      { u with pc := .run })
  | .clear lk => .ok ((), { s with owner := Function.update s.owner lk none }.put c
      { u with pc := .unlock lk })
  | .unlock lk => .ok ((), { s with locked := Function.update s.locked lk false }.put c
      { u with pc := .pop, held := u.held.erase lk })
  | .pop => u.popOff.map fun u' => ((), s.put c u')

/-- Code takes only locks it does not hold and gives back what it took; it calls `intr_on` only
outside of all sections. -/
def Allowed (u : Cpu L) : Call L → Prop
  | .acquire lk => lk ∉ u.held
  | .release lk => lk ∈ u.held
  | .pushOff => True
  | .popOff => 0 < u.pushed
  | .intr on => on = true → u.noff = 0

def Guard (s : State n L) (e : Fin n × Call L) : Prop :=
  (s.cpu e.1).pc = .run → Allowed (s.cpu e.1) e.2

def Initial (s : State n L) : Prop :=
  (∀ lk, s.locked lk = false ∧ s.owner lk = none) ∧
    ∀ c, (s.cpu c).pc = .run ∧ (s.cpu c).held = [] ∧ (s.cpu c).noff = 0 ∧ (s.cpu c).pushed = 0

/-- Which locks a cpu has at a point. -/
def AtPoint (held : List L) : Point L → Prop
  | .holding lk acquires => acquires = true ↔ lk ∉ held
  | .compare lk acquires locked => (acquires = true ↔ lk ∉ held) ∧ (acquires = false → locked = true)
  | .spin lk => lk ∉ held
  | .own lk | .clear lk | .unlock lk => lk ∈ held
  | _ => True

/-- The calls of `push_off` inside `acquire`, and of `pop_off` inside `release`, that are not yet
matched by a lock. -/
def open_ : Point L → ℕ
  | .holding _ acquires | .compare _ acquires _ => acquires.toNat
  | .spin _ | .pop => 1
  | _ => 0

structure CpuOk (u : Cpu L) : Prop where
  nodup : u.held.Nodup
  point : AtPoint u.held u.pc
  noff : u.noff = u.held.length + u.pushed + open_ u.pc
  intr : 0 < u.noff → u.intr = false

structure Good (s : State n L) : Prop where
  cpu : ∀ c, CpuOk (s.cpu c)
  locked : ∀ lk, s.locked lk = true ↔ ∃ c, lk ∈ (s.cpu c).held
  unique : ∀ lk c d, lk ∈ (s.cpu c).held → lk ∈ (s.cpu d).held → c = d
  owner : ∀ lk c, s.owner lk = some c ↔
    lk ∈ (s.cpu c).held ∧ (s.cpu c).pc ≠ .own lk ∧ (s.cpu c).pc ≠ .unlock lk

variable {s s' : State n L} {c : Fin n} {u : Cpu L}

omit [DecidableEq L] in
/-- A step that takes and drops no lock. -/
theorem Good.put (h : Good s) {o : L → Option (Fin n)} (hu : CpuOk u)
    (hheld : u.held = (s.cpu c).held) (howner : ∀ lk d, o lk = some d ↔ lk ∈ (s.cpu d).held ∧
      (Function.update s.cpu c u d).pc ≠ .own lk ∧ (Function.update s.cpu c u d).pc ≠ .unlock lk) :
    Good ({ s with owner := o }.put c u) := by
  have hcpu (d : Fin n) : (Function.update s.cpu c u d).held = (s.cpu d).held := by
    by_cases hd : d = c
    · rw [hd, Function.update_self, hheld]
    · rw [Function.update_of_ne hd]
  refine ⟨fun d => ?_, fun lk => ?_, fun lk d d' => ?_, fun lk d => ?_⟩
  · by_cases hd : d = c
    · simpa [State.put, hd] using hu
    · simpa [State.put, hd] using h.cpu d
  · simpa only [State.put, hcpu] using h.locked lk
  · simpa only [State.put, hcpu] using h.unique lk d d'
  · simpa only [State.put, hcpu] using howner lk d

omit [DecidableEq L] in
theorem Good.goto (h : Good s) (hu : CpuOk u) (hheld : u.held = (s.cpu c).held)
    (hpc : ∀ lk, u.pc ≠ .own lk ∧ u.pc ≠ .unlock lk)
    (hpc' : ∀ lk, (s.cpu c).pc ≠ .own lk ∧ (s.cpu c).pc ≠ .unlock lk) : Good (s.put c u) := by
  refine h.put hu hheld fun lk d => ?_
  by_cases hd : d = c
  · subst hd
    simpa [hpc lk, hpc' lk] using h.owner lk d
  · simpa [hd] using h.owner lk d

/-- The cpu takes or drops `lk`, which has no owner on record. -/
theorem Good.relock (h : Good s) {lk : L} {taken : Bool} (hu : CpuOk u) (howner : s.owner lk = none)
    (hheld : ∀ k, k ∈ u.held ↔ if k = lk then taken = true else k ∈ (s.cpu c).held)
    (hother : ∀ d, d ≠ c → lk ∉ (s.cpu d).held) (htaken : taken = true → u.pc = .own lk)
    (hpc : ∀ k, k ≠ lk → (s.cpu c).pc ≠ .own k ∧ (s.cpu c).pc ≠ .unlock k ∧ u.pc ≠ .own k ∧
      u.pc ≠ .unlock k) :
    Good ({ s with locked := Function.update s.locked lk taken }.put c u) := by
  have hcpu (d : Fin n) (k : L) : k ∈ (Function.update s.cpu c u d).held ↔
      if k = lk then d = c ∧ taken = true else k ∈ (s.cpu d).held := by
    by_cases hd : d = c
    · simp [hd, hheld k]
    · have := hother d hd
      simp only [Function.update_of_ne hd]
      grind
  refine ⟨fun d => ?_, fun k => ?_, fun k d d' => ?_, fun k d => ?_⟩
  · by_cases hd : d = c
    · simpa [State.put, hd] using hu
    · simpa [State.put, hd] using h.cpu d
  · simp only [State.put, hcpu]
    by_cases hk : k = lk
    · simp [hk]
    · simpa [hk] using h.locked k
  · have := h.unique k d d'
    simp only [State.put, hcpu]
    grind
  · have := h.owner k d
    have := hpc k
    simp only [State.put, hcpu]
    grind

omit [DecidableEq L] in
theorem CpuOk.called (h : CpuOk u) (hpc : u.pc = .run) {i : Call L} (hi : Allowed u i) :
    CpuOk (call u i) := by
  have hnoff := h.noff
  rw [hpc] at hnoff
  cases i with
  | acquire lk =>
    have : lk ∉ u.held := hi
    refine ⟨h.nodup, ?_, ?_, fun _ => rfl⟩
    · simpa [call, Cpu.pushOff, AtPoint] using this
    · simpa [call, Cpu.pushOff, open_] using hnoff
  | release lk =>
    have : lk ∈ u.held := hi
    exact ⟨h.nodup, by simpa [call, AtPoint] using this, hnoff, h.intr⟩
  | pushOff =>
    refine ⟨h.nodup, ?_, ?_, fun _ => rfl⟩
    · simp [call, Cpu.pushOff, hpc, AtPoint]
    · simp only [call, Cpu.pushOff, hpc]
      omega
  | popOff =>
    refine ⟨h.nodup, trivial, ?_, h.intr⟩
    have : 0 < u.pushed := hi
    simp only [call, open_] at *
    omega
  | intr on =>
    refine ⟨h.nodup, ?_, ?_, fun hpos => ?_⟩
    · simp [call, hpc, AtPoint]
    · simpa [call, hpc] using hnoff
    · cases on with
      | false => rfl
      | true => exact absurd (hi rfl) (Nat.pos_iff_ne_zero.mp hpos)

theorem Good.step (h : Good s) (e : Fin n × Call L) (hg : Guard s e) :
    ∃ s', Spin.step e s = .ok ((), s') ∧ Good s' := by
  obtain ⟨c, i⟩ := e
  have hok := h.cpu c
  have hpoint := hok.point
  simp only [Spin.step]
  cases hpc : (s.cpu c).pc with
  | run =>
    refine ⟨_, rfl, h.goto (hok.called hpc (hg hpc)) (by cases i <;> rfl) (fun lk => ?_) (by simp [hpc])⟩
    cases i <;> simp [Spin.call, Cpu.pushOff, hpc]
  | holding lk acquires =>
    rw [hpc] at hpoint
    refine ⟨_, rfl, h.goto ⟨hok.nodup, ⟨hpoint, fun ha => ?_⟩, ?_, hok.intr⟩ rfl (by simp) (by simp [hpc])⟩
    · have : lk ∈ (s.cpu c).held := by simpa [AtPoint, ha] using hpoint
      exact (h.locked lk).mpr ⟨c, this⟩
    · simpa [hpc, open_] using hok.noff
  | compare lk acquires locked =>
    rw [hpc] at hpoint
    obtain ⟨hmem, hl⟩ := hpoint
    have hown := h.owner lk c
    have hnoff := hok.noff
    rw [hpc] at hnoff
    cases acquires with
    | true =>
      have hno : lk ∉ (s.cpu c).held := hmem.mp rfl
      have hne : (s.owner lk == some c) = false := by simpa [hno] using hown
      simp only [hne, Bool.and_false]
      exact ⟨_, rfl, h.goto ⟨hok.nodup, hno, hnoff, hok.intr⟩ rfl (by simp) (by simp [hpc])⟩
    | false =>
      have hyes : lk ∈ (s.cpu c).held := by simpa using hmem
      have heq : (s.owner lk == some c) = true := by simpa [hyes, hpc] using hown
      simp only [heq, hl rfl, Bool.and_true]
      exact ⟨_, rfl, h.goto ⟨hok.nodup, hyes, hnoff, hok.intr⟩ rfl (by simp) (by simp [hpc])⟩
  | pop =>
    have hnoff := hok.noff
    rw [hpc] at hnoff
    have hpos : 0 < (s.cpu c).noff := by simp [hnoff, open_]
    have hpop : (s.cpu c).popOff = .ok { s.cpu c with
        noff := (s.cpu c).noff - 1
        intr := (s.cpu c).noff - 1 = 0 && (s.cpu c).intena
        pc := .run } := by
      rw [Cpu.popOff, hok.intr hpos, if_neg (by simp), if_neg (by omega)]
    rw [hpop]
    refine ⟨_, rfl, h.goto ⟨hok.nodup, trivial, ?_, ?_⟩ rfl (by simp) (by simp [hpc])⟩
    · simp only [open_] at hnoff ⊢
      omega
    · simp
      omega
  | spin lk =>
    rw [hpc] at hpoint
    by_cases hl : s.locked lk = true
    · exact ⟨s, if_pos hl, h⟩
    have hfree (d : Fin n) : lk ∉ (s.cpu d).held := fun hd => hl ((h.locked lk).mpr ⟨d, hd⟩)
    have hnone : s.owner lk = none :=
      Option.eq_none_iff_forall_ne_some.mpr fun d hd => hfree d ((h.owner lk d).mp hd).1
    refine ⟨_, if_neg hl, h.relock ⟨List.nodup_cons.mpr ⟨hpoint, hok.nodup⟩, List.mem_cons_self, ?_,
      hok.intr⟩ hnone (fun k => ?_) (fun d _ => hfree d) (fun _ => rfl) (by simp [hpc]; grind)⟩
    · have hnoff := hok.noff
      simp only [hpc, open_, List.length_cons] at *
      omega
    · by_cases hk : k = lk <;> simp [hk]
  | own lk =>
    rw [hpc] at hpoint
    refine ⟨_, rfl, h.put ⟨hok.nodup, trivial, ?_, hok.intr⟩ rfl fun k d => ?_⟩
    · simpa [hpc, open_] using hok.noff
    · have hmem : lk ∈ (s.cpu c).held := hpoint
      have := h.owner k d
      have := h.unique lk c d
      grind
  | clear lk =>
    rw [hpc] at hpoint
    refine ⟨_, rfl, h.put ⟨hok.nodup, hpoint, ?_, hok.intr⟩ rfl fun k d => ?_⟩
    · simpa [hpc, open_] using hok.noff
    · have hmem : lk ∈ (s.cpu c).held := hpoint
      have := h.owner k d
      have := h.unique lk c d
      grind
  | unlock lk =>
    rw [hpc] at hpoint
    have hmem : lk ∈ (s.cpu c).held := hpoint
    have hother (d : Fin n) (hd : d ≠ c) : lk ∉ (s.cpu d).held :=
      fun h' => hd (h.unique lk d c h' hmem)
    have hnone : s.owner lk = none := Option.eq_none_iff_forall_ne_some.mpr fun d hd => by
      obtain ⟨hd, -, hne⟩ := (h.owner lk d).mp hd
      exact hne (h.unique lk d c hd hmem ▸ hpc)
    refine ⟨_, rfl, h.relock ⟨hok.nodup.erase lk, trivial, ?_, hok.intr⟩ hnone (fun k => ?_) hother
      (by simp) (by simp [hpc]; grind)⟩
    · have hnoff := hok.noff
      have := List.length_pos_of_mem hmem
      simp only [hpc, open_, List.length_erase_of_mem hmem] at *
      omega
    · by_cases hk : k = lk <;> simp [hk, hok.nodup.mem_erase_iff]

/-- However the cpus interleave, a lock has at most one holder and a taken lock has one, a cpu that
holds a lock takes no interrupts, and code that takes no lock twice and returns what it took never
panics in `acquire`, `release` or `pop_off`. -/
theorem spinlock_exclusive (h : Reach (Spin.step (n := n)) Guard Initial s) :
    (∀ lk c d, lk ∈ (s.cpu c).held → lk ∈ (s.cpu d).held → c = d) ∧
    (∀ lk, s.locked lk = true ↔ ∃ c, lk ∈ (s.cpu c).held) ∧
    (∀ c, (s.cpu c).held ≠ [] → (s.cpu c).intr = false) ∧
    ∀ e, Guard s e → ∃ s', Spin.step e s = .ok ((), s') := by
  have hgood : Good s := by
    refine h.invariant ?_ ?_
    · rintro s ⟨hlock, hcpu⟩
      refine ⟨fun c => ?_, ?_, ?_, ?_⟩
      · obtain ⟨hpc, hheld, hnoff, hpushed⟩ := hcpu c
        constructor <;> simp [hpc, hheld, hnoff, hpushed, AtPoint, open_]
      · simp [hlock, hcpu]
      · simp [hcpu]
      · simp [hlock, hcpu]
    · intro s e _ s' hs hg hstep
      obtain ⟨s₁, hstep', hs₁⟩ := hs.step e hg
      rw [hstep'] at hstep
      cases hstep
      exact hs₁
  refine ⟨hgood.unique, hgood.locked, fun c hc => ?_, fun e hg => ?_⟩
  · have hok := hgood.cpu c
    have := List.length_pos_of_ne_nil hc
    exact hok.intr (by rw [hok.noff]; omega)
  · obtain ⟨s', hstep, -⟩ := hgood.step e hg
    exact ⟨s', hstep⟩

def allFree : State 2 Unit :=
  ⟨fun _ => false, fun _ => none, fun _ => ⟨true, 0, false, .run, [], 0⟩⟩

/-- Cpu 0 takes the lock, and cpu 1 finds it taken. -/
def contention : List (Fin 2 × Call Unit) :=
  List.replicate 5 (0, .acquire ()) ++ List.replicate 4 (1, .acquire ())

theorem contention_exclusive : () ∈ ((drive Spin.step contention allFree).cpu 0).held ∧
    ((drive Spin.step contention allFree).cpu 0).intr = false ∧
    () ∉ ((drive Spin.step contention allFree).cpu 1).held := by
  have hreach : Reach Spin.step Guard Initial (drive Spin.step contention allFree) := by
    refine Reach.drive_allowed ⟨fun _ => ⟨rfl, rfl⟩, fun _ => ⟨rfl, rfl, rfl, rfl⟩⟩ ?_
    exact ⟨fun _ => List.not_mem_nil, nofun, nofun, nofun, nofun, fun _ => List.not_mem_nil, nofun,
      nofun, nofun, trivial⟩
  have hmem : () ∈ ((drive Spin.step contention allFree).cpu 0).held := List.mem_cons_self
  obtain ⟨hunique, -, hintr, -⟩ := spinlock_exclusive hreach
  exact ⟨hmem, hintr 0 (List.ne_nil_of_mem hmem),
    fun h => absurd (hunique () 0 1 hmem h) (by decide)⟩

end Xv6.Sched.Spin
