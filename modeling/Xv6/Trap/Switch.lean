import Xv6.Library.Riscv
import Xv6.Library.Run

/-! # Switching between contexts

`swtch` of swtch.S on harts that share memory.  A context is that of a process or of the
scheduler of a hart, and the process may go on at another hart than it left.
-/
namespace Xv6.Trap
open Library Library.Riscv Reg

/-- The fields of `struct context`. -/
def context : List (Reg × Word) :=
  [(ra, 0), (sp, 8), (s0, 16), (s1, 24), (s2, 32), (s3, 40), (s4, 48), (s5, 56), (s6, 64), (s7, 72),
    (s8, 80), (s9, 88), (s10, 96), (s11, 104)]

def swtch : List Instr := saves a0 context ++ loads a1 context

variable {n : ℕ} {ι : Type}

/-- `cur h` is the context that hart `h` runs. -/
structure Harts (n : ℕ) (ι : Type) where
  x : Fin n → Reg → Word
  mem : Word → Word
  cur : Fin n → ι

inductive Switch (ι : Type)
  /-- The code of the context runs. -/
  | work (x : Reg → Word) (mem : Word → Word)
  /-- It calls `swtch(&c, &c')`, where `c` is its context. -/
  | swtch (c' : ι)

section
variable (addr : ι → Word)

/-- Hart `h` with the arguments of `swtch` in place.  The kernel maps its memory to itself. -/
def calling (s : Harts n ι) (h : Fin n) (c' : ι) : Hart where
  id := 0
  x := Function.update (Function.update (s.x h) a0 (addr (s.cur h))) a1 (addr c')
  csr _ := 0
  sstatus := ⟨false, false, false⟩
  user := false
  pc := 0
  mem := s.mem

def switchStep (e : Fin n × Switch ι) (s : Harts n ι) : Except Empty (Unit × Harts n ι) :=
  match e.2 with
  | .work x mem => .ok ((), { s with x := Function.update s.x e.1 x, mem := mem })
  | .swtch c' =>
    let t := run (fun _ va => va) swtch (calling addr s e.1 c')
    .ok ((), ⟨Function.update s.x e.1 t.x, t.mem, Function.update s.cur e.1 c'⟩)

/-- Only `swtch` writes contexts, and the lock of a process keeps it off a second hart. -/
def SwitchGuard (s : Harts n ι) (e : Fin n × Switch ι) : Prop :=
  match e.2 with
  | .work _ mem => ∀ c, ∀ f ∈ context, mem (addr c + f.2) = s.mem (addr c + f.2)
  | .swtch c' => ∀ h, s.cur h ≠ c'

/-- The context `c` is suspended with the registers `x`. -/
structure Suspended (c : ι) (x : Reg → Word) (s : Harts n ι) : Prop where
  away : ∀ h, s.cur h ≠ c
  saved : ∀ f ∈ context, s.mem (addr c + f.2) = x f.1

end

section
variable {addr : ι → Word} {s s' : Harts n ι} {h : Fin n} {c c' : ι} {x : Reg → Word}

theorem context_args : ∀ f ∈ context, f.1 ≠ a0 ∧ f.1 ≠ a1 := by decide

theorem run_swtch (t : Hart) : run (fun _ va => va) swtch t =
    { t with
      mem := saved (t.x a0) t.x context t.mem
      x := loaded (t.x a1) (saved (t.x a0) t.x context t.mem) context t.x } := by
  rw [swtch, run_append, run_saves fun _ _ => rfl,
    run_loads fun f hf => ⟨(context_args f hf).2, rfl⟩]

/-- The fields of two contexts do not overlap. -/
def Apart (addr : ι → Word) : Prop :=
  ∀ c c', c ≠ c' → ∀ f ∈ context, ∀ g ∈ context, addr c + f.2 ≠ addr c' + g.2

theorem swtch_mem (hctx : Apart addr) (hstep : switchStep addr (h, .swtch c') s = .ok ((), s')) :
    (∀ f ∈ context, s'.mem (addr (s.cur h) + f.2) = s.x h f.1) ∧
      (∀ d ≠ s.cur h, ∀ f ∈ context, s'.mem (addr d + f.2) = s.mem (addr d + f.2)) ∧
      (∀ f ∈ context, s'.x h f.1 = s'.mem (addr c' + f.2)) ∧
      s'.cur = Function.update s.cur h c' := by
  have hnodup : (context.map Prod.fst).Nodup ∧ (context.map Prod.snd).Nodup := by decide
  have ha0 : (calling addr s h c').x a0 = addr (s.cur h) := by simp [calling]
  have ha1 : (calling addr s h c').x a1 = addr c' := by simp [calling]
  simp only [switchStep, run_swtch, ha0, ha1] at hstep
  cases hstep
  refine ⟨fun f hf => ?_, fun d hd f hf => ?_, fun f hf => ?_, rfl⟩
  · refine (saved_of_mem hnodup.2 hf).trans ?_
    simp [calling, context_args f hf]
  · exact saved_of_not_mem fun g hg => hctx d _ hd f hf g hg
  · simp only [Function.update_self]
    exact loaded_of_mem hnodup.1 hf

theorem Suspended.step (hctx : Apart addr) (hs : Suspended addr c x s) {e : Fin n × Switch ι}
    (hg : SwitchGuard addr s e) (hne : e.2 ≠ .swtch c)
    (hstep : switchStep addr e s = .ok ((), s')) : Suspended addr c x s' := by
  obtain ⟨h, a⟩ := e
  cases a with
  | work y mem =>
    cases hstep
    exact ⟨hs.away, fun f hf => (hg c f hf).trans (hs.saved f hf)⟩
  | swtch c' =>
    obtain ⟨-, hmem, -, hcur⟩ := swtch_mem hctx hstep
    refine ⟨fun h' => ?_, fun f hf => (hmem c (hs.away h).symm f hf).trans (hs.saved f hf)⟩
    rw [hcur]
    by_cases hh : h' = h
    · rw [hh, Function.update_self]
      exact fun heq => hne (by rw [heq])
    · rw [Function.update_of_ne hh]
      exact hs.away h'

/-- A context that has called `swtch` goes on with the registers it had, whatever contexts and harts
have run meanwhile and at whichever hart it is resumed. -/
theorem swtch_resumes (hctx : Apart addr) (hcur : Function.Injective s.cur)
    (hg : SwitchGuard addr s (h, .swtch c')) {s₁ s₂ : Harts n ι} {h' : Fin n}
    {evs : List ((Fin n × Switch ι) × Unit)}
    (hleave : switchStep addr (h, .swtch c') s = .ok ((), s₁))
    (hrun : Run (switchStep addr) (SwitchGuard addr) s₁ evs s₂)
    (hevs : ∀ e ∈ evs, e.1.2 ≠ .swtch (s.cur h))
    (hback : switchStep addr (h', .swtch (s.cur h)) s₂ = .ok ((), s')) :
    s'.cur h' = s.cur h ∧ ∀ f ∈ context, s'.x h' f.1 = s.x h f.1 := by
  have hstart : Suspended addr (s.cur h) (s.x h) s₁ := by
    obtain ⟨hsaved, -, -, hcur₁⟩ := swtch_mem hctx hleave
    refine ⟨fun d => ?_, hsaved⟩
    rw [hcur₁]
    by_cases hd : d = h
    · rw [hd, Function.update_self]
      exact (hg h).symm
    · rw [Function.update_of_ne hd]
      exact fun heq => hd (hcur heq)
  have hend : Suspended addr (s.cur h) (s.x h) s₂ := by
    clear hleave hback
    induction hrun with
    | nil => exact hstart
    | cons hguard hstep _ ih =>
      exact ih (fun e he => hevs e (List.mem_cons_of_mem _ he))
        (hstart.step hctx hguard (hevs _ List.mem_cons_self) hstep)
  obtain ⟨-, hmem, hload, hcur'⟩ := swtch_mem hctx hback
  refine ⟨by rw [hcur', Function.update_self], fun f hf => ?_⟩
  rw [hload f hf, hmem _ (hend.away h').symm f hf, hend.saved f hf]

end

/-- One hart runs a process, whose context lies before that of the scheduler. -/
def oneHart : Harts 1 Bool := ⟨fun _ _ => 7, fun _ => 0, fun _ => true⟩

theorem swtch_resumes_oneHart : ∃ s₁ s',
    switchStep (fun b => if b then 0x1000 else 0x2000) (0, .swtch false) oneHart = .ok ((), s₁) ∧
    switchStep (fun b => if b then 0x1000 else 0x2000) (0, .swtch true) s₁ = .ok ((), s') ∧
    s'.x 0 s5 = 7 := by
  refine ⟨_, _, rfl, rfl, ?_⟩
  exact (swtch_resumes (by unfold Apart; decide) (Function.injective_of_subsingleton _) (by simp [SwitchGuard, oneHart])
    rfl (.nil _) nofun rfl).2 (s5, 56) (by simp [context])

end Xv6.Trap
