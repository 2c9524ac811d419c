import Xv6.Library.Riscv

/-! # Interrupts of kernel code

`kernelvec` of kernelvec.S with `kerneltrap` of trap.c inside.
-/
namespace Xv6.Trap
open Library Library.Riscv Reg

/-- Where `kernelvec` saves the registers from `t0` on. -/
def kernelFrame : List (Reg × Word) :=
  [(t0, 32), (t1, 40), (t2, 48), (a0, 72), (a1, 80), (a2, 88), (a3, 96), (a4, 104), (a5, 112),
    (a6, 120), (a7, 128), (t3, 216), (t4, 224), (t5, 232), (t6, 240)]

def kernelSaved : List (Reg × Word) := [(ra, 0), (gp, 16), (tp, 24)] ++ kernelFrame

/-- `tp` is not restored, in case the process moved to another hart. -/
def kernelRestored : List (Reg × Word) := [(ra, 0), (gp, 16)] ++ kernelFrame

/-- `body` is `devintr` and a `yield` after a timer interrupt; it fails where `devintr` does not know
the source. -/
def kerneltrap (body : Hart → Option Hart) (s : Hart) : Option Hart :=
  if s.sstatus.spp = false ∨ s.sstatus.sie = true then none
  else (body s).map fun s' => { s'.setCsr .sepc (s.csr .sepc) with sstatus := s.sstatus }

/-- Addresses are those of the kernel's address space. -/
def kernelvec (body : Hart → Option Hart) (s : Hart) : Option Hart :=
  (kerneltrap body (run (fun _ va => va) ([.addi sp sp (-256)] ++ saves sp kernelSaved) s)).map
    fun s' => (run (fun _ va => va) (loads sp kernelRestored ++ [.addi sp sp 256]) s').sret

/-- C code keeps the stack pointer, the saved registers and the stack above it. -/
def KeepsStack (body : Hart → Option Hart) : Prop :=
  ∀ s s', body s = some s' →
    (∀ r ∈ [sp, s0, s1, s2, s3, s4, s5, s6, s7, s8, s9, s10, s11], s'.x r = s.x r) ∧
      ∀ o : Word, o.toNat < 256 → s'.mem (s.x sp + o) = s.mem (s.x sp + o)

variable {body : Hart → Option Hart} {s s' : Hart}

theorem kernel_regs (r : Reg) (hr : r ≠ tp) : r = sp ∨ r ≠ sp ∧
    ((∃ o : Word, o.toNat < 256 ∧ (r, o) ∈ kernelSaved ∧ (r, o) ∈ kernelRestored) ∨
      r ∈ [s0, s1, s2, s3, s4, s5, s6, s7, s8, s9, s10, s11] ∧ ∀ e ∈ kernelRestored, r ≠ e.1) := by
  cases r <;> simp [kernelSaved, kernelRestored, kernelFrame] at *

theorem run_restore (t : Hart) :
    run (fun _ va => va) (loads sp kernelRestored ++ [.addi sp sp 256]) t =
      { t with x := Function.update (loaded (t.x sp) t.mem kernelRestored t.x) sp (t.x sp + 256) } := by
  have hne : ∀ f ∈ kernelRestored, f.1 ≠ sp := by decide
  have hsp : loaded (t.x sp) t.mem kernelRestored t.x sp = t.x sp :=
    loaded_of_not_mem fun f hf => (hne f hf).symm
  rw [run_append, run_loads fun f hf => ⟨hne f hf, rfl⟩]
  simp [run, exec, Hart.setReg, hsp]

/-- Interrupted kernel code goes on where it was, with interrupts on or off as before and with all
its registers but `tp`. -/
theorem kernelvec_transparent (hbody : KeepsStack body) (hs : s.user = false) (cause : Word)
    (h : kernelvec body (s.trap cause) = some s') :
    s'.pc = s.pc ∧ s'.user = false ∧ s'.sstatus.sie = s.sstatus.sie ∧
      ∀ r, r ≠ tp → s'.x r = s.x r := by
  have hnodup : (kernelSaved.map Prod.snd).Nodup ∧ (kernelRestored.map Prod.fst).Nodup := by decide
  let e : Hart := (s.trap cause).setReg sp (s.x sp + (-256))
  have hsaves : run (fun _ va => va) ([.addi sp sp (-256)] ++ saves sp kernelSaved) (s.trap cause) =
      { e with mem := saved (e.x sp) e.x kernelSaved e.mem } := by
    rw [run_append]
    exact run_saves fun _ _ => rfl
  have hsp : e.x sp = s.x sp + (-256) := by simp [e, Hart.setReg]
  rw [kernelvec, hsaves, kerneltrap] at h
  split at h
  · cases h
  obtain ⟨t, ht, rfl⟩ := Option.map_eq_some_iff.mp h
  obtain ⟨t, hb, rfl⟩ := Option.map_eq_some_iff.mp ht
  obtain ⟨hregs, hmem⟩ := hbody _ t hb
  rw [run_restore]
  refine ⟨rfl, by simp [Hart.sret, e, Hart.trap, Hart.setReg, hs], rfl, fun r hr => ?_⟩
  change Function.update (loaded (t.x sp) t.mem kernelRestored t.x) sp (t.x sp + 256) r = s.x r
  have htsp : t.x sp = e.x sp := hregs sp (by simp)
  rcases kernel_regs r hr with rfl | ⟨hr, ⟨o, ho, hsaved, hrest⟩ | ⟨hcallee, hrest⟩⟩
  · rw [Function.update_self, htsp, hsp]
    bv_omega
  · dsimp only at hmem
    rw [Function.update_of_ne hr, loaded_of_mem hnodup.2 hrest, htsp, hmem o ho,
      saved_of_mem hnodup.1 hsaved]
    exact Function.update_of_ne hr _ _
  · rw [Function.update_of_ne hr, loaded_of_not_mem hrest, hregs r (List.mem_cons_of_mem _ hcallee)]
    exact Function.update_of_ne hr _ _

/-- Kernel code on a stack at `0x2000`. -/
def someCode : Hart :=
  ⟨0, fun r => if r = sp then 0x2000 else 5, fun _ => 0, ⟨false, false, true⟩, false, 0x80000010,
    fun _ => 0⟩

theorem kernelvec_transparent_someCode : ∃ s',
    kernelvec some (someCode.trap 0x8000000000000005) = some s' ∧ s'.pc = 0x80000010 ∧
      s'.x a3 = 5 := by
  refine ⟨_, rfl, ?_⟩
  have hbody : KeepsStack some := by
    rintro s _ ⟨⟩
    exact ⟨fun _ _ => rfl, fun _ _ => rfl⟩
  obtain ⟨hpc, -, -, hx⟩ := kernelvec_transparent hbody (s := someCode) rfl 0x8000000000000005 rfl
  exact ⟨hpc, hx a3 (by decide)⟩

end Xv6.Trap
