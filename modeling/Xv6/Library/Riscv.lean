import Mathlib.Data.List.Nodup
import Mathlib.Logic.Function.Basic
import Mathlib.Tactic.Cases

/-! # Straight-line RISC-V code

The instructions with which assembly routines save and restore registers.
Memory holds doublewords at aligned addresses; how a hart translates addresses
depends on its `satp`.
-/
namespace Xv6.Library.Riscv

abbrev Word := BitVec 64

inductive Reg
  | ra | sp | gp | tp | t0 | t1 | t2 | s0 | s1 | a0 | a1 | a2 | a3 | a4 | a5 | a6 | a7
  | s2 | s3 | s4 | s5 | s6 | s7 | s8 | s9 | s10 | s11 | t3 | t4 | t5 | t6
  deriving DecidableEq

inductive Csr
  | sscratch | satp | sepc | stvec | scause
  deriving DecidableEq

/-- The fields of `sstatus` that traps use. -/
structure Status where
  spp : Bool
  spie : Bool
  sie : Bool

structure Hart where
  id : Word
  x : Reg → Word
  csr : Csr → Word
  sstatus : Status
  /-- In user mode. -/
  user : Bool
  pc : Word
  mem : Word → Word

inductive Instr
  | csrw (c : Csr) (r : Reg)
  | csrr (r : Reg) (c : Csr)
  | li (r : Reg) (v : Word)
  | addi (d r : Reg) (imm : Word)
  | sd (r : Reg) (off : Word) (base : Reg)
  | ld (r : Reg) (off : Word) (base : Reg)
  | sfence

def Hart.setReg (s : Hart) (r : Reg) (v : Word) : Hart := { s with x := Function.update s.x r v }

def Hart.setCsr (s : Hart) (c : Csr) (v : Word) : Hart := { s with csr := Function.update s.csr c v }

def Hart.store (s : Hart) (a v : Word) : Hart := { s with mem := Function.update s.mem a v }

/-- The hart takes a trap. -/
def Hart.trap (s : Hart) (cause : Word) : Hart :=
  { (s.setCsr .sepc s.pc).setCsr .scause cause with
    sstatus := ⟨!s.user, s.sstatus.sie, false⟩
    user := false
    pc := s.csr .stvec }

def Hart.sret (s : Hart) : Hart :=
  { s with
    sstatus := ⟨false, true, s.sstatus.spie⟩
    user := !s.sstatus.spp
    pc := s.csr .sepc }

section
variable (tr : Word → Word → Word)

/-- `tr satp va` is the physical address of `va`. -/
def exec (s : Hart) : Instr → Hart
  | .csrw c r => s.setCsr c (s.x r)
  | .csrr r c => s.setReg r (s.csr c)
  | .li r v => s.setReg r v
  | .addi d r imm => s.setReg d (s.x r + imm)
  | .sd r off base => s.store (tr (s.csr .satp) (s.x base + off)) (s.x r)
  | .ld r off base => s.setReg r (s.mem (tr (s.csr .satp) (s.x base + off)))
  | .sfence => s

def run (is : List Instr) (s : Hart) : Hart := is.foldl (exec tr) s

def saves (base : Reg) (L : List (Reg × Word)) : List Instr := L.map fun e => .sd e.1 e.2 base

def loads (base : Reg) (L : List (Reg × Word)) : List Instr := L.map fun e => .ld e.1 e.2 base

end

/-- Memory after the registers of `L` have been stored at `f`. -/
def saved (f : Word) (x : Reg → Word) (L : List (Reg × Word)) (mem : Word → Word) : Word → Word :=
  L.foldl (fun m e => Function.update m (f + e.2) (x e.1)) mem

/-- The registers after those of `L` have been loaded from `f`. -/
def loaded (f : Word) (mem : Word → Word) (L : List (Reg × Word)) (x : Reg → Word) : Reg → Word :=
  L.foldl (fun x e => Function.update x e.1 (mem (f + e.2))) x

section
variable {tr : Word → Word → Word} {s : Hart} {base r : Reg} {f o a : Word} {x : Reg → Word}
  {mem : Word → Word} {L : List (Reg × Word)} {is is' : List Instr}

theorem run_append : run tr (is ++ is') s = run tr is' (run tr is s) := List.foldl_append

theorem run_saves (h : ∀ e ∈ L, tr (s.csr .satp) (s.x base + e.2) = f + e.2) :
    run tr (saves base L) s = { s with mem := saved f s.x L s.mem } := by
  induction L generalizing s with
  | nil => rfl
  | cons e L ih =>
    have hrest := ih (s := exec tr s (.sd e.1 e.2 base)) fun e' he' => h e' (List.mem_cons_of_mem _ he')
    rw [saves, List.map_cons, run, List.foldl_cons, ← run, ← saves, hrest]
    simp [exec, Hart.store, saved, h e List.mem_cons_self]

theorem run_loads (h : ∀ e ∈ L, e.1 ≠ base ∧ tr (s.csr .satp) (s.x base + e.2) = f + e.2) :
    run tr (loads base L) s = { s with x := loaded f s.mem L s.x } := by
  induction L generalizing s with
  | nil => rfl
  | cons e L ih =>
    obtain ⟨hne, hf⟩ := h e List.mem_cons_self
    have hbase : (exec tr s (.ld e.1 e.2 base)).x base = s.x base := Function.update_of_ne hne.symm _ _
    have hrest := ih (s := exec tr s (.ld e.1 e.2 base)) fun e' he' =>
      ⟨(h e' (List.mem_cons_of_mem _ he')).1, by
        rw [hbase]; exact (h e' (List.mem_cons_of_mem _ he')).2⟩
    rw [loads, List.map_cons, run, List.foldl_cons, ← run, ← loads, hrest]
    simp [exec, Hart.setReg, loaded, hf]

theorem saved_congr {x' : Reg → Word} (h : ∀ e ∈ L, x' e.1 = x e.1) :
    saved f x' L mem = saved f x L mem :=
  List.foldl_ext _ _ _ fun m e he => by rw [h e he]

theorem saved_of_not_mem (h : ∀ e ∈ L, a ≠ f + e.2) : saved f x L mem a = mem a := by
  induction L generalizing mem with
  | nil => rfl
  | cons e L ih =>
    rw [saved, List.foldl_cons, ← saved, ih fun e' he' => h e' (List.mem_cons_of_mem _ he')]
    exact Function.update_of_ne (h e List.mem_cons_self) _ _

theorem saved_of_mem (hnodup : (L.map Prod.snd).Nodup) (h : (r, o) ∈ L) :
    saved f x L mem (f + o) = x r := by
  induction L generalizing mem with
  | nil => cases h
  | cons e L ih =>
    rw [List.map_cons, List.nodup_cons] at hnodup
    rw [saved, List.foldl_cons, ← saved]
    rcases List.mem_cons.mp h with rfl | hmem
    · rw [saved_of_not_mem, Function.update_self]
      intro e' he' heq
      have ho : o = e'.2 := by simpa using heq
      exact hnodup.1 (List.mem_map.mpr ⟨e', he', ho.symm⟩)
    · exact ih hnodup.2 hmem

theorem loaded_of_not_mem (h : ∀ e ∈ L, r ≠ e.1) : loaded f mem L x r = x r := by
  induction L generalizing x with
  | nil => rfl
  | cons e L ih =>
    rw [loaded, List.foldl_cons, ← loaded, ih fun e' he' => h e' (List.mem_cons_of_mem _ he')]
    exact Function.update_of_ne (h e List.mem_cons_self) _ _

theorem loaded_of_mem (hnodup : (L.map Prod.fst).Nodup) (h : (r, o) ∈ L) :
    loaded f mem L x r = mem (f + o) := by
  induction L generalizing x with
  | nil => cases h
  | cons e L ih =>
    rw [List.map_cons, List.nodup_cons] at hnodup
    rw [loaded, List.foldl_cons, ← loaded]
    rcases List.mem_cons.mp h with rfl | hmem
    · rw [loaded_of_not_mem, Function.update_self]
      intro e' he' heq
      exact hnodup.1 (List.mem_map.mpr ⟨e', he', heq.symm⟩)
    · exact ih hnodup.2 hmem

end

end Xv6.Library.Riscv
