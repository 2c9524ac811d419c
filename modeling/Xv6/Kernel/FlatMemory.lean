import Xv6.Kernel.Reach

/-! # Private memory

What fork, copy-on-write and lazy allocation amount to for programs: every process has an array of
bytes of its own, and rights to those of its pages that have been provided.
-/
namespace Xv6.Kernel
open Library Library.RefCount Vm

/-! ## The reference model -/

/-- The memory of a process, and its exit status once it has exited.  A page without rights is
provided when it is needed. -/
@[ext] structure Space where
  sz : ℕ
  byte : ℕ → UInt8
  right : ℕ → Option Rights
  exited : Option ℤ

namespace Space

def empty : Space := ⟨0, fun _ => 0, fun _ => none, none⟩

def bytesAt (m : Space) (a n : ℕ) : List UInt8 := (List.range n).map fun j => m.byte (a + j)

def write (m : Space) (a : ℕ) (bytes : List UInt8) : Space :=
  { m with byte := fun x => if a ≤ x ∧ x < a + bytes.length then bytes.getD (x - a) 0 else m.byte x }

/-- Whole pages are discarded, or may be used from now on. -/
def resize (m : Space) (sz : ℕ) : Space where
  sz := sz
  byte a := if a / PGSIZE < npages sz then m.byte a else 0
  right v := if v < npages sz then m.right v else none
  exited := m.exited

/-- Some pages below the size have been provided. -/
structure Fills (m m' : Space) : Prop where
  sz_eq : m'.sz = m.sz
  byte_eq : m'.byte = m.byte
  right : ∀ v, m'.right v = m.right v ∨
    m.right v = none ∧ v < npages m.sz ∧ m'.right v = some lazyRights
  exited_eq : m'.exited = m.exited

/-- The addresses lie below the size, and the pages that have been provided are `ok`. -/
def Allows (m : Space) (a n : ℕ) (ok : Rights → Prop) : Prop :=
  ∀ j < n, a + j < m.sz ∧ ∀ r, m.right ((a + j) / PGSIZE) = some r → ok r

end Space

open Space

/-- An operation of `p` in the reference model; `oom` is whether the kernel has run out of pages. -/
inductive Flat.Step (oom : Prop) (m : ProcId → Space) (p : ProcId) :
    Op → Outcome → (ProcId → Space) → Prop
  | load (va : ℕ) (x : Space) : Fills (m p) x →
      Step oom m p (.load va) (.byte (some ((m p).byte va))) (Function.update m p x)
  | store (va : ℕ) (b : UInt8) (x : Space) : Fills ((m p).write va [b]) x →
      (∃ r, x.right (va / PGSIZE) = some r ∧ r.writable = true) →
      Step oom m p (.store va b) (.byte (some b)) (Function.update m p x)
  | killed (va : ℕ) (write : Option UInt8) (x : Space) :
      Fills { m p with exited := some (-1) } x →
      (oom ∨ ¬ (m p).Allows va 1 fun r => r.user = true ∧ (write.isSome → r.writable = true)) →
      Step oom m p (.access va write) (.byte none) (Function.update m p x)
  | copyin (va len : ℕ) (x : Space) : Fills (m p) x →
      Step oom m p (.copyin va len) (.bytes (some ((m p).bytesAt va len))) (Function.update m p x)
  | copyinFailed (va len : ℕ) (x : Space) : Fills (m p) x →
      (oom ∨ ¬ (m p).Allows va len fun r => r.user = true) →
      Step oom m p (.copyin va len) (.bytes none) (Function.update m p x)
  | copyout (va : ℕ) (src : List UInt8) (x : Space) : Fills ((m p).write va src) x →
      (∀ j < src.length, ∃ r, x.right ((va + j) / PGSIZE) = some r ∧ r.writable = true) →
      Step oom m p (.copyout va src) (.ok true) (Function.update m p x)
  | copyoutFailed (va : ℕ) (src : List UInt8) (n : ℕ) (x : Space) :
      Fills ((m p).write va (src.take n)) x →
      (oom ∨ ¬ (m p).Allows va src.length fun r => r.user = true ∧ r.writable = true) →
      Step oom m p (.copyout va src) (.ok false) (Function.update m p x)
  | fork (np : ProcId) (r : ℤ) : m np = Space.empty →
      Step oom m p .fork (.int r) (Function.update m np (m p))
  | forkFailed : Step oom m p .fork (.int (-1)) m
  | exit (status : ℤ) :
      Step oom m p (.exit status) (.int 0) (Function.update m p { m p with exited := some status })
  | waits (addr : ℕ) (o : Outcome) : o = .asleep ∨ o = .int (-1) → Step oom m p (.wait addr) o m
  | waitFailed (addr : ℕ) (q : ProcId) (status : ℤ) (n : ℕ) (x : Space) :
      (m q).exited = some status →
      Fills ((m p).write addr ((intBytes status).take n)) x →
      Step oom m p (.wait addr) (.int (-1)) (Function.update m p x)
  | reaped (addr : ℕ) (q : ProcId) (pid status : ℤ) (x : Space) :
      (m q).exited = some status →
      Fills ((m p).write addr (if addr = 0 then [] else intBytes status)) x →
      Step oom m p (.wait addr) (.int pid) (Function.update (Function.update m p x) q Space.empty)
  | sbrk (n : ℤ) (eager : Bool) (x : Space) : Fills ((m p).resize (Kernel.resize (m p).sz n)) x →
      Step oom m p (.sbrk n eager) (.int (m p).sz) (Function.update m p x)
  | sbrkFailed (n : ℤ) (eager : Bool) : oom ∨ 2 ^ 64 ≤ (m p).sz + n →
      Step oom m p (.sbrk n eager) (.int (-1)) m
  | exec (path uargv : ℕ) (lookup : List UInt8 → Option (ℕ × List UInt8)) (argc : ℕ) (x : Space) :
      x.exited = (m p).exited →
      Step oom m p (.exec path uargv lookup) (.int argc) (Function.update m p x)
  | execFailed (path uargv : ℕ) (lookup : List UInt8 → Option (ℕ × List UInt8)) (x : Space) :
      Fills (m p) x → Step oom m p (.exec path uargv lookup) (.int (-1)) (Function.update m p x)
  | pipe (fdarray : ℕ) (r : ℤ) (b : ℕ → UInt8) (x : Space) : Fills { m p with byte := b } x →
      (∀ a r, (m p).right (a / PGSIZE) = some r → r.writable = false → b a = (m p).byte a) →
      Step oom m p (.pipe fdarray) (.int r) (Function.update m p x)
  | files (op : Op) (r : ℤ) : op.OnFiles → Step oom m p op (.int r) m

/-- A run of the reference model. -/
inductive Flat.Run (oom : Prop) :
    (ProcId → Space) → List ((ProcId × Op) × Outcome) → (ProcId → Space) → Prop
  | nil (m : ProcId → Space) : Run oom m [] m
  | cons {m m₁ m' : ProcId → Space} {p : ProcId} {op : Op} {o : Outcome}
      {rest : List ((ProcId × Op) × Outcome)} : Flat.Step oom m p op o m₁ → Run oom m₁ rest m' →
      Run oom m (((p, op), o) :: rest) m'

/-! ## Page tables as memories -/

def Proc.exited (pr : Proc) : Option ℤ := if pr.state = .zombie then some pr.xstate else none

/-- What process `p` has of the memory of the machine. -/
def spaceOf (s : State) (p : ProcId) : Space where
  sz := (s.proc p).sz
  byte a := if a / PGSIZE < UPAGES then byteOf s p (a / PGSIZE) (a % PGSIZE) else 0
  right v := if v < UPAGES ∧ (pteOf s p v).has PTE_V then some (rights (pteOf s p v)) else none
  exited := (s.proc p).exited

section
variable {s s₁ s' : State} {p q : ProcId} {a v : ℕ} {bytes : List UInt8} {r : Rights}

theorem spaceOf_byte (h : a / PGSIZE < UPAGES) :
    (spaceOf s p).byte a = byteOf s p (a / PGSIZE) (a % PGSIZE) := if_pos h

theorem spaceOf_right :
    (spaceOf s p).right v = some r ↔ v < UPAGES ∧ (pteOf s p v).has PTE_V ∧ rights (pteOf s p v) = r := by
  simp [spaceOf, and_assoc]

theorem Proc.exited_congr {pr pr' : Proc} (h : pr'.rest = pr.rest) : pr'.exited = pr.exited :=
  (congrArg Proc.exited h :)

theorem Alive.exited_eq (h : Alive s p) : (s.proc p).exited = none := if_neg h.not_zombie

theorem SameSpace.space_eq (h : SameSpace s s' p q) :
    spaceOf s' q = { spaceOf s p with exited := (s'.proc q).exited } := by
  ext1
  · exact h.sz_eq
  · funext a
    simp only [spaceOf]
    split
    · next ha => exact h.byte_eq _ ha _ (Nat.mod_lt a (by decide))
    · rfl
  · funext v
    simp only [spaceOf]
    by_cases hv : v < UPAGES
    · rw [h.valid v hv]
      by_cases hV : (pteOf s p v).has PTE_V
      · simp [hV, h.rights_eq v hv hV]
      · simp [hV]
    · simp [hv]
  · rfl

theorem SameSpace.space_eq_of_rest (h : SameSpace s s' p p)
    (hr : (s'.proc p).rest = (s.proc p).rest) : spaceOf s' p = spaceOf s p := by
  rw [h.space_eq, Proc.exited_congr hr]
  rfl

theorem Frame.space_eq (h : Frame s s' q) : spaceOf s' q = spaceOf s q :=
  h.sameSpace.space_eq_of_rest (by rw [Proc.rest, h.core_eq, ← Proc.rest])

theorem spaceOf_of_frames (h : ∀ q, q ≠ p → Frame s s' q) :
    spaceOf s' = Function.update (spaceOf s) p (spaceOf s' p) := by
  funext q
  by_cases hq : q = p
  · rw [hq, Function.update_self]
  · rw [Function.update_of_ne hq, (h q hq).space_eq]

theorem spaceOf_empty (h : s.proc p = Proc.empty) : spaceOf s p = Space.empty := by
  have hV (v : ℕ) : (pteOf s p v).has PTE_V = false := by
    rw [pteOf, h]
    exact has_zero _
  ext1
  · simp [spaceOf, Space.empty, h, Proc.empty]
  · funext a
    simp [spaceOf, Space.empty, byteOf, hV]
  · funext v
    simp [spaceOf, Space.empty, hV]
  · simp [spaceOf, Space.empty, h, Proc.empty, Proc.exited]

theorem write_nil (m : Space) (a : ℕ) : m.write a [] = m := by
  ext1
  · rfl
  · funext x
    exact if_neg (by simp)
  · rfl
  · rfl

theorem Patched.fills (h : Patched s s' p a bytes) :
    Fills ((spaceOf s p).write a bytes) (spaceOf s' p) where
  sz_eq := h.sz_eq
  byte_eq := by
    funext x
    by_cases hx : x / PGSIZE < UPAGES
    · rw [spaceOf_byte hx, h.byte_eq _ hx _ (Nat.mod_lt x (by decide)), patch, Nat.div_add_mod']
      simp only [write, spaceOf_byte hx]
    · simp only [write, spaceOf, if_neg hx]
      refine (if_neg fun hin => hx ?_).symm
      have := (h.through (x - a) (by omega)).1
      rwa [Nat.add_sub_cancel' hin.1] at this
  right v := by
    by_cases hv : v < UPAGES
    · have hk := h.keeps v hv
      have ha := h.adds v hv
      simp only [write, spaceOf, hv, true_and]
      grind
    · simp [write, spaceOf, hv]
  exited_eq := Proc.exited_congr h.rest_eq

theorem Patched.writable (h : Patched s s' p a bytes) {j : ℕ} (hj : j < bytes.length) :
    ∃ r, (spaceOf s' p).right ((a + j) / PGSIZE) = some r ∧ r.writable = true := by
  obtain ⟨hv, hV, hw⟩ := h.through j hj
  exact ⟨_, spaceOf_right.mpr ⟨hv, hV, rfl⟩, hw⟩

variable [KernelImage] {pt pt' : PageTable} {tf : ℕ} {k' : Phys} {op : Op} {o : Outcome} {n : ℤ}
  {oom : Prop}

theorem Accessed.space_eq (h : Inv s 0) (ha : Accessed s p a bytes s') :
    spaceOf s' = Function.update (spaceOf s) p (spaceOf s' p) :=
  spaceOf_of_frames fun _ hq => ha.frame h hq

omit [KernelImage] in
theorem Exited.space_eq {status : ℤ} (h : Exited s s' p status) :
    spaceOf s' p = { spaceOf s p with exited := some status } := by
  have hex : (s'.proc p).exited = some status := by rw [Proc.exited, if_pos h.state, h.xstate_eq]
  rw [h.space.space_eq, hex]

theorem Accessed.fills (ha : Accessed s p a [] s') : Fills (spaceOf s p) (spaceOf s' p) := by
  have := ha.patched.fills
  rwa [write_nil] at this

omit [KernelImage] in
theorem spaceOf_setSpace (s : State) (p : ProcId) (pt' : PageTable) (sz : ℕ) (k' : Phys) :
    pteOf (s.setSpace p pt' sz k') p = leaf pt' ∧
      byteOf (s.setSpace p pt' sz k') p = view pt' k'.mem ∧
      ((s.setSpace p pt' sz k').proc p).rest = (s.proc p).rest := by
  have hproc : (s.setSpace p pt' sz k').proc p = { s.proc p with pagetable := some pt', sz := sz } := by
    rw [State.setSpace, put_proc_self]
  have hpt : ((s.setSpace p pt' sz k').proc p).pagetable = some pt' := by rw [hproc]
  exact ⟨funext (pteOf_eq hpt), funext fun v => funext (byteOf_eq hpt v), by rw [hproc]; rfl⟩

theorem SbrkFailed.sameSpace (hl : Live (owners s) (s.proc p) pt tf)
    (hs : SbrkFailed s p pt tf n pt' k') :
    SameSpace s (s.setSpace p pt' (s.proc p).sz k') p p := by
  obtain ⟨hpte, hbyte, -⟩ := spaceOf_setSpace s p pt' (s.proc p).sz k'
  refine ⟨by rw [State.setSpace, put_proc_self], fun v hv => ?_, fun v hv hV => ?_, fun v hv i hi => ?_⟩
  · rw [hpte, pteOf_eq hl.pagetable, Bool.eq_iff_iff]
    exact ⟨hs.adds v hv, fun hV => by rwa [hs.keeps v hv hV]⟩
  · rw [pteOf_eq hl.pagetable] at hV ⊢
    rw [hpte, hs.keeps v hv hV]
  · rw [hbyte, byteOf_eq hl.pagetable]
    exact hs.view_eq v hv i hi

theorem Sbrked.fills (hl : Live (owners s) (s.proc p) pt tf) (hs : Sbrked s p pt tf n pt' k')
    (hsz : resize (s.proc p).sz n ≤ TRAPFRAME) :
    Fills ((spaceOf s p).resize (resize (s.proc p).sz n))
      (spaceOf (s.setSpace p pt' (resize (s.proc p).sz n) k') p) := by
  have hr := hs.resized
  have hpages := npages_le hsz
  generalize resize (s.proc p).sz n = sz at *
  obtain ⟨hpte, hbyte, hrest⟩ := spaceOf_setSpace s p pt' sz k'
  refine ⟨by rw [spaceOf, State.setSpace, put_proc_self]; rfl, ?_, fun v => ?_,
    Proc.exited_congr hrest⟩
  · funext x
    simp only [spaceOf, Space.resize, hbyte]
    by_cases hx : x / PGSIZE < UPAGES
    · simp only [hx, if_true, hr.view_eq _ hx _ (Nat.mod_lt x (by decide)), byteOf_eq hl.pagetable]
    · simp [hx]
  · simp only [spaceOf, Space.resize, hpte, pteOf_eq hl.pagetable]
    by_cases hv : v < UPAGES
    · have hk := hr.keeps v
      have ha := hr.adds v hv
      have hab := hr.above v
      grind
    · simp [hv]

theorem Refused.not_allows {va : ℕ} {write : Bool} (hl : Live (owners s) (s.proc p) pt tf)
    (hr : Refused s s' p pt va write) (hs : Sized s) (hoom : s'.phys.oom = true → oom) :
    oom ∨ ¬ (spaceOf s p).Allows va 1 fun r => r.user = true ∧ (write = true → r.writable = true) := by
  rcases hr with hbig | ⟨ho, -⟩ | ⟨hV, hmay⟩
  · refine Or.inr fun hall => absurd (hall 0 Nat.one_pos).1 (not_lt.mpr ?_)
    rwa [top, min_eq_left (hs p)] at hbig
  · exact Or.inl (hoom ho)
  · refine Or.inr fun hall => hmay ?_
    obtain ⟨hlt, hr⟩ := hall 0 Nat.one_pos
    have hv : va / PGSIZE < UPAGES := (div_lt_npages hlt).trans_le (npages_le (hs p))
    exact hr _ (spaceOf_right.mpr ⟨hv, by rwa [pteOf_eq hl.pagetable], by rw [pteOf_eq hl.pagetable]⟩)

theorem WaitEnd.flat {addr : ℕ} {r : Option ℤ} (hw : WaitEnd s p pt addr r s') (h : Inv s 0)
    (hl : Live (owners s) (s.proc p) pt tf) (hz : (s.proc p).state ≠ .zombie) :
    Flat.Step oom (spaceOf s) p (.wait addr) (r.elim .asleep .int) (spaceOf s') := by
  cases hw with
  | nothing r hr =>
    apply Flat.Step.waits
    rcases hr with rfl | rfl
    · exact Or.inl rfl
    · exact Or.inr rfl
  | failed q s₁ hparent hzombie hrep =>
    obtain ⟨n, hacc⟩ := hrep.accessed h hl
    rw [hacc.space_eq h]
    exact .waitFailed addr q _ n _ (if_pos hzombie) hacc.patched.fills
  | reaped q s₁ k' hparent hzombie hrep hinv hframe =>
    have hq : p ≠ q := by
      rintro rfl
      exact hz hzombie
    have hspace : spaceOf (s₁.put q Proc.empty k') =
        Function.update (spaceOf s₁) q Space.empty := by
      rw [spaceOf_of_frames hframe, spaceOf_empty put_proc_self]
    rw [hspace]
    rcases hrep with ⟨rfl, -, rfl⟩ | ⟨haddr, n, hc⟩
    · have := @Flat.Step.reaped oom (spaceOf s₁) p 0 q (s₁.proc q).pid _ (spaceOf s₁ p)
        (if_pos hzombie) (by rw [if_pos rfl, write_nil]; exact ⟨rfl, rfl, fun _ => Or.inl rfl, rfl⟩)
      rwa [Function.update_eq_self] at this
    · rw [hc.accessed.space_eq h]
      refine .reaped addr q _ (s.proc q).xstate _ (if_pos hzombie) ?_
      rw [if_neg haddr]
      have := hc.accessed.patched.fills
      rwa [hc.complete rfl, List.take_length] at this

/-- Every operation is one of the reference model. -/
theorem OpEnd.flat (he : OpEnd s p pt tf op (.ok (o, s'))) (h : Inv s 0)
    (hl : Live (owners s) (s.proc p) pt tf) (ha : Alive s p) (hs : Sized s) (hfit : Fits s p op)
    (hoom : s'.phys.oom = true → oom) : Flat.Step oom (spaceOf s) p op o (spaceOf s') := by
  have hleaf (v : ℕ) : pteOf s p v = leaf pt v := pteOf_eq hl.pagetable v
  have hbytes (va n : ℕ) (hv : ∀ j < n, (va + j) / PGSIZE < UPAGES) :
      Vm.bytesAt pt s.phys.mem va n = (spaceOf s p).bytesAt va n := by
    apply List.map_congr_left
    intro j hj
    rw [spaceOf_byte (hv j (List.mem_range.mp hj)), byteOf_eq hl.pagetable, byteAt]
  have hinside {va n : ℕ} {ok : Rights → Prop} (hall : (spaceOf s p).Allows va n ok) :
      ∀ j < n, va + j < top s p ∧ ((leaf pt ((va + j) / PGSIZE)).has PTE_V →
        ok (rights (leaf pt ((va + j) / PGSIZE)))) := by
    intro j hj
    obtain ⟨hlt, hr⟩ := hall j hj
    have hv : (va + j) / PGSIZE < UPAGES := (div_lt_npages hlt).trans_le (npages_le (hs p))
    rw [top, min_eq_left (hs p)]
    exact ⟨hlt, fun hV => hr _ (spaceOf_right.mpr ⟨hv, by rwa [hleaf], by rw [hleaf]⟩)⟩
  cases he with
  | forked r s' np hinv hkept hinit hoom hf =>
    have hspace : spaceOf s' = Function.update (spaceOf s) np (spaceOf s p) := by
      funext q
      by_cases hn : q = np
      · have hex : (s'.proc np).exited = (s.proc p).exited := by
          rw [ha.exited_eq]
          exact if_neg (by rw [hf.child_state]; decide)
        rw [hn, Function.update_self, hf.child.space_eq, hex]
        rfl
      · rw [Function.update_of_ne hn]
        by_cases hp : q = p
        · rw [hp, hf.parent.space_eq_of_rest hf.parent_rest]
        · exact (hf.frame q hp hn).space_eq
    rw [hspace]
    exact .fork np r (spaceOf_empty hf.unused)
  | forkFailed s' hinv hkept hinit hoom hf =>
    rw [spaceOf_of_frames hf.frame, hf.parent.space_eq_of_rest hf.parent_rest,
      Function.update_eq_self]
    exact .forkFailed
  | exited status s' hinv hex =>
    rw [spaceOf_of_frames hex.frame, hex.space_eq]
    exact .exit status
  | waited addr r s' hw => exact hw.flat h hl ha.not_zombie
  | sbrkFailed n eager pt' k' hf =>
    rw [spaceOf_of_frames fun q hq => h.frame_evolve hq hf.evolve _,
      (hf.sameSpace hl).space_eq_of_rest (spaceOf_setSpace s p pt' _ k').2.2,
      Function.update_eq_self]
    exact .sbrkFailed n eager (hf.why.imp_left hoom)
  | sbrked n eager pt' k' hf =>
    rw [spaceOf_of_frames fun q hq => h.frame_evolve hq hf.evolve _]
    exact .sbrk n eager _ (hf.fills hl (resize_le (hs p) hfit))
  | sbrkCut n eager pt' k' hf => exact absurd hf.1 (not_lt.mpr (hs p))
  | execFailed path uargv lookup s' hacc =>
    rw [hacc.space_eq h]
    exact .execFailed path uargv lookup _ hacc.fills
  | execed path uargv lookup name argc pt' sz' k' hc =>
    rw [spaceOf_of_frames fun q hq => h.frame_put hq _ hc.same]
    refine .exec path uargv lookup argc _ ?_
    rw [spaceOf, put_proc_self]
    rfl
  | accessed op va write s' hop hacc hv hmay =>
    rw [hop, hacc.space_eq h]
    cases write with
    | none =>
      have hbyte : byteAt pt s.phys.mem va = (spaceOf s p).byte va := by
        rw [spaceOf_byte hv, byteOf_eq hl.pagetable, byteAt]
      rw [Option.getD_none, hbyte]
      exact .load va _ hacc.fills
    | some b => exact .store va b _ hacc.patched.fills (hacc.patched.writable Nat.one_pos)
  | killed op va write s₁ s' hop hacc hr hinv hex =>
    have hframe (q : ProcId) (hq : q ≠ p) : Frame s s' q := (hacc.frame h hq).trans (hex.frame q hq)
    have hfills := hacc.fills
    rw [hop, spaceOf_of_frames hframe, hex.space_eq]
    exact .killed va write _ ⟨hfills.sz_eq, hfills.byte_eq, hfills.right, rfl⟩
      (hr.not_allows hl hs fun ho => hoom (hex.oom_mono ho))
  | copiedIn va len ok bytes s' hc =>
    rw [hc.accessed.space_eq h]
    cases ok with
    | true =>
      rw [if_pos rfl, hc.bytes_eq, hbytes va _ hc.inside, hc.complete rfl]
      exact .copyin va len _ hc.accessed.fills
    | false =>
      refine .copyinFailed va len _ hc.accessed.fills ?_
      by_contra hcon
      rw [not_or, not_not] at hcon
      have := hc.progress (hinside hcon.2) (by simpa using fun ho => hcon.1 (hoom ho))
      cases this
  | copiedOut va src ok n s' hc =>
    rw [hc.accessed.space_eq h]
    cases ok with
    | true =>
      have hp := hc.accessed.patched
      rw [hc.complete rfl, List.take_length] at hp
      exact .copyout va src _ hp.fills fun j hj => hp.writable hj
    | false =>
      refine .copyoutFailed va src n _ hc.accessed.patched.fills ?_
      by_contra hcon
      rw [not_or, not_not] at hcon
      have := hc.progress (hinside hcon.2) (by simpa using fun ho => hcon.1 (hoom ho))
      cases this
  | piped fdarray r s' hp =>
    rw [spaceOf_of_frames hp.retained.frame]
    refine .pipe fdarray r (spaceOf s' p).byte _ ⟨hp.retained.sz_eq, rfl, fun v => ?_,
      Proc.exited_congr hp.retained.rest_eq⟩ ?_
    · by_cases hv : v < UPAGES
      · have hk := hp.retained.keeps v hv
        have ha := hp.retained.adds v hv
        simp only [spaceOf, hv, true_and]
        grind
      · simp [spaceOf, hv]
    · intro a r hr hro
      obtain ⟨hv, hV, rfl⟩ := spaceOf_right.mp hr
      rw [spaceOf_byte hv, spaceOf_byte hv]
      exact hp.retained.readonly _ hv hV hro _ (Nat.mod_lt a (by decide))
  | filed op r s' hop hinv hst =>
    have hspace : spaceOf s' = spaceOf s := funext fun q => (hst.frame q).space_eq
    rw [hspace]
    exact .files op r hop

theorem OpEnd.oom_mono (he : OpEnd s p pt tf op (.ok (o, s'))) (h : Inv s 0)
    (hl : Live (owners s) (s.proc p) pt tf) (hs : Sized s) (ho : s.phys.oom = true) :
    s'.phys.oom = true := by
  cases he with
  | forked r s' np hinv hkept hinit hoom => exact hoom ho
  | forkFailed s' hinv hkept hinit hoom => exact hoom ho
  | exited status s' hinv hex => exact hex.oom_mono ho
  | waited addr r s' hw =>
    cases hw with
    | nothing r hr => exact ho
    | failed q s₁ hparent hzombie hrep =>
      obtain ⟨n, hacc⟩ := hrep.accessed h hl
      exact hacc.oom_mono ho
    | reaped q s₁ k' hparent hzombie hrep hinv hframe hoom =>
      obtain ⟨n, hacc⟩ := hrep.accessed h hl
      exact hoom.trans (hacc.oom_mono ho)
  | sbrkFailed n eager pt' k' hf => exact hf.evolve.oom_mono ho
  | sbrked n eager pt' k' hf => exact hf.evolve.oom_mono ho
  | sbrkCut n eager pt' k' hf => exact absurd hf.1 (not_lt.mpr (hs p))
  | execFailed path uargv lookup s' hacc => exact hacc.oom_mono ho
  | execed path uargv lookup name argc pt' sz' k' hc => exact hc.oom_mono ho
  | accessed op va write s' hop hacc => exact hacc.oom_mono ho
  | killed op va write s₁ s' hop hacc hr hinv hex => exact hex.oom_mono (hacc.oom_mono ho)
  | copiedIn va len ok bytes s' hc => exact hc.accessed.oom_mono ho
  | copiedOut va src ok n s' hc => exact hc.accessed.oom_mono ho
  | piped fdarray r s' hp => exact hp.retained.oom_mono ho
  | filed op r s' hop hinv hst => exact hst.oom_mono ho

theorem step_end (h : Inv s 0) (hen : Enabled s (p, op))
    (hstep : step (p, op) s = .ok (o, s')) :
    ∃ pt tf, Live (owners s) (s.proc p) pt tf ∧ OpEnd s p pt tf op (.ok (o, s')) := by
  rw [← hstep]
  exact exec_spec h hen.1 hen.2

/-- As long as no process grows above the trapframe, what programs see of their memory is a run of
the reference model.  While memory lasts, an access fails only where the model does not allow it. -/
theorem memory_is_private {evs : List ((ProcId × Op) × Outcome)} (h : TameReachable s)
    (hrun : Run step Tame s evs s') :
    Flat.Run (s'.phys.oom = true) (spaceOf s) evs (spaceOf s') := by
  suffices hboth : (s.phys.oom = true → s'.phys.oom = true) ∧
      Flat.Run (s'.phys.oom = true) (spaceOf s) evs (spaceOf s') from hboth.2
  induction hrun with
  | nil s => exact ⟨id, .nil _⟩
  | cons htame hstep _ ih =>
    obtain ⟨hinv, hs, -⟩ := h.invs
    obtain ⟨hoom, hrest⟩ := ih (h.next htame hstep)
    obtain ⟨pt, tf, hl, hend⟩ := step_end hinv htame.1 hstep
    exact ⟨fun ho => hoom (hend.oom_mono hinv hl hs ho),
      .cons (hend.flat hinv hl htame.1.1 hs htame.2 hoom) hrest⟩

end

/-- A child writes to its stack, and its parent reads the same address. -/
def forkAndWrite : List (ProcId × Op) := [(0, .fork), (1, .store 8000 1), (0, .load 8000)]

theorem memory_is_private_forked : ∃ evs,
    Flat.Run ((after forkAndWrite).phys.oom = true) (spaceOf justStarted) evs
      (spaceOf (after forkAndWrite)) := by
  obtain ⟨evs, hrun⟩ := @Run.drive _ _ _ _ (@step twentyPages) Tame forkAndWrite
    justStarted (by decide +kernel)
  have hstart : @TameReachable twentyPages justStarted :=
    ⟨justStarted, [], justStarted_booted, .nil _⟩
  exact ⟨evs, @memory_is_private _ _ twentyPages _ hstart hrun⟩

end Xv6.Kernel
