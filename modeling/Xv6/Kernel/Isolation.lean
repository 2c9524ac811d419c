import Xv6.Kernel.FlatMemory

/-! # Processes do not disturb each other

Nothing that other processes do changes a process or its memory, and the rights to a page stay what
they were when it was mapped, in the process and in those that inherit the page.
-/
namespace Xv6.Kernel
open Library Library.RefCount Vm Space

/-! ## Rights -/

section
variable {oom : Prop} {m m' : ProcId → Space} {x y : Space} {p q q' : ProcId} {op : Op} {o : Outcome}
  {v : ℕ} {r : Rights}

theorem Space.Fills.right_of (h : Fills x y) (hr : x.right v = some r) : y.right v = some r := by
  rcases h.right v with heq | ⟨hnone, -⟩
  · rw [heq, hr]
  · rw [hnone] at hr
    cases hr

/-- A successful `exec`, which replaces the memory of the process. -/
def Op.Replaces (op : Op) (o : Outcome) : Prop :=
  (∃ path uargv lookup, op = .exec path uargv lookup) ∧ o ≠ .int (-1)

theorem Flat.Step.right_kept (h : Flat.Step oom m p op o m') (hr : (m q).right v = some r)
    (hv : v < npages (m' q).sz) (hexec : q = p → ¬ op.Replaces o) : (m' q).right v = some r := by
  have hfill {x y : Space} (hxy : Fills x y) (hx : x.right = (m p).right) :
      (Function.update m p y q).right v = some r := by
    by_cases hq : q = p
    · rw [hq, Function.update_self]
      exact hxy.right_of (by rw [hx, ← hq, hr])
    · rwa [Function.update_of_ne hq]
  cases h with
  | load va x hx => exact hfill hx rfl
  | store va b x hx => exact hfill hx rfl
  | killed va write x hx => exact hfill hx rfl
  | copyin va len x hx => exact hfill hx rfl
  | copyinFailed va len x hx => exact hfill hx rfl
  | copyout va src x hx => exact hfill hx rfl
  | copyoutFailed va src n x hx => exact hfill hx rfl
  | fork np n hnp =>
    have hq : q ≠ np := by
      rintro rfl
      rw [hnp] at hr
      cases hr
    rwa [Function.update_of_ne hq]
  | exit status => exact hfill ⟨rfl, rfl, fun _ => Or.inl rfl, rfl⟩ rfl
  | reaped addr q₀ pid status x hz hx =>
    by_cases hq : q = q₀
    · rw [hq, Function.update_self] at hv
      exact absurd hv (Nat.not_lt_zero v)
    · rw [Function.update_of_ne hq]
      exact hfill hx rfl
  | waitFailed addr q₀ status n x hz hx => exact hfill hx rfl
  | sbrk n eager x hx =>
    by_cases hq : q = p
    · rw [hq, Function.update_self] at hv ⊢
      rw [hx.sz_eq] at hv
      exact hx.right_of ((if_pos hv).trans (hq ▸ hr))
    · rwa [Function.update_of_ne hq]
  | exec path uargv lookup argc x =>
    by_cases hq : q = p
    · exact absurd ⟨⟨path, uargv, lookup, rfl⟩, by simp⟩ (hexec hq)
    · rwa [Function.update_of_ne hq]
  | execFailed path uargv lookup x hx => exact hfill hx rfl
  | pipe fdarray n b x hx => exact hfill hx rfl
  | _ => exact hr

theorem Flat.Step.right_inherited (h : Flat.Step oom m p .fork o m') (hr : (m p).right v = some r)
    (hq : m q = Space.empty) (hv : v < npages (m' q).sz) : (m' q).right v = some r := by
  generalize hop : Op.fork = op at h
  cases h with
  | fork np n hnp =>
    by_cases hn : q = np
    · rwa [hn, Function.update_self]
    · rw [Function.update_of_ne hn, hq] at hv
      exact absurd hv (Nat.not_lt_zero v)
  | forkFailed =>
    rw [hq] at hv
    exact absurd hv (Nat.not_lt_zero v)
  | killed va write => cases write <;> cases hop
  | files op n hop' =>
    subst hop
    exact hop'.elim
  | _ => cases hop

end

section
variable [KernelImage] {s s' : State} {p q q' : ProcId} {v : ℕ} {op : Op} {o : Outcome}

/-- Page `v` of process `q` in `s` is page `v` of process `q'` in `s'`: it has not been unmapped on the
way, and a child has it from its parent. -/
inductive Descends (v : ℕ) (q : ProcId) (s : State) : ProcId → State → Prop
  | refl : Descends v q s q s
  | stays {q' p : ProcId} {s₁ s' : State} {op : Op} {o : Outcome} : Descends v q s q' s₁ →
      Tame s₁ (p, op) → step (p, op) s₁ = .ok (o, s') → v < npages (s'.proc q').sz →
      (q' = p → ¬ op.Replaces o) → Descends v q s q' s'
  | forked {q' np : ProcId} {s₁ s' : State} {o : Outcome} : Descends v q s q' s₁ →
      Tame s₁ (q', .fork) → step (q', .fork) s₁ = .ok (o, s') → (s₁.proc np).state = .unused →
      v < npages (s'.proc np).sz → Descends v q s np s'

theorem flat_step (h : TameReachable s) (ht : Tame s (p, op)) (hstep : step (p, op) s = .ok (o, s')) :
    Flat.Step (s'.phys.oom = true) (spaceOf s) p op o (spaceOf s') := by
  obtain ⟨hinv, hs, -⟩ := h.invs
  obtain ⟨pt, tf, hl, hend⟩ := step_end hinv ht.1 hstep
  exact hend.flat hinv hl ht.1.1 hs ht.2 id

/-- The rights to a page do not change from the moment it is mapped until it is unmapped, in the
process and in all its descendants, though `PTE_W` comes and goes. -/
theorem rights_constant (h : TameReachable s) (hd : Descends v q s q' s') (hv : v < UPAGES)
    (hV : (pteOf s q v).has PTE_V) :
    (pteOf s' q' v).has PTE_V ∧ rights (pteOf s' q' v) = rights (pteOf s q v) := by
  suffices hright : TameReachable s' ∧
      (spaceOf s' q').right v = some (rights (pteOf s q v)) from (spaceOf_right.mp hright.2).2
  induction hd with
  | refl => exact ⟨h, spaceOf_right.mpr ⟨hv, hV, rfl⟩⟩
  | stays _ ht hstep hsz hexec ih =>
    exact ⟨ih.1.next ht hstep, (flat_step ih.1 ht hstep).right_kept ih.2 hsz hexec⟩
  | forked _ ht hstep hnp hsz ih =>
    have hempty := (ih.1.invs.1.procs _).empty hnp
    exact ⟨ih.1.next ht hstep,
      (flat_step ih.1 ht hstep).right_inherited ih.2 (spaceOf_empty hempty) hsz⟩

end

theorem rights_constant_forked : ∃ s', @Descends twentyPages 1 0 justStarted 1 s' ∧
    (pteOf s' 1 1).has PTE_V ∧ rights (pteOf s' 1 1) = rights (pteOf justStarted 0 1) := by
  have hstart : @TameReachable twentyPages justStarted :=
    ⟨justStarted, [], justStarted_booted, .nil _⟩
  have htame : Tame justStarted (0, .fork) := by decide +kernel
  have hunused : (justStarted.proc 1).state = .unused := by decide +kernel
  have hvalid : (pteOf justStarted 0 1).has PTE_V := by decide +kernel
  have hok : (@step twentyPages (0, .fork) justStarted).toOption.any
      (fun r => 1 < npages (r.2.proc 1).sz) = true := by decide +kernel
  generalize justStarted = s at *
  cases hstep : @step twentyPages (0, .fork) s with
  | error e =>
    rw [hstep] at hok
    cases hok
  | ok r =>
    rw [hstep] at hok
    have hd : @Descends twentyPages 1 0 s 1 r.2 :=
      @Descends.forked twentyPages _ _ _ _ _ _ _ _ (@Descends.refl twentyPages _ _ _) htame hstep
        hunused (of_decide_eq_true hok)
    exact ⟨r.2, hd, @rights_constant twentyPages _ _ _ _ _ hstart hd (by unfold UPAGES; decide) hvalid⟩

/-! ## Frames -/

section
variable [KernelImage] {s s' : State} {p q : ProcId} {pt : PageTable} {tf : ℕ} {op : Op} {o : Outcome}

theorem SbrkCut.frame {n : ℤ} {pt' : PageTable} {k' : Phys} (hs : SbrkCut s p pt tf n pt' k')
    (h : Inv s 0) (hq : q ≠ p) (sz : ℕ) : Frame s (s.setSpace p pt' sz k') q := by
  obtain ⟨-, -, pt₁, k₁, hu, hf⟩ := hs
  have h₁ : SameOn (others s p) s.phys.mem k₁.mem := hu.same.mono fun a ha =>
    Multiset.mem_add.mpr (Or.inr (Multiset.mem_cons_of_mem ha))
  exact h.frame_put hq _ (h₁.trans (hf.same.mono fun a ha => Multiset.mem_add.mpr (Or.inr ha)))

theorem WaitEnd.frame {addr : ℕ} {r : Option ℤ} (hw : WaitEnd s p pt addr r s') (h : Inv s 0)
    (hl : Live (owners s) (s.proc p) pt tf) (hq : q ≠ p) (hz : (s.proc q).state ≠ .zombie) :
    Frame s s' q := by
  cases hw with
  | nothing r hr => exact ⟨rfl, fun _ _ _ _ => rfl⟩
  | failed q₀ s₁ hparent hzombie hrep =>
    obtain ⟨n, hacc⟩ := hrep.accessed h hl
    exact hacc.frame h hq
  | reaped q₀ s₁ k' hparent hzombie hrep hinv hframe =>
    have hne : q ≠ q₀ := by
      rintro rfl
      exact hz hzombie
    obtain ⟨n, hacc⟩ := hrep.accessed h hl
    exact (hacc.frame h hq).trans (hframe q hne)

theorem OpEnd.frame (he : OpEnd s p pt tf op (.ok (o, s'))) (h : Inv s 0)
    (hl : Live (owners s) (s.proc p) pt tf) (hq : q ≠ p) (hu : (s.proc q).state ≠ .unused)
    (hz : (s.proc q).state ≠ .zombie) : Frame s s' q := by
  cases he with
  | forked r s' np hinv hkept hinit hoom hf =>
    refine hf.frame q hq ?_
    rintro rfl
    exact hu (by rw [hf.unused]; rfl)
  | forkFailed s' hinv hkept hinit hoom hf => exact hf.frame q hq
  | exited status s' hinv hex => exact hex.frame q hq
  | waited addr r s' hw => exact hw.frame h hl hq hz
  | sbrkFailed n eager pt' k' hf => exact h.frame_evolve hq hf.evolve _
  | sbrked n eager pt' k' hf => exact h.frame_evolve hq hf.evolve _
  | sbrkCut n eager pt' k' hf => exact hf.frame h hq _
  | execFailed path uargv lookup s' hacc => exact hacc.frame h hq
  | execed path uargv lookup name argc pt' sz' k' hc => exact h.frame_put hq _ hc.same
  | accessed op va write s' hop hacc => exact hacc.frame h hq
  | killed op va write s₁ s' hop hacc hr hinv hex => exact (hacc.frame h hq).trans (hex.frame q hq)
  | copiedIn va len ok bytes s' hc => exact hc.accessed.frame h hq
  | copiedOut va src ok n s' hc => exact hc.accessed.frame h hq
  | piped fdarray r s' hp => exact hp.retained.frame q hq
  | filed op r s' hop hinv hst => exact hst.frame q

end

end Xv6.Kernel
