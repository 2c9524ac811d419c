import Xv6.Kernel.SpaceSpec

/-! # The file table and pipes

Every function of file.c and pipe.c keeps the invariant, with one reference more
or less in the hands of its caller, and does not touch the memory of any
process.
-/
namespace Xv6.Kernel
open Library Library.Exec Library.RefCount Vm

/-! ## Counting descriptors -/

/-- A descriptor as a reference to file `f`. -/
def refOf (x : Option FileId) (f : FileId) : ℤ := if x = some f then 1 else 0

theorem refOf_some (f : FileId) : refOf (some f) = Pi.single f 1 := by
  funext g
  simp only [refOf, Option.some.injEq, Pi.single_apply, eq_comm]

theorem refOf_none : refOf none = 0 := by
  funext g
  simp [refOf]

theorem fileCount_update (ofile : Fin NOFILE → Option FileId) (fd : Fin NOFILE)
    (x : Option FileId) (f : FileId) :
    fileCount (Function.update ofile fd x) f = fileCount ofile f + refOf x f - refOf (ofile fd) f := by
  have := sum_comp_update_add (fun y => refOf y f) ofile fd x
  simp only [refOf] at this
  simp only [fileCount, refOf]
  omega

theorem slots_update (proc : ProcId → Proc) (p : ProcId) (pr : Proc) (f : FileId) :
    slots (Function.update proc p pr) f =
      slots proc f + fileCount pr.ofile f - fileCount (proc p).ofile f := by
  have := sum_comp_update_add (fun pr : Proc => fileCount pr.ofile f) proc p pr
  simp only [slots]
  omega

theorem fileCount_nonneg (ofile : Fin NOFILE → Option FileId) (f : FileId) :
    0 ≤ fileCount ofile f := Finset.sum_nonneg fun _ _ => by split <;> omega

theorem slots_nonneg (proc : ProcId → Proc) (f : FileId) : 0 ≤ slots proc f :=
  Finset.sum_nonneg fun p _ => fileCount_nonneg (proc p).ofile f

theorem one_le_slots {proc : ProcId → Proc} {p : ProcId} {fd : Fin NOFILE} {f : FileId}
    (h : (proc p).ofile fd = some f) : 1 ≤ slots proc f := by
  have hfd : (1 : ℤ) ≤ fileCount (proc p).ofile f := by
    have := Finset.single_le_sum (f := fun fd => refOf ((proc p).ofile fd) f)
      (fun _ _ => by unfold refOf; split <;> omega) (Finset.mem_univ fd)
    simp only [refOf, h, if_true] at this
    exact this
  have hp := Finset.single_le_sum (f := fun p => fileCount (proc p).ofile f)
    (fun p _ => fileCount_nonneg (proc p).ofile f) (Finset.mem_univ p)
  exact hfd.trans hp

section
variable {proc : ProcId → Proc} {ft : FileId → File} {pipe : ℕ → Pipe} {held : FileId → ℤ}

theorem FilesOk.setSlot (h : FilesOk proc ft pipe held) (p : ProcId) (fd : Fin NOFILE)
    (x : Option FileId) {pr : Proc} (hpr : pr.ofile = Function.update (proc p).ofile fd x) :
    FilesOk (Function.update proc p pr) ft pipe
      (held + refOf ((proc p).ofile fd) - refOf x) :=
  { h with
    ref_eq := fun f => by
      rw [slots_update, hpr, fileCount_update, h.ref_eq f]
      simp only [Pi.add_apply, Pi.sub_apply]
      ring }

theorem mem_pipePages {pi : ℕ} : pi ∈ pipePages ft ↔ ∃ f w, IsEnd ft f pi w := by
  simp only [pipePages, Finset.mem_image, Finset.mem_filter, Finset.mem_univ, true_and]
  constructor
  · rintro ⟨f, ht, hp⟩
    exact ⟨f, _, ht, hp, rfl⟩
  · rintro ⟨f, w, ht, hp, -⟩
    exact ⟨f, ht, hp⟩

theorem pipePages_congr {ft' : FileId → File}
    (h : ∀ f pi w, IsEnd ft' f pi w ↔ IsEnd ft f pi w) : pipePages ft' = pipePages ft := by
  ext pi
  rw [mem_pipePages, mem_pipePages]
  exact exists_congr fun f => exists_congr fun w => h f pi w

theorem IsEnd.congr {ft' : FileId → File} {f : FileId} (ht : (ft' f).type = (ft f).type)
    (hp : (ft' f).pipe = (ft f).pipe) (hw : (ft' f).writable = (ft f).writable) (pi : ℕ) (w : Bool) :
    IsEnd ft' f pi w ↔ IsEnd ft f pi w := by
  constructor <;> intro ⟨h1, h2, h3⟩
  · exact ⟨ht ▸ h1, hp ▸ h2, hw ▸ h3⟩
  · exact ⟨ht.trans h1, hp.trans h2, hw.trans h3⟩

theorem isEnd_setRef (ft : FileId → File) (f : FileId) (r : ℤ) (g : FileId) (pi : ℕ) (w : Bool) :
    IsEnd (Function.update ft f { ft f with ref := r }) g pi w ↔ IsEnd ft g pi w := by
  by_cases hg : g = f
  · subst hg
    apply IsEnd.congr <;> rw [Function.update_self]
  · apply IsEnd.congr <;> rw [Function.update_of_ne hg]

theorem pipePages_setRef (ft : FileId → File) (f : FileId) (r : ℤ) :
    pipePages (Function.update ft f { ft f with ref := r }) = pipePages ft :=
  pipePages_congr (isEnd_setRef ft f r)

theorem FilesOk.setRef (h : FilesOk proc ft pipe held) (f : FileId) (r : ℤ)
    (hr : r = 0 → (ft f).type = .none) :
    FilesOk proc (Function.update ft f { ft f with ref := r }) pipe
      (held + Pi.single f (r - (ft f).ref)) := by
  have hend := isEnd_setRef ft f r
  refine ⟨?_, ?_, ?_, ?_⟩
  · intro g
    by_cases hg : g = f
    · subst hg
      have := h.ref_eq g
      simp only [Function.update_self, Pi.add_apply, Pi.single_eq_same]
      omega
    · simp only [Function.update_of_ne hg, Pi.add_apply, Pi.single_eq_of_ne hg, add_zero]
      exact h.ref_eq g
  · intro g
    by_cases hg : g = f
    · subst hg
      simp only [Function.update_self]
      exact hr
    · simp only [Function.update_of_ne hg]
      exact h.closed g
  · intro pi hpi w
    rw [pipePages_congr hend] at hpi
    rw [h.ends pi hpi w]
    exact exists_congr fun g => (hend g pi w).symm
  · intro g g' pi w hg hg'
    exact h.unique g g' pi w ((hend g pi w).mp hg) ((hend g' pi w).mp hg')

/-! ## Closing the last reference -/

/-- The file table after the last close of `f`. -/
def closeFile (ft : FileId → File) (f : FileId) : FileId → File :=
  Function.update ft f { ft f with ref := 0, type := .none }

theorem isEnd_closeFile {f g : FileId} {pi : ℕ} {w : Bool} :
    IsEnd (closeFile ft f) g pi w ↔ g ≠ f ∧ IsEnd ft g pi w := by
  by_cases hg : g = f
  · subst hg
    refine iff_of_false (fun h => ?_) (fun h => h.1 rfl)
    have := h.type
    rw [closeFile, Function.update_self] at this
    cases this
  · rw [and_iff_right hg]
    apply IsEnd.congr <;> rw [closeFile, Function.update_of_ne hg]

theorem closeFile_ref_eq (h : FilesOk proc ft pipe held) (f g : FileId) :
    (closeFile ft f g).ref = slots proc g + (held - Pi.single f (ft f).ref : FileId → ℤ) g := by
  by_cases hg : g = f
  · subst hg
    have := h.ref_eq g
    rw [closeFile, Function.update_self, Pi.sub_apply, Pi.single_eq_same]
    dsimp only
    omega
  · rw [closeFile, Function.update_of_ne hg, Pi.sub_apply, Pi.single_eq_of_ne hg, sub_zero]
    exact h.ref_eq g

theorem closeFile_closed (h : FilesOk proc ft pipe held) (f g : FileId)
    (hr : (closeFile ft f g).ref = 0) : (closeFile ft f g).type = .none := by
  by_cases hg : g = f
  · subst hg
    rw [closeFile, Function.update_self]
  · rw [closeFile, Function.update_of_ne hg] at hr ⊢
    exact h.closed g hr

theorem FilesOk.close (h : FilesOk proc ft pipe held) {f : FileId} (ht : (ft f).type ≠ .pipe) :
    FilesOk proc (closeFile ft f) pipe (held - Pi.single f (ft f).ref) ∧
      pipePages (closeFile ft f) = pipePages ft := by
  have hend (g : FileId) (pi : ℕ) (w : Bool) :
      IsEnd (closeFile ft f) g pi w ↔ IsEnd ft g pi w := by
    rw [isEnd_closeFile, and_iff_right_iff_imp]
    rintro hg rfl
    exact ht hg.type
  have hpages := pipePages_congr hend
  refine ⟨⟨closeFile_ref_eq h f, closeFile_closed h f, ?_, ?_⟩, hpages⟩
  · intro pi hpi w
    rw [hpages] at hpi
    rw [h.ends pi hpi w]
    exact exists_congr fun g => (hend g pi w).symm
  · intro g g' pi w hg hg'
    exact h.unique g g' pi w ((hend g pi w).mp hg) ((hend g' pi w).mp hg')

/-- The flags of a pipe after one of its ends is closed. -/
def Pipe.closeEnd (pipe : Pipe) (w : Bool) : Pipe :=
  if w then { pipe with writeopen := false } else { pipe with readopen := false }

theorem isOpen_closeEnd (pi : Pipe) (w w' : Bool) :
    (pi.closeEnd w).isOpen w' = (pi.isOpen w' && (w' != w)) := by
  cases w <;> cases w' <;> simp [Pipe.closeEnd, Pipe.isOpen]

/-- Closing an end of a pipe: the page stays in use exactly while the other end
is open. -/
theorem FilesOk.closePipe (h : FilesOk proc ft pipe held) {f : FileId} (ht : (ft f).type = .pipe) :
    let pi := (ft f).pipe
    let pipe' := Function.update pipe pi ((pipe pi).closeEnd (ft f).writable)
    FilesOk proc (closeFile ft f) pipe' (held - Pi.single f (ft f).ref) ∧
      (pipePages ft).val = (if (pipe' pi).isOpen (!(ft f).writable) then 0 else {pi}) +
        (pipePages (closeFile ft f)).val := by
  intro pi pipe'
  have hf : IsEnd ft f pi (ft f).writable := ⟨ht, rfl, rfl⟩
  have hpi : pi ∈ pipePages ft := mem_pipePages.mpr ⟨f, _, hf⟩
  have hsub (pi' : ℕ) (hpi' : pi' ∈ pipePages (closeFile ft f)) : pi' ∈ pipePages ft := by
    obtain ⟨g, w, hg⟩ := mem_pipePages.mp hpi'
    exact mem_pipePages.mpr ⟨g, w, (isEnd_closeFile.mp hg).2⟩
  have hself : pipe' pi = (pipe pi).closeEnd (ft f).writable := Function.update_self ..
  -- The ends of this pipe that stay open are those on the other side.
  have hside (g : FileId) (w : Bool) :
      IsEnd (closeFile ft f) g pi w ↔ IsEnd ft g pi w ∧ w ≠ (ft f).writable := by
    rw [isEnd_closeFile, and_comm]
    refine and_congr_right fun hg => ⟨?_, ?_⟩
    · rintro hne rfl
      exact hne (h.unique g f pi _ hg hf)
    · rintro hw rfl
      exact hw hg.writable.symm
  have hpages : pi ∈ pipePages (closeFile ft f) ↔ (pipe' pi).isOpen (!(ft f).writable) = true := by
    rw [hself, isOpen_closeEnd, mem_pipePages]
    simp only [Bool.and_eq_true, h.ends pi hpi]
    constructor
    · rintro ⟨g, w, hg⟩
      obtain ⟨hg', hw⟩ := (hside g w).mp hg
      have hw' : w = !(ft f).writable := Bool.eq_not.mpr hw
      exact ⟨⟨g, hw' ▸ hg'⟩, by simp⟩
    · rintro ⟨⟨g, hg⟩, -⟩
      exact ⟨g, _, (hside g _).mpr ⟨hg, by simp⟩⟩
  refine ⟨⟨closeFile_ref_eq h f, closeFile_closed h f, ?_, ?_⟩, ?_⟩
  · intro pi' hpi' w
    by_cases hp : pi' = pi
    · subst hp
      rw [hself, isOpen_closeEnd, Bool.and_eq_true, h.ends _ hpi]
      constructor
      · rintro ⟨⟨g, hg⟩, hw⟩
        exact ⟨g, (hside g w).mpr ⟨hg, by simpa using hw⟩⟩
      · rintro ⟨g, hg⟩
        obtain ⟨hg', hw⟩ := (hside g w).mp hg
        exact ⟨⟨g, hg'⟩, by simpa using hw⟩
    · rw [show pipe' pi' = pipe pi' from Function.update_of_ne hp .., h.ends pi' (hsub pi' hpi') w]
      refine exists_congr fun g => ?_
      rw [isEnd_closeFile, iff_and_self]
      rintro hg rfl
      exact hp hg.pipe.symm
  · intro g g' pi' w hg hg'
    exact h.unique g g' pi' w (isEnd_closeFile.mp hg).2 (isEnd_closeFile.mp hg').2
  · have hrest (pi' : ℕ) (hne : pi' ≠ pi) :
        pi' ∈ pipePages (closeFile ft f) ↔ pi' ∈ pipePages ft := by
      refine ⟨hsub pi', fun hp => ?_⟩
      obtain ⟨g, w, hg⟩ := mem_pipePages.mp hp
      refine mem_pipePages.mpr ⟨g, w, isEnd_closeFile.mpr ⟨?_, hg⟩⟩
      rintro rfl
      exact hne hg.pipe.symm
    split
    · next hopen =>
      rw [zero_add]
      congr 1
      ext pi'
      by_cases hp : pi' = pi
      · subst hp
        exact iff_of_true hpi (hpages.mpr hopen)
      · exact (hrest pi' hp).symm
    · next hclosed =>
      have hnot : pi ∉ pipePages (closeFile ft f) := fun hin => hclosed (hpages.mp hin)
      rw [Multiset.singleton_add, ← Finset.insert_val_of_notMem hnot]
      congr 1
      ext pi'
      rw [Finset.mem_insert]
      by_cases hp : pi' = pi
      · subst hp
        exact iff_of_true hpi (Or.inl rfl)
      · rw [hrest pi' hp, or_iff_right hp]

end

/-! ## A new pipe -/

section
variable {proc : ProcId → Proc} {ft : FileId → File} {pipe : ℕ → Pipe} {held : FileId → ℤ}

/-- The file table after `pipealloc` has made `f₀` and `f₁` the ends of the pipe
at `pi`. -/
def openPipe (ft : FileId → File) (f₀ f₁ : FileId) (pi : ℕ) : FileId → File :=
  let ft₀ := Function.update ft f₀
    { ft f₀ with type := .pipe, readable := true, writable := false, pipe := pi }
  Function.update ft₀ f₁
    { ft₀ f₁ with type := .pipe, readable := false, writable := true, pipe := pi }

theorem openPipe_ref (f₀ f₁ : FileId) (pi : ℕ) (g : FileId) :
    (openPipe ft f₀ f₁ pi g).ref = (ft g).ref := by
  unfold openPipe
  dsimp only
  by_cases h₁ : g = f₁
  · rw [h₁, Function.update_self]
    by_cases h₀ : f₁ = f₀
    · rw [h₀, Function.update_self]
    · rw [Function.update_of_ne h₀]
  · rw [Function.update_of_ne h₁]
    by_cases h₀ : g = f₀
    · rw [h₀, Function.update_self]
    · rw [Function.update_of_ne h₀]

theorem openPipe_of_ne {f₀ f₁ g : FileId} (h₀ : g ≠ f₀) (h₁ : g ≠ f₁) {pi : ℕ} :
    openPipe ft f₀ f₁ pi g = ft g := by
  unfold openPipe
  dsimp only
  rw [Function.update_of_ne h₁, Function.update_of_ne h₀]

theorem isEnd_openPipe {f₀ f₁ : FileId} (hne : f₀ ≠ f₁) (h₀ : (ft f₀).type ≠ .pipe)
    (h₁ : (ft f₁).type ≠ .pipe) (pi : ℕ) (g : FileId) (pi' : ℕ) (w : Bool) :
    IsEnd (openPipe ft f₀ f₁ pi) g pi' w ↔
      (pi' = pi ∧ g = if w then f₁ else f₀) ∨ IsEnd ft g pi' w := by
  unfold openPipe
  by_cases hg₁ : g = f₁
  · subst hg₁
    have hnot : ¬ IsEnd ft g pi' w := fun h => h₁ h.type
    rw [or_iff_left hnot]
    constructor
    · rintro ⟨-, hp, hw⟩
      simp only [Function.update_self] at hp hw
      exact ⟨hp.symm, by rw [← hw, if_pos rfl]⟩
    · rintro ⟨rfl, hw⟩
      cases w with
      | false => exact absurd hw.symm hne
      | true => constructor <;> simp only [Function.update_self]
  by_cases hg₀ : g = f₀
  · subst hg₀
    have hnot : ¬ IsEnd ft g pi' w := fun h => h₀ h.type
    rw [or_iff_left hnot]
    constructor
    · rintro ⟨-, hp, hw⟩
      simp only [Function.update_of_ne hg₁, Function.update_self] at hp hw
      exact ⟨hp.symm, by rw [← hw, if_neg (by simp)]⟩
    · rintro ⟨rfl, hw⟩
      cases w with
      | false => constructor <;> simp only [Function.update_of_ne hg₁, Function.update_self]
      | true => exact absurd hw hne
  · have hnot : ¬ (pi' = pi ∧ g = if w then f₁ else f₀) := by
      rintro ⟨-, hw⟩
      cases w with
      | false => exact hg₀ hw
      | true => exact hg₁ hw
    rw [or_iff_right hnot]
    apply IsEnd.congr <;> simp only [Function.update_of_ne hg₁, Function.update_of_ne hg₀]

theorem FilesOk.openPipe (h : FilesOk proc ft pipe held) {f₀ f₁ : FileId} (hne : f₀ ≠ f₁)
    (h₀ : (ft f₀).type ≠ .pipe) (h₁ : (ft f₁).type ≠ .pipe) (hr₀ : (ft f₀).ref ≠ 0)
    (hr₁ : (ft f₁).ref ≠ 0) {pi : ℕ} (hpi : pi ∉ pipePages ft) :
    FilesOk proc (openPipe ft f₀ f₁ pi) (Function.update pipe pi ⟨true, true⟩) held ∧
      pipePages (openPipe ft f₀ f₁ pi) = insert pi (pipePages ft) := by
  have hend := isEnd_openPipe hne h₀ h₁ pi
  have hold (g : FileId) (w : Bool) : ¬ IsEnd ft g pi w := fun hg =>
    hpi (mem_pipePages.mpr ⟨g, w, hg⟩)
  have hpages : pipePages (Kernel.openPipe ft f₀ f₁ pi) = insert pi (pipePages ft) := by
    ext pi'
    rw [Finset.mem_insert, mem_pipePages, mem_pipePages]
    constructor
    · rintro ⟨g, w, hg⟩
      exact ((hend g pi' w).mp hg).imp And.left fun hg => ⟨g, w, hg⟩
    · rintro (rfl | ⟨g, w, hg⟩)
      · exact ⟨f₀, false, (hend _ _ _).mpr (Or.inl ⟨rfl, rfl⟩)⟩
      · exact ⟨g, w, (hend _ _ _).mpr (Or.inr hg)⟩
  refine ⟨⟨fun g => by rw [openPipe_ref, h.ref_eq], ?_, ?_, ?_⟩, hpages⟩
  · intro g hr
    rw [openPipe_ref] at hr
    have hg₀ : g ≠ f₀ := fun hg => hr₀ (hg ▸ hr)
    have hg₁ : g ≠ f₁ := fun hg => hr₁ (hg ▸ hr)
    rw [openPipe_of_ne hg₀ hg₁]
    exact h.closed g hr
  · intro pi' hpi' w
    by_cases hp : pi' = pi
    · subst hp
      rw [Function.update_self]
      refine iff_of_true (by cases w <;> rfl) ⟨if w then f₁ else f₀, ?_⟩
      exact (hend _ _ _).mpr (Or.inl ⟨rfl, rfl⟩)
    · rw [hpages, Finset.mem_insert, or_iff_right hp] at hpi'
      rw [Function.update_of_ne hp, h.ends pi' hpi' w]
      refine exists_congr fun g => ?_
      rw [hend, or_iff_right (fun hc => hp hc.1)]
  · intro g g' pi' w hg hg'
    rcases (hend g pi' w).mp hg with ⟨rfl, hgw⟩ | hgo
    · rcases (hend g' pi' w).mp hg' with ⟨-, hgw'⟩ | hgo'
      · rw [hgw, hgw']
      · exact absurd hgo' (hold g' w)
    · rcases (hend g' pi' w).mp hg' with ⟨rfl, -⟩ | hgo'
      · exact absurd hgo (hold g w)
      · exact h.unique g g' pi' w hgo hgo'

end

/-! ## Functions of file.c and pipe.c -/

/-- No process sees a change of its memory. -/
structure Still (s s' : State) : Prop where
  initproc_eq : s'.initproc = s.initproc
  bootPages_eq : s'.bootPages = s.bootPages
  frame : ∀ q, Frame s s' q
  oom_mono : s.phys.oom = true → s'.phys.oom = true

theorem Still.refl (s : State) : Still s s := ⟨rfl, rfl, Frame.refl s, id⟩

theorem Still.trans {s s₁ s' : State} (h : Still s s₁) (h' : Still s₁ s') : Still s s' :=
  ⟨h'.initproc_eq.trans h.initproc_eq, h'.bootPages_eq.trans h.bootPages_eq,
    fun q => (h.frame q).trans (h'.frame q), fun ho => h'.oom_mono (h.oom_mono ho)⟩

/-- No process has changed at all. -/
structure Calm (s s' : State) : Prop extends Still s s' where
  proc_eq : s'.proc = s.proc

theorem Calm.refl (s : State) : Calm s s := ⟨Still.refl s, rfl⟩

theorem Calm.trans {s s₁ s' : State} (h : Calm s s₁) (h' : Calm s₁ s') : Calm s s' :=
  ⟨h.toStill.trans h'.toStill, h'.proc_eq.trans h.proc_eq⟩

/-- Every pipe is still one, or its page is free. -/
def PipesKept (s s' : State) : Prop :=
  ∀ pi ∈ pipePages s.ftable, pi ∈ pipePages s'.ftable ∨ pi ∈ s'.phys.freelist

section
variable [KernelImage] {s s' : State} {held held' : FileId → ℤ} {ft' : FileId → File}
  {pipe' : ℕ → Pipe} {k' : Phys}

omit [KernelImage] in
theorem PipesKept.of_eq (h : s'.ftable = s.ftable) : PipesKept s s' := by
  intro pi hpi
  rw [h]
  exact Or.inl hpi

/-- A page that only the pipe owned is free when it is no pipe any more. -/
theorem Inv.pipesKept (h : Inv s held) (h' : Inv s' held') (hboot : s'.bootPages = s.bootPages)
    (hrefs : ∀ q, procRefs (s'.proc q) = procRefs (s.proc q)) : PipesKept s s' := by
  intro pi hpi
  by_cases hstill : pi ∈ pipePages s'.ftable
  · exact Or.inl hstill
  right
  have hone := h.pipes pi hpi
  have hpage := h.acct.valid_of_mem pi (Multiset.count_pos.mp (by omega))
  have hself : (pipePages s.ftable).val.count pi = 1 :=
    Multiset.count_eq_one_of_mem (pipePages s.ftable).nodup hpi
  refine (h'.acct.mem_free pi).mpr ⟨hpage, Multiset.count_eq_zero.mp ?_⟩
  have hgone : (pipePages s'.ftable).val.count pi = 0 := Multiset.count_eq_zero.mpr hstill
  unfold owners at hone ⊢
  rw [Multiset.count_add] at hone
  rw [hboot, Finset.sum_congr rfl fun q _ => hrefs q, Multiset.count_add]
  omega

omit [KernelImage] in
theorem Still.procRefs_eq (h : Still s s') (q : ProcId) :
    procRefs (s'.proc q) = procRefs (s.proc q) := by
  have hcore := (h.frame q).core_eq
  have hstate : (s'.proc q).state = (s.proc q).state := (congrArg Proc.state hcore :)
  have hpt : (s'.proc q).pagetable = (s.proc q).pagetable := (congrArg Proc.pagetable hcore :)
  have htf : (s'.proc q).trapframe = (s.proc q).trapframe := (congrArg Proc.trapframe hcore :)
  rw [procRefs, procRefs, ownsTrapframe, ownsTrapframe, hstate, hpt, htf]

theorem Still.pipesKept (hs : Still s s') (h : Inv s held) (h' : Inv s' held') : PipesKept s s' :=
  h.pipesKept h' hs.bootPages_eq hs.procRefs_eq

/-- Only the file table, pipes and physical memory change. -/
def State.setFiles (s : State) (ft : FileId → File) (pipe : ℕ → Pipe) (k : Phys) : State :=
  { s with ftable := ft, pipe := pipe, phys := k }

omit [KernelImage] in
theorem owners_setFiles (s : State) (ft' : FileId → File) (pipe' : ℕ → Pipe) (k' : Phys) :
    owners (s.setFiles ft' pipe' k') + (pipePages s.ftable).val =
      owners s + (pipePages ft').val := by
  unfold owners State.setFiles
  abel

omit [KernelImage] in
theorem mem_owners_of_pipe {pi : ℕ} (hpi : pi ∈ pipePages s.ftable) : pi ∈ owners s :=
  Multiset.mem_of_le ((pipePages_le_others s s.initproc).trans (others_le_owners _ _)) hpi

theorem Inv.setFiles (h : Inv s held) (hacct : Acct k' (owners (s.setFiles ft' pipe' k')))
    (hsh : NoNewSharing (owners s) (owners (s.setFiles ft' pipe' k')))
    (hpipes : ∀ pi ∈ pipePages ft', (owners (s.setFiles ft' pipe' k')).count pi = 1)
    (hfiles : FilesOk s.proc ft' pipe' held') : Inv (s.setFiles ft' pipe' k') held' where
  acct := hacct
  procs := fun q => (h.procs q).mono fun _ ha hone =>
    hsh.count_eq_one hone.le (Multiset.mem_of_le (procRefs_le_owners (s.setFiles ft' pipe' k') q) ha)
  zombie := h.zombie
  files := hfiles
  pipes := hpipes

theorem Inv.setTable (h : Inv s held) (hpages : pipePages ft' = pipePages s.ftable)
    (hfiles : FilesOk s.proc ft' pipe' held') : Inv (s.setFiles ft' pipe' s.phys) held' := by
  have howners : owners (s.setFiles ft' pipe' s.phys) = owners s := by
    have := owners_setFiles s ft' pipe' s.phys
    rw [hpages] at this
    exact add_right_cancel this
  refine h.setFiles ?_ ?_ ?_ hfiles
  · rw [howners]
    exact h.acct
  · rw [howners]
    exact NoNewSharing.refl _
  · rw [howners, hpages]
    exact h.pipes

omit [KernelImage] in
theorem owners_setPhys (s : State) (k' : Phys) : owners { s with phys := k' } = owners s :=
  owners_congr rfl (fun _ => rfl) rfl

theorem Inv.setPhys (h : Inv s held) (hacct : Acct k' (owners s)) :
    Inv { s with phys := k' } held := by
  have howners := owners_setPhys s k'
  refine h.setFiles ?_ ?_ ?_ h.files
  · rw [State.setFiles, howners]
    exact hacct
  · rw [State.setFiles, howners]
    exact NoNewSharing.refl _
  · rw [State.setFiles, howners]
    exact h.pipes

omit [KernelImage] in
theorem calm_setTable (s : State) (ft' : FileId → File) (pipe' : ℕ → Pipe) :
    Calm s (s.setFiles ft' pipe' s.phys) :=
  ⟨⟨rfl, rfl, fun _ => ⟨rfl, fun _ _ _ _ => rfl⟩, id⟩, rfl⟩

theorem Inv.calm_setFiles (h : Inv s held)
    (hsame : ∀ q, SameOn (procRefs (s.proc q)) s.phys.mem k'.mem)
    (hoom : s.phys.oom = true → k'.oom = true) : Calm s (s.setFiles ft' pipe' k') :=
  ⟨⟨rfl, rfl, fun q => Frame.of_sameOn rfl h.pagetable_none (hsame q), hoom⟩, rfl⟩

theorem Inv.calm_setPhys (h : Inv s held) {refs : Multiset ℕ}
    (hstep : Step s.phys k' (owners s) refs) : Calm s { s with phys := k' } :=
  h.calm_setFiles (fun q => hstep.same.mono (Multiset.subset_of_le (procRefs_le_owners s q)))
    hstep.oom_mono

theorem pipeclose_run (s : State) (pi : ℕ) (w : Bool) :
    pipeclose pi w s =
      let s' := s.setFiles s.ftable (Function.update s.pipe pi ((s.pipe pi).closeEnd w)) s.phys
      if ((s.pipe pi).closeEnd w).isOpen (!w) then .ok ((), s') else vm (kfree pi) s' := by
  have hset : setPipe pi (fun pipe => if w then { pipe with writeopen := false }
      else { pipe with readopen := false }) s = .ok ((),
        s.setFiles s.ftable (Function.update s.pipe pi ((s.pipe pi).closeEnd w)) s.phys) := rfl
  have hself : (s.setFiles s.ftable (Function.update s.pipe pi ((s.pipe pi).closeEnd w))
      s.phys).pipe pi = (s.pipe pi).closeEnd w := Function.update_self ..
  have hflags : (!((s.pipe pi).closeEnd w).readopen && !((s.pipe pi).closeEnd w).writeopen) =
      !((s.pipe pi).closeEnd w).isOpen (!w) := by
    cases w <;> simp [Pipe.closeEnd, Pipe.isOpen]
  rw [pipeclose, bind_of_ok hset, bind_of_ok (get_run _), hself, hflags]
  cases ((s.pipe pi).closeEnd w).isOpen (!w) <;> rfl

theorem freePipe_spec (h : Inv s held) {pi : ℕ} (hfiles : FilesOk s.proc ft' pipe' held')
    (hpages : (pipePages s.ftable).val = {pi} + (pipePages ft').val) :
    ∃ s', vm (kfree pi) (s.setFiles ft' pipe' s.phys) = .ok ((), s') ∧ Inv s' held' ∧
      Calm s s' := by
  have howners (k' : Phys) : owners s = pi ::ₘ owners (s.setFiles ft' pipe' k') := by
    have := owners_setFiles s ft' pipe' k'
    rw [hpages, ← add_assoc] at this
    rw [← add_right_cancel this, add_comm, Multiset.singleton_add]
  obtain ⟨k', hrun, hstep, hoom⟩ := kfree_spec (howners s.phys ▸ h.acct)
  have hown : owners (s.setFiles ft' pipe' k') = owners (s.setFiles ft' pipe' s.phys) :=
    (Multiset.cons_inj_right pi).mp ((howners k').symm.trans (howners s.phys))
  have hsh : NoNewSharing (owners s) (owners (s.setFiles ft' pipe' k')) := by
    rw [howners k']
    exact NoNewSharing.of_le (Multiset.le_cons_self _ _)
  refine ⟨s.setFiles ft' pipe' k', vm_run hrun, h.setFiles ?_ hsh ?_ hfiles, ?_⟩
  · rw [hown]
    exact hstep.acct
  · intro pi' hpi'
    have hold : pi' ∈ pipePages s.ftable := by
      rw [← Finset.mem_val, hpages]
      exact Multiset.mem_add.mpr (Or.inr hpi')
    exact hsh.count_eq_one (h.pipes pi' hold).le (mem_owners_of_pipe hpi')
  · refine h.calm_setFiles (fun q => hstep.same.mono (Multiset.subset_of_le ?_)) hstep.oom_mono
    exact procRefs_le_owners (s.setFiles ft' pipe' s.phys) q

theorem fileclose_spec (h : Inv s held) {f : FileId} (href : 1 ≤ (s.ftable f).ref) :
    ∃ s', fileclose f s = .ok ((), s') ∧ Inv s' (held - Pi.single f 1) ∧ Calm s s' := by
  rw [fileclose, bind_of_ok (get_run s), if_neg (by omega)]
  by_cases hmore : 0 < (s.ftable f).ref - 1
  · rw [if_pos hmore]
    have hfiles := h.files.setRef f ((s.ftable f).ref - 1) (fun h0 => by omega)
    have hheld : held + Pi.single f ((s.ftable f).ref - 1 - (s.ftable f).ref) =
        held - Pi.single f 1 := by
      rw [sub_sub_cancel_left, Pi.single_neg, sub_eq_add_neg]
    rw [hheld] at hfiles
    exact ⟨_, rfl, h.setTable (pipePages_setRef s.ftable f _) hfiles, calm_setTable s _ s.pipe⟩
  rw [if_neg hmore]
  have hlast : (s.ftable f).ref = 1 := by omega
  have hset : setFile f (fun file => { file with ref := 0, type := .none }) s =
      .ok ((), s.setFiles (closeFile s.ftable f) s.pipe s.phys) := rfl
  rw [bind_of_ok hset]
  by_cases ht : (s.ftable f).type = .pipe
  · obtain ⟨hfiles, hpages⟩ := h.files.closePipe ht
    rw [hlast] at hfiles
    rw [Function.update_self] at hpages
    rw [if_pos ht, pipeclose_run]
    dsimp only
    change ∃ s', (if ((s.pipe (s.ftable f).pipe).closeEnd _).isOpen _ = true then
      .ok ((), s.setFiles (closeFile s.ftable f) _ s.phys)
      else vm _ (s.setFiles (closeFile s.ftable f) _ s.phys)) = _ ∧ _
    split
    · next hopen =>
      rw [if_pos hopen, zero_add] at hpages
      exact ⟨_, rfl, h.setTable (Finset.val_inj.mp hpages).symm hfiles, calm_setTable s _ _⟩
    · next hclosed =>
      rw [if_neg hclosed] at hpages
      exact freePipe_spec h hfiles hpages
  · obtain ⟨hfiles, hpages⟩ := h.files.close ht
    rw [hlast] at hfiles
    rw [if_neg ht]
    exact ⟨_, rfl, h.setTable hpages hfiles, calm_setTable s _ s.pipe⟩

variable {p : ProcId} {pr : Proc} {pt : PageTable} {tf : ℕ} {f₀ f₁ : FileId}

theorem Inv.reshape (h : Inv s held) (hl : Live (owners s) (s.proc p) pt tf)
    (hpt : pr.pagetable = (s.proc p).pagetable) (htf : pr.trapframe = (s.proc p).trapframe)
    (hsz : pr.sz = (s.proc p).sz) (hst : pr.state ≠ .unused)
    (hz : pr.state = .zombie → pr.ofile = fun _ => none)
    (hfiles : FilesOk (Function.update s.proc p pr) s.ftable s.pipe held') :
    Inv (s.put p pr s.phys) held' := by
  have hrefs : procRefs pr = procRefs (s.proc p) := by
    rw [hl.procRefs_eq, procRefs_of_table hst (hpt.trans hl.pagetable) (htf.trans hl.trapframe)
      hl.tfValid]
  have howners : owners (s.put p pr s.phys) = owners s := by
    rw [owners_put, hrefs, ← owners_eq]
  refine ⟨?_, ?_, ?_, hfiles, by rw [howners]; exact h.pipes⟩
  · rw [howners]
    exact h.acct
  · intro q
    rw [howners]
    by_cases hq : q = p
    · subst hq
      rw [put_proc_self]
      exact Or.inr (Or.inl ⟨pt, tf, hst, hpt.trans hl.pagetable, htf.trans hl.trapframe, hl.wf,
        hl.single, hsz ▸ hl.sz_lt, hsz ▸ hl.above, hl.tfLeaf, hl.trampolineLeaf⟩)
    · rw [put_proc_of_ne hq]
      exact h.procs q
  · intro q
    by_cases hq : q = p
    · subst hq
      rw [put_proc_self]
      exact hz
    · rw [put_proc_of_ne hq]
      exact h.zombie q

omit [KernelImage] in
theorem frame_reshape (hcore : pr.core = (s.proc p).core) (q : ProcId) :
    Frame s (s.put p pr s.phys) q := by
  have hcore' : ((s.put p pr s.phys).proc q).core = (s.proc q).core := by
    by_cases hq : q = p
    · subst hq
      rw [put_proc_self, hcore]
    · rw [put_proc_of_ne hq]
  have hpt : ((s.put p pr s.phys).proc q).pagetable = (s.proc q).pagetable :=
    (congrArg Proc.pagetable hcore' :)
  refine ⟨hcore', fun v _ i _ => ?_⟩
  rw [byteOf, byteOf, pteOf, pteOf, hpt, put_phys]

def State.setSlot (s : State) (p : ProcId) (fd : Fin NOFILE) (x : Option FileId) : State :=
  s.put p { s.proc p with ofile := Function.update (s.proc p).ofile fd x } s.phys

omit [KernelImage] in
theorem still_setSlot (s : State) (p : ProcId) (fd : Fin NOFILE) (x : Option FileId) :
    Still s (s.setSlot p fd x) := ⟨rfl, rfl, frame_reshape rfl, id⟩

theorem Inv.setSlot (h : Inv s held) (hl : Live (owners s) (s.proc p) pt tf) (fd : Fin NOFILE)
    (x : Option FileId) (hz : (s.proc p).state = .zombie → x = none) :
    Inv (s.setSlot p fd x) (held + refOf ((s.proc p).ofile fd) - refOf x) := by
  refine h.reshape hl rfl rfl rfl hl.state (fun hzom => ?_) (h.files.setSlot p fd x rfl)
  dsimp only
  rw [h.zombie p hzom, hz hzom]
  funext fd'
  by_cases hfd : fd' = fd
  · rw [hfd, Function.update_self]
  · rw [Function.update_of_ne hfd]

theorem filedup_spec (h : Inv s held) {f : FileId} (href : 1 ≤ (s.ftable f).ref) :
    ∃ s', filedup f s = .ok ((), s') ∧ Inv s' (held + Pi.single f 1) ∧ Calm s s' := by
  have hfiles := h.files.setRef f ((s.ftable f).ref + 1) (fun h0 => by omega)
  rw [add_sub_cancel_left] at hfiles
  refine ⟨s.setFiles _ s.pipe s.phys, ?_, h.setTable ?_ hfiles, calm_setTable s _ s.pipe⟩
  · rw [filedup, bind_of_ok (get_run s), if_neg (by omega)]
    rfl
  · exact pipePages_setRef s.ftable f _

theorem filealloc_spec (h : Inv s held) :
    filealloc s = .ok (none, s) ∨
    ∃ f s', filealloc s = .ok (some f, s') ∧ Inv s' (held + Pi.single f 1) ∧ Calm s s' ∧
      (s.ftable f).ref = 0 ∧ (s.ftable f).type = .none ∧
      s' = s.setFiles (Function.update s.ftable f { s.ftable f with ref := 1 }) s.pipe s.phys := by
  rw [filealloc, bind_of_ok (get_run s)]
  cases hfind : (List.finRange NFILE).find? fun f => decide ((s.ftable f).ref = 0) with
  | none => exact Or.inl rfl
  | some f =>
    right
    have href : (s.ftable f).ref = 0 := by simpa using List.find?_some hfind
    have hfiles := h.files.setRef f 1 (fun h0 => by omega)
    rw [href, sub_zero] at hfiles
    exact ⟨f, _, rfl, h.setTable (pipePages_setRef s.ftable f 1) hfiles, calm_setTable s _ s.pipe,
      href, h.files.closed f href, rfl⟩

theorem fdalloc_spec (h : Inv s held) (hl : Live (owners s) (s.proc p) pt tf)
    (hz : (s.proc p).state ≠ .zombie) (f : FileId) :
    fdalloc p f s = .ok (none, s) ∨
    ∃ fd, fdalloc p f s = .ok (some fd, s.setSlot p fd (some f)) ∧
      (s.proc p).ofile fd = none ∧ Inv (s.setSlot p fd (some f)) (held - Pi.single f 1) := by
  rw [fdalloc, bind_of_ok (getProc_run p s)]
  cases hfind : (List.finRange NOFILE).find? fun fd => decide ((s.proc p).ofile fd = none) with
  | none => exact Or.inl rfl
  | some fd =>
    have hfree : (s.proc p).ofile fd = none := by simpa using List.find?_some hfind
    have hinv := h.setSlot hl fd (some f) (fun hzom => absurd hzom hz)
    rw [hfree, refOf_none, add_zero, refOf_some] at hinv
    exact Or.inr ⟨fd, rfl, hfree, hinv⟩

/-- Whoever holds a reference may close or duplicate the file. -/
theorem Inv.one_le_ref (h : Inv s held) {f : FileId} (hf : 1 ≤ held f) : 1 ≤ (s.ftable f).ref := by
  have := h.files.ref_eq f
  have := slots_nonneg s.proc f
  omega

theorem fileclose_two (h : Inv s (Pi.single f₀ 1 + Pi.single f₁ 1)) :
    ∃ s₁ s', fileclose f₀ s = .ok ((), s₁) ∧ fileclose f₁ s₁ = .ok ((), s') ∧ Inv s' 0 ∧
      Calm s s' := by
  have hnonneg (f g : FileId) : (0 : ℤ) ≤ (Pi.single f 1 : FileId → ℤ) g := by
    rw [Pi.single_apply]
    split <;> omega
  have hr₀ : 1 ≤ (Pi.single f₀ 1 + Pi.single f₁ 1 : FileId → ℤ) f₀ := by
    have := hnonneg f₁ f₀
    rw [Pi.add_apply, Pi.single_eq_same]
    omega
  obtain ⟨s₁, hrun₁, hinv₁, hcalm₁⟩ := fileclose_spec h (h.one_le_ref hr₀)
  rw [add_sub_cancel_left] at hinv₁
  obtain ⟨s₂, hrun₂, hinv₂, hcalm₂⟩ := fileclose_spec hinv₁ (hinv₁.one_le_ref (f := f₁) (by simp))
  rw [sub_self] at hinv₂
  exact ⟨s₁, s₂, hrun₁, hrun₂, hinv₂, hcalm₁.trans hcalm₂⟩

theorem pipeallocBad_spec (h : Inv s (Pi.single f₀ 1 + Pi.single f₁ 1)) :
    ∃ s', pipeallocBad (some f₀) (some f₁) s = .ok (none, s') ∧ Inv s' 0 ∧ Calm s s' := by
  obtain ⟨s₁, s', hrun₁, hrun', hinv', hcalm⟩ := fileclose_two h
  refine ⟨s', ?_, hinv', hcalm⟩
  rw [pipeallocBad, bind_of_ok hrun₁]
  dsimp only
  rw [bind_of_ok hrun']
  rfl

/-- The success path of `pipealloc`: the new page holds the pipe. -/
theorem newPipe_spec (h : Inv s held) {f₀ f₁ : FileId} (hne : f₀ ≠ f₁)
    (h₀ : (s.ftable f₀).type ≠ .pipe) (h₁ : (s.ftable f₁).type ≠ .pipe)
    (hr₀ : (s.ftable f₀).ref ≠ 0) (hr₁ : (s.ftable f₁).ref ≠ 0) {pi : ℕ}
    (hstep : Step s.phys k' (owners s) (pi ::ₘ owners s)) (hpi : pi ∉ owners s) :
    pipePages s.ftable ⊆ pipePages (openPipe s.ftable f₀ f₁ pi) ∧
    Inv (s.setFiles (openPipe s.ftable f₀ f₁ pi) (Function.update s.pipe pi ⟨true, true⟩) k') held ∧
    Calm s (s.setFiles (openPipe s.ftable f₀ f₁ pi) (Function.update s.pipe pi ⟨true, true⟩) k') := by
  have hnot : pi ∉ pipePages s.ftable := fun hin => hpi (mem_owners_of_pipe hin)
  obtain ⟨hfiles, hpages⟩ := h.files.openPipe hne h₀ h₁ hr₀ hr₁ hnot
  have howners : owners (s.setFiles (openPipe s.ftable f₀ f₁ pi)
      (Function.update s.pipe pi ⟨true, true⟩) k') = pi ::ₘ owners s := by
    have := owners_setFiles s (openPipe s.ftable f₀ f₁ pi) (Function.update s.pipe pi ⟨true, true⟩) k'
    rw [hpages, Finset.insert_val_of_notMem hnot, ← Multiset.singleton_add, ← add_assoc,
      add_comm (owners s)] at this
    rw [add_right_cancel this, Multiset.singleton_add]
  refine ⟨hpages ▸ Finset.subset_insert _ _, h.setFiles ?_ ?_ ?_ hfiles, h.calm_setFiles (fun q => hstep.same.mono
    (Multiset.subset_of_le (procRefs_le_owners s q))) hstep.oom_mono⟩
  · rw [howners]
    exact hstep.acct
  · rw [howners]
    exact NoNewSharing.cons hpi
  · intro pi' hpi'
    rw [howners]
    rw [hpages, Finset.mem_insert] at hpi'
    rcases hpi' with rfl | hpi'
    · rw [Multiset.count_cons_self, Multiset.count_eq_zero.mpr hpi]
    · have hne : pi' ≠ pi := fun hc => hnot (hc ▸ hpi')
      rw [Multiset.count_cons_of_ne hne]
      exact h.pipes pi' hpi'

theorem pipealloc_spec (h : Inv s 0) :
    ∃ r s', pipealloc s = .ok (r, s') ∧ Calm s s' ∧ (r = none → Inv s' 0) ∧
      ∀ f₀ f₁, r = some (f₀, f₁) → Inv s' (Pi.single f₀ 1 + Pi.single f₁ 1) ∧
        pipePages s.ftable ⊆ pipePages s'.ftable := by
  rcases filealloc_spec h with hrun₀ | ⟨f₀, s₀, hrun₀, hinv₀, hcalm₀, -, ht₀, hs₀⟩
  · exact ⟨none, s, by rw [pipealloc, bind_of_ok hrun₀]; rfl, Calm.refl s, fun _ => h, by simp⟩
  rw [zero_add] at hinv₀
  rw [pipealloc, bind_of_ok hrun₀]
  dsimp only
  rcases filealloc_spec hinv₀ with hrun₁ | ⟨f₁, s₁, hrun₁, hinv₁, hcalm₁, hr₁, ht₁, hs₁⟩
  · obtain ⟨s', hrun', hinv', hcalm'⟩ := fileclose_spec hinv₀ (hinv₀.one_le_ref (f := f₀) (by simp))
    rw [sub_self] at hinv'
    refine ⟨none, s', ?_, hcalm₀.trans hcalm', fun _ => hinv', by simp⟩
    rw [bind_of_ok hrun₁]
    dsimp only
    rw [pipeallocBad, bind_of_ok hrun']
    rfl
  rw [bind_of_ok hrun₁]
  dsimp only
  have hfile₀ : s₀.ftable f₀ = { s.ftable f₀ with ref := 1 } := by
    rw [hs₀]
    exact Function.update_self ..
  have hne : f₀ ≠ f₁ := by
    rintro rfl
    rw [hfile₀] at hr₁
    cases hr₁
  have hfile₀' : s₁.ftable f₀ = { s.ftable f₀ with ref := 1 } := by
    rw [← hfile₀, hs₁]
    exact Function.update_of_ne hne ..
  have hfile₁ : s₁.ftable f₁ = { s₀.ftable f₁ with ref := 1 } := by
    rw [hs₁]
    exact Function.update_self ..
  rcases kalloc_spec hinv₁.acct with ⟨hrun, -⟩ | ⟨pi, k', hrun, hstep, hpi, -, -, -⟩
  · have hstep : Step s₁.phys { s₁.phys with oom := true } (owners s₁) (owners s₁) :=
      ⟨hinv₁.acct, SameOn.refl _ _, fun _ => rfl⟩
    obtain ⟨s', hrun', hinv', hcalm'⟩ := pipeallocBad_spec (hinv₁.setPhys hstep.acct)
    refine ⟨none, s', ?_, ((hcalm₀.trans hcalm₁).trans (hinv₁.calm_setPhys hstep)).trans hcalm',
      fun _ => hinv', by simp⟩
    rw [bind_of_ok (vm_run hrun)]
    exact hrun'
  · obtain ⟨hsub, hinv, hcalm⟩ := newPipe_spec hinv₁ hne (by rw [hfile₀']; simp [ht₀])
      (by rw [hfile₁]; simp [ht₁]) (by rw [hfile₀']; simp) (by rw [hfile₁]; simp) hstep hpi
    refine ⟨some (f₀, f₁), _, ?_, (hcalm₀.trans hcalm₁).trans hcalm, by simp, ?_⟩
    · rw [bind_of_ok (vm_run hrun)]
      rfl
    · rintro _ _ ⟨⟩
      have hold : pipePages s₁.ftable = pipePages s.ftable := by
        rw [hs₁, State.setFiles, pipePages_setRef, hs₀, State.setFiles, pipePages_setRef]
      exact ⟨hinv, hold ▸ hsub⟩

end

end Xv6.Kernel
