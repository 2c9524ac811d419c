import Xv6.Library.Run
import Xv6.User.MallocSpec
import Xv6.Vm.Pte

/-! # Programs that use the heap

A program calls `malloc` and `free` and stores into its blocks.
-/
namespace Xv6.User
open Library Segment

variable {σ ι : Type}

namespace HeapInv

variable {base : ℕ} {h : Heap σ} {fs live live' : List Segment}

theorem perm_live (hi : HeapInv base h fs live) (hp : live.Perm live') :
    HeapInv base h fs live' := by
  refine ⟨hi.pos, hi.freep, hi.linked, hi.separated, ?_, ?_, hi.above, hi.bound⟩
  · intro t ht
    exact hi.size t ((List.Perm.append_left _ hp).mem_iff.mpr ht)
  · exact hi.tiles.perm (List.Perm.append_left _ hp)

theorem freep_ne_zero (hi : HeapInv base h fs live) : h.freep ≠ 0 := by
  obtain ⟨t, ht, hstart⟩ := List.mem_map.mp hi.freep
  have := hi.base_le ht
  have := hi.pos
  omega

/-- The list that the first call of `malloc` makes. -/
theorem unused (hpos : 0 < base) (hfreep : h.freep = 0) (hobt : h.obtained = []) :
    HeapInv base (h.init base) [] [] := by
  unfold Heap.init
  rw [if_pos hfreep]
  refine ⟨hpos, List.mem_cons_self, ?_, List.pairwise_singleton _ _, ?_, ?_, ?_, ?_⟩
  · refine Linked.cons_iff.mpr ⟨?_, List.isChain_singleton _⟩
    rintro y hy
    cases hy
    exact Function.update_self base base h.ptr
  · intro t ht
    obtain rfl := List.mem_singleton.mp ht
    change HEADER * Function.update h.size base 0 base = 0
    rw [Function.update_self, Nat.mul_zero]
  · change Tiles [] h.obtained
    rw [hobt]
    exact Tiles.nil
  · change ∀ r ∈ h.obtained, _
    rw [hobt]
    exact fun r hr => absurd hr List.not_mem_nil
  · change (h.obtained.map len).sum < _
    rw [hobt]
    decide

/-- A store into a block in use leaves the headers alone. -/
theorem store (hi : HeapInv base h fs live) {b : Segment} (hb : b ∈ live) {a : ℕ}
    (hlow : b.start < a) (hhigh : a < b.stop) (ptr size : ℕ) :
    HeapInv base ((h.setPtr a ptr).setSize a size) fs live := by
  obtain ⟨pre, post, rfl⟩ := List.append_of_mem hb
  have htiles : Tiles (b :: (fs ++ (pre ++ post))) h.obtained := by
    refine hi.tiles.perm ?_
    refine (List.Perm.append_left _ List.perm_middle).trans List.perm_middle
  have hne : ∀ t ∈ nodes base fs ++ (pre ++ b :: post), t.start ≠ a := by
    intro t ht
    have hcases : t = ⟨base, 0⟩ ∨ t = b ∨ t ∈ fs ++ (pre ++ post) := by
      simp only [nodes, List.mem_append, List.mem_cons] at ht ⊢
      tauto
    rcases hcases with rfl | rfl | ht
    · have := hi.base_lt (List.mem_append_right _ hb)
      dsimp only
      omega
    · exact hlow.ne
    · have hapart := htiles.apart_of_mem ht
      have := htiles.pos t (List.mem_cons_of_mem _ ht)
      unfold Apart stop at *
      omega
  refine ⟨hi.pos, hi.freep, hi.linked.congr ?_, hi.separated, ?_, hi.tiles, hi.above, hi.bound⟩
  · intro x hx
    obtain ⟨t, ht, rfl⟩ := List.mem_map.mp hx
    exact Function.update_of_ne (hne t (List.mem_append_left _ ht)) _ _
  · intro t ht
    change HEADER * Function.update h.size a size t.start = t.len
    rw [Function.update_of_ne (hne t ht)]
    exact hi.size t ht

end HeapInv

/-! ## Steps -/

/-- The heap with the blocks in use. -/
structure Program (σ : Type) where
  heap : Heap σ
  live : List Segment

namespace Program

inductive Event (ι : Type)
  /-- `malloc(nbytes)`, with what `sbrk` learns from outside if it is called. -/
  | malloc (nbytes : UInt32) (x : ι) (fuel : ℕ)
  | free (ap fuel : ℕ)
  /-- The program stores something where a header could be read. -/
  | store (a ptr size : ℕ)

/-- The loop of a call did not end. -/
inductive Stop
  | outOfFuel

def block (nbytes : UInt32) (r : ℕ) : Segment := ⟨r - HEADER, HEADER * Heap.nunits nbytes⟩

def step (base : ℕ) (sbrk : ι → ℤ → σ → Option ℕ × σ) :
    Event ι → Program σ → Except Stop (ℕ × Program σ)
  | .malloc nbytes x fuel, s =>
    match s.heap.malloc (sbrk x) base nbytes fuel with
    | none => .error .outOfFuel
    | some (r, h) => .ok (r, ⟨h, if r = 0 then s.live else block nbytes r :: s.live⟩)
  | .free ap fuel, s =>
    match s.heap.free ap fuel with
    | none => .error .outOfFuel
    | some h => .ok (0, ⟨h, s.live.eraseP fun b => b.start + HEADER = ap⟩)
  | .store a ptr size, s => .ok (0, { s with heap := (s.heap.setPtr a ptr).setSize a size })

def Behaves (s : Program σ) : Event ι → Prop
  | .malloc .. => True
  | .free ap _ => ∃ b ∈ s.live, b.start + HEADER = ap
  | .store a _ _ => ∃ b ∈ s.live, b.start < a ∧ a < b.stop

instance (s : Program σ) : (e : Event ι) → Decidable (s.Behaves e)
  | .malloc .. => .isTrue trivial
  | .free ap _ => inferInstanceAs (Decidable (∃ b ∈ s.live, b.start + HEADER = ap))
  | .store a _ _ => inferInstanceAs (Decidable (∃ b ∈ s.live, b.start < a ∧ a < b.stop))

/-- Before the first call of `malloc`. -/
def Unused (s : Program σ) : Prop := s.heap.freep = 0 ∧ s.heap.obtained = [] ∧ s.live = []

/-- The list is as `malloc` and `free` keep it. -/
def Kept (base : ℕ) (s : Program σ) (fs : List Segment) : Prop :=
  s.Unused ∧ fs = [] ∨ HeapInv base s.heap fs s.live

variable {base fuel : ℕ} {sbrk : ι → ℤ → σ → Option ℕ × σ} {s s' : Program σ} {fs : List Segment}
  {nbytes : UInt32} {x : ι}

theorem Kept.init (hpos : 0 < base) (hk : s.Kept base fs) :
    HeapInv base (s.heap.init base) fs s.live := by
  rcases hk with ⟨⟨hfreep, hobt, hlive⟩, rfl⟩ | hi
  · rw [hlive]
    exact HeapInv.unused hpos hfreep hobt
  · rwa [Heap.init, if_neg hi.freep_ne_zero]

theorem nunits_pos (nbytes : UInt32) : 0 < Heap.nunits nbytes := by
  have := nbytes.toNat_lt
  unfold Heap.nunits HEADER
  omega

theorem malloc_spec (sbrk : ι → ℤ → σ → Option ℕ × σ) (hpos : 0 < base) (hk : s.Kept base fs)
    (hsbrk : ∀ a env, sbrk x (Heap.sbrkArg (Heap.coreUnits (Heap.nunits nbytes))) s.heap.env =
      (some a, env) → Fresh base s.heap ⟨a, HEADER * Heap.coreUnits (Heap.nunits nbytes)⟩) :
    ∃ r s', (∀ fuel, 2 * fs.length + 3 ≤ fuel →
        step base sbrk (.malloc nbytes x fuel) s = .ok (r, s')) ∧
      (∃ fs', HeapInv base s'.heap fs' s'.live) ∧
      s'.live = (if r = 0 then s.live else block nbytes r :: s.live) ∧
      (s'.heap.env = s.heap.env ∧ s'.heap.obtained = s.heap.obtained ∨
        Asked (sbrk x) (Heap.nunits nbytes) s.heap s'.heap) := by
  have hi := hk.init hpos
  have hfresh : ∀ a env, sbrk x (Heap.sbrkArg (Heap.coreUnits (Heap.nunits nbytes)))
      (s.heap.init base).env = (some a, env) →
      Fresh base (s.heap.init base) ⟨a, HEADER * Heap.coreUnits (Heap.nunits nbytes)⟩ := by
    intro a env hrun
    rw [Heap.init_env] at hrun
    obtain ⟨habove, hapart, hbound⟩ := hsbrk a env hrun
    rw [← Heap.init_obtained base] at hapart hbound
    exact ⟨habove, hapart, hbound⟩
  obtain ⟨r, h', hrun, hend, henv⟩ :=
    hi.mallocLoop_spec (nunits_pos nbytes) (le_refl (2 * fs.length + 3)) hfresh
  refine ⟨r, ⟨h', if r = 0 then s.live else block nbytes r :: s.live⟩, ?_, ?_, rfl, ?_⟩
  · intro fuel hfuel
    obtain ⟨k, rfl⟩ := Nat.exists_eq_add_of_le hfuel
    have hmalloc : s.heap.malloc (sbrk x) base nbytes (2 * fs.length + 3 + k) = some (r, h') :=
      Heap.mallocLoop_mono hrun k
    simp only [step, hmalloc]
  · cases hend with
    | fail hi' => exact ⟨_, hi'⟩
    | @block _ fs' a hi' =>
      have hne : a + HEADER ≠ 0 := by
        unfold HEADER
        omega
      refine ⟨fs', ?_⟩
      dsimp only
      rw [if_neg hne]
      unfold block
      rwa [Nat.add_sub_cancel]
  · unfold Asked at henv
    simp only [Heap.init_env, Heap.init_obtained] at henv
    exact henv

def Event.more (k : ℕ) : Event ι → Event ι
  | .malloc nbytes x fuel => .malloc nbytes x (fuel + k)
  | .free ap fuel => .free ap (fuel + k)
  | .store a ptr size => .store a ptr size

theorem step_more {e : Event ι} {r : ℕ × Program σ} (hrun : step base sbrk e s = .ok r) (k : ℕ) :
    step base sbrk (e.more k) s = .ok r := by
  cases e with
  | malloc nbytes x fuel =>
    simp only [step, Event.more] at hrun ⊢
    cases hm : s.heap.malloc (sbrk x) base nbytes fuel with
    | none =>
      rw [hm] at hrun
      cases hrun
    | some res =>
      have : s.heap.malloc (sbrk x) base nbytes (fuel + k) = some res := Heap.mallocLoop_mono hm k
      rw [this]
      rwa [hm] at hrun
  | free ap fuel =>
    simp only [step, Event.more] at hrun ⊢
    cases hf : s.heap.free ap fuel with
    | none =>
      rw [hf] at hrun
      cases hrun
    | some h =>
      rw [Heap.free_mono hf k]
      rwa [hf] at hrun
  | store a ptr size => exact hrun

theorem not_unused_of_mem {b : Segment} (hb : b ∈ s.live) : ¬ (s.Unused ∧ fs = []) := by
  rintro ⟨⟨_, _, hlive⟩, _⟩
  rw [hlive] at hb
  cases hb

theorem free_spec (sbrk : ι → ℤ → σ → Option ℕ × σ) {b : Segment} (hk : s.Kept base fs) (hb : b ∈ s.live) (hfuel : fs.length < fuel) :
    ∃ s', step base sbrk (.free (b.start + HEADER) fuel) s = .ok (0, s') ∧
      (∃ fs', HeapInv base s'.heap fs' s'.live) ∧ s'.heap.env = s.heap.env ∧
      s'.heap.obtained = s.heap.obtained := by
  have hi : HeapInv base s.heap fs s.live := hk.resolve_left (not_unused_of_mem hb)
  have hself : decide (b.start + HEADER = b.start + HEADER) = true := decide_eq_true rfl
  obtain ⟨c, l₁, l₂, _, hc, hsplit, herase⟩ := List.exists_of_eraseP
    (p := fun c : Segment => decide (c.start + HEADER = b.start + HEADER)) hb hself
  have hstart : c.start = b.start := by simpa using hc
  have hi' : HeapInv base s.heap fs (c :: (l₁ ++ l₂)) := by
    refine hi.perm_live ?_
    rw [hsplit]
    exact List.perm_middle
  obtain ⟨h', fs', hfree, hinv, henv, hobt, _⟩ := hi'.free_spec hfuel
  rw [hstart] at hfree
  refine ⟨⟨h', l₁ ++ l₂⟩, ?_, ⟨fs', hinv⟩, henv, hobt⟩
  simp only [step]
  rw [hfree, herase]

/-- One step of a program that behaves, with fresh regions from `sbrk`. -/
theorem step_kept (hpos : 0 < base) (hk : s.Kept base fs) {e : Event ι} (hb : s.Behaves e)
    (hsbrk : ∀ nbytes x fuel a env, e = .malloc nbytes x fuel →
      sbrk x (Heap.sbrkArg (Heap.coreUnits (Heap.nunits nbytes))) s.heap.env = (some a, env) →
      Fresh base s.heap ⟨a, HEADER * Heap.coreUnits (Heap.nunits nbytes)⟩) {r : ℕ}
    (hrun : step base sbrk e s = .ok (r, s')) : ∃ fs', s'.Kept base fs' := by
  cases e with
  | malloc nbytes x fuel =>
    obtain ⟨r', s'', hspec, ⟨fs', hi'⟩, _⟩ :=
      malloc_spec sbrk hpos hk (fun a env => hsbrk nbytes x fuel a env rfl)
    have hmore := step_more hrun (2 * fs.length + 3)
    rw [Event.more, hspec _ (Nat.le_add_left _ _)] at hmore
    cases hmore
    exact ⟨fs', Or.inr hi'⟩
  | free ap fuel =>
    obtain ⟨b, hb, rfl⟩ := hb
    have hfuel : fs.length < fuel + (fs.length + 1) := by omega
    obtain ⟨s'', hspec, ⟨fs', hi'⟩, _⟩ := free_spec sbrk hk hb hfuel
    have hmore := step_more hrun (fs.length + 1)
    rw [Event.more, hspec] at hmore
    cases hmore
    exact ⟨fs', Or.inr hi'⟩
  | store a ptr size =>
    obtain ⟨b, hb, hlow, hhigh⟩ := hb
    have hi : HeapInv base s.heap fs s.live := hk.resolve_left (not_unused_of_mem hb)
    cases hrun
    exact ⟨fs, Or.inr (hi.store hb hlow hhigh ptr size)⟩

end Program

/-- The list that starts at `freep`. -/
def Heap.OnList (h : Heap σ) (a : ℕ) : Prop := ∃ k, h.ptr^[k] h.freep = a

theorem HeapInv.onList_iff {base : ℕ} {h : Heap σ} {fs live : List Segment}
    (hi : HeapInv base h fs live) {a : ℕ} : h.OnList a ↔ a ∈ (nodes base fs).map start :=
  hi.linked.exists_iterate_iff hi.freep

namespace Program

/-! ## Any sbrk -/

/-- `sbrk` returns what it is told. -/
def oracle (x : Option ℕ) (_ : ℤ) (_ : Unit) : Option ℕ × Unit := (x, ())

/-- The requests are not too large, and `sbrk` returns fresh regions. -/
def Requests (base : ℕ) (s : Program Unit) : Event (Option ℕ) → Prop
  | .malloc nbytes x _ => Heap.nunits nbytes * HEADER < 2 ^ 31 ∧
      ∀ a ∈ x, Fresh base s.heap ⟨a, HEADER * Heap.coreUnits (Heap.nunits nbytes)⟩
  | e => s.Behaves e

instance (base : ℕ) (s : Program Unit) : (e : Event (Option ℕ)) → Decidable (Requests base s e)
  | .malloc nbytes x _ => inferInstanceAs (Decidable (Heap.nunits nbytes * HEADER < 2 ^ 31 ∧
      ∀ a ∈ x, Fresh base s.heap ⟨a, HEADER * Heap.coreUnits (Heap.nunits nbytes)⟩))
  | .free ap fuel => inferInstanceAs (Decidable (s.Behaves (.free (ι := Option ℕ) ap fuel)))
  | .store a ptr size => inferInstanceAs (Decidable (s.Behaves (.store (ι := Option ℕ) a ptr size)))

theorem reach_kept {base : ℕ} (hpos : 0 < base) {s : Program Unit}
    (hreach : Reach (step base oracle) (Requests base) Unused s) : ∃ fs, s.Kept base fs := by
  refine Reach.invariant (I := fun s => ∃ fs, s.Kept base fs) ?_ ?_ hreach
  · intro s hs
    exact ⟨[], Or.inl ⟨hs, rfl⟩⟩
  · rintro s e r s' ⟨fs, hk⟩ hreq hrun
    have hb : s.Behaves e := by
      cases e with
      | malloc nbytes x fuel => trivial
      | free ap fuel => exact hreq
      | store a ptr size => exact hreq
    refine step_kept hpos hk hb ?_ hrun
    rintro nbytes x fuel a env rfl hs
    exact hreq.2 a (congrArg Prod.fst hs)

/-- In every run the list from `freep` is a ring through `base` in the order of the addresses.  Its
blocks do not touch each other and do not overlap the blocks in use, and together they have the units
that `morecore` has got.  All calls come back. -/
theorem free_list_sorted {base : ℕ} (hpos : 0 < base) {s : Program Unit}
    (hreach : Reach (step base oracle) (Requests base) Unused s) :
    ∃ fs : List Segment,
      (s.heap.freep ≠ 0 → Linked s.heap.ptr (base :: fs.map start) ∧
        ∀ a, s.heap.OnList a ↔ a ∈ base :: fs.map start) ∧
      (base :: fs.map start).Pairwise (· < ·) ∧
      (∀ t ∈ fs ++ s.live, t.len = HEADER * s.heap.size t.start) ∧
      fs.Pairwise (fun t u => t.stop < u.start) ∧ (fs ++ s.live).Pairwise Apart ∧
      HEADER * ((fs.map fun t => s.heap.size t.start).sum +
        (s.live.map fun t => s.heap.size t.start).sum) = (s.heap.obtained.map len).sum ∧
      (∀ nbytes x, Requests base s (.malloc nbytes x 0) → ∀ fuel, 2 * fs.length + 3 ≤ fuel →
        ∃ r s', step base oracle (.malloc nbytes x fuel) s = .ok (r, s')) ∧
      ∀ b ∈ s.live, ∀ fuel, fs.length < fuel →
        ∃ s', step base oracle (.free (b.start + HEADER) fuel) s = .ok (0, s') := by
  obtain ⟨fs, hk⟩ := reach_kept hpos hreach
  have hi := hk.init hpos
  have hsize : ∀ t ∈ fs ++ s.live, HEADER * s.heap.size t.start = t.len := by
    rcases hk with ⟨⟨_, _, hlive⟩, rfl⟩ | hi
    · rw [hlive]
      exact fun t ht => absurd ht List.not_mem_nil
    · exact fun t ht => hi.size t (List.mem_cons_of_mem _ ht)
  have hsum : ∀ l : List Segment, (∀ t ∈ l, HEADER * s.heap.size t.start = t.len) →
      HEADER * (l.map fun t => s.heap.size t.start).sum = (l.map len).sum := by
    intro l hl
    rw [← List.sum_map_mul_left]
    exact congrArg List.sum (List.map_congr_left hl)
  refine ⟨fs, ?_, ?_, fun t ht => (hsize t ht).symm, hi.separated.of_cons, hi.tiles.apart, ?_, ?_, ?_⟩
  · intro hfreep
    rcases hk with ⟨hunused, _⟩ | hi
    · exact absurd hunused.1 hfreep
    · exact ⟨hi.linked, fun a => hi.onList_iff⟩
  · have : ((nodes base fs).map start).Pairwise (· < ·) := by
      refine List.pairwise_map.mpr (hi.separated.imp ?_)
      intro t u htu
      unfold stop at htu
      omega
    exact this
  · have htotal := hi.tiles.total
    rw [Heap.init_obtained, List.map_append, List.sum_append] at htotal
    rw [Nat.mul_add, hsum fs fun t ht => hsize t (List.mem_append_left _ ht),
      hsum s.live fun t ht => hsize t (List.mem_append_right _ ht)]
    exact htotal
  · intro nbytes x hreq fuel hfuel
    have hfresh : ∀ a env, oracle x (Heap.sbrkArg (Heap.coreUnits (Heap.nunits nbytes)))
        s.heap.env = (some a, env) →
        Fresh base s.heap ⟨a, HEADER * Heap.coreUnits (Heap.nunits nbytes)⟩ := by
      intro a env hs
      exact hreq.2 a (congrArg Prod.fst hs)
    obtain ⟨r, s', hspec, _⟩ := malloc_spec oracle hpos hk hfresh
    exact ⟨r, s', hspec fuel hfuel⟩
  · intro b hb fuel hfuel
    obtain ⟨s', hspec, _⟩ := free_spec oracle hk hb hfuel
    exact ⟨s', hspec⟩

def fresh (env : σ) : Program σ := ⟨⟨fun _ => 0, fun _ => 0, 0, env, []⟩, []⟩

/-- 100 bytes of a new region, which are freed again. -/
def mallocAndFree : List (Event (Option ℕ)) :=
  [.malloc 100 (some 8192) 5, .free (8192 + HEADER * 4088 + HEADER) 5]

theorem mallocAndFree_sorted :
    ∃ fs : List Segment,
      Linked (drive (step 4096 oracle) mallocAndFree (fresh ())).heap.ptr (4096 :: fs.map start) ∧
      fs.Pairwise (fun t u => t.stop < u.start) := by
  have hguard : Allowed (step 4096 oracle) (Requests 4096) mallocAndFree (fresh ()) := by
    decide +kernel
  have hreach : Reach (step 4096 oracle) (Requests 4096) Unused
      (drive (step 4096 oracle) mallocAndFree (fresh ())) :=
    Reach.drive_allowed ⟨rfl, rfl, rfl⟩ hguard
  obtain ⟨fs, hring, _, _, hsep, _⟩ := free_list_sorted (by decide) hreach
  exact ⟨fs, (hring (by decide +kernel)).1, hsep⟩

/-! ## The sbrk of the kernel -/

def uvmalloc (ok : Bool) (oldsz newsz : ℕ) : ℕ :=
  if newsz < oldsz then oldsz else if ok then newsz else 0

def uvmdealloc (oldsz newsz : ℕ) : ℕ := if oldsz ≤ newsz then oldsz else newsz

def growproc (ok : Bool) (n : ℤ) (sz : ℕ) : Option ℕ :=
  let newsz := ((sz + n) % 2 ^ 64).toNat
  if 0 < n then
    if uvmalloc ok sz newsz = 0 then none else some (uvmalloc ok sz newsz)
  else if n < 0 then some (uvmdealloc sz newsz)
  else some sz

/-- `sbrk` on the size of the process. -/
def sysSbrk (ok : Bool) (n : ℤ) (sz : ℕ) : Option ℕ × ℕ :=
  match growproc ok n sz with
  | none => (none, sz)
  | some sz' => (some sz, sz')

/-- The pages above the first size fit into the memory of the machine. -/
def Backed (sz₀ sz : ℕ) : Prop := Vm.pgroundup sz ≤ Vm.pgroundup sz₀ + (Vm.PHYSTOP - Vm.KERNBASE)

/-- The size of a request in bytes is an `int`, and the kernel grows a process only as far as there is
memory. -/
def Sensible (sz₀ : ℕ) (s : Program ℕ) : Event Bool → Prop
  | .malloc nbytes ok _ => Heap.nunits nbytes * HEADER < 2 ^ 31 ∧
      (ok = true → Backed sz₀ (s.heap.env + HEADER * Heap.coreUnits (Heap.nunits nbytes)))
  | e => s.Behaves e

/-- The regions lie in what the process has grown by. -/
structure Grown (sz₀ : ℕ) (h : Heap ℕ) : Prop where
  le : sz₀ ≤ h.env
  backed : h.env ≤ sz₀ + Vm.PGSIZE + (Vm.PHYSTOP - Vm.KERNBASE)
  within : ∀ r ∈ h.obtained, sz₀ ≤ r.start ∧ r.stop ≤ h.env
  total : sz₀ + (h.obtained.map len).sum ≤ h.env

theorem sbrkArg_eq {nu : ℕ} (h : nu * HEADER < 2 ^ 31) : Heap.sbrkArg nu = nu * HEADER := by
  unfold Heap.sbrkArg
  rw [Int.bmod_eq_of_le] <;> push_cast <;> omega

theorem coreUnits_lt {nu : ℕ} (h : nu * HEADER < 2 ^ 31) : Heap.coreUnits nu * HEADER < 2 ^ 31 := by
  unfold Heap.coreUnits MINUNITS HEADER at *
  split <;> omega

theorem sysSbrk_pos {ok : Bool} {n sz : ℕ} (hn : 0 < n) (hlt : sz + n < 2 ^ 64) :
    sysSbrk ok n sz = if ok then (some sz, sz + n) else (none, sz) := by
  have hnew : (((sz : ℤ) + n) % 2 ^ 64).toNat = sz + n := by omega
  have huvm : uvmalloc ok sz (sz + n) = if ok then sz + n else 0 :=
    if_neg (Nat.not_lt.mpr (Nat.le_add_right sz n))
  have hgrow : growproc ok n sz = if ok then some (sz + n) else none := by
    unfold growproc
    dsimp only
    rw [if_pos (Int.natCast_pos.mpr hn), hnew, huvm]
    cases ok with
    | true => exact if_neg (Nat.ne_of_gt (Nat.add_pos_right sz hn))
    | false => rfl
  unfold sysSbrk
  rw [hgrow]
  cases ok <;> rfl

theorem Backed.le {sz₀ sz : ℕ} (h : Backed sz₀ sz) (hsz₀ : sz₀ ≤ Vm.TRAPFRAME)
    (hsz : sz < 2 ^ 63) : sz ≤ sz₀ + Vm.PGSIZE + (Vm.PHYSTOP - Vm.KERNBASE) := by
  unfold Backed Vm.pgroundup Vm.u64 Vm.PHYSTOP Vm.KERNBASE Vm.PGSIZE at *
  unfold Vm.TRAPFRAME Vm.TRAMPOLINE Vm.MAXVA Vm.PGSIZE at hsz₀
  omega

section
variable {base sz₀ n : ℕ} {ok : Bool} {h h' : Heap ℕ}

theorem Grown.sbrk_eq (hg : Grown sz₀ h) (hsz₀ : sz₀ ≤ Vm.TRAPFRAME) (hn : n * HEADER < 2 ^ 31) :
    sysSbrk ok (Heap.sbrkArg (Heap.coreUnits n)) h.env =
      if ok then (some h.env, h.env + HEADER * Heap.coreUnits n) else (none, h.env) := by
  have hlt := coreUnits_lt hn
  have hpos := HeapInv.coreUnits_pos n
  have hbacked := hg.backed
  rw [sbrkArg_eq hlt, Nat.mul_comm HEADER]
  refine sysSbrk_pos (Nat.mul_pos hpos (by decide)) ?_
  unfold Vm.TRAPFRAME Vm.TRAMPOLINE Vm.MAXVA Vm.PGSIZE at hsz₀
  unfold Vm.PHYSTOP Vm.KERNBASE Vm.PGSIZE at hbacked
  omega

theorem Grown.fresh (hg : Grown sz₀ h) (hbase : base + HEADER ≤ sz₀) (hn : n * HEADER < 2 ^ 31) :
    Fresh base h ⟨h.env, HEADER * Heap.coreUnits n⟩ := by
  have hlt := coreUnits_lt hn
  have hle := hg.le
  have hbacked := hg.backed
  have htotal := hg.total
  refine ⟨hbase.trans hle, fun t ht => Or.inr (hg.within t ht).2, ?_⟩
  dsimp only
  unfold Vm.PHYSTOP Vm.KERNBASE Vm.PGSIZE at hbacked
  unfold HEADER at *
  omega

theorem Grown.asked (hg : Grown sz₀ h) (hsz₀ : sz₀ ≤ Vm.TRAPFRAME) (hn : n * HEADER < 2 ^ 31)
    (hok : ok = true → Backed sz₀ (h.env + HEADER * Heap.coreUnits n))
    (hasked : Asked (sysSbrk ok) n h h') : Grown sz₀ h' ∧ h.env ≤ h'.env := by
  obtain ⟨got, env, hrun, henv, hobt⟩ := hasked
  rw [hg.sbrk_eq hsz₀ hn] at hrun
  have hlt := coreUnits_lt hn
  have hle := hg.le
  cases ok with
  | false =>
    cases hrun
    refine ⟨⟨henv ▸ hle, henv ▸ hg.backed, ?_, ?_⟩, henv.ge⟩
    · rw [hobt, henv]
      exact hg.within
    · rw [hobt, henv]
      exact hg.total
  | true =>
    cases hrun
    have hbound : h.env + HEADER * Heap.coreUnits n ≤
        sz₀ + Vm.PGSIZE + (Vm.PHYSTOP - Vm.KERNBASE) := by
      refine (hok rfl).le hsz₀ ?_
      have hbacked := hg.backed
      unfold Vm.TRAPFRAME Vm.TRAMPOLINE Vm.MAXVA Vm.PGSIZE at hsz₀
      unfold Vm.PHYSTOP Vm.KERNBASE Vm.PGSIZE at hbacked
      rw [Nat.mul_comm HEADER]
      omega
    refine ⟨⟨by omega, henv ▸ hbound, ?_, ?_⟩, by omega⟩
    · rw [hobt, henv]
      intro r hr
      rcases List.mem_cons.mp hr with rfl | hr
      · exact ⟨hle, le_rfl⟩
      · have := hg.within r hr
        omega
    · rw [hobt, henv]
      have := hg.total
      change sz₀ + (HEADER * Heap.coreUnits n + (h.obtained.map len).sum) ≤ _
      omega

end

/-- The program before its first call, with a heap above `base`. -/
def Loaded (sz₀ : ℕ) (s : Program ℕ) : Prop := s.Unused ∧ s.heap.env = sz₀

section
variable {base sz₀ : ℕ} {s s' : Program ℕ} {fs : List Segment} {nbytes : UInt32} {ok : Bool}

/-- A call of `malloc` that is not too large. -/
theorem malloc_grown (hpos : 0 < base) (hbase : base + HEADER ≤ sz₀) (hsz₀ : sz₀ ≤ Vm.TRAPFRAME)
    (hk : s.Kept base fs) (hg : Grown sz₀ s.heap) (hs : Sensible sz₀ s (.malloc nbytes ok 0)) :
    ∃ r s', (∀ fuel, 2 * fs.length + 3 ≤ fuel →
        step base sysSbrk (.malloc nbytes ok fuel) s = .ok (r, s')) ∧
      (∃ fs', HeapInv base s'.heap fs' s'.live) ∧ Grown sz₀ s'.heap ∧ s.heap.env ≤ s'.heap.env ∧
      s'.live = (if r = 0 then s.live else block nbytes r :: s.live) := by
  have hfresh : ∀ a env, sysSbrk ok (Heap.sbrkArg (Heap.coreUnits (Heap.nunits nbytes)))
      s.heap.env = (some a, env) →
      Fresh base s.heap ⟨a, HEADER * Heap.coreUnits (Heap.nunits nbytes)⟩ := by
    intro a env hrun
    rw [hg.sbrk_eq hsz₀ hs.1] at hrun
    cases ok with
    | false => cases hrun
    | true =>
      cases hrun
      exact hg.fresh hbase hs.1
  obtain ⟨r, s', hrun, hi', hlive, henv⟩ := malloc_spec sysSbrk hpos hk hfresh
  refine ⟨r, s', hrun, hi', ?_⟩
  rcases henv with ⟨henv, hobt⟩ | hasked
  · refine ⟨⟨henv ▸ hg.le, henv ▸ hg.backed, ?_, ?_⟩, henv.ge, hlive⟩
    · rw [hobt, henv]
      exact hg.within
    · rw [hobt, henv]
      exact hg.total
  · obtain ⟨hg', hle⟩ := hg.asked hsz₀ hs.1 hs.2 hasked
    exact ⟨hg', hle, hlive⟩

theorem reach_grown (hpos : 0 < base) (hbase : base + HEADER ≤ sz₀) (hsz₀ : sz₀ ≤ Vm.TRAPFRAME)
    (hreach : Reach (step base sysSbrk) (Sensible sz₀) (Loaded sz₀) s) :
    (∃ fs, s.Kept base fs) ∧ Grown sz₀ s.heap := by
  refine Reach.invariant (I := fun s => (∃ fs, s.Kept base fs) ∧ Grown sz₀ s.heap) ?_ ?_ hreach
  · rintro s ⟨hunused, rfl⟩
    refine ⟨⟨[], Or.inl ⟨hunused, rfl⟩⟩, le_rfl, by omega, ?_, ?_⟩
    · rw [hunused.2.1]
      exact fun r hr => absurd hr List.not_mem_nil
    · rw [hunused.2.1]
      exact le_rfl
  · rintro s e r s' ⟨⟨fs, hk⟩, hg⟩ hsens hrun
    cases e with
    | malloc nbytes ok fuel =>
      have hcall : Sensible sz₀ s (.malloc nbytes ok 0) := hsens
      obtain ⟨r', s'', hspec, ⟨fs', hi'⟩, hg', _⟩ := malloc_grown hpos hbase hsz₀ hk hg hcall
      have hmore := step_more hrun (2 * fs.length + 3)
      rw [Event.more, hspec _ (Nat.le_add_left _ _)] at hmore
      cases hmore
      exact ⟨⟨fs', Or.inr hi'⟩, hg'⟩
    | free ap fuel =>
      have hbehaves : s.Behaves (.free ap fuel : Event Bool) := hsens
      refine ⟨step_kept hpos hk hbehaves (by rintro _ _ _ _ _ ⟨⟩) hrun, ?_⟩
      obtain ⟨b, hb, rfl⟩ := hsens
      have hfuel : fs.length < fuel + (fs.length + 1) := by omega
      obtain ⟨s'', hspec, _, henv, hobt⟩ := free_spec sysSbrk hk hb hfuel
      have hmore := step_more hrun (fs.length + 1)
      rw [Event.more, hspec] at hmore
      cases hmore
      refine ⟨henv ▸ hg.le, henv ▸ hg.backed, ?_, ?_⟩
      · rw [hobt, henv]
        exact hg.within
      · rw [hobt, henv]
        exact hg.total
    | store a ptr size =>
      have hbehaves : s.Behaves (.store a ptr size : Event Bool) := hsens
      refine ⟨step_kept hpos hk hbehaves (by rintro _ _ _ _ _ ⟨⟩) hrun, ?_⟩
      cases hrun
      exact ⟨hg.le, hg.backed, hg.within, hg.total⟩

theorem header_le (nbytes : UInt32) : nbytes.toNat + HEADER ≤ HEADER * Heap.nunits nbytes := by
  have := nbytes.toNat_lt
  unfold Heap.nunits HEADER
  omega

/-- Requests whose size in bytes is an `int` are safe: the call comes back, does not shrink the
process, and returns 0 or an address of that many bytes that the heap has grown by, which no other
block in use and no header on the list overlaps. -/
theorem malloc_safe (hpos : 0 < base) (hbase : base + HEADER ≤ sz₀) (hsz₀ : sz₀ ≤ Vm.TRAPFRAME)
    (hreach : Reach (step base sysSbrk) (Sensible sz₀) (Loaded sz₀) s)
    (hs : Sensible sz₀ s (.malloc nbytes ok 0)) :
    ∃ r s' k, (∀ fuel, k ≤ fuel → step base sysSbrk (.malloc nbytes ok fuel) s = .ok (r, s')) ∧
      s.heap.env ≤ s'.heap.env ∧
      (r = 0 ∨ sz₀ ≤ r ∧ r + nbytes.toNat ≤ s'.heap.env ∧
        (∀ b ∈ s.live, Apart ⟨r, nbytes.toNat⟩ b) ∧
        ∀ a, s'.heap.OnList a → Apart ⟨r, nbytes.toNat⟩ ⟨a, HEADER⟩) := by
  obtain ⟨⟨fs, hk⟩, hg⟩ := reach_grown hpos hbase hsz₀ hreach
  obtain ⟨r, s', hrun, ⟨fs', hi'⟩, hg', hle, hlive⟩ := malloc_grown hpos hbase hsz₀ hk hg hs
  refine ⟨r, s', _, hrun, hle, ?_⟩
  by_cases hr : r = 0
  · exact Or.inl hr
  rw [if_neg hr] at hlive
  rw [hlive] at hi'
  have hmem : block nbytes r ∈ fs' ++ block nbytes r :: s.live :=
    List.mem_append_right _ List.mem_cons_self
  have hstart : sz₀ ≤ r - HEADER :=
    hi'.tiles.start_ge (fun t ht => (hg'.within t ht).1) hmem
  have hstop : r - HEADER + HEADER * Heap.nunits nbytes ≤ s'.heap.env :=
    hi'.tiles.stop_le (fun t ht => (hg'.within t ht).2) hmem
  have hbytes := header_le nbytes
  have hH : HEADER = 16 := rfl
  refine Or.inr ⟨by omega, by omega, ?_, ?_⟩
  · intro b hb
    have hapart : Apart (block nbytes r) b :=
      List.rel_of_pairwise_cons (List.pairwise_append.mp hi'.tiles.apart).2.1 hb
    unfold Apart stop block at *
    dsimp only at *
    omega
  · intro a ha
    obtain ⟨t, ht, rfl⟩ := List.mem_map.mp (hi'.onList_iff.mp ha)
    rcases List.mem_cons.mp ht with rfl | ht
    · refine Or.inr ?_
      unfold stop
      dsimp only
      omega
    · have hapart := (List.pairwise_append.mp hi'.tiles.apart).2.2 t ht _ List.mem_cons_self
      have hpos := hi'.tiles.pos t (List.mem_append_left _ ht)
      have hsize := hi'.size t (List.mem_append_left _ (List.mem_cons_of_mem _ ht))
      have hlen : HEADER ≤ t.len := by
        rw [hH] at hsize ⊢
        omega
      unfold Apart stop block at *
      dsimp only at *
      omega

/-- A program of 16 KiB calls `malloc(100)`. -/
theorem malloc_safe_hundred :
    ∃ r s' k, (∀ fuel, k ≤ fuel → step 4096 sysSbrk (.malloc 100 true fuel) (fresh 16384) =
        .ok (r, s')) ∧ 16384 ≤ s'.heap.env ∧
      (r = 0 ∨ 16384 ≤ r ∧ r + 100 ≤ s'.heap.env) := by
  have hreach : Reach (step 4096 sysSbrk) (Sensible 16384) (Loaded 16384) (fresh 16384) :=
    ⟨_, [], ⟨⟨rfl, rfl, rfl⟩, rfl⟩, .nil _⟩
  have hs : Sensible 16384 (fresh 16384) (.malloc 100 true 0) := by
    refine ⟨by decide, fun _ => ?_⟩
    unfold Backed
    decide
  obtain ⟨r, s', k, hrun, hle, hr⟩ :=
    malloc_safe (by decide) (by decide) (by decide) hreach hs
  exact ⟨r, s', k, hrun, hle, hr.imp id fun h => ⟨h.1, h.2.1⟩⟩

/-- In a program of 16 KiB, `malloc(0xffffffff)` makes `sbrk` grow the heap by 16 bytes and returns
the end of the heap; `malloc(0xffffeff0)` makes it take away a page. -/
theorem malloc_int_overflow :
    ((step 4096 sysSbrk (.malloc 0xffffffff true 5) (fresh 16384)).toOption.map fun r =>
      (r.1, r.2.heap.env)) = some (16400, 16400) ∧
    ((step 4096 sysSbrk (.malloc 0xffffeff0 true 5) (fresh 16384)).toOption.map fun r =>
      r.2.heap.env) = some 12288 := by
  decide +kernel

end

end Program

end Xv6.User
