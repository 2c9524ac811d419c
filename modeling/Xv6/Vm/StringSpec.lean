import Xv6.Vm.FaultSpec

/-! # Strings in user memory

`copyinstr` and `copyin` read the same bytes as long as `walkaddr` finds every page.  Where
it does not, `copyin` asks `vmfault` for the page and `copyinstr` gives up.
-/
namespace Xv6.Vm
open Library Library.Exec

section
variable {pt : PageTable} {k : Phys} {va max n a len sz : ℕ}

/-- `walkaddr` finds the page of `a`. -/
def Readable (pt : PageTable) (a : ℕ) : Prop :=
  a < MAXVA ∧ (leaf pt (a / PGSIZE)).has PTE_V ∧ (leaf pt (a / PGSIZE)).has PTE_U

instance (pt : PageTable) (a : ℕ) : Decidable (Readable pt a) :=
  inferInstanceAs (Decidable (_ ∧ _ ∧ _))

/-- `walkaddr` does not find the page of `a`, and `vmfault` provides it if there is memory:
a page below `sz` that is not mapped yet, or one that is copy-on-write. -/
def Deferred (pt : PageTable) (sz a : ℕ) : Prop :=
  ¬ Readable pt a ∧ a < MAXVA ∧ pgrounddown a < sz ∧
    ((leaf pt (a / PGSIZE)).has PTE_V = false ∨ (leaf pt (a / PGSIZE)).has PTE_COW)

/-- The user can read `n` bytes at `va`, and none of them is null. -/
def Text (pt : PageTable) (mem : ℕ → UInt8) (va n : ℕ) : Prop :=
  ∀ i < n, Readable pt (va + i) ∧ byteAt pt mem (va + i) ≠ 0

theorem pgrounddown_lt_maxva : pgrounddown a < MAXVA ↔ a < MAXVA := by
  simp only [pgrounddown, PGSIZE, MAXVA]
  omega

theorem pgrounddown_div (a : ℕ) : pgrounddown a / PGSIZE = a / PGSIZE := page_div (a / PGSIZE)

theorem walkaddr_readable (pt : PageTable) (a : ℕ) (k : Phys) :
    walkaddr pt (pgrounddown a) k =
      .ok (if Readable pt a then some (pte2pa (leaf pt (a / PGSIZE))) else none, k) := by
  rw [walkaddr_run, pgrounddown_div]
  by_cases h : Readable pt a
  · rw [if_pos h, if_pos ⟨pgrounddown_lt_maxva.mpr h.1, h.2⟩]
  · rw [if_neg h, if_neg fun hc => h ⟨pgrounddown_lt_maxva.mp hc.1, hc.2⟩]

theorem readable_chunk {i : ℕ} (hi : i < chunk va len) :
    Readable pt (va + i) ↔ Readable pt va := by
  have hlt : va + i < MAXVA ↔ va < MAXVA := by
    simp only [chunk, pgrounddown, PGSIZE, MAXVA] at *
    omega
  rw [Readable, Readable, chunk_page hi, hlt]

theorem Text.tail (h : Text pt k.mem va n) {c : ℕ} (hc : c ≤ n) :
    Text pt k.mem (va + c) (n - c) := by
  intro i hi
  rw [Nat.add_assoc]
  exact h (c + i) (by omega)

theorem Text.takeWhile (h : Text pt k.mem va n) (rest : List UInt8) :
    (bytesAt pt k.mem va n ++ rest).takeWhile (· != 0) =
      bytesAt pt k.mem va n ++ rest.takeWhile (· != 0) := by
  apply List.takeWhile_append_of_pos
  intro b hb
  obtain ⟨i, hi, rfl⟩ := List.mem_map.mp hb
  simpa using (h i (List.mem_range.mp hi)).2

theorem length_bytesAt (pt : PageTable) (mem : ℕ → UInt8) (a n : ℕ) :
    (bytesAt pt mem a n).length = n := by simp [bytesAt]

theorem next_page (hva : va < MAXVA) (h : chunk va len < len) :
    u64 (pgrounddown va + PGSIZE) = va + chunk va len := by
  rw [chunk_next h, u64]
  simp only [chunk, PGSIZE, pgrounddown, MAXVA] at *
  omega

/-! ## copyinstr -/

/-- `copyinstr` stops at the first byte that is null or that it cannot read. -/
theorem copyinstrLoop_run (fuel va max n : ℕ) (hfuel : max ≤ fuel) (htext : Text pt k.mem va n)
    (hn : n ≤ max)
    (hstop : n < max → Readable pt (va + n) → byteAt pt k.mem (va + n) = 0) :
    copyinstrLoop fuel pt va max k =
      .ok (if n < max ∧ Readable pt (va + n) then (true, bytesAt pt k.mem va n ++ [0])
        else (false, bytesAt pt k.mem va n), k) := by
  induction fuel generalizing va max n with
  | zero =>
    obtain rfl : n = 0 := by omega
    rw [if_neg (by omega)]
    rfl
  | succ fuel ih =>
    rw [copyinstrLoop]
    by_cases hmax : max = 0
    · obtain rfl : n = 0 := by omega
      rw [if_pos hmax, if_neg (by omega)]
      rfl
    have hpos := chunk_pos va (Nat.pos_of_ne_zero hmax)
    have hle : chunk va max ≤ max := chunk_le
    rw [if_neg hmax]
    dsimp only
    rw [bind_of_ok (walkaddr_readable pt va k)]
    by_cases hr : Readable pt va
    · rw [if_pos hr]
      dsimp only
      rw [bind_of_ok (readMem_run _ _ k), readMem_chunk hr.2.1]
      by_cases hin : n < chunk va max
      · -- The null byte is on this page.
        have hr' := (readable_chunk hin).mpr hr
        have hz := hstop (by omega) hr'
        have hsplit : bytesAt pt k.mem va (chunk va max) =
            bytesAt pt k.mem va n ++ 0 :: bytesAt pt k.mem (va + n + 1) (chunk va max - n - 1) := by
          have hone : bytesAt pt k.mem (va + n) 1 = [0] := by
            simp [bytesAt, hz]
          have h1 := bytesAt_add pt k.mem va n (1 + (chunk va max - n - 1))
          rw [bytesAt_add pt k.mem (va + n), hone] at h1
          rwa [show n + (1 + (chunk va max - n - 1)) = chunk va max by omega] at h1
        have hstr : (bytesAt pt k.mem va (chunk va max)).takeWhile (· != 0) =
            bytesAt pt k.mem va n := by
          rw [hsplit, htext.takeWhile]
          simp
        rw [hstr, length_bytesAt, if_pos hin, if_pos ⟨by omega, hr'⟩]
        rfl
      · -- The whole page is part of the string.
        have hpage : Text pt k.mem va (chunk va max) := fun i hi => htext i (by omega)
        have hstr : (bytesAt pt k.mem va (chunk va max)).takeWhile (· != 0) =
            bytesAt pt k.mem va (chunk va max) := by
          have h := hpage.takeWhile []
          rwa [List.append_nil, List.takeWhile_nil, List.append_nil] at h
        rw [hstr, length_bytesAt, if_neg (lt_irrefl _)]
        by_cases hmore : chunk va max < max
        · have hva := next_page hr.1 hmore
          have heq : va + chunk va max + (n - chunk va max) = va + n := by omega
          have hrest := ih (va + chunk va max) (max - chunk va max) (n - chunk va max) (by omega)
            (htext.tail (by omega)) (by omega) (by rw [heq]; exact fun h => hstop (by omega))
          rw [hva, bind_of_ok hrest, heq, pure_run]
          have hadd := bytesAt_add pt k.mem va (chunk va max) (n - chunk va max)
          rw [show chunk va max + (n - chunk va max) = n by omega] at hadd
          have hiff : n - chunk va max < max - chunk va max ↔ n < max := by omega
          simp only [hiff, hadd]
          split <;> simp
        · have hzero : max - chunk va max = 0 := by omega
          have hn' : n = chunk va max := by omega
          have hrest := ih (u64 (pgrounddown va + PGSIZE)) 0 0 (by omega)
            (by intro i hi; omega) le_rfl (by omega)
          rw [hzero, bind_of_ok hrest, if_neg (by omega), if_neg (by omega), ← hn']
          simp [bytesAt, pure_run]
    · have hn0 : n = 0 := by
        by_contra hne
        have h0 := (htext 0 (by omega)).1
        exact hr h0
      subst hn0
      rw [if_neg hr, if_neg fun h => hr h.2]
      rfl

theorem text_end (pt : PageTable) (mem : ℕ → UInt8) (va max : ℕ) :
    ∃ n ≤ max, Text pt mem va n ∧
      (n < max → Readable pt (va + n) → byteAt pt mem (va + n) = 0) := by
  induction max with
  | zero => exact ⟨0, le_rfl, fun i hi => absurd hi (by omega), fun h => absurd h (by omega)⟩
  | succ max ih =>
    obtain ⟨n, hn, htext, hstop⟩ := ih
    by_cases hlt : n < max
    · exact ⟨n, by omega, htext, fun _ => hstop hlt⟩
    obtain rfl : n = max := by omega
    by_cases hnext : Readable pt (va + n) ∧ byteAt pt mem (va + n) ≠ 0
    · refine ⟨n + 1, le_rfl, fun i hi => ?_, fun h => absurd h (by omega)⟩
      by_cases hi' : i < n
      · exact htext i hi'
      · obtain rfl : i = n := by omega
        exact hnext
    · refine ⟨n, by omega, htext, fun _ hr => ?_⟩
      by_contra hb
      exact hnext ⟨hr, hb⟩

theorem copyinstr_run (pt : PageTable) (va max : ℕ) (k : Phys) : ∃ n ≤ max, Text pt k.mem va n ∧
    (n < max → Readable pt (va + n) → byteAt pt k.mem (va + n) = 0) ∧
    copyinstr pt va max k =
      .ok (if n < max ∧ Readable pt (va + n) then (true, bytesAt pt k.mem va n ++ [0])
        else (false, bytesAt pt k.mem va n), k) := by
  obtain ⟨n, hn, htext, hstop⟩ := text_end pt k.mem va max
  exact ⟨n, hn, htext, hstop, copyinstrLoop_run max va max n le_rfl htext hn hstop⟩

/-! ## copyin on the same bytes -/

variable [KernelImage]

theorem faultIn_readable (h : Readable pt a) :
    faultIn pt sz (pgrounddown a) k = .ok ((some (pte2pa (leaf pt (a / PGSIZE))), pt), k) := by
  rw [faultIn, bind_of_ok (walkaddr_readable pt a k), if_pos h]
  rfl

/-- Where `walkaddr` finds nothing and nothing is deferred, `vmfault` provides no page. -/
theorem faultIn_refused (hr : ¬ Readable pt a) (hd : ¬ Deferred pt sz a) :
    faultIn pt sz (pgrounddown a) k = .ok ((none, pt), k) ∨
      faultIn pt sz (pgrounddown a) k = .error .walk := by
  rw [faultIn, bind_of_ok (walkaddr_readable pt a k), if_neg hr]
  dsimp only
  rw [vmfault]
  by_cases hsz : sz ≤ pgrounddown a
  · rw [if_pos hsz]
    exact Or.inl rfl
  rw [if_neg hsz]
  dsimp only
  have hdown : pgrounddown (pgrounddown a) = a / PGSIZE * PGSIZE := by
    rw [pgrounddown, pgrounddown_div]
  by_cases hM : a < MAXVA
  · have hv : a / PGSIZE < 2 ^ 26 := by
      simp only [PGSIZE, MAXVA] at *
      omega
    have hkind : (leaf pt (a / PGSIZE)).has PTE_V = true ∧
        (leaf pt (a / PGSIZE)).has PTE_COW = false := by
      simpa [Deferred, hr, hM, not_le.mp hsz] using hd
    obtain ⟨hV, hC⟩ := hkind
    have hslot : (slot pt (a / PGSIZE * PGSIZE)).isSome :=
      slot_isSome_of_valid (by rw [page_div]; exact hV)
    left
    rw [hdown, bind_of_ok (ismapped_run hv k), hV]
    simp only [Bool.not_true, Bool.false_eq_true, if_false]
    rw [bind_of_ok (walk_find (page_lt_maxva hv) k)]
    dsimp only
    rw [bind_of_ok (readSlot_run hslot k), page_div, hC]
    simp [pure_run]
  · right
    have hge : MAXVA ≤ a / PGSIZE * PGSIZE := by
      simp only [PGSIZE, MAXVA] at *
      omega
    have hwalk : walk pt (a / PGSIZE * PGSIZE) false k = .error .walk := by
      rw [walk, if_pos hge]
      rfl
    rw [hdown]
    apply bind_of_error
    rw [ismapped]
    exact bind_of_error hwalk

/-- `copyin` of bytes whose pages `walkaddr` finds. -/
theorem copyinLoop_readable (fuel va len : ℕ) (hfuel : len ≤ fuel)
    (h : ∀ i < len, Readable pt (va + i)) :
    copyinLoop sz fuel pt va len k = .ok ((true, bytesAt pt k.mem va len, pt), k) := by
  induction fuel generalizing va len with
  | zero =>
    obtain rfl : len = 0 := by omega
    rfl
  | succ fuel ih =>
    rw [copyinLoop]
    by_cases hlen : len = 0
    · subst hlen
      rfl
    have hpos := chunk_pos va (Nat.pos_of_ne_zero hlen)
    have hle : chunk va len ≤ len := chunk_le
    have hr : Readable pt va := h 0 (by omega)
    rw [if_neg hlen]
    dsimp only
    rw [bind_of_ok (faultIn_readable hr)]
    dsimp only
    rw [bind_of_ok (readMem_run _ _ k), readMem_chunk hr.2.1]
    have hadd := bytesAt_add pt k.mem va (chunk va len) (len - chunk va len)
    rw [show chunk va len + (len - chunk va len) = len by omega] at hadd
    by_cases hmore : chunk va len < len
    · have hrest := ih (va + chunk va len) (len - chunk va len) (by omega)
        fun i hi => by rw [Nat.add_assoc]; exact h _ (by omega)
      rw [next_page hr.1 hmore, bind_of_ok hrest, hadd]
      rfl
    · have hzero : len - chunk va len = 0 := by omega
      have hrest := ih (u64 (pgrounddown va + PGSIZE)) 0 (by omega) (by omega)
      rw [hzero] at hadd
      rw [hzero, bind_of_ok hrest, hadd]
      rfl

/-- `copyin` fails at a byte whose page neither `walkaddr` nor `vmfault` provides. -/
theorem copyinLoop_refused (fuel va len j : ℕ) (hfuel : len ≤ fuel) (hj : j < len)
    (h : ∀ i < j, Readable pt (va + i)) (hr : ¬ Readable pt (va + j))
    (hd : ¬ Deferred pt sz (va + j)) (bytes : List UInt8) (pt' : PageTable) (k' : Phys) :
    copyinLoop sz fuel pt va len k ≠ .ok ((true, bytes, pt'), k') := by
  induction fuel generalizing va len j bytes with
  | zero => omega
  | succ fuel ih =>
    rw [copyinLoop, if_neg (by omega)]
    dsimp only
    have hpos := chunk_pos va (show 0 < len by omega)
    by_cases hr0 : Readable pt va
    · rw [bind_of_ok (faultIn_readable hr0)]
      dsimp only
      rw [bind_of_ok (readMem_run _ _ k)]
      have hge : chunk va len ≤ j := by
        by_contra hlt
        exact hr ((readable_chunk (not_le.mp hlt)).mpr hr0)
      have heq : va + chunk va len + (j - chunk va len) = va + j := by omega
      have hmore : chunk va len < len := by omega
      rw [next_page hr0.1 hmore]
      intro hrun
      obtain ⟨⟨ok, rest, pt₁⟩, k₁, hrest, hfin⟩ := bind_ok hrun
      obtain ⟨hres, rfl⟩ := pure_ok hfin
      obtain ⟨rfl, -, rfl⟩ : true = ok ∧ _ ∧ pt' = pt₁ := by simpa using hres
      exact ih (va + chunk va len) (len - chunk va len) (j - chunk va len) (by omega) (by omega)
        (fun i hi => by rw [Nat.add_assoc]; exact h _ (by omega)) (by rwa [heq])
        (by rwa [heq]) rest hrest
    · have hj0 : j = 0 := by
        by_contra hne
        exact hr0 (h 0 (by omega))
      subst hj0
      rcases faultIn_refused hr hd with hno | hno
      · rw [Nat.add_zero] at hno
        rw [bind_of_ok hno]
        intro hrun
        cases hrun
      · rw [Nat.add_zero] at hno
        rw [bind_of_error hno]
        intro hrun
        cases hrun

end

end Xv6.Vm
