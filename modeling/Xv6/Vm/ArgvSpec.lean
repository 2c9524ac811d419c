import Xv6.Vm.WriteSpec
import Xv6.Vm.Words

/-! # The arguments on a new stack

exec pushes the argument strings one below the other, each at a multiple of 16, and the array
of their addresses below them.  Everything has to fit in the one page of the stack.
-/
namespace Xv6.Vm
open Library Library.Exec

/-- The room that `n` bytes take when the stack pointer stays a multiple of 16. -/
def padded (n : ℕ) : ℕ := (n + 15) / 16 * 16

/-- The room that the strings take, each with its final zero. -/
def stringRoom : List (List UInt8) → ℕ
  | [] => 0
  | arg :: rest => padded (arg.length + 1) + stringRoom rest

/-- The room that the strings and the array of pointers take. -/
def argRoom (argv : List (List UInt8)) : ℕ := stringRoom argv + padded ((argv.length + 1) * 8)

/-- Where the strings lie when the first one ends at `top`. -/
def stringAddrs : (top : ℕ) → List (List UInt8) → List ℕ
  | _, [] => []
  | top, arg :: rest =>
    (top - padded (arg.length + 1)) :: stringAddrs (top - padded (arg.length + 1)) rest

/-- The strings `argv` are in memory, the first one at `top`. -/
def HasStrings (pt : PageTable) (mem : ℕ → UInt8) (top : ℕ) (argv : List (List UInt8)) : Prop :=
  List.Forall₂ (fun a arg => bytesAt pt mem a (arg.length + 1) = arg ++ [0]) (stringAddrs top argv)
    argv

/-- The arguments are on the stack that ends at `sz`, and `sp` points to the array. -/
structure HasArgs (pt : PageTable) (mem : ℕ → UInt8) (sz : ℕ) (argv : List (List UInt8))
    (sp : ℕ) : Prop where
  valid : (leaf pt (sz / PGSIZE - 1)).has PTE_V
  rights_eq : rights (leaf pt (sz / PGSIZE - 1)) = lazyRights
  room : argRoom argv ≤ PGSIZE
  sp_eq : sp = sz - argRoom argv
  strings : HasStrings pt mem sz argv
  pointers : bytesAt pt mem sp ((argv.length + 1) * 8) =
    (stringAddrs sz argv ++ [0]).flatMap uint64Bytes

/-! ## The layout -/

theorem le_padded (n : ℕ) : n ≤ padded n := by
  unfold padded
  omega

theorem padded_mod (n : ℕ) : padded n % 16 = 0 := Nat.mul_mod_left _ _

theorem stringRoom_mod (argv : List (List UInt8)) : stringRoom argv % 16 = 0 := by
  induction argv with
  | nil => rfl
  | cons arg rest ih =>
    have := padded_mod (arg.length + 1)
    rw [stringRoom]
    omega

theorem argRoom_mod (argv : List (List UInt8)) : argRoom argv % 16 = 0 := by
  have := stringRoom_mod argv
  have := padded_mod ((argv.length + 1) * 8)
  rw [argRoom]
  omega

@[simp] theorem length_stringAddrs (top : ℕ) (argv : List (List UInt8)) :
    (stringAddrs top argv).length = argv.length := by
  induction argv generalizing top with
  | nil => rfl
  | cons arg rest ih => rw [stringAddrs, List.length_cons, ih, List.length_cons]

def Apart (r r' : ℕ × ℕ) : Prop := r.1 + r.2 ≤ r'.1 ∨ r'.1 + r'.2 ≤ r.1

/-- The ranges of addresses that strings at `addrs` take. -/
def stringRanges (addrs : List ℕ) (argv : List (List UInt8)) : List (ℕ × ℕ) :=
  List.zipWith (fun a arg => (a, arg.length + 1)) addrs argv

theorem stringRanges_within (top : ℕ) {argv : List (List UInt8)} (h : stringRoom argv ≤ top)
    {r : ℕ × ℕ} (hr : r ∈ stringRanges (stringAddrs top argv) argv) :
    top - stringRoom argv ≤ r.1 ∧ r.1 + r.2 ≤ top := by
  induction argv generalizing top with
  | nil => cases hr
  | cons arg rest ih =>
    have hpad := le_padded (arg.length + 1)
    rw [stringRoom] at h ⊢
    rcases List.mem_cons.mp hr with rfl | hr
    · dsimp only
      omega
    · have := ih (top - padded (arg.length + 1)) (by omega) hr
      omega

theorem stringRanges_apart {top : ℕ} {argv : List (List UInt8)} (h : stringRoom argv ≤ top) :
    (stringRanges (stringAddrs top argv) argv).Pairwise Apart := by
  induction argv generalizing top with
  | nil => exact List.Pairwise.nil
  | cons arg rest ih =>
    rw [stringRoom] at h
    refine List.Pairwise.cons (fun r hr => Or.inr ?_) (ih (by omega))
    exact (stringRanges_within _ (by omega) hr).2

/-- The ranges of the array and of the strings lie apart from each other in the stack page. -/
theorem HasArgs.ranges {pt : PageTable} {mem : ℕ → UInt8} {sz sp : ℕ} {argv : List (List UInt8)}
    (h : HasArgs pt mem sz argv sp) (hsz : PGSIZE ≤ sz) :
    ((sp, (argv.length + 1) * 8) :: stringRanges (stringAddrs sz argv) argv).Pairwise Apart ∧
    ∀ r ∈ (sp, (argv.length + 1) * 8) :: stringRanges (stringAddrs sz argv) argv,
      sz - PGSIZE ≤ r.1 ∧ r.1 + r.2 ≤ sz := by
  have hroom := h.room
  have hsp := h.sp_eq
  have hpad := le_padded ((argv.length + 1) * 8)
  unfold argRoom at hroom hsp
  constructor
  · refine List.Pairwise.cons (fun r hr => Or.inl ?_) (stringRanges_apart (by omega))
    have := (stringRanges_within _ (by omega) hr).1
    dsimp only
    omega
  · intro r hr
    rcases List.mem_cons.mp hr with rfl | hr
    · dsimp only
      omega
    · have := stringRanges_within _ (by omega) hr
      omega

theorem stringAddrs_lt {top : ℕ} (argv : List (List UInt8)) (htop : top < 2 ^ 64) :
    ∀ a ∈ stringAddrs top argv, a < 2 ^ 64 := by
  induction argv generalizing top with
  | nil => simp [stringAddrs]
  | cons arg rest ih =>
    intro a ha
    rcases List.mem_cons.mp ha with rfl | ha
    · omega
    · exact ih (by omega) a ha

theorem HasStrings.congr {pt pt' : PageTable} {mem mem' : ℕ → UInt8} (base : ℕ) {top : ℕ}
    {argv : List (List UInt8)} (hfit : base + stringRoom argv ≤ top)
    (heq : ∀ a n, base ≤ a → a + n ≤ top → bytesAt pt' mem' a n = bytesAt pt mem a n)
    (h : HasStrings pt mem top argv) : HasStrings pt' mem' top argv := by
  induction argv generalizing top with
  | nil => exact List.Forall₂.nil
  | cons arg rest ih =>
    have hlen := le_padded (arg.length + 1)
    rw [stringRoom] at hfit
    cases h with
    | cons harg hrest =>
      refine List.Forall₂.cons ?_ (ih (by omega) (fun a n ha hn => heq a n ha (by omega)) hrest)
      rw [heq _ _ (by omega) (by omega)]
      exact harg

theorem HasArgs.congr {pt : PageTable} {mem mem' : ℕ → UInt8} {sz sp : ℕ}
    {argv : List (List UInt8)} (hsz : PGSIZE ≤ sz)
    (heq : ∀ a n, sz - PGSIZE ≤ a → a + n ≤ sz → bytesAt pt mem' a n = bytesAt pt mem a n)
    (h : HasArgs pt mem sz argv sp) : HasArgs pt mem' sz argv sp := by
  have hroom := h.room
  have hsp := h.sp_eq
  have hpad := le_padded ((argv.length + 1) * 8)
  unfold argRoom at hroom hsp
  refine ⟨h.valid, h.rights_eq, h.room, h.sp_eq, ?_, ?_⟩
  · exact h.strings.congr (sz - PGSIZE) (by omega) heq
  · rw [heq _ _ (by omega) (by omega), h.pointers]

/-! ## The stack pointer -/

theorem u64Sub_of_le {a b : ℕ} (h : b ≤ a) (ha : a < 2 ^ 64) : u64Sub a b = a - b := by
  simp only [u64Sub, u64]
  omega

/-- The stack pointer does not wrap around. -/
theorem pushSp_eq {sp n : ℕ} (h16 : sp % 16 = 0) (h : padded n ≤ sp) (hsp : sp < 2 ^ 64) :
    pushSp sp n = sp - padded n := by
  have hpad := le_padded n
  rw [pushSp, u64Sub_of_le (hpad.trans h) hsp]
  unfold padded at *
  omega

/-! ## Words -/

theorem length_flatMap_uint64Bytes (l : List ℕ) : (l.flatMap uint64Bytes).length = l.length * 8 := by
  induction l with
  | nil => rfl
  | cons n l ih =>
    rw [List.flatMap_cons, List.length_append, ih, length_uint64Bytes, List.length_cons]
    omega

/-- The bytes of word `i` of an array of words. -/
theorem flatMap_uint64Bytes_word (l : List ℕ) {i : ℕ} (hi : i < l.length) :
    ((l.flatMap uint64Bytes).drop (8 * i)).take 8 = uint64Bytes l[i] := by
  induction l generalizing i with
  | nil => simp at hi
  | cons n l ih =>
    rw [List.flatMap_cons]
    cases i with
    | zero =>
      rw [Nat.mul_zero, List.drop_zero, List.take_left' (length_uint64Bytes n)]
      rfl
    | succ i =>
      have hlen : 8 * (i + 1) = (uint64Bytes n).length + 8 * i := by
        rw [length_uint64Bytes]
        omega
      rw [hlen, List.drop_length_add_append, ih (Nat.lt_of_succ_lt_succ hi)]
      rfl

theorem bytesAt_slice (pt : PageTable) (mem : ℕ → UInt8) (a : ℕ) {i n m : ℕ} (h : i + n ≤ m) :
    ((bytesAt pt mem a m).drop i).take n = bytesAt pt mem (a + i) n := by
  obtain ⟨r, rfl⟩ := Nat.exists_eq_add_of_le h
  have hlen : (bytesAt pt mem a i).length = i := by simp [bytesAt]
  have hlen' : (bytesAt pt mem (a + i) n).length = n := by simp [bytesAt]
  rw [Nat.add_assoc, bytesAt_add, List.drop_left' hlen, bytesAt_add, List.take_left' hlen']

/-- Word `i` of the array is the address of string `i`, and the last word is 0. -/
theorem HasArgs.word {pt : PageTable} {mem : ℕ → UInt8} {sz sp i : ℕ} {argv : List (List UInt8)}
    (h : HasArgs pt mem sz argv sp) (hsz : sz < 2 ^ 64) (hi : i ≤ argv.length) :
    leNat (bytesAt pt mem (sp + 8 * i) 8) = (stringAddrs sz argv ++ [0]).getD i 0 := by
  have hlen : i < (stringAddrs sz argv ++ [0]).length := by simp; omega
  have hlt : (stringAddrs sz argv ++ [0])[i] < 2 ^ 64 := by
    rcases List.mem_append.mp (List.getElem_mem hlen) with hold | hzero
    · exact stringAddrs_lt argv hsz _ hold
    · rw [List.mem_singleton.mp hzero]
      decide
  rw [← bytesAt_slice pt mem sp (show 8 * i + 8 ≤ (argv.length + 1) * 8 by omega), h.pointers,
    flatMap_uint64Bytes_word _ hlen, leNat_uint64Bytes, Nat.mod_eq_of_lt hlt,
    List.getD_eq_getElem?_getD, List.getElem?_eq_getElem hlen, Option.getD_some]

variable [KernelImage] {G : Multiset ℕ} {pt pt₁ pt' : PageTable} {k k₁ k' : Phys} {S : ℕ → Prop}

/-! ## Bytes after a write -/

theorem Wrote.byteAt_eq {va : ℕ} {src : List UInt8} (h : Wrote G S va src pt k pt' k') {a : ℕ}
    (ha : a / PGSIZE < UPAGES) : byteAt pt' k'.mem a =
      if va ≤ a ∧ a < va + src.length then src.getD (a - va) 0 else byteAt pt k.mem a := by
  rw [byteAt, h.view_eq _ ha _ (Nat.mod_lt a (by decide)), patch, Nat.div_add_mod' a PGSIZE]
  rfl

theorem Wrote.bytesAt_apart {va n a : ℕ} {src : List UInt8} (h : Wrote G S va src pt k pt' k')
    (hpage : ∀ j < n, (a + j) / PGSIZE < UPAGES) (hapart : Apart (va, src.length) (a, n)) :
    bytesAt pt' k'.mem a n = bytesAt pt k.mem a n := by
  refine List.map_congr_left fun j hj => ?_
  have hj := List.mem_range.mp hj
  rw [h.byteAt_eq (hpage j hj), if_neg]
  simp only [Apart] at hapart
  omega

theorem Wrote.bytesAt_self {va : ℕ} {src : List UInt8} (h : Wrote G S va src pt k pt' k')
    (hpage : ∀ j < src.length, (va + j) / PGSIZE < UPAGES) :
    bytesAt pt' k'.mem va src.length = src := by
  refine List.ext_getElem (by simp [bytesAt]) fun j hj hj' => ?_
  simp only [bytesAt, List.getElem_map, List.getElem_range]
  rw [h.byteAt_eq (hpage j hj'), if_pos (by omega), Nat.add_sub_cancel_left,
    List.getD_eq_getElem?_getD, List.getElem?_eq_getElem hj', Option.getD_some]

end Xv6.Vm
