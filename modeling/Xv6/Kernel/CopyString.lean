import Xv6.Kernel.Reach
import Xv6.Vm.StringSpec

/-! # `copyinstr` against `copyin`

Both read the string at an address in the same way on pages that are mapped for the user.
A page that `vmfault` would still have to provide ends `copyinstr` but not `copyin`.
-/
namespace Xv6.Kernel
open Library Library.Exec Vm

section
variable [KernelImage] {pt : PageTable} {k : Phys} {sz srcva max n : ℕ}

omit [KernelImage] in
theorem bytesAt_succ (pt : PageTable) (mem : ℕ → UInt8) (a n : ℕ) :
    bytesAt pt mem a (n + 1) = bytesAt pt mem a n ++ [byteAt pt mem (a + n)] := by
  rw [bytesAt_add]
  rfl

omit [KernelImage] in
theorem getElem?_bytesAt (pt : PageTable) (mem : ℕ → UInt8) (a : ℕ) {n i : ℕ} (hi : i < n) :
    (bytesAt pt mem a n)[i]? = some (byteAt pt mem (a + i)) := by
  simp [bytesAt, hi]

theorem copyin_text {m : ℕ} {bytes : List UInt8} {pt' : PageTable} {k' : Phys}
    (htext : Text pt k.mem srcva n) (hm : m < n)
    (hrun : copyin pt sz srcva (m + 1) k = .ok ((true, bytes, pt'), k')) :
    bytes[m]? ≠ some 0 := by
  have hread : copyin pt sz srcva (m + 1) k =
      .ok ((true, bytesAt pt k.mem srcva (m + 1), pt), k) :=
    copyinLoop_readable (m + 1) srcva (m + 1) le_rfl fun i hi => (htext i (by omega)).1
  cases hread.symm.trans hrun
  rw [getElem?_bytesAt _ _ _ (Nat.lt_succ_self m)]
  simpa using (htext m hm).2

end

end Xv6.Kernel
