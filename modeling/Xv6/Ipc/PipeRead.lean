import Xv6.Ipc.PipeFifo

/-! # What a read takes out of a pipe

The copying loop of `piperead` runs without letting go of `pi->lock`.  It takes a byte from the ring
before `copyout` stores it, so that a byte whose `copyout` fails is gone.
-/
namespace Xv6.Ipc
open Library Sched

/-- The bytes between `nread` and `nwrite`. -/
def Pipe.buffered (pi : Pipe) : List UInt8 :=
  (List.range (pi.nwrite - pi.nread).toNat).map fun k =>
    pi.data (Fin.ofNat PIPESIZE (pi.nread + BitVec.ofNat 32 k).toNat)

/-- The copying loop of `piperead(pi, addr, n)` when the first `valid` bytes at `addr` can be
written: what it returns, and the pipe. -/
def copyLoop (n : ℤ) (valid : ℕ) : (fuel : ℕ) → (i : ℤ) → Pipe → ℤ × Pipe
  | 0, i, pi => (i, pi)
  | fuel + 1, i, pi =>
    match readStep n i (.copyout (i < valid)) pi with
    | some (pi, .rCopy _ i) => copyLoop n valid fuel i pi
    | some (pi, .rDone i) => (i, pi)
    | _ => (i, pi)

/-- The loop of one call; `i` reaches `n` at the latest. -/
def pipereadCopy (n : ℤ) (valid : ℕ) (pi : Pipe) : ℤ × Pipe := copyLoop n valid (n.toNat + 1) 0 pi

/-- The call returns how far it has moved `nread`, and what it has delivered is what is no longer in
the pipe. -/
structure Exact (n : ℤ) (valid : ℕ) (pi : Pipe) : Prop where
  nread : (pipereadCopy n valid pi).2.nread = pi.nread + BitVec.ofInt 32 (pipereadCopy n valid pi).1
  delivered : (pipereadCopy n valid pi).2.delivered =
    pi.delivered ++ pi.buffered.take (pipereadCopy n valid pi).1.toNat
  buffered : (pipereadCopy n valid pi).2.buffered =
    pi.buffered.drop (pipereadCopy n valid pi).1.toNat

/-- Every byte that the call takes can be stored. -/
def Deliverable (n : ℤ) (valid : ℕ) (pi : Pipe) : Prop := min n.toNat pi.buffered.length ≤ valid

section
variable {pi : Pipe} {n : ℤ} {valid : ℕ}

theorem length_buffered (pi : Pipe) : pi.buffered.length = (pi.nwrite - pi.nread).toNat := by
  unfold Pipe.buffered
  rw [List.length_map, List.length_range]

theorem isEmpty_iff_buffered : pi.isEmpty = true ↔ pi.buffered = [] := by
  rw [← List.length_eq_zero_iff, length_buffered, Pipe.isEmpty, beq_iff_eq]
  constructor
  · intro h
    rw [h, BitVec.sub_self]
    rfl
  · intro h
    bv_omega

theorem buffered_take (h : pi.isEmpty = false) (copied : Bool) :
    pi.buffered = pi.data (Fin.ofNat PIPESIZE pi.nread.toNat) :: (pi.take copied).buffered := by
  have hpos : 0 < (pi.nwrite - pi.nread).toNat := by
    rw [← length_buffered, List.length_pos_iff, ne_eq, ← isEmpty_iff_buffered, h]
    exact Bool.false_ne_true
  obtain ⟨m, hm⟩ := Nat.exists_eq_succ_of_ne_zero (Nat.ne_of_gt hpos)
  have hsub : ((pi.take copied).nwrite - (pi.take copied).nread).toNat = m := by
    change (pi.nwrite - (pi.nread + 1)).toNat = m
    bv_omega
  unfold Pipe.buffered
  rw [hm, hsub, Nat.succ_eq_add_one, List.range_succ_eq_map, List.map_cons, List.map_map]
  congr 1
  · rw [BitVec.add_zero]
  · apply List.map_congr_left
    intro k _
    change pi.data _ = pi.data _
    congr 3
    change pi.nread + BitVec.ofNat 32 (k + 1) = pi.nread + 1 + BitVec.ofNat 32 k
    rw [Nat.add_comm k 1, BitVec.ofNat_add, BitVec.add_assoc]
    rfl

theorem copyLoop_spec (pi : Pipe) {fuel i : ℕ} (hfuel : n.toNat < i + fuel)
    (hvalid : min n.toNat (i + pi.buffered.length) ≤ valid) (hi : i ≤ n.toNat) :
    ∃ m pi', copyLoop n valid fuel i pi = (((i + m : ℕ) : ℤ), pi') ∧
      pi'.nread = pi.nread + BitVec.ofNat 32 m ∧
      pi'.delivered = pi.delivered ++ pi.buffered.take m ∧ pi'.buffered = pi.buffered.drop m := by
  induction fuel generalizing i pi with
  | zero => omega
  | succ fuel ih =>
    unfold copyLoop readStep
    by_cases hlt : (i : ℤ) < n
    · rw [if_pos hlt]
      cases hempty : pi.isEmpty with
      | true => exact ⟨0, pi, rfl, (BitVec.add_zero _).symm, by simp, rfl⟩
      | false =>
        have hcons := buffered_take hempty true
        have hlen : pi.buffered.length = (pi.take true).buffered.length + 1 := by
          rw [hcons, List.length_cons]
        have hok : decide ((i : ℤ) < valid) = true := by
          rw [decide_eq_true_iff]
          omega
        rw [hok]
        obtain ⟨m, pi', hrun, hread, hdel, hbuf⟩ :=
          ih (pi.take true) (i := i + 1) (by omega) (by omega) (by omega)
        refine ⟨m + 1, pi', ?_, ?_, ?_, ?_⟩
        · rw [Nat.add_comm m 1, ← Nat.add_assoc]
          exact hrun
        · rw [hread]
          change pi.nread + 1 + BitVec.ofNat 32 m = _
          rw [BitVec.add_assoc, Nat.add_comm m 1, BitVec.ofNat_add]
          rfl
        · rw [hdel, hcons, List.take_succ_cons]
          change pi.delivered ++ [_] ++ _ = _
          rw [List.append_assoc]
          rfl
        · rw [hbuf, hcons, List.drop_succ_cons]
    · rw [if_neg hlt]
      exact ⟨0, pi, rfl, (BitVec.add_zero _).symm, by simp, rfl⟩

theorem pipereadCopy_exact (h : Deliverable n valid pi) : Exact n valid pi := by
  have hfuel : n.toNat < 0 + (n.toNat + 1) := by omega
  have hmin : min n.toNat (0 + pi.buffered.length) ≤ valid := by
    rw [Nat.zero_add]
    exact h
  obtain ⟨m, pi', hrun, hread, hdel, hbuf⟩ := copyLoop_spec pi hfuel hmin (Nat.zero_le _)
  rw [Nat.zero_add] at hrun
  have heq : pipereadCopy n valid pi = ((m : ℤ), pi') := hrun
  refine ⟨?_, ?_, ?_⟩
  · rw [heq, hread, BitVec.ofInt_natCast]
  · rw [heq]
    exact hdel
  · rw [heq]
    exact hbuf

end

variable {p : ℕ}

def CopyoutsSucceed (_ : Machine p Pipe Chan Point) (e : Event p Input) : Prop :=
  ∀ q x, e = .proc q x → x ≠ .copyout false

theorem Fifo.buffered_eq {pi : Pipe} (h : Fifo pi) :
    pi.buffered = pi.accepted.drop pi.delivered.length := by
  apply List.ext_getElem
  · rw [length_buffered, h.sub_eq, List.length_drop]
  · intro i hi _
    rw [length_buffered, h.sub_eq] at hi
    have hslot : Fin.ofNat PIPESIZE (pi.nread + BitVec.ofNat 32 i).toNat =
        Fin.ofNat PIPESIZE (pi.delivered.length + i) := by
      apply Fin.ext
      rw [h.nread, ← BitVec.ofNat_add]
      exact RingBuffer.toNat_mod (by decide) _
    simp only [Pipe.buffered, List.getElem_map, List.getElem_range, hslot, List.getElem_drop]
    exact h.ring _ (Nat.le_add_right _ _) (by omega)

/-- Process 1 writes a byte, and process 0 reads it to an address that is not valid. -/
def readInvalid : List (Event 2 Input) :=
  List.flatten [resume 1, run 1 2 (.write 1), run 1 11 (.copyin (some 7)), resume 0,
    run 0 2 (.read 1), run 0 3 (.copyout false)]

end Xv6.Ipc
