import Xv6.Ipc.Pipe

/-! # Pipes are FIFO byte streams

The counters of a pipe stand for the number of bytes stored and delivered, and
the ring holds the bytes between them.  Every store and every read keeps this,
however the sections of writers and readers interleave.
-/
namespace Xv6.Ipc
open Library Sched

/-- The ring holds what was accepted and not yet delivered. -/
structure Fifo (pi : Pipe) : Prop where
  nwrite : pi.nwrite = BitVec.ofNat 32 pi.accepted.length
  nread : pi.nread = BitVec.ofNat 32 pi.delivered.length
  le : pi.delivered.length ≤ pi.accepted.length
  room : pi.accepted.length ≤ pi.delivered.length + PIPESIZE
  ring : RingBuffer.Holds pi.data pi.accepted pi.delivered.length
  taken : pi.delivered = pi.accepted.take pi.delivered.length

namespace Fifo

theorem alloc (page : Fin PIPESIZE → UInt8) : Fifo (.alloc page) where
  nwrite := rfl
  nread := rfl
  le := le_rfl
  room := Nat.zero_le _
  ring j _ hj := absurd hj (Nat.not_lt_zero j)
  taken := rfl

variable {pi : Pipe} (h : Fifo pi)
include h

theorem lt_turn : pi.accepted.length - pi.delivered.length < 2 ^ 32 := by
  have hroom := h.room
  have hsize : PIPESIZE < 2 ^ 32 := by decide
  omega

theorem sub_eq : (pi.nwrite - pi.nread).toNat = pi.accepted.length - pi.delivered.length := by
  rw [h.nwrite, h.nread]
  exact RingBuffer.sub_toNat h.le h.lt_turn

theorem isFull_iff : pi.isFull = true ↔
    pi.accepted.length = pi.delivered.length + PIPESIZE := by
  rw [Pipe.isFull, beq_iff_eq, h.nwrite, h.nread]
  exact RingBuffer.eq_add_iff h.le h.lt_turn (by decide)

theorem isEmpty_iff : pi.isEmpty = true ↔ pi.accepted.length = pi.delivered.length := by
  rw [Pipe.isEmpty, beq_iff_eq, h.nwrite, h.nread, eq_comm]
  simpa using RingBuffer.eq_add_iff (c := 0) h.le h.lt_turn (by decide)

theorem put (hfull : pi.isFull = false) (ch : UInt8) : Fifo (pi.put ch) := by
  have hlt : pi.accepted.length < pi.delivered.length + PIPESIZE := by
    have hne : ¬ pi.accepted.length = pi.delivered.length + PIPESIZE := by
      rw [← h.isFull_iff, hfull]
      simp
    have hroom := h.room
    omega
  have hslot : Fin.ofNat PIPESIZE pi.nwrite.toNat = Fin.ofNat PIPESIZE pi.accepted.length := by
    apply Fin.ext
    rw [h.nwrite]
    exact RingBuffer.toNat_mod (by decide) _
  exact
    { nwrite := by
        simp only [Pipe.put, List.length_append, List.length_singleton, h.nwrite]
        exact (BitVec.ofNat_add _ 1).symm
      nread := h.nread
      le := by
        have := h.le
        simp only [Pipe.put, List.length_append, List.length_singleton]
        omega
      room := by
        simp only [Pipe.put, List.length_append, List.length_singleton]
        omega
      ring := by
        simp only [Pipe.put, hslot]
        exact h.ring.push hlt ch
      taken := by
        simp only [Pipe.put]
        rw [List.take_append_of_le_length h.le]
        exact h.taken }

theorem take (hempty : pi.isEmpty = false) : Fifo (pi.take true) := by
  have hlt : pi.delivered.length < pi.accepted.length := by
    have hne : ¬ pi.accepted.length = pi.delivered.length := by
      rw [← h.isEmpty_iff, hempty]
      simp
    have hle := h.le
    omega
  have hslot : Fin.ofNat PIPESIZE pi.nread.toNat = Fin.ofNat PIPESIZE pi.delivered.length := by
    apply Fin.ext
    rw [h.nread]
    exact RingBuffer.toNat_mod (by decide) _
  have hbyte := h.ring pi.delivered.length le_rfl hlt
  exact
    { nwrite := h.nwrite
      nread := by
        simp only [Pipe.take, ite_true, List.length_append, List.length_singleton, h.nread]
        exact (BitVec.ofNat_add _ 1).symm
      le := by
        simp only [Pipe.take, ite_true, List.length_append, List.length_singleton]
        omega
      room := by
        have := h.room
        simp only [Pipe.take, ite_true, List.length_append, List.length_singleton]
        omega
      ring := by
        simp only [Pipe.take, ite_true, List.length_append, List.length_singleton]
        exact h.ring.pop
      taken := by
        simp only [Pipe.take, ite_true, List.length_append, List.length_singleton, hslot, hbyte]
        rw [List.take_add_one, ← h.taken, List.getElem?_eq_getElem hlt]
        rfl }

theorem shut (writable : Bool) : Fifo (pi.shut writable) := by
  cases writable <;> exact ⟨h.nwrite, h.nread, h.le, h.room, h.ring, h.taken⟩

end Fifo

variable {p : ℕ}

/-- Every user address is valid: no `copyin` and no `copyout` fails. -/
def ValidAddresses (_ : Machine p Pipe Chan Point) (e : Event p Input) : Prop :=
  ∀ q x, e = .proc q x → x ≠ .copyin none ∧ x ≠ .copyout false

/-- Every step of the code under `pi->lock` keeps the invariant. -/
theorem Fifo.prog_step {q : Fin p} {k k' : Point} {f : Input → Pipe → Option (Pipe × Point)}
    {x : Input} {pi pi' : Pipe} (ha : prog q k = .step f)
    (hx : x ≠ .copyout false) (hf : f x pi = some (pi', k')) (h : Fifo pi) : Fifo pi' := by
  cases k with
  | idle =>
    cases ha
    obtain ⟨k, -, hk⟩ := Option.map_eq_some_iff.1 hf
    cases hk
    exact h
  | wLoop n i stored =>
    cases ha
    cases hf
    exact h
  | wStore n i stored =>
    cases ha
    simp only [writeStep] at hf
    split at hf
    · cases hf
      exact h
    · split at hf
      · cases hf
        exact h
      · cases hf
        exact h.put (Bool.eq_false_iff.2 ‹_›) _
      · cases hf
  | rLoop n =>
    cases ha
    cases hf
    exact h
  | rCopy n i =>
    cases ha
    simp only [readStep] at hf
    split at hf
    · split at hf
      · cases hf
        exact h
      · split at hf
        · cases hf
          exact h.take (Bool.eq_false_iff.2 ‹_›)
        · exact absurd rfl hx
        · cases hf
    · cases hf
      exact h
  | cShut writable =>
    cases ha
    cases hf
    exact h.shut writable
  | _ => cases ha

/-- The bytes delivered are the bytes accepted, in order, less those still in the ring. -/
theorem pipe_fifo {s : Machine p Pipe Chan Point} (h : Reach (step prog) ValidAddresses Initial s) :
    (s.data.nwrite - s.data.nread).toNat ≤ PIPESIZE ∧
    ∃ buffered, s.data.accepted = s.data.delivered ++ buffered ∧
      buffered.length = (s.data.nwrite - s.data.nread).toNat ∧
      ∀ i, ∀ hi : i < buffered.length,
        s.data.data (Fin.ofNat PIPESIZE (s.data.nread + BitVec.ofNat 32 i).toNat) = buffered[i] := by
  have hfifo : Fifo s.data := by
    refine data_reach (fun x => x ≠ .copyin none ∧ x ≠ .copyout false) ?_ ?_ ?_ h
    · intro s q x hg
      exact hg q x rfl
    · rintro _ ⟨page, rfl⟩
      exact Fifo.alloc page
    · intro q k f x pi pi' k' ha hx hf hpi
      exact Fifo.prog_step ha hx.2 hf hpi
  have hroom := hfifo.room
  refine ⟨?_, s.data.accepted.drop s.data.delivered.length, ?_, ?_, ?_⟩
  · rw [hfifo.sub_eq]
    omega
  · nth_rewrite 1 [← List.take_append_drop s.data.delivered.length s.data.accepted]
    rw [← hfifo.taken]
  · rw [hfifo.sub_eq, List.length_drop]
  · intro i hi
    rw [List.length_drop] at hi
    have hslot : Fin.ofNat PIPESIZE (s.data.nread + BitVec.ofNat 32 i).toNat =
        Fin.ofNat PIPESIZE (s.data.delivered.length + i) := by
      apply Fin.ext
      rw [hfifo.nread, ← BitVec.ofNat_add]
      exact RingBuffer.toNat_mod (by decide) _
    rw [hslot, List.getElem_drop]
    exact hfifo.ring _ (Nat.le_add_right _ _) (by omega)

/-- Process 1 writes two bytes and process 0 reads one of them. -/
def writeTwoReadOne : List (Event 2 Input) :=
  List.flatten [resume 1, run 1 2 (.write 2), run 1 4 (.copyin (some 7)), run 1 10 (.copyin (some 8)),
    resume 0, run 0 2 (.read 1), run 0 9 (.copyout true)]

def twoProcesses : Machine 2 Pipe Chan Point := .start (.alloc fun _ => 0) fun _ => .idle

theorem writeTwoReadOne_fifo :
    (drive (step prog) writeTwoReadOne twoProcesses).data.accepted = [7, 8] ∧
    (drive (step prog) writeTwoReadOne twoProcesses).data.delivered = [7] ∧
    ((drive (step prog) writeTwoReadOne twoProcesses).data.nwrite -
      (drive (step prog) writeTwoReadOne twoProcesses).data.nread).toNat ≤ PIPESIZE := by
  have hreach : Reach (step prog) ValidAddresses Initial
      (drive (step prog) writeTwoReadOne twoProcesses) := by
    refine Reach.drive ⟨fun _ => 0, rfl⟩ ?_
    rintro _ e he q x rfl
    simp [writeTwoReadOne, resume, run] at he
    grind
  have hrun : (drive (step prog) writeTwoReadOne twoProcesses).data.accepted = [7, 8] ∧
      (drive (step prog) writeTwoReadOne twoProcesses).data.delivered = [7] := by decide +kernel
  exact ⟨hrun.1, hrun.2, (pipe_fifo hreach).1⟩

end Xv6.Ipc
