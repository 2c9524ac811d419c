import Xv6.Disk.Virtio

/-! # Disk requests complete exactly once

A request passes from the available ring to the device, to the used ring and to the
interrupt handler; at any time it is in one place only, and its three descriptors are
in no other request.
-/
namespace Xv6.Disk.Virtio
open Library Library.RingBuffer

variable {P B : Type*}

def Chain.Mem (c : Chain) (i : DescId) : Prop := i = c.i0 ∨ i = c.i1 ∨ i = c.i2

/-- The heads that the handler has not seen come back. -/
def flight (s : State P B) : List DescId :=
  s.submitted.drop s.consumed ++ s.pending ++ s.ready ++ s.completed.drop s.handled

/-- The descriptors of the requests. -/
structure Chains (s : State P B) : Prop where
  distinct : ∀ p b c, s.point p = .wait b c → c.i0 ≠ c.i1 ∧ c.i0 ≠ c.i2 ∧ c.i1 ≠ c.i2
  disjoint : ∀ p q b b' c c' i, s.point p = .wait b c → s.point q = .wait b' c' → c.Mem i →
    c'.Mem i → p = q
  free : ∀ i, s.free i = false ↔ ∃ p b c, s.point p = .wait b c ∧ c.Mem i
  desc : ∀ p b c, s.point p = .wait b c →
    s.desc c.i0 = ⟨true, c.i1⟩ ∧ s.desc c.i1 = ⟨true, c.i2⟩ ∧ s.desc c.i2 = ⟨false, 0⟩

/-- The rings hold what has not been taken out, and the indices count. -/
structure Rings (s : State P B) : Prop where
  consumed_le : s.consumed ≤ s.submitted.length
  handled_le : s.handled ≤ s.completed.length
  availIdx : s.availIdx = BitVec.ofNat 16 s.submitted.length
  seen : s.seen = BitVec.ofNat 16 s.consumed
  usedRingIdx : s.usedRingIdx = BitVec.ofNat 16 s.completed.length
  usedIdx : s.usedIdx = BitVec.ofNat 16 s.handled
  avail : Holds s.availRing s.submitted s.consumed
  used : Holds s.usedRing s.completed s.handled

/-- Which requests are under way, and for which buffers. -/
structure Flight (s : State P B) : Prop where
  locked : ∀ p b, s.point p = .alloc b ∨ (∃ c, s.point p = .wait b c) → s.locked b = some p
  info : ∀ p b c, s.point p = .wait b c → (s.info c.i0).b = some b
  nodup : (flight s).Nodup
  mem : ∀ h, h ∈ flight s ↔ ∃ p b c, s.point p = .wait b c ∧ c.i0 = h ∧ s.disk b = true
  status : ∀ h, h ∈ s.ready ∨ h ∈ s.completed.drop s.handled → (s.info h).status = 0
  clears : ∀ p b c, s.point p = .wait b c → s.clears p = if s.disk b then 0 else 1

structure Inv (s : State P B) : Prop where
  chains : Chains s
  rings : Rings s
  flight : Flight s

/-! ## Descriptors -/

section Descriptors
variable {s s' : State P B} {i : DescId}

theorem allocDesc_cases (s : State P B) :
    s.allocDesc = none ∨
    ∃ i, s.free i = true ∧ s.allocDesc = some (i, { s with free := Function.update s.free i false })
    := by
  unfold State.allocDesc
  cases hf : (List.finRange NUM).find? fun i => s.free i with
  | none => exact Or.inl rfl
  | some i => exact Or.inr ⟨i, List.find?_some hf, rfl⟩

theorem freeDesc_ok (h : s.free i = false) :
    s.freeDesc i = .ok { s with
      desc := Function.update s.desc i ⟨false, 0⟩
      free := Function.update s.free i true } := by
  rw [State.freeDesc, dif_pos i.isLt, if_neg (by simp [h])]

def State.take (s : State P B) (c : Chain) : State P B :=
  { s with
    free := Function.update (Function.update (Function.update s.free c.i0 false) c.i1 false)
      c.i2 false }

/-- Either three free descriptors are taken, or all are as before and only free ones
have been wiped. -/
theorem alloc3Desc_cases (s : State P B) :
    (∃ d, (∀ i, s.free i = false → d i = s.desc i) ∧
      s.alloc3Desc = .ok (none, { s with desc := d })) ∨
    ∃ c : Chain, c.i0 ≠ c.i1 ∧ c.i0 ≠ c.i2 ∧ c.i1 ≠ c.i2 ∧ (∀ i, c.Mem i → s.free i = true) ∧
      s.alloc3Desc = .ok (some c, s.take c) := by
  unfold State.alloc3Desc
  rcases allocDesc_cases s with h0 | ⟨i0, hf0, h0⟩ <;> rw [h0]
  · exact Or.inl ⟨s.desc, fun _ _ => rfl, rfl⟩
  dsimp only
  rcases allocDesc_cases { s with free := Function.update s.free i0 false } with
    h1 | ⟨i1, hf1, h1⟩ <;> rw [h1]
  · refine Or.inl ⟨Function.update s.desc i0 ⟨false, 0⟩, fun i hi => ?_, ?_⟩
    · have hne : i ≠ i0 := fun h => by simp [h, hf0] at hi
      simp [hne]
    · rw [freeDesc_ok (by simp)]
      simp [bind, Except.bind, pure, Except.pure, hf0]
  have h01 : i0 ≠ i1 := fun h => by simp [h] at hf1
  have hf1' : s.free i1 = true := by simpa [h01.symm] using hf1
  dsimp only
  rcases allocDesc_cases { s with
    free := Function.update (Function.update s.free i0 false) i1 false } with
    h2 | ⟨i2, hf2, h2⟩ <;> rw [h2]
  · refine Or.inl ⟨Function.update (Function.update s.desc i0 ⟨false, 0⟩) i1 ⟨false, 0⟩,
      fun i hi => ?_, ?_⟩
    · have hne0 : i ≠ i0 := fun h => by simp [h, hf0] at hi
      have hne1 : i ≠ i1 := fun h => by simp [h, hf1'] at hi
      simp [hne0, hne1]
    · dsimp only
      rw [freeDesc_ok (by simp [h01])]
      dsimp only [bind, Except.bind]
      rw [freeDesc_ok (by simp [h01.symm])]
      simp only [pure, Except.pure]
      congr 3
      funext j
      by_cases hj1 : j = i1
      · simp [hj1, hf1']
      · by_cases hj0 : j = i0
        · simp [hj0, hf0, h01]
        · simp [hj0, hj1]
  · have h02 : i0 ≠ i2 := fun h => by simp [← h, h01] at hf2
    have h12 : i1 ≠ i2 := fun h => by simp [← h] at hf2
    have hf2' : s.free i2 = true := by simpa [h02.symm, h12.symm] using hf2
    refine Or.inr ⟨⟨i0, i1, i2⟩, h01, h02, h12, ?_, rfl⟩
    rintro i (rfl | rfl | rfl)
    exacts [hf0, hf1', hf2']

def State.give (s : State P B) (c : Chain) : State P B :=
  { s with
    desc := Function.update (Function.update (Function.update s.desc c.i0 ⟨false, 0⟩)
      c.i1 ⟨false, 0⟩) c.i2 ⟨false, 0⟩
    free := Function.update (Function.update (Function.update s.free c.i0 true) c.i1 true)
      c.i2 true }

theorem freeChain_ok {c : Chain} (hne : c.i0 ≠ c.i1 ∧ c.i0 ≠ c.i2 ∧ c.i1 ≠ c.i2)
    (hfree : ∀ i, c.Mem i → s.free i = false)
    (hdesc : s.desc c.i0 = ⟨true, c.i1⟩ ∧ s.desc c.i1 = ⟨true, c.i2⟩ ∧ s.desc c.i2 = ⟨false, 0⟩) :
    s.freeChain NUM c.i0 = .ok (s.give c) := by
  obtain ⟨h01, h02, h12⟩ := hne
  obtain ⟨hd0, hd1, hd2⟩ := hdesc
  have hlt (i : DescId) : i.val < NUM := i.isLt
  change s.freeChain (5 + 1 + 1 + 1) c.i0 = _
  rw [State.freeChain, dif_pos (hlt c.i0)]
  rw [freeDesc_ok (hfree _ (Or.inl rfl))]
  simp only [Fin.eta, hd0, bind, Except.bind, if_true]
  rw [State.freeChain, dif_pos (hlt c.i1)]
  rw [freeDesc_ok (by simpa [h01.symm] using hfree _ (Or.inr (Or.inl rfl)))]
  simp only [Fin.eta, Function.update_of_ne h01.symm, hd1, bind, Except.bind, if_true]
  rw [State.freeChain, dif_pos (hlt c.i2)]
  rw [freeDesc_ok (by simpa [h02.symm, h12.symm] using hfree _ (Or.inr (Or.inr rfl)))]
  simp only [Fin.eta, Function.update_of_ne h02.symm, Function.update_of_ne h12.symm, hd2, bind,
    Except.bind, Bool.false_eq_true, if_false]
  rfl

end Descriptors

/-! ## Who waits -/

section Waiting
variable {point : P → Point B} {p q : P} {b b' : B} {c c' : Chain} {x : Point B}

theorem update_wait [DecidableEq P] (hp : ∀ b c, point p ≠ .wait b c) :
    Function.update point p (.wait b c) q = .wait b' c' ↔
      (q = p ∧ b = b' ∧ c = c') ∨ point q = .wait b' c' := by
  by_cases hq : q = p
  · subst hq
    simp [hp]
  · simp [hq]

theorem update_other [DecidableEq P] (hx : ∀ b c, x ≠ .wait b c) :
    Function.update point p x q = .wait b' c' ↔ q ≠ p ∧ point q = .wait b' c' := by
  by_cases hq : q = p
  · subst hq
    simp [hx]
  · simp [hq]

end Waiting

section Ownership
variable {s : State P B} {p q : P} {b b' : B} {c c' : Chain}

theorem Flight.buffer_ne (h : Flight s) (hq : s.point q = .wait b' c') (hl : s.locked b = some p)
    (hne : q ≠ p) : b' ≠ b := by
  rintro rfl
  have := h.locked q b' (Or.inr ⟨c', hq⟩)
  rw [hl] at this
  exact hne (Option.some.inj this).symm

theorem Chains.not_free (h : Chains s) (hp : s.point p = .wait b c) {i : DescId} (hi : c.Mem i) :
    s.free i = false := (h.free i).2 ⟨p, b, c, hp, hi⟩

theorem Chains.head_inj (h : Chains s) (hp : s.point p = .wait b c) (hq : s.point q = .wait b' c')
    (hi : c.i0 = c'.i0) : p = q :=
  h.disjoint p q b b' c c' c.i0 hp hq (Or.inl rfl) (Or.inl hi)

theorem Flight.room (h : Flight s) {l : List DescId} {i : DescId} (hl : l.Sublist (flight s))
    (hi : i ∉ l) : l.length < NUM := by
  have hnd : (i :: l).Nodup := List.nodup_cons.2 ⟨hi, h.nodup.sublist hl⟩
  have hle := hnd.length_le_card
  rw [Fintype.card_fin, List.length_cons] at hle
  omega

end Ownership

/-! ## The rings -/

theorem slot_ofNat (n : ℕ) : slot (BitVec.ofNat 16 n) = Fin.ofNat NUM n :=
  Fin.ext (toNat_mod (by decide : NUM ∣ 2 ^ 16) n)

theorem ofNat_succ (n : ℕ) : BitVec.ofNat 16 n + 1 = BitVec.ofNat 16 (n + 1) :=
  (BitVec.ofNat_add n 1).symm

theorem next_entry {ring : DescId → DescId} {stream : List DescId} {lo : ℕ} {hi idx : BitVec 16}
    (hle : lo ≤ stream.length) (hhi : hi = BitVec.ofNat 16 stream.length)
    (hidx : idx = BitVec.ofNat 16 lo) (hholds : Holds ring stream lo) (hne : idx ≠ hi) :
    ∃ hlt : lo < stream.length, ring (slot idx) = stream[lo] := by
  have hlt : lo < stream.length := by
    rcases hle.lt_or_eq with h | h
    · exact h
    · exact absurd (by rw [hidx, hhi, h]) hne
  refine ⟨hlt, ?_⟩
  rw [hidx, slot_ofNat]
  exact hholds lo le_rfl hlt

section Steps
variable {s s' : State P B} {p : P} {b : B} {c : Chain}

theorem Flight.drop_submitted (s : State P B) : (s.submitted.drop s.consumed).Sublist (flight s) :=
  ((List.sublist_append_left _ _).trans (List.sublist_append_left _ _)).trans
    (List.sublist_append_left _ _)

theorem Flight.drop_completed (s : State P B) : (s.completed.drop s.handled).Sublist (flight s) :=
  List.sublist_append_right _ _

/-! ## A request -/

variable [DecidableEq P] [DecidableEq B]

omit [DecidableEq P] in
theorem Inv.lock (h : Inv s) (hb : s.locked b = none) :
    Inv { s with locked := Function.update s.locked b (some p) } where
  chains := ⟨h.chains.distinct, h.chains.disjoint, h.chains.free, h.chains.desc⟩
  rings := { h.rings with }
  flight :=
    { h.flight with
      locked := by
        intro q b' hq
        have hold := h.flight.locked q b' hq
        have hne : b' ≠ b := fun heq => by simp [← heq, hold] at hb
        simpa [hne] using hold }

omit [DecidableEq B] in
theorem Inv.postpone (h : Inv s) (hp : ∀ b c, s.point p ≠ .wait b c) (hl : s.locked b = some p)
    {d : DescId → Desc} (hd : ∀ i, s.free i = false → d i = s.desc i) :
    Inv { s with desc := d, point := Function.update s.point p (.alloc b) } := by
  have hw (q : P) (b' : B) (c' : Chain) :
      Function.update s.point p (.alloc b) q = .wait b' c' ↔ s.point q = .wait b' c' := by
    rw [update_other (by simp)]
    exact ⟨fun hq => hq.2, fun hq => ⟨fun heq => hp b' c' (heq ▸ hq), hq⟩⟩
  refine ⟨⟨?_, ?_, ?_, ?_⟩, { h.rings with }, ⟨?_, ?_, h.flight.nodup, ?_, h.flight.status, ?_⟩⟩ <;>
    simp only [hw]
  · exact h.chains.distinct
  · exact h.chains.disjoint
  · exact h.chains.free
  · intro q b' c' hq
    have hnf {i : DescId} (hi : c'.Mem i) : d i = s.desc i := hd i (h.chains.not_free hq hi)
    rw [hnf (Or.inl rfl), hnf (Or.inr (Or.inl rfl)), hnf (Or.inr (Or.inr rfl))]
    exact h.chains.desc q b' c' hq
  · rintro q b' (hq | hq)
    · by_cases heq : q = p
      · subst heq
        obtain rfl : b = b' := by simpa using hq
        exact hl
      · exact h.flight.locked q b' (Or.inl (by simpa [heq] using hq))
    · exact h.flight.locked q b' (Or.inr hq)
  · exact h.flight.info
  · exact h.flight.mem
  · exact h.flight.clears

theorem Chains.submit (h : Chains s) (hp : ∀ b c, s.point p ≠ .wait b c)
    (hne : c.i0 ≠ c.i1 ∧ c.i0 ≠ c.i2 ∧ c.i1 ≠ c.i2) (hfree : ∀ i, c.Mem i → s.free i = true) :
    Chains ((s.take c).submit p b c) := by
  have hapart {q : P} {b' : B} {c' : Chain} {i : DescId} (hq : s.point q = .wait b' c')
      (hi : c'.Mem i) : ¬ c.Mem i := by
    intro hc
    have := h.not_free hq hi
    simp [hfree i hc] at this
  refine ⟨?_, ?_, ?_, ?_⟩
  · intro q b' c' hq
    rcases (update_wait hp).1 hq with ⟨-, -, rfl⟩ | hq
    · exact hne
    · exact h.distinct q b' c' hq
  · intro q q' b₁ b₂ c₁ c₂ i hq hq' hi hi'
    rcases (update_wait hp).1 hq with ⟨rfl, -, rfl⟩ | hw <;>
      rcases (update_wait hp).1 hq' with ⟨rfl, -, rfl⟩ | hw'
    · rfl
    · exact absurd hi (hapart hw' hi')
    · exact absurd hi' (hapart hw hi)
    · exact h.disjoint q q' b₁ b₂ c₁ c₂ i hw hw' hi hi'
  · intro i
    have hupd : ((s.take c).submit p b c).free i = false ↔ c.Mem i ∨ s.free i = false := by
      simp only [State.submit, State.take, Chain.Mem, Function.update_apply]
      split_ifs <;> simp_all
    rw [hupd, h.free]
    constructor
    · rintro (hi | ⟨q, b', c', hq, hi⟩)
      · exact ⟨p, b, c, (update_wait hp).2 (Or.inl ⟨rfl, rfl, rfl⟩), hi⟩
      · exact ⟨q, b', c', (update_wait hp).2 (Or.inr hq), hi⟩
    · rintro ⟨q, b', c', hq, hi⟩
      rcases (update_wait hp).1 hq with ⟨-, -, rfl⟩ | hq
      · exact Or.inl hi
      · exact Or.inr ⟨q, b', c', hq, hi⟩
  · intro q b' c' hq
    rcases (update_wait hp).1 hq with ⟨-, -, rfl⟩ | hq
    · obtain ⟨h01, h02, h12⟩ := hne
      simp [State.submit, h01, h02, h12]
    · have hkeep {i : DescId} (hi : c'.Mem i) : ((s.take c).submit p b c).desc i = s.desc i := by
        have hout := hapart hq hi
        simp only [Chain.Mem, not_or] at hout
        simp [State.submit, State.take, hout]
      rw [hkeep (Or.inl rfl), hkeep (Or.inr (Or.inl rfl)), hkeep (Or.inr (Or.inr rfl))]
      exact h.desc q b' c' hq

theorem Rings.submit (h : Rings s) (hroom : (s.submitted.drop s.consumed).length < NUM) :
    Rings ((s.take c).submit p b c) := by
  have hle := h.consumed_le
  rw [List.length_drop] at hroom
  refine ⟨?_, h.handled_le, ?_, h.seen, h.usedRingIdx, h.usedIdx, ?_, h.used⟩ <;>
    simp only [State.submit, State.take]
  · rw [List.length_append]
    omega
  · rw [h.availIdx, ofNat_succ, List.length_append, List.length_singleton]
  · rw [h.availIdx, slot_ofNat]
    exact h.avail.push (by omega) c.i0

theorem flight_submit (hle : s.consumed ≤ s.submitted.length) :
    (flight ((s.take c).submit p b c)).Perm (c.i0 :: flight s) := by
  simp only [flight, State.submit, State.take, List.drop_append_of_le_length hle,
    List.append_assoc]
  exact List.perm_middle

theorem Flight.submit (h : Inv s) (hp : ∀ b c, s.point p ≠ .wait b c) (hl : s.locked b = some p)
    (hnew : c.i0 ∉ flight s) (hfree : s.free c.i0 = true) :
    Flight ((s.take c).submit p b c) := by
  have hperm : (flight ((s.take c).submit p b c)).Perm (c.i0 :: flight s) :=
    flight_submit h.rings.consumed_le
  have hold {q : P} {b' : B} {c' : Chain} (hq : s.point q = .wait b' c') :
      c'.i0 ≠ c.i0 ∧ b' ≠ b ∧ q ≠ p := by
    have hqp : q ≠ p := fun heq => hp b' c' (heq ▸ hq)
    refine ⟨fun heq => ?_, h.flight.buffer_ne hq hl hqp, hqp⟩
    have := h.chains.not_free hq (Or.inl rfl)
    simp [heq, hfree] at this
  refine ⟨?_, ?_, ?_, ?_, ?_, ?_⟩
  · rintro q b' (hq | ⟨c', hq⟩)
    · have hqp : q ≠ p := fun heq => by
        rw [heq] at hq
        simp [State.submit] at hq
      exact h.flight.locked q b' (Or.inl (by simpa [State.submit, State.take, hqp] using hq))
    · rcases (update_wait hp).1 hq with ⟨rfl, rfl, -⟩ | hw
      · exact hl
      · exact h.flight.locked q b' (Or.inr ⟨c', hw⟩)
  · intro q b' c' hq
    rcases (update_wait hp).1 hq with ⟨-, rfl, rfl⟩ | hw
    · simp [State.submit]
    · simpa [State.submit, State.take, (hold hw).1] using h.flight.info q b' c' hw
  · exact hperm.nodup_iff.2 (List.nodup_cons.2 ⟨hnew, h.flight.nodup⟩)
  · intro i
    rw [hperm.mem_iff, List.mem_cons, h.flight.mem]
    constructor
    · rintro (rfl | ⟨q, b', c', hq, hi, hd⟩)
      · exact ⟨p, b, c, (update_wait hp).2 (Or.inl ⟨rfl, rfl, rfl⟩), rfl, by simp [State.submit]⟩
      · refine ⟨q, b', c', (update_wait hp).2 (Or.inr hq), hi, ?_⟩
        simpa [State.submit, State.take, (hold hq).2.1] using hd
    · rintro ⟨q, b', c', hq, hi, hd⟩
      rcases (update_wait hp).1 hq with ⟨-, -, rfl⟩ | hw
      · exact Or.inl hi.symm
      · exact Or.inr ⟨q, b', c', hw, hi, by
          simpa [State.submit, State.take, (hold hw).2.1] using hd⟩
  · intro i hi
    have hmem : i ∈ flight s := by
      rcases hi with hi | hi
      · exact List.mem_append_left _ (List.mem_append_right _ hi)
      · exact List.mem_append_right _ hi
    have hne : i ≠ c.i0 := fun heq => hnew (heq ▸ hmem)
    simpa [State.submit, State.take, hne] using h.flight.status i hi
  · intro q b' c' hq
    rcases (update_wait hp).1 hq with ⟨rfl, rfl, -⟩ | hw
    · simp [State.submit]
    · simpa [State.submit, State.take, (hold hw).2] using h.flight.clears q b' c' hw

theorem Inv.request (h : Inv s) (hp : ∀ b c, s.point p ≠ .wait b c) (hl : s.locked b = some p) :
    ∃ s', s.request p b = .ok s' ∧ Inv s' ∧ ∀ b', s.disk b' = true → s'.disk b' = true := by
  rcases alloc3Desc_cases s with ⟨d, hd, halloc⟩ | ⟨c, h01, h02, h12, hfree, halloc⟩
  · exact ⟨_, by rw [State.request, halloc]; rfl, h.postpone hp hl hd, fun _ hon => hon⟩
  · have hnew : c.i0 ∉ Virtio.flight s := by
      intro hmem
      obtain ⟨q, b', c', hq, hi, -⟩ := (h.flight.mem _).1 hmem
      have := h.chains.not_free hq (Or.inl hi.symm)
      simp [hfree c.i0 (Or.inl rfl)] at this
    have hroom : (s.submitted.drop s.consumed).length < NUM :=
      h.flight.room (Flight.drop_submitted s) fun hi => hnew ((Flight.drop_submitted s).mem hi)
    refine ⟨(s.take c).submit p b c, by rw [State.request, halloc]; rfl, ⟨?_, ?_, ?_⟩, ?_⟩
    · exact h.chains.submit hp ⟨h01, h02, h12⟩ hfree
    · exact h.rings.submit hroom
    · exact Flight.submit h hp hl hnew (hfree _ (Or.inl rfl))
    · intro b' hon
      simp only [State.submit, Function.update_apply]
      split_ifs
      exacts [rfl, hon]

/-! ## The end of a request -/

def State.settled (s : State P B) (p : P) (b : B) (c : Chain) : State P B :=
  { s.give c with
    info := Function.update s.info c.i0 { s.info c.i0 with b := none }
    point := Function.update s.point p .idle
    locked := Function.update s.locked b none }

theorem Chains.finish_eq (h : Chains s) (hp : s.point p = .wait b c) :
    s.finish p b c = .ok (s.settled p b c) := by
  have hfree (i : DescId) (hi : c.Mem i) := h.not_free hp hi
  have hchain := freeChain_ok
    (s := { s with info := Function.update s.info c.i0 { s.info c.i0 with b := none } })
    (h.distinct p b c hp) hfree (h.desc p b c hp)
  rw [State.finish]
  dsimp only at hchain ⊢
  rw [hchain]
  rfl

theorem Chains.finish (h : Chains s) (hp : s.point p = .wait b c) : Chains (s.settled p b c) := by
  have hw {q : P} {b' : B} {c' : Chain} :
      (s.settled p b c).point q = .wait b' c' ↔ q ≠ p ∧ s.point q = .wait b' c' :=
    update_other (by simp)
  have hapart {q : P} {b' : B} {c' : Chain} {i : DescId} (hq : q ≠ p ∧ s.point q = .wait b' c')
      (hi : c'.Mem i) : ¬ c.Mem i :=
    fun hc => hq.1 (h.disjoint q p b' b c' c i hq.2 hp hi hc)
  refine ⟨?_, ?_, ?_, ?_⟩ <;> simp only [hw]
  · exact fun q b' c' hq => h.distinct q b' c' hq.2
  · exact fun q q' b₁ b₂ c₁ c₂ i hq hq' => h.disjoint q q' b₁ b₂ c₁ c₂ i hq.2 hq'.2
  · intro i
    have hupd : (s.settled p b c).free i = false ↔ ¬ c.Mem i ∧ s.free i = false := by
      simp only [State.settled, State.give, Chain.Mem, Function.update_apply]
      split_ifs <;> simp_all
    rw [hupd, h.free]
    constructor
    · rintro ⟨hout, q, b', c', hq, hi⟩
      refine ⟨q, b', c', ⟨fun heq => hout ?_, hq⟩, hi⟩
      rw [heq, hp] at hq
      cases hq
      exact hi
    · rintro ⟨q, b', c', hq, hi⟩
      exact ⟨hapart hq hi, q, b', c', hq.2, hi⟩
  · intro q b' c' hq
    have hkeep {i : DescId} (hi : c'.Mem i) : (s.settled p b c).desc i = s.desc i := by
      have hout := hapart hq hi
      simp only [Chain.Mem, not_or] at hout
      simp [State.settled, State.give, hout]
    rw [hkeep (Or.inl rfl), hkeep (Or.inr (Or.inl rfl)), hkeep (Or.inr (Or.inr rfl))]
    exact h.desc q b' c' hq.2

theorem Flight.finish (h : Inv s) (hp : s.point p = .wait b c) (hd : s.disk b = false) :
    Flight (s.settled p b c) := by
  have hw {q : P} {b' : B} {c' : Chain} :
      (s.settled p b c).point q = .wait b' c' ↔ q ≠ p ∧ s.point q = .wait b' c' :=
    update_other (by simp)
  refine ⟨?_, ?_, h.flight.nodup, ?_, ?_, ?_⟩
  · intro q b' hq
    have hqp : q ≠ p := fun heq => by simp [heq, State.settled] at hq
    have hold : s.locked b' = some q :=
      h.flight.locked q b' (by simpa [State.settled, hqp] using hq)
    have hbb : b' ≠ b := fun heq => by
      rw [heq, h.flight.locked p b (Or.inr ⟨c, hp⟩)] at hold
      exact hqp (Option.some.inj hold).symm
    simpa [State.settled, hbb] using hold
  · intro q b' c' hq
    rw [hw] at hq
    have hi : c'.i0 ≠ c.i0 := fun heq => hq.1 (h.chains.head_inj hq.2 hp heq)
    simpa [State.settled, hi] using h.flight.info q b' c' hq.2
  · intro i
    simp only [hw]
    refine (h.flight.mem i).trans ⟨?_, ?_⟩
    · rintro ⟨q, b', c', hq, hi, hon⟩
      refine ⟨q, b', c', ⟨fun heq => ?_, hq⟩, hi, hon⟩
      rw [heq, hp] at hq
      cases hq
      simp [hd] at hon
    · rintro ⟨q, b', c', hq, hi, hon⟩
      exact ⟨q, b', c', hq.2, hi, hon⟩
  · intro i hi
    have hold := h.flight.status i hi
    by_cases heq : i = c.i0
    · subst heq
      simpa [State.settled] using hold
    · simpa [State.settled, heq] using hold
  · exact fun q b' c' hq => h.flight.clears q b' c' (hw.1 hq).2

theorem Inv.finish (h : Inv s) (hp : s.point p = .wait b c) (hd : s.disk b = false) :
    Inv (s.settled p b c) :=
  ⟨h.chains.finish hp, { h.rings with }, Flight.finish h hp hd⟩

end Steps

/-! ## The device -/

section Device
variable {s s' : State P B}

/-- A step of the device moves a head from one place to another. -/
theorem Inv.move (h : Inv s) (hrings : Rings s') (hperm : (Virtio.flight s').Perm (Virtio.flight s))
    (hkeep : s'.free = s.free ∧ s'.desc = s.desc ∧ s'.point = s.point ∧ s'.locked = s.locked ∧
      s'.disk = s.disk ∧ s'.clears = s.clears ∧ ∀ i, (s'.info i).b = (s.info i).b)
    (hstatus : ∀ i, i ∈ s'.ready ∨ i ∈ s'.completed.drop s'.handled → (s'.info i).status = 0) :
    Inv s' := by
  obtain ⟨hfree, hdesc, hpoint, hlocked, hdisk, hclears, hinfo⟩ := hkeep
  refine ⟨⟨?_, ?_, ?_, ?_⟩, hrings, ?_, ?_, hperm.nodup_iff.2 h.flight.nodup, ?_, hstatus, ?_⟩ <;>
    simp only [hfree, hdesc, hpoint, hlocked, hdisk, hclears, hinfo]
  · exact h.chains.distinct
  · exact h.chains.disjoint
  · exact h.chains.free
  · exact h.chains.desc
  · exact h.flight.locked
  · exact h.flight.info
  · exact fun i => hperm.mem_iff.trans (h.flight.mem i)
  · exact h.flight.clears

theorem Inv.fetch (h : Inv s) (hne : s.seen ≠ s.availIdx) :
    Inv { s with
      pending := s.availRing (slot s.seen) :: s.pending
      seen := s.seen + 1
      consumed := s.consumed + 1 } := by
  obtain ⟨hlt, hhead⟩ :=
    next_entry h.rings.consumed_le h.rings.availIdx h.rings.seen h.rings.avail hne
  refine h.move { h.rings with consumed_le := hlt, seen := ?_, avail := h.rings.avail.pop } ?_
    ⟨rfl, rfl, rfl, rfl, rfl, rfl, fun _ => rfl⟩ h.flight.status
  · rw [h.rings.seen, ofNat_succ]
  · simp only [Virtio.flight, hhead]
    rw [List.drop_eq_getElem_cons hlt]
    simp only [List.append_assoc, List.cons_append]
    exact List.perm_middle

theorem Inv.process (h : Inv s) {i : DescId} (hi : i ∈ s.pending) :
    Inv { s with
      info := Function.update s.info i { s.info i with status := 0 }
      pending := s.pending.erase i
      ready := i :: s.ready } := by
  refine h.move { h.rings with } ?_ ⟨rfl, rfl, rfl, rfl, rfl, rfl, fun j => ?_⟩ fun j hj => ?_
  · simp only [Virtio.flight, List.append_assoc, List.cons_append]
    refine List.Perm.append_left _ ?_
    refine List.perm_middle.trans ?_
    rw [← List.cons_append]
    exact List.Perm.append_right _ (List.perm_cons_erase hi).symm
  · by_cases hji : j = i
    · subst hji
      simp
    · simp [hji]
  · by_cases hji : j = i
    · subst hji
      simp
    · have hj' : j ∈ s.ready ∨ j ∈ s.completed.drop s.handled := by simpa [hji] using hj
      simpa [hji] using h.flight.status j hj'

theorem Inv.publish (h : Inv s) {i : DescId} (hi : i ∈ s.ready) :
    Inv { s with
      ready := s.ready.erase i
      usedRing := Function.update s.usedRing (slot s.usedRingIdx) i
      usedRingIdx := s.usedRingIdx + 1
      completed := s.completed ++ [i] } := by
  have hle := h.rings.handled_le
  have hout : i ∉ s.completed.drop s.handled := by
    have hnd := h.flight.nodup
    rw [Virtio.flight] at hnd
    exact List.disjoint_of_nodup_append hnd (List.mem_append_right _ hi)
  have hroom := h.flight.room (Flight.drop_completed s) hout
  rw [List.length_drop] at hroom
  refine h.move { h.rings with handled_le := ?_, usedRingIdx := ?_, used := ?_ } ?_
    ⟨rfl, rfl, rfl, rfl, rfl, rfl, fun _ => rfl⟩ fun j hj => h.flight.status j ?_
  · dsimp only
    rw [List.length_append]
    omega
  · rw [h.rings.usedRingIdx, ofNat_succ, List.length_append, List.length_singleton]
  · rw [h.rings.usedRingIdx, slot_ofNat]
    exact h.rings.used.push (by omega) i
  · simp only [Virtio.flight, List.drop_append_of_le_length hle, List.append_assoc]
    refine List.Perm.append_left _ (List.Perm.append_left _ ?_)
    have hlast : (s.completed.drop s.handled ++ [i]).Perm (i :: s.completed.drop s.handled) :=
      List.perm_append_singleton _ _
    refine (List.Perm.append_left _ hlast).trans (List.perm_middle.trans ?_)
    rw [← List.cons_append]
    exact List.Perm.append_right _ (List.perm_cons_erase hi).symm
  · dsimp only at hj
    rw [List.drop_append_of_le_length hle, List.mem_append, List.mem_singleton] at hj
    rcases hj with hj | hj | rfl
    · exact Or.inl (List.mem_of_mem_erase hj)
    · exact Or.inr hj
    · exact Or.inl hi

end Device

/-! ## The interrupt handler -/

section Handler
variable {s : State P B} {p : P} {b : B} {c : Chain}

theorem Inv.handler (h : Inv s) (v : Bool) : Inv { s with handler := v } :=
  ⟨⟨h.chains.distinct, h.chains.disjoint, h.chains.free, h.chains.desc⟩, { h.rings with },
    { h.flight with }⟩

theorem Inv.used_entry (h : Inv s) (hne : s.usedIdx ≠ s.usedRingIdx) :
    ∃ hlt : s.handled < s.completed.length, s.usedRing (slot s.usedIdx) = s.completed[s.handled] ∧
      ∃ p b c, s.point p = .wait b c ∧ c.i0 = s.completed[s.handled] ∧ s.disk b = true ∧
        (s.info c.i0).b = some b ∧ (s.info c.i0).status = 0 := by
  obtain ⟨hlt, hid⟩ :=
    next_entry h.rings.handled_le h.rings.usedRingIdx h.rings.usedIdx h.rings.used hne
  have hmem : s.completed[s.handled] ∈ s.completed.drop s.handled := by
    rw [List.drop_eq_getElem_cons hlt]
    exact List.mem_cons_self
  obtain ⟨p, b, c, hp, hc, hd⟩ := (h.flight.mem _).1 ((Flight.drop_completed s).mem hmem)
  have hstatus := h.flight.status _ (Or.inr hmem)
  exact ⟨hlt, hid, p, b, c, hp, hc, hd, h.flight.info p b c hp, hc ▸ hstatus⟩

variable [DecidableEq P] [DecidableEq B]

/-- A turn of the handler's loop, for the request of `p`. -/
def State.cleared (s : State P B) (p : P) (b : B) : State P B :=
  { s with
    disk := Function.update s.disk b false
    usedIdx := s.usedIdx + 1
    handled := s.handled + 1
    clears := Function.update s.clears p (s.clears p + 1) }

theorem Inv.waitsFor_iff (h : Inv s) (hp : s.point p = .wait b c) (q : P) :
    s.waitsFor b q = true ↔ q = p := by
  unfold State.waitsFor
  constructor
  · intro hq
    split at hq
    · rename_i b' c' hw
      obtain rfl : b' = b := by simpa using hq
      by_contra hqp
      exact h.flight.buffer_ne hw (h.flight.locked p b' (Or.inr ⟨c, hp⟩)) hqp rfl
    · cases hq
  · rintro rfl
    simp [hp]

/-- The handler clears `b->disk` of the request whose head it reads. -/
theorem Inv.intrStep_eq (h : Inv s) (hne : s.usedIdx ≠ s.usedRingIdx) :
    ∃ hlt : s.handled < s.completed.length, ∃ p b c, s.point p = .wait b c ∧
      c.i0 = s.completed[s.handled] ∧ s.disk b = true ∧ s.intrStep = .ok (s.cleared p b) := by
  obtain ⟨hlt, hid, p, b, c, hp, hc, hd, hinfo, hstatus⟩ := h.used_entry hne
  refine ⟨hlt, p, b, c, hp, hc, hd, ?_⟩
  have hclears : (fun q => if s.waitsFor b q then s.clears q + 1 else s.clears q) =
      Function.update s.clears p (s.clears p + 1) := by
    funext q
    by_cases hq : q = p
    · subst hq
      simp [(h.waitsFor_iff hp q).2 rfl]
    · simp [hq, mt (h.waitsFor_iff hp q).1 hq]
  simp [State.intrStep, hid, ← hc, hstatus, hinfo, hclears, State.cleared]

theorem flight_cleared (hlt : s.handled < s.completed.length) :
    (flight s).Perm (s.completed[s.handled] :: flight (s.cleared p b)) := by
  simp only [flight, State.cleared]
  rw [List.drop_eq_getElem_cons hlt]
  exact List.perm_middle

theorem Inv.cleared (h : Inv s) (hlt : s.handled < s.completed.length)
    (hp : s.point p = .wait b c) (hc : c.i0 = s.completed[s.handled]) (hd : s.disk b = true) :
    Inv (s.cleared p b) := by
  have hperm : (Virtio.flight s).Perm (c.i0 :: Virtio.flight (s.cleared p b)) := by
    rw [hc]
    exact flight_cleared hlt
  have hnd := List.nodup_cons.1 (hperm.nodup_iff.1 h.flight.nodup)
  have hother {q : P} {b' : B} {c' : Chain} (hq : s.point q = .wait b' c') (hqp : q ≠ p) :
      b' ≠ b := h.flight.buffer_ne hq (h.flight.locked p b (Or.inr ⟨c, hp⟩)) hqp
  refine ⟨⟨h.chains.distinct, h.chains.disjoint, h.chains.free, h.chains.desc⟩,
    { h.rings with handled_le := hlt, usedIdx := ?_, used := h.rings.used.pop },
    ⟨h.flight.locked, h.flight.info, hnd.2, ?_, ?_, ?_⟩⟩
  · simp only [State.cleared, h.rings.usedIdx, ofNat_succ]
  · intro i
    have hmem : i ∈ Virtio.flight (s.cleared p b) ↔ i ∈ Virtio.flight s ∧ i ≠ c.i0 := by
      rw [hperm.mem_iff, List.mem_cons]
      constructor
      · exact fun hi => ⟨Or.inr hi, fun heq => hnd.1 (heq ▸ hi)⟩
      · exact fun hi => hi.1.resolve_left hi.2
    rw [hmem, h.flight.mem]
    constructor
    · rintro ⟨⟨q, b', c', hq, hi, hon⟩, hic⟩
      have hqp : q ≠ p := fun heq => by
        rw [heq, hp] at hq
        cases hq
        exact hic hi.symm
      exact ⟨q, b', c', hq, hi, by simpa [State.cleared, hother hq hqp] using hon⟩
    · rintro ⟨q, b', c', hq, hi, hon⟩
      have hbb : b' ≠ b := fun heq => by simp [State.cleared, heq] at hon
      have hqp : q ≠ p := fun heq => by
        rw [heq] at hq
        exact hbb (by cases hp.symm.trans hq; rfl)
      refine ⟨⟨q, b', c', hq, hi, by simpa [State.cleared, hbb] using hon⟩, fun heq => hqp ?_⟩
      exact h.chains.head_inj hq hp (hi.trans heq)
  · rintro i (hi | hi)
    · exact h.flight.status i (Or.inl hi)
    · refine h.flight.status i (Or.inr (List.mem_of_mem_drop (i := 1) ?_))
      rw [List.drop_drop]
      exact hi
  · intro q b' c' hq
    by_cases hqp : q = p
    · subst hqp
      cases hp.symm.trans hq
      have hzero := h.flight.clears q b c hp
      simp [State.cleared, hzero, hd]
    · simpa [State.cleared, hqp, hother hq hqp] using h.flight.clears q b' c' hq

omit [DecidableEq P] [DecidableEq B] in
theorem Inv.init (h : Initial s) : Inv s := by
  obtain ⟨hfree, hav, hur, hus, hseen, -, hpoint, hlocked, hpend, hready, hsub, hcons, hcomp,
    hhand⟩ := h
  have hflight : Virtio.flight s = [] := by simp [Virtio.flight, hpend, hready, hsub, hcomp]
  refine ⟨⟨?_, ?_, ?_, ?_⟩, ⟨?_, ?_, ?_, ?_, ?_, ?_, ?_, ?_⟩, ⟨?_, ?_, ?_, ?_, ?_, ?_⟩⟩ <;>
    simp [hfree, hav, hur, hus, hseen, hpoint, hlocked, hready, hsub, hcons, hcomp, hhand, hflight,
      Holds]

/-- If a step clears `b->disk` of a waiting request, then it is the handler's, and the
handler has read the head of that request. -/
def ClearsRead (e : Event P B) (s s' : State P B) : Prop :=
  ∀ p b c, s.point p = .wait b c → s.disk b = true → s'.disk b = false →
    e = .intrStep ∧ s.usedRing (slot s.usedIdx) = c.i0

omit [DecidableEq P] [DecidableEq B] in
theorem ClearsRead.of_le {e : Event P B} {s' : State P B}
    (h : ∀ b, s.disk b = true → s'.disk b = true) : ClearsRead e s s' := by
  intro p b c _ hon hoff
  simp [h b hon] at hoff

theorem Inv.intrStep (h : Inv s) (hne : s.usedIdx ≠ s.usedRingIdx) :
    ∃ s', s.intrStep = .ok s' ∧ Inv s' ∧ ClearsRead .intrStep s s' := by
  obtain ⟨hlt, p, b, c, hp, hi, hd, hrun⟩ := h.intrStep_eq hne
  obtain ⟨_, hid, -⟩ := h.used_entry hne
  refine ⟨s.cleared p b, hrun, h.cleared hlt hp hi hd, fun q b' c' hq hon hoff => ⟨rfl, ?_⟩⟩
  have hbb : b' = b := by
    by_contra hbb
    simp [State.cleared, hbb, hon] at hoff
  have hqp : q = p := by
    by_contra hqp
    exact h.flight.buffer_ne hq (h.flight.locked p b (Or.inr ⟨c, hp⟩)) hqp hbb
  rw [hqp, hp] at hq
  cases hq
  rw [hid, hi]

/-- A step that can be taken keeps the invariant; the only other answer is that it has
to wait. -/
theorem Inv.next (h : Inv s) (e : Event P B) :
    next e s = .error .blocked ∨ ∃ s', next e s = .ok s' ∧ Inv s' ∧ ClearsRead e s s' := by
  cases e with
  | rw p b =>
    cases hp : s.point p with
    | idle =>
      by_cases hc : s.handler = false ∧ s.locked b = none
      · obtain ⟨s', hrun, hinv, hdisk⟩ :=
          (h.lock (p := p) hc.2).request (p := p) (b := b) (by simp [hp]) (by simp)
        exact Or.inr ⟨s', by simpa only [Virtio.next, hp, if_pos hc] using hrun, hinv, .of_le hdisk⟩
      · exact Or.inl (by simp only [Virtio.next, hp, if_neg hc])
    | alloc b' => exact Or.inl (by simp only [Virtio.next, hp])
    | wait b' c => exact Or.inl (by simp only [Virtio.next, hp])
  | retry p =>
    cases hp : s.point p with
    | idle => exact Or.inl (by simp only [Virtio.next, hp])
    | alloc b =>
      by_cases hc : s.handler = false
      · obtain ⟨s', hrun, hinv, hdisk⟩ := h.request (p := p) (b := b) (by simp [hp])
          (h.flight.locked p b (Or.inl hp))
        exact Or.inr ⟨s', by simpa only [Virtio.next, hp, if_pos hc] using hrun, hinv, .of_le hdisk⟩
      · exact Or.inl (by simp only [Virtio.next, hp, if_neg hc])
    | wait b c => exact Or.inl (by simp only [Virtio.next, hp])
  | finish p =>
    cases hp : s.point p with
    | idle => exact Or.inl (by simp only [Virtio.next, hp])
    | alloc b => exact Or.inl (by simp only [Virtio.next, hp])
    | wait b c =>
      by_cases hc : s.handler = false ∧ s.disk b = false
      · refine Or.inr ⟨s.settled p b c, ?_, h.finish hp hc.2, .of_le fun _ hon => hon⟩
        simp only [Virtio.next, hp, if_pos hc, h.chains.finish_eq hp]
      · exact Or.inl (by simp only [Virtio.next, hp, if_neg hc])
  | fetch =>
    by_cases hc : s.seen = s.availIdx
    · exact Or.inl (by rw [Virtio.next, if_pos hc])
    · exact Or.inr ⟨_, by rw [Virtio.next, if_neg hc], h.fetch hc, .of_le fun _ hon => hon⟩
  | process i =>
    by_cases hc : i ∈ s.pending
    · exact Or.inr ⟨_, by rw [Virtio.next, if_pos hc], h.process hc, .of_le fun _ hon => hon⟩
    · exact Or.inl (by rw [Virtio.next, if_neg hc])
  | publish i =>
    by_cases hc : i ∈ s.ready
    · exact Or.inr ⟨_, by rw [Virtio.next, if_pos hc], h.publish hc, .of_le fun _ hon => hon⟩
    · exact Or.inl (by rw [Virtio.next, if_neg hc])
  | intrBegin =>
    by_cases hc : s.handler = true
    · exact Or.inl (by rw [Virtio.next, if_pos hc])
    · exact Or.inr ⟨_, by rw [Virtio.next, if_neg hc], h.handler true, .of_le fun _ hon => hon⟩
  | intrStep =>
    by_cases hc : s.handler = true ∧ s.usedIdx ≠ s.usedRingIdx
    · rw [Virtio.next, if_pos hc]
      exact Or.inr (h.intrStep hc.2)
    · exact Or.inl (by rw [Virtio.next, if_neg hc])
  | intrEnd =>
    by_cases hc : s.handler = true ∧ s.usedIdx = s.usedRingIdx
    · exact Or.inr ⟨_, by rw [Virtio.next, if_pos hc], h.handler false, .of_le fun _ hon => hon⟩
    · exact Or.inl (by rw [Virtio.next, if_neg hc])

end Handler

/-! ## Every run -/

section Runs
variable [DecidableEq P] [DecidableEq B] {s : State P B}

/-- The states of any interleaving of calls, device and interrupt handler. -/
def Reachable (s : State P B) : Prop :=
  Reach (step (P := P) (B := B)) (fun _ _ => True) Initial s

theorem Reachable.inv (h : Reachable s) : Inv s := by
  refine h.invariant (fun _ => Inv.init) fun s e _ s' hinv _ hstep => ?_
  rw [step] at hstep
  rcases hinv.next e with hnext | ⟨s₁, hnext, hinv', -⟩ <;> rw [hnext] at hstep
  · cases hstep
  · cases hstep
    exact hinv'

end Runs

/-- The state after `virtio_disk_init`, for two processes and two buffers. -/
def started : State Bool Bool where
  free := fun _ => true
  desc := fun _ => ⟨false, 0⟩
  availRing := fun _ => 0
  availIdx := 0
  usedRing := fun _ => 0
  usedRingIdx := 0
  usedIdx := 0
  info := fun _ => ⟨none, 0⟩
  disk := fun _ => false
  locked := fun _ => none
  handler := false
  point := fun _ => .idle
  seen := 0
  pending := []
  ready := []
  submitted := []
  consumed := 0
  completed := []
  handled := 0
  clears := fun _ => 0

/-- Two requests, the second of which the device completes first. -/
def outOfOrder : List (Event Bool Bool) :=
  [.rw false false, .rw true true, .fetch, .fetch, .process 3, .process 0, .publish 3, .publish 0,
    .intrBegin]

theorem initial_started : Initial started := by simp [Initial, started]

end Xv6.Disk.Virtio
