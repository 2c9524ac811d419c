import Xv6.Fs.View

/-! # Operations on inodes

Each operation of fs.c on a clean state, as a change of its view.
-/
namespace Xv6.Fs
open Disk Library

section
variable [sb : Superblock] {s s' : State} {ip : InodeId} {src : List UInt8} {off n tot w : ℕ}
  {U : Set ℕ} {d : Dinode}

/-! ## Fields of the in-memory inode -/

/-- The in-memory inode becomes `d`. -/
def State.setD (s : State) (ip : InodeId) (d : Dinode) : State := s.put ip s.disk s.lh d

omit sb in
theorem setDinode_run (f : Dinode → Dinode) :
    setDinode ip f s = .ok () (s.setD ip (f (s.itable ip).d)) := rfl

omit sb in
theorem setD_d : ((s.setD ip d).itable ip).d = d := put_d

theorem setD_live : (s.setD ip d).live ip = Function.update (s.live ip) (s.itable ip).inum d := by
  have hinum : ((s.setD ip d).itable ip).inum = (s.itable ip).inum := put_inum
  unfold State.live
  rw [setD_d, hinum, Function.update_idem]
  rfl

theorem Held.setD (h : Held s ip) (ht : d.type ≠ 0) (haddrs : d.addrs = (s.itable ip).d.addrs)
    (hsize : d.size ≤ MAXFILE * BSIZE)
    (hfull : ∀ m, m * BSIZE < d.size → addr s.disk (s.itable ip).d (slotOf m) ≠ 0) :
    Held (s.setD ip d) ip where
  files := by
    rw [setD_live]
    apply h.files.setFields h.alloc ht
    · rw [live_self, haddrs]
    · exact hsize
    · intro m hm
      rw [addr_congr haddrs (fun _ => rfl)]
      exact hfull m hm
  lt := by
    have hinum : ((s.setD ip d).itable ip).inum = (s.itable ip).inum := put_inum
    rw [hinum]
    exact h.lt
  type := by
    rw [setD_d]
    exact ht

omit sb in
theorem content_setD {o : ℕ} (haddrs : d.addrs = (s.itable ip).d.addrs) :
    content (s.setD ip d).disk d o = content s.disk (s.itable ip).d o :=
  content_congr (addr_congr haddrs (fun _ => rfl) _) fun _ => rfl

omit sb in
theorem length_data (s : State) (ip : InodeId) : (afile s ip).data.length = (s.itable ip).d.size :=
  length_bytesAt ..

theorem Held.fits (h : Held s ip) : (s.itable ip).d.Fits := by
  have := h.files.fits h.alloc
  rwa [live_self] at this

/-! ## `writei` -/

/-- `writei` refuses to write. -/
def BadRange (size off n : ℕ) : Prop :=
  size < off ∨ (off + n) % 2 ^ 32 < off ∨ MAXFILE * BSIZE < (off + n) % 2 ^ 32

instance (size off n : ℕ) : Decidable (BadRange size off n) :=
  inferInstanceAs (Decidable (_ ∨ _ ∨ _))

/-- `writei` has returned `tot`, and has stored `w` bytes of the source. -/
structure Written (ip : InodeId) (src : List UInt8) (off n tot w : ℕ) (U : Set ℕ) (s s' : State) :
    Prop where
  tot_le : tot ≤ w ∧ w ≤ n ∧ w ≤ src.length
  clean : Clean s'
  view : s'.view = s.view.store (s.itable ip).inum (some { afile s ip with
    data := (splice (afile s ip).data off (src.take w)).take
      (max (afile s ip).data.length (off + tot)) })
  logged : Logged {(s.itable ip).inum} (span off n).card U s s'
  whole : Whole src n off 0 → w = tot ∧ U = ∅
  full : n ≤ src.length → tot < n → ∀ b < sb.size, used s'.disk b
  stuck : n ≤ src.length → tot < n → addr s.disk (s.itable ip).d (slotOf ((off + tot) / BSIZE)) = 0
  edge : tot = n ∨ tot = 0 ∨ (off + tot) % BSIZE = 0
  grown : 0 < tot → addr s.disk (s.itable ip).d (slotOf (off / BSIZE)) = 0 →
    ∃ b < sb.size, ¬ used s.disk b

theorem Grew.logged {K : Finset ℕ} (h : Grew ip K U s s') : Logged ∅ K.card U s s' := by
  refine ⟨h.logs, K.image (addr s'.disk (s'.itable ip).d), Finset.card_image_le, fun b hb => ?_⟩
  rcases h.within b hb with hb | hb | ⟨k, hk, hb, -⟩
  · exact Or.inl hb
  · exact Or.inr (Or.inl hb)
  · refine Or.inr (Or.inr (Or.inr ?_))
    rw [hb]
    exact Finset.mem_image_of_mem _ hk

theorem Stored.written {r : ℕ × ℕ} {s₁ : State} (h : Clean s) (hip : Loaded s ip)
    (hoff : off ≤ (s.itable ip).d.size) (hmax : off + n ≤ MAXFILE * BSIZE)
    (hst : Stored ip src n off 0 w U s r s₁) :
    Written ip src off n r.2 w U s ((s₁.setD ip
      { (s₁.itable ip).d with size := max (s₁.itable ip).d.size r.1 }).flush ip) := by
  have hgrew := hst.grew
  have hle := hst.le
  have hw := hst.w_le
  have hr : r.1 = off + r.2 := hst.off_eq
  have hsize : (s₁.itable ip).d.size = (s.itable ip).d.size := by rw [hgrew.fields]
  generalize hd : { (s₁.itable ip).d with size := max (s₁.itable ip).d.size r.1 } = d
  have haddrs : d.addrs = (s₁.itable ip).d.addrs := by rw [← hd]
  have hdsize : d.size = max (s.itable ip).d.size (off + r.2) := by
    rw [← hd, ← hsize, ← hr]
  have hfull (m : ℕ) (hm : m * BSIZE < d.size) :
      addr s₁.disk (s₁.itable ip).d (slotOf m) ≠ 0 := by
    by_cases hold : m * BSIZE < (s₁.itable ip).d.size
    · exact hgrew.held.full hold
    · have := hst.mapped (m * BSIZE) (by omega) (by omega)
      rwa [Nat.mul_div_cancel _ (by decide)] at this
  have hheld : Held (s₁.setD ip d) ip := by
    apply hgrew.held.setD _ haddrs _ hfull
    · rw [← hd]
      exact hgrew.held.type
    · have := (h.held hip).size_le
      omega
  have hframe : s₁.setD ip d = s.put ip (s₁.setD ip d).disk (s₁.setD ip d).lh
      ((s₁.setD ip d).itable ip).d := by
    rw [setD_d]
    unfold State.setD
    rw [hgrew.frame, put_put]
    rfl
  have hahead : Ahead ip s (s₁.setD ip d) :=
    ⟨hframe, hheld.files, hheld.fits, hgrew.dinode, hgrew.other⟩
  have hview := hahead.flush_view (h.inum_lt ip hip.ref)
  rw [fileOf_afile hheld.type] at hview
  have hafile : afile (s₁.setD ip d) ip = { afile s ip with
      data := (splice (afile s ip).data off (src.take w)).take
        (max (afile s ip).data.length (off + r.2)) } := by
    have hlen := length_data s ip
    have htake : (src.take w).length = w := by
      rw [List.length_take]
      omega
    have hsplice : (splice (afile s ip).data off (src.take w)).length =
        max (s.itable ip).d.size (off + w) := by
      rw [length_splice (by omega), htake, hlen]
    unfold afile
    rw [setD_d]
    ext1
    · rw [← hd, hgrew.fields]
    · rw [← hd, hgrew.fields]
    · rw [← hd, hgrew.fields]
    · rw [← hd, hgrew.fields]
    · change bytesAt _ _ _ _ = List.take (max (afile s ip).data.length _)
        (splice (afile s ip).data off _)
      apply bytesAt_eq
      · rw [List.length_take, hsplice, hlen, hdsize]
        omega
      · intro o ho
        rw [content_setD haddrs, hst.content o, getD_take (by omega), getD_splice (by omega),
          htake]
        by_cases hin : off ≤ o ∧ o < off + w
        · rw [if_pos hin, if_pos hin, Nat.zero_add, getD_take (by omega)]
        · rw [if_neg hin, if_neg hin]
          have hlt : o < (s.itable ip).d.size := by omega
          change _ = (bytesAt s.disk (s.itable ip).d 0 _).getD o 0
          rw [getD_bytesAt hlt, Nat.zero_add]
  rw [hafile] at hview
  refine ⟨by omega, hahead.flush_clean h hip.ref hheld.type, hview, ?_, ?_, ?_, ?_, ?_, hst.grown⟩
  · have hl := hgrew.logged.trans ((Logged.flush (s₁.setD ip d) ip).congr rfl rfl rfl rfl)
    have hinum : ((s₁.setD ip d).itable ip).inum = (s.itable ip).inum := put_inum.trans hgrew.inum
    rw [hinum] at hl
    exact hl.mono (by simp) (by simp) (by simp)
  · intro hwhole
    obtain ⟨h1, h2⟩ := hst.whole hwhole
    exact ⟨by omega, h2⟩
  · intro hn hlt b hb
    unfold State.flush
    rw [writeInode_used hheld.lt]
    exact hst.full hn hlt b hb
  · rw [← hr]
    exact hst.stuck
  · rw [← hr]
    exact hst.edge

theorem writei_spec (src : List UInt8) (off : ℕ) (h : Clean s) (hip : Loaded s ip)
    (ho : 1 ≤ s.outstanding) (hn : n < 2 ^ 32) :
    Wp (writei ip src off n) s (fun r s' =>
      (BadRange (s.itable ip).d.size off n ∧ r = -1 ∧ s' = s) ∨
      (¬ BadRange (s.itable ip).d.size off n ∧
        ∃ tot w U, r = (tot : ℕ) ∧ Written ip src off n tot w U s s')) (fun _ => False) := by
  have hsize := (h.held hip).size_le
  have hsmall : MAXFILE * BSIZE < 2 ^ 32 := by decide
  unfold writei
  refine Wp.step_run (getInode_run ip s) ?_
  by_cases h1 : (s.itable ip).d.size < off ∨ (off + n) % 2 ^ 32 < off
  · rw [if_pos h1]
    refine Wp.pure (Or.inl ⟨?_, rfl, rfl⟩)
    unfold BadRange
    omega
  · rw [if_neg h1]
    by_cases h2 : MAXFILE * BSIZE < (off + n) % 2 ^ 32
    · rw [if_pos h2]
      exact Wp.pure (Or.inl ⟨Or.inr (Or.inr h2), rfl, rfl⟩)
    · rw [if_neg h2]
      have hmod : (off + n) % 2 ^ 32 = off + n := by omega
      refine Wp.step (writeLoop_spec (h.held hip) ho (Nat.zero_le n) (le_refl n) (by omega)) ?_
      rintro ⟨off', tot⟩ s₁ ⟨w, U, hst⟩
      have ho₁ : 1 ≤ s₁.outstanding := by rwa [hst.grew.outstanding]
      refine Wp.step_run (setDinode_run _) (Wp.step_run (iupdate_run ho₁) (Wp.pure (Or.inr ?_)))
      refine ⟨?_, tot, w, U, rfl, hst.written h hip (by omega) (by omega)⟩
      unfold BadRange
      omega

/-! ## `itrunc` -/

/-- The inode without its blocks. -/
def Dinode.cleared (d : Dinode) : Dinode := { d with size := 0, addrs := fun _ => 0 }

/-- The inode with the addresses in the slots `R` only. -/
def Dinode.only (d : Dinode) (R : Finset ℕ) : Dinode :=
  { d with addrs := fun j => if j.val ∈ R then d.addrs j else 0 }

omit sb in
theorem Dinode.only_of_mem {R : Finset ℕ} {j : Fin (NDIRECT + 1)} (h : j.val ∈ R) :
    (d.only R).addrs j = d.addrs j := if_pos h

omit sb in
theorem Dinode.only_of_notMem {R : Finset ℕ} {j : Fin (NDIRECT + 1)} (h : j.val ∉ R) :
    (d.only R).addrs j = 0 := if_neg h

omit sb in
theorem Dinode.only_congr {R R' : Finset ℕ}
    (h : ∀ j : Fin (NDIRECT + 1), d.addrs j ≠ 0 → (j.val ∈ R ↔ j.val ∈ R')) :
    d.only R = d.only R' := by
  have haddrs : (d.only R).addrs = (d.only R').addrs := by
    funext j
    change (if j.val ∈ R then d.addrs j else 0) = if j.val ∈ R' then d.addrs j else 0
    by_cases h0 : d.addrs j = 0
    · rw [h0, ite_self, ite_self]
    · simp only [h j h0]
  exact Dinode.ext rfl rfl rfl rfl rfl haddrs

omit sb in
theorem Dinode.only_erase (R : Finset ℕ) (j : Fin (NDIRECT + 1)) :
    { d.only R with addrs := Function.update (d.only R).addrs j 0 } = d.only (R.erase j) := by
  have haddrs : Function.update (d.only R).addrs j 0 = (d.only (R.erase j)).addrs := by
    funext i
    change _ = if i.val ∈ R.erase j then d.addrs i else 0
    by_cases hij : i = j
    · rw [hij, Function.update_self, if_neg (Finset.notMem_erase _ _)]
    · have hiff : i.val ∈ R.erase j ↔ i.val ∈ R := by
        rw [Finset.mem_erase]
        exact and_iff_right fun he => hij (Fin.ext he)
      rw [Function.update_of_ne hij]
      simp only [hiff]
      rfl
  rw [haddrs]
  rfl

/-- `itrunc` has still to free the blocks in the slots `R`. -/
structure Truncating (ip : InodeId) (R : Finset ℕ) (s t : State) : Prop where
  frame : t = s.put ip t.disk t.lh (t.itable ip).d
  d_eq : (t.itable ip).d = (s.itable ip).d.only R
  files : Files t.disk (Function.update s.dinode (s.itable ip).inum (s.itable ip).d.cleared)
    {b | b ≠ 0 ∧ ∃ k ∈ R, addr s.disk (s.itable ip).d k = b}
  rest : ∀ b, (∀ x < sb.size, BBLOCK x ≠ b) → t.disk b = s.disk b
  logged : Logged ∅ 0 ∅ s t

theorem Logged.drop {b : ℕ} (hb : b < sb.size) (s : State) : Logged ∅ 0 ∅ s (s.drop b) := by
  refine ⟨Logs.log .., ∅, le_refl _, fun x hx => ?_⟩
  rcases (mem_log_lh _).mp hx with hx | hx
  · exact Or.inl hx
  · exact Or.inr (Or.inl ⟨b, hb, hx⟩)

namespace Truncating
variable {R R' : Finset ℕ} {t : State} {k : ℕ}

theorem start (h : Clean s) (hip : Loaded s ip) : Truncating ip (Finset.range NSLOT) s s where
  frame := put_self.symm
  d_eq := by
    have hin (j : Fin (NDIRECT + 1)) : j.val ∈ Finset.range NSLOT :=
      Finset.mem_range.mpr (lt_of_lt_of_le j.isLt (by decide))
    simp only [Dinode.only, hin, if_true]
  files := by
    have hheld := h.held hip
    have hf := hheld.files.truncate (s.itable ip).d.cleared hheld.alloc (fun _ => rfl) rfl
    rw [live_self] at hf
    unfold State.live at hf
    rw [Function.update_idem] at hf
    have hset : blocks s.disk (s.itable ip).d = {b | b ≠ 0 ∧ ∃ k ∈ Finset.range NSLOT,
        addr s.disk (s.itable ip).d k = b} := by
      simp only [Finset.mem_range]
      rfl
    rw [← hset]
    exact hf
  rest _ _ := rfl
  logged := Logged.refl s

/-- Empty slots need not be freed. -/
theorem shrink (h : Truncating ip R s t) (hR : R' ⊆ R)
    (hz : ∀ k ∈ R, k ∉ R' → addr s.disk (s.itable ip).d k = 0) : Truncating ip R' s t where
  frame := h.frame
  d_eq := by
    rw [h.d_eq]
    apply Dinode.only_congr
    intro j hj
    refine ⟨fun hin => ?_, fun hin => hR hin⟩
    by_contra hout
    exact hj ((addr_fin ..).symm.trans (hz j hin hout))
  files := by
    have hset : {b | b ≠ 0 ∧ ∃ k ∈ R', addr s.disk (s.itable ip).d k = b} =
        {b | b ≠ 0 ∧ ∃ k ∈ R, addr s.disk (s.itable ip).d k = b} := by
      ext b
      constructor
      · rintro ⟨hb, k, hk, heq⟩
        exact ⟨hb, k, hR hk, heq⟩
      · rintro ⟨hb, k, hk, heq⟩
        refine ⟨hb, k, ?_, heq⟩
        by_contra hk'
        exact hb (heq ▸ hz k hk hk')
    rw [hset]
    exact h.files
  rest := h.rest
  logged := h.logged

theorem spare_data (h : Truncating ip R s t) (hk : k ∈ R)
    (hne : addr s.disk (s.itable ip).d k ≠ 0) : Data (addr s.disk (s.itable ip).d k) :=
  h.files.exact.valid_of_spare _ ⟨hne, k, hk, rfl⟩

theorem spare_used (h : Truncating ip R s t) (hk : k ∈ R)
    (hne : addr s.disk (s.itable ip).d k ≠ 0) : used t.disk (addr s.disk (s.itable ip).d k) :=
  h.files.exact.used_of_spare ⟨hne, k, hk, rfl⟩

theorem free (h : Truncating ip R s t) (hs : Clean s) (hip : Loaded s ip) (hk : k ∈ R)
    (hne : addr s.disk (s.itable ip).d k ≠ 0) :
    Truncating ip (R.erase k) s ((t.drop (addr s.disk (s.itable ip).d k)).setD ip
      ((s.itable ip).d.only (R.erase k))) where
  frame := by
    have hput (b : ℕ) (disk : ℕ → Block) (lh : List ℕ) (d : Dinode) :
        (t.drop b).put ip disk lh d = s.put ip disk lh d := by
      rw [h.frame]
      simp only [State.drop, State.log, State.put, Function.update_self, Function.update_idem]
    rw [setD_d]
    exact hput ..
  d_eq := setD_d
  files := by
    have hf := h.files.drop (b := addr s.disk (s.itable ip).d k) ⟨hne, k, hk, rfl⟩
    have hset : {b | b ≠ 0 ∧ ∃ k' ∈ R.erase k, addr s.disk (s.itable ip).d k' = b} =
        {b | b ≠ 0 ∧ ∃ k' ∈ R, addr s.disk (s.itable ip).d k' = b} \
          {addr s.disk (s.itable ip).d k} := by
      ext b
      constructor
      · rintro ⟨hb, k', hk', rfl⟩
        refine ⟨⟨hb, k', Finset.mem_of_mem_erase hk', rfl⟩, fun heq => ?_⟩
        exact Finset.ne_of_mem_erase hk' ((hs.held hip).slot_inj hne heq)
      · rintro ⟨⟨hb, k', hk', rfl⟩, hne'⟩
        refine ⟨hb, k', Finset.mem_erase.mpr ⟨?_, hk'⟩, rfl⟩
        rintro rfl
        exact hne' rfl
    rw [hset]
    exact hf
  rest b hb := by
    rw [← h.rest b hb]
    exact Function.update_of_ne (hb _ (h.spare_data hk hne).2).symm ..
  logged := by
    have hl := h.logged.trans (Logged.drop (h.spare_data hk hne).2 t)
    rw [Set.union_self] at hl
    exact hl.congr rfl rfl rfl rfl

theorem outstanding (h : Truncating ip R s t) : t.outstanding = s.outstanding := by
  rw [h.frame]
  rfl

end Truncating

section Trunc
variable {R : Finset ℕ} {t : State} (hs : Clean s) (hip : Loaded s ip) (ho : 1 ≤ s.outstanding)

include hs hip ho

theorem itruncDirect_spec (h : Truncating ip R s t) (j : Fin (NDIRECT + 1)) :
    Wp (itruncDirect ip j) t (fun _ t' => Truncating ip (R.erase j) s t') (fun _ => False) := by
  have haddr := addr_fin s.disk (s.itable ip).d j
  unfold itruncDirect
  refine Wp.step_run (getInode_run ip t) ?_
  by_cases hj : j.val ∈ R
  · have hd : (t.itable ip).d.addrs j = (s.itable ip).d.addrs j := by
      rw [h.d_eq, Dinode.only_of_mem hj]
    by_cases h0 : (t.itable ip).d.addrs j = 0
    · rw [if_pos h0]
      refine Wp.pure (h.shrink (Finset.erase_subset _ _) fun k hk hk' => ?_)
      have : k = j.val := by
        by_contra hne
        exact hk' (Finset.mem_erase.mpr ⟨hne, hk⟩)
      rw [this, haddr, ← hd, h0]
    · rw [if_neg h0]
      have hne : addr s.disk (s.itable ip).d j ≠ 0 := by
        rw [haddr, ← hd]
        exact h0
      have hused := h.spare_used hj hne
      have hfree := h.free hs hip hj hne
      rw [haddr, ← hd] at hused hfree
      refine Wp.step_run (bfree_run hused (by rwa [h.outstanding])) ?_
      rw [← Dinode.only_erase, ← h.d_eq] at hfree
      exact Wp.of_run (setDinode_run _) hfree
  · have hd : (t.itable ip).d.addrs j = 0 := by
      rw [h.d_eq, Dinode.only_of_notMem hj]
    rw [if_pos hd, Finset.erase_eq_of_notMem hj]
    exact Wp.pure h

/-- The slots that the loop over the direct addresses leaves. -/
def directSlots (l : List (Fin NDIRECT)) : Finset ℕ :=
  (l.map Fin.val).toFinset ∪ Finset.Ico NDIRECT NSLOT

/-- The slots that the loop over the entries leaves. -/
def entrySlots (l : List ℕ) : Finset ℕ := insert NDIRECT (l.map (NDIRECT + 1 + ·)).toFinset

omit sb hs hip ho in
theorem directSlots_erase {i : Fin NDIRECT} {l : List (Fin NDIRECT)} (hi : i ∉ l) :
    (directSlots (i :: l)).erase i = directSlots l := by
  ext k
  simp only [directSlots, Finset.mem_erase, Finset.mem_union, List.mem_toFinset, List.mem_map,
    List.mem_cons, Finset.mem_Ico]
  constructor
  · rintro ⟨hne, ⟨j, rfl | hj, rfl⟩ | hk⟩
    · exact absurd rfl hne
    · exact Or.inl ⟨j, hj, rfl⟩
    · exact Or.inr hk
  · rintro (⟨j, hj, rfl⟩ | hk)
    · refine ⟨fun he => hi (Fin.ext he ▸ hj), Or.inl ⟨j, Or.inr hj, rfl⟩⟩
    · exact ⟨by have := i.isLt; omega, Or.inr hk⟩

omit sb hs hip ho in
theorem entrySlots_erase {e : ℕ} {l : List ℕ} (he : e ∉ l) :
    (entrySlots (e :: l)).erase (NDIRECT + 1 + e) = entrySlots l := by
  ext k
  simp only [entrySlots, Finset.mem_erase, Finset.mem_insert, List.mem_toFinset, List.mem_map,
    List.mem_cons]
  constructor
  · rintro ⟨hne, hk | ⟨j, rfl | hj, rfl⟩⟩
    · exact Or.inl hk
    · exact absurd rfl hne
    · exact Or.inr ⟨j, hj, rfl⟩
  · rintro (hk | ⟨j, hj, rfl⟩)
    · exact ⟨by omega, Or.inl hk⟩
    · refine ⟨fun heq => he ?_, Or.inr ⟨j, Or.inr hj, rfl⟩⟩
      rwa [← Nat.add_left_cancel heq]

omit sb hs hip ho in
theorem directSlots_finRange : directSlots (List.finRange NDIRECT) = Finset.range NSLOT := by
  have hle : NDIRECT ≤ NSLOT := by decide
  ext k
  simp only [directSlots, Finset.mem_union, List.mem_toFinset, List.mem_map, List.mem_finRange,
    true_and, Finset.mem_Ico, Finset.mem_range]
  constructor
  · rintro (⟨i, rfl⟩ | hk)
    · exact lt_of_lt_of_le i.isLt hle
    · exact hk.2
  · intro hk
    by_cases h : k < NDIRECT
    · exact Or.inl ⟨⟨k, h⟩, rfl⟩
    · exact Or.inr ⟨by omega, hk⟩

omit sb hs hip ho in
theorem entrySlots_range : entrySlots (List.range NINDIRECT) = directSlots [] := by
  ext k
  simp only [entrySlots, directSlots, Finset.mem_insert, List.mem_toFinset, List.mem_map,
    List.mem_range, List.map_nil, List.toFinset_nil, Finset.empty_union, Finset.mem_Ico]
  unfold NSLOT
  constructor
  · rintro (rfl | ⟨e, he, rfl⟩)
    · omega
    · omega
  · intro hk
    by_cases h : k = NDIRECT
    · exact Or.inl h
    · exact Or.inr ⟨k - (NDIRECT + 1), by omega, by omega⟩

theorem itruncEntry_spec {e : ℕ} (h : Truncating ip R s t) (hk : NDIRECT + 1 + e ∈ R)
    (hind : (s.itable ip).d.addrs INDIRECT ≠ 0) :
    Wp (itruncEntry (s.disk ((s.itable ip).d.addrs INDIRECT)) e) t
      (fun _ t' => Truncating ip (R.erase (NDIRECT + 1 + e)) s t') (fun _ => False) := by
  have hentry := addr_entry s.disk (s.itable ip).d e
  rw [if_neg hind] at hentry
  unfold itruncEntry
  by_cases h0 : (s.disk ((s.itable ip).d.addrs INDIRECT)).uint e = 0
  · rw [if_pos h0]
    refine Wp.pure (h.shrink (Finset.erase_subset _ _) fun k hkR hk' => ?_)
    have : k = NDIRECT + 1 + e := by
      by_contra hne
      exact hk' (Finset.mem_erase.mpr ⟨hne, hkR⟩)
    rw [this, hentry, h0]
  · rw [if_neg h0]
    have hne : addr s.disk (s.itable ip).d (NDIRECT + 1 + e) ≠ 0 := by rwa [hentry]
    have hfree := h.free hs hip hk hne
    have honly : (s.itable ip).d.only (R.erase (NDIRECT + 1 + e)) = (t.itable ip).d := by
      rw [h.d_eq]
      apply Dinode.only_congr
      intro j _
      rw [Finset.mem_erase]
      have := j.isLt
      exact and_iff_right (by omega)
    rw [honly] at hfree
    have hrun := bfree_run (h.spare_used hk hne) (by rwa [h.outstanding])
    rw [← hentry]
    refine Wp.of_run hrun ?_
    rw [← put_self (s := t.drop _)]
    exact hfree

theorem itruncIndirect_spec (h : Truncating ip (directSlots []) s t) :
    Wp (itruncIndirect ip) t (fun _ t' => Truncating ip ∅ s t') (fun _ => False) := by
  have haddr := addr_indirect s.disk (s.itable ip).d
  have hd : (t.itable ip).d.addrs INDIRECT = (s.itable ip).d.addrs INDIRECT := by
    have hin : INDIRECT.val ∈ directSlots [] := by
      rw [← entrySlots_range]
      exact Finset.mem_insert_self ..
    rw [h.d_eq, Dinode.only_of_mem hin]
  unfold itruncIndirect
  refine Wp.step_run (getInode_run ip t) ?_
  rw [hd]
  by_cases hind : (s.itable ip).d.addrs INDIRECT = 0
  · rw [if_pos hind]
    refine Wp.pure (h.shrink (Finset.empty_subset _) fun k hk _ => ?_)
    have hk' : NDIRECT ≤ k := by
      simp only [directSlots, List.map_nil, List.toFinset_nil, Finset.empty_union,
        Finset.mem_Ico] at hk
      exact hk.1
    obtain ⟨e, rfl⟩ := Nat.exists_eq_add_of_le hk'
    cases e with
    | zero => rw [Nat.add_zero, haddr, hind]
    | succ e => rw [Nat.add_comm e, ← Nat.add_assoc, addr_entry, if_pos hind]
  · rw [if_neg hind]
    have hne : addr s.disk (s.itable ip).d NDIRECT ≠ 0 := by rwa [haddr]
    have hdata := (hs.held hip).slot_data hne
    rw [haddr] at hdata
    have hblock : t.disk ((s.itable ip).d.addrs INDIRECT) =
        s.disk ((s.itable ip).d.addrs INDIRECT) := h.rest _ fun x hx => hdata.ne_BBLOCK hx
    refine Wp.step_run (bread_run ..) ?_
    rw [hblock, ← entrySlots_range] at *
    have hloop : Wp ((List.range NINDIRECT).forM
        (itruncEntry (s.disk ((s.itable ip).d.addrs INDIRECT)))) t
        (fun _ t' => List.Nodup ([] : List ℕ) ∧ Truncating ip (entrySlots []) s t')
        (fun _ => False) := by
      refine Wp.forM (I := fun l t => l.Nodup ∧ Truncating ip (entrySlots l) s t)
        ⟨List.nodup_range, h⟩ ?_
      rintro e rest u ⟨hnodup, hu⟩
      rw [List.nodup_cons] at hnodup
      refine (itruncEntry_spec hs hip ho hu ?_ hind).mono fun _ u' hu' => ⟨hnodup.2, ?_⟩
      · simp [entrySlots]
      · rwa [entrySlots_erase hnodup.1] at hu'
    refine Wp.step hloop ?_
    rintro - u ⟨-, hu⟩
    have hused := hu.spare_used (k := NDIRECT) (by decide) hne
    have hfree := hu.free hs hip (k := NDIRECT) (by decide) hne
    rw [haddr] at hused hfree
    refine Wp.step_run (bfree_run hused (by rwa [hu.outstanding])) ?_
    have herase : (entrySlots []).erase INDIRECT.val = ∅ := by decide
    have hset := Dinode.only_erase (d := (s.itable ip).d) (entrySlots []) INDIRECT
    rw [herase] at hset
    change Truncating ip ((entrySlots []).erase INDIRECT.val) s _ at hfree
    change Truncating ip ((entrySlots []).erase INDIRECT.val) s ((u.drop _).setD ip
      ((s.itable ip).d.only ((entrySlots []).erase INDIRECT.val))) at hfree
    rw [herase, ← hset, ← hu.d_eq] at hfree
    exact Wp.of_run (setDinode_run _) hfree

theorem itrunc_spec : Wp (itrunc ip) s (fun _ s' => Clean s' ∧
    s'.view = s.view.store (s.itable ip).inum (some { afile s ip with data := [] }) ∧
    (s'.itable ip).d = (s.itable ip).d.cleared ∧ Logged {(s.itable ip).inum} 0 ∅ s s')
    (fun _ => False) := by
  unfold itrunc
  have hloop : Wp ((List.finRange NDIRECT).forM fun i => itruncDirect ip i.castSucc) s
      (fun _ t' => List.Nodup ([] : List (Fin NDIRECT)) ∧ Truncating ip (directSlots []) s t')
      (fun _ => False) := by
    refine Wp.forM (I := fun l t => l.Nodup ∧ Truncating ip (directSlots l) s t)
      ⟨List.nodup_finRange _, ?_⟩ ?_
    · rw [directSlots_finRange]
      exact Truncating.start hs hip
    · rintro i rest u ⟨hnodup, hu⟩
      rw [List.nodup_cons] at hnodup
      refine (itruncDirect_spec hs hip ho hu i.castSucc).mono fun _ u' hu' => ⟨hnodup.2, ?_⟩
      rw [← directSlots_erase hnodup.1]
      exact hu'
  refine Wp.step hloop ?_
  rintro - t ⟨-, ht⟩
  refine Wp.step (itruncIndirect_spec hs hip ho ht) fun _ u hu => ?_
  refine Wp.step_run (setDinode_run _) ?_
  have hclear : { (u.itable ip).d with size := 0 } = (s.itable ip).d.cleared := by
    rw [hu.d_eq]
    rfl
  rw [hclear]
  have hou : 1 ≤ u.outstanding := by rwa [hu.outstanding]
  refine Wp.of_run (iupdate_run hou) ?_
  have hdinode (i : ℕ) (hi : i < sb.ninodes) : u.dinode i = s.dinode i :=
    dinode_congr (hu.rest _ fun x _ => (IBLOCK_ne_BBLOCK hi x).symm)
  have hinum : (u.itable ip).inum = (s.itable ip).inum := by
    rw [hu.frame]
    exact put_inum
  have htype : (s.itable ip).d.type ≠ 0 := (hs.coherent ip hip).2
  have hahead : Ahead ip s (u.setD ip (s.itable ip).d.cleared) := by
    refine ⟨?_, ?_, ?_, hdinode, ?_⟩
    · rw [setD_d]
      unfold State.setD
      have hput (disk : ℕ → Block) (lh : List ℕ) (d : Dinode) :
          u.put ip disk lh d = s.put ip disk lh d := by
        rw [hu.frame, put_put]
      exact hput ..
    · have hf := hu.files
      simp only [Finset.notMem_empty, false_and, exists_false, and_false] at hf
      refine Files.inoCongr hf fun i hi => ?_
      rw [setD_live]
      unfold State.live
      rw [hinum, Function.update_idem]
      by_cases h : i = (s.itable ip).inum
      · rw [h, Function.update_self, Function.update_self]
      · rw [Function.update_of_ne h, Function.update_of_ne h, hdinode i hi]
    · rw [setD_d]
      exact ⟨by norm_num [Dinode.cleared], fun _ => by norm_num [Dinode.cleared]⟩
    · intro i hi ha o
      apply content_of_blocks
      intro k hk hne
      exact hu.rest _ fun x hx => (hs.files.slot_data ha hk hne).ne_BBLOCK hx
  have htype' : ((u.setD ip (s.itable ip).d.cleared).itable ip).d.type ≠ 0 := by
    rw [setD_d]
    exact htype
  refine ⟨hahead.flush_clean hs hip.ref htype', ?_, setD_d, ?_⟩
  · have hview := hahead.flush_view (hs.inum_lt ip hip.ref)
    rw [fileOf_afile htype'] at hview
    have hafile : afile (u.setD ip (s.itable ip).d.cleared) ip = { afile s ip with data := [] } := by
      unfold afile
      rw [setD_d]
      rfl
    rw [hview, hafile]
  · have hl := hu.logged.trans ((Logged.flush (u.setD ip (s.itable ip).d.cleared) ip).congr
      rfl rfl rfl rfl)
    have hinum' : ((u.setD ip (s.itable ip).d.cleared).itable ip).inum = (s.itable ip).inum :=
      put_inum.trans hinum
    rw [hinum', Set.empty_union, Set.union_self] at hl
    exact hl

end Trunc

end

end Xv6.Fs
