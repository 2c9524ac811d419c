import Xv6.Sched.Monitor
import Xv6.Library.Run

/-! # Soundness of the rule for condition channels

Each move of the machine keeps the invariant of a sound program, so it holds in
every state of every run.
-/
namespace Xv6.Sched
open Kernel Library

variable {n : ℕ} {D C X Λ : Type}

variable {S : Spec n D C Λ} {prog : Fin n → Λ → Act D C X Λ}
  {s s' : Machine n D C Λ} {e : Event n X}

theorem Good.own_run (h : Good S s) {p : Fin n} {k : Λ} (ht : s.thread p = .run k) :
    S.own p k s.data := by
  simpa [ht, Thread.point] using h.own p

theorem Good.seen_run (h : Good S s) {p : Fin n} {k : Λ} (ht : s.thread p = .run k)
    (hk : S.holds k) : S.seen p k s.data := by
  have hseen := h.seen p
  rw [ht] at hseen
  exact hseen hk

/-- `lk` and the data stay, so the holder has to answer only for its new point. -/
theorem Good.hold_goto (h : Good S s) {p : Fin n} {t : Thread n C Λ} (htable : Table s')
    (hthread : s'.thread = Function.update s.thread p t) (hdata : s'.data = s.data)
    (hlk : s'.lk = s.lk) (hkilled : s'.killed = s.killed)
    (hstate : ∀ q, s'.state q = .sleeping → s.state q = .sleeping ∧ s'.chan q = s.chan q)
    (hold : S.Holder (s.thread p)) (hold' : S.Holder t)
    (hpoint : S.own p t.point s.data) (hshape : S.Shape p t) (hseen : S.Seen p s.data t)
    (hpending : ∀ q c, s'.Drowsy q c → S.Pending p c q (s.thread p) → S.Pending p c q t)
    (hawake : ∀ q c, S.Awake p c q t → s'.Drowsy q c → S.Awake p c q (s.thread p))
    (hcalm : S.Calm p t → s.killed p = false) : Good S s' := by
  have hself : s'.thread p = t := by rw [hthread, Function.update_self]
  have hother : ∀ q, q ≠ p → s'.thread q = s.thread q := fun q hq => by
    rw [hthread, Function.update_of_ne hq]
  have hsleep3 : ∀ c k, s'.thread p ≠ .sleep3 c k := by
    intro c k hk
    rw [hself] at hk
    subst hk
    exact hold'
  refine h.hold htable hother hdata hlk hkilled ?_ hold ?_ ?_ ?_ ?_ ?_ ?_ ?_
  · rwa [hself]
  · rwa [hself]
  · rwa [hself]
  · rwa [hself]
  · intro q c hd
    exact hd.of_le hother hsleep3 (hstate q)
  · intro q c hd _ hpend
    rw [hself]
    exact hpending q c hd hpend
  · intro q c ha hd
    rw [hself] at ha
    exact hawake q c ha hd
  · rwa [hself]

theorem Good.acquire (h : Good S s) (hs : S.Sound prog) {p : Fin n} {k k' : Λ}
    (ht : s.thread p = .run k) (ha : prog p k = .acquire k') (hlk : s.lk = none)
    (htable : Table ({ s with lk := some p }.goto p (.run k'))) :
    Good S ({ s with lk := some p }.goto p (.run k')) := by
  have hact := hs.act p k
  rw [ha] at hact
  obtain ⟨hk, hentry, ho⟩ := hact
  refine h.enter hs.calm htable hlk rfl rfl rfl (ho _ h.inv (h.own_run ht)) hentry ?_
  intro q c hd
  exact hd.of_le (p := p) (fun q hq => by simp [hq]) (by simp) fun hs => ⟨hs, rfl⟩

theorem Good.release (h : Good S s) (hs : S.Sound prog) {p : Fin n} {k k' : Λ}
    (ht : s.thread p = .run k) (ha : prog p k = .release k')
    (htable : Table ({ s with lk := none }.goto p (.run k'))) :
    Good S ({ s with lk := none }.goto p (.run k')) := by
  have hact := hs.act p k
  rw [ha] at hact
  obtain ⟨hk, hk', howes, ho⟩ := hact
  refine h.give hs.calm htable (p := p) ?_ rfl rfl ?_ ?_ ?_ ?_ ?_ ?_
  · intro q hq
    simp [hq]
  · simpa [Thread.point] using ho _ h.inv (h.own_run ht) (h.seen_run ht hk)
  · simpa [ht, Spec.Holder] using hk
  · simpa [Spec.Holder] using hk'
  · simp [Spec.Shape]
  · intro q c
    simpa [ht, Spec.Pending] using howes c
  · intro q c hd
    exact Or.inl (hd.of_le (p := p) (fun q hq => by simp [hq]) (by simp) fun hs => ⟨hs, rfl⟩)

theorem Good.sleep (h : Good S s) (hs : S.Sound prog) {p : Fin n} {k k' : Λ} {c : C}
    (ht : s.thread p = .run k) (ha : prog p k = .sleep c k')
    (htable : Table (s.goto p (.sleep1 c k'))) : Good S (s.goto p (.sleep1 c k')) := by
  have hact := hs.act p k
  rw [ha] at hact
  obtain ⟨hk, hentry, howes, ho⟩ := hact
  have hnot := ho _ h.inv (h.own_run ht) (h.seen_run ht hk)
  refine h.hold_goto htable rfl rfl rfl rfl (fun q hq => ⟨hq, rfl⟩) ?_ trivial hnot.2 hentry hnot.1
    ?_ nofun nofun
  · rw [ht]
    exact hk
  · intro q c' _ hpend
    rw [ht] at hpend
    exact absurd hpend (howes c')

theorem Good.wakeup (h : Good S s) (hs : S.Sound prog) {p : Fin n} {k k' : Λ} {c : C}
    (ht : s.thread p = .run k) (ha : prog p k = .wakeup c k')
    (htable : Table (s.goto p (.wake1 c 0 k'))) : Good S (s.goto p (.wake1 c 0 k')) := by
  have hact := hs.act p k
  rw [ha] at hact
  obtain ⟨hk, hk', howes, hcl, hcalm, ho⟩ := hact
  have hafter := ho _ h.inv (h.own_run ht) (h.seen_run ht hk)
  refine h.hold_goto htable rfl rfl rfl rfl (fun q hq => ⟨hq, rfl⟩) ?_ hk' hafter.1 hk'
    (fun _ => hafter.2) ?_ ?_ ?_
  · rw [ht]
    exact hk
  · intro q c' _ hpend
    rw [ht] at hpend
    exact (howes c' hpend).imp_right fun hc => ⟨hc, Nat.zero_le _⟩
  · intro q c' haw _
    rw [ht]
    rcases haw with ⟨_, hlt⟩ | ⟨hne, haw⟩
    · exact absurd hlt (Nat.not_lt_zero _)
    · exact ⟨hk, (hcl c' haw).resolve_right hne⟩
  · intro hc
    exact h.calm p (by rw [ht]; exact hcalm hc)

theorem Good.killed (h : Good S s) (hs : S.Sound prog) {p : Fin n} {k : Λ} {k' : Bool → Λ}
    (ht : s.thread p = .run k) (ha : prog p k = .killed k')
    (htable : Table (s.goto p (.run (k' (s.killed p))))) :
    Good S (s.goto p (.run (k' (s.killed p)))) := by
  have hact := hs.act p k
  rw [ha] at hact
  have hb : s.killed p = true → ¬ S.calm p k := by
    intro hkd hc
    have := h.calm p (by rw [ht]; exact hc)
    simp [hkd] at this
  obtain ⟨hk, howes, hcl, hcalm, ho⟩ := hact (s.killed p) hb
  have hafter := ho _ h.inv (h.own_run ht) (h.seen_run ht)
  by_cases hkk : S.holds k
  · refine h.hold_goto htable rfl rfl rfl rfl (fun q hq => ⟨hq, rfl⟩) ?_ (hk.2 hkk) hafter.1 trivial
      hafter.2 ?_ ?_ hcalm
    · rw [ht]
      exact hkk
    · intro q c _ hpend
      rw [ht] at hpend
      exact howes c hpend
    · intro q c haw _
      rw [ht]
      exact ⟨hkk, hcl c haw.2⟩
  · refine h.quiet hs.calm htable (p := p) (fun q hq => by simp [hq]) rfl rfl rfl ?_ ?_ ?_ ?_ ?_
    · simpa [Thread.point] using hafter.1
    · simpa [ht, Spec.Holder] using hkk
    · simpa [Spec.Holder] using fun hc => hkk (hk.1 hc)
    · simp [Spec.Shape]
    · intro q c hd
      exact hd.of_le (p := p) (fun q hq => by simp [hq]) (by simp) fun hs => ⟨hs, rfl⟩

theorem Good.sleepLock (h : Good S s) {p : Fin n} {k : Λ} {c : C}
    (ht : s.thread p = .sleep1 c k)
    (htable : Table ((s.lockProc p (.proc p)).goto p (.sleep2 c k))) :
    Good S ((s.lockProc p (.proc p)).goto p (.sleep2 c k)) := by
  have hshape := h.shape p
  have hown := h.own p
  have hseen := h.seen p
  rw [ht] at hshape hown hseen
  refine h.hold_goto htable rfl rfl rfl rfl (fun q hq => ⟨hq, rfl⟩) ?_ trivial hown hshape hseen ?_
    nofun nofun
  · rw [ht]
    trivial
  · intro q c' _ hpend
    rw [ht] at hpend
    exact hpend.elim

theorem Good.sleepRelease (h : Good S s) (hs : S.Sound prog) {p : Fin n} {k : Λ} {c : C}
    (ht : s.thread p = .sleep2 c k) (htable : Table ({ s with lk := none }.goto p (.sleep3 c k))) :
    Good S ({ s with lk := none }.goto p (.sleep3 c k)) := by
  have hshape := h.shape p
  have hown := h.own p
  have hseen := h.seen p
  rw [ht] at hshape hown hseen
  refine h.give hs.calm htable (p := p) ?_ rfl rfl ?_ ?_ ?_ ?_ ?_ ?_
  · intro q hq
    simp [hq]
  · simpa [Thread.point] using hown
  · simp [ht, Spec.Holder]
  · simp [Spec.Holder]
  · simpa [Spec.Shape] using hshape
  · intro q c'
    simp [ht, Spec.Pending]
  · intro q c' hd
    rcases hd with ⟨j, hj⟩ | hd
    · by_cases hq : q = p
      · -- the condition was false when this process decided to sleep
        subst hq
        simp only [Machine.goto_thread, Function.update_self, Thread.sleep3.injEq] at hj
        exact Or.inr (hj.1 ▸ hseen)
      · simp only [Machine.goto_thread, Function.update_of_ne hq] at hj
        exact Or.inl (Or.inl ⟨j, hj⟩)
    · exact Or.inl (Or.inr hd)

theorem Good.wakeSelf (h : Good S s) {p : Fin n} {k : Λ} {c : C}
    (ht : s.thread p = .wake1 c p k) (htable : Table (s.goto p (.wake1 c (p + 1) k))) :
    Good S (s.goto p (.wake1 c (p + 1) k)) := by
  have hshape := h.shape p
  have hown := h.own p
  have hseen := h.seen p
  have hcalm := h.calm p
  rw [ht] at hshape hown hseen hcalm
  have hself : ∀ c', ¬ (s.goto p (.wake1 c (p + 1) k)).Drowsy p c' := by
    rintro c' (⟨j, hj⟩ | ⟨hst, -⟩)
    · simp at hj
    · have := h.table.sleeping p hst
      rw [ht] at this
      exact this
  refine h.hold_goto htable rfl rfl rfl rfl (fun q hq => ⟨hq, rfl⟩) ?_ hshape hown hshape hseen ?_ ?_
    hcalm
  · rw [ht]
    exact hshape
  · intro q c' hd hpend
    rw [ht] at hpend
    have hq : q ≠ p := by
      rintro rfl
      exact hself c' hd
    refine hpend.imp_right fun hc => ⟨hc.1, ?_⟩
    have := Fin.val_ne_of_ne hq
    omega
  · intro q c' haw hd
    have hq : q ≠ p := by
      rintro rfl
      exact hself c' hd
    rw [ht]
    refine haw.imp_left fun hc => ⟨hc.1, ?_⟩
    have := Fin.val_ne_of_ne hq
    omega

theorem Good.wakeLock (h : Good S s) {p i : Fin n} {k : Λ} {c : C}
    (ht : s.thread p = .wake1 c i k)
    (htable : Table ((s.lockProc i (.proc p)).goto p (.wake2 c i k))) :
    Good S ((s.lockProc i (.proc p)).goto p (.wake2 c i k)) := by
  have hshape := h.shape p
  have hown := h.own p
  have hseen := h.seen p
  have hcalm := h.calm p
  rw [ht] at hshape hown hseen hcalm
  refine h.hold_goto htable rfl rfl rfl rfl (fun q hq => ⟨hq, rfl⟩) ?_ hshape hown hshape hseen ?_ ?_
    hcalm
  · rw [ht]
    exact hshape
  · intro q c' _ hpend
    rw [ht] at hpend
    exact hpend
  · intro q c' haw _
    rw [ht]
    exact haw

theorem Good.wakeEnd (h : Good S s) {p : Fin n} {i : ℕ} {k : Λ} {c : C}
    (ht : s.thread p = .wake1 c i k) (hi : n ≤ i) (htable : Table (s.goto p (.run k))) :
    Good S (s.goto p (.run k)) := by
  have hshape := h.shape p
  have hown := h.own p
  have hseen := h.seen p
  have hcalm := h.calm p
  rw [ht] at hshape hown hseen hcalm
  refine h.hold_goto htable rfl rfl rfl rfl (fun q hq => ⟨hq, rfl⟩) ?_ hshape hown trivial hseen ?_ ?_
    hcalm
  · rw [ht]
    exact hshape
  · intro q c' _ hpend
    rw [ht] at hpend
    refine hpend.resolve_right fun hc => ?_
    have := q.isLt
    omega
  · intro q c' haw _
    rw [ht]
    by_cases hc : c' = c
    · exact Or.inl ⟨hc, by omega⟩
    · exact Or.inr ⟨hc, haw.2⟩

/-- A kill hits no process that is known to be alive. -/
def Spec.Guard (S : Spec n D C Λ) (s : Machine n D C Λ) (e : Event n X) : Prop :=
  ∀ p, e = .kkill p → ¬ S.Calm p (s.thread p)

/-- Nothing but a wakeup changes a process that waits for the scheduler. -/
theorem Good.sched (h : Good S s) (hs : S.Sound prog) {p : Fin n} (htable : Table s')
    (hthread : ∀ q, q ≠ p → s'.thread q = s.thread q) (hdata : s'.data = s.data)
    (hlk : s'.lk = s.lk) (hkilled : s'.killed = s.killed)
    (hpoint : (s'.thread p).point = (s.thread p).point)
    (hfree : ¬ S.Holder (s.thread p)) (hfree' : ¬ S.Holder (s'.thread p))
    (hshape : S.Shape p (s'.thread p)) (hsleep : ∀ c k, s'.thread p ≠ .sleep3 c k)
    (hstate : ∀ q, s'.state q = .sleeping → s.state q = .sleeping ∧ s'.chan q = s.chan q) :
    Good S s' := by
  refine h.quiet hs.calm htable hthread hdata hlk hkilled ?_ hfree hfree' hshape ?_
  · rw [hpoint]
    exact h.own p
  · intro q c hd
    exact hd.of_le hthread hsleep (hstate q)

theorem Good.sleepSwitch (h : Good S s) (hs : S.Sound prog) {p : Fin n} {c : C} {k : Λ}
    (ht : s.thread p = .sleep3 c k)
    (htable : Table ((((s.setChan p (some c)).setState p .sleeping).lockProc p .cpu).goto p
      (.switched (.slept k)))) :
    Good S ((((s.setChan p (some c)).setState p .sleeping).lockProc p .cpu).goto p
      (.switched (.slept k))) := by
  have hshape := h.shape p
  have hown := h.own p
  rw [ht] at hshape hown
  refine h.quiet hs.calm htable (p := p) ?_ rfl rfl rfl ?_ ?_ ?_ ?_ ?_
  · intro q hq
    simp [hq]
  · simpa [Thread.point, Resume.point] using hown
  · simp [ht, Spec.Holder]
  · simp [Spec.Holder]
  · simpa [Spec.Shape, Spec.ShapeResume] using hshape
  · -- it was drowsy before `p->state = SLEEPING` already
    intro q c' hd
    by_cases hq : q = p
    · subst hq
      rcases hd with ⟨j, hj⟩ | ⟨-, hc⟩
      · simp at hj
      · simp only [Machine.goto_chan, Machine.lockProc_chan, Machine.setState_chan,
          Machine.setChan_chan, Function.update_self, Option.some.injEq] at hc
        exact Or.inl ⟨k, hc ▸ ht⟩
    · simpa [Machine.Drowsy, hq] using hd

theorem Good.start {d : D} {k : Fin n → Λ} (hd : S.inv d) (hown : ∀ p, S.own p (k p) d)
    (hfree : ∀ p, ¬ S.holds (k p)) : Good S (Machine.start d k) where
  table := Table.start d k
  lk p := by simp [Machine.start, Spec.Holder]
  shape p := hfree p
  inv := hd
  own := hown
  seen _ := trivial
  pending q c hd := by simp [Machine.Drowsy, Machine.start] at hd
  awake _ _ _ h := h.elim
  calm _ h := h.elim

theorem Good.not_ready (h : Good S s) (hlk : s.lk = none) {p : Fin n} {c : C}
    (hst : s.state p = .sleeping) (hc : s.chan p = some c) : ¬ S.ready c s.data := by
  intro hr
  obtain ⟨u, hu, -⟩ := h.pending p c (Or.inr ⟨hst, hc⟩) hr
  simp [hlk] at hu

theorem Good.act_no_panic (h : Good S s) (hs : S.Sound prog) {msg : String}
    (hsafe : S.Safe prog msg) {p : Fin n} {x : X} {k : Λ} (ht : s.thread p = .run k) :
    actStep s p x (prog p k) ≠ .error (.panic msg) := by
  have hact := hs.act p k
  cases ha : prog p k with
  | acquire k' =>
    simp only [actStep]
    split <;> simp
  | release k' =>
    rw [ha] at hact
    have hlk : s.lk = some p := (h.lk p).2 (by rw [ht]; exact hact.1)
    simp [actStep, hlk]
  | step f =>
    simp only [actStep]
    split <;> simp
  | sleep c k' => simp [actStep]
  | wakeup c k' => simp [actStep]
  | killed k' =>
    simp only [actStep]
    split <;> simp
  | panic m =>
    intro hm
    simp only [actStep, Except.error.injEq, Stop.panic.injEq] at hm
    exact hsafe p k (hm ▸ ha) _ h.inv (h.own_run ht) (h.seen_run ht)

variable [DecidableEq C]

/-- `wakeup` passes process `i`, which then does not sleep on the channel: it
would have to hold its own lock to be just before that. -/
theorem Good.wakeTest (h : Good S s) {p i : Fin n} {k : Λ} {c : C}
    (ht : s.thread p = .wake2 c i k)
    (htable : Table (((s.rouse i c).unlockProc i).goto p (.wake1 c (i + 1) k))) :
    Good S (((s.rouse i c).unlockProc i).goto p (.wake1 c (i + 1) k)) := by
  have hshape := h.shape p
  have hown := h.own p
  have hseen := h.seen p
  have hcalm := h.calm p
  rw [ht] at hshape hown hseen hcalm
  have hawake : ¬ (((s.rouse i c).unlockProc i).goto p (.wake1 c (i + 1) k)).Drowsy i c := by
    rintro (⟨j, hj⟩ | ⟨hst, hc⟩)
    · by_cases hip : i = p
      · subst hip
        simp at hj
      · simp only [Machine.goto_thread, Function.update_of_ne hip, Machine.unlockProc_thread,
          Machine.rouse_thread] at hj
        have h1 := h.table.owner i i (by rw [hj]; rfl)
        have h2 := h.table.owner p i (by rw [ht]; rfl)
        rw [h1] at h2
        exact hip (Owner.proc.inj (Option.some.inj h2))
    · exact (rouse_sleeping hst).2 ⟨rfl, hc⟩
  refine h.hold_goto htable rfl rfl rfl rfl (fun q hq => ⟨(rouse_sleeping hq).1, rfl⟩) ?_ hshape hown
    hshape hseen ?_ ?_ hcalm
  · rw [ht]
    exact hshape
  · intro q c' hd hpend
    rw [ht] at hpend
    refine hpend.imp_right fun hc => ⟨hc.1, ?_⟩
    have hq : q ≠ i := by
      rintro rfl
      exact hawake (hc.1 ▸ hd)
    have := Fin.val_ne_of_ne hq
    have := Fin.le_def.1 hc.2
    omega
  · intro q c' haw hd
    rw [ht]
    refine haw.imp_left fun hc => ⟨hc.1, ?_⟩
    have hq : q ≠ i := by
      rintro rfl
      exact hawake (hc.1 ▸ hd)
    have := Fin.val_ne_of_ne hq
    rw [Fin.lt_def]
    omega

theorem Good.move (h : Good S s) (hs : S.Sound prog) (hm : Move prog s e s') (hg : S.Guard s e) :
    Good S s' := by
  have htable := h.table.move hm
  cases hm with
  | acquire ht ha hlk => exact h.acquire hs ht ha hlk htable
  | release ht ha hlk => exact h.release hs ht ha htable
  | @step p x k f d k' ht ha hf =>
    have hact := hs.act p k
    rw [ha] at hact
    exact h.step ht (hact _ _ _ _ hf h.inv (h.own_run ht) (h.seen_run ht)) htable
  | sleep ht ha => exact h.sleep hs ht ha htable
  | wakeup ht ha => exact h.wakeup hs ht ha htable
  | killed ht ha hp => exact h.killed hs ht ha htable
  | sleepLock ht hp => exact h.sleepLock ht htable
  | sleepRelease ht hlk => exact h.sleepRelease hs ht htable
  | sleepSwitch ht => exact h.sleepSwitch hs ht htable
  | @relock p x k ht hlk =>
    have hshape := h.shape p
    have hown := h.own p
    rw [ht] at hshape hown
    refine h.enter hs.calm htable hlk rfl rfl rfl hown hshape ?_
    intro q c hd
    exact hd.of_le (p := p) (fun q hq => by simp [hq]) (by simp) fun hs => ⟨hs, rfl⟩
  | wakeSelf ht => exact h.wakeSelf ht htable
  | wakeLock ht hi hp => exact h.wakeLock ht htable
  | wakeEnd ht hi => exact h.wakeEnd ht hi htable
  | wakeTest ht => exact h.wakeTest ht htable
  | @yieldSwitch p x r ht =>
    have hshape := h.shape p
    rw [ht] at hshape
    refine h.sched hs htable (p := p) ?_ rfl rfl rfl ?_ ?_ ?_ ?_ ?_ ?_
    · intro q hq
      simp [hq]
    · simp [ht, Thread.point]
    · simp [ht, Spec.Holder]
    · simp [Spec.Holder]
    · simpa [Spec.Shape] using hshape
    · simp
    · intro q hq
      have hqp : q ≠ p := by
        rintro rfl
        simp at hq
      simpa [hqp] using hq
  | @tidySleep p x k ht =>
    have hshape := h.shape p
    rw [ht] at hshape
    refine h.sched hs htable (p := p) ?_ rfl rfl rfl ?_ ?_ ?_ ?_ ?_ ?_
    · intro q hq
      simp [hq]
    · simp [ht, Thread.point, Resume.point]
    · simp [ht, Spec.Holder]
    · simp [Spec.Holder]
    · simpa [Spec.Shape, Spec.ShapeResume] using hshape
    · simp
    · intro q hq
      have hqp : q ≠ p := by
        rintro rfl
        have hout := h.table.sleeping q hq
        rw [ht] at hout
        exact hout
      exact ⟨hq, by simp [hqp]⟩
  | @tidyYield p x k ht =>
    have hshape := h.shape p
    rw [ht] at hshape
    refine h.sched hs htable (p := p) ?_ rfl rfl rfl ?_ ?_ ?_ ?_ ?_ fun q hq => ⟨hq, rfl⟩
    · intro q hq
      simp [hq]
    · simp [ht, Thread.point, Resume.point]
    · simp [ht, Spec.Holder]
    · simpa [Spec.Holder, Spec.Shape, Spec.ShapeResume] using hshape
    · simp [Spec.Shape]
    · simp
  | @tidyRelock p x k ht =>
    have hshape := h.shape p
    rw [ht] at hshape
    refine h.sched hs htable (p := p) ?_ rfl rfl rfl ?_ ?_ ?_ ?_ ?_ fun q hq => ⟨hq, rfl⟩
    · intro q hq
      simp [hq]
    · simp [ht, Thread.point, Resume.point]
    · simp [ht, Spec.Holder]
    · simp [Spec.Holder]
    · simpa [Spec.Shape, Spec.ShapeResume] using hshape
    · simp
  | @yieldRun p k ht hp hlk =>
    have hfree : ¬ S.Holder (s.thread p) := fun hh => hlk ((h.lk p).2 hh)
    refine h.sched hs htable (p := p) ?_ rfl rfl rfl ?_ hfree ?_ ?_ ?_ fun q hq => ⟨hq, rfl⟩
    · intro q hq
      simp [hq]
    · simp [ht, Thread.point, Resume.point]
    · simp [Spec.Holder]
    · simpa [ht, Spec.Holder, Spec.Shape, Spec.ShapeResume] using hfree
    · simp
  | @yieldRelock p k ht hp hlk =>
    have hshape := h.shape p
    rw [ht] at hshape
    refine h.sched hs htable (p := p) ?_ rfl rfl rfl ?_ ?_ ?_ ?_ ?_ fun q hq => ⟨hq, rfl⟩
    · intro q hq
      simp [hq]
    · simp [ht, Thread.point, Resume.point]
    · simp [ht, Spec.Holder]
    · simp [Spec.Holder]
    · simpa [Spec.Shape, Spec.ShapeResume] using hshape
    · simp
  | schedAcquire hp =>
    exact ⟨htable, h.lk, h.shape, h.inv, h.own, h.seen, h.pending, h.awake, h.calm⟩
  | @schedSwitch p r ht hp hst =>
    have hshape := h.shape p
    rw [ht] at hshape
    refine h.sched hs htable (p := p) ?_ rfl rfl rfl ?_ ?_ ?_ ?_ ?_ ?_
    · intro q hq
      simp [hq]
    · simp [ht, Thread.point]
    · simp [ht, Spec.Holder]
    · simp [Spec.Holder]
    · simpa [Spec.Shape] using hshape
    · simp
    · intro q hq
      have hqp : q ≠ p := by
        rintro rfl
        simp at hq
      simpa [hqp] using hq
  | schedSkip ht hp hst =>
    exact ⟨htable, h.lk, h.shape, h.inv, h.own, h.seen, h.pending, h.awake, h.calm⟩
  | @schedRelease p r ht =>
    have hshape := h.shape p
    rw [ht] at hshape
    refine h.sched hs htable (p := p) ?_ rfl rfl rfl ?_ ?_ ?_ ?_ ?_ fun q hq => ⟨hq, rfl⟩
    · intro q hq
      simp [hq]
    · simp [ht, Thread.point]
    · simp [ht, Spec.Holder]
    · simp [Spec.Holder]
    · simpa [Spec.Shape] using hshape
    · simp
  | kkill hp => exact h.kill htable (hg _ rfl)

/-- A program that relies on no process being alive allows every kill. -/
theorem Good.reach_all {init : Machine n D C Λ → Prop} (hs : S.Sound prog)
    (hcalm : ∀ p k, ¬ S.calm p k) (hinit : ∀ s, init s → Good S s)
    (h : Reach (Sched.step prog) (fun _ _ => True) init s) : Good S s := by
  refine h.invariant hinit fun s e _ s' hgood _ hstep => hgood.move hs (step_cases hstep) ?_
  intro p _ hc
  cases ht : s.thread p <;> rw [ht] at hc
  case run k => exact hcalm p k hc
  case wake1 c i k => exact hcalm p k hc
  case wake2 c i k => exact hcalm p k hc
  all_goals exact hc

/-- What the straight-line code of a program keeps, its runs keep. -/
theorem data_reach {I : D → Prop} {guard : Machine n D C Λ → Event n X → Prop}
    {init : Machine n D C Λ → Prop} (ok : X → Prop)
    (hguard : ∀ s p x, guard s (.proc p x) → ok x) (hinit : ∀ s, init s → I s.data)
    (hstep : ∀ p k f x d d' k', prog p k = .step f → ok x → f x d = some (d', k') → I d → I d')
    (h : Reach (Sched.step prog) guard init s) : I s.data := by
  refine Reach.invariant (I := fun s => I s.data) hinit ?_ h
  intro s e _ s' hs hg hm
  cases step_cases hm with
  | step ht ha hf => exact hstep _ _ _ _ _ _ _ ha (hguard _ _ _ hg) hf hs
  | _ => exact hs

/-- A sound program does not panic where its points rule that out. -/
theorem Good.no_panic (h : Good S s) (hs : S.Sound prog) {msg : String}
    (hsafe : S.Safe prog msg) : nextState prog e s ≠ .error (.panic msg) := by
  cases e with
  | proc p x =>
    cases ht : s.thread p with
    | run k =>
      simp only [nextState, procStep, ht]
      exact h.act_no_panic hs hsafe ht
    | sleep2 c k =>
      have hlk : s.lk = some p := (h.lk p).2 (by rw [ht]; trivial)
      simp [nextState, procStep, ht, hlk]
    | resumed r => cases r <;> simp [nextState, procStep, ht]
    | _ =>
      simp only [nextState, procStep, ht]
      repeat' split
      all_goals simp
  | yield p =>
    simp only [nextState, yieldStep]
    repeat' split
    all_goals simp
  | schedAcquire p =>
    simp only [nextState]
    split <;> simp
  | schedTest p =>
    simp only [nextState, schedTestStep]
    repeat' split
    all_goals simp
  | schedRelease p =>
    simp only [nextState, schedReleaseStep]
    split <;> simp
  | kkill p =>
    simp only [nextState]
    split <;> simp

end Xv6.Sched
