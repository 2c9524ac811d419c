import Mathlib.Tactic

/-! # Exact allocation

Slots refer to resources, and a map marks the resources in use.  The map is exact when it
marks a resource if and only if one slot refers to it, or it is spare: taken but not yet
referred to, or no longer referred to and not yet given back.
-/
namespace Xv6.Library.Allocation

variable {α β : Type} {valid used used' : β → Prop} {ref ref' : α → Option β} {spare : Set β}
  {a : α} {b : β}

structure Exact (valid used : β → Prop) (ref : α → Option β) (spare : Set β) : Prop where
  used_iff : ∀ b, valid b → (used b ↔ (∃ a, ref a = some b) ∨ b ∈ spare)
  valid_of_ref : ∀ a b, ref a = some b → valid b
  inj : ∀ a a' b, ref a = some b → ref a' = some b → a = a'
  valid_of_spare : ∀ b ∈ spare, valid b
  spare_unref : ∀ b ∈ spare, ∀ a, ref a ≠ some b

theorem Exact.used_of_ref (h : Exact valid used ref spare) (hr : ref a = some b) : used b :=
  (h.used_iff b (h.valid_of_ref a b hr)).mpr (Or.inl ⟨a, hr⟩)

theorem Exact.used_of_spare (h : Exact valid used ref spare) (hb : b ∈ spare) : used b :=
  (h.used_iff b (h.valid_of_spare b hb)).mpr (Or.inr hb)

/-- Nobody refers to a resource that is not in use. -/
theorem Exact.unref (h : Exact valid used ref spare) (hb : ¬ used b) (a : α) : ref a ≠ some b :=
  fun hr => hb (h.used_of_ref hr)

theorem Exact.congr (h : Exact valid used ref spare) (hu : ∀ b, valid b → (used' b ↔ used b)) :
    Exact valid used' ref spare :=
  { h with used_iff := fun b hb => (hu b hb).trans (h.used_iff b hb) }

theorem Exact.take (h : Exact valid used ref spare) (hv : valid b) (hb : ¬ used b)
    (hu : ∀ c, valid c → (used' c ↔ used c ∨ c = b)) :
    Exact valid used' ref (insert b spare) where
  used_iff c hc := by
    rw [hu c hc, h.used_iff c hc, Set.mem_insert_iff, or_assoc, or_comm (a := c ∈ spare)]
  valid_of_ref := h.valid_of_ref
  inj := h.inj
  valid_of_spare c hc := by
    rcases hc with rfl | hc
    · exact hv
    · exact h.valid_of_spare c hc
  spare_unref c hc a := by
    rcases hc with rfl | hc
    · exact h.unref hb a
    · exact h.spare_unref c hc a

theorem Exact.attach [DecidableEq α] (h : Exact valid used ref spare) (hb : b ∈ spare)
    (ha : ref a = none) : Exact valid used (Function.update ref a (some b)) (spare \ {b}) where
  used_iff c hc := by
    rw [h.used_iff c hc]
    constructor
    · rintro (⟨a', hr⟩ | hs)
      · refine Or.inl ⟨a', ?_⟩
        rw [Function.update_of_ne, hr]
        rintro rfl
        rw [ha] at hr
        cases hr
      · by_cases hcb : c = b
        · exact Or.inl ⟨a, by rw [Function.update_self, hcb]⟩
        · exact Or.inr ⟨hs, hcb⟩
    · rintro (⟨a', hr⟩ | hs)
      · by_cases haa : a' = a
        · subst haa
          rw [Function.update_self] at hr
          cases hr
          exact Or.inr hb
        · rw [Function.update_of_ne haa] at hr
          exact Or.inl ⟨a', hr⟩
      · exact Or.inr hs.1
  valid_of_ref a' c hr := by
    by_cases haa : a' = a
    · subst haa
      rw [Function.update_self] at hr
      cases hr
      exact h.valid_of_spare b hb
    · rw [Function.update_of_ne haa] at hr
      exact h.valid_of_ref a' c hr
  inj a₁ a₂ c h₁ h₂ := by
    by_cases e₁ : a₁ = a <;> by_cases e₂ : a₂ = a
    · rw [e₁, e₂]
    · subst e₁
      rw [Function.update_self] at h₁
      rw [Function.update_of_ne e₂] at h₂
      cases h₁
      exact absurd h₂ (h.spare_unref b hb a₂)
    · subst e₂
      rw [Function.update_self] at h₂
      rw [Function.update_of_ne e₁] at h₁
      cases h₂
      exact absurd h₁ (h.spare_unref b hb a₁)
    · rw [Function.update_of_ne e₁] at h₁
      rw [Function.update_of_ne e₂] at h₂
      exact h.inj a₁ a₂ c h₁ h₂
  valid_of_spare c hc := h.valid_of_spare c hc.1
  spare_unref c hc a' hr := by
    by_cases haa : a' = a
    · subst haa
      rw [Function.update_self] at hr
      cases hr
      exact hc.2 rfl
    · rw [Function.update_of_ne haa] at hr
      exact h.spare_unref c hc.1 a' hr

theorem Exact.detach (h : Exact valid used ref spare)
    (hr : ∀ a, ref' a = ref a ∨ ref' a = none) :
    Exact valid used ref' (spare ∪ {b | ∃ a, ref a = some b ∧ ref' a = none}) where
  used_iff c hc := by
    rw [h.used_iff c hc]
    constructor
    · rintro (⟨a, ha⟩ | hs)
      · rcases hr a with heq | hnone
        · exact Or.inl ⟨a, heq.trans ha⟩
        · exact Or.inr (Or.inr ⟨a, ha, hnone⟩)
      · exact Or.inr (Or.inl hs)
    · rintro (⟨a, ha⟩ | hs | ⟨a, ha, -⟩)
      · rcases hr a with heq | hnone
        · exact Or.inl ⟨a, heq.symm.trans ha⟩
        · rw [hnone] at ha
          cases ha
      · exact Or.inr hs
      · exact Or.inl ⟨a, ha⟩
  valid_of_ref a c ha := by
    rcases hr a with heq | hnone
    · exact h.valid_of_ref a c (heq.symm.trans ha)
    · rw [hnone] at ha
      cases ha
  inj a a' c ha ha' := by
    rcases hr a with heq | hnone
    · rcases hr a' with heq' | hnone'
      · exact h.inj a a' c (heq.symm.trans ha) (heq'.symm.trans ha')
      · rw [hnone'] at ha'
        cases ha'
    · rw [hnone] at ha
      cases ha
  valid_of_spare c hc := by
    rcases hc with hs | ⟨a, ha, -⟩
    · exact h.valid_of_spare c hs
    · exact h.valid_of_ref a c ha
  spare_unref c hc a' ha' := by
    have hold : ref a' = some c := by
      rcases hr a' with heq | hnone
      · exact heq.symm.trans ha'
      · rw [hnone] at ha'
        cases ha'
    rcases hc with hs | ⟨a, ha, hnone⟩
    · exact h.spare_unref c hs a' hold
    · obtain rfl := h.inj a a' c ha hold
      rw [hnone] at ha'
      cases ha'

theorem Exact.release (h : Exact valid used ref spare) (hb : b ∈ spare)
    (hu : ∀ c, valid c → (used' c ↔ used c ∧ c ≠ b)) :
    Exact valid used' ref (spare \ {b}) where
  used_iff c hc := by
    rw [hu c hc, h.used_iff c hc]
    constructor
    · rintro ⟨hr | hs, hne⟩
      · exact Or.inl hr
      · exact Or.inr ⟨hs, hne⟩
    · rintro (⟨a, ha⟩ | hs)
      · refine ⟨Or.inl ⟨a, ha⟩, ?_⟩
        rintro rfl
        exact h.spare_unref c hb a ha
      · exact ⟨Or.inr hs.1, hs.2⟩
  valid_of_ref := h.valid_of_ref
  inj := h.inj
  valid_of_spare c hc := h.valid_of_spare c hc.1
  spare_unref c hc := h.spare_unref c hc.1

end Xv6.Library.Allocation
