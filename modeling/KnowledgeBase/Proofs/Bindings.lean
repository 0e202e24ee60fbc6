import KnowledgeBase.Bindings

/-!
# Bindings and assignments

Bindings grow while terms are matched, and an assignment of all variables may agree with them.
-/

namespace KnowledgeBase

namespace Bindings

variable {b b' b'' : Bindings} {n v : String} {σ : String → String}

/-- Later bindings keep all values of earlier ones. -/
def Extends (b b' : Bindings) : Prop := ∀ n v, b.get? n = some v → b'.get? n = some v

/-- An assignment gives every bound variable its value. -/
def Agrees (σ : String → String) (b : Bindings) : Prop := ∀ n v, b.get? n = some v → σ n = v

theorem Extends.refl (b : Bindings) : b.Extends b := fun _ _ h => h

theorem Extends.trans (h : b.Extends b') (h' : b'.Extends b'') : b.Extends b'' :=
  fun n v hv => h' n v (h n v hv)

theorem Agrees.of_extends (h : Agrees σ b') (he : b.Extends b') : Agrees σ b :=
  fun n v hv => h n v (he n v hv)

/-- Some assignment agrees with given bindings. -/
theorem exists_agrees (b : Bindings) : ∃ σ, Agrees σ b :=
  ⟨fun n => (b.get? n).getD "", fun n v hv => by simp [hv]⟩

/-- A variable that is bound has the value afterwards, and nothing is lost. -/
theorem bind?_eq_some (h : b.bind? n v = some b') : b.Extends b' ∧ b'.get? n = some v := by
  unfold bind? at h
  split at h
  · rename_i hn
    cases h
    unfold get? at hn ⊢
    refine ⟨fun m w hm => ?_, ?_⟩
    · unfold get? at hm ⊢
      rw [List.lookup_append, hm]
      rfl
    · rw [List.lookup_append, hn]
      simp
  · rename_i w hw
    split at h
    · rename_i heq
      cases h
      exact ⟨Extends.refl b, heq ▸ hw⟩
    · cases h

/-- A value that is bound afterwards was bound before, or is the one that was bound now. -/
theorem get?_of_bind? {m w : String} (h : b.bind? n v = some b') (hm : b'.get? m = some w) :
    b.get? m = some w ∨ m = n ∧ w = v := by
  unfold bind? at h
  split at h
  · cases h
    unfold get? at hm ⊢
    rw [List.lookup_append, Option.or_eq_some_iff] at hm
    rcases hm with hm | ⟨-, hm⟩
    · exact Or.inl hm
    · rw [List.lookup_cons] at hm
      split at hm
      · rename_i heq
        cases hm
        exact Or.inr ⟨beq_iff_eq.mp heq, rfl⟩
      · cases hm
  · split at h
    · cases h
      exact Or.inl hm
    · cases h

/-- The value that an assignment gives can be bound. -/
theorem exists_bind? (hσ : Agrees σ b) (hv : σ n = v) :
    ∃ b', b.bind? n v = some b' ∧ Agrees σ b' := by
  have hsome : ∃ b', b.bind? n v = some b' := by
    unfold bind?
    split
    · exact ⟨_, rfl⟩
    · rename_i w hw
      have hwv : w = v := (hσ n w hw).symm.trans hv
      exact ⟨b, if_pos hwv⟩
  obtain ⟨b', hb'⟩ := hsome
  refine ⟨b', hb', fun m w hm => ?_⟩
  rcases get?_of_bind? hb' hm with hm | ⟨rfl, rfl⟩
  · exact hσ m w hm
  · exact hv

end Bindings

end KnowledgeBase
