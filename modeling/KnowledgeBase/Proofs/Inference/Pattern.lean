import KnowledgeBase.Proofs.Bindings
import KnowledgeBase.Proofs.Text
import KnowledgeBase.Relation.Rule

/-!
# What patterns match

A pattern against a triple, under an assignment of the variables: a variable stands for a text as
it is written, a constant for all spellings of itself.

* `Pattern.under`, `Pattern.Fits`: the instance of a pattern, and the triples that it matches;
* `matchTerms?_sound`, `exists_matchTerms?`: a match is the part of an assignment that matters;
* `instantiate_eq_under`: bindings that cover a pattern give its instance;
* `Pattern.ConstantsIn`, `Bindings.ValuesIn`: patterns and bindings over a stock of terms, which
  matching keeps to;
* `Pattern.Admits`, `exists_matchGoal?`: the triples that a goal asks for, and the heads that meet
  it.
-/

namespace KnowledgeBase

namespace Bindings

/-- A term that is no variable, or one that has a value. -/
def Covers (b : Bindings) (term : String) : Prop :=
  Text.isVariable term = true → ∃ v, b.get? (Pattern.variableName term) = some v

theorem Covers.mono {b b' : Bindings} {term : String} (h : b.Covers term) (he : b.Extends b') :
    b'.Covers term := by
  intro hvar
  obtain ⟨v, hv⟩ := h hvar
  exact ⟨v, he _ v hv⟩

/-- Every value is in stock. -/
def ValuesIn (terms : List String) (b : Bindings) : Prop :=
  ∀ n v, b.get? n = some v → v ∈ terms

theorem valuesIn_empty (terms : List String) : empty.ValuesIn terms := fun n v hv => by cases hv

end Bindings

namespace Pattern

open Bindings

/-- The text of a term under an assignment of the variables. -/
def termUnder (σ : String → String) (term : String) : String :=
  if Text.isVariable term then σ (variableName term) else term

/-- The instance of a pattern under an assignment. -/
def under (σ : String → String) (p : Pattern) : Triple :=
  ⟨termUnder σ p.subject, p.relation, termUnder σ p.object⟩

/-- A text in the place of a term: the value of a variable exactly, a constant up to spelling. -/
def FitsTerm (σ : String → String) (term value : String) : Prop :=
  if Text.isVariable term then σ (variableName term) = value else Text.same term value = true

/-- A triple matches a pattern under an assignment. -/
structure Fits (σ : String → String) (p : Pattern) (t : Triple) : Prop where
  relation : t.relation = p.relation
  subject : FitsTerm σ p.subject t.subject
  object : FitsTerm σ p.object t.object

/-- The constants of a pattern are in stock. -/
def ConstantsIn (terms : List String) (p : Pattern) : Prop :=
  ∀ term ∈ [p.subject, p.object], Text.isVariable term = false → term ∈ terms

/-- A goal asks for a triple, if maybe for others too: its constants are terms of the triple. -/
structure Admits (goal t : Triple) : Prop where
  relation : goal.relation = t.relation
  subject : Text.isVariable goal.subject = true ∨ goal.subject = t.subject
  object : Text.isVariable goal.object = true ∨ goal.object = t.object

variable {σ : String → String} {b b' : Bindings} {term value : String} {p head : Pattern}
  {goal t : Triple} {terms : List String}

/-! ### Instances -/

theorem fitsTerm_termUnder (σ : String → String) (term : String) :
    FitsTerm σ term (termUnder σ term) := by
  unfold FitsTerm termUnder
  split
  · rfl
  · exact Text.same_iff.mpr rfl

theorem FitsTerm.eq_of_isVariable (h : FitsTerm σ term value)
    (hvar : Text.isVariable term = true) : σ (variableName term) = value := by
  unfold FitsTerm at h
  rw [if_pos hvar] at h
  exact h

theorem FitsTerm.same_of_const (h : FitsTerm σ term value)
    (hconst : Text.isVariable term = false) : Text.same term value = true := by
  unfold FitsTerm at h
  rw [hconst, if_neg Bool.false_ne_true] at h
  exact h

/-- A pattern matches its own instances. -/
theorem fits_under (σ : String → String) (p : Pattern) : p.Fits σ (p.under σ) :=
  ⟨rfl, fitsTerm_termUnder σ _, fitsTerm_termUnder σ _⟩

theorem resolve_eq_termUnder (hσ : Agrees σ b) (hcov : b.Covers term) :
    resolve b term = termUnder σ term := by
  unfold resolve termUnder
  split
  · rename_i hvar
    obtain ⟨v, hv⟩ := hcov hvar
    rw [hv, hσ _ v hv]
    rfl
  · rfl

/-- Bindings that cover a pattern give its instance. -/
theorem instantiate_eq_under (hσ : Agrees σ b) (hs : b.Covers p.subject) (ho : b.Covers p.object) :
    p.instantiate b = p.under σ := by
  unfold instantiate under
  rw [resolve_eq_termUnder hσ hs, resolve_eq_termUnder hσ ho]

/-- A term that has turned into a constant has a value. -/
theorem covers_of_resolve (h : Text.isVariable (resolve b term) = false) : b.Covers term := by
  intro hvar
  unfold resolve at h
  rw [if_pos hvar] at h
  cases hget : b.get? (variableName term) with
  | some v => exact ⟨v, rfl⟩
  | none =>
    rw [hget] at h
    exact absurd hvar (by simpa using h)

theorem isGround_iff {t : Triple} :
    isGround t = true ↔ Text.isVariable t.subject = false ∧ Text.isVariable t.object = false := by
  simp [isGround]

theorem covers_of_isGround (h : isGround (p.instantiate b) = true) :
    b.Covers p.subject ∧ b.Covers p.object := by
  have hground := isGround_iff.mp h
  exact ⟨covers_of_resolve hground.1, covers_of_resolve hground.2⟩

/-! ### Matches -/

theorem matchTerm?_sound (h : matchTerm? term value b = some b') :
    b.Extends b' ∧ b'.Covers term ∧ ∀ σ, Agrees σ b' → FitsTerm σ term value := by
  unfold matchTerm? at h
  split at h
  · rename_i hvar
    obtain ⟨hext, hget⟩ := bind?_eq_some h
    refine ⟨hext, fun _ => ⟨value, hget⟩, fun σ hσ => ?_⟩
    unfold FitsTerm
    rw [if_pos hvar]
    exact hσ _ value hget
  · rename_i hvar
    split at h
    · rename_i hsame
      cases h
      refine ⟨Extends.refl b, fun hvar' => absurd hvar' hvar, fun σ _ => ?_⟩
      unfold FitsTerm
      rw [if_neg hvar]
      exact hsame
    · cases h

theorem exists_matchTerm? (hσ : Agrees σ b) (h : FitsTerm σ term value) :
    ∃ b', matchTerm? term value b = some b' ∧ Agrees σ b' := by
  unfold FitsTerm at h
  unfold matchTerm?
  split at h
  · rename_i hvar
    rw [if_pos hvar]
    exact exists_bind? hσ h
  · rename_i hvar
    rw [if_neg hvar, if_pos h]
    exact ⟨b, rfl, hσ⟩

/-- What a match says: nothing is lost, all variables have values, and these make the pattern
match. -/
theorem matchTerms?_sound {t : Triple} (h : p.matchTerms? t.subject t.object b = some b') :
    b.Extends b' ∧ b'.Covers p.subject ∧ b'.Covers p.object ∧
      ∀ σ, Agrees σ b' → t.relation = p.relation → p.Fits σ t := by
  obtain ⟨b₁, h₁, h₂⟩ := Option.bind_eq_some_iff.mp h
  obtain ⟨hext₁, hcov₁, hfits₁⟩ := matchTerm?_sound h₁
  obtain ⟨hext₂, hcov₂, hfits₂⟩ := matchTerm?_sound h₂
  refine ⟨hext₁.trans hext₂, hcov₁.mono hext₂, hcov₂, fun σ hσ hrel => ?_⟩
  exact ⟨hrel, hfits₁ σ (hσ.of_extends hext₂), hfits₂ σ hσ⟩

/-- An assignment under which a pattern matches leads to a match. -/
theorem exists_matchTerms? {t : Triple} (hσ : Agrees σ b) (h : p.Fits σ t) :
    ∃ b', p.matchTerms? t.subject t.object b = some b' ∧ Agrees σ b' := by
  obtain ⟨b₁, h₁, hσ₁⟩ := exists_matchTerm? hσ h.subject
  obtain ⟨b₂, h₂, hσ₂⟩ := exists_matchTerm? hσ₁ h.object
  exact ⟨b₂, Option.bind_eq_some_iff.mpr ⟨b₁, h₁, h₂⟩, hσ₂⟩

/-! ### Goals and terms in stock -/

theorem admits_self (t : Triple) : Admits t t := ⟨rfl, Or.inr rfl, Or.inr rfl⟩

/-- A goal without variables asks for itself only. -/
theorem Admits.eq_of_isGround (h : Admits goal t) (hground : isGround goal = true) : goal = t := by
  obtain ⟨hs, ho⟩ := isGround_iff.mp hground
  have hsubject : goal.subject = t.subject := h.subject.resolve_left (by simp [hs])
  have hobject : goal.object = t.object := h.object.resolve_left (by simp [ho])
  have hrelation := h.relation
  cases goal
  cases t
  simp only at hsubject hobject hrelation
  rw [hsubject, hobject, hrelation]

theorem resolve_in (hb : b.ValuesIn terms) (hterm : Text.isVariable term = false → term ∈ terms)
    (h : Text.isVariable (resolve b term) = false) : resolve b term ∈ terms := by
  unfold resolve at h ⊢
  split
  · rename_i hvar
    rw [if_pos hvar] at h
    cases hget : b.get? (variableName term) with
    | some v => exact hb _ v hget
    | none =>
      rw [hget] at h
      exact absurd hvar (by simpa using h)
  · rename_i hconst
    exact hterm (by simpa using hconst)

theorem ConstantsIn.instantiate (hp : p.ConstantsIn terms) (hb : b.ValuesIn terms) :
    ConstantsIn terms (p.instantiate b) := by
  intro term hterm hconst
  simp only [Pattern.instantiate, List.mem_cons, List.not_mem_nil, or_false] at hterm
  rcases hterm with rfl | rfl
  · exact resolve_in hb (hp _ (by simp)) hconst
  · exact resolve_in hb (hp _ (by simp)) hconst

/-- Bindings that are part of an assignment leave room for the instance. -/
theorem admits_instantiate (hσ : Agrees σ b) : Admits (p.instantiate b) (p.under σ) := by
  have hterm : ∀ term,
      Text.isVariable (resolve b term) = true ∨ resolve b term = termUnder σ term := by
    intro term
    by_cases hvar : Text.isVariable term = true
    · cases hget : b.get? (variableName term) with
      | some v =>
        right
        simp only [resolve, termUnder, hvar, if_true, hget, Option.getD_some]
        exact (hσ _ v hget).symm
      | none =>
        left
        simp only [resolve, hvar, if_true, hget, Option.getD_none]
    · right
      simp only [resolve, termUnder, hvar, if_false, Bool.false_eq_true]
  exact ⟨rfl, hterm p.subject, hterm p.object⟩

theorem matchTerm?_in (h : matchTerm? term value b = some b') (hb : b.ValuesIn terms)
    (hvalue : value ∈ terms) : b'.ValuesIn terms := by
  unfold matchTerm? at h
  split at h
  · intro n v hv
    rcases get?_of_bind? h hv with hold | ⟨-, rfl⟩
    · exact hb n v hold
    · exact hvalue
  · split at h
    · cases h
      exact hb
    · cases h

theorem matchTerms?_in {subject object : String} (h : p.matchTerms? subject object b = some b')
    (hb : b.ValuesIn terms) (hs : subject ∈ terms) (ho : object ∈ terms) : b'.ValuesIn terms := by
  obtain ⟨b₁, h₁, h₂⟩ := Option.bind_eq_some_iff.mp h
  exact matchTerm?_in h₂ (matchTerm?_in h₁ hb hs) ho

theorem matchGoal?_in (h : head.matchGoal? goal = some b) (hgoal : ConstantsIn terms goal) :
    b.ValuesIn terms := by
  obtain ⟨b₁, h₁, h₂⟩ := Option.bind_eq_some_iff.mp h
  have hin₁ : b₁.ValuesIn terms := by
    split at h₁
    · cases h₁
      exact valuesIn_empty terms
    · rename_i hconst
      exact matchTerm?_in h₁ (valuesIn_empty terms) (hgoal _ (by simp) (by simpa using hconst))
  split at h₂
  · cases h₂
    exact hin₁
  · rename_i hconst
    exact matchTerm?_in h₂ hin₁ (hgoal _ (by simp) (by simpa using hconst))

/-- A head matches every goal that asks for an instance of it. -/
theorem exists_matchGoal? (h : Admits goal (head.under σ)) :
    ∃ b, head.matchGoal? goal = some b ∧ Agrees σ b := by
  have hempty : Agrees σ Bindings.empty := fun n v hv => by cases hv
  have hsubject : ∃ b, (if Text.isVariable goal.subject then some Bindings.empty
      else matchTerm? head.subject goal.subject Bindings.empty) = some b ∧ Agrees σ b := by
    rcases h.subject with hvar | heq
    · exact ⟨_, if_pos hvar, hempty⟩
    · split
      · exact ⟨_, rfl, hempty⟩
      · rw [heq]
        exact exists_matchTerm? hempty (fitsTerm_termUnder σ head.subject)
  obtain ⟨b₁, h₁, hσ₁⟩ := hsubject
  have hobject : ∃ b, (if Text.isVariable goal.object then some b₁
      else matchTerm? head.object goal.object b₁) = some b ∧ Agrees σ b := by
    rcases h.object with hvar | heq
    · exact ⟨_, if_pos hvar, hσ₁⟩
    · split
      · exact ⟨_, rfl, hσ₁⟩
      · rw [heq]
        exact exists_matchTerm? hσ₁ (fitsTerm_termUnder σ head.object)
  obtain ⟨b₂, h₂, hσ₂⟩ := hobject
  exact ⟨b₂, Option.bind_eq_some_iff.mpr ⟨b₁, h₁, h₂⟩, hσ₂⟩

end Pattern

end KnowledgeBase
