import KnowledgeBase.Inference.Query
import KnowledgeBase.Proofs.Inference.Search
import KnowledgeBase.Proofs.Inference.Spelling

/-!
# What a composition search proves

The least set of triples that holds the facts and is closed under the composition rules, against
which the backward search is measured.  The search passes half-instantiated patterns from one rule
to the next and lets the variables of a goal ask for nothing; what it gives back is still matched
term by term, so nothing comes in that the rules do not yield.

* `Closed`, `Composed`, `closed_composed`: the closed sets, and the least one;
* `allMatches_sound`: a match of a body is an assignment under which each pattern matches what meets
  its goal;
* `composed_of_mem_derivations`: whatever meets a goal is composed, by induction on the depth;
* `composition_sound`: what an answer says.
-/

namespace KnowledgeBase

namespace Pattern

open Bindings

variable {σ : String → String} {b : Bindings} {term value : String} {head p : Pattern}
  {goal t : Triple}

/-- A text that stands in the place of a term is a spelling of the term's instance. -/
theorem FitsTerm.alike (h : FitsTerm σ term value) : Text.Alike (termUnder σ term) value := by
  unfold FitsTerm at h
  unfold termUnder
  split
  · rename_i hvar
    rw [if_pos hvar] at h
    rw [h]
    exact Text.Alike.refl value
  · rename_i hvar
    rw [if_neg hvar] at h
    exact Text.same_iff.mp h

/-- A triple that matches a pattern is a respelling of its instance. -/
theorem Fits.respelled (h : p.Fits σ t) : (p.under σ).Respelled Text.Alike t :=
  ⟨h.relation.symm, h.subject.alike, h.object.alike⟩

/-- A head that matches a goal without variables has a respelling of it as its instance. -/
theorem matchGoal?_sound (h : head.matchGoal? goal = some b) (hground : isGround goal = true)
    (hrel : head.relation = goal.relation) (hσ : Agrees σ b) : head.Fits σ goal := by
  obtain ⟨hs, ho⟩ := isGround_iff.mp hground
  unfold matchGoal? at h
  rw [hs, ho] at h
  obtain ⟨b₁, h₁, h₂⟩ := Option.bind_eq_some_iff.mp h
  obtain ⟨-, -, hfits₁⟩ := matchTerm?_sound h₁
  obtain ⟨hext, -, hfits₂⟩ := matchTerm?_sound h₂
  exact ⟨hrel.symm, hfits₁ σ (hσ.of_extends hext), hfits₂ σ hσ⟩

end Pattern

namespace Inference.Composition

open Bindings Pattern

/-! ### The least closed set -/

/-- A set holds what the facts state, and the instance of a rule's head whenever each pattern of the
body matches a member. -/
structure Closed (rules : List CompositionRule) (facts : List Fact) (D : Triple → Prop) : Prop where
  fact : ∀ f ∈ facts, D f.triple
  rule : ∀ c ∈ rules, ∀ σ, (∀ p ∈ c.body, ∃ t, D t ∧ p.Fits σ t) → D (c.head.under σ)

/-- A triple is composed if every closed set holds it. -/
def Composed (rules : List CompositionRule) (facts : List Fact) (t : Triple) : Prop :=
  ∀ D, Closed rules facts D → D t

variable {rules : List CompositionRule} {facts : List Fact} {goal t : Triple} {depth : Nat}
  {path : List String}

/-- What is composed is itself a closed set, so it is the least one. -/
theorem closed_composed : Closed rules facts (Composed rules facts) where
  fact f hf _ hD := hD.fact f hf
  rule c hc σ hbody _ hD := hD.rule c hc σ fun p hp =>
    let ⟨t, ht, hfits⟩ := hbody p hp
    ⟨t, ht _ hD, hfits⟩

/-! ### Bodies -/

section

variable {derive : Triple → List Derivation} {D : Triple → Prop} {ps : List Pattern} {b : Bindings}
  {m : Match}

/-- Each pattern of a matched body matches something that meets its goal, under all assignments that
agree with the match. -/
theorem allMatches_sound
    (hderive : ∀ g, ∀ d ∈ derive g, D d.triple ∧ d.triple.relation = g.relation)
    (h : m ∈ allMatches derive ps b) :
    b.Extends m.bindings ∧
      ∀ σ, Agrees σ m.bindings → ∀ p ∈ ps, ∃ t, D t ∧ p.Fits σ t := by
  induction ps generalizing b m with
  | nil =>
    rw [mem_allMatches_nil.mp h]
    exact ⟨Extends.refl b, fun _ _ p hp => absurd hp List.not_mem_nil⟩
  | cons p ps ih =>
    obtain ⟨d, hd, ext, hext, m', hm', rfl⟩ := mem_allMatches_cons.mp h
    obtain ⟨hle, -, -, hfits⟩ := matchTerms?_sound hext
    obtain ⟨hle', hrest⟩ := ih hm'
    obtain ⟨hmember, hrel⟩ := hderive _ d hd
    refine ⟨hle.trans hle', fun σ hσ q hq => ?_⟩
    rcases List.mem_cons.mp hq with rfl | hq
    · exact ⟨d.triple, hmember, hfits σ (hσ.of_extends hle') hrel⟩
    · exact hrest σ hσ q hq

end

/-! ### Goals -/

/-- **Whatever meets a goal is composed**, at every depth and whatever goals are in work. -/
theorem composed_of_mem_derivations (depth : Nat) (path : List String) (goal : Triple) :
    ∀ d ∈ derivations rules facts depth path goal, Composed rules facts d.triple := by
  have hmatching : ∀ g, ∀ d ∈ matching facts g, Composed rules facts d.triple := by
    intro g d hd
    obtain ⟨f, hf, -, -, -, rfl⟩ := mem_matching.mp hd
    exact closed_composed.fact f hf
  induction depth generalizing path goal with
  | zero => exact fun d hd => hmatching goal d (mem_offers hd)
  | succ depth ih =>
    intro d hd
    rcases mem_offers_succ.mp (mem_offers hd) with hstored | ⟨o, ho, hd⟩
    · exact hmatching goal d hstored
    · obtain ⟨m, hm, hground, rfl⟩ := mem_concluded.mp hd
      rw [matchBody_eq_take _ _ _ (by decide)] at hm
      obtain ⟨-, hbody⟩ := allMatches_sound
        (fun g d hd => ⟨ih _ g d hd, relation_of_mem_derivations hd⟩) (List.mem_of_mem_take hm)
      obtain ⟨σ, hσ⟩ := exists_agrees m.bindings
      -- the bindings cover the head, because its instance has no variables
      obtain ⟨hs, ho'⟩ := covers_of_isGround hground
      dsimp only
      rw [instantiate_eq_under hσ hs ho']
      exact closed_composed.rule o.1 (mem_openings.mp ho).1 σ (hbody σ hσ)

/-- What satisfies a body at some depth are matches of the body. -/
theorem mem_allMatches_of_satisfy {body : List Pattern} {b : Bindings} {limit : Nat} {m : Match}
    (hlimit : 1 ≤ limit) (h : m ∈ satisfy rules facts body b depth path limit) :
    m ∈ allMatches (derivations rules facts (depth - 1) path) body b := by
  cases body with
  | nil => exact h
  | cons p ps =>
    cases depth with
    | zero => cases h
    | succ depth =>
      have hbody : m ∈ matchBody (derivations rules facts depth path) (p :: ps) b limit := h
      rw [matchBody_eq_take _ _ _ hlimit] at hbody
      exact List.mem_of_mem_take hbody

/-- A goal without variables that is proved has a composed spelling. -/
theorem exists_composed_of_prove? (hground : isGround goal = true)
    (h : (prove? rules facts goal depth).isSome = true) :
    ∃ t, Composed rules facts t ∧ t.Respelled Text.Alike goal := by
  rw [prove?, List.findSome?_isSome_iff] at h
  obtain ⟨c, hc, h⟩ := h
  split at h
  · cases h
  rename_i hrel
  have hrel : c.head.relation = goal.relation := by simpa using hrel
  obtain ⟨proof, h⟩ := Option.isSome_iff_exists.mp h
  obtain ⟨b, hb, h⟩ := Option.bind_eq_some_iff.mp h
  obtain ⟨m, hm, -⟩ := Option.bind_eq_some_iff.mp h
  obtain ⟨hle, hbody⟩ := allMatches_sound
    (fun g d hd => ⟨composed_of_mem_derivations _ _ g d hd, relation_of_mem_derivations hd⟩)
    (mem_allMatches_of_satisfy (Nat.le_refl 1) (List.mem_of_head? hm))
  obtain ⟨σ, hσ⟩ := exists_agrees m.bindings
  have hhead : c.head.Fits σ goal := matchGoal?_sound hb hground hrel (hσ.of_extends hle)
  exact ⟨_, closed_composed.rule c hc σ (hbody σ hσ), hhead.respelled⟩

end Inference.Composition

namespace Inference

open KnowledgeBase.Inference.Composition Pattern

theorem composition_certain_iff {i : Inference} {facts : List Fact} {goal : Triple} {depth : Nat} :
    (i.composition facts goal depth).truth = .certain ↔
      (prove? i.relations.compositions facts goal depth).isSome = true := by
  unfold composition
  cases prove? i.relations.compositions facts goal depth <;> simp [Answer.unknown]

/-- **Answers by composition are sound**: a goal without variables is certain only if the least set
that is closed under the rules holds a spelling of it. -/
theorem composition_sound (i : Inference) {facts : List Fact} {goal : Triple} {depth : Nat}
    (hground : isGround goal = true) (h : (i.composition facts goal depth).truth = .certain) :
    ∃ t, Composed i.relations.compositions facts t ∧ t.relation = goal.relation ∧
      Text.fold t.subject = Text.fold goal.subject ∧
      Text.fold t.object = Text.fold goal.object := by
  obtain ⟨t, ht, hgoal⟩ := exists_composed_of_prove? hground (composition_certain_iff.mp h)
  exact ⟨t, ht, hgoal.relation, hgoal.subject, hgoal.object⟩

/-- Who wears the crown is a monarch, and the children of a monarch are heirs. -/
def succession : Inference :=
  { relations := { Relations.bare with
      compositions := [⟨"crowned", ⟨"?x", "HAS_TITLE", "Monarch"⟩, [⟨"?x", "WEARS", "Crown"⟩]⟩,
        ⟨"heir", ⟨"?x", "HAS_TITLE", "Heir"⟩,
          [⟨"?x", "CHILD_OF", "?y"⟩, ⟨"?y", "HAS_TITLE", "monarch"⟩]⟩] } }

def courtFacts : List Fact :=
  [{ triple := ⟨"Ann", "CHILD_OF", "Eve"⟩ }, { triple := ⟨"Eve", "WEARS", " crown"⟩ }]

/-- One rule within the other, with a title that the goal and both rules spell in their own way. -/
theorem composition_sound_heir :
    isGround ⟨"Ann", "HAS_TITLE", "HEIR "⟩ = true ∧
      (succession.composition courtFacts ⟨"Ann", "HAS_TITLE", "HEIR "⟩ 2).truth = .certain ∧
      ∃ t, Composed succession.relations.compositions courtFacts t ∧ t.relation = "HAS_TITLE" ∧
        Text.fold t.subject = Text.fold "Ann" ∧ Text.fold t.object = Text.fold "HEIR " := by
  have hground : isGround ⟨"Ann", "HAS_TITLE", "HEIR "⟩ = true := by decide
  have hcertain : (succession.composition courtFacts ⟨"Ann", "HAS_TITLE", "HEIR "⟩ 2).truth =
      .certain := by decide +kernel
  exact ⟨hground, hcertain, composition_sound succession hground hcertain⟩

end Inference

end KnowledgeBase
