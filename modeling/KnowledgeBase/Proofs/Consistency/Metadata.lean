import KnowledgeBase.Consistency.Detector
import KnowledgeBase.Proofs.Inference.Metadata

/-!
# Consistency and metadata

A change of facts that leaves their triples alone leaves the contradictions as they are, apart from
the facts that they carry.

* `Contradiction.mapFacts`: a contradiction with its facts changed; its report is the same;
* `Detector.checkDisjointness_map`, `Detector.checkFunctional_map`, `Detector.checkTaxonomic_map`,
  `Detector.checkCardinality_map`: each check over changed facts;
* `Detector.detect_map`: the whole report.
-/

namespace KnowledgeBase

variable {g : Fact → Fact}

/-! ### Contradictions -/

namespace Contradiction

/-- The contradiction that changed facts produce. -/
def mapFacts (g : Fact → Fact) : Contradiction → Contradiction
  | disjointMember entity pair memberships =>
    .disjointMember entity (g pair) (memberships.map g)
  | disjointSubtype subtype pair => .disjointSubtype (g subtype) (g pair)
  | severalValues subject relation values => .severalValues subject relation (values.map g)
  | taxonomicCycle terms edges => .taxonomicCycle terms (edges.map g)
  | inheritedDisjoint term pair => .inheritedDisjoint term (g pair)
  | tooFew member relation held minimum => .tooFew member relation (held.map g) minimum
  | tooMany member relation held maximum => .tooMany member relation (held.map g) maximum

theorem facts_mapFacts (c : Contradiction) : (c.mapFacts g).facts = c.facts.map g := by
  cases c <;> simp [mapFacts, facts]

section

variable (hg : KeepsTriples g) (c : Contradiction)
include hg

theorem subject_mapFacts : (c.mapFacts g).subject = c.subject := by
  cases c <;> simp [mapFacts, subject, hg.subject]

theorem terms_mapFacts : (c.mapFacts g).terms = c.terms := by
  cases c <;> simp [mapFacts, terms, hg.subject, hg.object]

theorem explanation_mapFacts : (c.mapFacts g).explanation = c.explanation := by
  unfold mapFacts explanation
  cases c <;> simp only [hg.subject, hg.object, List.length_map]

theorem report_mapFacts : (c.mapFacts g).report = c.report := by
  have hkind : (c.mapFacts g).kind = c.kind := by cases c <;> rfl
  have hseverity : (c.mapFacts g).severity = c.severity := by cases c <;> rfl
  have hrelation : (c.mapFacts g).relation = c.relation := by cases c <;> rfl
  have htext : Fact.text ∘ g = Fact.text := funext hg.text
  unfold report
  rw [hkind, hseverity, hrelation, subject_mapFacts hg, terms_mapFacts hg, facts_mapFacts,
    explanation_mapFacts hg, List.map_map, htext]

end

end Contradiction

/-! ### The taxonomy -/

namespace Taxonomy

section

variable (hg : KeepsTriples g) (facts : List Fact)
include hg

theorem typeFacts_map : typeFacts (facts.map g) = (typeFacts facts).map g :=
  hg.filter_relation facts Relation.isA

theorem upward_map : upward (facts.map g) = upward facts := by
  unfold upward
  rw [typeFacts_map hg, List.map_map]
  refine List.map_congr_left fun f _ => ?_
  simp only [Function.comp_apply, hg.subject, hg.object]

theorem downward_map : downward (facts.map g) = downward facts := by
  unfold downward
  rw [typeFacts_map hg, List.map_map]
  refine List.map_congr_left fun f _ => ?_
  simp only [Function.comp_apply, hg.subject, hg.object]

theorem cycles_map : cycles (facts.map g) = cycles facts := by
  have hmembers : members (facts.map g) = members facts := by
    unfold members
    rw [typeFacts_map hg, List.map_map, show Fact.subject ∘ g = Fact.subject from funext hg.subject]
  have hspellings : spellings (facts.map g) = spellings facts := by
    unfold spellings
    rw [typeFacts_map hg, List.flatMap_map]
    simp only [hg.subject, hg.object]
  unfold cycles
  rw [upward_map hg, hmembers, hspellings]

end

end Taxonomy

/-! ### The checks -/

namespace Detector

open Contradiction (mapFacts)

section

variable (hg : KeepsTriples g) (d : Detector) (facts : List Fact)
include hg

theorem pairKey_map (f : Fact) : pairKey (g f) = pairKey f := by
  unfold pairKey
  rw [hg.subject, hg.object]

theorem disjointPairs_map : disjointPairs (facts.map g) = (disjointPairs facts).map g := by
  unfold disjointPairs
  rw [hg.filter_relation, List.foldl_map, ← List.foldl_hom (List.map g)]
  · rfl
  · intro kept f
    have hany : (kept.map g).any (pairKey · == pairKey (g f)) =
        kept.any (pairKey · == pairKey f) := by
      simp only [List.any_map, Function.comp_def, pairKey_map hg]
    rw [hany, apply_ite (List.map g), List.map_append]
    rfl

theorem memberships_map (entity : String) (pair : Fact) :
    memberships (facts.map g) entity (g pair) = (memberships facts entity pair).map g := by
  unfold memberships
  rw [Taxonomy.typeFacts_map hg, Taxonomy.upward_map hg, List.filter_map]
  simp only [Function.comp_def, hg.subject, hg.object]

theorem joins_map (f pair : Fact) : joins (g f) (g pair) = joins f pair := by
  unfold joins
  rw [hg.subject, hg.object, hg.subject, hg.object]

theorem entities_map : entities (facts.map g) = entities facts := by
  unfold entities
  rw [Taxonomy.typeFacts_map hg, List.map_map,
    show Fact.subject ∘ g = Fact.subject from funext hg.subject]

theorem checkDisjointness_map :
    checkDisjointness (facts.map g) = (checkDisjointness facts).map (mapFacts g) := by
  unfold checkDisjointness
  rw [disjointPairs_map hg, Taxonomy.upward_map hg, entities_map hg, Taxonomy.typeFacts_map hg]
  dsimp only
  rw [List.isEmpty_map]
  split
  · rfl
  · rw [List.map_append, List.map_flatMap, List.map_flatMap, List.flatMap_map]
    congr 1
    · refine congrArg (List.flatMap · _) (funext fun e => ?_)
      rw [List.filter_map, List.map_map, List.map_map]
      simp only [Function.comp_def, hg.subject, hg.object, memberships_map hg]
      rfl
    · refine congrArg (List.flatMap · _) (funext fun f => ?_)
      rw [List.filter_map, List.map_map, List.map_map]
      simp only [Function.comp_def, joins_map hg]
      rfl

theorem equivalent_map : equivalent (facts.map g) = equivalent facts := by
  funext a b
  unfold equivalent
  simp only [List.any_map, Function.comp_def, hg.relation, hg.subject, hg.object]

theorem allEquivalent_map : allEquivalent (facts.map g) = allEquivalent facts := by
  funext values
  cases values with
  | nil => rfl
  | cons first rest => simp only [allEquivalent, equivalent_map hg]

theorem factsOf_map (relation : String) :
    factsOf (facts.map g) relation = (factsOf facts relation).map (Prod.map id g) := by
  unfold factsOf
  rw [hg.filter_relation, List.map_map, List.map_map]
  refine List.map_congr_left fun f _ => ?_
  simp only [Function.comp_apply, hg.subject, Prod.map_apply, id_eq]

omit hg in
theorem about_map (held : List (String × Fact)) (subject : String) :
    about (held.map (Prod.map id g)) subject = (about held subject).map g := by
  unfold about
  dsimp only
  rw [List.filter_map, List.map_map, List.map_map]
  rfl

theorem checkFunctional_map :
    checkFunctional (facts.map g) d = (checkFunctional facts d).map (mapFacts g) := by
  unfold checkFunctional
  rw [List.map_flatMap]
  refine congrArg (List.flatMap · _) (funext fun r => ?_)
  dsimp only
  have hsubject : (fun p : String × Fact => p.2.subject) ∘ Prod.map id g =
      fun p => p.2.subject := funext fun p => hg.subject p.2
  rw [factsOf_map hg, List.map_filterMap, List.map_map, hsubject]
  refine congrArg (List.filterMap · _) (funext fun s => ?_)
  rw [about_map, allEquivalent_map hg, List.map_map,
    show Fact.object ∘ g = Fact.object from funext hg.object]
  split <;> rfl

theorem cycleEdges_map (terms : List String) :
    cycleEdges (facts.map g) terms = (cycleEdges facts terms).map g := by
  unfold cycleEdges
  rw [List.map_filterMap]
  refine congrArg (List.filterMap · _) (funext fun p => ?_)
  exact hg.find?_states facts _

theorem checkTaxonomic_map :
    checkTaxonomic (facts.map g) = (checkTaxonomic facts).map (mapFacts g) := by
  unfold checkTaxonomic
  rw [Taxonomy.cycles_map hg, disjointPairs_map hg, List.map_append, List.map_map,
    List.map_flatMap, List.flatMap_map]
  congr 1
  · refine List.map_congr_left fun terms _ => ?_
    rw [cycleEdges_map hg]
    rfl
  · refine congrArg (List.flatMap · _) (funext fun p => ?_)
    dsimp only
    rw [Taxonomy.downward_map hg, hg.subject, hg.object, List.map_map]
    rfl

theorem membersOf_map (type : String) : membersOf (facts.map g) type = membersOf facts type := by
  unfold membersOf
  rw [Taxonomy.typeFacts_map hg, List.filter_map, List.map_map,
    show Fact.subject ∘ g = Fact.subject from funext hg.subject]
  simp only [Function.comp_def, hg.object]

omit hg in
theorem checkBounds_map (c : Cardinality) (member : String) (held : List Fact) :
    checkBounds c member (held.map g) = (checkBounds c member held).map (mapFacts g) := by
  unfold checkBounds
  rw [List.length_map, List.map_append]
  congr 1
  · cases c.minimum with
    | none => rfl
    | some low =>
      dsimp only
      split <;> rfl
  · cases c.maximum with
    | none => rfl
    | some high =>
      dsimp only
      split <;> rfl

theorem checkCardinality_map :
    checkCardinality (facts.map g) d = (checkCardinality facts d).map (mapFacts g) := by
  unfold checkCardinality
  rw [List.map_flatMap]
  refine congrArg (List.flatMap · _) (funext fun c => ?_)
  dsimp only
  rw [factsOf_map hg, membersOf_map hg, List.map_flatMap]
  refine congrArg (List.flatMap · _) (funext fun m => ?_)
  rw [about_map, checkBounds_map]

end

/-- A report with the facts of its contradictions changed. -/
def Report.mapFacts (g : Fact → Fact) (r : Report) : Report :=
  { r with contradictions := r.contradictions.map (Contradiction.mapFacts g) }

theorem report_mapFacts (hg : KeepsTriples g) (r : Report) :
    (r.mapFacts g).report = r.report := by
  have hreport : Contradiction.report ∘ Contradiction.mapFacts g = Contradiction.report :=
    funext (Contradiction.report_mapFacts hg)
  unfold Report.mapFacts Report.report Report.consistent
  simp only [List.isEmpty_map, List.map_map, hreport]

/-- Changed facts have the same contradictions. -/
theorem detect_map (hg : KeepsTriples g) (d : Detector) (facts : List Fact) (checks : Checks) :
    d.detect (facts.map g) checks = (d.detect facts checks).mapFacts g := by
  unfold detect Report.mapFacts
  rw [checkDisjointness_map hg, checkFunctional_map hg, checkTaxonomic_map hg,
    checkCardinality_map hg, List.length_map]
  simp only [List.map_append, apply_ite (List.map (Contradiction.mapFacts g)), List.map_nil]

end Detector

end KnowledgeBase
