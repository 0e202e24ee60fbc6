import KnowledgeBase.Proofs.Consistency.Disjointness

/-!
# Violations that are reported again

Violations of disjointness come from two lists: the entities that are of both types of a pair, and
the facts that make a type a subtype of its partner.  The first list names each entity and each pair
once.  The second one goes by facts, and so repeats itself where a fact is stated again, and repeats
the first one where the type lies on a cycle and is an entity of both types.

* `pairwise_memberViolations`: the first list repeats nothing;
* `pairwise_subtypeViolations_iff`, `apart_iff`: when the second one repeats nothing, of itself and
  of the first one;
* `StatedOnce`: what both come to;
* `violations_differ_iff`: when no violation is reported twice, and `reported_again`, where one is.
-/

namespace KnowledgeBase.Detector

open Taxonomy Contradiction

variable {facts : List Fact} {f g p q : Fact}

/-! ### Entities -/

/-- Of the pairs that are kept, some that are reported for one term are told apart. -/
theorem pairwise_map_pairs {report : Fact → Contradiction} {keep : Fact → Bool}
    (hreport : ∀ p, (report p).terms = [p.subject, p.object]) :
    (((disjointPairs facts).filter keep).map report).Pairwise fun x y => ¬ x.Alike y := by
  rw [List.pairwise_map]
  refine ((pairwise_disjointPairs facts).filter keep).imp fun {p q} hpq halike => hpq ?_
  have hterms := halike.terms
  rw [hreport, hreport] at hterms
  exact perm_types_iff.mp hterms

/-- **No entity is reported twice for a pair.** -/
theorem pairwise_memberViolations (facts : List Fact) :
    (memberViolations facts).Pairwise fun x y => ¬ x.Alike y := by
  unfold memberViolations
  rw [List.pairwise_flatMap]
  refine ⟨fun e _ => pairwise_map_pairs fun _ => rfl, ?_⟩
  have hnodup : ((entities facts).map Text.fold).Nodup := Text.nodup_fresh ∅ _
  refine (List.pairwise_map.mp hnodup).imp fun hne x hx y hy halike => hne ?_
  obtain ⟨p, -, rfl⟩ := List.mem_map.mp hx
  obtain ⟨q, -, rfl⟩ := List.mem_map.mp hy
  exact halike.subject

/-! ### Facts that join a pair -/

/-- Two type facts that make a term a subtype of its partner state the same. -/
theorem states_of_joins (hf : f ∈ typeFacts facts) (hg : g ∈ typeFacts facts)
    (hjf : joins f p = true) (hjg : joins g p = true)
    (hsubject : Text.fold f.subject = Text.fold g.subject) : g.states f.triple = true := by
  refine Fact.states_iff.mpr ⟨?_, hsubject.symm, ?_⟩
  · exact (mem_typeFacts.mp hg).2.trans (mem_typeFacts.mp hf).2.symm
  · show Text.fold g.object = Text.fold f.object
    rcases joins_iff.mp hjf with ⟨h1, h2⟩ | ⟨h1, h2⟩ <;>
      rcases joins_iff.mp hjg with ⟨h3, h4⟩ | ⟨h3, h4⟩
    · rw [h4, h2]
    · rw [h4, h2, ← h1, ← h3, hsubject]
    · rw [h4, h2, ← h1, ← h3, hsubject]
    · rw [h4, h2]

/-- A type that a fact makes a subtype of its partner is of both types if it lies on a cycle. -/
theorem below_both_iff (hf : f ∈ typeFacts facts) (hj : joins f p = true) :
    Below facts f.subject p.subject ∧ Below facts f.subject p.object ↔
      Below facts f.subject f.subject := by
  have hbelow : Below facts f.subject f.object := below_of_typeFact hf
  rcases joins_iff.mp hj with ⟨h1, h2⟩ | ⟨h1, h2⟩
  · rw [below_congr rfl h1.symm, below_congr rfl h2.symm]
    exact and_iff_left hbelow
  · rw [below_congr rfl h2.symm, below_congr rfl h1.symm]
    exact and_iff_right hbelow

/-- A fact that joins a declared pair is stated once, and its subject lies on no cycle. -/
structure StatedOnce (facts : List Fact) : Prop where
  once : (typeFacts facts).Pairwise fun f g =>
    ∀ p, Declares facts p → joins f p = true → ¬ g.states f.triple = true
  acyclic : ∀ f ∈ typeFacts facts, ∀ p, Declares facts p → joins f p = true →
    ¬ Below facts f.subject f.subject

/-- No type fact is reported twice exactly if none that joins a declared pair is stated again. -/
theorem pairwise_subtypeViolations_iff :
    ((subtypeViolations facts).Pairwise fun x y => ¬ x.Alike y) ↔
      (typeFacts facts).Pairwise fun f g =>
        ∀ p, Declares facts p → joins f p = true → ¬ g.states f.triple = true := by
  unfold subtypeViolations
  rw [List.pairwise_flatMap]
  constructor
  · rintro ⟨-, hacross⟩
    refine hacross.imp fun {f g} hfg p hp hj hstates => ?_
    obtain ⟨-, hsubject, hobject⟩ := Fact.states_iff.mp hstates
    obtain ⟨q, hq, hsame⟩ := exists_disjointPair hp.1 hp.2
    have hjf : joins f q = true := joins_of_samePair hsame hj
    have hjg : joins g q = true := by rw [joins_congr hsubject hobject, hjf]
    exact hfg _ (List.mem_map_of_mem (List.mem_filter.mpr ⟨hq, hjf⟩)) _
      (List.mem_map_of_mem (List.mem_filter.mpr ⟨hq, hjg⟩)) ⟨rfl, hsubject.symm, List.Perm.refl _⟩
  · intro honce
    refine ⟨fun f _ => pairwise_map_pairs fun _ => rfl, ?_⟩
    refine honce.imp_of_mem fun {f g} hf hg hfg x hx y hy halike => ?_
    obtain ⟨p, hp, rfl⟩ := List.mem_map.mp hx
    obtain ⟨q, hq, rfl⟩ := List.mem_map.mp hy
    obtain ⟨hp, hjf⟩ := List.mem_filter.mp hp
    have hsame : SamePair p q := perm_types_iff.mp halike.terms
    have hjg : joins g p = true := joins_of_samePair hsame (List.mem_filter.mp hq).2
    exact hfg p (mem_disjointPairs hp) hjf (states_of_joins hf hg hjf hjg halike.subject)

/-- No type fact repeats what is reported of an entity exactly if none that joins a declared pair is
about a type on a cycle. -/
theorem apart_iff :
    (∀ x ∈ memberViolations facts, ∀ y ∈ subtypeViolations facts, ¬ x.Alike y) ↔
      ∀ f ∈ typeFacts facts, ∀ p, Declares facts p → joins f p = true →
        ¬ Below facts f.subject f.subject := by
  constructor
  · intro hapart f hf p hp hj hself
    obtain ⟨q, hq, hsame⟩ := exists_disjointPair hp.1 hp.2
    have hjq : joins f q = true := joins_of_samePair hsame hj
    obtain ⟨hsub, hobj⟩ := (below_both_iff hf hjq).mpr hself
    obtain ⟨e, he, hfold⟩ := exists_entity hsub
    exact hapart _
      (mem_memberViolations.mpr ⟨e, he, q, hq, (below_congr hfold rfl).mpr hsub,
        (below_congr hfold rfl).mpr hobj, rfl⟩) _
      (mem_subtypeViolations.mpr ⟨f, hf, q, hq, hjq, rfl⟩) ⟨rfl, hfold, List.Perm.refl _⟩
  · intro hacyclic x hx y hy halike
    obtain ⟨e, -, p, hp, hsub, hobj, rfl⟩ := mem_memberViolations.mp hx
    obtain ⟨f, hf, q, hq, hj, rfl⟩ := mem_subtypeViolations.mp hy
    have hfold : Text.fold e = Text.fold f.subject := halike.subject
    have hsame : SamePair p q := perm_types_iff.mp halike.terms
    have hjp : joins f p = true := joins_of_samePair hsame hj
    exact hacyclic f hf p (mem_disjointPairs hp) hjp ((below_both_iff hf hjp).mp
      ⟨(below_congr hfold rfl).mp hsub, (below_congr hfold rfl).mp hobj⟩)

/-! ### Whole reports -/

/-- **No violation is reported twice exactly if every fact that makes a type a subtype of its
partner is stated once, about a type that lies on no cycle.** -/
theorem violations_differ_iff (facts : List Fact) :
    ((checkDisjointness facts).Pairwise fun x y => ¬ x.Alike y) ↔ StatedOnce facts := by
  rw [checkDisjointness_eq, List.pairwise_append, pairwise_subtypeViolations_iff, apart_iff]
  constructor
  · rintro ⟨-, honce, hacyclic⟩
    exact ⟨honce, hacyclic⟩
  · rintro ⟨honce, hacyclic⟩
    exact ⟨pairwise_memberViolations facts, honce, hacyclic⟩

/-- That whales are fish is stated at two levels. -/
def whales : List Fact :=
  [{ triple := ⟨"Whale", "DISJOINT_WITH", "Fish"⟩ },
    { triple := ⟨"Whale", "IS_A", "Fish"⟩, existence := Existence.possible },
    { triple := ⟨"Whale", "IS_A", "Fish"⟩ }]

/-- Hares are rabbits, and rabbits are hares. -/
def hares : List Fact :=
  [{ triple := ⟨"Hare", "DISJOINT_WITH", "Rabbit"⟩ }, { triple := ⟨"Hare", "IS_A", "Rabbit"⟩ },
    { triple := ⟨"Rabbit", "IS_A", "Hare"⟩ }]

/-- **A violation is reported twice**: for each version of one fact, or as a member and as a subtype
on a cycle. -/
theorem reported_again :
    (∃ p, Declares whales p ∧ (checkDisjointness whales).countP
        (fun x => decide (x.Reports "DISJOINT_VIOLATION" "whale" p)) = 2) ∧
      ∃ p, Declares hares p ∧ (checkDisjointness hares).countP
        (fun x => decide (x.Reports "DISJOINT_VIOLATION" "hare" p)) = 2 := by
  refine ⟨⟨{ triple := ⟨"Whale", "DISJOINT_WITH", "Fish"⟩ }, ⟨List.mem_cons_self, rfl⟩, ?_⟩,
    { triple := ⟨"Hare", "DISJOINT_WITH", "Rabbit"⟩ }, ⟨List.mem_cons_self, rfl⟩, ?_⟩
  · decide +kernel
  · decide +kernel

end KnowledgeBase.Detector
