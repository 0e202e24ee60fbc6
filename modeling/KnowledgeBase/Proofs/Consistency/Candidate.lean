import KnowledgeBase.Proofs.Consistency.Report

/-!
# Candidates that contradict consistent facts

A candidate is held against consistent facts if some contradiction takes it up.  A contradiction
that a candidate brings about always does so, unless the candidate is a type fact: such a fact may
act at a distance, in the middle of a chain of types or by making a cardinality apply.

* `Clear`, `clear_of_consistent`: what consistent facts are free of;
* `involves_of_not_isA`: candidates that are not type facts are taken up by all they bring about;
* `Exposed`: the ways in which a type fact is taken up;
* `exposed_of_involves`, `conflicts_of_exposed`: these are all of them;
* `conflicts_complete`: both cases, and `hidden_middle_edge`, where a type fact goes unnoticed.
-/

open Relation (TransGen ReflTransGen)

namespace KnowledgeBase

theorem Fact.states_iff {f : Fact} {t : Triple} : f.states t = true ↔ f.relation = t.relation ∧
    Text.fold f.subject = Text.fold t.subject ∧ Text.fold f.object = Text.fold t.object := by
  simp [Fact.states, Text.same_iff, and_assoc]

theorem Fact.states_self (f : Fact) : f.states f.triple = true :=
  Fact.states_iff.mpr ⟨rfl, rfl, rfl⟩

namespace Contradiction

theorem involves_of_states {x : Contradiction} {t : Triple} {f : Fact} (hf : f ∈ x.facts)
    (h : f.states t = true) : x.involves t = true := by
  unfold involves
  rw [Bool.or_eq_true]
  exact Or.inl (List.any_eq_true.mpr ⟨f, hf, h⟩)

end Contradiction

namespace Detector

open Taxonomy

variable {facts : List Fact} {d : Detector} {c : Fact}

/-! ### Consistent facts -/

/-- What consistent facts are free of, up to spelling. -/
structure Clear (d : Detector) (facts : List Fact) : Prop where
  member : ∀ p ∈ disjointPairs facts, ∀ a,
    ¬ (Below facts a p.subject ∧ Below facts a p.object)
  subtype : ∀ f ∈ typeFacts facts, ∀ p ∈ disjointPairs facts, ¬ joins f p = true
  values : ∀ r ∈ d.functional.toList, ∀ s,
    allEquivalent facts ((statedOf facts r s).map Fact.object) = true
  cycle : cycles facts = []
  inherited : ∀ p ∈ disjointPairs facts,
    ∀ t ∈ descendants (downward facts) (Text.fold p.subject),
    ¬ ((descendants (downward facts) (Text.fold p.object)).lookup t.1).isSome = true
  count : ∀ k ∈ d.cardinalities, ∀ m ∈ membersOf facts k.type,
    ¬ Broken k (statedOf facts k.relation m).length

theorem statedOf_congr {s s' : String} (h : Text.fold s = Text.fold s') (r : String) :
    statedOf facts r s = statedOf facts r s' := by
  unfold statedOf Text.same
  rw [h]

/-- Values that are not all equivalent are reported, under some spelling of their subject. -/
theorem exists_severalValues {r s : String} (hr : r ∈ d.functional.toList)
    (h : allEquivalent facts ((statedOf facts r s).map Fact.object) = false) :
    ∃ s', Text.fold s' = Text.fold s ∧
      .severalValues s' r (statedOf facts r s') ∈ checkFunctional facts d := by
  cases hstated : statedOf facts r s with
  | nil =>
    rw [hstated] at h
    cases h
  | cons f fs =>
    obtain ⟨hf, hrel, hfold⟩ := mem_statedOf.mp (hstated ▸ List.mem_cons_self)
    have hmem : f.subject ∈ (factsOf facts r).map (·.2.subject) := by
      refine List.mem_map.mpr ⟨(Text.fold f.subject, f), ?_, rfl⟩
      exact List.mem_map.mpr ⟨f, by simp [List.mem_filter, hf, hrel], rfl⟩
    obtain ⟨s', hs', hfold'⟩ := Text.exists_distinct hmem
    have hsame : Text.fold s' = Text.fold s := hfold'.trans hfold
    refine ⟨s', hsame, mem_checkFunctional.mpr ⟨r, hr, s', hs', ?_, rfl⟩⟩
    rw [statedOf_congr hsame]
    exact h

theorem clear_of_consistent (h : (d.detect facts).consistent = true) : Clear d facts := by
  have hnone : ∀ x, x ∉ (d.detect facts).contradictions := consistent_iff.mp h
  refine ⟨fun p hp a hab => ?_, fun f hf p hp hjoin => ?_, fun r hr s => ?_, ?_,
    fun p hp t ht hlook => ?_, fun k hk m hm hbroken => ?_⟩
  · obtain ⟨e, he, hfold⟩ := exists_entity hab.1
    exact hnone _ (mem_detect_of_disjointness (mem_checkDisjointness.mpr (Or.inl
      ⟨e, he, p, hp, (below_congr hfold rfl).mpr hab.1, (below_congr hfold rfl).mpr hab.2, rfl⟩)))
  · exact hnone _ (mem_detect_of_disjointness
      (mem_checkDisjointness.mpr (Or.inr ⟨f, hf, p, hp, hjoin, rfl⟩)))
  · by_contra hne
    obtain ⟨s', -, hmem⟩ := exists_severalValues hr (by simpa using hne)
    exact hnone _ (mem_detect_of_functional hmem)
  · rw [List.eq_nil_iff_forall_not_mem]
    intro terms hterms
    exact hnone _ (mem_detect_of_taxonomic
      (mem_checkTaxonomic.mpr (Or.inl ⟨terms, hterms, rfl⟩)))
  · exact hnone _ (mem_detect_of_taxonomic
      (mem_checkTaxonomic.mpr (Or.inr ⟨p, hp, t, ht, hlook, rfl⟩)))
  · obtain ⟨x, hx⟩ := exists_mem_checkBounds (m := m) hbroken
    exact hnone x (mem_detect_of_cardinality (mem_checkCardinality.mpr ⟨k, hk, m, hm, hx⟩))

/-! ### One more fact -/

theorem statedOf_append {r s : String}
    (h : ¬ (c.relation = r ∧ Text.fold c.subject = Text.fold s)) :
    statedOf (facts ++ [c]) r s = statedOf facts r s := by
  unfold statedOf
  have hc : (c.relation == r && Text.same c.subject s) = false := by
    rw [Bool.eq_false_iff]
    intro hmatch
    rw [Bool.and_eq_true, beq_iff_eq, Text.same_iff] at hmatch
    exact h hmatch
  rw [List.filter_append, List.filter_cons_of_neg (by simpa using hc), List.filter_nil,
    List.append_nil]

theorem mem_statedOf_append {s : String} (h : Text.fold c.subject = Text.fold s) :
    c ∈ statedOf (facts ++ [c]) c.relation s :=
  mem_statedOf.mpr ⟨by simp, rfl, h⟩

/-- More facts make more terms equivalent. -/
theorem equivalent_append {a b : String} (h : equivalent facts a b = true) :
    equivalent (facts ++ [c]) a b = true := by
  unfold equivalent at *
  rw [List.any_append, ← Bool.or_assoc, h]
  rfl

theorem allEquivalent_append {values : List String} (h : allEquivalent facts values = true) :
    allEquivalent (facts ++ [c]) values = true := by
  cases values with
  | nil => rfl
  | cons a values =>
    unfold allEquivalent at *
    rw [List.all_eq_true] at *
    exact fun b hb => equivalent_append (h b hb)

/-- Values that are not all equivalent are those of the candidate's subject and relation. -/
theorem stated_of_severalValues (hclear : Clear d facts) {r s : String}
    (hr : r ∈ d.functional.toList)
    (h : allEquivalent (facts ++ [c]) ((statedOf (facts ++ [c]) r s).map Fact.object) = false) :
    c.relation = r ∧ Text.fold c.subject = Text.fold s := by
  by_contra hne
  rw [statedOf_append hne, allEquivalent_append (hclear.values r hr s)] at h
  cases h

/-! ### Candidates that are not type facts -/

theorem typeFacts_append (hc : c.relation ≠ Relation.isA) :
    typeFacts (facts ++ [c]) = typeFacts facts := by
  unfold typeFacts
  rw [List.filter_append, List.filter_cons_of_neg (by simpa using hc), List.filter_nil,
    List.append_nil]

/-- **Whatever a candidate brings about that is no type fact takes it up.** -/
theorem involves_of_not_isA (hclear : Clear d facts) (hc : c.relation ≠ Relation.isA)
    {x : Contradiction} (hx : x ∈ (d.detect (facts ++ [c])).contradictions) :
    x.involves c.triple = true := by
  have htype : typeFacts (facts ++ [c]) = typeFacts facts := typeFacts_append hc
  have hup : upward (facts ++ [c]) = upward facts := by unfold upward; rw [htype]
  have hdown : downward (facts ++ [c]) = downward facts := by unfold downward; rw [htype]
  rcases mem_detect.mp hx with ((hx | hx) | hx) | hx
  · rcases mem_checkDisjointness.mp hx with ⟨e, -, p, hp, hsub, hobj, rfl⟩ | ⟨f, hf, p, hp, hj, rfl⟩
    · rcases mem_disjointPairs_append hp with hp | ⟨rfl, -⟩
      · unfold Below at hsub hobj
        rw [hup] at hsub hobj
        exact absurd ⟨hsub, hobj⟩ (hclear.member p hp e)
      · exact Contradiction.involves_of_states (List.mem_append_right _ (by simp)) p.states_self
    · rw [htype] at hf
      rcases mem_disjointPairs_append hp with hp | ⟨rfl, -⟩
      · exact absurd hj (hclear.subtype f hf p hp)
      · refine Contradiction.involves_of_states (f := p) ?_ p.states_self
        exact List.mem_cons_of_mem _ (List.mem_singleton_self p)
  · obtain ⟨r, hr, s, -, hne, rfl⟩ := mem_checkFunctional.mp hx
    obtain ⟨rfl, hfold⟩ := stated_of_severalValues hclear hr hne
    exact Contradiction.involves_of_states (mem_statedOf_append hfold) c.states_self
  · rcases mem_checkTaxonomic.mp hx with ⟨terms, hterms, -⟩ | ⟨p, hp, t, ht, hlook, rfl⟩
    · have hcycles : cycles (facts ++ [c]) = cycles facts := by
        unfold cycles members spellings
        rw [hup, htype]
      rw [hcycles, hclear.cycle] at hterms
      cases hterms
    · rcases mem_disjointPairs_append hp with hp | ⟨rfl, -⟩
      · rw [hdown] at ht hlook
        exact absurd hlook (hclear.inherited p hp t ht)
      · exact Contradiction.involves_of_states (List.mem_singleton_self p) p.states_self
  · obtain ⟨k, hk, m, hm, hx⟩ := mem_checkCardinality.mp hx
    obtain ⟨hfacts, hbroken⟩ := facts_of_mem_checkBounds hx
    have hmembers : membersOf (facts ++ [c]) k.type = membersOf facts k.type := by
      unfold membersOf
      rw [htype]
    rw [hmembers] at hm
    by_cases hmatch : c.relation = k.relation ∧ Text.fold c.subject = Text.fold m
    · refine Contradiction.involves_of_states (f := c) ?_ c.states_self
      rw [hfacts, ← hmatch.1]
      exact mem_statedOf_append hmatch.2
    · rw [statedOf_append hmatch] at hbroken
      exact absurd hbroken (hclear.count k hk m hm)

/-! ### Type facts -/

/-- The ways in which a type fact, added to consistent facts, is taken up by a contradiction: it
closes a cycle, its subject comes to lie below two disjoint types, it joins two disjoint types, or
it is itself one of several values, or of too few or too many facts, that are counted. -/
inductive Exposed (d : Detector) (facts : List Fact) (c : Fact) : Prop
  | cycle : Below (facts ++ [c]) c.subject c.subject → Exposed d facts c
  | pair {p : Fact} : p ∈ facts → p.relation = Relation.disjointWith →
      Below (facts ++ [c]) c.subject p.subject → Below (facts ++ [c]) c.subject p.object →
      Exposed d facts c
  | joined {p : Fact} : p ∈ facts → p.relation = Relation.disjointWith → joins c p = true →
      Exposed d facts c
  | values : Relation.isA ∈ d.functional.toList →
      allEquivalent (facts ++ [c])
        ((statedOf (facts ++ [c]) Relation.isA c.subject).map Fact.object) = false →
      Exposed d facts c
  | count {k : Cardinality} {f : Fact} : k ∈ d.cardinalities → k.relation = Relation.isA →
      f ∈ facts ++ [c] → f.relation = Relation.isA → Text.fold f.subject = Text.fold c.subject →
      Text.fold f.object = Text.fold k.type →
      Broken k (statedOf (facts ++ [c]) Relation.isA c.subject).length → Exposed d facts c

theorem isA_ne_disjointWith : Relation.isA ≠ Relation.disjointWith := by decide

/-- A type fact adds one edge. -/
theorem step_append (hc : c.relation = Relation.isA) {a b : String} :
    Step (upward (facts ++ [c])) a b ↔
      Step (upward facts) a b ∨ Text.fold c.subject = a ∧ Text.fold c.object = b := by
  have htype : typeFacts (facts ++ [c]) = typeFacts facts ++ [c] := by
    unfold typeFacts
    rw [List.filter_append, List.filter_cons_of_pos (by simpa using hc), List.filter_nil]
  rw [step_upward, step_upward, htype]
  simp only [List.mem_append, List.mem_singleton, or_and_right, exists_or, exists_eq_left]

/-- A way along the new edge leads on from its end. -/
theorem transGen_append (hc : c.relation = Relation.isA) {a b : String}
    (h : TransGen (Step (upward (facts ++ [c]))) a b) : TransGen (Step (upward facts)) a b ∨
      ReflTransGen (Step (upward (facts ++ [c]))) (Text.fold c.object) b := by
  induction h using Relation.TransGen.head_induction_on with
  | single hstep =>
    rcases (step_append hc).mp hstep with hstep | ⟨-, hb⟩
    · exact Or.inl (.single hstep)
    · rw [hb]
      exact Or.inr .refl
  | head hstep hrest ih =>
    rcases (step_append hc).mp hstep with hstep | ⟨-, hb⟩
    · exact ih.imp (.head hstep) id
    · rw [hb]
      exact Or.inr hrest.to_reflTransGen

/-- A cycle that a type fact brings about goes along its edge. -/
theorem edge_mem_around (hclear : Clear d facts) (hc : c.relation = Relation.isA)
    {folded : List String} (h : IsCycle (upward (facts ++ [c])) folded) :
    (Text.fold c.subject, Text.fold c.object) ∈ around folded := by
  by_contra hnot
  obtain ⟨a, ha⟩ := List.exists_mem_of_ne_nil _ h.1
  refine acyclic_of_cycles_nil hclear.cycle a (transGen_of_around (fun p hp => ?_) ha)
  rcases (step_append hc).mp (h.2 p hp) with hstep | ⟨hsubject, hobject⟩
  · exact hstep
  · exact absurd (by rw [hsubject, hobject]; exact hp) hnot

/-- The pair in a contradiction of disjoint types, if the candidate is a type fact. -/
theorem pair_mem (hc : c.relation = Relation.isA) {p : Fact}
    (hp : p ∈ disjointPairs (facts ++ [c])) :
    p ∈ disjointPairs facts ∧ p ∈ facts ∧ p.relation = Relation.disjointWith := by
  rcases mem_disjointPairs_append hp with hp | ⟨-, hrel⟩
  · exact ⟨hp, mem_disjointPairs hp⟩
  · exact absurd (hc.symm.trans hrel) isA_ne_disjointWith

/-- A declaration of disjoint types does not state a type fact. -/
theorem not_states_of_disjointWith (hc : c.relation = Relation.isA) {p : Fact}
    (hp : p.relation = Relation.disjointWith) : ¬ p.states c.triple = true := by
  intro h
  have hrel : p.relation = c.relation := (Fact.states_iff.mp h).1
  exact isA_ne_disjointWith (by rw [← hc, ← hrel, hp])

/-- A type below two disjoint types is reported with their declaration alone. -/
theorem not_involves_inheritedDisjoint (hc : c.relation = Relation.isA) {s : String} {p : Fact}
    (hp : p ∈ disjointPairs (facts ++ [c])) :
    ¬ (Contradiction.inheritedDisjoint s p).involves c.triple = true := by
  intro h
  unfold Contradiction.involves at h
  rw [Bool.or_false] at h
  obtain ⟨f, hf, hstates⟩ := List.any_eq_true.mp h
  rw [List.mem_singleton.mp hf] at hstates
  exact not_states_of_disjointWith hc (pair_mem hc hp).2.2 hstates

theorem exposed_of_disjointMember (hc : c.relation = Relation.isA) {e : String} {p : Fact}
    (hp : p ∈ disjointPairs (facts ++ [c])) (hsub : Below (facts ++ [c]) e p.subject)
    (hobj : Below (facts ++ [c]) e p.object)
    (h : (Contradiction.disjointMember e p (memberships (facts ++ [c]) e p)).involves c.triple =
      true) : Exposed d facts c := by
  obtain ⟨-, hmem, hrel⟩ := pair_mem hc hp
  have hfold : Text.fold e = Text.fold c.subject := by
    unfold Contradiction.involves at h
    rw [Bool.or_eq_true] at h
    rcases h with h | h
    · obtain ⟨f, hf, hstates⟩ := List.any_eq_true.mp h
      rcases List.mem_append.mp hf with hf | hf
      · have hsame := (List.mem_filter.mp hf).2
        rw [Bool.and_eq_true, Text.same_iff] at hsame
        rw [← hsame.1]
        exact (Fact.states_iff.mp hstates).2.1
      · rw [List.mem_singleton.mp hf] at hstates
        exact absurd hstates (not_states_of_disjointWith hc hrel)
    · rw [Bool.and_eq_true] at h
      exact Text.same_iff.mp h.1
  exact .pair hmem hrel ((below_congr hfold rfl).mp hsub) ((below_congr hfold rfl).mp hobj)

/-- A contradiction of a cardinality is only taken up by the facts that were counted. -/
theorem exists_states_of_bounds {k : Cardinality} {m : String} {held : List Fact}
    {x : Contradiction} {t : Triple} (hx : x ∈ checkBounds k m held) (h : x.involves t = true) :
    ∃ f ∈ held, f.states t = true := by
  have hfacts := (facts_of_mem_checkBounds hx).1
  have hkind : x.involves t = x.facts.any (·.states t) := by
    unfold checkBounds at hx
    rcases List.mem_append.mp hx with hx | hx
    · split at hx
      · split at hx
        · rw [List.mem_singleton.mp hx]
          exact Bool.or_false _
        · cases hx
      · cases hx
    · split at hx
      · split at hx
        · rw [List.mem_singleton.mp hx]
          exact Bool.or_false _
        · cases hx
      · cases hx
  rw [hkind, hfacts] at h
  exact List.any_eq_true.mp h

/-- A cycle along the edge of a type fact rests on a fact that states it. -/
theorem involves_of_edge (hc : c.relation = Relation.isA) {folded : List String}
    (hedge : (Text.fold c.subject, Text.fold c.object) ∈ around folded)
    (hcycle : IsCycle (upward (facts ++ [c])) folded) :
    (Contradiction.taxonomicCycle (folded.map (written (spellings (facts ++ [c]))))
      (cycleEdges (facts ++ [c]) (folded.map (written (spellings (facts ++ [c])))))).involves
        c.triple = true := by
  obtain ⟨hs, ho⟩ := mem_of_mem_around hedge
  have hsubject := fold_written_of_isCycle hcycle hs
  have hobject := fold_written_of_isCycle hcycle ho
  generalize written (spellings (facts ++ [c])) = w at *
  -- the step in its written form is stated by the candidate, so some first fact states it
  have hstep : (w (Text.fold c.subject), w (Text.fold c.object)) ∈
      around (folded.map w) := by
    rw [around_map]
    exact List.mem_map.mpr ⟨_, hedge, rfl⟩
  have hsome : ((facts ++ [c]).find? (·.states ⟨w (Text.fold c.subject), Relation.isA,
      w (Text.fold c.object)⟩)).isSome = true := by
    rw [List.find?_isSome]
    exact ⟨c, by simp, Fact.states_iff.mpr ⟨hc, hsubject.symm, hobject.symm⟩⟩
  obtain ⟨f, hf⟩ := Option.isSome_iff_exists.mp hsome
  have hmem : f ∈ cycleEdges (facts ++ [c]) (folded.map w) := by
    unfold cycleEdges
    exact List.mem_filterMap.mpr ⟨(w (Text.fold c.subject), w (Text.fold c.object)), hstep, hf⟩
  have hstates : f.states ⟨w (Text.fold c.subject), Relation.isA, w (Text.fold c.object)⟩ = true :=
    List.find?_some (p := fun g : Fact => g.states ⟨w (Text.fold c.subject), Relation.isA, _⟩) hf
  obtain ⟨hrel, hfs, hfo⟩ := Fact.states_iff.mp hstates
  refine Contradiction.involves_of_states hmem ?_
  exact Fact.states_iff.mpr ⟨hrel.trans hc.symm, hfs.trans hsubject, hfo.trans hobject⟩

/-- A member of two disjoint types that was not one of both before has become one by its new
type. -/
theorem involves_of_pair (hclear : Clear d facts) (hc : c.relation = Relation.isA) {p : Fact}
    (hp : p ∈ facts) (hrel : p.relation = Relation.disjointWith)
    (hsub : Below (facts ++ [c]) c.subject p.subject)
    (hobj : Below (facts ++ [c]) c.subject p.object) :
    ∃ x ∈ (d.detect (facts ++ [c])).contradictions, x.involves c.triple = true := by
  obtain ⟨q, hq, hsame⟩ := exists_disjointPair hp hrel
  have hboth := below_of_samePair hsame hsub hobj
  obtain ⟨e, he, hfold⟩ := exists_entity hboth.1
  have hon : ReflTransGen (Step (upward (facts ++ [c]))) (Text.fold c.object)
        (Text.fold q.subject) ∨
      ReflTransGen (Step (upward (facts ++ [c]))) (Text.fold c.object) (Text.fold q.object) := by
    rcases transGen_append hc hboth.1 with hold | hnew
    · rcases transGen_append hc hboth.2 with hold' | hnew
      · exact absurd ⟨hold, hold'⟩ (hclear.member q hq c.subject)
      · exact Or.inr hnew
    · exact Or.inl hnew
  have hmember : c ∈ memberships (facts ++ [c]) e q := by
    refine List.mem_filter.mpr ⟨mem_typeFacts.mpr ⟨by simp, hc⟩, ?_⟩
    rw [Bool.and_eq_true, Text.same_iff, List.any_eq_true]
    refine ⟨hfold.symm, ?_⟩
    rcases hon with hon | hon
    · exact ⟨_, mem_upFrom.mpr hon, by simp⟩
    · exact ⟨_, mem_upFrom.mpr hon, by simp⟩
  refine ⟨.disjointMember e q (memberships (facts ++ [c]) e q), ?_, ?_⟩
  · exact mem_detect_of_disjointness (mem_checkDisjointness.mpr
      (Or.inl ⟨e, he, q, disjointPairs_subset_append c hq, (below_congr hfold rfl).mpr hboth.1,
        (below_congr hfold rfl).mpr hboth.2, rfl⟩))
  · exact Contradiction.involves_of_states (List.mem_append_left _ hmember) c.states_self

/-- **A type fact is taken up only in the ways that are listed.** -/
theorem exposed_of_involves (hclear : Clear d facts) (hc : c.relation = Relation.isA)
    {x : Contradiction} (hx : x ∈ (d.detect (facts ++ [c])).contradictions)
    (hinv : x.involves c.triple = true) : Exposed d facts c := by
  rcases mem_detect.mp hx with ((hx | hx) | hx) | hx
  · rcases mem_checkDisjointness.mp hx with
      ⟨e, -, p, hp, hsub, hobj, rfl⟩ | ⟨f, hf, p, hp, hj, rfl⟩
    · exact exposed_of_disjointMember hc hp hsub hobj hinv
    · obtain ⟨hpair, hmem, hrel⟩ := pair_mem hc hp
      obtain ⟨hf, hisA⟩ := mem_typeFacts.mp hf
      rcases List.mem_append.mp hf with hf | hf
      · exact absurd hj (hclear.subtype f (mem_typeFacts.mpr ⟨hf, hisA⟩) p hpair)
      · rw [List.mem_singleton.mp hf] at hj
        exact .joined hmem hrel hj
  · obtain ⟨r, hr, s, -, hne, -⟩ := mem_checkFunctional.mp hx
    obtain ⟨rfl, hfold⟩ := stated_of_severalValues hclear hr hne
    rw [hc] at hr hne
    rw [statedOf_congr hfold.symm] at hne
    exact .values hr hne
  · rcases mem_checkTaxonomic.mp hx with ⟨terms, hterms, -⟩ | ⟨p, hp, t, -, -, rfl⟩
    · obtain ⟨folded, hcycle, -⟩ := exists_isCycle_of_mem_cycles hterms
      have hedge := edge_mem_around hclear hc hcycle
      exact .cycle (transGen_of_isCycle hcycle (List.of_mem_zip hedge).1)
    · exact absurd hinv (not_involves_inheritedDisjoint hc hp)
  · obtain ⟨k, hk, m, hm, hx⟩ := mem_checkCardinality.mp hx
    obtain ⟨hfacts, hbroken⟩ := facts_of_mem_checkBounds hx
    obtain ⟨f, hf, hstates⟩ := exists_states_of_bounds hx hinv
    obtain ⟨-, hrel, hfold⟩ := mem_statedOf.mp hf
    obtain ⟨hisA, hsubject, -⟩ := Fact.states_iff.mp hstates
    have hkrel : k.relation = Relation.isA := by rw [← hrel, hisA]; exact hc
    have hmfold : Text.fold m = Text.fold c.subject := hfold.symm.trans hsubject
    obtain ⟨g, hg, rfl⟩ := List.mem_map.mp (Text.mem_of_mem_distinct hm)
    obtain ⟨hg, htype⟩ := List.mem_filter.mp hg
    obtain ⟨hg, hgrel⟩ := mem_typeFacts.mp hg
    rw [hkrel, statedOf_congr hmfold] at hbroken
    exact .count hk hkrel hg hgrel hmfold (Text.same_iff.mp htype) hbroken

/-- **A type fact is taken up in each of the ways that are listed.** -/
theorem conflicts_of_exposed (hclear : Clear d facts) (hc : c.relation = Relation.isA)
    (h : Exposed d facts c) :
    ∃ x ∈ (d.detect (facts ++ [c])).contradictions, x.involves c.triple = true := by
  cases h with
  | cycle hbelow =>
    have hne : cycles (facts ++ [c]) ≠ [] := fun hnil => acyclic_of_cycles_nil hnil _ hbelow
    obtain ⟨terms, hterms⟩ := List.exists_mem_of_ne_nil _ hne
    obtain ⟨folded, hcycle, rfl⟩ := exists_isCycle_of_mem_cycles hterms
    refine ⟨_, mem_detect_of_taxonomic (mem_checkTaxonomic.mpr (Or.inl ⟨_, hterms, rfl⟩)), ?_⟩
    exact involves_of_edge hc (edge_mem_around hclear hc hcycle) hcycle
  | pair hp hrel hsub hobj => exact involves_of_pair hclear hc hp hrel hsub hobj
  | @joined p hp hrel hj =>
    obtain ⟨q, hq, hsame⟩ := exists_disjointPair hp hrel
    have hctype : c ∈ typeFacts (facts ++ [c]) := mem_typeFacts.mpr ⟨by simp, hc⟩
    refine ⟨.disjointSubtype c q, mem_detect_of_disjointness (mem_checkDisjointness.mpr (Or.inr
      ⟨c, hctype, q, disjointPairs_subset_append c hq, joins_of_samePair hsame hj, rfl⟩)), ?_⟩
    exact Contradiction.involves_of_states List.mem_cons_self c.states_self
  | values hr hne =>
    obtain ⟨s, hfold, hmem⟩ := exists_severalValues hr hne
    refine ⟨_, mem_detect_of_functional hmem, ?_⟩
    refine Contradiction.involves_of_states (f := c) ?_ c.states_self
    rw [← hc]
    exact mem_statedOf_append hfold.symm
  | @count k f hk hkrel hf hfrel hsubject htype hbroken =>
    have hmem : f.subject ∈ ((typeFacts (facts ++ [c])).filter
        fun f => Text.same f.object k.type).map Fact.subject :=
      List.mem_map_of_mem (List.mem_filter.mpr
        ⟨mem_typeFacts.mpr ⟨hf, hfrel⟩, Text.same_iff.mpr htype⟩)
    obtain ⟨m, hm, hfold⟩ := Text.exists_distinct hmem
    have hmfold : Text.fold m = Text.fold c.subject := hfold.trans hsubject
    rw [← hkrel, ← statedOf_congr hmfold] at hbroken
    obtain ⟨x, hx⟩ := exists_mem_checkBounds (m := m) hbroken
    refine ⟨x, mem_detect_of_cardinality (mem_checkCardinality.mpr ⟨k, hk, m, hm, hx⟩), ?_⟩
    refine Contradiction.involves_of_states (f := c) ?_ c.states_self
    rw [(facts_of_mem_checkBounds hx).1, hkrel, ← hc]
    exact mem_statedOf_append hmfold.symm

/-! ### Completeness -/

/-- **Which harmful candidates are noticed**: all that are not type facts, and of the type facts
those that are taken up in one of the ways that are listed.  Over consistent facts a candidate is
held against them exactly then. -/
theorem conflicts_complete (h : (d.detect facts).consistent = true) :
    d.conflicts c facts ≠ [] ↔ (d.detect (facts ++ [c])).consistent = false ∧
      (c.relation ≠ Relation.isA ∨ Exposed d facts c) := by
  have hclear := clear_of_consistent h
  rw [conflicts_ne_nil_iff]
  constructor
  · rintro ⟨x, hx, hinv⟩
    refine ⟨?_, ?_⟩
    · rw [Bool.eq_false_iff]
      exact fun hcons => consistent_iff.mp hcons x hx
    · by_cases hc : c.relation = Relation.isA
      · exact Or.inr (exposed_of_involves hclear hc hx hinv)
      · exact Or.inl hc
  · rintro ⟨hbad, hwhich⟩
    by_cases hc : c.relation = Relation.isA
    · exact conflicts_of_exposed hclear hc (hwhich.resolve_left (fun hne => hne hc))
    · have hsome : ∃ x, x ∈ (d.detect (facts ++ [c])).contradictions := by
        by_contra hnone
        rw [consistent_iff.mpr (fun x hx => hnone ⟨x, hx⟩)] at hbad
        cases hbad
      obtain ⟨x, hx⟩ := hsome
      exact ⟨x, hx, involves_of_not_isA hclear hc hx⟩

/-- Rex is a dog and a robot, and no animal is a robot. -/
def robotDog : List Fact :=
  [{ triple := ⟨"Rex", "IS_A", "Dog"⟩ }, { triple := ⟨"Rex", "IS_A", "Robot"⟩ },
    { triple := ⟨"Animal", "DISJOINT_WITH", "Robot"⟩ }]

/-- That Rex is an animal is noticed. -/
theorem conflicts_complete_robotDog : (({} : Detector).detect robotDog).consistent = true ∧
    ({} : Detector).conflicts { triple := ⟨"Rex", "IS_A", "Animal"⟩ } robotDog ≠ [] := by
  have hcons : (({} : Detector).detect robotDog).consistent = true := by decide +kernel
  have hanimal : Below (robotDog ++ [{ triple := ⟨"Rex", "IS_A", "Animal"⟩ }]) "Rex" "Animal" :=
    mem_typesOf.mp (by decide +kernel)
  have hrobot : Below (robotDog ++ [{ triple := ⟨"Rex", "IS_A", "Animal"⟩ }]) "Rex" "Robot" :=
    mem_typesOf.mp (by decide +kernel)
  have hpair : { triple := ⟨"Animal", "DISJOINT_WITH", "Robot"⟩ } ∈ robotDog :=
    List.mem_cons_of_mem _ (List.mem_cons_of_mem _ List.mem_cons_self)
  exact ⟨hcons, (conflicts_complete hcons).mpr
    ⟨by decide +kernel, Or.inr (.pair hpair rfl hanimal hrobot)⟩⟩

/-- Dogs are animals. -/
def dogIsAnimal : Fact := { triple := ⟨"Dog", "IS_A", "Animal"⟩ }

/-- **A type fact in the middle of a chain goes unnoticed**: that dogs are animals makes Rex a
member of two disjoint types, and only the facts about Rex are put down to it. -/
theorem hidden_middle_edge : (({} : Detector).detect robotDog).consistent = true ∧
    (({} : Detector).detect (robotDog ++ [dogIsAnimal])).consistent = false ∧
    ({} : Detector).conflicts dogIsAnimal robotDog = [] := by
  refine ⟨by decide +kernel, ?_, ?_⟩
  · rw [Bool.eq_false_iff]
    intro hcons
    have hnone : checkDisjointness (robotDog ++ [dogIsAnimal]) = [] :=
      List.eq_nil_iff_forall_not_mem.mpr fun x hx =>
        consistent_iff.mp hcons x (mem_detect_of_disjointness hx)
    exact absurd hnone (by decide +kernel)
  · by_contra hsome
    obtain ⟨x, hx, hinv⟩ := conflicts_ne_nil_iff.mp hsome
    rcases mem_detect.mp hx with ((hx | hx) | hx) | hx
    · have hfree : ∀ x ∈ checkDisjointness (robotDog ++ [dogIsAnimal]),
          ¬ x.involves dogIsAnimal.triple = true := by decide +kernel
      exact hfree x hx hinv
    · have hnil : checkFunctional (robotDog ++ [dogIsAnimal]) {} = [] := by decide +kernel
      rw [hnil] at hx
      cases hx
    · rcases mem_checkTaxonomic.mp hx with ⟨terms, hterms, -⟩ | ⟨p, hp, t, -, -, rfl⟩
      · have hnil : cycles (robotDog ++ [dogIsAnimal]) = [] := by decide +kernel
        rw [hnil] at hterms
        cases hterms
      · exact not_involves_inheritedDisjoint rfl hp hinv
    · obtain ⟨k, hk, -⟩ := mem_checkCardinality.mp hx
      cases hk

end Detector

end KnowledgeBase
