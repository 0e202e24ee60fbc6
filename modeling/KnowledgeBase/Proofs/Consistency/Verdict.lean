import KnowledgeBase.Proofs.Consistency.Candidate

/-!
# What a consistent verdict asks for

Each check, in terms of what the facts state.

* `Unmixed`, `Unjoined`, `Acyclic`: what the checks of disjointness and of the taxonomy ask;
  `SingleValued`, `WithinBounds`: what the other two ask;
* `consistent_iff_passes`: the verdict of the checks that are asked for;
* `Covered`: everything that some facts state, others state too, however often and in whatever
  order and spelling; what asks for no more than that is passed on.
-/

open Relation (TransGen ReflTransGen)

namespace KnowledgeBase.Detector

open Taxonomy

variable {facts facts' : List Fact} {d : Detector} {checks : Checks}

/-! ### Below a term -/

theorem step_downward {a b : String} : Step (downward facts) a b ↔ Step (upward facts) b a := by
  simp [Step, downward, upward, and_comm]

theorem transGen_downward {a b : String} :
    TransGen (Step (downward facts)) a b ↔ TransGen (Step (upward facts)) b a := by
  have hswap : Step (downward facts) = Function.swap (Step (upward facts)) := by
    funext x y
    exact propext step_downward
  rw [hswap, Relation.transGen_swap]

/-- The terms below a folded term are those that it lies above. -/
theorem mem_descendants {a t : String} :
    t ∈ (descendants (downward facts) a).map Prod.fst ↔ TransGen (Step (upward facts)) t a := by
  unfold descendants
  rw [((List.mergeSort_perm _ _).map Prod.fst).mem_iff, ← transGen_downward]
  exact mem_ancestors

/-- Whatever lies below something is a folded term. -/
theorem exists_fold_of_transGen {t u : String} (h : TransGen (Step (upward facts)) t u) :
    ∃ a, Text.fold a = t := by
  obtain ⟨v, hv, -⟩ := Relation.TransGen.head'_iff.mp h
  obtain ⟨f, -, hf, -⟩ := step_upward.mp hv
  exact ⟨f.subject, hf⟩

/-! ### Terms below two types -/

/-- The terms below the types of a pair that are reported, with the fact that declares it. -/
def inherited (facts : List Fact) (p : Fact) : List Contradiction :=
  ((descendants (downward facts) (Text.fold p.subject)).filter fun t =>
    ((descendants (downward facts) (Text.fold p.object)).lookup t.1).isSome).map
      fun t => .inheritedDisjoint t.2 p

theorem checkTaxonomic_eq : checkTaxonomic facts =
    (cycles facts).map (fun terms => .taxonomicCycle terms (cycleEdges facts terms))
      ++ (disjointPairs facts).flatMap (inherited facts) := rfl

/-- The terms below a folded term: each once, under its folded form. -/
theorem listed_descendants (facts : List Fact) (a : String) :
    ((descendants (downward facts) a).map Prod.fst).Nodup ∧
      ∀ t ∈ descendants (downward facts) a, Text.fold t.2 = t.1 := by
  obtain ⟨hnodup, hedge⟩ := listed_reachable (downward facts) a
  have hperm : (descendants (downward facts) a).Perm (reachable (downward facts) a) :=
    List.mergeSort_perm _ _
  refine ⟨(hperm.map Prod.fst).nodup_iff.mpr hnodup, fun t ht => ?_⟩
  obtain ⟨ed, hed, rfl⟩ := hedge t (hperm.mem_iff.mp ht)
  obtain ⟨f, -, rfl⟩ := List.mem_map.mp hed
  rfl

/-- Every term below both types of a pair is reported, in some spelling. -/
theorem exists_mem_inherited {p : Fact} {e : String} (hsub : Below facts e p.subject)
    (hobj : Below facts e p.object) :
    ∃ t, Text.fold t = Text.fold e ∧ .inheritedDisjoint t p ∈ inherited facts p := by
  obtain ⟨t, ht, hkey⟩ := List.mem_map.mp (mem_descendants.mpr hsub)
  obtain ⟨u, hu, hkey'⟩ := List.mem_map.mp (mem_descendants.mpr hobj)
  have hlook : ((descendants (downward facts) (Text.fold p.object)).lookup t.1).isSome = true := by
    rw [List.lookup_isSome_iff]
    exact ⟨u, hu, by rw [hkey, hkey', beq_self_eq_true]⟩
  exact ⟨t.2, ((listed_descendants facts _).2 t ht).trans hkey,
    List.mem_map_of_mem (List.mem_filter.mpr ⟨ht, hlook⟩)⟩

/-- What is reported under a pair lies below both types. -/
theorem below_of_mem_inherited {p : Fact} {x : Contradiction} (h : x ∈ inherited facts p) :
    Below facts x.subject p.subject ∧ Below facts x.subject p.object := by
  obtain ⟨t, ht, rfl⟩ := List.mem_map.mp h
  obtain ⟨ht, hlook⟩ := List.mem_filter.mp ht
  obtain ⟨u, hu, hkey⟩ := List.lookup_isSome_iff.mp hlook
  have hfold : Text.fold t.2 = t.1 := (listed_descendants facts _).2 t ht
  have hsub := mem_descendants.mp (List.mem_map_of_mem (f := Prod.fst) ht)
  have hobj := mem_descendants.mp (List.mem_map_of_mem (f := Prod.fst) hu)
  rw [← eq_of_beq hkey, ← hfold] at hobj
  rw [← hfold] at hsub
  exact ⟨hsub, hobj⟩

/-! ### What each check asks -/

/-- A fact that declares two types disjoint. -/
def Declares (facts : List Fact) (p : Fact) : Prop :=
  p ∈ facts ∧ p.relation = Relation.disjointWith

/-- No term lies below two types that are declared disjoint. -/
def Unmixed (facts : List Fact) : Prop :=
  ∀ p, Declares facts p → ∀ a, ¬ (Below facts a p.subject ∧ Below facts a p.object)

/-- No type is stated to be a subtype of one that is declared disjoint from it. -/
def Unjoined (facts : List Fact) : Prop :=
  ∀ p, Declares facts p → ∀ f ∈ typeFacts facts, ¬ joins f p = true

/-- No term lies below itself. -/
def Acyclic (facts : List Fact) : Prop := ∀ a, ¬ Below facts a a

/-- The values of a subject and a relation, in the order of their facts. -/
def valuesOf (facts : List Fact) (relation subject : String) : List String :=
  (statedOf facts relation subject).map Fact.object

/-- Every value of a single-valued relation is equivalent to the first one of its subject. -/
def SingleValued (d : Detector) (facts : List Fact) : Prop :=
  ∀ r ∈ d.functional.toList, ∀ s, allEquivalent facts (valuesOf facts r s) = true

/-- A term is stated to be of a type. -/
def MemberOf (facts : List Fact) (type m : String) : Prop :=
  ∃ f ∈ typeFacts facts, Text.fold f.subject = Text.fold m ∧ Text.fold f.object = Text.fold type

/-- No direct member of a type that is counted has a count out of bounds. -/
def WithinBounds (d : Detector) (facts : List Fact) : Prop :=
  ∀ k ∈ d.cardinalities, ∀ m, MemberOf facts k.type m →
    ¬ Broken k (statedOf facts k.relation m).length

theorem checkDisjointness_eq_nil_iff :
    checkDisjointness facts = [] ↔ Unmixed facts ∧ Unjoined facts := by
  rw [List.eq_nil_iff_forall_not_mem]
  constructor
  · intro hnone
    refine ⟨fun p hp a hab => ?_, fun p hp f hf hj => ?_⟩
    · obtain ⟨q, hq, hsame⟩ := exists_disjointPair hp.1 hp.2
      obtain ⟨e, he, hfold⟩ := exists_entity hab.1
      obtain ⟨hsub, hobj⟩ := below_of_samePair hsame ((below_congr hfold rfl).mpr hab.1)
        ((below_congr hfold rfl).mpr hab.2)
      exact hnone _ (mem_checkDisjointness.mpr (Or.inl ⟨e, he, q, hq, hsub, hobj, rfl⟩))
    · obtain ⟨q, hq, hsame⟩ := exists_disjointPair hp.1 hp.2
      exact hnone _ (mem_checkDisjointness.mpr
        (Or.inr ⟨f, hf, q, hq, joins_of_samePair hsame hj, rfl⟩))
  · rintro ⟨hmixed, hjoined⟩ x hx
    rcases mem_checkDisjointness.mp hx with ⟨e, -, p, hp, hsub, hobj, -⟩ | ⟨f, hf, p, hp, hj, -⟩
    · exact hmixed p (mem_disjointPairs hp) e ⟨hsub, hobj⟩
    · exact hjoined p (mem_disjointPairs hp) f hf hj

theorem checkFunctional_eq_nil_iff : checkFunctional facts d = [] ↔ SingleValued d facts := by
  rw [List.eq_nil_iff_forall_not_mem]
  constructor
  · intro hnone r hr s
    by_contra hne
    obtain ⟨s', -, hmem⟩ := exists_severalValues hr (by simpa [valuesOf] using hne)
    exact hnone _ hmem
  · intro hvalues x hx
    obtain ⟨r, hr, s, -, hne, -⟩ := mem_checkFunctional.mp hx
    have hall : allEquivalent facts (valuesOf facts r s) = true := hvalues r hr s
    unfold valuesOf at hall
    rw [hne] at hall
    cases hall

theorem cycles_eq_nil_iff : cycles facts = [] ↔ Acyclic facts := by
  constructor
  · exact fun hnil a => acyclic_of_cycles_nil hnil (Text.fold a)
  · intro hacyclic
    rw [List.eq_nil_iff_forall_not_mem]
    intro terms hterms
    obtain ⟨folded, hcycle, -⟩ := exists_isCycle_of_mem_cycles hterms
    obtain ⟨t, ht⟩ := List.exists_mem_of_ne_nil _ hcycle.1
    have hback := transGen_of_isCycle hcycle ht
    obtain ⟨a, rfl⟩ := exists_fold_of_transGen hback
    exact hacyclic a hback

theorem inherited_eq_nil_iff :
    (disjointPairs facts).flatMap (inherited facts) = [] ↔ Unmixed facts := by
  rw [List.flatMap_eq_nil_iff]
  constructor
  · intro hnone p hp a hab
    obtain ⟨q, hq, hsame⟩ := exists_disjointPair hp.1 hp.2
    obtain ⟨hsub, hobj⟩ := below_of_samePair hsame hab.1 hab.2
    obtain ⟨t, -, ht⟩ := exists_mem_inherited hsub hobj
    rw [hnone q hq] at ht
    cases ht
  · intro hmixed q hq
    rw [List.eq_nil_iff_forall_not_mem]
    exact fun x hx => hmixed q (mem_disjointPairs hq) x.subject (below_of_mem_inherited hx)

theorem checkTaxonomic_eq_nil_iff :
    checkTaxonomic facts = [] ↔ Acyclic facts ∧ Unmixed facts := by
  rw [checkTaxonomic_eq, List.append_eq_nil_iff, List.map_eq_nil_iff, cycles_eq_nil_iff,
    inherited_eq_nil_iff]

theorem mem_membersOf {type m : String} (h : m ∈ membersOf facts type) : MemberOf facts type m := by
  obtain ⟨f, hf, hsubject⟩ := List.mem_map.mp (Text.mem_of_mem_distinct h)
  obtain ⟨hf, htype⟩ := List.mem_filter.mp hf
  exact ⟨f, hf, by rw [hsubject], Text.same_iff.mp htype⟩

theorem exists_membersOf {type m : String} (h : MemberOf facts type m) :
    ∃ m' ∈ membersOf facts type, Text.fold m' = Text.fold m := by
  obtain ⟨f, hf, hsubject, htype⟩ := h
  have hmem : f.subject ∈ ((typeFacts facts).filter
      fun f => Text.same f.object type).map Fact.subject :=
    List.mem_map_of_mem (List.mem_filter.mpr ⟨hf, Text.same_iff.mpr htype⟩)
  obtain ⟨m', hm', hfold⟩ := Text.exists_distinct hmem
  exact ⟨m', hm', hfold.trans hsubject⟩

theorem checkCardinality_eq_nil_iff : checkCardinality facts d = [] ↔ WithinBounds d facts := by
  rw [List.eq_nil_iff_forall_not_mem]
  constructor
  · intro hnone k hk m hm hbroken
    obtain ⟨m', hm', hfold⟩ := exists_membersOf hm
    rw [← statedOf_congr hfold] at hbroken
    obtain ⟨x, hx⟩ := exists_mem_checkBounds (m := m') hbroken
    exact hnone x (mem_checkCardinality.mpr ⟨k, hk, m', hm', hx⟩)
  · intro hbounds x hx
    obtain ⟨k, hk, m, hm, hx⟩ := mem_checkCardinality.mp hx
    exact hbounds k hk m (mem_membersOf hm) (facts_of_mem_checkBounds hx).2

/-! ### The verdict -/

/-- What the checks that are asked for ask of facts. -/
structure Passes (d : Detector) (facts : List Fact) (checks : Checks) : Prop where
  disjointness : checks.disjointness = true → Unmixed facts ∧ Unjoined facts
  functional : checks.functional = true → SingleValued d facts
  taxonomic : checks.taxonomic = true → Acyclic facts ∧ Unmixed facts
  cardinality : checks.cardinality = true → WithinBounds d facts

theorem ite_eq_nil_iff {α : Type} {b : Bool} {l : List α} :
    (if b then l else []) = [] ↔ (b = true → l = []) := by
  cases b <;> simp

/-- **The facts are consistent exactly if every check that is asked for is passed.** -/
theorem consistent_iff_passes : (d.detect facts checks).consistent = true ↔
    Passes d facts checks := by
  unfold Report.consistent detect
  simp only [List.isEmpty_iff, List.append_eq_nil_iff, ite_eq_nil_iff,
    checkDisjointness_eq_nil_iff, checkFunctional_eq_nil_iff, checkTaxonomic_eq_nil_iff,
    checkCardinality_eq_nil_iff]
  constructor
  · rintro ⟨⟨⟨h1, h2⟩, h3⟩, h4⟩
    exact ⟨h1, h2, h3, h4⟩
  · rintro ⟨h1, h2, h3, h4⟩
    exact ⟨⟨⟨h1, h2⟩, h3⟩, h4⟩

/-! ### Facts that state no less -/

/-- Every fact of the first list is stated in the second one, up to spelling. -/
def Covered (facts facts' : List Fact) : Prop := ∀ f ∈ facts, ∃ g ∈ facts', g.states f.triple = true

theorem covered_of_subset (h : facts ⊆ facts') : Covered facts facts' :=
  fun f hf => ⟨f, h hf, f.states_self⟩

/-- A fact of a relation has a counterpart with the same terms. -/
theorem Covered.exists_fact (h : Covered facts facts') {f : Fact} (hf : f ∈ facts) :
    ∃ g ∈ facts', g.relation = f.relation ∧ Text.fold g.subject = Text.fold f.subject ∧
      Text.fold g.object = Text.fold f.object := by
  obtain ⟨g, hg, hstates⟩ := h f hf
  exact ⟨g, hg, Fact.states_iff.mp hstates⟩

theorem Covered.exists_typeFact (h : Covered facts facts') {f : Fact} (hf : f ∈ typeFacts facts) :
    ∃ g ∈ typeFacts facts', Text.fold g.subject = Text.fold f.subject ∧
      Text.fold g.object = Text.fold f.object := by
  obtain ⟨hf, hrel⟩ := mem_typeFacts.mp hf
  obtain ⟨g, hg, hgrel, hterms⟩ := h.exists_fact hf
  exact ⟨g, mem_typeFacts.mpr ⟨hg, hgrel.trans hrel⟩, hterms⟩

theorem Covered.below (h : Covered facts facts') {a b : String} (hab : Below facts a b) :
    Below facts' a b := by
  have hstep : ∀ x y, Step (upward facts) x y → Step (upward facts') x y := by
    intro x y hxy
    obtain ⟨f, hf, rfl, rfl⟩ := step_upward.mp hxy
    obtain ⟨g, hg, hsubject, hobject⟩ := h.exists_typeFact hf
    exact step_upward.mpr ⟨g, hg, hsubject, hobject⟩
  exact Relation.TransGen.mono hstep _ _ hab

theorem Covered.exists_declaration (h : Covered facts facts') {p : Fact} (hp : Declares facts p) :
    ∃ q, Declares facts' q ∧ SamePair q p := by
  obtain ⟨q, hq, hrel, hterms⟩ := h.exists_fact hp.1
  exact ⟨q, ⟨hq, hrel.trans hp.2⟩, Or.inl hterms⟩

theorem Covered.unmixed (h : Covered facts facts') (hmixed : Unmixed facts') : Unmixed facts := by
  intro p hp a hab
  obtain ⟨q, hq, hsame⟩ := h.exists_declaration hp
  exact hmixed q hq a (below_of_samePair hsame (h.below hab.1) (h.below hab.2))

theorem Covered.unjoined (h : Covered facts facts') (hjoined : Unjoined facts') :
    Unjoined facts := by
  intro p hp f hf hj
  obtain ⟨q, hq, hsame⟩ := h.exists_declaration hp
  obtain ⟨g, hg, hsubject, hobject⟩ := h.exists_typeFact hf
  refine hjoined q hq g hg (joins_of_samePair hsame ?_)
  rw [joins_congr hsubject hobject]
  exact hj

theorem Covered.acyclic (h : Covered facts facts') (hacyclic : Acyclic facts') : Acyclic facts :=
  fun a ha => hacyclic a (h.below ha)

theorem Covered.memberOf (h : Covered facts facts') {type m : String} (hm : MemberOf facts type m) :
    MemberOf facts' type m := by
  obtain ⟨f, hf, hsubject, htype⟩ := hm
  obtain ⟨g, hg, hgsubject, hgobject⟩ := h.exists_typeFact hf
  exact ⟨g, hg, hgsubject.trans hsubject, hgobject.trans htype⟩

theorem Covered.equivalent (h : Covered facts facts') {a b : String}
    (hab : equivalent facts a b = true) : equivalent facts' a b = true := by
  unfold Detector.equivalent at *
  simp only [Bool.or_eq_true, List.any_eq_true, Bool.and_eq_true, beq_iff_eq, Text.same_iff] at *
  rcases hab with hab | ⟨f, hf, hrel, hterms⟩
  · exact Or.inl hab
  · obtain ⟨g, hg, hgrel, hgsubject, hgobject⟩ := h.exists_fact hf
    refine Or.inr ⟨g, hg, hgrel.trans hrel, ?_⟩
    rwa [hgsubject, hgobject]

/-- Disjointness and the taxonomy ask for no more than what is stated; the values and the counts
also hang on how it is. -/
theorem Covered.passes (h : Covered facts facts') (hpass : Passes d facts' checks)
    (hvalues : checks.functional = true → SingleValued d facts' → SingleValued d facts)
    (hbounds : checks.cardinality = true → WithinBounds d facts' → WithinBounds d facts) :
    Passes d facts checks where
  disjointness := fun hc =>
    ⟨h.unmixed (hpass.disjointness hc).1, h.unjoined (hpass.disjointness hc).2⟩
  functional := fun hc => hvalues hc (hpass.functional hc)
  taxonomic := fun hc => ⟨h.acyclic (hpass.taxonomic hc).1, h.unmixed (hpass.taxonomic hc).2⟩
  cardinality := fun hc => hbounds hc (hpass.cardinality hc)

end KnowledgeBase.Detector
