import KnowledgeBase.Consistency.Detector
import KnowledgeBase.Proofs.Consistency.Cycles

/-!
# What a consistency report holds

When a contradiction of each kind is reported.

* `mem_typesOf`, `mem_upFrom`: the types of an entity are the terms that lie above it;
* `keepPair`, `mem_disjointPairs`, `exists_disjointPair`, `pairwise_disjointPairs`: one declaration
  is kept for each unordered pair, and stands for the others;
* `memberViolations`, `subtypeViolations`: the two parts of the check of disjointness;
* `mem_checkDisjointness`, `mem_checkFunctional`, `mem_checkTaxonomic`, `mem_checkCardinality`: the
  contradictions of each check;
* `consistent_iff`: a report is consistent if no check finds anything.
-/

open Relation (TransGen ReflTransGen)

namespace KnowledgeBase.Detector

open Taxonomy

variable {facts : List Fact} {d : Detector}

/-! ### Types of an entity -/

/-- A term lies strictly below another by way of the type facts. -/
def Below (facts : List Fact) (a b : String) : Prop :=
  TransGen (Step (upward facts)) (Text.fold a) (Text.fold b)

/-- Spellings do not matter to what lies below what. -/
theorem below_congr {a a' b b' : String} (ha : Text.fold a = Text.fold a')
    (hb : Text.fold b = Text.fold b') : Below facts a b ↔ Below facts a' b' := by
  unfold Below
  rw [ha, hb]

theorem mem_upFrom {edges : List Edge} {a t : String} :
    t ∈ upFrom edges a ↔ ReflTransGen (Step edges) a t := by
  unfold upFrom
  rw [List.mem_cons, mem_ancestors, Relation.reflTransGen_iff_eq_or_transGen]

theorem mem_typesOf {edges : List Edge} {e t : String} :
    t ∈ typesOf edges e ↔ TransGen (Step edges) (Text.fold e) t := by
  unfold typesOf
  simp only [List.mem_flatMap, List.mem_filter, mem_upFrom, Relation.TransGen.head'_iff]
  constructor
  · rintro ⟨ed, ⟨hed, hsource⟩, hup⟩
    exact ⟨ed.target, ⟨ed, hed, by simpa using hsource, rfl⟩, hup⟩
  · rintro ⟨u, ⟨ed, hed, hsource, rfl⟩, hup⟩
    exact ⟨ed, ⟨hed, by simpa using hsource⟩, hup⟩

theorem mem_typeFacts {f : Fact} : f ∈ typeFacts facts ↔ f ∈ facts ∧ f.relation = Relation.isA := by
  simp [typeFacts, List.mem_filter]

/-- A term with something above it is an entity, in some spelling. -/
theorem exists_entity {a t : String} (h : TransGen (Step (upward facts)) (Text.fold a) t) :
    ∃ e ∈ entities facts, Text.fold e = Text.fold a := by
  obtain ⟨u, hu, -⟩ := Relation.TransGen.head'_iff.mp h
  obtain ⟨f, hf, hsubject, -⟩ := step_upward.mp hu
  obtain ⟨e, he, hfold⟩ := Text.exists_distinct (List.mem_map_of_mem (f := Fact.subject) hf)
  exact ⟨e, he, hfold.trans hsubject⟩

theorem below_of_typeFact {f : Fact} (hf : f ∈ typeFacts facts) :
    Below facts f.subject f.object := TransGen.single (step_upward.mpr ⟨f, hf, rfl, rfl⟩)

/-! ### Disjoint pairs -/

/-- Two declarations name the same types, in either order. -/
def SamePair (p q : Fact) : Prop :=
  Text.fold p.subject = Text.fold q.subject ∧ Text.fold p.object = Text.fold q.object ∨
    Text.fold p.subject = Text.fold q.object ∧ Text.fold p.object = Text.fold q.subject

theorem samePair_of_pairKey {p q : Fact} (h : pairKey p = pairKey q) : SamePair p q := by
  unfold pairKey at h
  dsimp only at h
  by_cases hp : Text.fold p.object < Text.fold p.subject
  · rw [if_pos hp] at h
    split at h
    · exact Or.inl ⟨(Prod.mk.inj h).2, (Prod.mk.inj h).1⟩
    · exact Or.inr ⟨(Prod.mk.inj h).2, (Prod.mk.inj h).1⟩
  · rw [if_neg hp] at h
    split at h
    · exact Or.inr (Prod.mk.inj h)
    · exact Or.inl (Prod.mk.inj h)

theorem samePair_iff {p q : Fact} : SamePair p q ↔ pairKey p = pairKey q := by
  refine ⟨?_, samePair_of_pairKey⟩
  rintro (⟨h1, h2⟩ | ⟨h1, h2⟩)
  · unfold pairKey
    rw [h1, h2]
  · unfold pairKey
    rw [h1, h2]
    dsimp only
    by_cases hlt : Text.fold q.subject < Text.fold q.object
    · rw [if_pos hlt, if_neg (String.lt_asymm hlt)]
    · rw [if_neg hlt]
      split
      · rfl
      · rename_i hge
        rw [String.le_antisymm (String.not_lt.mp hge) (String.not_lt.mp hlt)]

theorem SamePair.symm {p q : Fact} (h : SamePair p q) : SamePair q p := by
  rw [samePair_iff] at *
  exact h.symm

theorem joins_iff {f p : Fact} : joins f p = true ↔
    Text.fold f.subject = Text.fold p.subject ∧ Text.fold f.object = Text.fold p.object ∨
      Text.fold f.subject = Text.fold p.object ∧ Text.fold f.object = Text.fold p.subject := by
  simp [joins, Text.same_iff]

theorem joins_of_samePair {f p q : Fact} (h : SamePair q p) (hj : joins f p = true) :
    joins f q = true := by
  rw [joins_iff] at *
  rcases h with ⟨h1, h2⟩ | ⟨h1, h2⟩
  · rwa [h1, h2]
  · rw [h1, h2]
    exact hj.symm

/-- What makes a term a subtype of its partner hangs on spellings no more than the pair does. -/
theorem joins_congr {f g p : Fact} (hsubject : Text.fold g.subject = Text.fold f.subject)
    (hobject : Text.fold g.object = Text.fold f.object) : joins g p = joins f p := by
  unfold joins Text.same
  rw [hsubject, hobject]

/-- A pair that was kept stands for the declaration. -/
theorem below_of_samePair {p q : Fact} (h : SamePair q p) {a : String}
    (hsub : Below facts a p.subject) (hobj : Below facts a p.object) :
    Below facts a q.subject ∧ Below facts a q.object := by
  rcases h with ⟨h1, h2⟩ | ⟨h1, h2⟩
  · exact ⟨(below_congr rfl h1).mpr hsub, (below_congr rfl h2).mpr hobj⟩
  · exact ⟨(below_congr rfl h1).mpr hobj, (below_congr rfl h2).mpr hsub⟩

/-! ### Kept declarations -/

variable {fs kept : List Fact} {p : Fact}

/-- A declaration is kept, unless one of the same types was kept before. -/
def keepPair (kept : List Fact) (f : Fact) : List Fact :=
  if kept.any (pairKey · == pairKey f) then kept else kept ++ [f]

theorem disjointPairs_eq :
    disjointPairs facts = (facts.filter (·.relation == Relation.disjointWith)).foldl keepPair [] :=
  rfl

theorem keepPair_cases (kept : List Fact) (f : Fact) :
    (keepPair kept f = kept ∧ ∃ q ∈ kept, SamePair q f) ∨
      keepPair kept f = kept ++ [f] ∧ ∀ q ∈ kept, ¬ SamePair q f := by
  have hany : kept.any (pairKey · == pairKey f) = true ↔ ∃ q ∈ kept, SamePair q f := by
    simp only [List.any_eq_true, beq_iff_eq, samePair_iff]
  unfold keepPair
  split
  · rename_i hold
    exact Or.inl ⟨rfl, hany.mp hold⟩
  · rename_i hnew
    exact Or.inr ⟨rfl, fun q hq hsame => hnew (hany.mpr ⟨q, hq, hsame⟩)⟩

theorem initial_keepPairs (fs kept : List Fact) : kept <+: fs.foldl keepPair kept := by
  induction fs generalizing kept with
  | nil => exact List.prefix_rfl
  | cons f fs ih =>
    rw [List.foldl_cons]
    rcases keepPair_cases kept f with ⟨heq, -⟩ | ⟨heq, -⟩ <;> rw [heq]
    · exact ih kept
    · exact (List.prefix_append _ _).trans (ih _)

theorem mem_keepPairs (h : p ∈ fs.foldl keepPair kept) : p ∈ kept ∨ p ∈ fs := by
  induction fs generalizing kept with
  | nil => exact Or.inl h
  | cons f fs ih =>
    rw [List.foldl_cons] at h
    rcases ih h with h | h
    · rcases keepPair_cases kept f with ⟨heq, -⟩ | ⟨heq, -⟩ <;> rw [heq] at h
      · exact Or.inl h
      · rw [List.mem_append, List.mem_singleton] at h
        exact h.imp id fun hf => List.mem_cons.mpr (Or.inl hf)
    · exact Or.inr (List.mem_cons_of_mem _ h)

theorem exists_keepPairs (hp : p ∈ fs) : ∃ q ∈ fs.foldl keepPair kept, SamePair q p := by
  induction fs generalizing kept with
  | nil => cases hp
  | cons f fs ih =>
    rw [List.foldl_cons]
    rcases List.mem_cons.mp hp with rfl | hp
    · rcases keepPair_cases kept p with ⟨heq, q, hq, hsame⟩ | ⟨heq, -⟩ <;> rw [heq]
      · exact ⟨q, (initial_keepPairs fs _).subset hq, hsame⟩
      · exact ⟨p, (initial_keepPairs fs _).subset (by simp), Or.inl ⟨rfl, rfl⟩⟩
    · exact ih hp

theorem pairwise_keepPairs (fs : List Fact) (h : kept.Pairwise fun p q => ¬ SamePair p q) :
    (fs.foldl keepPair kept).Pairwise fun p q => ¬ SamePair p q := by
  induction fs generalizing kept with
  | nil => exact h
  | cons f fs ih =>
    rw [List.foldl_cons]
    rcases keepPair_cases kept f with ⟨heq, -⟩ | ⟨heq, hnew⟩ <;> rw [heq]
    · exact ih h
    · refine ih (List.pairwise_append.mpr ⟨h, List.pairwise_singleton _ _, fun p hp q hq => ?_⟩)
      rw [List.mem_singleton.mp hq]
      exact hnew p hp

/-- Each unordered pair is kept once. -/
theorem pairwise_disjointPairs (facts : List Fact) :
    (disjointPairs facts).Pairwise fun p q => ¬ SamePair p q :=
  pairwise_keepPairs _ List.Pairwise.nil

theorem mem_disjointPairs (h : p ∈ disjointPairs facts) :
    p ∈ facts ∧ p.relation = Relation.disjointWith := by
  rcases mem_keepPairs h with h | h
  · cases h
  · simpa [List.mem_filter] using h

/-- A declaration of disjoint types is represented among the pairs. -/
theorem exists_disjointPair (hp : p ∈ facts) (hrel : p.relation = Relation.disjointWith) :
    ∃ q ∈ disjointPairs facts, SamePair q p :=
  exists_keepPairs (List.mem_filter.mpr ⟨hp, by simp [hrel]⟩)

/-- One more fact adds at most itself to the pairs, and only if it declares types disjoint. -/
theorem mem_disjointPairs_append {c : Fact} (h : p ∈ disjointPairs (facts ++ [c])) :
    p ∈ disjointPairs facts ∨ p = c ∧ c.relation = Relation.disjointWith := by
  rw [disjointPairs_eq, List.filter_append, List.foldl_append] at h
  rcases mem_keepPairs h with h | h
  · exact Or.inl h
  · obtain ⟨hc, hrel⟩ := List.mem_filter.mp h
    rw [List.mem_singleton.mp hc] at hrel ⊢
    exact Or.inr ⟨rfl, by simpa using hrel⟩

theorem disjointPairs_subset_append (c : Fact) :
    disjointPairs facts ⊆ disjointPairs (facts ++ [c]) := by
  rw [disjointPairs_eq, disjointPairs_eq, List.filter_append, List.foldl_append]
  exact (initial_keepPairs _ _).subset

/-! ### Facts of a relation -/

/-- The facts of a relation about a subject, up to spelling. -/
def statedOf (facts : List Fact) (relation subject : String) : List Fact :=
  facts.filter fun f => f.relation == relation && Text.same f.subject subject

theorem about_factsOf (relation subject : String) :
    about (factsOf facts relation) subject = statedOf facts relation subject := by
  unfold about factsOf statedOf
  dsimp only
  rw [List.filter_map, List.map_map, List.filter_filter]
  have hid : (Prod.snd ∘ fun f : Fact => (Text.fold f.subject, f)) = id := rfl
  rw [hid, List.map_id]
  refine List.filter_congr fun f _ => ?_
  rw [Bool.and_comm]
  rfl

theorem mem_statedOf {relation subject : String} {f : Fact} :
    f ∈ statedOf facts relation subject ↔
      f ∈ facts ∧ f.relation = relation ∧ Text.fold f.subject = Text.fold subject := by
  simp [statedOf, List.mem_filter, Text.same_iff]

/-! ### Contradictions of each check -/

/-- Entities that are of both types of a pair. -/
def memberViolations (facts : List Fact) : List Contradiction :=
  (entities facts).flatMap fun e =>
    ((disjointPairs facts).filter fun p =>
      (typesOf (upward facts) e).contains (Text.fold p.subject) &&
        (typesOf (upward facts) e).contains (Text.fold p.object)).map
      fun p => .disjointMember e p (memberships facts e p)

/-- Facts that make a type a subtype of its partner. -/
def subtypeViolations (facts : List Fact) : List Contradiction :=
  (typeFacts facts).flatMap fun f =>
    ((disjointPairs facts).filter (joins f)).map (.disjointSubtype f)

theorem checkDisjointness_eq :
    checkDisjointness facts = memberViolations facts ++ subtypeViolations facts := by
  unfold checkDisjointness
  dsimp only
  split
  · rename_i hnil
    rw [List.isEmpty_iff] at hnil
    simp [memberViolations, subtypeViolations, hnil]
  · rfl

theorem mem_memberViolations {x : Contradiction} : x ∈ memberViolations facts ↔
    ∃ e ∈ entities facts, ∃ p ∈ disjointPairs facts, Below facts e p.subject ∧
      Below facts e p.object ∧ x = .disjointMember e p (memberships facts e p) := by
  simp only [memberViolations, List.mem_flatMap, List.mem_map, List.mem_filter, Bool.and_eq_true,
    List.contains_iff_mem, mem_typesOf, Below, and_assoc, @eq_comm _ x]

theorem mem_subtypeViolations {x : Contradiction} : x ∈ subtypeViolations facts ↔
    ∃ f ∈ typeFacts facts, ∃ p ∈ disjointPairs facts, joins f p = true ∧
      x = .disjointSubtype f p := by
  simp only [subtypeViolations, List.mem_flatMap, List.mem_map, List.mem_filter, and_assoc,
    @eq_comm _ x]

theorem mem_checkDisjointness {x : Contradiction} : x ∈ checkDisjointness facts ↔
    (∃ e ∈ entities facts, ∃ p ∈ disjointPairs facts, Below facts e p.subject ∧
        Below facts e p.object ∧ x = .disjointMember e p (memberships facts e p)) ∨
      ∃ f ∈ typeFacts facts, ∃ p ∈ disjointPairs facts, joins f p = true ∧
        x = .disjointSubtype f p := by
  rw [checkDisjointness_eq, List.mem_append, mem_memberViolations, mem_subtypeViolations]

theorem mem_checkFunctional {x : Contradiction} : x ∈ checkFunctional facts d ↔
    ∃ r ∈ d.functional.toList, ∃ s ∈ Text.distinct ((factsOf facts r).map (·.2.subject)),
      allEquivalent facts ((statedOf facts r s).map Fact.object) = false ∧
        x = .severalValues s r (statedOf facts r s) := by
  unfold checkFunctional
  dsimp only
  simp only [List.mem_flatMap, List.mem_filterMap, about_factsOf]
  refine exists_congr fun r => and_congr_right fun _ => exists_congr fun s =>
    and_congr_right fun _ => ?_
  cases allEquivalent facts ((statedOf facts r s).map Fact.object) with
  | true => simp
  | false => simp [eq_comm]

theorem mem_checkTaxonomic {x : Contradiction} : x ∈ checkTaxonomic facts ↔
    (∃ terms ∈ cycles facts, x = .taxonomicCycle terms (cycleEdges facts terms)) ∨
      ∃ p ∈ disjointPairs facts, ∃ t ∈ descendants (downward facts) (Text.fold p.subject),
        ((descendants (downward facts) (Text.fold p.object)).lookup t.1).isSome = true ∧
          x = .inheritedDisjoint t.2 p := by
  unfold checkTaxonomic
  dsimp only
  simp only [List.mem_append, List.mem_map, List.mem_flatMap, List.mem_filter, and_assoc,
    @eq_comm _ x]

/-- The number of facts is out of bounds. -/
def Broken (k : Cardinality) (count : Nat) : Prop :=
  (∃ low, k.minimum = some low ∧ count < low) ∨ ∃ high, k.maximum = some high ∧ high < count

/-- Whatever is wrong with a count rests on the facts that were counted. -/
theorem facts_of_mem_checkBounds {k : Cardinality} {m : String} {held : List Fact}
    {x : Contradiction} (h : x ∈ checkBounds k m held) : x.facts = held ∧ Broken k held.length := by
  unfold checkBounds at h
  rcases List.mem_append.mp h with h | h
  · split at h
    · rename_i low hlow
      split at h
      · rw [List.mem_singleton.mp h]
        exact ⟨rfl, Or.inl ⟨low, hlow, by assumption⟩⟩
      · cases h
    · cases h
  · split at h
    · rename_i high hhigh
      split at h
      · rw [List.mem_singleton.mp h]
        exact ⟨rfl, Or.inr ⟨high, hhigh, by assumption⟩⟩
      · cases h
    · cases h

theorem exists_mem_checkBounds {k : Cardinality} {m : String} {held : List Fact}
    (h : Broken k held.length) : ∃ x, x ∈ checkBounds k m held := by
  unfold checkBounds
  rcases h with ⟨low, hlow, hlt⟩ | ⟨high, hhigh, hlt⟩
  · rw [hlow]
    exact ⟨.tooFew m k.relation held low, List.mem_append_left _ (by simp [hlt])⟩
  · rw [hhigh]
    exact ⟨.tooMany m k.relation held high, List.mem_append_right _ (by simp [hlt])⟩

theorem mem_checkCardinality {x : Contradiction} : x ∈ checkCardinality facts d ↔
    ∃ k ∈ d.cardinalities, ∃ m ∈ membersOf facts k.type,
      x ∈ checkBounds k m (statedOf facts k.relation m) := by
  unfold checkCardinality
  simp only [List.mem_flatMap, about_factsOf]

/-! ### Whole reports -/

theorem mem_detect {x : Contradiction} : x ∈ (d.detect facts).contradictions ↔
    ((x ∈ checkDisjointness facts ∨ x ∈ checkFunctional facts d) ∨ x ∈ checkTaxonomic facts) ∨
      x ∈ checkCardinality facts d := by
  simp [detect, or_assoc]

theorem mem_detect_of_disjointness {x : Contradiction} (h : x ∈ checkDisjointness facts) :
    x ∈ (d.detect facts).contradictions := mem_detect.mpr (Or.inl (Or.inl (Or.inl h)))

theorem mem_detect_of_functional {x : Contradiction} (h : x ∈ checkFunctional facts d) :
    x ∈ (d.detect facts).contradictions := mem_detect.mpr (Or.inl (Or.inl (Or.inr h)))

theorem mem_detect_of_taxonomic {x : Contradiction} (h : x ∈ checkTaxonomic facts) :
    x ∈ (d.detect facts).contradictions := mem_detect.mpr (Or.inl (Or.inr h))

theorem mem_detect_of_cardinality {x : Contradiction} (h : x ∈ checkCardinality facts d) :
    x ∈ (d.detect facts).contradictions := mem_detect.mpr (Or.inr h)

theorem consistent_iff : (d.detect facts).consistent = true ↔
    ∀ x, x ∉ (d.detect facts).contradictions := by
  unfold Report.consistent
  rw [List.isEmpty_iff, List.eq_nil_iff_forall_not_mem]

theorem conflicts_ne_nil_iff {c : Fact} : d.conflicts c facts ≠ [] ↔
    ∃ x ∈ (d.detect (facts ++ [c])).contradictions, x.involves c.triple = true := by
  unfold conflicts
  simp [List.filter_eq_nil_iff]

end KnowledgeBase.Detector
