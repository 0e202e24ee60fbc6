import KnowledgeBase.Proofs.Consistency.Verdict

/-!
# Terms that are of two disjoint types

A term that reaches both types of a declared pair mixes them.  The checks look for terms strictly
below both types and for facts that join the two; a type that lies below its own disjoint partner
by way of other types is met by neither, as long as nothing lies below it in turn.

* `Mixes`: a term is at or below both types of a pair, and strictly below one of them;
* `Hidden`: the term is itself one of the two types, nothing lies below it, and no fact joins them;
* `hidden_of_unmixed`, `unmixed_of_hidden`, `unjoined_of_hidden`: the mixtures that the checks do
  not find are the hidden ones;
* `consistent_iff_mixtures_hidden`: the verdict in these terms, and `partner_in_between`, where a
  mixture is hidden by one type in between.
-/

open Relation (TransGen ReflTransGen)

namespace KnowledgeBase.Detector

open Taxonomy

variable {facts : List Fact} {d : Detector} {p : Fact} {e : String}

/-! ### Mixtures -/

/-- A chain of type facts, of any length, leads from a term to another. -/
def AtOrBelow (facts : List Fact) (a b : String) : Prop :=
  ReflTransGen (Step (upward facts)) (Text.fold a) (Text.fold b)

theorem Below.atOrBelow {a b : String} (h : Below facts a b) : AtOrBelow facts a b :=
  h.to_reflTransGen

theorem atOrBelow_of_same {a b : String} (h : Text.fold a = Text.fold b) : AtOrBelow facts a b := by
  unfold AtOrBelow
  rw [h]

/-- A chain without an edge stays where it is. -/
theorem AtOrBelow.same_or_below {a b : String} (h : AtOrBelow facts a b) :
    Text.fold a = Text.fold b ∨ Below facts a b := by
  rcases Relation.reflTransGen_iff_eq_or_transGen.mp h with heq | hbelow
  · exact Or.inl heq.symm
  · exact Or.inr hbelow

theorem Below.trans_atOrBelow {a b c : String} (h : Below facts a b) (h' : AtOrBelow facts b c) :
    Below facts a c := TransGen.trans_left h h'

/-- A term is of both types of a declared pair, and is not just one of them by name. -/
structure Mixes (facts : List Fact) (p : Fact) (e : String) : Prop where
  declared : Declares facts p
  subject : AtOrBelow facts e p.subject
  object : AtOrBelow facts e p.object
  strict : Below facts e p.subject ∨ Below facts e p.object

/-- A term that is one of the two types itself, with nothing below it and no fact that makes one of
the types a direct subtype of the other. -/
structure Hidden (facts : List Fact) (p : Fact) (e : String) : Prop where
  side : Text.fold e = Text.fold p.subject ∨ Text.fold e = Text.fold p.object
  bottom : ∀ a, ¬ Below facts a e
  unjoined : ∀ f ∈ typeFacts facts, ¬ joins f p = true

/-! ### What the checks leave out -/

/-- A term that mixes two types, and is none of them itself, lies strictly below both. -/
theorem Mixes.below_or_side (h : Mixes facts p e) :
    (Below facts e p.subject ∧ Below facts e p.object) ∨
      Text.fold e = Text.fold p.subject ∨ Text.fold e = Text.fold p.object := by
  rcases h.subject.same_or_below with hsame | hsubject
  · exact Or.inr (Or.inl hsame)
  · rcases h.object.same_or_below with hsame | hobject
    · exact Or.inr (Or.inr hsame)
    · exact Or.inl ⟨hsubject, hobject⟩

/-- A mixture that the checks of disjointness do not find is hidden. -/
theorem hidden_of_unmixed (h : Mixes facts p e) (hmixed : Unmixed facts)
    (hjoined : Unjoined facts) : Hidden facts p e := by
  have hnone : ∀ a, ¬ (Below facts a p.subject ∧ Below facts a p.object) :=
    hmixed p h.declared
  refine ⟨?_, ?_, hjoined p h.declared⟩
  · rcases h.below_or_side with hboth | hside
    · exact absurd hboth (hnone e)
    · exact hside
  · intro a ha
    exact hnone a ⟨ha.trans_atOrBelow h.subject, ha.trans_atOrBelow h.object⟩

/-- Without cycles a term strictly below both types is no hidden mixture. -/
theorem unmixed_of_hidden (hacyclic : Acyclic facts)
    (hhidden : ∀ p e, Mixes facts p e → Hidden facts p e) : Unmixed facts := by
  intro p hp a hab
  have hmixes : Mixes facts p a := ⟨hp, hab.1.atOrBelow, hab.2.atOrBelow, Or.inl hab.1⟩
  have hself : Below facts a a := by
    rcases (hhidden p a hmixes).side with hside | hside
    · exact (below_congr rfl hside.symm).mp hab.1
    · exact (below_congr rfl hside.symm).mp hab.2
  exact hacyclic a hself

/-- The subject of a fact that joins two types mixes them, and is not hidden. -/
theorem unjoined_of_hidden (hhidden : ∀ p e, Mixes facts p e → Hidden facts p e) :
    Unjoined facts := by
  intro p hp f hf hj
  have hbelow : Below facts f.subject f.object := below_of_typeFact hf
  have hmixes : Mixes facts p f.subject := by
    rcases joins_iff.mp hj with ⟨hsubject, hobject⟩ | ⟨hsubject, hobject⟩
    · have hup : Below facts f.subject p.object := (below_congr rfl hobject).mp hbelow
      exact ⟨hp, atOrBelow_of_same hsubject, hup.atOrBelow, Or.inr hup⟩
    · have hup : Below facts f.subject p.subject := (below_congr rfl hobject).mp hbelow
      exact ⟨hp, hup.atOrBelow, atOrBelow_of_same hsubject, Or.inl hup⟩
  exact (hhidden p f.subject hmixes).unjoined f hf hj

/-! ### The verdict -/

/-- **Facts are consistent exactly if every mixture of disjoint types among them is hidden, no chain
of types returns to its start, and values and counts are in order.**  So a mixture is found unless
it is hidden. -/
theorem consistent_iff_mixtures_hidden (d : Detector) (facts : List Fact) :
    (d.detect facts).consistent = true ↔
      (∀ p e, Mixes facts p e → Hidden facts p e) ∧ Acyclic facts ∧ SingleValued d facts ∧
        WithinBounds d facts := by
  rw [consistent_iff_passes]
  constructor
  · intro hpass
    obtain ⟨hmixed, hjoined⟩ := hpass.disjointness rfl
    refine ⟨fun p e h => hidden_of_unmixed h hmixed hjoined, (hpass.taxonomic rfl).1, ?_, ?_⟩
    · exact hpass.functional rfl
    · exact hpass.cardinality rfl
  · rintro ⟨hhidden, hacyclic, hvalues, hbounds⟩
    have hmixed : Unmixed facts := unmixed_of_hidden hacyclic hhidden
    have hjoined : Unjoined facts := unjoined_of_hidden hhidden
    exact ⟨fun _ => ⟨hmixed, hjoined⟩, fun _ => hvalues, fun _ => ⟨hacyclic, hmixed⟩,
      fun _ => hbounds⟩

/-- Bats are no birds, but they are flyers, and flyers are birds. -/
def bats : List Fact :=
  [{ triple := ⟨"Bat", "DISJOINT_WITH", "Bird"⟩ }, { triple := ⟨"Bat", "IS_A", "Flyer"⟩ },
    { triple := ⟨"Flyer", "IS_A", "Bird"⟩ }]

/-- **A type lies below its own disjoint partner, and the facts are called consistent.**  They are
not once the chain is stated as one fact, or a member of the type is known. -/
theorem partner_in_between :
    (∃ p, Mixes bats p "Bat" ∧ Text.fold p.subject ≠ Text.fold p.object) ∧
      (({} : Detector).detect bats).consistent = true ∧
      (({} : Detector).detect (bats ++ [{ triple := ⟨"Bat", "IS_A", "Bird"⟩ }])).consistent =
        false ∧
      (({} : Detector).detect (bats ++ [{ triple := ⟨"Pip", "IS_A", "Bat"⟩ }])).consistent =
        false := by
  have hflyer : Step (upward bats) (Text.fold "Bat") (Text.fold "Flyer") :=
    step_upward.mpr ⟨{ triple := ⟨"Bat", "IS_A", "Flyer"⟩ },
      mem_typeFacts.mpr ⟨by simp [bats], rfl⟩, rfl, rfl⟩
  have hbird : Step (upward bats) (Text.fold "Flyer") (Text.fold "Bird") :=
    step_upward.mpr ⟨{ triple := ⟨"Flyer", "IS_A", "Bird"⟩ },
      mem_typeFacts.mpr ⟨by simp [bats], rfl⟩, rfl, rfl⟩
  have hbelow : Below bats "Bat" "Bird" := (TransGen.single hflyer).tail hbird
  refine ⟨⟨{ triple := ⟨"Bat", "DISJOINT_WITH", "Bird"⟩ }, ?_, by decide⟩, ?_, ?_, ?_⟩
  · exact ⟨⟨List.mem_cons_self, rfl⟩, atOrBelow_of_same rfl, hbelow.atOrBelow, Or.inr hbelow⟩
  · decide +kernel
  · decide +kernel
  · decide +kernel

end KnowledgeBase.Detector
