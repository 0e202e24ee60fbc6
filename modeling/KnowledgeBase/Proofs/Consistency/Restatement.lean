import KnowledgeBase.Proofs.Consistency.Verdict

/-!
# Facts that are stated again

A triple that is asserted again at a higher level stands beside its first version, and both are
checked.  Nothing that the checks of types and of single-valued relations ask depends on how often
something is stated; a cardinality counts facts, and counts a triple once for each of its versions.

* `Restated`: the triple of a fact is stated already, up to spelling;
* `singleValued_restated`, `length_statedOf_append`: what a further version does to values and to
  counts;
* `CountMatters`: the further version exceeds a maximum, or makes up for what a minimum lacked;
* `consistent_restated_iff`: the verdict stays as it was unless the count matters, and
  `counted_twice`, where it does.
-/

namespace KnowledgeBase.Detector

open Taxonomy

variable {facts : List Fact} {d : Detector} {checks : Checks} {f : Fact}

/-- The triple of a fact is stated already, up to spelling. -/
def Restated (facts : List Fact) (f : Fact) : Prop := ∃ g ∈ facts, g.states f.triple = true

/-- A triple that occurs is stated. -/
theorem restated_of_triple_eq {g : Fact} (hg : g ∈ facts) (ht : g.triple = f.triple) :
    Restated facts f :=
  ⟨g, hg, ht ▸ g.states_self⟩

theorem covered_append : Covered facts (facts ++ [f]) :=
  covered_of_subset (List.subset_append_left facts [f])

theorem Restated.covered (h : Restated facts f) : Covered (facts ++ [f]) facts := by
  intro g hg
  rcases List.mem_append.mp hg with hg | hg
  · exact ⟨g, hg, g.states_self⟩
  · rw [List.mem_singleton.mp hg]
    exact h

/-! ### Values -/

theorem equivalent_congr {a b b' : String} (hb : Text.fold b = Text.fold b') :
    equivalent facts a b = equivalent facts a b' := by
  unfold equivalent Text.same
  rw [hb]

theorem equivalent_restated (h : Restated facts f) (a b : String) :
    equivalent (facts ++ [f]) a b = equivalent facts a b :=
  Bool.eq_iff_iff.mpr ⟨h.covered.equivalent, covered_append.equivalent⟩

theorem statedOf_append_of_match {r s : String} (hr : f.relation = r)
    (hs : Text.fold f.subject = Text.fold s) :
    statedOf (facts ++ [f]) r s = statedOf facts r s ++ [f] := by
  have hmatch : (f.relation == r && Text.same f.subject s) = true := by
    rw [Bool.and_eq_true, beq_iff_eq, Text.same_iff]
    exact ⟨hr, hs⟩
  unfold statedOf
  rw [List.filter_append, List.filter_cons_of_pos (by simpa using hmatch), List.filter_nil]

/-- Values stay equivalent to the first one if one of them is stated again. -/
theorem allEquivalent_restated (h : Restated facts f) (r s : String) :
    allEquivalent (facts ++ [f]) (valuesOf (facts ++ [f]) r s) =
      allEquivalent facts (valuesOf facts r s) := by
  have hequiv : equivalent (facts ++ [f]) = equivalent facts := by
    funext a b
    exact equivalent_restated h a b
  unfold valuesOf
  by_cases hmatch : f.relation = r ∧ Text.fold f.subject = Text.fold s
  · obtain ⟨g, hg, hstates⟩ := h
    obtain ⟨hrel, hsubject, hobject⟩ := Fact.states_iff.mp hstates
    have hmem : g ∈ statedOf facts r s :=
      mem_statedOf.mpr ⟨hg, hrel.trans hmatch.1, hsubject.trans hmatch.2⟩
    rw [statedOf_append_of_match hmatch.1 hmatch.2]
    cases hstated : statedOf facts r s with
    | nil =>
      rw [hstated] at hmem
      cases hmem
    | cons e es =>
      rw [hstated] at hmem
      -- the value of `f` is that of `g`, which is the first value or one of the others
      have hlast : equivalent facts e.object f.object = equivalent facts e.object g.object :=
        equivalent_congr hobject.symm
      simp only [List.cons_append, List.map_cons, List.map_append, List.map_nil, allEquivalent,
        List.all_append, List.all_cons, List.all_nil, Bool.and_true, hequiv, hlast]
      rw [Bool.eq_iff_iff, Bool.and_eq_true, and_iff_left_iff_imp, List.all_eq_true]
      intro hall
      rcases List.mem_cons.mp hmem with rfl | hmem
      · simp [equivalent, Text.same_iff]
      · exact hall g.object (List.mem_map_of_mem hmem)
  · rw [statedOf_append hmatch]
    unfold allEquivalent
    rw [hequiv]

theorem singleValued_restated (h : Restated facts f) :
    SingleValued d (facts ++ [f]) ↔ SingleValued d facts := by
  unfold SingleValued
  simp only [allEquivalent_restated h]

/-! ### Counts -/

/-- One more fact is counted with those of its own subject and relation. -/
theorem length_statedOf_append (facts : List Fact) (f : Fact) (r s : String) :
    (statedOf (facts ++ [f]) r s).length = (statedOf facts r s).length +
      if f.relation = r ∧ Text.fold f.subject = Text.fold s then 1 else 0 := by
  split
  · rename_i hmatch
    rw [statedOf_append_of_match hmatch.1 hmatch.2, List.length_append, List.length_singleton]
  · rename_i hmatch
    rw [statedOf_append hmatch, Nat.add_zero]

/-- A cardinality counts a fact: its subject is a direct member of the type. -/
def Counts (facts : List Fact) (k : Cardinality) (f : Fact) : Prop :=
  f.relation = k.relation ∧ MemberOf facts k.type f.subject

/-- How many facts there are of a fact's subject and relation. -/
def countOf (facts : List Fact) (f : Fact) : Nat := (statedOf facts f.relation f.subject).length

theorem memberOf_restated (h : Restated facts f) {type m : String} :
    MemberOf (facts ++ [f]) type m ↔ MemberOf facts type m :=
  ⟨h.covered.memberOf, covered_append.memberOf⟩

/-- A count that is broken on one side only is one of `f`'s own. -/
theorem counts_of_broken {k : Cardinality} {m : String} (hm : MemberOf facts k.type m)
    (h : ¬ (Broken k (statedOf (facts ++ [f]) k.relation m).length ↔
      Broken k (statedOf facts k.relation m).length)) :
    Counts facts k f ∧ (statedOf facts k.relation m).length = countOf facts f ∧
      (statedOf (facts ++ [f]) k.relation m).length = countOf facts f + 1 := by
  have hlength := length_statedOf_append facts f k.relation m
  by_cases hmatch : f.relation = k.relation ∧ Text.fold f.subject = Text.fold m
  · obtain ⟨hrel, hfold⟩ := hmatch
    have hcount : (statedOf facts k.relation m).length = countOf facts f := by
      unfold countOf
      rw [hrel, statedOf_congr hfold]
    rw [if_pos ⟨hrel, hfold⟩, hcount] at hlength
    obtain ⟨g, hg, hsubject, htype⟩ := hm
    exact ⟨⟨hrel, g, hg, hsubject.trans hfold.symm, htype⟩, hcount, hlength⟩
  · rw [if_neg hmatch, Nat.add_zero] at hlength
    rw [hlength] at h
    exact absurd Iff.rfl h

/-- A further version exceeds a maximum, or makes up for what a minimum lacked. -/
inductive Tips (d : Detector) (facts : List Fact) (f : Fact) : Prop
  | exceeds {k : Cardinality} : WithinBounds d facts → k ∈ d.cardinalities → Counts facts k f →
      k.maximum = some (countOf facts f) → Tips d facts f
  | fills {k : Cardinality} : WithinBounds d (facts ++ [f]) → k ∈ d.cardinalities →
      Counts facts k f → k.minimum = some (countOf facts f + 1) → Tips d facts f

theorem length_of_counts {k : Cardinality} (h : Counts facts k f) :
    (statedOf facts k.relation f.subject).length = countOf facts f ∧
      (statedOf (facts ++ [f]) k.relation f.subject).length = countOf facts f + 1 := by
  have hlength := length_statedOf_append facts f k.relation f.subject
  rw [if_pos ⟨h.1, rfl⟩] at hlength
  unfold countOf
  rw [h.1]
  exact ⟨rfl, hlength⟩

theorem tips_of_exceeded (h : Restated facts f) (hbounds : WithinBounds d facts)
    (hbroken : ¬ WithinBounds d (facts ++ [f])) : Tips d facts f := by
  unfold WithinBounds at hbroken
  push Not at hbroken
  obtain ⟨k, hk, m, hm, hafter⟩ := hbroken
  have hm := (memberOf_restated h).mp hm
  have hbefore := hbounds k hk m hm
  obtain ⟨hcounts, hn, hn'⟩ := counts_of_broken hm fun hiff => hbefore (hiff.mp hafter)
  rw [hn] at hbefore
  rw [hn'] at hafter
  refine .exceeds hbounds hk hcounts ?_
  rcases hafter with ⟨low, hlow, hlt⟩ | ⟨high, hhigh, hlt⟩
  · exact absurd (Or.inl ⟨low, hlow, by omega⟩) hbefore
  · have hle : ¬ high < countOf facts f := fun hlt' => hbefore (Or.inr ⟨high, hhigh, hlt'⟩)
    rw [hhigh]
    congr 1
    omega

theorem tips_of_filled (h : Restated facts f) (hbroken : ¬ WithinBounds d facts)
    (hbounds : WithinBounds d (facts ++ [f])) : Tips d facts f := by
  unfold WithinBounds at hbroken
  push Not at hbroken
  obtain ⟨k, hk, m, hm, hbefore⟩ := hbroken
  have hafter := hbounds k hk m ((memberOf_restated h).mpr hm)
  obtain ⟨hcounts, hn, hn'⟩ := counts_of_broken hm fun hiff => hafter (hiff.mpr hbefore)
  rw [hn] at hbefore
  rw [hn'] at hafter
  refine .fills hbounds hk hcounts ?_
  rcases hbefore with ⟨low, hlow, hlt⟩ | ⟨high, hhigh, hlt⟩
  · have hle : ¬ countOf facts f + 1 < low := fun hlt' => hafter (Or.inl ⟨low, hlow, hlt'⟩)
    rw [hlow]
    congr 1
    omega
  · exact absurd (Or.inr ⟨high, hhigh, by omega⟩) hafter

/-- The counts are within bounds on one side only exactly if the further version tips one. -/
theorem withinBounds_restated_iff (h : Restated facts f) :
    (WithinBounds d (facts ++ [f]) ↔ WithinBounds d facts) ↔ ¬ Tips d facts f := by
  constructor
  · intro hiff htips
    cases htips with
    | @exceeds k hbounds hk hcounts hmax =>
      have hafter := hiff.mpr hbounds k hk f.subject ((memberOf_restated h).mpr hcounts.2)
      rw [(length_of_counts hcounts).2] at hafter
      exact hafter (Or.inr ⟨_, hmax, Nat.lt_succ_self _⟩)
    | @fills k hbounds hk hcounts hmin =>
      have hbefore := hiff.mp hbounds k hk f.subject hcounts.2
      rw [(length_of_counts hcounts).1] at hbefore
      exact hbefore (Or.inl ⟨_, hmin, Nat.lt_succ_self _⟩)
  · intro hnot
    constructor
    · intro hafter
      by_contra hbefore
      exact hnot (tips_of_filled h hbefore hafter)
    · intro hbefore
      by_contra hafter
      exact hnot (tips_of_exceeded h hbefore hafter)

/-! ### The verdict -/

/-- The verdict of the checks but that of cardinalities. -/
theorem consistent_iff_withinBounds (facts : List Fact) :
    (d.detect facts checks).consistent = true ↔
      (d.detect facts { checks with cardinality := false }).consistent = true ∧
        (checks.cardinality = true → WithinBounds d facts) := by
  rw [consistent_iff_passes, consistent_iff_passes]
  constructor
  · intro h
    exact ⟨⟨h.disjointness, h.functional, h.taxonomic, nofun⟩, h.cardinality⟩
  · rintro ⟨h, hbounds⟩
    exact ⟨h.disjointness, h.functional, h.taxonomic, hbounds⟩

theorem consistent_restated_otherwise (h : Restated facts f) :
    (d.detect (facts ++ [f]) { checks with cardinality := false }).consistent = true ↔
      (d.detect facts { checks with cardinality := false }).consistent = true := by
  rw [consistent_iff_passes, consistent_iff_passes]
  constructor
  · intro hpass
    exact covered_append.passes hpass (fun _ => (singleValued_restated h).mp) nofun
  · intro hpass
    exact h.covered.passes hpass (fun _ => (singleValued_restated h).mpr) nofun

/-- The verdict hangs on how often a triple is stated: cardinalities are checked, nothing else is
wrong, and the further version tips a count. -/
structure CountMatters (d : Detector) (facts : List Fact) (f : Fact) (checks : Checks) : Prop where
  asked : checks.cardinality = true
  otherwise : (d.detect facts { checks with cardinality := false }).consistent = true
  tips : Tips d facts f

/-- **A triple that is stated again leaves the verdict as it was unless the count matters.** -/
theorem consistent_restated_iff (h : Restated facts f) :
    (d.detect (facts ++ [f]) checks).consistent = (d.detect facts checks).consistent ↔
      ¬ CountMatters d facts f checks := by
  rw [Bool.eq_iff_iff, consistent_iff_withinBounds (facts ++ [f]), consistent_iff_withinBounds facts,
    consistent_restated_otherwise h]
  have hbounds := withinBounds_restated_iff h (d := d)
  by_cases hasked : checks.cardinality = true
  · by_cases hother : (d.detect facts { checks with cardinality := false }).consistent = true
    · simp only [hother, hasked, forall_const, true_and]
      rw [hbounds]
      exact not_congr ⟨fun ht => ⟨hasked, hother, ht⟩, CountMatters.tips⟩
    · have hnot : ¬ CountMatters d facts f checks := fun hm => hother hm.otherwise
      simp [hother, hnot]
  · have hnot : ¬ CountMatters d facts f checks := fun hm => hasked hm.asked
    simp [hasked, hnot]

/-- Persons have one name. -/
def oneName : Detector := { cardinalities := [⟨"Person", "HAS_NAME", none, some 1⟩] }

/-- Ann is a person with a name. -/
def annNamed : List Fact :=
  [{ triple := ⟨"Ann", "IS_A", "Person"⟩ },
    { triple := ⟨"Ann", "HAS_NAME", "Ann Lee"⟩, existence := Existence.possible }]

/-- Another version of a fact about Ann. -/
def again (relation object : String) : Fact := { triple := ⟨"Ann", relation, object⟩ }

/-- That Ann is a person can be stated again. -/
theorem consistent_restated_person : Restated annNamed (again "IS_A" "Person") ∧
    (oneName.detect (annNamed ++ [again "IS_A" "Person"])).consistent =
      (oneName.detect annNamed).consistent := by
  have hagain : Restated annNamed (again "IS_A" "Person") :=
    restated_of_triple_eq List.mem_cons_self rfl
  refine ⟨hagain, (consistent_restated_iff hagain).mpr fun hm => ?_⟩
  have hname : ∀ k ∈ oneName.cardinalities, ¬ Relation.isA = k.relation := by decide
  cases hm.tips with
  | exceeds _ hk hcounts _ => exact hname _ hk hcounts.1
  | fills _ hk hcounts _ => exact hname _ hk hcounts.1

/-- **A triple that is stated at two levels counts as two facts**: her one name gives Ann one name
too many. -/
theorem counted_twice : Restated annNamed (again "HAS_NAME" "Ann Lee") ∧
    (oneName.detect annNamed).consistent = true ∧
    (oneName.detect (annNamed ++ [again "HAS_NAME" "Ann Lee"])).consistent = false := by
  refine ⟨restated_of_triple_eq (List.mem_cons_of_mem _ List.mem_cons_self) rfl, ?_, ?_⟩
  · decide +kernel
  · decide +kernel

end KnowledgeBase.Detector
