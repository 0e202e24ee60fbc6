import KnowledgeBase.Proofs.Consistency.Verdict

/-!
# The order of the facts

Three of the four checks find the same whatever the order of the facts.  The check of single-valued
relations compares every value of a subject with the first one, so that it can hang on which value
comes first: equivalence is only what is stated, and need not carry over from one pair to another.

* `Central`: every value of its subject is equivalent to this one;
* `singleValued_iff_central`: what is asked of the values that come first;
* `OrderMatters`: nothing else is wrong, every subject has a central value, and some value is not
  central;
* `consistent_perm_iff`: the verdict survives every permutation unless the order matters, and
  `decided_by_first`, where it does.
-/

namespace KnowledgeBase.Detector

open Taxonomy

variable {facts facts' : List Fact} {d : Detector} {checks : Checks}

/-! ### Permutations -/

theorem covered_of_perm (h : facts'.Perm facts) : Covered facts facts' :=
  covered_of_subset h.symm.subset

theorem statedOf_perm (h : facts'.Perm facts) (r s : String) :
    (statedOf facts' r s).Perm (statedOf facts r s) := h.filter _

theorem equivalent_perm (h : facts'.Perm facts) (a b : String) :
    equivalent facts' a b = equivalent facts a b :=
  Bool.eq_iff_iff.mpr ⟨(covered_of_perm h.symm).equivalent, (covered_of_perm h).equivalent⟩

theorem withinBounds_perm (h : facts'.Perm facts) (hbounds : WithinBounds d facts) :
    WithinBounds d facts' := by
  intro k hk m hm
  rw [(statedOf_perm h k.relation m).length_eq]
  exact hbounds k hk m ((covered_of_perm h.symm).memberOf hm)

/-- Without the check of single-valued relations the order plays no part. -/
theorem passes_perm (h : facts'.Perm facts) (hf : checks.functional = false)
    (hpass : Passes d facts checks) : Passes d facts' checks := by
  refine (covered_of_perm h.symm).passes hpass (fun hc => ?_) fun _ => withinBounds_perm h
  rw [hf] at hc
  cases hc

/-- The verdict of the checks but that of single-valued relations. -/
theorem consistent_iff_singleValued : (d.detect facts checks).consistent = true ↔
    (d.detect facts { checks with functional := false }).consistent = true ∧
      (checks.functional = true → SingleValued d facts) := by
  rw [consistent_iff_passes, consistent_iff_passes]
  constructor
  · intro h
    exact ⟨⟨h.disjointness, nofun, h.taxonomic, h.cardinality⟩, h.functional⟩
  · rintro ⟨h, hvalues⟩
    exact ⟨h.disjointness, hvalues, h.taxonomic, h.cardinality⟩

theorem consistent_perm_otherwise (h : facts'.Perm facts) :
    (d.detect facts' { checks with functional := false }).consistent = true ↔
      (d.detect facts { checks with functional := false }).consistent = true := by
  rw [consistent_iff_passes, consistent_iff_passes]
  exact ⟨passes_perm h.symm rfl, passes_perm h rfl⟩

/-! ### Values that come first -/

/-- Every value of the fact's subject and relation is equivalent to the fact's own. -/
def Central (facts : List Fact) (f : Fact) : Prop :=
  ∀ g ∈ statedOf facts f.relation f.subject, equivalent facts f.object g.object = true

instance (facts : List Fact) : DecidablePred (Central facts) := fun f =>
  inferInstanceAs (Decidable (∀ g ∈ statedOf facts f.relation f.subject,
    equivalent facts f.object g.object = true))

theorem equivalent_self (a : String) : equivalent facts a a = true := by
  simp [equivalent, Text.same_iff]

/-- Facts of one group are about the same subject. -/
theorem statedOf_of_mem {r s : String} {f : Fact} (hf : f ∈ statedOf facts r s) :
    statedOf facts f.relation f.subject = statedOf facts r s := by
  obtain ⟨-, rfl, hfold⟩ := mem_statedOf.mp hf
  exact statedOf_congr hfold _

theorem central_perm (h : facts'.Perm facts) {f : Fact} : Central facts' f ↔ Central facts f := by
  unfold Central
  simp only [(statedOf_perm h _ _).mem_iff, equivalent_perm h]

/-- The values of a subject pass if the first of them is central. -/
theorem allEquivalent_iff {r s : String} : allEquivalent facts (valuesOf facts r s) = true ↔
    ∀ f, (statedOf facts r s).head? = some f → Central facts f := by
  have hgroup : ∀ f ∈ statedOf facts r s, statedOf facts f.relation f.subject =
      statedOf facts r s := fun f hf => statedOf_of_mem hf
  unfold valuesOf Central
  cases hstated : statedOf facts r s with
  | nil => simp [allEquivalent]
  | cons f fs =>
    have hf := hgroup f (hstated ▸ List.mem_cons_self)
    have hself : equivalent facts f.object f.object = true := equivalent_self f.object
    simp only [List.map_cons, allEquivalent, List.all_map, List.all_eq_true, Function.comp_apply,
      List.head?_cons, Option.some.injEq, forall_eq', hf, hstated, List.forall_mem_cons, hself,
      true_and]

theorem singleValued_iff_central : SingleValued d facts ↔ ∀ r ∈ d.functional.toList, ∀ s f,
    (statedOf facts r s).head? = some f → Central facts f := by
  unfold SingleValued
  simp only [allEquivalent_iff]

/-- If all values are central, it does not matter which one comes first. -/
theorem singleValued_of_central
    (h : ∀ r ∈ d.functional.toList, ∀ f ∈ facts, f.relation = r → Central facts f) :
    SingleValued d facts := by
  rw [singleValued_iff_central]
  intro r hr s f hf
  obtain ⟨hmem, hrel, -⟩ := mem_statedOf.mp (List.mem_of_head? hf)
  exact h r hr f hmem hrel

/-- If no value of some subject is central, none that comes first is. -/
theorem not_singleValued_of_peripheral {r : String} (hr : r ∈ d.functional.toList) {f : Fact}
    (hf : f ∈ facts) (hrel : f.relation = r)
    (h : ∀ g ∈ statedOf facts r f.subject, ¬ Central facts g) : ¬ SingleValued d facts := by
  rw [singleValued_iff_central]
  intro hall
  have hne : statedOf facts r f.subject ≠ [] :=
    List.ne_nil_of_mem (mem_statedOf.mpr ⟨hf, hrel, rfl⟩)
  obtain ⟨g, hg⟩ := Option.ne_none_iff_exists'.mp (List.head?_eq_none_iff.not.mpr hne)
  exact h g (List.mem_of_head? hg) (hall r hr f.subject g hg)

/-! ### Facts brought to the front -/

/-- The facts that pass a test, and the others behind them. -/
def fronted (p : Fact → Bool) (facts : List Fact) : List Fact :=
  facts.filter p ++ facts.filter fun f => !p f

theorem fronted_perm (p : Fact → Bool) (facts : List Fact) : (fronted p facts).Perm facts :=
  List.filter_append_perm p facts

/-- A group with a fact that passes the test has such a fact in front. -/
theorem head_fronted {p : Fact → Bool} {r s : String} {f g : Fact} (hg : g ∈ statedOf facts r s)
    (hp : p g = true) (hf : (statedOf (fronted p facts) r s).head? = some f) : p f = true := by
  have hsplit : statedOf (fronted p facts) r s =
      statedOf (facts.filter p) r s ++ statedOf (facts.filter fun f => !p f) r s :=
    List.filter_append _ _
  obtain ⟨hmem, hterms⟩ := mem_statedOf.mp hg
  have hfront : g ∈ statedOf (facts.filter p) r s :=
    mem_statedOf.mpr ⟨List.mem_filter.mpr ⟨hmem, hp⟩, hterms⟩
  rw [hsplit, List.head?_append_of_ne_nil _ (List.ne_nil_of_mem hfront)] at hf
  have hin := (mem_statedOf.mp (List.mem_of_head? hf)).1
  exact (List.mem_filter.mp hin).2

/-- With central values in front, if every subject has one, all values pass. -/
theorem singleValued_fronted
    (h : ∀ r ∈ d.functional.toList, ∀ f ∈ facts, f.relation = r →
      ∃ g ∈ statedOf facts r f.subject, Central facts g) :
    SingleValued d (fronted (fun f => decide (Central facts f)) facts) := by
  have hperm := fronted_perm (fun f => decide (Central facts f)) facts
  rw [singleValued_iff_central]
  intro r hr s f hf
  rw [central_perm hperm]
  have hmem := (statedOf_perm hperm r s).mem_iff.mp (List.mem_of_head? hf)
  obtain ⟨hfacts, hrel, hfold⟩ := mem_statedOf.mp hmem
  obtain ⟨g, hg, hcentral⟩ := h r hr f hfacts hrel
  rw [statedOf_congr hfold] at hg
  exact of_decide_eq_true (head_fronted hg (decide_eq_true hcentral) hf)

/-- With the other values in front, a value that is not central is a violation. -/
theorem not_singleValued_fronted {r : String} (hr : r ∈ d.functional.toList) {f : Fact}
    (hf : f ∈ facts) (hrel : f.relation = r) (hnot : ¬ Central facts f) :
    ¬ SingleValued d (fronted (fun f => !decide (Central facts f)) facts) := by
  have hperm := fronted_perm (fun f => !decide (Central facts f)) facts
  have hmem : f ∈ statedOf facts r f.subject := mem_statedOf.mpr ⟨hf, hrel, rfl⟩
  rw [singleValued_iff_central]
  intro hall
  have hne := List.ne_nil_of_mem ((statedOf_perm hperm r f.subject).mem_iff.mpr hmem)
  obtain ⟨g, hg⟩ := Option.ne_none_iff_exists'.mp (List.head?_eq_none_iff.not.mpr hne)
  have hfront := head_fronted hmem (p := fun f => !decide (Central facts f)) (by simp [hnot]) hg
  have hcentral := (central_perm hperm).mp (hall r hr f.subject g hg)
  simp [hcentral] at hfront

/-! ### The verdict -/

/-- The verdict hangs on the order: nothing else is wrong, every subject of a single-valued relation
has a central value, and some value is not central. -/
structure OrderMatters (d : Detector) (facts : List Fact) (checks : Checks) : Prop where
  asked : checks.functional = true
  otherwise : (d.detect facts { checks with functional := false }).consistent = true
  central : ∀ r ∈ d.functional.toList, ∀ f ∈ facts, f.relation = r →
    ∃ g ∈ statedOf facts r f.subject, Central facts g
  peripheral : ∃ r ∈ d.functional.toList, ∃ f ∈ facts, f.relation = r ∧ ¬ Central facts f

/-- Unless the order matters, the values of a permutation pass if those of the facts do. -/
theorem singleValued_perm (h : facts'.Perm facts) (hasked : checks.functional = true)
    (hother : (d.detect facts { checks with functional := false }).consistent = true)
    (hnot : ¬ OrderMatters d facts checks) (hvalues : SingleValued d facts) :
    SingleValued d facts' := by
  have hcentral : ∀ r ∈ d.functional.toList, ∀ f ∈ facts, f.relation = r →
      ∃ g ∈ statedOf facts r f.subject, Central facts g := by
    intro r hr f hf hrel
    by_contra hnone
    refine not_singleValued_of_peripheral hr hf hrel (fun g hg hg' => ?_) hvalues
    exact hnone ⟨g, hg, hg'⟩
  refine singleValued_of_central fun r hr f hf hrel => (central_perm h).mpr ?_
  by_contra hperipheral
  exact hnot ⟨hasked, hother, hcentral, r, hr, f, h.mem_iff.mp hf, hrel, hperipheral⟩

theorem orderMatters_perm (h : facts'.Perm facts) (hm : OrderMatters d facts checks) :
    OrderMatters d facts' checks where
  asked := hm.asked
  otherwise := (consistent_perm_otherwise h).mpr hm.otherwise
  central := fun r hr f hf hrel => by
    obtain ⟨g, hg, hcentral⟩ := hm.central r hr f (h.mem_iff.mp hf) hrel
    exact ⟨g, (statedOf_perm h _ _).mem_iff.mpr hg, (central_perm h).mpr hcentral⟩
  peripheral := by
    obtain ⟨r, hr, f, hf, hrel, hnot⟩ := hm.peripheral
    exact ⟨r, hr, f, h.mem_iff.mpr hf, hrel, fun hc => hnot ((central_perm h).mp hc)⟩

theorem consistent_of_perm (h : facts'.Perm facts) (hnot : ¬ OrderMatters d facts checks)
    (hcons : (d.detect facts checks).consistent = true) :
    (d.detect facts' checks).consistent = true := by
  obtain ⟨hother, hvalues⟩ := consistent_iff_singleValued.mp hcons
  refine consistent_iff_singleValued.mpr ⟨(consistent_perm_otherwise h).mpr hother, ?_⟩
  exact fun hasked => singleValued_perm h hasked hother hnot (hvalues hasked)

/-- **The verdict is the same for every order of the facts unless the order matters**, and if it
does, one order of them is consistent and another one is not. -/
theorem consistent_perm_iff :
    (∀ facts', facts'.Perm facts →
      (d.detect facts' checks).consistent = (d.detect facts checks).consistent) ↔
      ¬ OrderMatters d facts checks := by
  constructor
  · intro hsame hm
    obtain ⟨r, hr, f, hf, hrel, hperipheral⟩ := hm.peripheral
    have hgood : (d.detect (fronted (fun f => decide (Central facts f)) facts) checks).consistent =
        true :=
      consistent_iff_singleValued.mpr ⟨(consistent_perm_otherwise (fronted_perm _ _)).mpr
        hm.otherwise, fun _ => singleValued_fronted hm.central⟩
    rw [hsame _ (fronted_perm _ _), ← hsame _ (fronted_perm
      (fun f => !decide (Central facts f)) _)] at hgood
    exact not_singleValued_fronted hr hf hrel hperipheral
      ((consistent_iff_singleValued.mp hgood).2 hm.asked)
  · intro hnot facts' h
    rw [Bool.eq_iff_iff]
    refine ⟨consistent_of_perm h.symm fun hm => hnot (orderMatters_perm h.symm hm), ?_⟩
    exact consistent_of_perm h hnot

/-- Where Ada was born. -/
def bornIn (place : String) : Fact := { triple := ⟨"Ada", "BORN_IN", place⟩ }

/-- Two names of New York, each stated to be equivalent to a third one. -/
def namesOfNewYork : List Fact :=
  [{ triple := ⟨"NYC", "EQUIVALENT_TO", "New York"⟩ },
    { triple := ⟨"NYC", "EQUIVALENT_TO", "Big Apple"⟩ }]

/-- **Which value comes first can decide the verdict**: two values that are not stated to be
equivalent pass behind a third one that is equivalent to both. -/
theorem decided_by_first :
    (bornIn "New York" :: bornIn "NYC" :: bornIn "Big Apple" :: namesOfNewYork).Perm
      (bornIn "NYC" :: bornIn "New York" :: bornIn "Big Apple" :: namesOfNewYork) ∧
    (({} : Detector).detect
      (bornIn "NYC" :: bornIn "New York" :: bornIn "Big Apple" :: namesOfNewYork)).consistent =
        true ∧
    (({} : Detector).detect
      (bornIn "New York" :: bornIn "NYC" :: bornIn "Big Apple" :: namesOfNewYork)).consistent =
        false := by
  refine ⟨.swap _ _ _, ?_, ?_⟩
  · decide +kernel
  · decide +kernel

end KnowledgeBase.Detector
