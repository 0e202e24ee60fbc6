import KnowledgeBase.Proofs.Consistency.Verdict
import Mathlib.Data.List.Permutation

/-!
# Disjoint types, looked up from below and looked down on from above

One check follows the types of each entity upward and meets both types of a pair; the other one
follows the types of a pair downward and meets the term twice.  They agree on what lies below both.

* `Alike`, `Reports`: what two contradictions report, up to spelling and order;
* `pairwise_inherited`: the contradictions that the way down brings up differ;
* `exists_reports_inherited_iff`, `exists_reports_violation_iff`: what each check reports;
* `upward_iff_downward`: the two checks side by side.
-/

open Relation (TransGen ReflTransGen)

namespace KnowledgeBase

namespace Contradiction

/-- Two contradictions are of one kind, and about one term and the same types or values. -/
structure Alike (x y : Contradiction) : Prop where
  kind : x.kind = y.kind
  subject : Text.fold x.subject = Text.fold y.subject
  terms : (x.terms.map Text.fold).Perm (y.terms.map Text.fold)

instance : DecidableRel Alike := fun x y =>
  decidable_of_iff (x.kind = y.kind ∧ Text.fold x.subject = Text.fold y.subject ∧
    (x.terms.map Text.fold).Perm (y.terms.map Text.fold))
    ⟨fun ⟨h1, h2, h3⟩ => ⟨h1, h2, h3⟩, fun h => ⟨h.kind, h.subject, h.terms⟩⟩

/-- A contradiction of a kind is about a term and the types of a declaration, in either order. -/
structure Reports (kind term : String) (pair : Fact) (x : Contradiction) : Prop where
  kind : x.kind = kind
  subject : Text.fold x.subject = Text.fold term
  types : (x.terms.map Text.fold).Perm [Text.fold pair.subject, Text.fold pair.object]

instance (kind term : String) (pair : Fact) : DecidablePred (Reports kind term pair) := fun x =>
  decidable_of_iff (x.kind = kind ∧ Text.fold x.subject = Text.fold term ∧
    (x.terms.map Text.fold).Perm [Text.fold pair.subject, Text.fold pair.object])
    ⟨fun ⟨h1, h2, h3⟩ => ⟨h1, h2, h3⟩, fun h => ⟨h.kind, h.subject, h.types⟩⟩

theorem Reports.alike {kind term : String} {pair : Fact} {x y : Contradiction}
    (hx : x.Reports kind term pair) (hy : y.Reports kind term pair) : x.Alike y :=
  ⟨hx.kind.trans hy.kind.symm, hx.subject.trans hy.subject.symm, hx.types.trans hy.types.symm⟩

/-- Among contradictions that differ, one at most reports what is asked for. -/
theorem countP_reports_le {kind term : String} {pair : Fact} {l : List Contradiction}
    (h : l.Pairwise fun x y => ¬ x.Alike y) :
    l.countP (fun x => decide (x.Reports kind term pair)) ≤ 1 := by
  rw [List.countP_eq_length_filter]
  have hfilter := h.filter fun x => decide (x.Reports kind term pair)
  cases hl : l.filter fun x => decide (x.Reports kind term pair) with
  | nil => simp
  | cons x rest =>
    cases rest with
    | nil => simp
    | cons y rest =>
      have hmem : ∀ z ∈ l.filter fun x => decide (x.Reports kind term pair),
          z.Reports kind term pair := fun z hz => by simpa using (List.mem_filter.mp hz).2
      rw [hl] at hfilter hmem
      exact absurd ((hmem x (by simp)).alike (hmem y (by simp)))
        ((List.pairwise_cons.mp hfilter).1 y (by simp))

end Contradiction

namespace Detector

open Taxonomy Contradiction

variable {facts : List Fact} {p q : Fact} {e : String}

/-- Two declarations have the same types, in whatever order. -/
theorem perm_types_iff :
    ([p.subject, p.object].map Text.fold).Perm [Text.fold q.subject, Text.fold q.object] ↔
      SamePair p q := by
  rw [List.perm_pair]
  simp [SamePair]

/-! ### Terms below both types -/

/-- Under a pair every term is reported once, and under another pair with other types. -/
theorem pairwise_inherited (facts : List Fact) :
    ((disjointPairs facts).flatMap (inherited facts)).Pairwise fun x y => ¬ x.Alike y := by
  rw [List.pairwise_flatMap]
  refine ⟨fun p _ => ?_, (pairwise_disjointPairs facts).imp fun hpq x hx y hy halike => ?_⟩
  · obtain ⟨hnodup, hfold⟩ := listed_descendants facts (Text.fold p.subject)
    unfold inherited
    rw [List.pairwise_map]
    refine List.Pairwise.filter _ ((List.pairwise_map.mp hnodup).imp_of_mem ?_)
    intro t u ht hu hne halike
    have hsubject : Text.fold t.2 = Text.fold u.2 := halike.subject
    rw [hfold t ht, hfold u hu] at hsubject
    exact hne hsubject
  · obtain ⟨t, -, rfl⟩ := List.mem_map.mp hx
    obtain ⟨u, -, rfl⟩ := List.mem_map.mp hy
    exact hpq (perm_types_iff.mp halike.terms)

/-- Within a declared pair, exactly the terms below both types are reported from above. -/
theorem exists_reports_inherited_iff (hp : Declares facts p) :
    (∃ x ∈ checkTaxonomic facts, x.Reports "INHERITED_DISJOINT" e p) ↔
      Below facts e p.subject ∧ Below facts e p.object := by
  rw [checkTaxonomic_eq]
  constructor
  · rintro ⟨x, hx, hreports⟩
    rcases List.mem_append.mp hx with hx | hx
    · obtain ⟨terms, -, rfl⟩ := List.mem_map.mp hx
      have hkind := hreports.kind
      simp [Contradiction.kind] at hkind
    · obtain ⟨q, -, hx⟩ := List.mem_flatMap.mp hx
      obtain ⟨hsub, hobj⟩ := below_of_mem_inherited hx
      obtain ⟨t, -, rfl⟩ := List.mem_map.mp hx
      have hsame : SamePair q p := perm_types_iff.mp hreports.types
      obtain ⟨hsub, hobj⟩ := below_of_samePair hsame.symm hsub hobj
      exact ⟨(below_congr hreports.subject rfl).mp hsub, (below_congr hreports.subject rfl).mp hobj⟩
  · rintro ⟨hsub, hobj⟩
    obtain ⟨q, hq, hsame⟩ := exists_disjointPair hp.1 hp.2
    obtain ⟨hsub, hobj⟩ := below_of_samePair hsame hsub hobj
    obtain ⟨t, hfold, ht⟩ := exists_mem_inherited hsub hobj
    exact ⟨_, List.mem_append_right _ (List.mem_flatMap.mpr ⟨q, hq, ht⟩), rfl, hfold,
      perm_types_iff.mpr hsame⟩

/-! ### Terms that are of both types -/

/-- Within a declared pair, the terms below both types are reported from below, and those that a
fact makes a subtype of their partner. -/
theorem exists_reports_violation_iff (hp : Declares facts p) :
    (∃ x ∈ checkDisjointness facts, x.Reports "DISJOINT_VIOLATION" e p) ↔
      (Below facts e p.subject ∧ Below facts e p.object) ∨
        ∃ f ∈ typeFacts facts, Text.fold f.subject = Text.fold e ∧ joins f p = true := by
  constructor
  · rintro ⟨x, hx, -, hsubject, htypes⟩
    rcases mem_checkDisjointness.mp hx with ⟨a, -, q, -, hsub, hobj, rfl⟩ | ⟨f, hf, q, -, hj, rfl⟩
    · have hsame : SamePair q p := perm_types_iff.mp htypes
      obtain ⟨hsub, hobj⟩ := below_of_samePair hsame.symm hsub hobj
      exact Or.inl ⟨(below_congr hsubject rfl).mp hsub, (below_congr hsubject rfl).mp hobj⟩
    · have hsame : SamePair q p := perm_types_iff.mp htypes
      exact Or.inr ⟨f, hf, hsubject, joins_of_samePair hsame.symm hj⟩
  · obtain ⟨q, hq, hsame⟩ := exists_disjointPair hp.1 hp.2
    rintro (⟨hsub, hobj⟩ | ⟨f, hf, hsubject, hj⟩)
    · obtain ⟨hsub, hobj⟩ := below_of_samePair hsame hsub hobj
      obtain ⟨a, ha, hfold⟩ := exists_entity hsub
      refine ⟨_, mem_checkDisjointness.mpr (Or.inl ⟨a, ha, q, hq, ?_, ?_, rfl⟩), rfl, hfold,
        perm_types_iff.mpr hsame⟩
      · exact (below_congr hfold rfl).mpr hsub
      · exact (below_congr hfold rfl).mpr hobj
    · exact ⟨_, mem_checkDisjointness.mpr (Or.inr ⟨f, hf, q, hq, joins_of_samePair hsame hj, rfl⟩),
        rfl, hsubject, perm_types_iff.mpr hsame⟩

/-! ### Both checks -/

theorem countP_inherited_le (facts : List Fact) (e : String) (p : Fact) :
    (checkTaxonomic facts).countP (fun x => decide (x.Reports "INHERITED_DISJOINT" e p)) ≤ 1 := by
  rw [checkTaxonomic_eq, List.countP_append, List.countP_eq_zero.mpr ?_, Nat.zero_add]
  · exact countP_reports_le (pairwise_inherited facts)
  · intro x hx
    obtain ⟨terms, -, rfl⟩ := List.mem_map.mp hx
    rw [decide_eq_true_eq]
    intro hreports
    have hkind := hreports.kind
    simp [Contradiction.kind] at hkind

/-- **What lies below both types of a pair is reported from above, once, and from below.**  From
below a type is also reported that a fact makes a subtype of its own partner.  Both lookups end
because nothing is left to follow, also where the types go around. -/
theorem upward_iff_downward (hp : Declares facts p) (e : String) :
    (Below facts e p.subject ∧ Below facts e p.object ↔
        (checkTaxonomic facts).countP
          (fun x => decide (x.Reports "INHERITED_DISJOINT" e p)) = 1) ∧
      (checkTaxonomic facts).countP
        (fun x => decide (x.Reports "INHERITED_DISJOINT" e p)) ≤ 1 ∧
      ((∃ x ∈ checkDisjointness facts, x.Reports "DISJOINT_VIOLATION" e p) ↔
        (Below facts e p.subject ∧ Below facts e p.object) ∨
          ∃ f ∈ typeFacts facts, Text.fold f.subject = Text.fold e ∧ joins f p = true) ∧
      ∀ t, Walk.Ends (upward facts) t ∧ Walk.Ends (downward facts) t := by
  have honce := countP_inherited_le facts e p
  refine ⟨?_, honce, exists_reports_violation_iff hp, fun t => ⟨Walk.ends _ t, Walk.ends _ t⟩⟩
  have hpos : 0 < (checkTaxonomic facts).countP
      (fun x => decide (x.Reports "INHERITED_DISJOINT" e p)) ↔
      ∃ x ∈ checkTaxonomic facts, x.Reports "INHERITED_DISJOINT" e p := by
    rw [List.countP_pos_iff]
    simp only [decide_eq_true_eq]
  rw [← exists_reports_inherited_iff hp, ← hpos]
  omega

def noMammal : Fact := { triple := ⟨"Fish", "DISJOINT_WITH", "mammal"⟩ }

/-- Whales are mammals and fish, mammals are whales, and the pair is declared both ways. -/
def sea : List Fact :=
  [{ triple := ⟨"Mammal", "DISJOINT_WITH", "Fish"⟩ }, noMammal,
    { triple := ⟨"Whale", "IS_A", "Mammal"⟩ }, { triple := ⟨"whale", "IS_A", "Fish"⟩ },
    { triple := ⟨"Mammal", "IS_A", "Whale"⟩ }]

theorem upward_iff_downward_sea : Declares sea noMammal ∧ Below sea "WHALE" "Fish" ∧
    Below sea "WHALE" "Mammal" ∧ (checkTaxonomic sea).countP
      (fun x => decide (x.Reports "INHERITED_DISJOINT" "WHALE" noMammal)) = 1 := by
  have hdeclared : Declares sea noMammal := ⟨by simp [sea], rfl⟩
  obtain ⟨hdown, -, hup, -⟩ := upward_iff_downward hdeclared "WHALE"
  have hwhale : ∃ x ∈ checkDisjointness sea,
      x.Reports "DISJOINT_VIOLATION" "WHALE" noMammal := by
    decide +kernel
  have hjoins : ¬ ∃ f ∈ typeFacts sea, Text.fold f.subject = Text.fold "WHALE" ∧
      joins f noMammal = true := by
    decide +kernel
  have hboth : Below sea "WHALE" "Fish" ∧ Below sea "WHALE" "mammal" :=
    (hup.mp hwhale).resolve_right hjoins
  exact ⟨hdeclared, hboth.1, (below_congr rfl (by decide +kernel)).mp hboth.2, hdown.mp hboth⟩

end Detector

end KnowledgeBase
