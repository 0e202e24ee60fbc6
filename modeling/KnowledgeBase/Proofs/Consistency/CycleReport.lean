import KnowledgeBase.Proofs.Consistency.Verdict

/-!
# Reported cycles

A cycle of a taxonomy is reported in the spellings in which its terms are first written, with one
fact for each of its steps.

* `exists_states_of_mem_around`: what the steps of a cycle, as they are written, are stated by;
* `Around`: a cycle as it is reported;
* `cycles_reported_iff`: when cycles are reported, what a reported cycle holds, and that the search
  for them comes to its end.
-/

namespace KnowledgeBase.Taxonomy

variable {facts : List Fact}

/-! ### Steps as they are written -/

/-- Each step of a cycle, as it is written, is stated by a fact. -/
theorem exists_states_of_mem_around {folded : List String} (h : IsCycle (upward facts) folded)
    {s : String × String} (hs : s ∈ around (folded.map (written (spellings facts)))) :
    ∃ f ∈ facts, f.states ⟨s.1, Relation.isA, s.2⟩ = true := by
  rw [around_map] at hs
  obtain ⟨⟨a, b⟩, hab, rfl⟩ := List.mem_map.mp hs
  obtain ⟨f, hf, hsubject, hobject⟩ := step_upward.mp (h.2 (a, b) hab)
  obtain ⟨ha, hb⟩ := mem_of_mem_around hab
  obtain ⟨hf, hrel⟩ := Detector.mem_typeFacts.mp hf
  refine ⟨f, hf, Fact.states_iff.mpr ⟨hrel, ?_, ?_⟩⟩
  · exact hsubject.trans (fold_written_of_isCycle h ha).symm
  · exact hobject.trans (fold_written_of_isCycle h hb).symm

end KnowledgeBase.Taxonomy

namespace KnowledgeBase.Detector

open Taxonomy

variable {facts : List Fact}

/-! ### Reported cycles -/

theorem forall₂_filterMap {α β : Type} {g : α → Option β} {l : List α}
    (h : ∀ a ∈ l, (g a).isSome = true) :
    List.Forall₂ (fun b a => g a = some b) (l.filterMap g) l := by
  induction l with
  | nil => exact .nil
  | cons a l ih =>
    rw [List.forall_mem_cons] at h
    obtain ⟨b, hb⟩ := Option.isSome_iff_exists.mp h.1
    rw [List.filterMap_cons_some hb]
    exact .cons hb (ih h.2)

/-- A cycle as it is reported: its terms differ, and for each step from a term to the next one, and
from the last one to the first, it carries a fact that states the step. -/
structure Around (facts : List Fact) (x : Contradiction) : Prop where
  ne_nil : x.terms ≠ []
  distinct : (x.terms.map Text.fold).Nodup
  stated : List.Forall₂ (fun f s => f ∈ facts ∧ f.states ⟨s.1, Relation.isA, s.2⟩ = true) x.facts
    (around x.terms)
  count : x.facts.length = x.terms.length

/-- What the search finds is reported with a fact for each step. -/
theorem around_of_mem_search {folded : List String} (h : folded ∈ (search facts).cycles) :
    Around facts (.taxonomicCycle (folded.map (written (spellings facts)))
      (cycleEdges facts (folded.map (written (spellings facts))))) := by
  obtain ⟨hcycle, hnodup⟩ := isCycle_of_mem_search h
  have hfold : (folded.map (written (spellings facts))).map Text.fold = folded := by
    rw [List.map_map]
    exact (List.map_congr_left fun t ht => fold_written_of_isCycle hcycle ht).trans
      (List.map_id folded)
  have hedges : List.Forall₂ (fun f s => facts.find? (·.states ⟨s.1, Relation.isA, s.2⟩) = some f)
      (cycleEdges facts (folded.map (written (spellings facts))))
      (around (folded.map (written (spellings facts)))) := by
    refine forall₂_filterMap fun s hs => ?_
    rw [List.find?_isSome]
    exact exists_states_of_mem_around hcycle hs
  refine ⟨?_, ?_, hedges.imp fun f s hfind => ?_, ?_⟩
  · exact fun hnil => hcycle.1 (List.map_eq_nil_iff.mp hnil)
  · show ((folded.map (written (spellings facts))).map Text.fold).Nodup
    rw [hfold]
    exact hnodup
  · exact ⟨List.mem_of_find?_eq_some hfind,
      List.find?_some (p := fun g : Fact => g.states ⟨s.1, Relation.isA, s.2⟩) hfind⟩
  · exact hedges.length_eq.trans (length_around _)

/-- The contradictions that report cycles are those that the search found. -/
theorem mem_checkTaxonomic_cycle {x : Contradiction} :
    x ∈ checkTaxonomic facts ∧ x.kind = "TAXONOMIC_CYCLE" ↔
      ∃ folded ∈ (search facts).cycles, x = .taxonomicCycle (folded.map (written (spellings facts)))
        (cycleEdges facts (folded.map (written (spellings facts)))) := by
  rw [mem_checkTaxonomic, cycles_eq_map]
  constructor
  · rintro ⟨⟨terms, hterms, rfl⟩ | ⟨p, -, t, -, -, rfl⟩, hkind⟩
    · obtain ⟨folded, hfolded, rfl⟩ := List.mem_map.mp hterms
      exact ⟨folded, hfolded, rfl⟩
    · simp [Contradiction.kind] at hkind
  · rintro ⟨folded, hfolded, rfl⟩
    exact ⟨Or.inl ⟨_, List.mem_map_of_mem hfolded, rfl⟩, rfl⟩

/-- **Cycles are reported exactly if some term lies below itself.**  Every cycle that is reported
names its terms once and carries a fact for each step; the search comes to its end, and finds a
spelling for every term of its cycles. -/
theorem cycles_reported_iff (facts : List Fact) :
    ((∃ x ∈ checkTaxonomic facts, x.kind = "TAXONOMIC_CYCLE") ↔ ∃ a, Below facts a a) ∧
      (∀ x ∈ checkTaxonomic facts, x.kind = "TAXONOMIC_CYCLE" → Around facts x) ∧
      Traverses (upward facts) [] {} (members facts) (search facts) ∧
      ∀ folded ∈ (search facts).cycles, ∀ t ∈ folded,
        ((spellings facts).lookup t).isSome = true := by
  refine ⟨?_, fun x hx hkind => ?_, traverses_search facts, fun folded hfolded t ht => ?_⟩
  · have hcycles : (search facts).cycles = [] ↔ Acyclic facts := by
      rw [← cycles_eq_nil_iff, cycles_eq_map, List.map_eq_nil_iff]
    constructor
    · rintro ⟨x, hx⟩
      obtain ⟨folded, hfolded, -⟩ := mem_checkTaxonomic_cycle.mp hx
      by_contra hnone
      rw [hcycles.mpr fun a ha => hnone ⟨a, ha⟩] at hfolded
      cases hfolded
    · rintro ⟨a, ha⟩
      obtain ⟨folded, hfolded⟩ := List.exists_mem_of_ne_nil _ fun hnil => hcycles.mp hnil a ha
      exact ⟨_, mem_checkTaxonomic_cycle.mpr ⟨folded, hfolded, rfl⟩⟩
  · obtain ⟨folded, hfolded, rfl⟩ := mem_checkTaxonomic_cycle.mp ⟨hx, hkind⟩
    exact around_of_mem_search hfolded
  · obtain ⟨u, hu⟩ := step_of_isCycle (isCycle_of_mem_search hfolded).1 ht
    exact lookup_spellings_isSome hu

/-- Bosses have bosses, up to the first one again, and one term is below itself. -/
def bosses : List Fact :=
  [{ triple := ⟨"Ann", "IS_A", "Bob"⟩ }, { triple := ⟨"bob", "IS_A", "Cleo"⟩ },
    { triple := ⟨"Cleo ", "IS_A", "ANN"⟩ }, { triple := ⟨"Cleo", "IS_A", "Head"⟩ },
    { triple := ⟨"Ouroboros", "IS_A", "ouroboros"⟩ }]

theorem cycles_reported_iff_bosses :
    (∃ x ∈ checkTaxonomic bosses, x.kind = "TAXONOMIC_CYCLE" ∧ x.terms = ["Ann", "Bob", "Cleo"] ∧
        Around bosses x) ∧
      ∃ x ∈ checkTaxonomic bosses, x.kind = "TAXONOMIC_CYCLE" ∧ x.terms = ["Ouroboros"] ∧
        Around bosses x := by
  have hring : ∃ x ∈ checkTaxonomic bosses,
      x.kind = "TAXONOMIC_CYCLE" ∧ x.terms = ["Ann", "Bob", "Cleo"] := by decide +kernel
  have hself : ∃ x ∈ checkTaxonomic bosses,
      x.kind = "TAXONOMIC_CYCLE" ∧ x.terms = ["Ouroboros"] := by decide +kernel
  obtain ⟨x, hx, hkind, hterms⟩ := hring
  obtain ⟨y, hy, hkind', hterms'⟩ := hself
  exact ⟨⟨x, hx, hkind, hterms, (cycles_reported_iff bosses).2.1 x hx hkind⟩,
    y, hy, hkind', hterms', (cycles_reported_iff bosses).2.1 y hy hkind'⟩

end KnowledgeBase.Detector
