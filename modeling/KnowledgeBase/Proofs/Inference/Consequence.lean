import KnowledgeBase.Inference.Saturation
import KnowledgeBase.Proofs.Inference.Pattern
import KnowledgeBase.Proofs.Outcome
import Std.Data.TreeMap.Lemmas
import Std.Data.TreeSet.Lemmas

/-!
# What follows in one step

One application of a composition rule or of a closure, stated on its own, and the candidates of a
round measured against it.

* `Relations.Registered`: the registries that registration leads to, and what their rules keep to;
* `Follows`: one constructor for each way in which a triple follows from facts;
* `join_sound`, `exists_join`: a join is an assignment under which each pattern matches a fact;
* `mem_candidates`: a round finds exactly what follows.
-/

namespace KnowledgeBase

/-! ### Registries -/

namespace Relations

/-- The registries that registration leads to. -/
inductive Registered : Relations → Prop
  | bare : Registered bare
  | symmetric {r r' : Relations} {relation : String} :
      Registered r → r.addSymmetric relation = .ok r' → Registered r'
  | transitive {r r' : Relations} {relation : String} :
      Registered r → r.addTransitive relation = .ok r' → Registered r'
  | inheritable {r r' : Relations} {relation : String} :
      Registered r → r.addInheritable relation = .ok r' → Registered r'
  | inverse {r r' : Relations} {relation inverse : String} :
      Registered r → r.addInverse relation inverse = .ok r' → Registered r'
  | byDefault {r r' : Relations} {d : DefaultRule} :
      Registered r → r.addDefault d = .ok r' → Registered r'
  | composition {r r' : Relations} {c : CompositionRule} :
      Registered r → r.addComposition c = .ok r' → Registered r'

variable {r r' : Relations}

theorem registered_standard : Registered standard := by
  have htypes : Registered { bare with transitive := .ofList [Relation.isA, "PART_OF"] } :=
    @Registered.transitive _ _ "PART_OF" (@Registered.transitive _ _ Relation.isA .bare rfl) rfl
  have hpeers : Registered { bare with
      transitive := .ofList [Relation.isA, "PART_OF"]
      symmetric := .ofList ["MARRIED_TO", "SIBLING_OF"] } :=
    @Registered.symmetric _ _ "SIBLING_OF" (@Registered.symmetric _ _ "MARRIED_TO" htypes rfl) rfl
  exact @Registered.inverse _ _ "PARENT_OF" "CHILD_OF" hpeers rfl

/-- An accepted rule has passed the check and is the last one. -/
theorem addComposition_eq_ok {c : CompositionRule} (h : r.addComposition c = .ok r') :
    c.fault? = none ∧ r' = { r with compositions := r.compositions ++ [c] } := by
  unfold addComposition at h
  split at h
  · cases h
  · rename_i hfault
    cases h
    exact ⟨hfault, rfl⟩

/-- Every rule of a registry has passed the check. -/
theorem Registered.faultless (h : r.Registered) : ∀ c ∈ r.compositions, c.fault? = none := by
  induction h with
  | bare => simp [Relations.bare]
  | symmetric _ hadd ih | transitive _ hadd ih | inheritable _ hadd ih =>
    obtain ⟨-, -, hadd⟩ := Outcome.bind_eq_ok.mp hadd
    cases hadd
    exact ih
  | inverse _ hadd ih =>
    obtain ⟨-, -, hadd⟩ := Outcome.bind_eq_ok.mp hadd
    obtain ⟨-, -, hadd⟩ := Outcome.bind_eq_ok.mp hadd
    cases hadd
    exact ih
  | byDefault _ hadd ih =>
    obtain ⟨d, -, hadd⟩ := Outcome.bind_eq_ok.mp hadd
    cases hadd
    exact ih
  | composition _ hadd ih =>
    obtain ⟨hfault, rfl⟩ := addComposition_eq_ok hadd
    intro c hc
    rcases List.mem_append.mp hc with hc | hc
    · exact ih c hc
    · rw [List.mem_singleton.mp hc]
      exact hfault

end Relations

/-- A variable of the head of an accepted rule is a term of its body. -/
theorem CompositionRule.head_mem_body {c : CompositionRule} (h : c.fault? = none) {term : String}
    (hterm : term ∈ c.head.variableNames) : ∃ p ∈ c.body, term = p.subject ∨ term = p.object := by
  have hbound : c.unbound? = none := by
    unfold fault? at h
    split at h
    · cases h
    split at h
    · cases h
    split at h
    · cases h
    split at h
    · cases h
    simpa using h
  have hmem := List.find?_eq_none.mp hbound term hterm
  simp only [Bool.not_eq_true, Bool.not_eq_false', List.contains_iff_mem, List.mem_flatMap,
    Pattern.variableNames, List.mem_filter, List.mem_cons, List.not_mem_nil, or_false] at hmem
  obtain ⟨p, hp, hpterm, -⟩ := hmem
  exact ⟨p, hp, hpterm⟩

/-- Bindings that cover the body of an accepted rule cover its head. -/
theorem CompositionRule.covers_head {c : CompositionRule} (h : c.fault? = none) {b : Bindings}
    (hcov : ∀ p ∈ c.body, b.Covers p.subject ∧ b.Covers p.object) :
    b.Covers c.head.subject ∧ b.Covers c.head.object := by
  have hterm : ∀ term ∈ [c.head.subject, c.head.object], b.Covers term := by
    intro term hterm hvar
    have hmem : term ∈ c.head.variableNames := List.mem_filter.mpr ⟨hterm, hvar⟩
    obtain ⟨p, hp, hpterm⟩ := head_mem_body h hmem
    rcases hpterm with rfl | rfl
    · exact (hcov p hp).1 hvar
    · exact (hcov p hp).2 hvar
  exact ⟨hterm _ (by simp), hterm _ (by simp)⟩

namespace Inference.Saturation

open Bindings

/-! ### One step -/

/-- A triple follows from facts by the rule or the closure of a name. -/
inductive Follows (r : Relations) (facts : List Fact) : Triple → String → Prop
  | composition {c : CompositionRule} {σ : String → String} :
      c ∈ r.compositions → (∀ p ∈ c.body, ∃ f ∈ facts, p.Fits σ f.triple) →
      Pattern.isGround (c.head.under σ) = true → Follows r facts (c.head.under σ) c.name
  | chain {f g : Fact} :
      r.isTransitive f.relation = true → f ∈ facts → g ∈ facts → g.relation = f.relation →
      Text.same f.object g.subject = true → Text.same f.subject g.object = false →
      Follows r facts ⟨f.subject, f.relation, g.object⟩ "transitive_closure"
  | symmetry {f : Fact} :
      r.isSymmetric f.relation = true → f ∈ facts →
      Follows r facts (f.triple.swapped f.relation) "symmetric_closure"
  | inversion {f : Fact} {inverse : String} :
      r.inverse? f.relation = some inverse → f ∈ facts →
      Follows r facts (f.triple.swapped inverse) "inverse_closure"

/-! ### Joins -/

variable {facts : List Fact} {b c : Bindings} {σ : String → String} {r : Relations}

/-- Each pattern of a joined body matches a fact under all assignments that agree. -/
theorem join_sound {ps : List Pattern} (h : c ∈ join facts ps b) :
    b.Extends c ∧ ∀ σ, Agrees σ c → ∀ p ∈ ps, ∃ f ∈ facts, p.Fits σ f.triple := by
  induction ps generalizing b with
  | nil =>
    rw [join, List.mem_singleton] at h
    subst h
    exact ⟨Extends.refl c, fun _ _ p hp => absurd hp List.not_mem_nil⟩
  | cons p ps ih =>
    rw [join, List.mem_flatMap] at h
    obtain ⟨f, hf, h⟩ := h
    split at h
    · cases h
    rename_i hrel
    have hrel : f.relation = p.relation := by simpa using hrel
    split at h
    · cases h
    rename_i ext hext
    obtain ⟨hle, -, -, hfits⟩ := Pattern.matchTerms?_sound (t := f.triple) hext
    obtain ⟨hle', hrest⟩ := ih h
    refine ⟨hle.trans hle', fun σ hσ q hq => ?_⟩
    rcases List.mem_cons.mp hq with rfl | hq
    · exact ⟨f, hf, hfits σ (hσ.of_extends hle') hrel⟩
    · exact hrest σ hσ q hq

/-- Facts that match a body under one assignment are joined, and all terms of the body are
covered. -/
theorem exists_join {ps : List Pattern} (hσ : Agrees σ b)
    (h : ∀ p ∈ ps, ∃ f ∈ facts, p.Fits σ f.triple) :
    ∃ c ∈ join facts ps b, Agrees σ c ∧ ∀ p ∈ ps, c.Covers p.subject ∧ c.Covers p.object := by
  induction ps generalizing b with
  | nil =>
    refine ⟨b, ?_, hσ, fun p hp => absurd hp List.not_mem_nil⟩
    rw [join]
    exact List.mem_singleton_self b
  | cons p ps ih =>
    obtain ⟨f, hf, hfits⟩ := h p List.mem_cons_self
    obtain ⟨ext, hext, hσext⟩ := Pattern.exists_matchTerms? hσ hfits
    obtain ⟨-, hcovs, hcovo, -⟩ := Pattern.matchTerms?_sound hext
    obtain ⟨c, hc, hσc, hcov⟩ := ih hσext fun q hq => h q (List.mem_cons_of_mem p hq)
    have hle : ext.Extends c := (join_sound hc).1
    refine ⟨c, ?_, hσc, fun q hq => ?_⟩
    · rw [join, List.mem_flatMap]
      refine ⟨f, hf, ?_⟩
      have hrel : (f.relation != p.relation) = false := by
        simpa using (show f.relation = p.relation from hfits.relation)
      have hext' : p.matchTerms? f.subject f.object b = some ext := hext
      simp only [hrel, hext']
      exact hc
    · rcases List.mem_cons.mp hq with rfl | hq
      · exact ⟨hcovs.mono hle, hcovo.mono hle⟩
      · exact hcov q hq

/-! ### Candidates -/

theorem follows_of_mem_compose {rule : CompositionRule} (hrule : rule ∈ r.compositions)
    {x : Candidate} (h : x ∈ compose facts rule) : Follows r facts x.triple x.rule := by
  simp only [compose, List.mem_map, List.mem_filter] at h
  obtain ⟨t, ⟨⟨c, hc, rfl⟩, hground⟩, rfl⟩ := h
  obtain ⟨σ, hσ⟩ := exists_agrees c
  obtain ⟨hs, ho⟩ := Pattern.covers_of_isGround hground
  have heq := Pattern.instantiate_eq_under hσ hs ho
  dsimp only
  rw [heq] at hground ⊢
  exact .composition hrule ((join_sound hc).2 σ hσ) hground

theorem mem_compose {rule : CompositionRule} (hfault : rule.fault? = none)
    (hbody : ∀ p ∈ rule.body, ∃ f ∈ facts, p.Fits σ f.triple)
    (hground : Pattern.isGround (rule.head.under σ) = true) :
    ⟨rule.head.under σ, rule.name⟩ ∈ compose facts rule := by
  have hempty : Agrees σ Bindings.empty := fun n v hv => by cases hv
  obtain ⟨c, hc, hσ, hcov⟩ := exists_join hempty hbody
  obtain ⟨hcovs, hcovo⟩ := CompositionRule.covers_head hfault hcov
  have heq : rule.head.instantiate c = rule.head.under σ :=
    Pattern.instantiate_eq_under hσ hcovs hcovo
  simp only [compose, List.mem_map, List.mem_filter]
  exact ⟨_, ⟨⟨c, hc, heq⟩, hground⟩, rfl⟩

theorem mem_chain {relation : String} {x : Candidate} :
    x ∈ chain facts relation ↔ ∃ f ∈ facts, ∃ g ∈ facts, f.relation = relation ∧
      g.relation = relation ∧ Text.same f.object g.subject = true ∧
      Text.same f.subject g.object = false ∧
      x = ⟨⟨f.subject, relation, g.object⟩, "transitive_closure"⟩ := by
  simp only [chain, Chain.edges, Chain.edgesFrom, List.mem_flatMap, List.mem_map, List.mem_filter,
    beq_iff_eq, bne_iff_ne, ne_eq, Text.same, beq_eq_false_iff_ne]
  constructor
  · rintro ⟨-, ⟨f, ⟨hf, hfrel⟩, rfl⟩, -, ⟨⟨⟨g, ⟨hg, hgrel⟩, rfl⟩, hmeet⟩, hends⟩, rfl⟩
    exact ⟨f, hf, g, hg, hfrel, hgrel, hmeet.symm, hends, rfl⟩
  · rintro ⟨f, hf, g, hg, hfrel, hgrel, hmeet, hends, rfl⟩
    exact ⟨_, ⟨f, ⟨hf, hfrel⟩, rfl⟩, _, ⟨⟨⟨g, ⟨hg, hgrel⟩, rfl⟩, hmeet.symm⟩, hends⟩, rfl⟩

/-- What a round finds follows. -/
theorem follows_of_mem_candidates {x : Candidate} (h : x ∈ candidates facts r) :
    Follows r facts x.triple x.rule := by
  simp only [candidates, List.mem_append, List.mem_flatMap] at h
  rcases h with ((⟨rule, hrule, h⟩ | ⟨relation, hrel, h⟩) | ⟨relation, hrel, h⟩) | ⟨e, he, h⟩
  · exact follows_of_mem_compose hrule h
  · obtain ⟨f, hf, g, hg, rfl, hgrel, hmeet, hends, rfl⟩ := mem_chain.mp h
    have htrans : r.isTransitive f.relation = true := by
      simpa [Relations.isTransitive, Std.TreeSet.mem_toList] using hrel
    exact .chain htrans hf hg hgrel hmeet hends
  · simp only [swapSymmetric, List.mem_map, List.mem_filter, beq_iff_eq] at h
    obtain ⟨f, ⟨hf, rfl⟩, rfl⟩ := h
    have hsymm : r.isSymmetric f.relation = true := by
      simpa [Relations.isSymmetric, Std.TreeSet.mem_toList] using hrel
    exact .symmetry hsymm hf
  · simp only [swapInverse, List.mem_map, List.mem_filter, beq_iff_eq] at h
    obtain ⟨f, ⟨hf, hfrel⟩, rfl⟩ := h
    have hinv : r.inverse? f.relation = some e.2 := by
      rw [hfrel]
      exact Std.TreeMap.mem_toList_iff_getElem?_eq_some.mp he
    exact .inversion hinv hf

/-- What follows over a registry is found in a round. -/
theorem mem_candidates (hr : r.Registered) {t : Triple} {name : String}
    (h : Follows r facts t name) : ⟨t, name⟩ ∈ candidates facts r := by
  simp only [candidates, List.mem_append, List.mem_flatMap]
  cases h with
  | composition hrule hbody hground =>
    exact .inl (.inl (.inl ⟨_, hrule, mem_compose (hr.faultless _ hrule) hbody hground⟩))
  | @chain f g htrans hf hg hrel hmeet hends =>
    refine .inl (.inl (.inr ⟨f.relation, ?_, ?_⟩))
    · simpa [Relations.isTransitive, Std.TreeSet.mem_toList] using htrans
    · exact mem_chain.mpr ⟨f, hf, g, hg, rfl, hrel, hmeet, hends, rfl⟩
  | @symmetry f hsymm hf =>
    refine .inl (.inr ⟨f.relation, ?_, ?_⟩)
    · simpa [Relations.isSymmetric, Std.TreeSet.mem_toList] using hsymm
    · exact List.mem_map.mpr ⟨f, List.mem_filter.mpr ⟨hf, by simp⟩, rfl⟩
  | @inversion f inverse hinv hf =>
    refine .inr ⟨(f.relation, inverse), ?_, ?_⟩
    · exact Std.TreeMap.mem_toList_iff_getElem?_eq_some.mpr hinv
    · exact List.mem_map.mpr ⟨f, List.mem_filter.mpr ⟨hf, by simp⟩, rfl⟩

end Inference.Saturation

end KnowledgeBase
