import KnowledgeBase.Proofs.Inference.Soundness
import KnowledgeBase.Proofs.Inference.Transitivity

/-!
# When an answer is certain

Each method is certain of a goal exactly if certain facts, or ways along facts, are there.  A
question is certain if one of its methods is, since defaults come last and nothing else is decisive
without being certain.

* `direct_certain_iff`, `transitive_certain_iff`, `symmetric_certain_iff`, `inverse_certain_iff`,
  `inheritance_certain_iff`: the methods that look for facts;
* `run_truth_eq_or`: no method but defaults has another decisive answer;
* `exists_run_of_infer`, `infer_certain_iff_run`: questions and their methods.
-/

namespace KnowledgeBase.Inference

open Saturation

variable {i : Inference} {facts : List Fact} {goal : Triple} {depth : Nat}

/-! ### Methods that look for facts -/

theorem direct_certain_iff :
    (direct facts goal).truth = .certain ↔ ∃ f ∈ facts, f.states goal = true := by
  rw [truth_direct, ← List.find?_isSome]
  split <;> simp_all

theorem transitive_certain_iff :
    (i.transitive facts goal depth).truth = .certain ↔
      i.relations.isTransitive goal.relation = true ∧ ∃ n ≤ depth,
        Chain.Way (Chain.edges facts goal.relation) n (Text.fold goal.subject)
          (Text.fold goal.object) := by
  rw [← Chain.shortest?_isSome_iff]
  by_cases htrans : i.relations.isTransitive goal.relation = true
  · rw [truth_transitive htrans, and_iff_right htrans]
    split <;> simp_all
  · rw [transitive, if_pos (by simpa using htrans)]
    simp [Answer.unknown, htrans]

theorem symmetric_certain_iff :
    (i.symmetric facts goal).truth = .certain ↔
      i.relations.isSymmetric goal.relation = true ∧
        ∃ f ∈ facts, f.states (goal.swapped goal.relation) = true := by
  rw [← List.find?_isSome]
  unfold symmetric
  by_cases hsymm : i.relations.isSymmetric goal.relation = true
  · rw [hsymm]
    cases facts.find? (·.states (goal.swapped goal.relation)) <;>
      simp [Answer.proven, Answer.unknown]
  · simp [hsymm, Answer.unknown]

theorem inverse_certain_iff :
    (i.inverse facts goal).truth = .certain ↔
      ∃ inv, i.relations.inverse? goal.relation = some inv ∧
        ∃ f ∈ facts, f.states (goal.swapped inv) = true := by
  unfold inverse
  cases hinv : i.relations.inverse? goal.relation with
  | none => simp [Answer.unknown]
  | some inv =>
    simp only [Option.some.injEq, exists_eq_left']
    rw [← List.find?_isSome]
    cases facts.find? (·.states (goal.swapped inv)) <;> simp [Answer.proven, Answer.unknown]

theorem inheritance_certain_iff :
    (i.inheritance facts goal depth).truth = .certain ↔
      i.relations.isInheritable goal.relation = true ∧
        ∃ t ∈ Chain.types facts goal.subject depth,
          ∃ f ∈ facts, f.states { goal with subject := t } = true := by
  have hfound : ((Chain.types facts goal.subject depth).findSome? fun t =>
        (facts.find? (·.states { goal with subject := t })).map fun f => (t, f)).isSome ↔
      ∃ t ∈ Chain.types facts goal.subject depth,
        ∃ f ∈ facts, f.states { goal with subject := t } = true := by
    simp only [List.findSome?_isSome_iff, Option.isSome_map, List.find?_isSome]
  rw [← hfound]
  unfold inheritance
  by_cases hinherits : i.relations.isInheritable goal.relation = true
  · rw [hinherits]
    dsimp only
    generalize List.findSome? _ (Chain.types facts goal.subject depth) = found
    cases found <;> simp [Answer.proven, Answer.unknown]
  · simp [hinherits, Answer.unknown]

theorem byDefault_truth_ne_certain : (i.byDefault facts goal).truth ≠ .certain := by
  unfold byDefault
  dsimp only
  split
  · simp [Answer.unknown]
  · split <;> simp

/-! ### Questions -/

/-- A method other than defaults is certain, or has no answer. -/
theorem run_truth_eq_or {m : Method} (hm : m ≠ .byDefault) :
    (i.run facts goal depth m).truth = .certain ∨ (i.run facts goal depth m).truth = .unknown := by
  cases m with
  | direct =>
    rw [run, direct]
    split <;> simp [Answer.proven, Answer.unknown]
  | transitive =>
    rw [run, transitive]
    split
    · simp [Answer.unknown]
    · split <;> simp [Answer.proven, Answer.unknown]
  | symmetric =>
    rw [run, symmetric]
    split
    · simp [Answer.unknown]
    · split <;> simp [Answer.proven, Answer.unknown]
  | inverse =>
    rw [run, inverse]
    split
    · simp [Answer.unknown]
    · split <;> simp [Answer.proven, Answer.unknown]
  | inheritance =>
    rw [run, inheritance]
    split
    · simp [Answer.unknown]
    · dsimp only
      split <;> simp [Answer.proven, Answer.unknown]
  | composition =>
    rw [run, composition]
    split <;> simp [Answer.unknown]
  | byDefault => exact absurd rfl hm

/-- The methods that are chosen keep their order, in which defaults come last. -/
theorem pairwise_of_select {names : List String} {ms : List Method}
    (h : Method.select names = .ok ms) : ms.Pairwise fun m _ => m ≠ .byDefault := by
  have hsublist : ms.Sublist Method.all := by
    unfold Method.select at h
    split at h
    · cases h
    · cases h
      split
      · exact List.Sublist.refl _
      · exact List.filter_sublist
  have hall : Method.all.Pairwise fun m _ => m ≠ .byDefault := by decide
  exact hall.sublist hsublist

/-- A question is certain exactly if one of its methods is. -/
theorem infer_certain_iff_run {names : List String} {ms : List Method}
    (h : Method.select names = .ok ms) :
    (i.infer facts goal ms depth).truth = .certain ↔
      ∃ m ∈ ms, (i.run facts goal depth m).truth = .certain := by
  refine infer_certain_iff_exists ((pairwise_of_select h).imp fun {m _} hm hdecisive => ?_)
  refine (run_truth_eq_or hm).resolve_right fun hunknown => ?_
  rw [Answer.isDecisive, hunknown] at hdecisive
  cases hdecisive

/-- A certain answer is the one of a method. -/
theorem exists_run_of_infer {ms : List Method}
    (h : (i.infer facts goal ms depth).truth = .certain) :
    ∃ m ∈ ms, i.infer facts goal ms depth = i.run facts goal depth m := by
  unfold infer at h ⊢
  cases hfound : ms.findSome? fun m =>
      (some (i.run facts goal depth m)).filter Answer.isDecisive with
  | none =>
    rw [hfound] at h
    cases h
  | some a =>
    obtain ⟨m, hm, hrun⟩ := List.exists_of_findSome?_eq_some hfound
    obtain ⟨hsome, -⟩ := Option.filter_eq_some_iff.mp hrun
    exact ⟨m, hm, (Option.some.inj hsome).symm⟩

end KnowledgeBase.Inference
