import KnowledgeBase.Proofs.Chaining.Search
import KnowledgeBase.Proofs.Store.Scan
import KnowledgeBase.Proof.Theory

/-!
# Searches come to an end

Over a store that answers every query, no proof is broken off by a fault.

* `Store.Answers`, `Coherent.answers`: the queries of backward chaining, and the stores that answer
  them;
* `Theory.ends_solve`, `Theory.ends_proveLeaf`: conditions and goals;
* `Theory.exists_result`: every goal has a result.
-/

namespace KnowledgeBase

namespace Store

/-- Every look-up of facts is answered. -/
structure Answers (s : Store) : Prop where
  best : ∀ a r b, ∃ f, s.bestFact a r (some b) = .ok f
  pair : ∀ a r min, ∃ fs, s.factsByPair a r min = .ok fs

/-- A store in order has no id without a fact. -/
theorem Coherent.answers {s : Store} (h : Coherent s) : s.Answers := by
  refine ⟨fun a r b => ?_, fun a r min => ?_⟩
  · unfold bestFact
    dsimp only
    split
    · exact ⟨_, rfl⟩
    · rename_i id rest hb
      have hid : id ∈ s.byTriple.bucket (Triple.key ⟨a, r, b⟩) := hb ▸ List.mem_cons_self
      obtain ⟨f, hf, -⟩ := (h.byTriple.mem_iff _ _).mp hid
      rw [hf]
      exact ⟨_, rfl⟩
  · unfold factsByPair
    rw [h.collect_eq h.byPair]
    exact ⟨_, rfl⟩

end Store

namespace Proof.Theory

open Search

variable {t : Theory} {prove : Leaf → Search (Option Certificate)}

theorem ends_ofExcept {α : Type} {r : Except Fault α} (h : ∃ a, r = .ok a) : (ofExcept r).Ends := by
  obtain ⟨a, ha⟩ := h
  exact ⟨a, ofExcept_eq_ok.mpr ha⟩

theorem exists_matchable (hs : t.store.Answers) (l : Leaf) (subject : Term) (b : Bindings) :
    ∃ fs, t.matchable l subject b = .ok fs := by
  unfold matchable
  dsimp only
  split
  · rename_i a _
    obtain ⟨fs, hfs⟩ := hs.pair a l.op (some Existence.possible)
    rw [hfs]
    exact ⟨_, rfl⟩
  · exact ⟨_, rfl⟩

theorem exists_matchFacts (hs : t.store.Answers) (l : Leaf) (s : Solution) :
    ∃ sols, t.matchFacts l s = .ok sols := by
  unfold matchFacts
  split
  · rename_i subject object _
    obtain ⟨fs, hfs⟩ := exists_matchable hs l subject s.bindings
    rw [hfs]
    exact ⟨_, rfl⟩
  · exact ⟨[], rfl⟩

theorem exists_statedBy? (hs : t.store.Answers) (goal : Leaf) :
    ∃ f, t.statedBy? goal = .ok f := by
  unfold statedBy?
  split
  · rename_i a b _
    split
    · exact ⟨none, rfl⟩
    · obtain ⟨f, hf⟩ := hs.best a.name goal.op b.name
      rw [hf]
      exact ⟨_, rfl⟩
  · exact ⟨none, rfl⟩

theorem ends_solveLeaf (hs : t.store.Answers) (hprove : ∀ g, (prove g).Ends) (l : Leaf)
    (s : Solution) : (t.solveLeaf prove l s).Ends := by
  unfold solveLeaf
  split
  · refine (hprove _).bind fun c => ?_
    cases c with
    | none => exact ends_pure []
    | some c => exact ends_pure _
  · exact ends_ofExcept (exists_matchFacts hs l s)

mutual

theorem ends_solve (hs : t.store.Answers) (hprove : ∀ g, (prove g).Ends) :
    (f : Formula) → (s : Solution) → (t.solve prove f s).Ends
  | .leaf l, s => by
    unfold solve
    exact ends_solveLeaf hs hprove l s
  | .all ps, s => by
    unfold solve
    exact ends_solveAll hs hprove ps [s]
  | .any ps, s => by
    unfold solve
    exact ends_solveAny hs hprove ps s []
  | .negate f, s => by
    unfold solve
    split
    · refine (ends_solve hs hprove f s).bind fun sols => ?_
      split
      · exact ends_pure _
      · exact ends_pure _
    · exact ends_pure []
  | .implies _ _, s | .reference _, s => by
    unfold solve
    exact ends_pure []

theorem ends_solveAll (hs : t.store.Answers) (hprove : ∀ g, (prove g).Ends) :
    (fs : List Formula) → (partials : List Solution) → (t.solveAll prove fs partials).Ends
  | [], partials => by
    unfold solveAll
    exact ends_pure partials
  | f :: fs, partials => by
    unfold solveAll
    refine (Ends.gather (fun p _ => ends_solve hs hprove f p) []).bind fun next => ?_
    split
    · exact ends_pure []
    · exact ends_solveAll hs hprove fs next

theorem ends_solveAny (hs : t.store.Answers) (hprove : ∀ g, (prove g).Ends) :
    (fs : List Formula) → (s : Solution) → (found : List Solution) →
      (t.solveAny prove fs s found).Ends
  | [], s, found => by
    unfold solveAny
    exact ends_pure found
  | f :: fs, s, found => by
    unfold solveAny
    refine (ends_solve hs hprove f s).bind fun sols => ?_
    dsimp only
    split
    · exact ends_pure _
    · exact ends_solveAny hs hprove fs s _

end

theorem ends_solveCondition (hs : t.store.Answers) (hprove : ∀ g, (prove g).Ends) (room : Nat)
    (r : Rule) (b : Bindings) : (t.solveCondition prove room r b).Ends := by
  unfold solveCondition
  split
  · exact ends_pure none
  · rename_i c _
    split
    · exact ⟨none, rfl⟩
    · exact (ends_solve hs hprove c _).bind fun sols => ends_pure _

theorem ends_proveLeaf (hs : t.store.Answers) (room : Nat) (pending : List String) (goal : Leaf) :
    (t.proveLeaf room pending goal).Ends := by
  induction room generalizing pending goal with
  | zero => exact ⟨none, rfl⟩
  | succ room ih =>
    unfold proveLeaf
    split
    · exact ends_pure none
    · refine (ends_ofExcept (exists_statedBy? hs goal)).bind fun stated => ?_
      cases stated with
      | some f => exact ends_pure _
      | none =>
        refine Ends.bind (Ends.workingOn (Ends.findSomeM? fun r _ => ?_) _)
          fun u => ends_pure _
        refine Ends.findSomeM? fun b _ => ?_
        exact (ends_solveCondition hs (ih _) room r b).bind fun s => ends_pure _

/-- Every goal has a result. -/
theorem exists_result (hs : t.store.Answers) (goal : Formula) :
    ∃ r, (t.prove goal).value = .ok r := by
  have hends : (t.attempt goal).Ends := by
    unfold attempt
    split
    · exact ends_proveLeaf hs _ _ _
    · split
      · exact ⟨none, rfl⟩
      · exact ends_pure none
  obtain ⟨c, hc⟩ := hends
  unfold prove
  dsimp only
  rw [hc]
  exact ⟨_, rfl⟩

end Proof.Theory

end KnowledgeBase
