import KnowledgeBase.Proofs.Chaining.Coverage
import KnowledgeBase.Proofs.Chaining.Derivation
import KnowledgeBase.Proofs.Chaining.Ending
import KnowledgeBase.Proofs.Store.Identity

/-!
# Pruning by levels proves no more

Pruning skips rules whose premises lie above the goal.  A search that skips nothing tries all that
a pruned search tries, and more, so it proves again whatever that one proves, unless one of the
rules that are tried besides makes a look-up that fails.

* `Theory.unpruned`, `broader_unpruned`: the same theory without pruning, which is broader;
* `pruning_invents_nothing`: what a pruned search proves;
* `pruned_past_stale_id`: a look-up that only the search without pruning makes, and that fails.
-/

namespace KnowledgeBase.Proof.Theory

open Search

variable {t t' : Theory} {P : Task → Prop} {room room' : Nat} {pending : List String} {g : Leaf}

/-- The same theory, with no rule skipped. -/
def unpruned (t : Theory) : Theory :=
  { t with config := { t.config with useLevelOptimization := false, strictLevelPruning := false } }

theorem offers_unpruned (g : Leaf) (r : Rule) :
    offers t.unpruned.pruning g r = r.candidates.filterMap (matchConclusion? g) :=
  List.filter_eq_self.mpr fun _ _ => rfl

/-- Without pruning at least as much is tried. -/
theorem attempts_unpruned (g : Leaf) : t.attempts g ⊆ t.unpruned.attempts g := by
  intro e he
  obtain ⟨r, hr, he⟩ := List.mem_flatMap.mp he
  obtain ⟨b, hb, rfl⟩ := List.mem_map.mp he
  refine List.mem_flatMap.mpr ⟨r, hr, List.mem_map.mpr ⟨b, ?_, rfl⟩⟩
  rw [offers_unpruned]
  exact List.mem_of_mem_filter hb

theorem broader_unpruned : Broader t t.unpruned :=
  ⟨fun _ _ => rfl, fun _ => rfl, attempts_unpruned⟩

/-- A goal that is proved with pruning is not disproved without. -/
theorem isSome_unpruned (hopen : t.config.closedWorld = false)
    (hcap : t.unpruned.Throughout t.unpruned.Uncapped (.goal room pending g)) {c : Certificate}
    {r : Option Certificate} (hc : (t.proveLeaf room pending g).value = .ok (some c))
    (hr : (t.unpruned.proveLeaf room pending g).value = .ok r) : r.isSome = true :=
  provesAgain broader_unpruned (fun _ _ _ f _ => findsAgain_negate_open hopen f) (Nat.le_refl room)
    pending g c r (fun _ _ => trivial : t.Throughout (fun _ => True) _) hcap hc hr

/-- What is proved with pruning is proved without, if that search ends. -/
theorem proves_unpruned (hopen : t.config.closedWorld = false) {goal : Formula}
    (hcap : ∀ g, goal = .leaf g →
      t.unpruned.Throughout t.unpruned.Uncapped (.goal t.maxDepth [] g))
    (h : t.proves goal = true) {r : Option Certificate}
    (hr : (t.unpruned.attempt goal).value = .ok r) : t.unpruned.proves goal = true := by
  obtain ⟨g, rfl⟩ := exists_leaf_of_proves h
  obtain ⟨c, hc⟩ := proves_iff.mp h
  obtain ⟨c', rfl⟩ := Option.isSome_iff_exists.mp (isSome_unpruned hopen (hcap g rfl) hc hr)
  exact proves_iff.mpr ⟨c', hr⟩

/-- A search that is broken off made a look-up that the store does not answer. -/
theorem not_answers_of_error {goal : Formula} {b : Break} (h : (t.prove goal).value = .error b) :
    ¬ t.store.Answers := by
  intro hs
  obtain ⟨r, hr⟩ := exists_result hs goal
  rw [h] at hr
  cases hr

/-- **Pruning invents no proof.**  What a pruned search of an open world proves is proved without
pruning, if no alternatives are dropped there, unless that search is broken off by a look-up that
the store does not answer.  Where the counter of ids has not wrapped, all are answered. -/
theorem pruning_invents_nothing (hopen : t.config.closedWorld = false) {goal : Formula}
    (hcap : ∀ g, goal = .leaf g →
      t.unpruned.Throughout t.unpruned.Uncapped (.goal t.maxDepth [] g))
    (h : t.proves goal = true) :
    (t.unpruned.proves goal = true ∨
      ¬ t.store.Answers ∧ ∃ b, (t.unpruned.prove goal).value = .error b) ∧
    (Store.Reached Store.Unwrapped t.store → t.unpruned.proves goal = true) := by
  have hcases : t.unpruned.proves goal = true ∨
      ¬ t.store.Answers ∧ ∃ b, (t.unpruned.prove goal).value = .error b := by
    cases hr : (t.unpruned.attempt goal).value with
    | ok r => exact .inl (proves_unpruned hopen hcap h hr)
    | error b =>
      have hbroken : (t.unpruned.prove goal).value = .error b := by
        unfold prove
        dsimp only
        rw [hr]
        rfl
      exact .inr ⟨not_answers_of_error (t := t.unpruned) hbroken, b, hbroken⟩
  refine ⟨hcases, fun hs => ?_⟩
  rcases hcases with hproves | ⟨hfails, -⟩
  · exact hproves
  · exact absurd (Store.coherent_of_reached hs).answers hfails

/-! ### Rules of two heights -/

/-- `g` follows from `p` of `c` and `d`, which lie high, and from `q`. -/
def tieredRules : RuleBook :=
  ((RuleBook.extract {} [
    ⟨"high", some (.implies (.leaf ⟨"p", [.ident "c", .ident "d"]⟩) (.leaf ⟨"g", [.hole "v"]⟩))⟩,
    ⟨"low", some (.implies (.leaf ⟨"q", [.hole "v", .ident "f"]⟩)
      (.leaf ⟨"g", [.hole "v"]⟩))⟩]).toOption.getD ({}, [])).1

/-- The rules over a store, with pruning by the levels of two facts. -/
def tiered (s : Store) : Theory where
  store := s
  rules := tieredRules.rules
  levels := some ((({} : Levels).addFact 1 ⟨"e", "q", "f"⟩).addFact 2 ⟨"c", "q", "d"⟩)
  config := { closedWorld := false, useLevelOptimization := true, strictLevelPruning := true }

def goalG : Leaf := ⟨"g", [.ident "e"]⟩

theorem uncapped_tiered (s : Store) :
    (tiered s).Throughout (tiered s).Uncapped (.goal (tiered s).maxDepth [] goalG) ∧
      (tiered s).unpruned.Throughout (tiered s).unpruned.Uncapped
        (.goal (tiered s).maxDepth [] goalG) := by
  constructor
  · refine uncapped_of_leadsByLeaves ?_
    show (tiered { dimensions := 2 }).leadsByLeaves 12 goalG = true
    decide +kernel
  · refine uncapped_of_leadsByLeaves ?_
    show (tiered { dimensions := 2 }).unpruned.leadsByLeaves 12 goalG = true
    decide +kernel

/-- A store with both facts. -/
def bothFacts : Store :=
  let s : Store := { dimensions := 2 }
  let s := s.after (.add ⟨"e", "q", "f"⟩ Existence.certain (.record []) 5)
  s.after (.add ⟨"c", "q", "d"⟩ Existence.certain (.record []) 6)

/-- The first rule is skipped by one search and tried by the other. -/
theorem pruning_invents_nothing_bothFacts :
    Store.Reached Store.Unwrapped bothFacts ∧
      ((tiered bothFacts).attempts goalG).length = 1 ∧
      ((tiered bothFacts).unpruned.attempts goalG).length = 2 ∧
      (tiered bothFacts).proves (.leaf goalG) = true ∧
      (tiered bothFacts).unpruned.proves (.leaf goalG) = true := by
  have hs : Store.Reached Store.Unwrapped bothFacts := by
    unfold bothFacts
    refine .step _ (.step _ (.make (n := 2) rfl) ?_) ?_
    all_goals decide +kernel
  have hproves : (tiered bothFacts).proves (.leaf goalG) = true := by decide +kernel
  have hcap : ∀ g, Formula.leaf goalG = .leaf g → (tiered bothFacts).unpruned.Throughout
      (tiered bothFacts).unpruned.Uncapped (.goal (tiered bothFacts).maxDepth [] g) := by
    rintro g ⟨⟩
    exact (uncapped_tiered bothFacts).2
  exact ⟨hs, by decide +kernel, by decide +kernel, hproves,
    (pruning_invents_nothing rfl hcap hproves).2 hs⟩

/-- A triple was asserted under the last id, which was taken, and the fact that had it is gone. -/
def stale : Store :=
  let s := Store.loadedWith [Store.lastButOne, Store.last]
  let s := s.after (.add ⟨"c", "p", "d"⟩ Existence.certain (.record []) 6)
  s.after (.remove lastId)

/-- **A search without pruning breaks off at a stale id** that the pruned one does not come to. -/
theorem pruned_past_stale_id :
    Store.Reached (fun _ => True) stale ∧
      ((tiered stale).Throughout (tiered stale).Uncapped
          (.goal (tiered stale).maxDepth [] goalG) ∧
        (tiered stale).unpruned.Throughout (tiered stale).unpruned.Uncapped
          (.goal (tiered stale).maxDepth [] goalG)) ∧
      (tiered stale).proves (.leaf goalG) = true ∧
      (tiered stale).unpruned.proves (.leaf goalG) = false := by
  have heq := Store.loadedWith_eq [Store.lastButOne, Store.last] rfl (by decide)
  refine ⟨?_, uncapped_tiered stale, ?_, ?_⟩
  · unfold stale
    exact .step _ (.step _ (Store.reached_loadedWith trivial) trivial) trivial
  · unfold stale
    rw [heq]
    decide +kernel
  · unfold stale
    rw [heq]
    decide +kernel

end KnowledgeBase.Proof.Theory
