import KnowledgeBase.Config
import KnowledgeBase.Proof.Search
import KnowledgeBase.Proof.Unification
import KnowledgeBase.Store.Facts

/-!
# Backward chaining

A goal is proved by a stored fact, or by a rule whose condition can be solved.  Conditions are
solved by enumerating bindings: a leaf without free holes is a goal of its own, a leaf with free
holes is matched against the facts, conjunctions and disjunctions combine the solutions of their
parts, and a negation holds where the world is closed and its inside has no solution.
-/

namespace KnowledgeBase.Proof

/-- What goals are proved from. -/
structure Theory where
  store : Store
  rules : List Rule := []
  levels : Option Levels := none
  config : Config := {}

namespace Theory

variable (t : Theory)

/-- How many alternatives of a condition are kept. -/
def maxSolutions : Nat := 64

def maxDepth : Nat := t.config.maxProofDepth.toNat

def pruning : Pruning where
  levels := t.levels
  useLevels := t.config.useLevelOptimization
  strict := t.config.strictLevelPruning

/-! ### Facts -/

/-- The best fact that states a goal of two arguments, if it is possible at least. -/
def statedBy? (goal : Leaf) : Except Fault (Option Fact) :=
  match goal.args with
  | [a, b] =>
    if a.isHole || b.isHole then .ok none
    else do
      let f ← t.store.bestFact a.name goal.op (some b.name)
      return f.filter fun f => decide (Existence.possible ≤ f.existence)
  | _ => .ok none

/-- The facts that a leaf of two arguments may match, read off its subject if that is known. -/
def matchable (l : Leaf) (subject : Term) (b : Bindings) : Except Fault (List Fact) := do
  let known := match subject with
    | .hole n => b.get? n
    | s => some s.name
  let facts ← match known with
    | some s => t.store.factsByPair s l.op (some Existence.possible)
    | none => .ok (t.store.factsFrom Existence.possible)
  return facts.filter (·.relation == l.op)

/-- The solutions that the facts give a leaf of two arguments. -/
def matchFacts (l : Leaf) (s : Solution) : Except Fault (List Solution) :=
  match l.args with
  | [subject, _] => do
    let found := (← t.matchable l subject s.bindings).filterMap fun f =>
      (matchTerms? l.args [f.subject, f.object] s.bindings).map fun b =>
        (({ s with bindings := b }).atMost t.config.thresholds.directMatch).add
          [⟨.factMatch, f.text, "", "", .empty⟩]
    return found.take maxSolutions
  | _ => .ok []

/-! ### Conditions -/

section

variable (prove : Leaf → Search (Option Certificate))

/-- The solutions of a leaf. -/
def solveLeaf (l : Leaf) (s : Solution) : Search (List Solution) :=
  if l.isBound s.bindings then do
    match ← prove (l.substitute s.bindings) with
    | some c => return [(s.atMost c.confidence).add c.steps]
    | none => return []
  else Search.ofExcept (t.matchFacts l s)

mutual

/-- The solutions of a condition that extend a solution, goals being left to `prove`. -/
def solve : Formula → Solution → Search (List Solution)
  | .leaf l, s => t.solveLeaf prove l s
  | .all ps, s => solveAll ps [s]
  | .any ps, s => solveAny ps s []
  | .negate f, s =>
    if t.config.closedWorld then do
      if (← solve f s).isEmpty then
        return [(s.atMost t.config.thresholds.conditionConfidence).add
          [⟨.negationAsFailure, f.signature, "", "", s.bindings⟩]]
      else return []
    else pure []
  | .implies .., _ | .reference _, _ => pure []

/-- The solutions of all parts that extend one of some partial solutions. -/
def solveAll : List Formula → List Solution → Search (List Solution)
  | [], partials => pure partials
  | f :: fs, partials => do
    let next ← Search.gather maxSolutions (solve f) partials []
    if next.isEmpty then pure [] else solveAll fs next

/-- The solutions of any part, after those found already. -/
def solveAny : List Formula → Solution → List Solution → Search (List Solution)
  | [], _, found => pure found
  | f :: fs, s, found => do
    let found := (found ++ (← solve f s)).take maxSolutions
    if maxSolutions ≤ found.length then pure found else solveAny fs s found

end

/-- The first solution of a rule's condition, with `room` levels left. -/
def solveCondition (room : Nat) (rule : Rule) (b : Bindings) : Search (Option Solution) :=
  match rule.condition with
  | none => pure none
  | some c => if room = 0 then Search.cut none else do return (← t.solve prove c ⟨b, 1.0, []⟩).head?

end

/-! ### Goals -/

/-- The certificate of a goal that a fact states. -/
def certifyFact (f : Fact) : Certificate where
  method := "direct"
  confidence := t.config.thresholds.directMatch
  steps := [⟨.directMatch, f.text, "", "", .empty⟩]

def certifyRule (u : Unification) : Certificate where
  method := Unification.method
  rule := u.rule
  confidence := u.confidence
  bindings := u.bindings
  steps := u.steps

/-- Proves a goal with `room` levels left.  A goal that is being proved already, and so stands in
`pending`, is not proved by way of itself. -/
def proveLeaf : (room : Nat) → (pending : List String) → Leaf → Search (Option Certificate)
  | 0, _, _ => Search.cut none
  | room + 1, pending, goal =>
    if pending.contains goal.text then pure none
    else do
      match ← Search.ofExcept (t.statedBy? goal) with
      | some f => return some (t.certifyFact f)
      | none =>
        let solveFor := t.solveCondition (proveLeaf room (goal.text :: pending)) room
        let u ← Search.workingOn goal.text (t.rules.findSomeM?
          (unify? solveFor t.config.thresholds.confidenceDecay t.pruning goal))
        return u.map certifyRule

/-- Only a leaf can be a goal. -/
def attempt : Formula → Search (Option Certificate)
  | .leaf l => t.proveLeaf t.maxDepth [] l
  | _ => if t.maxDepth = 0 then Search.cut none else pure none

/-! ### Results -/

/-- Proves a goal. -/
def prove (goal : Formula) : Search Result :=
  let s := t.attempt goal
  let why := if s.limited then Reason.depthLimit else .noMatch
  { s with value := s.value.map fun c => ⟨goal.signature, c.elim (.error why) .ok⟩ }

/-- Solves the condition of a rule at a depth, some goals being in work already.  A condition that
is not solved is blamed on the depth limit also if an earlier search ran into it. -/
def proveCondition (limitedBefore : Bool) (pending : List String) (rule : Rule) (b : Bindings)
    (depth : Nat) : Search ConditionResult :=
  let room := t.maxDepth - depth
  let s := t.solveCondition (t.proveLeaf room pending) room rule b
  let why := if rule.condition.isNone then Reason.noCondition
    else if limitedBefore || s.limited then .depthLimit
    else .unproven
  ⟨s.value.map fun c => ⟨b, c.elim (.error why) .ok⟩, limitedBefore || s.limited⟩

end Theory

end KnowledgeBase.Proof
