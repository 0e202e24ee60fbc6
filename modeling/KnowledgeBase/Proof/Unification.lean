import KnowledgeBase.Level
import KnowledgeBase.Proof.Result

/-!
# Unification

A goal is matched against the conclusions of a rule.  Each match binds the holes of the conclusion
and offers the rule's condition, under these bindings, to a prover; the first match whose condition
holds proves the goal.
-/

namespace KnowledgeBase.Proof

/-! ### Matching -/

/-- Matches terms against texts from left to right: a hole takes its text, or must have it already;
any other term must be its text. -/
def matchTerms? : List Term → List String → Bindings → Option Bindings
  | [], [], b => some b
  | .hole n :: ts, a :: as, b => (b.bind? n a).bind (matchTerms? ts as)
  | t :: ts, a :: as, b => if t.name = a then matchTerms? ts as b else none
  | _, _, _ => none

/-- The texts of a goal's arguments; a hole keeps its question mark. -/
def goalTexts (goal : Leaf) : List String :=
  goal.args.map (Leaf.instanceOf .empty)

/-- The bindings under which a conclusion is the goal. -/
def matchConclusion? (goal conclusion : Leaf) : Option Bindings :=
  if goal.op.isEmpty || goal.args.isEmpty || conclusion.op != goal.op then none
  else matchTerms? conclusion.args (goalTexts goal) .empty

/-! ### Pruning -/

/-- How rules are skipped whose premises lie above the goal. -/
structure Pruning where
  levels : Option Levels := none
  useLevels : Bool := false
  strict : Bool := false
  /-- stands in for the level of the goal -/
  goalLevel : Option Int := none

namespace Pruning

def goalLevel? (p : Pruning) (goal : Leaf) : Option Int :=
  p.goalLevel.orElse fun _ => p.levels.map (·.goalLevel goal.text)

/-- The highest level among the premises of a rule, zero without levels or condition. -/
def premiseLevel (p : Pruning) (rule : Rule) (b : Bindings) : Int :=
  match p.levels, rule.condition with
  | some l, some c => l.premiseLevel b c
  | _, _ => 0

/-- The premises are known to lie above the goal. -/
def skips (p : Pruning) (goal : Leaf) (rule : Rule) (b : Bindings) : Bool :=
  p.strict && p.useLevels
    && match p.goalLevel? goal with
      | some level => decide (level < p.premiseLevel rule b)
      | none => false

end Pruning

/-- The bindings that are offered to a prover, in the order of the rule's conclusions. -/
def offers (p : Pruning) (goal : Leaf) (rule : Rule) : List Bindings :=
  (rule.candidates.filterMap (matchConclusion? goal)).filter fun b => !p.skips goal rule b

/-! ### Proving by a rule -/

/-- What a rule makes of a solution of its condition. -/
def conclude (decay : Float32) (goal : Leaf) (rule : Rule) (b : Bindings) (s : Solution) :
    Unification where
  rule := rule.name
  goal := goal.text
  bindings := b
  confidence := s.confidence * decay
  steps := ⟨.unificationMatch, goal.text, rule.label, rule.id, b⟩ :: s.steps

section

variable {m : Type → Type} [Monad m]

/-- Proves a goal by a rule, whose condition is left to `prove`. -/
def unify? (prove : Rule → Bindings → m (Option Solution)) (decay : Float32) (p : Pruning)
    (goal : Leaf) (rule : Rule) : m (Option Unification) :=
  (offers p goal rule).findSomeM? fun b => do
    return (← prove rule b).map (conclude decay goal rule b)

/-- Proves a goal at a depth; conditions are proved one level deeper. -/
def unifyAt? (prove : Rule → Bindings → (depth : Nat) → m (Option Solution)) (decay : Float32)
    (p : Pruning) (goal : Leaf) (rule : Rule) (depth : Nat) : m (Option Unification) :=
  unify? (fun r b => prove r b (depth + 1)) decay p goal rule

end

end KnowledgeBase.Proof
