import KnowledgeBase.Rule.Basic

/-!
# Results of proofs

The steps of a proof, the solutions of a condition, and the results that are reported.
-/

namespace KnowledgeBase.Proof

/-! ### Steps -/

inductive Operation where
  | unificationMatch
  | directMatch
  | factMatch
  | negationAsFailure
  /-- a step of a prover of another kind -/
  | other (name : String)
  deriving Repr, DecidableEq

def Operation.name : Operation → String
  | unificationMatch => "unification_match"
  | directMatch => "direct_match"
  | factMatch => "fact_match"
  | negationAsFailure => "negation_as_failure"
  | other name => name

structure Step where
  operation : Operation
  /-- the text of a goal or a fact -/
  detail : String
  rule : String := ""
  ruleId : String := ""
  bindings : Bindings := .empty
  deriving Repr, DecidableEq

def Step.report (s : Step) : Value :=
  .record ([("operation", .text s.operation.name)]
    ++ Value.textUnlessEmpty "detail" s.detail
    ++ Value.textUnlessEmpty "rule" s.rule
    ++ Value.textUnlessEmpty "rule_id" s.ruleId
    ++ (if s.bindings.size = 0 then [] else [("bindings", s.bindings.report)]))

def stepsReport (steps : List Step) : Value := .list (steps.map Step.report)

/-! ### Solutions -/

/-- Bindings under which a condition holds, with what it rests on. -/
structure Solution where
  bindings : Bindings
  confidence : Float32 := 1.0
  steps : List Step := []
  deriving Repr, DecidableEq

/-- The solution with a lower confidence, if the other one is lower. -/
def Solution.atMost (s : Solution) (confidence : Float32) : Solution :=
  { s with confidence := if confidence < s.confidence then confidence else s.confidence }

def Solution.add (s : Solution) (steps : List Step) : Solution :=
  { s with steps := s.steps ++ steps }

/-! ### Matches of a goal -/

/-- A goal that a rule proves. -/
structure Unification where
  rule : String
  goal : String
  bindings : Bindings
  confidence : Float32
  steps : List Step
  deriving Repr, DecidableEq

namespace Unification

def method : String := "backward_chain_unified"

/-- The report of a goal that a rule proves or does not. -/
def report : Option Unification → Value
  | none => .record [("valid", .bool false)]
  | some u => .record [
      ("valid", .bool true),
      ("method", .text method),
      ("rule", .text u.rule),
      ("bindings", u.bindings.report),
      ("confidence", .single u.confidence),
      ("goal", .text u.goal),
      ("steps", stepsReport u.steps)]

end Unification

/-! ### Results -/

/-- Why a goal or a condition is not proved. -/
inductive Reason where
  /-- the search ran into its depth limit -/
  | depthLimit
  /-- no fact and no rule proves the goal -/
  | noMatch
  /-- the rule has no condition to prove -/
  | noCondition
  /-- the condition has no solution -/
  | unproven
  deriving Repr, DecidableEq

def Reason.name : Reason → String
  | depthLimit => "depth_limit"
  | noMatch => "no_match"
  | noCondition => "no_condition"
  | unproven => "unproven"

/-- What is known of a goal that is proved. -/
structure Certificate where
  method : String
  rule : String := ""
  confidence : Float32
  bindings : Bindings := .empty
  steps : List Step
  deriving Repr, DecidableEq

/-- A goal with its proof, or with the reason why there is none. -/
structure Result where
  goal : String
  outcome : Except Reason Certificate

namespace Result

def isValid (r : Result) : Bool :=
  match r.outcome with
  | .ok _ => true
  | .error _ => false

def report (r : Result) : Value :=
  match r.outcome with
  | .ok c => .record ([
      ("valid", .bool true),
      ("goal", .text r.goal),
      ("method", .text c.method),
      ("confidence", .single c.confidence),
      ("bindings", c.bindings.report),
      ("steps", stepsReport c.steps)]
      ++ Value.textUnlessEmpty "rule" c.rule)
  | .error why => .record [
      ("valid", .bool false),
      ("goal", .text r.goal),
      ("reason", .text why.name)]

end Result

/-- The solution of a rule's condition, or the reason why there is none.  The bindings that were
put in are reported where there is none. -/
structure ConditionResult where
  given : Bindings
  outcome : Except Reason Solution

def ConditionResult.report (r : ConditionResult) : Value :=
  match r.outcome with
  | .ok s => .record [
      ("valid", .bool true),
      ("confidence", .single s.confidence),
      ("bindings", s.bindings.report),
      ("steps", stepsReport s.steps),
      ("reason", .text "")]
  | .error why => .record [
      ("valid", .bool false),
      ("confidence", .single 0.0),
      ("bindings", r.given.report),
      ("steps", stepsReport []),
      ("reason", .text why.name)]

end KnowledgeBase.Proof
