import KnowledgeBase.Fact
import KnowledgeBase.Truth

/-!
# Answers of inference

The methods of inference, the steps of a justification, and the answer to a question with the proof
that backs it.
-/

namespace KnowledgeBase

/-! ### Methods -/

namespace Inference

inductive Method where
  | direct
  | transitive
  | symmetric
  | inverse
  | inheritance
  | composition
  | byDefault
  deriving Repr, DecidableEq

namespace Method

def name : Method → String
  | direct => "direct"
  | transitive => "transitive"
  | symmetric => "symmetric"
  | inverse => "inverse"
  | inheritance => "inheritance"
  | composition => "composition"
  | byDefault => "default"

/-- All methods, in the order in which they are tried. -/
def all : List Method :=
  [direct, transitive, symmetric, inverse, inheritance, composition, byDefault]

def ofName? (s : String) : Option Method :=
  all.find? fun m => m.name == s

end Method

/-! ### Steps -/

inductive Justification where
  | directMatch
  | transitiveEdge
  | symmetricMatch
  | symmetry
  | inverseMatch
  | inverseRelation
  | typeMembership
  | propertyOfType
  | factMatch
  | composition
  | blockedByException
  | defaultRule
  | typeCheck
  deriving Repr, DecidableEq

def Justification.name : Justification → String
  | directMatch => "direct_match"
  | transitiveEdge => "transitive_edge"
  | symmetricMatch => "symmetric_match"
  | symmetry => "symmetry"
  | inverseMatch => "inverse_match"
  | inverseRelation => "inverse_relation"
  | typeMembership => "type_membership"
  | propertyOfType => "property_of_type"
  | factMatch => "fact_match"
  | composition => "composition"
  | blockedByException => "blocked_by_exception"
  | defaultRule => "default_rule"
  | typeCheck => "type_check"

structure Step where
  justification : Justification
  detail : String
  deriving Repr, DecidableEq

def Step.report (s : Step) : Value :=
  .record [("justification", .text s.justification.name), ("detail", .text s.detail)]

/-! ### Proofs and answers -/

structure Proof where
  goal : Triple
  steps : List Step := []
  rule : String := ""
  valid : Bool := false
  /-- an exception that is learned later may undo it -/
  defeasible : Bool := false
  deriving Repr, DecidableEq

def Proof.report (p : Proof) : Value :=
  .record ([("goal", p.goal.report), ("steps", .list (p.steps.map Step.report)),
      ("valid", .bool p.valid), ("defeasible", .bool p.defeasible)]
    ++ Value.textUnlessEmpty "rule" p.rule)

structure Answer where
  truth : Truth := .unknown
  method : String
  confidence : Float32 := 0.0
  reason : String := ""
  rule : String := ""
  proof : Option Proof := none
  inheritedFrom : String := ""
  inverseRelation : String := ""
  exception : String := ""
  assumptions : List String := []
  deriving Repr, DecidableEq

namespace Answer

/-- No answer, for a reason that may be left open. -/
def unknown (m : Method) (reason : String := "") : Answer :=
  { method := m.name, reason }

/-- No method had an answer. -/
def exhausted : Answer := { method := "exhausted" }

/-- A certain answer with its steps. -/
def proven (m : Method) (confidence : Float32) (goal : Triple) (steps : List Step) : Answer :=
  { truth := .certain, method := m.name, confidence, proof := some { goal, steps, valid := true } }

def isDecisive (a : Answer) : Bool := a.truth.isDecisive

def report (a : Answer) : Value :=
  .record ([("truth", .text a.truth.name), ("method", .text a.method),
      ("confidence", .single a.confidence)]
    ++ Value.textUnlessEmpty "reason" a.reason
    ++ Value.textUnlessEmpty "rule" a.rule
    ++ Value.textUnlessEmpty "inherited_from" a.inheritedFrom
    ++ Value.textUnlessEmpty "inverse_relation" a.inverseRelation
    ++ Value.textUnlessEmpty "exception" a.exception
    ++ (if a.assumptions.isEmpty then [] else [("assumptions", .texts a.assumptions)])
    ++ match a.proof with
      | some p => [("proof", p.report)]
      | none => [])

end Answer

end Inference

end KnowledgeBase
