import KnowledgeBase.Config
import KnowledgeBase.Inference.Chain
import KnowledgeBase.Inference.Composition

/-!
# Questions

The methods of inference over a list of facts.  A question tries them in their order and stops at
the first decisive answer.
-/

namespace KnowledgeBase

/-- What inference goes by. -/
structure Inference where
  relations : Relations := .standard
  thresholds : Thresholds := {}
  /-- the depth of a search that is given none -/
  horizon : Nat := 10

namespace Inference

variable (i : Inference) (facts : List Fact) (goal : Triple)

/-! ### Methods -/

/-- The triple itself is stated. -/
def direct : Answer :=
  match facts.find? (·.states goal) with
  | some f => .proven .direct 1.0 goal [⟨.directMatch, f.text⟩]
  | none => .unknown .direct

/-- A chain of facts of a transitive relation. -/
def transitive (depth : Nat) : Answer :=
  if !i.relations.isTransitive goal.relation then .unknown .transitive "not_transitive"
  else
    match Chain.shortest? facts goal.relation goal.subject goal.object depth with
    | some path =>
      .proven .transitive (i.thresholds.overEdges path.length) goal
        (path.map fun f => ⟨.transitiveEdge, f.text⟩)
    | none => .unknown .transitive "no_path"

/-- The swapped triple of a symmetric relation. -/
def symmetric : Answer :=
  if !i.relations.isSymmetric goal.relation then .unknown .symmetric "not_symmetric"
  else
    match facts.find? (·.states (goal.swapped goal.relation)) with
    | some f =>
      .proven .symmetric 1.0 goal
        [⟨.symmetricMatch, f.text⟩, ⟨.symmetry, goal.relation ++ " is symmetric"⟩]
    | none => .unknown .symmetric

/-- The swapped triple along the inverse relation. -/
def inverse : Answer :=
  match i.relations.inverse? goal.relation with
  | none => .unknown .inverse "no_inverse"
  | some inv =>
    match facts.find? (·.states (goal.swapped inv)) with
    | some f =>
      { Answer.proven .inverse 1.0 goal
          [⟨.inverseMatch, f.text⟩, ⟨.inverseRelation, goal.relation ++ " inverse of " ++ inv⟩] with
        inverseRelation := inv }
    | none => .unknown .inverse

/-- The text of a membership. -/
def membership (term type : String) : String :=
  (Triple.mk term Relation.isA type).text

/-- An inheritable relation, stated of a type of the subject. -/
def inheritance (depth : Nat) : Answer :=
  if !i.relations.isInheritable goal.relation then .unknown .inheritance "not_inheritable"
  else
    let found := (Chain.types facts goal.subject depth).findSome? fun t =>
      (facts.find? (·.states { goal with subject := t })).map fun f => (t, f)
    match found with
    | some (t, f) =>
      { Answer.proven .inheritance i.thresholds.inheritanceConfidence goal
          [⟨.typeMembership, membership goal.subject t⟩, ⟨.propertyOfType, f.text⟩] with
        inheritedFrom := t }
    | none => .unknown .inheritance

/-- A composition rule whose head is the goal and whose body holds. -/
def composition (depth : Nat) : Answer :=
  match Composition.prove? i.relations.compositions facts goal depth with
  | some (r, steps) =>
    { truth := .certain, method := Method.composition.name,
      confidence := i.thresholds.compositionConfidence, rule := r.name,
      proof := some { goal, steps, rule := r.name, valid := true } }
  | none => .unknown .composition "no_rule_matched"

/-- A term is of a type, by one fact or by a chain within the horizon. -/
def isA (term type : String) : Bool :=
  let g : Triple := ⟨term, Relation.isA, type⟩
  (direct facts g).isDecisive || (i.transitive facts g i.horizon).isDecisive

/-- A term is an exception, or is of the type of one. -/
def isException (term exception : String) : Bool :=
  Text.same term exception || i.isA facts term exception

/-- The first default rule that applies, unless the subject is one of its exceptions. -/
def byDefault : Answer :=
  let applies (d : DefaultRule) :=
    d.property == goal.relation && Text.same d.value goal.object
      && i.isA facts goal.subject d.typicalType
  match i.relations.defaults.find? applies with
  | none => .unknown .byDefault
  | some d =>
    let s := goal.subject
    match d.exceptions.find? (i.isException facts s) with
    | some e =>
      let how := if Text.same s e then s else membership s e
      { truth := .refuted, method := Method.byDefault.name, reason := "exception_applies",
        exception := e,
        proof := some
          { goal, steps := [⟨.blockedByException, how⟩], rule := d.name, defeasible := true } }
    | none =>
      let steps := [⟨.defaultRule, d.name⟩, ⟨.typeCheck, membership s d.typicalType⟩]
      { truth := .byDefault, method := Method.byDefault.name,
        confidence := i.thresholds.defaultConfidence,
        assumptions := [s ++ " is a typical " ++ d.typicalType],
        proof := some
          { goal, steps, rule := d.name, valid := true, defeasible := true } }

/-! ### Questions -/

def run (depth : Nat) : Method → Answer
  | .direct => direct facts goal
  | .transitive => i.transitive facts goal depth
  | .symmetric => i.symmetric facts goal
  | .inverse => i.inverse facts goal
  | .inheritance => i.inheritance facts goal depth
  | .composition => i.composition facts goal depth
  | .byDefault => i.byDefault facts goal

/-- The methods of these names; no name stands for all of them. -/
def Method.select (names : List String) : Except Fault (List Method) :=
  match names.find? fun n => (Method.ofName? n).isNone with
  | some n => refuse (.unknownMethod n)
  | none => .ok (if names.isEmpty then Method.all else Method.all.filter fun m => names.contains m.name)

/-- The first decisive answer of the methods, in their order. -/
def infer (methods : List Method) (depth : Nat) : Answer :=
  (methods.findSome? fun m => (some (i.run facts goal depth m)).filter Answer.isDecisive).getD
    .exhausted

/-- Answers a question with the methods of these names, at the horizon unless a depth is given. -/
def ask (names : List String) (depth : Option Nat) : Except Fault Answer := do
  return i.infer facts goal (← Method.select names) (depth.getD i.horizon)

end Inference

end KnowledgeBase
