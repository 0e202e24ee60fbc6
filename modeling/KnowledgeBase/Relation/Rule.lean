import KnowledgeBase.Bindings
import KnowledgeBase.Fact
import KnowledgeBase.Fault

/-!
# Rules over relations

Default rules ("birds can fly, except penguins") and composition rules, whose patterns are triples
with variables in the place of terms.
-/

namespace KnowledgeBase

/-! ### Default rules -/

/-- Members of a type have a property, unless they are an exception. -/
structure DefaultRule where
  name : String
  typicalType : String
  /-- the relation of the property -/
  property : String
  value : String
  exceptions : List String
  deriving Repr, DecidableEq

namespace DefaultRule

/-- The rule with all parts given; an unnamed one is named after them. -/
def accept (d : DefaultRule) : Except Fault DefaultRule :=
  if d.typicalType.isEmpty || d.property.isEmpty || d.value.isEmpty then refuse .incompleteDefault
  else if d.name.isEmpty then
    .ok { d with name := d.typicalType ++ "_" ++ d.property ++ "_" ++ d.value }
  else .ok d

end DefaultRule

/-! ### Patterns -/

/-- A triple whose terms may be variables. -/
abbrev Pattern := Triple

namespace Pattern

/-- The name of a variable, without its question mark. -/
def variableName (term : String) : String :=
  String.ofList (term.toList.drop 1)

/-- The value of a bound variable; any other term stands for itself. -/
def resolve (b : Bindings) (term : String) : String :=
  if Text.isVariable term then (b.get? (variableName term)).getD term else term

def instantiate (p : Pattern) (b : Bindings) : Triple :=
  ⟨resolve b p.subject, p.relation, resolve b p.object⟩

/-- No term is a variable. -/
def isGround (t : Triple) : Bool :=
  !Text.isVariable t.subject && !Text.isVariable t.object

/-- A variable takes the value as it is written; a constant must agree with it up to spelling. -/
def matchTerm? (term value : String) (b : Bindings) : Option Bindings :=
  if Text.isVariable term then b.bind? (variableName term) value
  else if Text.same term value then some b
  else none

/-- Matches both terms, the subject first. -/
def matchTerms? (p : Pattern) (subject object : String) (b : Bindings) : Option Bindings :=
  (matchTerm? p.subject subject b).bind (matchTerm? p.object object)

/-- Matches a head against a goal, whose own variables ask for nothing. -/
def matchGoal? (head : Pattern) (goal : Triple) : Option Bindings :=
  let subject := if Text.isVariable goal.subject then some Bindings.empty
    else matchTerm? head.subject goal.subject Bindings.empty
  subject.bind fun b =>
    if Text.isVariable goal.object then some b else matchTerm? head.object goal.object b

/-- The key of a goal; its variables all read alike, so that a goal met again under new names is
seen to be the same. -/
def key (p : Pattern) : String :=
  let part (t : String) := if Text.isVariable t then "?" else Text.fold t
  part p.subject ++ Text.keySeparator ++ p.relation ++ Text.keySeparator ++ part p.object

/-- The terms that are variables, the subject first. -/
def variableNames (p : Pattern) : List String :=
  [p.subject, p.object].filter Text.isVariable

end Pattern

/-! ### Composition rules -/

/-- The head holds when every pattern of the body does. -/
structure CompositionRule where
  name : String
  head : Pattern
  body : List Pattern
  deriving Repr, DecidableEq

namespace CompositionRule

/-- Every part is there and the relation is no variable. -/
def wellFormed (p : Pattern) : Bool :=
  p.wellFormed && !Text.isVariable p.relation

/-- The first head variable that no pattern of the body binds. -/
def unbound? (r : CompositionRule) : Option String :=
  r.head.variableNames.find? fun v => !(r.body.flatMap Pattern.variableNames).contains v

/-- The first fault of a rule.  A head variable that the body does not bind would leave a slot
open in the conclusion. -/
def fault? (r : CompositionRule) : Option InputFault :=
  if r.name.isEmpty then some .unnamedComposition
  else if !wellFormed r.head then some (.malformedHead r.name)
  else if r.body.isEmpty then some (.emptyBody r.name)
  else if !r.body.all wellFormed then some (.malformedBody r.name)
  else r.unbound?.map (.unboundHead r.name)

end CompositionRule

end KnowledgeBase
