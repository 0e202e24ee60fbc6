import KnowledgeBase.Fact

/-!
# Contradictions

What can be wrong with a list of facts, which facts produce it, and how it is explained.
-/

namespace KnowledgeBase

/-- A contradiction among facts.  A `pair` is the fact that declares two types disjoint. -/
inductive Contradiction where
  /-- An entity is of both types. -/
  | disjointMember (entity : String) (pair : Fact) (memberships : List Fact)
  /-- A type is stated to be a subtype of its disjoint partner. -/
  | disjointSubtype (subtype pair : Fact)
  /-- A single-valued relation has values that are not known to be the same. -/
  | severalValues (subject relation : String) (values : List Fact)
  /-- A chain of types that returns to where it started. -/
  | taxonomicCycle (terms : List String) (edges : List Fact)
  /-- A term lies below both types. -/
  | inheritedDisjoint (term : String) (pair : Fact)
  | tooFew (member relation : String) (held : List Fact) (minimum : Nat)
  | tooMany (member relation : String) (held : List Fact) (maximum : Nat)

namespace Contradiction

def kind : Contradiction → String
  | disjointMember .. | disjointSubtype .. => "DISJOINT_VIOLATION"
  | severalValues .. => "FUNCTIONAL_VIOLATION"
  | taxonomicCycle .. => "TAXONOMIC_CYCLE"
  | inheritedDisjoint .. => "INHERITED_DISJOINT"
  | tooFew .. => "CARDINALITY_MIN_VIOLATION"
  | tooMany .. => "CARDINALITY_MAX_VIOLATION"

/-- A shortfall may be made up by facts still to come; everything else is an error. -/
def severity : Contradiction → String
  | tooFew .. => "WARNING"
  | _ => "ERROR"

def subject : Contradiction → String
  | disjointMember entity .. => entity
  | disjointSubtype subtype _ => subtype.subject
  | severalValues subject .. => subject
  | taxonomicCycle terms _ => terms.headD ""
  | inheritedDisjoint term _ => term
  | tooFew member .. => member
  | tooMany member .. => member

def relation : Contradiction → String
  | severalValues _ relation _ => relation
  | tooFew _ relation .. => relation
  | tooMany _ relation .. => relation
  | _ => ""

/-- The disjoint types, the competing values, or the cycle. -/
def terms : Contradiction → List String
  | disjointMember _ pair _ => [pair.subject, pair.object]
  | disjointSubtype _ pair => [pair.subject, pair.object]
  | severalValues _ _ values => values.map Fact.object
  | taxonomicCycle terms _ => terms
  | inheritedDisjoint _ pair => [pair.subject, pair.object]
  | tooFew .. => []
  | tooMany _ _ held _ => held.map Fact.object

/-- The facts that produce it. -/
def facts : Contradiction → List Fact
  | disjointMember _ pair memberships => memberships ++ [pair]
  | disjointSubtype subtype pair => [subtype, pair]
  | severalValues _ _ values => values
  | taxonomicCycle _ edges => edges
  | inheritedDisjoint _ pair => [pair]
  | tooFew _ _ held _ => held
  | tooMany _ _ held _ => held

def explanation : Contradiction → String
  | disjointMember entity pair _ =>
    entity ++ " cannot be both " ++ pair.subject ++ " and " ++ pair.object ++ " (they are disjoint)"
  | disjointSubtype subtype pair =>
    subtype.subject ++ " cannot be a " ++ subtype.object ++ " because " ++ pair.subject ++ " and "
      ++ pair.object ++ " are disjoint"
  | severalValues subject relation _ =>
    subject ++ " has several " ++ relation ++ " values but " ++ relation ++ " is single-valued"
  | taxonomicCycle terms _ => "circular taxonomy through " ++ terms.headD ""
  | inheritedDisjoint term pair =>
    term ++ " inherits from both " ++ pair.subject ++ " and " ++ pair.object
      ++ ", which are disjoint"
  | tooFew member relation held minimum =>
    member ++ " has " ++ toString held.length ++ " " ++ relation ++ " facts, minimum "
      ++ toString minimum
  | tooMany member relation held maximum =>
    member ++ " has " ++ toString held.length ++ " " ++ relation ++ " facts, maximum "
      ++ toString maximum

/-- A contradiction takes up a triple: one of its facts states it, or the triple is about its
subject and one of its disjoint types or its single-valued relation. -/
def involves (c : Contradiction) (t : Triple) : Bool :=
  c.facts.any (·.states t) ||
    match c with
    | disjointMember .. | disjointSubtype .. =>
      Text.same c.subject t.subject && c.terms.any fun x => Text.same x t.object
    | severalValues .. => Text.same c.subject t.subject && c.relation == t.relation
    | _ => false

def report (c : Contradiction) : Value :=
  .record ([("type", .text c.kind), ("severity", .text c.severity)]
    ++ Value.textUnlessEmpty "subject" c.subject
    ++ Value.textUnlessEmpty "relation" c.relation
    ++ [("terms", .texts c.terms), ("facts", .texts (c.facts.map Fact.text)),
      ("explanation", .text c.explanation)])

end Contradiction

end KnowledgeBase
