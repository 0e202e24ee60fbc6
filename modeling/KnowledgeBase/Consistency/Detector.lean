import KnowledgeBase.Consistency.Contradiction
import KnowledgeBase.Consistency.Taxonomy
import KnowledgeBase.Fault

/-!
# Consistency checks

Four checks over a list of facts: disjoint types, single-valued relations, the taxonomy, and
cardinalities.  Types are disjoint only where a fact says so.
-/

namespace KnowledgeBase

/-- Every direct member of a type has a number of facts of a relation within bounds. -/
structure Cardinality where
  type : String
  relation : String
  minimum : Option Nat := none
  maximum : Option Nat := none
  deriving Repr, DecidableEq

/-- What facts are checked against. -/
structure Detector where
  functional : Std.TreeSet String := .ofList ["BORN_IN", "BIOLOGICAL_MOTHER", "BIOLOGICAL_FATHER"]
  cardinalities : List Cardinality := []

/-- Which checks are made. -/
structure Checks where
  disjointness : Bool := true
  functional : Bool := true
  taxonomic : Bool := true
  cardinality : Bool := true

namespace Detector

/-! ### Registration -/

def addFunctional (d : Detector) (relation : String) : Except Fault Detector := do
  Relations.checkName relation
  return { d with functional := d.functional.insert relation }

def addCardinality (d : Detector) (c : Cardinality) : Except Fault Detector :=
  if c.type.isEmpty || c.relation.isEmpty then refuse .incompleteCardinality
  else
    match c.minimum, c.maximum with
    | some low, some high =>
      if high < low then refuse (.crossedCardinality c.relation)
      else .ok { d with cardinalities := d.cardinalities ++ [c] }
    | _, _ => .ok { d with cardinalities := d.cardinalities ++ [c] }

def isFunctional (d : Detector) (relation : String) : Bool :=
  d.functional.contains relation

/-! ### Disjoint types -/

section

variable (facts : List Fact)

/-- The two types of a pair, folded, in ascending order. -/
def pairKey (pair : Fact) : String × String :=
  let a := Text.fold pair.subject
  let b := Text.fold pair.object
  if b < a then (b, a) else (a, b)

/-- The facts that declare types disjoint, one for each unordered pair. -/
def disjointPairs : List Fact :=
  (facts.filter (·.relation == Relation.disjointWith)).foldl
    (fun kept f => if kept.any (pairKey · == pairKey f) then kept else kept ++ [f]) []

/-- The terms that have a type, each as first written. -/
def entities : List String :=
  Text.distinct ((Taxonomy.typeFacts facts).map Fact.subject)

/-- A folded type and the folded types above it. -/
def upFrom (upward : List Taxonomy.Edge) (type : String) : List String :=
  type :: Taxonomy.ancestors upward type

/-- The folded types of an entity, stated or inherited. -/
def typesOf (upward : List Taxonomy.Edge) (entity : String) : List String :=
  let key := Text.fold entity
  (upward.filter (·.source == key)).flatMap fun e => upFrom upward e.target

/-- The type facts of an entity that lead to one of the two types of a pair. -/
def memberships (entity : String) (pair : Fact) : List Fact :=
  (Taxonomy.typeFacts facts).filter fun f =>
    Text.same f.subject entity
      && (upFrom (Taxonomy.upward facts) (Text.fold f.object)).any
        fun t => t == Text.fold pair.subject || t == Text.fold pair.object

/-- The fact makes one type of a pair a subtype of the other. -/
def joins (f pair : Fact) : Bool :=
  (Text.same f.subject pair.subject && Text.same f.object pair.object)
    || (Text.same f.subject pair.object && Text.same f.object pair.subject)

def checkDisjointness : List Contradiction :=
  let pairs := disjointPairs facts
  let upward := Taxonomy.upward facts
  if pairs.isEmpty then []
  else
    (entities facts).flatMap (fun e =>
        let types := typesOf upward e
        (pairs.filter fun p =>
          types.contains (Text.fold p.subject) && types.contains (Text.fold p.object)).map
            fun p => .disjointMember e p (memberships facts e p))
      ++ (Taxonomy.typeFacts facts).flatMap fun f =>
        (pairs.filter (joins f)).map (.disjointSubtype f)

/-! ### Single-valued relations -/

/-- Two terms are the same, or are stated to be equivalent. -/
def equivalent (a b : String) : Bool :=
  Text.same a b || facts.any fun f =>
    f.relation == Relation.equivalentTo
      && ((Text.same f.subject a && Text.same f.object b)
        || (Text.same f.subject b && Text.same f.object a))

/-- Every value is equivalent to the first one. -/
def allEquivalent : List String → Bool
  | [] => true
  | first :: rest => rest.all (equivalent facts first)

/-- The facts of a relation, each with its folded subject. -/
def factsOf (relation : String) : List (String × Fact) :=
  (facts.filter (·.relation == relation)).map fun f => (Text.fold f.subject, f)

/-- The facts about a subject. -/
def about (held : List (String × Fact)) (subject : String) : List Fact :=
  let key := Text.fold subject
  (held.filter (·.1 == key)).map Prod.snd

def checkFunctional (d : Detector) : List Contradiction :=
  d.functional.toList.flatMap fun r =>
    let held := factsOf facts r
    (Text.distinct (held.map (·.2.subject))).filterMap fun s =>
      let values := about held s
      if allEquivalent facts (values.map Fact.object) then none
      else some (.severalValues s r values)

/-! ### Taxonomy -/

/-- For each step of a cycle, the first fact that states it. -/
def cycleEdges (terms : List String) : List Fact :=
  (terms.zip (terms.drop 1 ++ terms.take 1)).filterMap fun (a, b) =>
    facts.find? (·.states ⟨a, Relation.isA, b⟩)

def checkTaxonomic : List Contradiction :=
  (Taxonomy.cycles facts).map (fun terms => .taxonomicCycle terms (cycleEdges facts terms))
    ++ (disjointPairs facts).flatMap fun p =>
      let downward := Taxonomy.downward facts
      let below := Taxonomy.descendants downward (Text.fold p.object)
      ((Taxonomy.descendants downward (Text.fold p.subject)).filter
        fun t => (below.lookup t.1).isSome).map fun t => .inheritedDisjoint t.2 p

/-! ### Cardinalities -/

/-- The direct members of a type, each as first written. -/
def membersOf (type : String) : List String :=
  Text.distinct
    (((Taxonomy.typeFacts facts).filter fun f => Text.same f.object type).map Fact.subject)

def checkBounds (c : Cardinality) (member : String) (held : List Fact) : List Contradiction :=
  (match c.minimum with
    | some low => if held.length < low then [.tooFew member c.relation held low] else []
    | none => [])
  ++ match c.maximum with
    | some high => if high < held.length then [.tooMany member c.relation held high] else []
    | none => []

def checkCardinality (d : Detector) : List Contradiction :=
  d.cardinalities.flatMap fun c =>
    let held := factsOf facts c.relation
    (membersOf facts c.type).flatMap fun m => checkBounds c m (about held m)

end

/-! ### Reports -/

structure Report where
  contradictions : List Contradiction
  checkedFacts : Nat

def Report.consistent (r : Report) : Bool := r.contradictions.isEmpty

def Report.report (r : Report) : Value :=
  .record [
    ("consistent", .bool r.consistent),
    ("contradictions", .list (r.contradictions.map Contradiction.report)),
    ("checked_facts", .ofNat r.checkedFacts)]

/-- Runs the checks that are asked for. -/
def detect (d : Detector) (facts : List Fact) (checks : Checks := {}) : Report where
  contradictions :=
    (if checks.disjointness then checkDisjointness facts else [])
      ++ (if checks.functional then checkFunctional facts d else [])
      ++ (if checks.taxonomic then checkTaxonomic facts else [])
      ++ (if checks.cardinality then checkCardinality facts d else [])
  checkedFacts := facts.length

/-- The contradictions that a candidate would take part in. -/
def conflicts (d : Detector) (candidate : Fact) (facts : List Fact) : List Contradiction :=
  (d.detect (facts ++ [candidate])).contradictions.filter (·.involves candidate.triple)

/-- The report on a candidate; its reason is the kind of the first contradiction. -/
def conflictReport (found : List Contradiction) : Value :=
  .record [
    ("would_contradict", .bool !found.isEmpty),
    ("reason", .text ((found.head?.map Contradiction.kind).getD "")),
    ("contradictions", .list (found.map Contradiction.report))]

end Detector

end KnowledgeBase
