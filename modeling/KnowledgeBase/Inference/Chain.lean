import KnowledgeBase.Fact
import KnowledgeBase.Relation.Registry

/-!
# Chains of facts

Breadth-first walks along the facts of one relation: a shortest chain between two terms, and the
types of a term, nearest first.  Terms are compared folded, so a walk visits each of them once.
-/

namespace KnowledgeBase.Chain

/-! ### Edges -/

/-- A fact as an edge between folded terms. -/
structure Edge where
  fact : Fact
  source : String
  target : String

/-- The facts of a relation. -/
def edges (facts : List Fact) (relation : String) : List Edge :=
  (facts.filter (·.relation == relation)).map fun f =>
    ⟨f, Text.fold f.subject, Text.fold f.object⟩

/-- The edges that lead away from a folded term. -/
def edgesFrom (es : List Edge) (term : String) : List Edge := es.filter (·.source == term)

/-! ### Growth -/

section

variable (es : List Edge)

/-- The end of a chain that is being grown, and the facts that lead there. -/
structure Tip where
  term : String
  path : List Fact

/-- What one more round of growth gives: a chain that arrives, or the terms left behind and the
tips ahead. -/
inductive Round where
  | arrived (path : List Fact)
  | going (visited : List String) (ahead : List Tip)

/-- Grows every tip by one fact; a tip at a term that was left before is dropped. -/
def grow (target : String) : List Tip → List String → List Tip → Round
  | [], visited, ahead => .going visited ahead
  | tip :: rest, visited, ahead =>
    if visited.contains tip.term then grow target rest visited ahead
    else
      let out := edgesFrom es tip.term
      match out.find? fun e => e.target == target with
      | some e => .arrived (tip.path ++ [e.fact])
      | none =>
        grow target rest (tip.term :: visited)
          (ahead ++ out.map fun e => ⟨e.target, tip.path ++ [e.fact]⟩)

/-- A chain of at most `depth` more facts. -/
def search (target : String) : (depth : Nat) → List Tip → List String → Option (List Fact)
  | 0, _, _ => none
  | depth + 1, tips, visited =>
    if tips.isEmpty then none
    else
      match grow es target tips visited [] with
      | .arrived path => some path
      | .going visited ahead => search target depth ahead visited

end

/-- A shortest chain of one to `depth` facts from a term to another. -/
def shortest? (facts : List Fact) (relation start target : String) (depth : Nat) :
    Option (List Fact) :=
  search (edges facts relation) (Text.fold target) depth [⟨Text.fold start, []⟩] []

/-! ### Types -/

/-- What the edges say directly about the types of some terms. -/
def statedTypes (es : List Edge) (terms : List String) : List String :=
  terms.flatMap fun t => (edgesFrom es (Text.fold t)).map fun e => e.fact.object

def typesAux (es : List Edge) :
    (depth : Nat) → (seen : Std.TreeSet String) → List String → List String
  | 0, _, _ => []
  | depth + 1, seen, frontier =>
    if frontier.isEmpty then []
    else
      let next := Text.fresh seen (statedTypes es frontier)
      next ++ typesAux es depth (seen.insertMany (next.map Text.fold)) next

/-- The types of a term within `depth` steps, nearest first, the term itself left out. -/
def types (facts : List Fact) (term : String) (depth : Nat) : List String :=
  typesAux (edges facts Relation.isA) depth (.ofList [Text.fold term]) [term]

end KnowledgeBase.Chain
