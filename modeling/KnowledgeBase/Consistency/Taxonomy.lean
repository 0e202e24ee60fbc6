import KnowledgeBase.Fact
import KnowledgeBase.Relation.Registry

/-!
# Taxonomies

The graph of type facts over folded terms: what lies above and below a term, and the cycles.
-/

namespace KnowledgeBase.Taxonomy

/-! ### Edges -/

/-- An edge between folded terms, with its target as it was written. -/
structure Edge where
  source : String
  target : String
  written : String
  deriving Repr, DecidableEq

def typeFacts (facts : List Fact) : List Fact :=
  facts.filter (·.relation == Relation.isA)

def upward (facts : List Fact) : List Edge :=
  (typeFacts facts).map fun f => ⟨Text.fold f.subject, Text.fold f.object, f.object⟩

def downward (facts : List Fact) : List Edge :=
  (typeFacts facts).map fun f => ⟨Text.fold f.object, Text.fold f.subject, f.subject⟩

/-! ### Reachable terms -/

/-- A depth-first walk: terms to be left next, terms that were met, and the terms reached so far,
each as it was first written. -/
structure Walk where
  pending : List String
  met : List String
  reached : List (String × String)

/-- Follows one edge. -/
def Walk.follow (w : Walk) (e : Edge) : Walk where
  pending := if w.met.contains e.target then w.pending else e.target :: w.pending
  met := if w.met.contains e.target then w.met else e.target :: w.met
  reached := if (w.reached.lookup e.target).isSome then w.reached
    else w.reached ++ [(e.target, e.written)]

/-- Leaves the pending terms, the latest first. -/
def Walk.run (edges : List Edge) : (steps : Nat) → Walk → Walk
  | 0, w => w
  | steps + 1, w =>
    match w.pending with
    | [] => w
    | term :: rest =>
      run edges steps ((edges.filter (·.source == term)).foldl follow { w with pending := rest })

/-- The terms that one or more edges lead to from a folded term.  Every term but the first is met
along an edge of its own, so one step more than there are edges leaves them all. -/
def reachable (edges : List Edge) (term : String) : List (String × String) :=
  (Walk.run edges (edges.length + 1) ⟨[term], [term], []⟩).reached

/-- The folded terms above a folded term. -/
def ancestors (upward : List Edge) (term : String) : List String :=
  (reachable upward term).map Prod.fst

/-- The terms below a folded term, folded and as first written, in the order of the folded forms. -/
def descendants (downward : List Edge) (term : String) : List (String × String) :=
  (reachable downward term).mergeSort fun a b => decide (a.1 ≤ b.1)

/-! ### Cycles -/

/-- The terms that have a type, folded, in the order in which they appear. -/
def members (facts : List Fact) : List String :=
  (Text.distinct ((typeFacts facts).map Fact.subject)).map Text.fold

/-- The terms of the type facts, folded and as written. -/
def spellings (facts : List Fact) : List (String × String) :=
  (typeFacts facts).flatMap fun f =>
    [(Text.fold f.subject, f.subject), (Text.fold f.object, f.object)]

/-- A folded term as it was first written. -/
def written (spellings : List (String × String)) (term : String) : String :=
  (spellings.lookup term).getD term

/-- The terms that were visited, and the cycles found. -/
structure Found where
  visited : List String := []
  cycles : List (List String) := []

/-- Visits a term from the end of a path.  A term on the path closes a cycle. -/
def visit (edges : List Edge) : (depth : Nat) → (path : List String) → Found → String → Found
  | 0, _, found, _ => found
  | depth + 1, path, found, term =>
    if path.contains term then
      { found with cycles := found.cycles ++ [path.dropWhile (· != term)] }
    else if found.visited.contains term then found
    else
      ((edges.filter (·.source == term)).map Edge.target).foldl
        (visit edges depth (path ++ [term]))
        { found with visited := term :: found.visited }

/-- The cycles found by a depth-first search from every member, as written.  A path never holds a
term twice, and every term on it has an edge of its own. -/
def cycles (facts : List Fact) : List (List String) :=
  let edges := upward facts
  let found := (members facts).foldl (visit edges (edges.length + 1) []) {}
  let spellings := spellings facts
  found.cycles.map (·.map (written spellings))

end KnowledgeBase.Taxonomy
