import KnowledgeBase.Config
import KnowledgeBase.Relation.Registry
import KnowledgeBase.Store.Facts
import KnowledgeBase.Truth

/-!
# Graded membership

Whether a term is of a type, and how firmly.  A chain of memberships is as strong as its weakest
edge, and the strongest chain counts.
-/

namespace KnowledgeBase

namespace Membership

/-! ### Edges -/

/-- The level of a membership relation that carries its own. -/
def variantLevel? (relation : String) : Option Existence :=
  match relation with
  | "IS_A_CERTAIN" => some Existence.certain
  | "IS_A_PROVEN" => some Existence.demonstrated
  | "IS_A_POSSIBLE" => some Existence.possible
  | "IS_A_UNPROVEN" => some Existence.unproven
  | _ => none

/-- A stated membership of one folded term in a type, which is kept as it is written. -/
structure Edge where
  term : String
  type : String
  level : Existence
  deriving Repr, DecidableEq

/-- Plain memberships are as firm as their facts. -/
def Edge.ofFact? (f : Fact) : Option Edge :=
  match variantLevel? f.relation with
  | some level => some ⟨Text.fold f.subject, f.object, level⟩
  | none =>
    if f.relation = Relation.isA then some ⟨Text.fold f.subject, f.object, f.existence⟩ else none

/-! ### The strongest chain -/

/-- A chain that starts at the subject: its folded end, its weakest level, and its terms. -/
structure Chain where
  term : String
  level : Existence
  path : List String
  deriving Repr, DecidableEq

/-- The chain with one more edge. -/
def Chain.extend (c : Chain) (e : Edge) : Chain :=
  ⟨Text.fold e.type, min c.level e.level, c.path ++ [e.type]⟩

/-- The strongest chain, the earliest among equals, and the others in their order. -/
def strongest : List Chain → Option (Chain × List Chain)
  | [] => none
  | c :: cs =>
    match strongest cs with
    | none => some (c, [])
    | some (best, rest) => if c.level < best.level then some (best, c :: rest) else some (c, cs)

/-- Grows the strongest chain until it arrives.  Every edge is used once, by the strongest chain
that reaches it, so at most one chain more than there are edges is taken up. -/
def search (target : String) (least : Existence) : (takes : Nat) → List Edge → List Chain →
    Option Chain
  | 0, _, _ => none
  | takes + 1, edges, tips =>
    match strongest tips with
    | none => none
    | some (c, rest) =>
      if c.term = target then some c
      else
        let (here, elsewhere) := edges.partition fun e => e.term == c.term
        let grown := (here.map c.extend).filter fun d => decide (least ≤ d.level)
        search target least takes elsewhere (rest ++ grown)

/-- The strongest chain from a subject to a type over edges of a level or more. -/
def chain? (edges : List Edge) (subject type : String) (least : Existence) : Option Chain :=
  search (Text.fold type) least (edges.length + 1) edges
    [⟨Text.fold subject, Existence.certain, [subject]⟩]

/-! ### Verdicts -/

/-- What is known of a membership. -/
inductive Verdict where
  /-- the two are declared disjoint -/
  | disjoint
  /-- the strongest chain -/
  | chain (level : Existence) (path : List String)
  /-- no chain, though the subject is known -/
  | noPath
  | unknownSubject
  deriving Repr, DecidableEq

namespace Verdict

def method : Verdict → String
  | disjoint => "disjoint"
  | chain _ path => if path.length ≤ 1 then "direct" else "transitive"
  | noPath => "no_path"
  | unknownSubject => "unknown_subject"

def truth : Verdict → Truth
  | disjoint => .refuted
  | chain level _ => if Existence.demonstrated ≤ level then .certain else .likely
  | noPath | unknownSubject => .unknown

/-- The weakest edge; an open membership is possible. -/
def level : Verdict → Existence
  | disjoint => Existence.impossible
  | chain level _ => level
  | noPath | unknownSubject => Existence.possible

def confidence (t : Thresholds) : Verdict → Float32
  | disjoint => 1.0
  | chain _ path => t.overEdges (path.length - 1)
  | noPath | unknownSubject => 0.0

def report (t : Thresholds) (v : Verdict) : Value :=
  .record ([
    ("truth", .text v.truth.name),
    ("confidence", .single (v.confidence t)),
    ("existence", .integer v.level),
    ("existence_name", .text (Existence.name v.level)),
    ("method", .text v.method)]
    ++ match v with
      | chain _ path => [("depth", .ofNat (path.length - 1)), ("path", .texts path)]
      | _ => [])

end Verdict

/-- A fact declares two folded terms disjoint. -/
def separates (f : Fact) (a b : String) : Bool :=
  f.relation == Relation.disjointWith
    && ((Text.fold f.subject == a && Text.fold f.object == b)
      || (Text.fold f.subject == b && Text.fold f.object == a))

/-- A fact names a folded term. -/
def mentions (f : Fact) (term : String) : Bool :=
  Text.fold f.subject == term || Text.fold f.object == term

/-- Decides a membership by all the facts. -/
def decideBy (facts : List Fact) (subject type : String) (least : Existence) : Verdict :=
  let s := Text.fold subject
  if facts.any fun f => separates f s (Text.fold type) then .disjoint
  else
    match chain? (facts.filterMap Edge.ofFact?) subject type least with
    | some c => .chain c.level c.path
    | none => if facts.any fun f => mentions f s then .noPath else .unknownSubject

end Membership

/-- Whether a term is of a type, over memberships of a level or more. -/
def Store.deduceIsA (s : Store) (subject type : String) (least : Existence) : Membership.Verdict :=
  Membership.decideBy s.allFacts subject type least

end KnowledgeBase
