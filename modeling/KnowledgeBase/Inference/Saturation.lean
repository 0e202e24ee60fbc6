import KnowledgeBase.Inference.Query

/-!
# Saturation

Forward chaining: the facts are closed under composition rules, transitive chains and symmetric and
inverse swaps.  Triples that differ only in the spelling of their terms count as one.
-/

namespace KnowledgeBase.Inference.Saturation

/-- A triple that follows, and the name of what it follows by. -/
structure Candidate where
  triple : Triple
  rule : String
  deriving Repr, DecidableEq

/-! ### One application -/

section

variable (facts : List Fact)

/-- The bindings under which a body holds among the facts. -/
def join : List Pattern → Bindings → List Bindings
  | [], b => [b]
  | p :: ps, b =>
    facts.flatMap fun f =>
      if f.relation != p.relation then []
      else
        match p.matchTerms? f.subject f.object b with
        | none => []
        | some ext => join ps ext

/-- The instances of a rule's head without variables. -/
def compose (r : CompositionRule) : List Candidate :=
  (((join facts r.body Bindings.empty).map r.head.instantiate).filter Pattern.isGround).map
    (⟨·, r.name⟩)

/-- Two facts of a relation that meet, unless they lead back to where they start. -/
def chain (relation : String) : List Candidate :=
  let edges := Chain.edges facts relation
  edges.flatMap fun a =>
    ((Chain.edgesFrom edges a.target).filter fun b => a.source != b.target).map
      fun b => ⟨⟨a.fact.subject, relation, b.fact.object⟩, "transitive_closure"⟩

def swapSymmetric (relation : String) : List Candidate :=
  (facts.filter (·.relation == relation)).map
    fun f => ⟨f.triple.swapped relation, "symmetric_closure"⟩

def swapInverse (relation inverse : String) : List Candidate :=
  (facts.filter (·.relation == relation)).map
    fun f => ⟨f.triple.swapped inverse, "inverse_closure"⟩

/-- Everything that follows in one step. -/
def candidates (r : Relations) : List Candidate :=
  r.compositions.flatMap (compose facts)
    ++ r.transitive.toList.flatMap (chain facts)
    ++ r.symmetric.toList.flatMap (swapSymmetric facts)
    ++ r.inverses.toList.flatMap fun p => swapInverse facts p.1 p.2

end

/-! ### Rounds -/

/-- The derived fact of a candidate. -/
def Candidate.fact (c : Candidate) : Fact :=
  { triple := c.triple, existence := Existence.demonstrated,
    metadata := .record [("derived_by", .text c.rule)] }

/-- The candidates whose keys are new, each key once. -/
def fresh (keys : Std.TreeSet String) : List Candidate → List Candidate
  | [] => []
  | c :: cs =>
    let key := c.triple.termKey
    if keys.contains key then fresh keys cs else c :: fresh (keys.insert key) cs

/-- The new facts of one round. -/
def round (r : Relations) (facts : List Fact) : List Fact :=
  (fresh (.ofList (facts.map (·.triple.termKey))) (candidates facts r)).map Candidate.fact

/-- The new facts of at most `rounds` rounds; a round without any ends the chain. -/
def forwardChain (r : Relations) : (rounds : Nat) → List Fact → List Fact
  | 0, _ => []
  | rounds + 1, facts =>
    let new := round r facts
    if new.isEmpty then [] else new ++ forwardChain r rounds (facts ++ new)

end KnowledgeBase.Inference.Saturation
