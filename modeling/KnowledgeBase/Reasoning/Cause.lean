import KnowledgeBase.Reasoning.Abduction
import KnowledgeBase.Relation.Registry
import KnowledgeBase.Store.Facts

/-!
# Causes

What the facts name as a cause of an observation, and as a cause of its causes, ranked by priority
less a penalty for each step back.
-/

namespace KnowledgeBase

namespace Cause

/-- The penalty for a step back. -/
def stepPenalty : Float32 := 0.1

/-- How far causes are followed, and how many are kept. -/
structure Options where
  k : Nat := 5
  /-- causes of causes are followed too -/
  transitive : Bool := true
  maxDepth : Nat := 3

/-- A term that a fact names as a cause, `depth` steps before a direct one. -/
structure Named where
  term : String
  depth : Nat
  via : Triple
  deriving Repr, DecidableEq

/-- The term that a fact names as a cause of a folded term, as it is written. -/
def of? (f : Fact) (effect : String) : Option String :=
  if f.relation = Relation.causes ∧ Text.fold f.object = effect then some f.subject
  else if f.relation = Relation.causedBy ∧ Text.fold f.subject = effect then some f.object
  else none

/-! ### The walk back -/

section

variable (facts : List Fact)

/-- The facts that name a cause of a folded term, each with the cause. -/
def stated (effect : String) : List (String × Fact) :=
  facts.filterMap fun f => (of? f effect).map (·, f)

/-- Everything that is stated of the terms of a level that were not visited, with the terms that
are visited then. -/
def expand : List String → List String → List (String × Fact) × List String
  | [], visited => ([], visited)
  | e :: es, visited =>
    if visited.contains e then expand es visited
    else
      let (rest, visited) := expand es (e :: visited)
      (stated facts e ++ rest, visited)

/-- Each cause where it is first named, and the folded terms that have been named then. -/
def firstNamed (depth : Nat) : List (String × Fact) → List String → List Named × List String
  | [], seen => ([], seen)
  | (c, f) :: rest, seen =>
    if seen.contains (Text.fold c) then firstNamed depth rest seen
    else
      let (named, seen) := firstNamed depth rest (Text.fold c :: seen)
      (⟨c, depth, f.triple⟩ :: named, seen)

/-- The causes from a level on, `room` levels being left behind it. -/
def walk : (room depth : Nat) → (level visited seen : List String) → List Named
  | room, depth, level, visited, seen =>
    let (found, visited) := expand facts level visited
    let (named, seen) := firstNamed depth found seen
    match room with
    | 0 => named
    | room + 1 =>
      if found.isEmpty then named
      else named ++ walk room (depth + 1) (found.map fun p => Text.fold p.1) visited seen

end

/-! ### Ranking -/

structure Hypothesis where
  named : Named
  priority : Float32
  combined : Float32

namespace Hypothesis

/-- A named cause is never more than likely. -/
def band : Truth := .likely

def report (h : Hypothesis) : Value :=
  .record [
    ("hypothesis", .text h.named.term),
    ("band", .text band.name),
    ("priority_score", .single h.priority),
    ("depth", .ofNat h.named.depth),
    ("is_transitive", .bool (decide (0 < h.named.depth))),
    ("combined_score", .single h.combined),
    ("via_fact", h.named.via.report)]

end Hypothesis

/-- Scores a cause; no score is below zero. -/
def score (s : Store) (now : Millis) (n : Named) : Hypothesis :=
  let priority := s.priorityOf n.term now
  let left := priority - stepPenalty * n.depth.toFloat32
  ⟨n, priority, if 0.0 < left then left else 0.0⟩

/-- The report of the causes that were found, the best first. -/
def report (hs : List Hypothesis) : Value :=
  .record [
    ("hypothesis", Value.ofOption (fun h => .text h.named.term) hs.head?),
    ("band", .text (if hs.isEmpty then Truth.refuted else Hypothesis.band).name),
    ("hypotheses", .list (hs.map Hypothesis.report))]

end Cause

/-- Every cause of an observation within reach, in the order in which they are named. -/
def Store.namedCauses (s : Store) (observation : String) (o : Cause.Options) : List Cause.Named :=
  let root := Text.fold observation
  Cause.walk (s.factsFrom Existence.possible) (if o.transitive then o.maxDepth else 0) 0
    [root] [] [root]

/-- The best causes of an observation. -/
def Store.causesOf (s : Store) (observation : String) (o : Cause.Options) (now : Millis) :
    Except Fault (List Cause.Hypothesis) :=
  if (Text.fold observation).isEmpty then refuse .noObservation
  else
    let scored := (s.namedCauses observation o).map (Cause.score s now)
    .ok ((scored.mergeSort fun a b => !decide (a.combined < b.combined)).take o.k)

end KnowledgeBase
