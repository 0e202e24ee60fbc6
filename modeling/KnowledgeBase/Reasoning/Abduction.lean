import KnowledgeBase.Config
import KnowledgeBase.Hypervector.Permutation
import KnowledgeBase.Reasoning.Acceptance
import KnowledgeBase.Reasoning.Neighbor

/-!
# Abduction

A relation moves a cause to what is observed of it.  Undoing the move gives a point near which the
cause is looked for; the concepts there are ranked by their distance and their priority.
-/

namespace KnowledgeBase

/-- The priority that counts for a concept that is not known. -/
def unknownPriority : Float32 := 0.5

/-- The priority of a concept. -/
def Store.priorityOf (s : Store) (label : String) (now : Millis) : Float32 :=
  ((s.usage? label).map (·.priority now)).getD unknownPriority

namespace Abduction

/-- How many guesses are made, and what they are ranked by. -/
structure Weights where
  k : UInt64 := 5
  geometric : Float32 := 0.7
  priority : Float32 := 0.3

structure Hypothesis where
  label : String
  distance : Int
  band : Truth
  geometric : Float32
  priority : Float32
  combined : Float32

namespace Hypothesis

def report (h : Hypothesis) : Value :=
  .record [
    ("concept", .text h.label),
    ("distance", .integer h.distance),
    ("band", .text h.band.name),
    ("geometric_score", .single h.geometric),
    ("priority_score", .single h.priority),
    ("combined_score", .single h.combined)]

end Hypothesis

/-- A guess that is accepted, if there is one, and all guesses in their order. -/
structure Result where
  accepted : Option Hypothesis := none
  hypotheses : List Hypothesis := []

namespace Result

def report (r : Result) : Value :=
  .record [
    ("concept", Value.ofOption (fun h => .text h.label) r.accepted),
    ("distance", Value.ofOption (fun h => .integer h.distance) r.accepted),
    ("band", .text ((r.accepted.map Hypothesis.band).getD .refuted).name),
    ("hypotheses", .list (r.hypotheses.map Hypothesis.report))]

end Result

/-- How many neighbours are looked at for `k` guesses. -/
def breadth (k : UInt64) : Nat := (max (k * 2) 10).toNat

/-- The largest distance among neighbours, at least one. -/
def farthest (ns : List Neighbor) : Int :=
  ns.foldl (fun m n => max m n.distance) 1

/-- A neighbour of the recovered cause as a guess. -/
def hypothesis (s : Store) (w : Weights) (cause : ConceptVector) (limit : Int) (now : Millis)
    (n : Neighbor) : Except Fault Hypothesis := do
  let band ← n.diamond.band cause none
  let geometric := 1.0 - Float32.ofInt n.distance / Float32.ofInt limit
  let priority := s.priorityOf n.label now
  let combined := geometric * w.geometric + priority * w.priority
  return ⟨n.label, n.distance, band.truth, geometric, priority, combined⟩

/-- The guesses near a cause, the best first. -/
def rank (s : Store) (w : Weights) (cause : ConceptVector) (now : Millis) :
    Except Fault (List Hypothesis) := do
  let near ← s.nearest cause (breadth w.k) none
  let guesses ← near.mapM (hypothesis s w cause (farthest near) now)
  return (guesses.mergeSort fun a b => !decide (a.combined < b.combined)).take w.k.toNat

/-- The best guess, if its score is high enough and its band accepts it. -/
def accept (score : Float32) (guesses : List Hypothesis) : Option Hypothesis :=
  guesses.head?.filter fun h => decide (score ≤ h.combined) && h.band != .refuted

end Abduction

/-- The concepts that may have caused an observation along a relation that permutes. -/
def Store.abduce (s : Store) (p : Permuter) (t : Thresholds) (observation : ConceptVector)
    (relation : String) (w : Abduction.Weights) (now : Millis) :
    Except Fault Abduction.Result := do
  s.checkPoint observation
  if relation.isEmpty || w.k = 0 then return {}
  match ← p.inversePermute relation observation with
  | none => return {}
  | some cause =>
    let guesses ← Abduction.rank s w cause now
    return ⟨Abduction.accept t.abductionScore guesses, guesses⟩

end KnowledgeBase
