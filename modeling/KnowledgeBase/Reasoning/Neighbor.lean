import KnowledgeBase.Store.Basic

/-!
# Neighbours

The concepts of a store that are nearest to a point, by the distance to their extents or to the
centres of these.
-/

namespace KnowledgeBase

/-- A concept, represented by its diamond that is nearest to a point. -/
structure Neighbor where
  label : String
  diamond : Diamond
  index : Nat
  distance : Int
  deriving DecidableEq

namespace Neighbor

def report (n : Neighbor) : Value :=
  .record [
    ("label", .text n.label),
    ("diamond_index", .ofNat n.index),
    ("distance", .integer n.distance)]

/-- The order of a ranking: the nearer one first, and of two equal ones the smaller label. -/
def precedes (a b : Neighbor) : Bool :=
  if a.distance = b.distance then decide (a.label ≤ b.label) else decide (a.distance < b.distance)

/-- The nearest of some neighbours, the earliest among equals. -/
def nearest : List Neighbor → Option Neighbor
  | [] => none
  | n :: ns => some (ns.foldl (fun best m => if m.distance < best.distance then m else best) n)

/-- The diamonds of a concept, each with its distance. -/
def ofConcept (distance : Diamond → Except Fault Int) (c : Concept) : Except Fault (List Neighbor) :=
  c.diamonds.zipIdx.mapM fun (d, i) => do return ⟨c.label, d, i, ← distance d⟩

end Neighbor

namespace Mask

/-- The mask leaves no component out. -/
def coversAll (m : Mask) : Bool := !m.any id || m.all id

end Mask

namespace Store

/-- Refuses a point of another space. -/
def checkPoint (s : Store) (v : ConceptVector) : Except Fault Unit :=
  if v.length = s.dimensions then .ok () else .error (.geometry s.dimensions v.length)

/-! ### By extent -/

/-- A diamond lies too far by a bound that holds over all components. -/
def isTooFar (d : Diamond) (v : ConceptVector) (limit : Option Int) : Except Fault Bool :=
  match limit with
  | none => .ok false
  | some m => if d.mask.coversAll then do return !(← d.mayContain v m) else .ok false

/-- The nearest diamond of a concept within a limit. -/
def representative (c : Concept) (v : ConceptVector) (limit : Option Int) :
    Except Fault (Option Neighbor) := do
  let near ← c.diamonds.zipIdx.filterM fun p => do return !(← isTooFar p.1 v limit)
  let found ← near.mapM fun p => do
    return (⟨c.label, p.1, p.2, ← p.1.maskedDistance v none⟩ : Neighbor)
  return Neighbor.nearest (found.filter fun n => limit.all fun m => decide (n.distance ≤ m))

/-- The `k` nearest concepts within a limit. -/
def nearest (s : Store) (v : ConceptVector) (k : Nat) (limit : Option Int) :
    Except Fault (List Neighbor) := do
  s.checkPoint v
  let found ← s.concepts.values.filterMapM fun c => representative c v limit
  return (found.mergeSort Neighbor.precedes).take k

def nearestOne (s : Store) (v : ConceptVector) : Except Fault (Option Neighbor) := do
  return (← s.nearest v 1 none).head?

/-! ### By centre -/

/-- The concept with the nearest centre, the smallest label among equals. -/
def nearestCenter (s : Store) (v : ConceptVector) : Except Fault (Option Neighbor) := do
  s.checkPoint v
  return Neighbor.nearest (← s.concepts.values.mapM
    (Neighbor.ofConcept (·.centerDistance v))).flatten

end Store

end KnowledgeBase
