import KnowledgeBase.Concept.Fingerprint
import KnowledgeBase.Fault
import KnowledgeBase.Value

/-!
# Diamonds

The extent of a concept: a box in concept space that grows to cover what was seen.  Centre, radius,
relevance mask and fingerprint all follow from the bounds.
-/

namespace KnowledgeBase

/-- Marks components as relevant; it may be shorter or longer than the vectors it is used on. -/
abbrev Mask := List Bool

namespace Mask

/-- A component counts if its mark is set or missing, and every one counts if no mark is set. -/
def counts (m : Mask) (i : Nat) : Bool :=
  !m.any id || m.getD i true

end Mask

/-! ### Sides -/

/-- The bounds of a box along one component. -/
structure Side where
  lo : Component
  hi : Component
  ordered : lo.val ≤ hi.val
  deriving DecidableEq

namespace Side

def ofPoint (c : Component) : Side := ⟨c, c, Int.le_refl _⟩

/-- Moves a bound out to a component that lies beyond it. -/
def cover (s : Side) (c : Component) : Side where
  lo := if c.val < s.lo.val then c else s.lo
  hi := if s.hi.val < c.val then c else s.hi
  ordered := by
    have := s.ordered
    split <;> split <;> omega

def width (s : Side) : Int := s.hi.val - s.lo.val

/-- The midpoint, rounded down. -/
def center (s : Side) : Component :=
  ⟨s.lo.val + s.width / 2,
    by have := s.ordered; have := s.lo.low; simp only [width]; omega,
    by have := s.ordered; have := s.hi.high; simp only [width]; omega⟩

/-- The side carries information: it has a width, or lies away from zero. -/
def relevant (s : Side) : Bool :=
  s.lo.val != s.hi.val || s.center.val != 0

/-- How far a component lies outside. -/
def outside (s : Side) (c : Component) : Int :=
  if c.val < s.lo.val then s.lo.val - c.val
  else if s.hi.val < c.val then c.val - s.hi.val
  else 0

/-- How far the side reaches from its midpoint. -/
def reach (s : Side) : Int :=
  max (s.center.val - s.lo.val) (s.hi.val - s.center.val)

end Side

/-! ### Boxes -/

structure Diamond where
  sides : List Side
  deriving DecidableEq

namespace Diamond

/-- The sum over components. -/
def total (xs : List Int) : Int := xs.foldr (· + ·) 0

def dimensions (d : Diamond) : Nat := d.sides.length

def lows (d : Diamond) : ConceptVector := d.sides.map Side.lo
def highs (d : Diamond) : ConceptVector := d.sides.map Side.hi
def center (d : Diamond) : ConceptVector := d.sides.map Side.center
def radius (d : Diamond) : Int := total (d.sides.map Side.width)
def mask (d : Diamond) : Mask := d.sides.map Side.relevant
def fingerprint (d : Diamond) : UInt64 := ConceptVector.fingerprint d.center

/-- The diamond without components. -/
def empty : Diamond := ⟨[]⟩

def ofVector (v : ConceptVector) : Diamond := ⟨v.map Side.ofPoint⟩

def origin (dimensions : Nat) : Diamond := ofVector (ConceptVector.zero dimensions)

/-- Refuses a point of another space. -/
def check (d : Diamond) (v : ConceptVector) : Except Fault Unit :=
  if v.length = d.dimensions then .ok () else .error (.geometry d.dimensions v.length)

/-- Covers one point of the same space. -/
def cover (d : Diamond) (v : ConceptVector) : Diamond :=
  ⟨List.zipWith Side.cover d.sides v⟩

/-- Covers every point, or refuses them all if one is of another space. -/
def update (d : Diamond) (vs : List ConceptVector) : Except Fault Diamond := do
  vs.forM d.check
  return vs.foldl cover d

def expand (d : Diamond) (v : ConceptVector) : Except Fault Diamond :=
  d.update [v]

/-- The least diamond that covers the examples. -/
def ofExamples : List ConceptVector → Except Fault Diamond
  | [] => refuse .noExamples
  | v :: vs => (ofVector v).update (v :: vs)

/-! ### Distances -/

/-- How far each component lies outside, with its index. -/
def gaps (d : Diamond) (v : ConceptVector) : List (Nat × Int) :=
  ((d.sides.zip v).zipIdx).map fun ((s, c), i) => (i, s.outside c)

/-- The distance from a point to the box over the components that a mask counts; the diamond's own
mask stands in for a missing one. -/
def maskedDistance (d : Diamond) (v : ConceptVector) (m : Option Mask) : Except Fault Int := do
  d.check v
  let m := m.getD d.mask
  return total (((d.gaps v).filter fun g => m.counts g.1).map Prod.snd)

def centerDistance (d : Diamond) (v : ConceptVector) : Except Fault Int := do
  d.check v
  return total (List.zipWith (fun (s : Side) c => ((c.val - s.center.val).natAbs : Int)) d.sides v)

/-- A cheap bound from below on the distance over all components. -/
def distanceLowerBound (d : Diamond) (v : ConceptVector) : Except Fault Int := do
  return max 0 ((← d.centerDistance v) - total (d.sides.map Side.reach))

/-- Coarse acceptance; a point inside the box is never rejected. -/
def mayContain (d : Diamond) (v : ConceptVector) (tolerance : Int) : Except Fault Bool := do
  return decide ((← d.distanceLowerBound v) ≤ tolerance)

/-- The indices that a mask marks. -/
def relevantIndices (d : Diamond) : List Nat :=
  (d.mask.zipIdx.filter Prod.fst).map Prod.snd

def report (d : Diamond) : Value :=
  let ints (v : ConceptVector) : Value := .list (v.toInts.map .integer)
  .record [
    ("min", ints d.lows),
    ("max", ints d.highs),
    ("center", ints d.center),
    ("l1_radius", .integer d.radius),
    ("relevant", .list (d.relevantIndices.map .ofNat)),
    ("fingerprint", .ofNat d.fingerprint.toNat)]

end Diamond

end KnowledgeBase
