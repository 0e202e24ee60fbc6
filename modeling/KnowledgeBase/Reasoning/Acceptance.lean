import KnowledgeBase.Store.Basic
import KnowledgeBase.Truth

/-!
# Acceptance

Whether a point belongs to a concept.  The radius of the extent is read strictly and generously: a
point within the strict radius belongs for certain, one within the generous radius perhaps, any
other not.
-/

namespace KnowledgeBase

/-! ### Bands -/

namespace Band

def scepticFactor : Float := 0.8
def optimistFactor : Float := 1.2

end Band

/-- The distance of a point, the two radii, and what follows. -/
structure Band where
  truth : Truth
  distance : Int
  sceptic : Float := 0.0
  optimist : Float := 0.0
  deriving Repr

namespace Band

def report (b : Band) : Value :=
  .record [
    ("band", .text b.truth.name),
    ("distance", .integer b.distance),
    ("sceptic_radius", .real b.sceptic),
    ("optimist_radius", .real b.optimist)]

/-- The band of a distance; a radius of zero accepts nothing but the point itself. -/
def ofDistance (distance radius : Int) : Band :=
  if radius = 0 then { truth := if distance = 0 then .certain else .refuted, distance }
  else
    let sceptic := Float.ofInt radius * scepticFactor
    let optimist := Float.ofInt radius * optimistFactor
    let d := Float.ofInt distance
    let truth := if d ≤ sceptic then .certain else if d ≤ optimist then .likely else .refuted
    { truth, distance, sceptic, optimist }

end Band

/-- The band of a point by the masked distance to a diamond. -/
def Diamond.band (d : Diamond) (v : ConceptVector) (m : Option Mask) : Except Fault Band := do
  return Band.ofDistance (← d.maskedDistance v m) d.radius

/-! ### Contributions -/

/-- A component that lies outside the extent. -/
structure Contribution where
  dimension : Nat
  excess : Int
  value : Component
  side : Side

namespace Contribution

/-- How many contributions are reported. -/
def maxReported : Nat := 10

def report (c : Contribution) : Value :=
  .record [
    ("dimension", .ofNat c.dimension),
    ("contribution", .integer c.excess),
    ("value", .integer c.value.val),
    ("min", .integer c.side.lo.val),
    ("max", .integer c.side.hi.val)]

end Contribution

/-- The components outside the extent that a given mask counts, the largest excess first. -/
def Diamond.contributions (d : Diamond) (v : ConceptVector) (m : Option Mask) :
    List Contribution :=
  let all := ((d.sides.zip v).zipIdx).map fun ((s, c), i) => (⟨i, s.outside c, c, s⟩ : Contribution)
  let out := all.filter fun c => m.all (·.counts c.dimension) && decide (0 < c.excess)
  (out.mergeSort fun a b => decide (b.excess ≤ a.excess)).take Contribution.maxReported

/-! ### Verdicts -/

/-- What is known of a point and an extent. -/
structure Placement where
  band : Band
  contributions : List Contribution

/-- Whether a point belongs to a labelled concept; there may be none of that label. -/
structure Verdict where
  label : String
  placement : Option Placement
  answeredAt : Millis

namespace Verdict

/-- The band of a verdict in its three forms. -/
def acceptance (b : Band) : List (String × Value) :=
  [("distance", .integer b.distance),
    ("sceptic_radius", .real b.sceptic),
    ("optimist_radius", .real b.optimist),
    ("acceptance_band", .record [
      ("sceptic", .real b.sceptic),
      ("optimist", .real b.optimist),
      ("band_used", .text b.truth.name)])]

/-- Without a concept the result is open, and nothing is accepted. -/
def report (v : Verdict) : Value :=
  let (result, band, details, contributions) := match v.placement with
    | none => (Truth.unknown, Truth.refuted, [("reason", Value.text "NO_CONCEPT")], [])
    | some p => (p.band.truth, p.band.truth, acceptance p.band, p.contributions)
  .record [
    ("result", .text result.name),
    ("band", .text band.name),
    ("provenance", .record ([("concept", .text v.label)] ++ details ++ [
      ("contributing_dimensions", .list (contributions.map Contribution.report)),
      ("timestamp", .integer v.answeredAt.toInt)]))]

end Verdict

/-- Where a point lies relative to a diamond. -/
def Diamond.place (d : Diamond) (v : ConceptVector) (m : Option Mask) : Except Fault Placement := do
  return ⟨← d.band v m, d.contributions v m⟩

/-- Whether a point belongs to the first diamond of a concept.  Asking counts as a query, also where
the point is refused. -/
def Store.answer (s : Store) (v : ConceptVector) (label : String) (m : Option Mask) (now : Millis) :
    Store × Except Fault Verdict :=
  let (s, c) := s.queryConcept label now
  let placement := (c.bind (·.diamonds.head?)).mapM (·.place v m)
  (s, placement.map (⟨label, ·, now⟩))

end KnowledgeBase
