import KnowledgeBase.Config
import KnowledgeBase.Reasoning.Acceptance
import KnowledgeBase.Reasoning.Neighbor

/-!
# Analogies

As `a` is to `b`, so is `c` to what?  The difference between `a` and `b` is added to `c`, and the
concept with the nearest centre answers.
-/

namespace KnowledgeBase

namespace Analogy

/-- The concept that completes an analogy. -/
structure Match where
  label : String
  /-- from the prediction to the centre -/
  distance : Int
  band : Truth

/-- The point that completes an analogy, and the concept there if there is one. -/
structure Result where
  found : Option Match := none
  /-- zero unless the band accepts the prediction -/
  confidence : Float32 := 0.0
  predicted : ConceptVector := []

namespace Result

def report (r : Result) : Value :=
  .record [
    ("concept", Value.ofOption (fun m => .text m.label) r.found),
    ("distance", Value.ofOption (fun m => .integer m.distance) r.found),
    ("band", .text ((r.found.map Match.band).getD .refuted).name),
    ("confidence", .single r.confidence),
    ("predicted", .list (r.predicted.toInts.map .integer))]

end Result

/-- The component that lies from `c` as `b` lies from `a`; the difference is cut to the range of a
component first. -/
def shift (a b c : Component) : Component :=
  Component.saturate (c.val + (Component.saturate (b.val - a.val)).val)

/-- The point that completes an analogy. -/
def predict (a b c : ConceptVector) : ConceptVector :=
  List.zipWith (fun f x => f x) (List.zipWith shift a b) c

end Analogy

namespace Store

/-- Completes an analogy between points. -/
def complete (s : Store) (t : Thresholds) (a b c : ConceptVector) :
    Except Fault Analogy.Result := do
  if b.length ≠ a.length then .error (.geometry a.length b.length)
  if c.length ≠ a.length then .error (.geometry a.length c.length)
  let predicted := Analogy.predict a b c
  match ← s.nearestCenter predicted with
  | none => return { predicted }
  | some n =>
    let band := (← n.diamond.band predicted none).truth
    return {
      found := some ⟨n.label, n.distance, band⟩
      confidence := if band = .refuted then 0.0 else t.analogyDiscount
      predicted }

/-- The centre of the first diamond of a concept. -/
def centerOf? (s : Store) (label : String) : Option ConceptVector :=
  ((s.concept? label).bind (·.diamonds.head?)).map Diamond.center

/-- Completes an analogy between concepts; an unknown label leaves it open. -/
def completeLabels (s : Store) (t : Thresholds) (a b c : String) : Except Fault Analogy.Result :=
  match s.centerOf? a, s.centerOf? b, s.centerOf? c with
  | some a, some b, some c => s.complete t a b c
  | _, _, _ => .ok {}

end Store

end KnowledgeBase
