import KnowledgeBase.Concept.Diamond
import KnowledgeBase.Store.Index
import KnowledgeBase.Usage
import Std.Data.TreeSet

/-!
# Stores

A store holds facts by id, four indexes over them, concepts with their extents and usage, the usage
of relations, and the labels that are protected from being forgotten.
-/

namespace KnowledgeBase

structure Concept where
  label : String
  /-- the extents of its senses; observations widen the first one -/
  diamonds : List Diamond
  usage : Usage
  deriving DecidableEq

structure Store where
  /-- the number of components of concept vectors -/
  dimensions : Nat
  nextId : FactId := 1
  facts : Std.TreeMap FactId Fact := ∅
  bySubject : Index := ∅
  /-- by subject and relation -/
  byPair : Index := ∅
  byObject : Index := ∅
  /-- by triple, the versions of each in descending order of existence -/
  byTriple : Index := ∅
  concepts : Std.TreeMap String Concept := ∅
  relationUsage : Std.TreeMap String Usage := ∅
  protectedLabels : Std.TreeSet String := ∅

namespace Store

def make (dimensions : Nat) : Except Fault Store :=
  if dimensions = 0 then refuse .noDimensions else .ok { dimensions }

/-! ### Concepts -/

def hasConcept (s : Store) (label : String) : Bool := s.concepts.contains label

/-- Reads a concept without touching its usage. -/
def concept? (s : Store) (label : String) : Option Concept := s.concepts[label]?

def conceptLabels (s : Store) : List String := s.concepts.keys

def setConcept (s : Store) (c : Concept) : Store :=
  { s with concepts := s.concepts.insert c.label c }

/-- A concept that nothing is known of yet: one diamond at the origin. -/
def newConcept (s : Store) (label : String) (now : Millis) : Concept :=
  ⟨label, [Diamond.origin s.dimensions], Usage.fresh now⟩

/-- The concept of a label, new if there is none. -/
def conceptOrNew (s : Store) (label : String) (now : Millis) : Concept :=
  (s.concept? label).getD (s.newConcept label now)

/-- Makes sure that a concept exists. -/
def introduce (s : Store) (label : String) (now : Millis) : Store :=
  if s.hasConcept label then s else s.setConcept (s.newConcept label now)

/-- Makes sure that a concept exists; its label must not be empty. -/
def ensureConcept (s : Store) (label : String) (now : Millis) : Except Fault Store :=
  if label.isEmpty then refuse .emptyLabel else .ok (s.introduce label now)

/-- Changes the usage of a concept that exists. -/
def modifyUsage (s : Store) (label : String) (f : Usage → Usage) : Store :=
  match s.concept? label with
  | some c => s.setConcept { c with usage := f c.usage }
  | none => s

/-- Reads a concept, which counts as a query. -/
def queryConcept (s : Store) (label : String) (now : Millis) : Store × Option Concept :=
  let s := s.modifyUsage label (·.recordQuery now)
  (s, s.concept? label)

/-- Replaces the diamonds of a concept, unless none are given. -/
def upsert (s : Store) (label : String) (diamonds : List Diamond) (now : Millis) :
    Except Fault Store := do
  match diamonds.find? (·.dimensions != s.dimensions) with
  | some d => .error (.geometry s.dimensions d.dimensions)
  | none =>
    if label.isEmpty then refuse .emptyLabel
    let c := s.conceptOrNew label now
    return s.setConcept { c with
      diamonds := if diamonds.isEmpty then c.diamonds else diamonds
      usage := c.usage.recordAssert now }

/-- Widens the first diamond of a concept to cover a vector; the first observation of a new concept
is a point. -/
def observe (s : Store) (label : String) (v : ConceptVector) (now : Millis) :
    Except Fault Store := do
  if v.length ≠ s.dimensions then .error (.geometry s.dimensions v.length)
  if label.isEmpty then refuse .emptyLabel
  let c := s.conceptOrNew label now
  let diamonds ← match s.hasConcept label, c.diamonds with
    | true, d :: ds => do pure ((← d.expand v) :: ds)
    | _, _ => pure [Diamond.ofVector v]
  return s.setConcept { c with diamonds, usage := c.usage.recordInference now }

/-! ### Usage -/

def usage? (s : Store) (label : String) : Option Usage := (s.concept? label).map Concept.usage

def boost (s : Store) (label : String) (amount : UInt32) (now : Millis) : Store × Bool :=
  (s.modifyUsage label (·.boost amount now), s.hasConcept label)

/-- What concepts are ranked by. -/
inductive UsageOrder where
  | priority
  | frequency
  | recency
  | usageCount
  deriving Repr, DecidableEq

def UsageOrder.score (o : UsageOrder) (u : Usage) (now : Millis) : Float :=
  match o with
  | priority => (u.priority now).toFloat
  | frequency => u.frequency.toFloat
  | recency => u.lastUsedAt.toFloat
  | usageCount => u.count.toFloat

/-- The concepts of highest score, in the order of their labels among equals. -/
def rankByUsage (s : Store) (limit : Nat) (o : UsageOrder) (now : Millis) :
    List (String × Usage) :=
  let scored := s.concepts.toList.map fun p => (o.score p.2.usage now, p.1, p.2.usage)
  ((scored.mergeSort fun a b => !decide (a.1 < b.1)).take limit).map Prod.snd

/-! ### Protection -/

def protect (s : Store) (label : String) : Store :=
  { s with protectedLabels := s.protectedLabels.insert label }

def isProtected (s : Store) (label : String) : Bool := s.protectedLabels.contains label

def unprotect (s : Store) (label : String) : Store × Bool :=
  ({ s with protectedLabels := s.protectedLabels.erase label }, s.isProtected label)

/-! ### Reports -/

/-- Everything about a concept. -/
def conceptReport (s : Store) (c : Concept) (now : Millis) : Value :=
  .record [
    ("label", .text c.label),
    ("diamonds", .list (c.diamonds.map Diamond.report)),
    ("usage", c.usage.report now),
    ("protected", .bool (s.isProtected c.label))]

end Store

end KnowledgeBase
