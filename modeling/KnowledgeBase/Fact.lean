import KnowledgeBase.Existence
import KnowledgeBase.Fault
import KnowledgeBase.Text
import KnowledgeBase.Value

/-!
# Facts

Triples, and facts: triples with an identity, an existence level and metadata.
-/

namespace KnowledgeBase

/-! ### Triples -/

structure Triple where
  subject : String
  relation : String
  object : String
  deriving Repr, DecidableEq, Inhabited

namespace Triple

def wellFormed (t : Triple) : Bool :=
  !t.subject.isEmpty && !t.relation.isEmpty && !t.object.isEmpty

/-- The three parts, composed into one text. -/
def key (t : Triple) : String :=
  t.subject ++ Text.keySeparator ++ t.relation ++ Text.keySeparator ++ t.object

/-- The key of a triple whose terms are folded; triples that differ only in the case or spacing of
their terms share it. -/
def termKey (t : Triple) : String :=
  Text.fold t.subject ++ Text.keySeparator ++ t.relation ++ Text.keySeparator ++ Text.fold t.object

def text (t : Triple) : String :=
  t.subject ++ " " ++ t.relation ++ " " ++ t.object

/-- The triple read backwards along another relation. -/
def swapped (t : Triple) (relation : String) : Triple :=
  ⟨t.object, relation, t.subject⟩

def report (t : Triple) : Value :=
  .record [("subject", .text t.subject), ("relation", .text t.relation), ("object", .text t.object)]

end Triple

/-! ### Facts -/

abbrev FactId := UInt64

structure Fact where
  id : FactId := 0
  triple : Triple
  existence : Existence := Existence.certain
  metadata : Value := .record []
  deriving Inhabited

namespace Fact

def subject (f : Fact) : String := f.triple.subject
def relation (f : Fact) : String := f.triple.relation
def object (f : Fact) : String := f.triple.object

/-- The fact states this triple: the relation exactly, the terms up to spelling. -/
def states (f : Fact) (t : Triple) : Bool :=
  f.relation == t.relation && Text.same f.subject t.subject && Text.same f.object t.object

/-- The name of the rule or closure that derived the fact, empty if it was asserted. -/
def derivedBy (f : Fact) : Except Fault String :=
  match f.metadata.field? "derived_by" with
  | none => .ok ""
  | some (.text s) => .ok s
  | some _ => .error .notReadable

def text (f : Fact) : String := f.triple.text

def report (f : Fact) : Value :=
  .record ([("id", .ofNat f.id.toNat), ("triple", .text f.text), ("existence", .integer f.existence)]
    ++ match f.metadata with
      | .record [] => []
      | m => [("metadata", m)])

end Fact

end KnowledgeBase
