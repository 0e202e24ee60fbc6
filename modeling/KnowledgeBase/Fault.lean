import KnowledgeBase.Text

/-!
# Faults

Every way an operation can refuse its input, and the wording of each.  Absence is no fault: a
look-up that finds nothing answers with nothing.
-/

namespace KnowledgeBase

/-- Why a record of a snapshot is refused. -/
inductive RecordFault where
  | notAnArray
  | notAnObject
  | missing (field : String)
  | existenceNotInteger
  | existenceOutOfRange
  | idNotNatural
  | duplicateId (id : UInt64)
  | noFormatOrFacts
  | formatNotIntegers
  | unsupportedFormat (major minor : Int)
  deriving Repr, DecidableEq

namespace RecordFault

def message : RecordFault → String
  | notAnArray => "snapshot must be an array of records"
  | notAnObject => "record is not an object"
  | missing field => "missing " ++ field
  | existenceNotInteger => "_existence must be an integer"
  | existenceOutOfRange => "_existence out of range"
  | idNotNatural => "_id must be a non-negative integer"
  | duplicateId id => "duplicate _id " ++ toString id.toNat
  | noFormatOrFacts => "state needs format and facts"
  | formatNotIntegers => "format needs integer major and minor"
  | unsupportedFormat major minor =>
    "unsupported format " ++ toString major ++ "." ++ toString minor

end RecordFault

/-- Why an input is refused. -/
inductive InputFault where
  -- configuration
  | configNotAnObject
  | configFieldType
  | unknownStrategy (id : String)
  | engineGeometry (bits : Nat)
  | noDimensions
  | noFractalSize
  | thresholdOutOfBand
  -- hypervectors
  | denseGeometry (bits : Nat)
  | noSparseSize
  | bindOfNothing
  | bundleOfNothing
  | sparseForDense
  | denseForSparse
  -- statements and rules
  | nullPart
  | unterminatedLiteral (text : String)
  | noOperator (text : String)
  | noExpression (name : String)
  | nameDefinedTwice (name : String)
  | unresolvedReference (name : String)
  | cyclicReference (name : String)
  -- relations
  | emptyRelation
  | incompleteDefault
  | unnamedComposition
  | malformedHead (rule : String)
  | emptyBody (rule : String)
  | malformedBody (rule : String)
  | unboundHead (rule name : String)
  | unknownMethod (name : String)
  -- consistency
  | incompleteCardinality
  | crossedCardinality (relation : String)
  -- concepts and facts
  | noExamples
  | emptyLabel
  | malformedTriple
  | existenceOutOfRange (level : Int)
  | metadataNotAnObject
  | malformedAge
  | noObservation
  deriving Repr, DecidableEq

namespace InputFault

def message : InputFault → String
  | configNotAnObject => "engine config must be a JSON object"
  | configFieldType => "engine config"
  | unknownStrategy id => "unknown HDC strategy: " ++ id
  | engineGeometry bits => "geometry must be a positive multiple of 64, got " ++ toString bits
  | noDimensions => "concept dimensions must be positive"
  | noFractalSize => "fractal_max_size must be positive"
  | thresholdOutOfBand => "orthogonal_threshold must lie in (0.5, 1)"
  | denseGeometry bits =>
    "dense geometry must be a positive multiple of 64, got " ++ toString bits
  | noSparseSize => "fractal max_size must be positive"
  | bindOfNothing => "bind_all requires at least one vector"
  | bundleOfNothing => "bundle requires at least one vector"
  | sparseForDense => "dense-binary strategy given a sparse vector"
  | denseForSparse => "fractal-semantic strategy given a dense vector"
  | nullPart => "compound expression with a null part"
  | unterminatedLiteral text => "unterminated literal in: " ++ text
  | noOperator text => "statement needs an operator: '" ++ text ++ "'"
  | noExpression name => "statement '" ++ name ++ "' has no expression"
  | nameDefinedTwice name => "statement name defined twice: " ++ name
  | unresolvedReference name => "unresolved statement reference: @" ++ name
  | cyclicReference name => "cyclic statement reference: @" ++ name
  | emptyRelation => "relation name must not be empty"
  | incompleteDefault => "default rule needs typical_type, property and value"
  | unnamedComposition => "composition rule needs a name"
  | malformedHead rule => "composition rule '" ++ rule ++ "' has a malformed head"
  | emptyBody rule => "composition rule '" ++ rule ++ "' has an empty body"
  | malformedBody rule => "composition rule '" ++ rule ++ "' has a malformed body pattern"
  | unboundHead rule name =>
    "composition rule '" ++ rule ++ "': " ++ name ++ " does not occur in the body"
  | unknownMethod name => "unknown inference method: " ++ name
  | incompleteCardinality => "cardinality needs a type and a relation"
  | crossedCardinality relation => "cardinality minimum above maximum for " ++ relation
  | noExamples => "diamond needs at least one example"
  | emptyLabel => "concept label must not be empty"
  | malformedTriple => "malformed triple: subject, relation and object are required"
  | existenceOutOfRange level => "existence out of range: " ++ toString level
  | metadataNotAnObject => "fact metadata must be a JSON object"
  | malformedAge => "older_than must look like 7d, 12h or 30m"
  | noObservation => "abduct_cause needs an observation"

end InputFault

/-- A refused operation. -/
inductive Fault where
  | input (why : InputFault)
  /-- Operands of one operation disagree on their number of components. -/
  | geometry (expected actual : Nat)
  /-- A snapshot is refused before any state is touched. -/
  | snapshot (record : Nat) (why : RecordFault)
  /-- A number outside the range that its use allows. -/
  | outOfRange
  /-- A text that writes no structured value, or a value of another type than its use asks for. -/
  | notReadable
  deriving Repr, DecidableEq

namespace Fault

/-- The wording of a fault, which quotes nothing from the first NUL on; a number out of range and
what is not readable have none. -/
def message : Fault → Option String
  | input why => some (Text.beforeNul why.message)
  | geometry expected actual =>
    some ("geometry mismatch: expected " ++ toString expected ++ ", got " ++ toString actual)
  | snapshot record why =>
    some ("invalid snapshot record " ++ toString record ++ ": " ++ why.message)
  | outOfRange | notReadable => none

end Fault

/-- Refuses with a fault of the input. -/
def refuse {α : Type} (why : InputFault) : Except Fault α :=
  .error (.input why)

end KnowledgeBase
