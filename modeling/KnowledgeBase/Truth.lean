/-!
# Truth values

The answers of inference and of geometric acceptance.
-/

namespace KnowledgeBase

inductive Truth where
  | certain
  /-- Holds unless an exception is learned. -/
  | byDefault
  /-- A geometric near miss. -/
  | likely
  | refuted
  | unknown
  deriving Repr, DecidableEq

namespace Truth

def name : Truth → String
  | certain => "TRUE_CERTAIN"
  | byDefault => "TRUE_DEFAULT"
  | likely => "PLAUSIBLE"
  | refuted => "FALSE"
  | unknown => "UNKNOWN"

/-- An answer that ends inference. -/
def isDecisive : Truth → Bool
  | certain | byDefault | refuted => true
  | likely | unknown => false

end Truth

end KnowledgeBase
