/-!
# Concept vectors

Points of concept space: lists of components between -127 and 127.
-/

namespace KnowledgeBase

/-- A coordinate of concept space. -/
structure Component where
  val : Int
  low : -127 ≤ val
  high : val ≤ 127
  deriving DecidableEq

namespace Component

/-- The component nearest to an integer. -/
def saturate (n : Int) : Component :=
  ⟨max (-127) (min n 127), by omega, by omega⟩

def zero : Component := ⟨0, by decide, by decide⟩

instance : Inhabited Component := ⟨zero⟩

end Component

abbrev ConceptVector := List Component

namespace ConceptVector

def ofInts (ns : List Int) : ConceptVector :=
  ns.map Component.saturate

def toInts (v : ConceptVector) : List Int :=
  v.map Component.val

def zero (dimensions : Nat) : ConceptVector :=
  List.replicate dimensions Component.zero

/-- One component on an axis, zero elsewhere. -/
def onAxis (dimensions : Nat) (n : Int) (axis : Nat) : ConceptVector :=
  (zero dimensions).set axis (Component.saturate n)

end ConceptVector

end KnowledgeBase
