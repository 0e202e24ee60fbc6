import KnowledgeBase.Relation.Rule
import Std.Data.TreeMap
import Std.Data.TreeSet

/-!
# What relations mean

Which relations are symmetric, transitive, inheritable or inverse to each other, and the default
and composition rules over them.
-/

namespace KnowledgeBase

namespace Relation

def isA : String := "IS_A"
def causes : String := "CAUSES"
def causedBy : String := "CAUSED_BY"
def disjointWith : String := "DISJOINT_WITH"
def equivalentTo : String := "EQUIVALENT_TO"

end Relation

structure Relations where
  symmetric : Std.TreeSet String := ∅
  transitive : Std.TreeSet String := ∅
  inheritable : Std.TreeSet String := .ofList ["HAS_PROPERTY", "CAN", "HAS_ABILITY"]
  /-- the partner of each relation that has one, entered both ways -/
  inverses : Std.TreeMap String String := ∅
  defaults : List DefaultRule := []
  compositions : List CompositionRule := []

namespace Relations

/-- Nothing but the relations that are always inheritable. -/
def bare : Relations := {}

/-- A relation must have a name. -/
def checkName (relation : String) : Except Fault Unit :=
  if relation.isEmpty then refuse .emptyRelation else .ok ()

/-! ### Registration -/

def addSymmetric (r : Relations) (relation : String) : Except Fault Relations := do
  checkName relation
  return { r with symmetric := r.symmetric.insert relation }

def addTransitive (r : Relations) (relation : String) : Except Fault Relations := do
  checkName relation
  return { r with transitive := r.transitive.insert relation }

def addInheritable (r : Relations) (relation : String) : Except Fault Relations := do
  checkName relation
  return { r with inheritable := r.inheritable.insert relation }

/-- Enters two relations as each other's inverse. -/
def pair (r : Relations) (relation inverse : String) : Relations :=
  { r with inverses := (r.inverses.insert relation inverse).insert inverse relation }

def addInverse (r : Relations) (relation inverse : String) : Except Fault Relations := do
  checkName relation
  checkName inverse
  return r.pair relation inverse

def addDefault (r : Relations) (d : DefaultRule) : Except Fault Relations := do
  return { r with defaults := r.defaults ++ [← d.accept] }

def addComposition (r : Relations) (c : CompositionRule) : Except Fault Relations :=
  match c.fault? with
  | some why => refuse why
  | none => .ok { r with compositions := r.compositions ++ [c] }

/-! ### The standard registry -/

def standard : Relations :=
  { bare with
    transitive := .ofList [Relation.isA, "PART_OF"]
    symmetric := .ofList ["MARRIED_TO", "SIBLING_OF"] }.pair "PARENT_OF" "CHILD_OF"

/-! ### Questions -/

def isSymmetric (r : Relations) (relation : String) : Bool := r.symmetric.contains relation
def isTransitive (r : Relations) (relation : String) : Bool := r.transitive.contains relation
def isInheritable (r : Relations) (relation : String) : Bool := r.inheritable.contains relation
def inverse? (r : Relations) (relation : String) : Option String := r.inverses[relation]?

end Relations

end KnowledgeBase
