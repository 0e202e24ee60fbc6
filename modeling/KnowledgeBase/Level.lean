import KnowledgeBase.Fact
import KnowledgeBase.Rule.Basic
import Std.Data.TreeMap

/-!
# Levels

A monotone estimate of how derived a concept is.  Primitives sit at level zero; a fact is one level
above the highest concept it mentions, and concepts first seen in a fact take its level.  Levels
never go down.  They are signed 32-bit numbers.
-/

namespace KnowledgeBase

/-- The levels of a rule's two sides. -/
structure RuleLevels where
  conclusion : Int
  premise : Int
  deriving Repr, DecidableEq

namespace Levels

/-- Operators, core relations, roles and truth values. -/
def primitives : List String :=
  ["isA", "Implies", "And", "Or", "Not", "ForAll", "Exists",
    "partOf", "locatedIn", "causes", "enables", "prevents", "hasProperty", "has", "can", "cannot",
    "IS_A", "PART_OF", "HAS_PROPERTY", "CAN", "CAUSES",
    "Agent", "Theme", "Source", "Goal", "Recipient", "Content", "Instrument",
    "True", "False"]

end Levels

structure Levels where
  concepts : Std.TreeMap String Int := .ofList (Levels.primitives.map fun n => (n, (0 : Int)))
  facts : Std.TreeMap FactId Int := ∅
  rules : Std.TreeMap String RuleLevels := ∅
  highest : Int := 0

namespace Levels

def isPrimitive (name : String) : Bool := primitives.contains name

/-- The next level; the one after the highest number is the lowest. -/
def above (level : Int) : Int := (level + 1).bmod (1 <<< 32)

/-! ### Concepts -/

/-- An unknown concept counts as level zero. -/
def conceptLevel (l : Levels) (name : String) : Int := l.concepts.getD name 0

def knows (l : Levels) (name : String) : Bool := l.concepts.contains name

/-- Whether registering a concept at a level changes anything: it is new or is raised, and is no
variable. -/
def raises (l : Levels) (name : String) (level : Int) : Bool :=
  !name.isEmpty && !Text.startsVariable name
    && match l.concepts[name]? with
      | some known => decide (known < level)
      | none => true

def register (l : Levels) (name : String) (level : Int) : Levels :=
  if l.raises name level then
    { l with concepts := l.concepts.insert name level, highest := max l.highest level }
  else l

/-! ### Goals -/

/-- The highest level of some concepts, at least zero. -/
def highestOf (l : Levels) (names : List String) : Int :=
  names.foldl (fun m n => max m (l.conceptLevel n)) 0

/-- One above the highest level among the words that are no variables; zero if there are none. -/
def goalLevel (l : Levels) (goal : String) : Int :=
  let words := (Text.words goal).filter fun w => !Text.startsVariable w
  if words.isEmpty then 0 else above (l.highestOf words)

/-! ### Facts -/

/-- The level of a triple. -/
def tripleLevel (l : Levels) (t : Triple) : Int :=
  above (max (l.conceptLevel t.subject) (max (l.conceptLevel t.relation) (l.conceptLevel t.object)))

/-- Registers a concept that is not known yet. -/
def introduce (l : Levels) (name : String) (level : Int) : Levels :=
  if l.knows name then l else l.register name level

def addFact (l : Levels) (id : FactId) (t : Triple) : Levels :=
  let level := l.tripleLevel t
  let l := { l with facts := l.facts.insert id level, highest := max l.highest level }
  ((l.introduce t.subject level).introduce t.relation level).introduce t.object level

def factLevel? (l : Levels) (id : FactId) : Option Int := l.facts[id]?

/-- The facts at a level, in the order of their ids. -/
def factsAt (l : Levels) (level : Int) : List FactId :=
  (l.facts.toList.filter fun p => p.2 == level).map Prod.fst

/-! ### Rules -/

/-- The concepts that a leaf mentions. -/
def mentioned (leaf : Leaf) : List String :=
  leaf.op :: ((leaf.args.filter fun a => !a.isHole).map Term.name)

def leavesLevel (l : Levels) (leaves : List Leaf) : Int :=
  above (l.highestOf (leaves.flatMap mentioned))

def ruleLevels (l : Levels) (r : Rule) : RuleLevels :=
  ⟨l.leavesLevel r.conclusions, l.leavesLevel r.premises⟩

def addRule (l : Levels) (r : Rule) : Levels :=
  { l with rules := l.rules.insert r.id (l.ruleLevels r) }

def ruleLevels? (l : Levels) (id : String) : Option RuleLevels := l.rules[id]?

/-! ### Premises -/

mutual

/-- The highest goal level among the instances of a condition's leaves. -/
def premiseLevel (l : Levels) (b : Bindings) : Formula → Int
  | .leaf leaf => l.goalLevel (leaf.instanceText b)
  | .negate f => premiseLevel l b f
  | .all ps | .any ps => premiseLevelOf l b ps
  | .implies .. | .reference _ => 0

def premiseLevelOf (l : Levels) (b : Bindings) : List Formula → Int
  | [] => 0
  | f :: fs => max (premiseLevel l b f) (premiseLevelOf l b fs)

end

end Levels

def RuleLevels.report (r : RuleLevels) : Value :=
  .record [("conclusion", .integer r.conclusion), ("max_premise", .integer r.premise)]

end KnowledgeBase
