import KnowledgeBase.Statement.Leaf

/-!
# Formulas

Leaves joined by conjunction, disjunction, negation and implication, and references to named
statements.
-/

namespace KnowledgeBase

inductive Formula where
  | leaf (l : Leaf)
  | all (parts : List Formula)
  | any (parts : List Formula)
  | negate (inner : Formula)
  | implies (condition conclusion : Formula)
  | reference (name : String)
  deriving Repr, Inhabited

namespace Formula

/-! ### Construction -/

/-- The parts of a compound formula, all of which must be there. -/
def parts (ps : List (Option Formula)) : Except Fault (List Formula) :=
  ps.mapM fun p =>
    match p with
    | some f => .ok f
    | none => refuse .nullPart

/-- One part, which must be there. -/
def part (p : Option Formula) : Except Fault Formula :=
  match p with
  | some f => .ok f
  | none => refuse .nullPart

/-! ### Walks -/

mutual

/-- The formula as text. -/
def signature : Formula → String
  | leaf l => l.text
  | all ps => "(And" ++ signatures ps ++ ")"
  | any ps => "(Or" ++ signatures ps ++ ")"
  | negate f => "(Not " ++ signature f ++ ")"
  | implies c d => "(Implies " ++ signature c ++ " " ++ signature d ++ ")"
  | reference n => "@" ++ n

def signatures : List Formula → String
  | [] => ""
  | f :: fs => " " ++ signature f ++ signatures fs

end

mutual

/-- Every leaf, from left to right. -/
def leaves : Formula → List Leaf
  | leaf l => [l]
  | all ps | any ps => leavesOf ps
  | negate f => leaves f
  | implies c d => leaves c ++ leaves d
  | reference _ => []

def leavesOf : List Formula → List Leaf
  | [] => []
  | f :: fs => leaves f ++ leavesOf fs

end

mutual

/-- The leaves that the formula asserts: those under conjunctions and disjunctions only. -/
def positiveLeaves : Formula → List Leaf
  | leaf l => [l]
  | all ps | any ps => positiveLeavesOf ps
  | negate _ | implies .. | reference _ => []

def positiveLeavesOf : List Formula → List Leaf
  | [] => []
  | f :: fs => positiveLeaves f ++ positiveLeavesOf fs

end

/-- The holes, each where it is first seen. -/
def holes (f : Formula) : List String :=
  (f.leaves.flatMap Leaf.holes).foldl
    (fun seen n => if seen.contains n then seen else seen ++ [n]) []

end Formula

/-- A statement of a batch; its name may be empty. -/
structure Statement where
  name : String
  formula : Option Formula

end KnowledgeBase
