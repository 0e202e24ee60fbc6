/-!
# Existence levels

How firmly a fact is held, on a scale from `impossible` to `certain` with five named points.
-/

namespace KnowledgeBase

/-- An existence level; stored facts keep it between `impossible` and `certain`. -/
abbrev Existence := Int

namespace Existence

def impossible : Existence := -127
def unproven : Existence := -64
def possible : Existence := 0
def demonstrated : Existence := 64
def certain : Existence := 127

def inRange (level : Existence) : Bool :=
  decide (impossible ≤ level) && decide (level ≤ certain)

/-- The highest named point that the level reaches; below them all it is impossible. -/
def name (level : Existence) : String :=
  if certain ≤ level then "CERTAIN"
  else if demonstrated ≤ level then "DEMONSTRATED"
  else if possible ≤ level then "POSSIBLE"
  else if unproven ≤ level then "UNPROVEN"
  else "IMPOSSIBLE"

end Existence

end KnowledgeBase
