/-!
# Globs

Patterns over labels.  A star stands for any run of characters within a line, every other character
for itself, and a pattern covers the whole label.
-/

namespace KnowledgeBase.Glob

def isLineEnd (c : Char) : Bool := c == '\n' || c == '\r'

/-- What may be left of a text after a run, the longest rest first. -/
def afterRun : List Char → List (List Char)
  | [] => [[]]
  | c :: cs => (c :: cs) :: if isLineEnd c then [] else afterRun cs

/-- A pattern covers a text. -/
def covers : List Char → List Char → Bool
  | [], cs => cs.isEmpty
  | p :: ps, cs =>
    if p = '*' then (afterRun cs).any (covers ps)
    else
      match cs with
      | c :: cs => c == p && covers ps cs
      | [] => false

def matchesLabel (pattern label : String) : Bool :=
  covers pattern.toList label.toList

end KnowledgeBase.Glob
