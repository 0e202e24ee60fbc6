import Std.Data.TreeSet

/-!
# Terms as text

How two spellings of a term are compared, and how a line is cut into words.  Only ASCII is folded
or counted as blank; every other character stands for itself.
-/

namespace KnowledgeBase.Text

/-- Space, tab, line feed, vertical tab, form feed, carriage return. -/
def isBlank (c : Char) : Bool :=
  c == ' ' || ('\t' ≤ c && c ≤ '\x0d')

/-! ### Folding -/

/-- The characters between the first and the last one that is not blank. -/
def trimmed (cs : List Char) : List Char :=
  ((cs.dropWhile isBlank).reverse.dropWhile isBlank).reverse

/-- The text without its outer blanks, in lower case. -/
def fold (s : String) : String :=
  String.ofList ((trimmed s.toList).map Char.toLower)

/-- Two spellings of one term. -/
def same (a b : String) : Bool :=
  fold a == fold b

/-- The terms that are new up to spelling, each as it is first written. -/
def fresh (seen : Std.TreeSet String) : List String → List String
  | [] => []
  | t :: ts =>
    let key := fold t
    if seen.contains key then fresh seen ts else t :: fresh (seen.insert key) ts

/-- Each term once, as it is first written. -/
def distinct (ts : List String) : List String := fresh ∅ ts

/-! ### Words -/

/-- The words of a line whose current word, read backwards, is `word`. -/
def wordsAux (word : List Char) : List Char → List (List Char)
  | [] => if word.isEmpty then [] else [word.reverse]
  | c :: cs =>
    if isBlank c then
      if word.isEmpty then wordsAux [] cs else word.reverse :: wordsAux [] cs
    else wordsAux (c :: word) cs

/-- The maximal runs of characters that are not blank. -/
def words (s : String) : List String :=
  (wordsAux [] s.toList).map String.ofList

/-! ### Variables and keys -/

/-- A question mark and at least one more character. -/
def isVariable (s : String) : Bool :=
  match s.toList with
  | '?' :: _ :: _ => true
  | _ => false

/-- A question mark, alone or before more text. -/
def startsVariable (s : String) : Bool :=
  match s.toList with
  | '?' :: _ => true
  | _ => false

/-- What comes before the first NUL. -/
def beforeNul (s : String) : String :=
  String.ofList (s.toList.takeWhile (· != '\x00'))

/-- The separator between the fields of a composed key. -/
def keySeparator : String := "\x1f"

end KnowledgeBase.Text
