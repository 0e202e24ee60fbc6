import KnowledgeBase.Decimal
import KnowledgeBase.Hash
import KnowledgeBase.Value

/-!
# Writing JSON

Values as JSON text.  Integers that a double cannot hold exactly are written as texts, and reals as
texts with six places, so that no reader rounds them.
-/

namespace KnowledgeBase.Json

/-- How a character stands inside a text. -/
def escape (c : Char) : List Char :=
  if c = '"' then ['\\', '"']
  else if c = '\\' then ['\\', '\\']
  else if c.toNat < 32 then
    ['\\', 'u', '0', '0', Hash.hexDigit (c.toNat / 16), Hash.hexDigit (c.toNat % 16)]
  else [c]

def quote (s : String) : String :=
  "\"" ++ String.ofList (s.toList.flatMap escape) ++ "\""

/-- The largest integer below which a double holds all of them. -/
def maxExact : Nat := 1 <<< 53 - 1

/-- The places that a real is written with. -/
def places : Nat := 6

/-- The parts between an opening and a closing character, with commas between them. -/
def enclose (opening : Char) (parts : List String) (closing : Char) : String :=
  opening.toString ++ ",".intercalate parts ++ closing.toString

mutual

def write : Value → String
  | .null => "null"
  | .bool b => if b then "true" else "false"
  | .integer n => if n.natAbs ≤ maxExact then toString n else quote (toString n)
  | .real x => quote (Decimal.fixed places x)
  | .text s => quote s
  | .list items => enclose '[' (writeItems items) ']'
  | .record fields => enclose '{' (writeFields fields) '}'

def writeItems : List Value → List String
  | [] => []
  | v :: vs => write v :: writeItems vs

def writeFields : List (String × Value) → List String
  | [] => []
  | (name, v) :: fs => (quote name ++ ":" ++ write v) :: writeFields fs

end

end KnowledgeBase.Json
