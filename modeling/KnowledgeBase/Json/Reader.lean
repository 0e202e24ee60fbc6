import KnowledgeBase.Decimal
import KnowledgeBase.Hash
import KnowledgeBase.Value

/-!
# Reading JSON

Values from JSON text.  A number without point and exponent that fits 64 bits is an integer, any
other one is a real; of two fields of one name the later one counts.
-/

namespace KnowledgeBase.Json

def isSpace (c : Char) : Bool := c == ' ' || c == '\t' || c == '\n' || c == '\r'

def skipSpace (cs : List Char) : List Char := cs.dropWhile isSpace

/-! ### Texts -/

/-- The character that a letter behind a backslash stands for. -/
def escapedChar (c : Char) : Char :=
  match c with
  | 'n' => '\n'
  | 't' => '\t'
  | 'r' => '\r'
  | 'b' => '\x08'
  | 'f' => '\x0c'
  | c => c

/-- The UTF-16 units or code points of a text up to its closing quote; those read already are kept
backwards.  The text behind the quote comes second. -/
def units : List Char → List Nat → Option (List Nat × List Char)
  | [], _ => none
  | '"' :: cs, read => some (read.reverse, cs)
  | '\\' :: 'u' :: a :: b :: c :: d :: cs, read =>
    units cs ([a, b, c, d].foldl (fun n x => n * 16 + Hash.hexValue x) 0 :: read)
  | '\\' :: c :: cs, read => units cs ((escapedChar c).toNat :: read)
  | c :: cs, read => units cs (c.toNat :: read)

def isHigh (u : Nat) : Bool := decide (0xD800 ≤ u) && decide (u < 0xDC00)
def isLow (u : Nat) : Bool := decide (0xDC00 ≤ u) && decide (u < 0xE000)

/-- A unit outside a pair; half a pair alone becomes the replacement character. -/
def single (u : Nat) : Char := if isHigh u || isLow u then '\uFFFD' else Char.ofNat u

/-- Joins the pairs of units that stand for one character. -/
def join : List Nat → List Char
  | [] => []
  | [u] => [single u]
  | u :: v :: us =>
    if isHigh u && isLow v then
      Char.ofNat (0x10000 + (u - 0xD800) * 0x400 + (v - 0xDC00)) :: join us
    else single u :: join (v :: us)

def quoted (cs : List Char) : Option (String × List Char) :=
  (units cs []).map fun p => (String.ofList (join p.1), p.2)

/-! ### Numbers -/

def isNumeric (c : Char) : Bool :=
  c.isDigit || c == '-' || c == '+' || c == '.' || c == 'e' || c == 'E'

/-- A natural number with a sign, as an integer if it fits 64 bits. -/
def whole (negative : Bool) (n : Nat) : Value :=
  if negative then
    if n ≤ 1 <<< 63 then .integer (-n) else .real (-(Float.ofScientific n false 0))
  else if n < 1 <<< 64 then .integer n
  else .real (Float.ofScientific n false 0)

/-- The real `m * 10 ^ e` with a sign. -/
def scaled (negative : Bool) (m : Nat) (e : Int) : Value :=
  let x := Float.ofScientific m (decide (e < 0)) e.natAbs
  .real (if negative then -x else x)

/-- The exponent that follows its letter. -/
def exponent : List Char → Int
  | '-' :: ds => -(Decimal.digitsValue ds)
  | '+' :: ds => Decimal.digitsValue ds
  | ds => Decimal.digitsValue ds

/-- A number without its sign. -/
def magnitude (negative : Bool) (cs : List Char) : Value :=
  let digits := cs.takeWhile Char.isDigit
  match cs.dropWhile Char.isDigit with
  | [] => whole negative (Decimal.digitsValue digits)
  | '.' :: rest =>
    let places := rest.takeWhile Char.isDigit
    let e := exponent ((rest.dropWhile Char.isDigit).drop 1)
    scaled negative (Decimal.digitsValue (digits ++ places)) (e - places.length)
  | _ :: rest => scaled negative (Decimal.digitsValue digits) (exponent rest)

def number (cs : List Char) : Option (Value × List Char) :=
  let rest := cs.dropWhile isNumeric
  match cs.takeWhile isNumeric with
  | [] => none
  | '-' :: ds => some (magnitude true ds, rest)
  | ds => some (magnitude false ds, rest)

/-! ### Values -/

mutual

/-- A value, and the text behind it.  Every step down or along takes one unit of fuel. -/
def value : (fuel : Nat) → List Char → Option (Value × List Char)
  | 0, _ => none
  | fuel + 1, cs =>
    match skipSpace cs with
    | '"' :: cs => (quoted cs).map fun p => (.text p.1, p.2)
    | '[' :: cs =>
      match skipSpace cs with
      | ']' :: cs => some (.list [], cs)
      | cs => elements fuel cs []
    | '{' :: cs =>
      match skipSpace cs with
      | '}' :: cs => some (.record [], cs)
      | cs => members fuel cs []
    | 't' :: 'r' :: 'u' :: 'e' :: cs => some (.bool true, cs)
    | 'f' :: 'a' :: 'l' :: 's' :: 'e' :: cs => some (.bool false, cs)
    | 'n' :: 'u' :: 'l' :: 'l' :: cs => some (.null, cs)
    | cs => number cs

/-- The elements of a list from one on, those before it backwards. -/
def elements : (fuel : Nat) → List Char → List Value → Option (Value × List Char)
  | 0, _, _ => none
  | fuel + 1, cs, read => do
    let (v, cs) ← value fuel cs
    match skipSpace cs with
    | ',' :: cs => elements fuel cs (v :: read)
    | ']' :: cs => some (.list (v :: read).reverse, cs)
    | _ => none

/-- The members of a record from one on, those before it backwards. -/
def members : (fuel : Nat) → List Char → List (String × Value) → Option (Value × List Char)
  | 0, _, _ => none
  | fuel + 1, cs, read =>
    match skipSpace cs with
    | '"' :: cs => do
      let (name, cs) ← quoted cs
      match skipSpace cs with
      | ':' :: cs => do
        let (v, cs) ← value fuel cs
        match skipSpace cs with
        | ',' :: cs => members fuel cs ((name, v) :: read)
        | '}' :: cs => some (Value.ofFields ((name, v) :: read).reverse, cs)
        | _ => none
      | _ => none
    | _ => none

end

/-- Reads a text that holds one value. -/
def read? (s : String) : Option Value :=
  match value (2 * s.length + 2) s.toList with
  | some (v, rest) => if (skipSpace rest).isEmpty then some v else none
  | none => none

end KnowledgeBase.Json
