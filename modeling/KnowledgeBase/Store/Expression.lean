/-!
# Globs as expressions

A glob over bytes becomes a regular expression: its stars become runs of a wildcard, and bytes that
mean something in expressions are escaped.  Only what a glob becomes is read here.
-/

namespace KnowledgeBase.Expression

def asterisk : UInt8 := '*'.toUInt8
def dot : UInt8 := '.'.toUInt8
def backslash : UInt8 := '\\'.toUInt8
def start : UInt8 := '^'.toUInt8
def stop : UInt8 := '$'.toUInt8

/-! ### Writing -/

/-- The bytes that are escaped. -/
def escaped : List UInt8 :=
  ['\\', '^', '$', '.', '|', '?', '+', '(', ')', '[', ']', '\x7b', '\x7d'].map Char.toUInt8

def translate (b : UInt8) : List UInt8 :=
  if b = asterisk then [dot, asterisk] else if b ∈ escaped then [backslash, b] else [b]

/-- The expression that a glob becomes. -/
def ofGlob (glob : List UInt8) : List UInt8 :=
  start :: (glob.flatMap translate ++ [stop])

/-! ### Reading -/

inductive Piece where
  /-- any bytes within a line -/
  | run
  | byte (b : UInt8)
  deriving Repr, DecidableEq

/-- Reads the pieces of an expression up to its end. -/
def pieces? : List UInt8 → Option (List Piece)
  | [] => none
  | b :: bs =>
    if b = stop then if bs.isEmpty then some [] else none
    else if b = backslash then
      match bs with
      | c :: cs => if c ∈ asterisk :: escaped then (pieces? cs).map (.byte c :: ·) else none
      | [] => none
    else if b = dot then
      match bs with
      | c :: cs => if c = asterisk then (pieces? cs).map (.run :: ·) else none
      | [] => none
    else if b ∈ asterisk :: escaped then none
    else (pieces? bs).map (.byte b :: ·)

/-- Reads an expression that covers a whole text. -/
def read? : List UInt8 → Option (List Piece)
  | [] => none
  | b :: bs => if b = start then pieces? bs else none

/-! ### Meaning -/

/-- The bytes that a wildcard does not stand for. -/
def isLineEnd (b : UInt8) : Bool := b == '\n'.toUInt8 || b == '\r'.toUInt8

/-- Pieces cover bytes. -/
inductive Covers : List Piece → List UInt8 → Prop
  | done : Covers [] []
  | byte {ps bs} (b) : Covers ps bs → Covers (.byte b :: ps) (b :: bs)
  | run {ps bs} (run) : (∀ b ∈ run, isLineEnd b = false) → Covers ps bs →
      Covers (.run :: ps) (run ++ bs)

end KnowledgeBase.Expression
