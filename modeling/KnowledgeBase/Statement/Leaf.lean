import KnowledgeBase.Bindings
import KnowledgeBase.Fault
import KnowledgeBase.Text

/-!
# Leaves

Atomic statements: an operator applied to identifiers, holes and quoted literals.  How they are
written, read, and instantiated under bindings.
-/

namespace KnowledgeBase

/-! ### Terms -/

inductive Term where
  | ident (name : String)
  /-- a variable; its name has no question mark -/
  | hole (name : String)
  | literal (text : String)
  deriving Repr, DecidableEq, Inhabited

namespace Term

def name : Term → String
  | ident n | hole n | literal n => n

def isHole : Term → Bool
  | hole _ => true
  | _ => false

def text : Term → String
  | ident n => n
  | hole n => "?" ++ n
  | literal n => "\"" ++ n ++ "\""

def report : Term → Value
  | ident n => .record [("id", .text n)]
  | hole n => .record [("hole", .text n)]
  | literal n => .record [("lit", .text n)]

/-- A word read as a term: a question mark before more text makes a hole. -/
def ofWord (word : List Char) : Term :=
  match word with
  | '?' :: c :: cs => hole (String.ofList (c :: cs))
  | _ => ident (String.ofList word)

end Term

structure Leaf where
  op : String
  args : List Term
  deriving Repr, DecidableEq, Inhabited

namespace Leaf

/-! ### Writing -/

def text (l : Leaf) : String :=
  l.args.foldl (fun s a => s ++ " " ++ a.text) l.op

/-- The holes of the arguments. -/
def holes (l : Leaf) : List String :=
  (l.args.filter Term.isHole).map Term.name

def fields (l : Leaf) : List (String × Value) :=
  [("op", .text l.op), ("args", .list (l.args.map Term.report))]

def report (l : Leaf) : Value := .record l.fields

/-! ### Reading -/

/-- What a reader is inside of; characters read so far are kept backwards. -/
inductive Inside where
  | gap
  | word (read : List Char)
  | literal (read : List Char)

/-- The terms of a text, unless a literal is left open.  A quote opens a literal only where a term
may start, and a closing quote ends the term at once. -/
def scan : Inside → List Char → Option (List Term)
  | .gap, [] => some []
  | .word read, [] => some [Term.ofWord read.reverse]
  | .literal _, [] => none
  | .gap, c :: cs =>
    if Text.isBlank c then scan .gap cs
    else if c = '"' then scan (.literal []) cs
    else scan (.word [c]) cs
  | .word read, c :: cs =>
    if Text.isBlank c then (scan .gap cs).map (Term.ofWord read.reverse :: ·)
    else scan (.word (c :: read)) cs
  | .literal read, c :: cs =>
    if c = '"' then (scan .gap cs).map (Term.literal (String.ofList read.reverse) :: ·)
    else scan (.literal (c :: read)) cs

/-- Reads a leaf; its first term is the operator and must be an identifier. -/
def parse (s : String) : Except Fault Leaf :=
  match scan .gap s.toList with
  | none => refuse (.unterminatedLiteral s)
  | some (.ident op :: args) => .ok ⟨op, args⟩
  | some _ => refuse (.noOperator s)

/-! ### Instances -/

/-- Every hole has a value. -/
def isBound (l : Leaf) (b : Bindings) : Bool :=
  l.holes.all b.has

/-- The plain text of an argument; a hole without a value keeps its question mark. -/
def instanceOf (b : Bindings) : Term → String
  | .hole n => (b.get? n).getD ("?" ++ n)
  | t => t.name

/-- The plain text of an instance, empty if there is no operator. -/
def instanceText (l : Leaf) (b : Bindings) : String :=
  if l.op.isEmpty then "" else l.args.foldl (fun s a => s ++ " " ++ instanceOf b a) l.op

/-- A value as a term; one with a space or a tab inside is a literal. -/
def ofValue (v : String) : Term :=
  if v.toList.any (fun c => c == ' ' || c == '\t') then .literal v else .ident v

/-- Puts values in the place of holes. -/
def substitute (l : Leaf) (b : Bindings) : Leaf :=
  ⟨l.op, l.args.map fun a =>
    match a with
    | .hole n => ((b.get? n).map ofValue).getD a
    | _ => a⟩

/-- Reads an instance back from its plain text; it needs an operator and an argument. -/
def ofInstance? (s : String) : Option Leaf :=
  match Text.words s with
  | op :: arg :: args => some ⟨op, (arg :: args).map fun w => Term.ofWord w.toList⟩
  | _ => none

end Leaf

end KnowledgeBase
