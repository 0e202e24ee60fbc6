import KnowledgeBase.Precision

/-!
# Structured values

The data that metadata, configurations and snapshots are made of, and that reports are written in:
nulls, booleans, integers, reals, texts, lists and records.
-/

namespace KnowledgeBase

/-- A structured value. -/
inductive Value where
  | null
  | bool (b : Bool)
  | integer (n : Int)
  | real (x : Float)
  | text (s : String)
  | list (items : List Value)
  | record (fields : List (String × Value))
  deriving Repr, Inhabited, BEq

namespace Value

/-! ### Fields of a record -/

/-- Sets a field; fields stand in ascending order of their names, one per name. -/
def setField (name : String) (v : Value) : List (String × Value) → List (String × Value)
  | [] => [(name, v)]
  | (k, w) :: rest =>
    if k = name then (name, v) :: rest
    else if name < k then (name, v) :: (k, w) :: rest
    else (k, w) :: setField name v rest

/-- The record with these fields; of two fields of one name the later one counts. -/
def ofFields (fields : List (String × Value)) : Value :=
  .record (fields.foldl (fun acc f => setField f.1 f.2 acc) [])

/-- The field of a record; other values have none. -/
def field? (v : Value) (name : String) : Option Value :=
  match v with
  | record fields => fields.lookup name
  | _ => none

def isRecord : Value → Bool
  | record _ => true
  | _ => false

/-! ### Writing reports -/

/-- A single-precision number as a value. -/
def single (x : Float32) : Value := .real (Precision.widen x)

def ofNat (n : Nat) : Value := .integer n

def texts (xs : List String) : Value := .list (xs.map .text)

/-- The value, or null. -/
def ofOption {α : Type} (f : α → Value) : Option α → Value
  | some a => f a
  | none => .null

/-- A field that is written only if its text is not empty. -/
def textUnlessEmpty (name s : String) : List (String × Value) :=
  if s.isEmpty then [] else [(name, .text s)]

end Value

end KnowledgeBase
