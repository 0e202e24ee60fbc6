import KnowledgeBase.Value

/-!
# Bindings

Values of variables, in the order in which the variables were bound.
-/

namespace KnowledgeBase

structure Bindings where
  entries : List (String × String) := []
  deriving Repr, DecidableEq, Inhabited

namespace Bindings

def empty : Bindings := {}

def get? (b : Bindings) (name : String) : Option String :=
  b.entries.lookup name

def has (b : Bindings) (name : String) : Bool :=
  (b.get? name).isSome

def size (b : Bindings) : Nat :=
  b.entries.length

/-- Binds a fresh variable, or checks that a bound one has this value already. -/
def bind? (b : Bindings) (name value : String) : Option Bindings :=
  match b.get? name with
  | none => some ⟨b.entries ++ [(name, value)]⟩
  | some v => if v = value then some b else none

/-- Binds each pair in turn; a pair that contradicts an earlier one is ignored. -/
def ofList (entries : List (String × String)) : Bindings :=
  entries.foldl (fun b e => (b.bind? e.1 e.2).getD b) empty

def report (b : Bindings) : Value :=
  .record (b.entries.map fun e => (e.1, .text e.2))

end Bindings

end KnowledgeBase
