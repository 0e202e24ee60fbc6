import KnowledgeBase.Rule.Basic
import Std.Data.TreeMap

/-!
# Rule books

Batches of statements become rules.  Statements may name each other before they are defined: a
batch is entered into the table of names first, then every reference is expanded through it.
Nothing of a batch is kept unless all of it can be.
-/

namespace KnowledgeBase

/-- Named formulas, as written. -/
abbrev NameTable := Std.TreeMap String Formula

namespace NameTable

/-- Enters the named statements of a batch. -/
def enter (table : NameTable) : List Statement → Except Fault NameTable
  | [] => .ok table
  | ⟨name, none⟩ :: _ => refuse (.noExpression name)
  | ⟨name, some f⟩ :: rest =>
    if name.isEmpty then table.enter rest
    else if table.contains name then refuse (.nameDefinedTwice name)
    else NameTable.enter (table.insert name f) rest

/-! ### Expansion -/

mutual

/-- Replaces every reference in a formula. -/
def replace (expand : String → Except Fault Formula) : Formula → Except Fault Formula
  | .leaf l => .ok (.leaf l)
  | .all ps => do return .all (← replaceAll expand ps)
  | .any ps => do return .any (← replaceAll expand ps)
  | .negate f => do return .negate (← replace expand f)
  | .implies c d => do return .implies (← replace expand c) (← replace expand d)
  | .reference n => expand n

def replaceAll (expand : String → Except Fault Formula) :
    List Formula → Except Fault (List Formula)
  | [] => .ok []
  | f :: fs => do return (← replace expand f) :: (← replaceAll expand fs)

end

/-- The formula of a name with its references expanded, names on `path` being expanded already.
A path holds distinct names of the table, so one that is as long as the table closes a cycle. -/
def expand (table : NameTable) : (room : Nat) → (path : List String) → String →
    Except Fault Formula
  | 0, _, name => refuse (.cyclicReference name)
  | room + 1, path, name =>
    match table[name]? with
    | none => refuse (.unresolvedReference name)
    | some f =>
      if path.contains name then refuse (.cyclicReference name)
      else replace (expand table room (name :: path)) f

/-- A formula with its references expanded. -/
def resolve (table : NameTable) (f : Formula) : Except Fault Formula :=
  replace (table.expand (table.size + 1) []) f

end NameTable

/-- Rules, with the names that statements may refer to.  A rule is only taken in under an id that no
rule has (`RuleBook.collect`), so the rules themselves say which one has an id, and no index of ids
is kept beside them. -/
structure RuleBook where
  /-- gives rules their vectors, if there is one -/
  algebra : Option Algebra := none
  rules : List Rule := []
  table : NameTable := ∅

namespace RuleBook

/-- The rule with an id. -/
def find? (b : RuleBook) (id : String) : Option Rule :=
  b.rules.find? (·.id == id)

/-- The first rule of a name. -/
def findByName? (b : RuleBook) (name : String) : Option Rule :=
  b.rules.find? (·.name == name)

/-- A named formula as written. -/
def lookup? (b : RuleBook) (name : String) : Option Formula :=
  b.table[name]?

/-- The rules of a batch that are neither in the book nor earlier in the batch. -/
def collect (b : RuleBook) (table : NameTable) : List Statement → List Rule →
    Except Fault (List Rule)
  | [], added => .ok added
  | ⟨_, none⟩ :: rest, added => b.collect table rest added
  | ⟨name, some f⟩ :: rest, added => do
    match ← table.resolve f with
    | .implies c d =>
      let rule ← Rule.ofImplication b.algebra name c d
      if (b.rules ++ added).any (·.id == rule.id) then b.collect table rest added
      else b.collect table rest (added ++ [rule])
    | _ => b.collect table rest added

/-- Extracts the rules of a batch; the new rules come second. -/
def extract (b : RuleBook) (batch : List Statement) : Except Fault (RuleBook × List Rule) := do
  let table ← b.table.enter batch
  let added ← b.collect table batch []
  return ({ b with rules := b.rules ++ added, table }, added)

/-- Extracts one implication. -/
def addRule (b : RuleBook) (name : String) (condition conclusion : Option Formula) :
    Except Fault RuleBook := do
  let f := Formula.implies (← Formula.part condition) (← Formula.part conclusion)
  return (← b.extract [⟨name, some f⟩]).1

/-- Forgets every rule and name. -/
def clear (b : RuleBook) : RuleBook := { algebra := b.algebra }

end RuleBook

end KnowledgeBase
