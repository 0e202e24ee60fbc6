import KnowledgeBase.Hypervector.Algebra
import KnowledgeBase.Statement.Formula

/-!
# Rules

A condition and a conclusion, with what is derived from them once.
-/

namespace KnowledgeBase

structure Rule where
  /-- the hash of the rule's text; it stays the same across reloads -/
  id : String := ""
  name : String := ""
  label : String := ""
  condition : Option Formula := none
  conclusion : Option Formula := none
  /-- every leaf of the condition -/
  premises : List Leaf := []
  /-- the leaves that the rule can conclude -/
  conclusions : List Leaf := []
  conditionHoles : List String := []
  conclusionHoles : List String := []
  vector : Option Hypervector := none

namespace Rule

/-- The text of a condition and a conclusion. -/
def signatureOf (condition conclusion : Formula) : String :=
  condition.signature ++ " => " ++ conclusion.signature

def idOf (condition conclusion : Formula) : String :=
  Hash.hex (Hash.fnv1a (signatureOf condition conclusion))

/-- The rule of an implication; without a name it goes by its id and is labelled by its text. -/
def ofImplication (algebra : Option Algebra) (name : String) (condition conclusion : Formula) :
    Except Fault Rule := do
  let id := idOf condition conclusion
  let vector ← algebra.mapM fun a => a.ofRule condition.signature conclusion.signature
  return {
    id
    name := if name.isEmpty then id else name
    label := if name.isEmpty then signatureOf condition conclusion else name
    condition := some condition
    conclusion := some conclusion
    premises := condition.leaves
    conclusions := conclusion.positiveLeaves
    conditionHoles := condition.holes
    conclusionHoles := conclusion.holes
    vector }

/-- The text of a rule, empty if a part is missing. -/
def signature (r : Rule) : String :=
  match r.condition, r.conclusion with
  | some c, some d => signatureOf c d
  | _, _ => ""

/-- The leaves that a goal may be matched against; a conclusion that asserts nothing else may
itself be one. -/
def candidates (r : Rule) : List Leaf :=
  if r.conclusions.isEmpty then
    match r.conclusion with
    | some (.leaf l) => [l]
    | _ => []
  else r.conclusions

def report (r : Rule) : Value :=
  .record [
    ("id", .text r.id),
    ("name", .text r.name),
    ("label", .text r.label),
    ("signature", .text r.signature),
    ("condition_parts", .texts (r.premises.map Leaf.text)),
    ("conclusion_parts", .texts (r.conclusions.map Leaf.text)),
    ("condition_vars", .texts r.conditionHoles),
    ("conclusion_vars", .texts r.conclusionHoles),
    ("has_vector", .bool r.vector.isSome)]

end Rule

end KnowledgeBase
