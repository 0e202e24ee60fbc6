import KnowledgeBase.Decimal
import KnowledgeBase.Store.Facts
import KnowledgeBase.Store.Glob

/-!
# Forgetting

Concepts are forgotten by label, by pattern, or for being little or long not used, and the facts
that name them go with them.  Protected concepts stay.
-/

namespace KnowledgeBase

/-! ### Ages -/

namespace Millis

/-- A unit of age. -/
def unit? : Char → Option Millis
  | 'd' => some day
  | 'h' => some hour
  | 'm' => some minute
  | _ => none

/-- Reads an age: digits and a unit.  The digits must fit a signed 64-bit number; their product with
the unit wraps. -/
def ofAge? (s : String) : Except Fault (Option Millis) :=
  let cs := s.toList
  let digits := cs.dropLast
  match cs.getLast?.bind unit? with
  | none => .ok none
  | some unit =>
    if digits.isEmpty || !digits.all Char.isDigit then .ok none
    else if 1 <<< 63 ≤ Decimal.digitsValue digits then .error .outOfRange
    else .ok (some (Int64.ofNat (Decimal.digitsValue digits) * unit))

end Millis

/-! ### Requests -/

/-- What to forget.  A label counts before a pattern, and a pattern before the criteria of use,
which must all hold. -/
structure ForgetRequest where
  label : Option String := none
  pattern : Option String := none
  /-- used fewer times than this -/
  threshold : Option UInt32 := none
  /-- not used for this age -/
  olderThan : Option String := none
  /-- only say what would be forgotten -/
  dryRun : Bool := false

/-- What was forgotten. -/
structure Forgotten where
  removed : List String := []
  wouldRemove : List String := []
  count : Nat := 0
  protectedLabels : List String := []
  skipped : Nat := 0
  factsRemoved : Nat := 0
  deriving Repr, DecidableEq

namespace Forgotten

def report (f : Forgotten) : Value :=
  .record [
    ("removed", .texts f.removed),
    ("would_remove", .texts f.wouldRemove),
    ("count", .ofNat f.count),
    ("protected", .texts f.protectedLabels),
    ("skipped", .ofNat f.skipped),
    ("facts_removed", .ofNat f.factsRemoved)]

end Forgotten

namespace Store

/-! ### Selection -/

/-- A concept falls under the criteria of use. -/
def isStale (threshold : Option UInt32) (age : Option Millis) (now : Millis) (u : Usage) : Bool :=
  !(threshold.any fun n => decide (n ≤ u.count))
    && !(age.any fun a => decide (now - u.lastUsedAt < a))

/-- The age of a request, if it names one. -/
def requestedAge (r : ForgetRequest) : Except Fault (Option Millis) :=
  match r.olderThan with
  | none => .ok none
  | some s => do
    match ← Millis.ofAge? s with
    | some a => return some a
    | none => refuse .malformedAge

/-- The labels that a request selects, protected ones included. -/
def select (s : Store) (r : ForgetRequest) (now : Millis) : Except Fault (List String) :=
  match r.label, r.pattern with
  | some l, _ => .ok (if s.isProtected l || s.hasConcept l then [l] else [])
  | none, some p => .ok (s.conceptLabels.filter (Glob.matchesLabel p))
  | none, none =>
    if r.threshold.isNone && r.olderThan.isNone then .ok []
    else do
      let age ← requestedAge r
      return (s.concepts.toList.filter fun p => isStale r.threshold age now p.2.usage).map Prod.fst

/-! ### Removal -/

/-- The ids of the facts that name a concept, in ascending order. -/
def naming (s : Store) (label : String) : List FactId :=
  (Std.TreeSet.ofList (s.bySubject.bucket label ++ s.byObject.bucket label)).toList

/-- Removes facts. -/
def removeAll (s : Store) (ids : List FactId) : Store :=
  ids.foldl (fun s id => (s.remove id).1) s

/-- Removes a concept and the facts that name it, and counts them. -/
def drop (s : Store) (label : String) : Store × Nat :=
  let ids := s.naming label
  let s := s.removeAll ids
  ({ s with concepts := s.concepts.erase label }, ids.length)

/-- Removes concepts in turn, and counts the facts that go with them. -/
def dropAll (s : Store) : List String → Store × Nat
  | [] => (s, 0)
  | l :: ls =>
    let (s, n) := s.drop l
    let (s, m) := s.dropAll ls
    (s, n + m)

def forget (s : Store) (r : ForgetRequest) (now : Millis) : Except Fault (Store × Forgotten) := do
  let (kept, targets) := (← s.select r now).partition s.isProtected
  let found : Forgotten :=
    { count := targets.length, protectedLabels := kept, skipped := kept.length }
  if r.dryRun then return (s, { found with wouldRemove := targets })
  let (s, n) := s.dropAll targets
  return (s, { found with removed := targets, factsRemoved := n })

end Store

end KnowledgeBase
