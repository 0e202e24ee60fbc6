import KnowledgeBase.Store.Facts

/-!
# Snapshots

The facts of a store as a list of records, and how a store is loaded with such a list.  A snapshot
is read as a whole before the store is touched.
-/

namespace KnowledgeBase

namespace Snapshot

/-! ### Records -/

def existenceField : String := "_existence"
def idField : String := "_id"

/-- The fields of a record that belong to the fact itself. -/
def ownFields : List String := ["subject", "relation", "object", existenceField, idField]

/-- The record of a fact: its own fields, put over its metadata. -/
def ofFact (f : Fact) : Value :=
  let metadata := match f.metadata with
    | .record fields => fields
    | _ => []
  .record ([
    ("subject", .text f.subject),
    ("relation", .text f.relation),
    ("object", .text f.object),
    (existenceField, .integer f.existence),
    (idField, .ofNat f.id.toNat)].foldl (fun r p => Value.setField p.1 p.2 r) metadata)

/-! ### Reading -/

/-- The explicit id of a record, if it is a natural number. -/
def explicitId? (record : Value) : Option FactId :=
  match record.field? idField with
  | some (.integer n) => if 0 ≤ n then some (UInt64.ofInt n) else none
  | _ => none

/-- The first id that is above all explicit ones. -/
def firstFree (records : List Value) : FactId :=
  (records.filterMap explicitId?).foldl (fun free id => max free (id + 1)) 1

/-- A text of a record that must be there and not be empty. -/
def textField (record : Value) (name : String) : Except RecordFault String :=
  match record.field? name with
  | some (.text s) => if s.isEmpty then .error (.missing name) else .ok s
  | _ => .error (.missing name)

/-- The existence level of a record; it is read as a signed 64-bit number. -/
def existenceOf (record : Value) : Except RecordFault Existence :=
  match record.field? existenceField with
  | some (.integer n) =>
    let level := (Int64.ofInt n).toInt
    if Existence.inRange level then .ok level else .error .existenceOutOfRange
  | _ => .error .existenceNotInteger

/-- The id of a record, and the next free one; a record without an id takes the free one. -/
def idOf (record : Value) (free : FactId) : Except RecordFault (FactId × FactId) :=
  match record.field? idField, explicitId? record with
  | none, _ => .ok (free, free + 1)
  | some _, some id => .ok (id, free)
  | some _, none => .error .idNotNatural

/-- The fields of a record that are metadata. -/
def metadataOf : Value → Value
  | .record fields => .record (fields.filter fun p => !ownFields.contains p.1)
  | _ => .record []

/-- Reads a record; ids of earlier records are taken. -/
def readRecord (taken : List FactId) (free : FactId) (record : Value) :
    Except RecordFault (Fact × FactId) := do
  unless record.isRecord do throw .notAnObject
  let subject ← textField record "subject"
  let relation ← textField record "relation"
  let object ← textField record "object"
  let existence ← existenceOf record
  let (id, free) ← idOf record free
  if taken.contains id then throw (.duplicateId id)
  return (⟨id, ⟨subject, relation, object⟩, existence, metadataOf record⟩, free)

/-- Reads records from an index on; a fault names the index of its record. -/
def readRecords : (index : Nat) → (taken : List FactId) → (free : FactId) → List Value →
    Except Fault (List Fact)
  | _, _, _, [] => .ok []
  | index, taken, free, r :: rs =>
    match readRecord taken free r with
    | .error why => .error (.snapshot index why)
    | .ok (f, free) => do return f :: (← readRecords (index + 1) (f.id :: taken) free rs)

/-- The facts of a snapshot. -/
def read : Value → Except Fault (List Fact)
  | .list records => readRecords 0 [] (firstFree records) records
  | _ => .error (.snapshot 0 .notAnArray)

end Snapshot

namespace Store

/-- The facts as records, in the order of their ids. -/
def snapshot (s : Store) : Value :=
  .list (s.allFacts.map Snapshot.ofFact)

/-- Enters a fact under its own id; both its terms become concepts. -/
def load (s : Store) (now : Millis) (f : Fact) : Store :=
  let entered := { s with nextId := max s.nextId (f.id + 1) }.enter f
  let (sorted, _) := entered.sortVersions f.triple.key (some f)
  ((sorted.introduce f.subject now).introduce f.object now).put f

/-- Replaces every fact by those of a snapshot; concepts, usage and protections stay. -/
def restore (s : Store) (snapshot : Value) (now : Millis) : Except Fault Store := do
  let facts ← Snapshot.read snapshot
  let bare : Store := { s with
    nextId := 1, facts := ∅, bySubject := ∅, byPair := ∅, byObject := ∅, byTriple := ∅ }
  return (facts.mergeSort fun a b => decide (a.id ≤ b.id)).foldl (·.load now) bare

end Store

end KnowledgeBase
