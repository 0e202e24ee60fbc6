import KnowledgeBase.Proofs.Outcome
import KnowledgeBase.Proofs.Value
import KnowledgeBase.Store.Snapshot

/-!
# Records of facts

A record is read back as the fact it was written from, up to metadata: the fact's own fields are put
over its metadata, and metadata under their names is lost.

* `Snapshot.readRecord_eq_ok`: what it takes for a record to be read;
* `Snapshot.readBack`: what is left of a fact;
* `Snapshot.readRecords_map`: the records of different facts are read one by one;
* `Snapshot.metadataOf_eq_self_iff`: when metadata comes through unchanged;
* `Snapshot.storable_of_read`: every fact that is read, from any snapshot, could be asserted.
-/

namespace KnowledgeBase

/-- What an asserted fact keeps to. -/
structure Fact.Storable (f : Fact) : Prop where
  wellFormed : f.triple.wellFormed = true
  inRange : Existence.inRange f.existence = true
  isRecord : f.metadata.isRecord = true

namespace Snapshot

variable {f : Fact} {record : Value} {taken : List FactId} {free : FactId}

/-- The fields of a record that are taken from the fact itself. -/
def ownEntries (f : Fact) : List (String × Value) := [
  ("subject", .text f.subject),
  ("relation", .text f.relation),
  ("object", .text f.object),
  (existenceField, .integer f.existence),
  (idField, .ofNat f.id.toNat)]

theorem ownEntries_names (f : Fact) : (ownEntries f).map Prod.fst = ownFields := rfl

/-- The fields of metadata; a value that is no record has none. -/
def fieldsOf : Value → List (String × Value)
  | .record fields => fields
  | _ => []

theorem lookup_fieldsOf (v : Value) (name : String) :
    (fieldsOf v).lookup name = v.field? name := by
  cases v <;> rfl

theorem ofFact_eq (f : Fact) : ofFact f =
    .record ((ownEntries f).foldl (fun r p => Value.setField p.1 p.2 r) (fieldsOf f.metadata)) := by
  rfl

/-- The fact's own fields count before metadata of the same names. -/
theorem field?_ofFact (f : Fact) (name : String) :
    (ofFact f).field? name = ((ownEntries f).lookup name).or (f.metadata.field? name) := by
  rw [ofFact_eq, ← lookup_fieldsOf f.metadata]
  refine Value.lookup_foldl_setField ?_ name
  rw [ownEntries_names]
  decide

/-- Metadata under the names of a record's own fields is lost. -/
theorem metadataOf_ofFact (f : Fact) : metadataOf (ofFact f) = metadataOf f.metadata := by
  have hown : ∀ q ∈ ownEntries f, ∀ w : Value, (!ownFields.contains (q.1, w).1) = false := by
    intro q hq w
    have hmem : q.1 ∈ ownFields := ownEntries_names f ▸ List.mem_map_of_mem hq
    simpa using hmem
  rw [ofFact_eq]
  show Value.record _ = _
  rw [Value.filter_foldl_setField hown]
  cases f.metadata <;> rfl

theorem field?_metadataOf (v : Value) (name : String) :
    (metadataOf v).field? name = if name ∈ ownFields then none else v.field? name := by
  cases v with
  | record fields => exact Value.lookup_filter_names ownFields name
  | _ => exact (ite_self none).symm

theorem metadataOf_eq_self_iff {v : Value} (h : v.isRecord = true) :
    metadataOf v = v ↔ ∀ name ∈ ownFields, v.field? name = none := by
  constructor
  · intro he name hname
    rw [← he, field?_metadataOf, if_pos hname]
  · intro hnone
    cases v with
    | record fields =>
      refine congrArg Value.record (List.filter_eq_self.mpr fun p hp => ?_)
      by_contra hown
      have hname : p.1 ∈ ownFields := by simpa using hown
      simpa using List.lookup_eq_none_iff.mp (hnone p.1 hname) p hp
    | _ => cases h

theorem textField_eq_ok {name s : String} (h : record.field? name = some (.text s))
    (hs : s.isEmpty = false) : textField record name = .ok s := by
  unfold textField
  rw [h]
  simp [hs]

theorem existenceOf_ofFact (h : Existence.inRange f.existence = true) :
    existenceOf (ofFact f) = .ok f.existence := by
  have hlevel : (Int64.ofInt f.existence).toInt = f.existence := by
    rw [Existence.inRange, Bool.and_eq_true] at h
    have hlow : (-2 ^ 63 : Int) ≤ Existence.impossible := by decide
    have hhigh : Existence.certain < (2 ^ 63 : Int) := by decide
    exact Int64.toInt_ofInt_of_le (Int.le_trans hlow (of_decide_eq_true h.1))
      (Int.lt_of_le_of_lt (of_decide_eq_true h.2) hhigh)
  have hfield : (ofFact f).field? existenceField = some (.integer f.existence) := by
    rw [field?_ofFact]
    rfl
  unfold existenceOf
  rw [hfield]
  simp [hlevel, h]

theorem field?_id (f : Fact) : (ofFact f).field? idField = some (.ofNat f.id.toNat) := by
  rw [field?_ofFact]
  rfl

theorem explicitId?_ofFact (f : Fact) : explicitId? (ofFact f) = some f.id := by
  unfold explicitId?
  rw [field?_id]
  simp [Value.ofNat, Value.ofInt_toNat]

theorem idOf_ofFact (f : Fact) (free : FactId) : idOf (ofFact f) free = .ok (f.id, free) := by
  unfold idOf
  rw [field?_id, explicitId?_ofFact]

/-- What it takes for a record to be read, field by field. -/
theorem readRecord_eq_ok {next : FactId} : readRecord taken free record = .ok (f, next) ↔
    record.isRecord = true ∧ textField record "subject" = .ok f.subject ∧
      textField record "relation" = .ok f.relation ∧ textField record "object" = .ok f.object ∧
      existenceOf record = .ok f.existence ∧ idOf record free = .ok (f.id, next) ∧
      f.id ∉ taken ∧ f.metadata = metadataOf record := by
  constructor
  · intro h
    unfold readRecord at h
    dsimp only at h
    split at h
    · rename_i hrecord
      obtain ⟨subject, hs, h⟩ := Outcome.bind_eq_ok.mp h
      obtain ⟨relation, hr, h⟩ := Outcome.bind_eq_ok.mp h
      obtain ⟨object, ho, h⟩ := Outcome.bind_eq_ok.mp h
      obtain ⟨existence, he, h⟩ := Outcome.bind_eq_ok.mp h
      obtain ⟨⟨id, rest⟩, hid, h⟩ := Outcome.bind_eq_ok.mp h
      dsimp only at h
      split at h
      · cases h
      · rename_i hnew
        cases h
        exact ⟨hrecord, hs, hr, ho, he, hid, by simpa using hnew, rfl⟩
    · cases h
  · rintro ⟨hrecord, hs, hr, ho, he, hid, hnew, hmetadata⟩
    have htaken : taken.contains f.id = false := by simpa using hnew
    unfold readRecord
    simp only [hrecord, hs, hr, ho, he, hid, htaken, ← hmetadata, bind, Except.bind, pure,
      Except.pure, if_true, if_false, Bool.false_eq_true]
    rfl

/-- What is read back from the record of a fact. -/
def readBack (f : Fact) : Fact := { f with metadata := metadataOf f.metadata }

theorem readRecord_ofFact (h : f.Storable) (hid : f.id ∉ taken) :
    readRecord taken free (ofFact f) = .ok (readBack f, free) := by
  have hw := h.wellFormed
  unfold Triple.wellFormed at hw
  simp only [Bool.and_eq_true, Bool.not_eq_eq_eq_not, Bool.not_true] at hw
  refine readRecord_eq_ok.mpr ⟨rfl, ?_, ?_, ?_, existenceOf_ofFact h.inRange, idOf_ofFact f free,
    hid, (metadataOf_ofFact f).symm⟩
  · exact textField_eq_ok (by rw [field?_ofFact]; rfl) hw.1.1
  · exact textField_eq_ok (by rw [field?_ofFact]; rfl) hw.1.2
  · exact textField_eq_ok (by rw [field?_ofFact]; rfl) hw.2

/-- The records of different facts are read one by one. -/
theorem readRecords_map {fs : List Fact} {index : Nat} (hok : ∀ f ∈ fs, f.Storable)
    (hids : (fs.map Fact.id).Nodup) (hnew : ∀ f ∈ fs, f.id ∉ taken) :
    readRecords index taken free (fs.map ofFact) = .ok (fs.map readBack) := by
  induction fs generalizing index taken with
  | nil => rfl
  | cons f fs ih =>
    rw [List.map_cons, List.nodup_cons] at hids
    have hrest : readRecords (index + 1) ((readBack f).id :: taken) free (fs.map ofFact) =
        .ok (fs.map readBack) := by
      refine ih (fun g hg => hok g (List.mem_cons_of_mem _ hg)) hids.2 fun g hg hmem => ?_
      rcases List.mem_cons.mp hmem with he | hmem
      · exact hids.1 (he ▸ List.mem_map_of_mem hg)
      · exact hnew g (List.mem_cons_of_mem _ hg) hmem
    have hfirst : readRecord taken free (ofFact f) = .ok (readBack f, free) :=
      readRecord_ofFact (hok f List.mem_cons_self) (hnew f List.mem_cons_self)
    simp only [List.map_cons, readRecords, hfirst, hrest]
    rfl

/-! ### What reading makes sure of -/

theorem textField_nonempty {name s : String} (h : textField record name = .ok s) :
    s.isEmpty = false := by
  unfold textField at h
  split at h
  · split at h
    · cases h
    · rename_i hs
      cases h
      simpa using hs
  · cases h

theorem existenceOf_inRange {level : Existence} (h : existenceOf record = .ok level) :
    Existence.inRange level = true := by
  unfold existenceOf at h
  split at h
  · dsimp only at h
    split at h
    · rename_i hlevel
      cases h
      exact hlevel
    · cases h
  · cases h

theorem storable_of_readRecord {free' : FactId}
    (h : readRecord taken free record = .ok (f, free')) : f.Storable := by
  obtain ⟨-, hs, hr, ho, he, -, -, hmetadata⟩ := readRecord_eq_ok.mp h
  refine ⟨?_, existenceOf_inRange he, ?_⟩
  · show (!f.subject.isEmpty && !f.relation.isEmpty && !f.object.isEmpty) = true
    rw [textField_nonempty hs, textField_nonempty hr, textField_nonempty ho]
    rfl
  · rw [hmetadata]
    cases record <;> rfl

theorem storable_of_readRecords {index : Nat} {records : List Value} {fs : List Fact}
    (h : readRecords index taken free records = .ok fs) (hf : f ∈ fs) : f.Storable := by
  induction records generalizing index taken free fs with
  | nil =>
    cases h
    cases hf
  | cons r rs ih =>
    unfold readRecords at h
    split at h
    · cases h
    · rename_i g free' hr
      obtain ⟨gs, hgs, h⟩ := Outcome.bind_eq_ok.mp h
      cases h
      rcases List.mem_cons.mp hf with rfl | hf
      · exact storable_of_readRecord hr
      · exact ih hgs hf

theorem storable_of_read {fs : List Fact} (h : read record = .ok fs) (hf : f ∈ fs) :
    f.Storable := by
  unfold read at h
  split at h
  · exact storable_of_readRecords h hf
  · cases h

end Snapshot

end KnowledgeBase
