import KnowledgeBase.Proofs.Store.Keeping
import KnowledgeBase.Proofs.Store.Scan

/-!
# Snapshots restored

The snapshot of a store, restored in any other one, brings back its facts: all of them, in their
order, with their ids, triples and levels.  Metadata comes back as far as records can hold it.

* `WellKept.restore_snapshot`: the snapshot of a well-kept store can be read, and its facts are
  those that are there afterwards;
* `metadata_kept_iff`: which metadata is kept;
* `Store.Mirrors`: two stores that answer every question about facts alike, up to metadata;
* `mirrors_of_allFacts`: coherent stores with the same facts do, however their indexes came about.
-/

namespace KnowledgeBase.Store

variable {s t : Store} {f : Fact} {now : Millis} {ok : Store → Prop}

/-! ### A snapshot read back -/

/-- Loaded one by one, facts stand in the order in which they were. -/
theorem allFacts_foldl_load {fs : List Fact} (hasc : fs.Pairwise fun f g => f.id < g.id) :
    (fs.foldl (·.load now) s.bare).allFacts = fs := by
  have hcases : ∀ {i g}, (fs.foldl (·.load now) s.bare).fact? i = some g → g.id = i ∧ g ∈ fs := by
    intro i g hg
    rcases fact?_foldl_load_cases hg with hbare | hnew
    · rw [fact?_bare] at hbare
      cases hbare
    · exact hnew
  refine eq_of_ascending (allFacts_ascending fun hg => (hcases hg).1) hasc fun f => ?_
  rw [mem_allFacts]
  constructor
  · rintro ⟨i, hi⟩
    exact (hcases hi).2
  · intro hf
    exact ⟨f.id, fact?_foldl_load hasc (fun g _ => fact?_bare g.id) (Or.inl hf)⟩

theorem WellKept.read_snapshot (h : WellKept s) :
    Snapshot.read s.snapshot = .ok (s.allFacts.map Snapshot.readBack) := by
  have hasc := allFacts_ascending h.own_id
  refine Snapshot.readRecords_map (fun f hf => ?_) ?_ (fun f _ => List.not_mem_nil)
  · obtain ⟨i, hi⟩ := mem_allFacts.mp hf
    exact h.storable hi
  · exact List.pairwise_map.mpr (hasc.imp fun hlt => UInt64.ne_of_lt hlt)

/-- **A store takes in the snapshot of another one whole**: all its facts in their order, and
nothing else. -/
theorem WellKept.restore_snapshot (h : WellKept s) (t : Store) (now : Millis) :
    ∃ t', t.restore s.snapshot now = .ok t' ∧
      t'.allFacts = s.allFacts.map Snapshot.readBack := by
  have hasc : (s.allFacts.map Snapshot.readBack).Pairwise fun f g => f.id < g.id :=
    List.pairwise_map.mpr (allFacts_ascending h.own_id)
  exact ⟨_, restore_of_read h.read_snapshot hasc, allFacts_foldl_load hasc⟩

/-! ### Metadata -/

/-- **A snapshot keeps the metadata of a fact exactly if none of it stands under the name of one of
the record's own fields.** -/
theorem metadata_kept_iff (hs : Reached ok s) (hf : f ∈ s.allFacts) (t : Store) (now : Millis) :
    ∃ t' g, t.restore s.snapshot now = .ok t' ∧ t'.fact? f.id = some g ∧
      g = Snapshot.readBack f ∧
      (g.metadata = f.metadata ↔ ∀ name ∈ Snapshot.ownFields, f.metadata.field? name = none) := by
  have hkept := wellKept_of_reached hs
  obtain ⟨i, hi⟩ := mem_allFacts.mp hf
  obtain ⟨t', hr, hall⟩ := hkept.restore_snapshot t now
  have hmem : Snapshot.readBack f ∈ t'.allFacts := hall ▸ List.mem_map_of_mem hf
  refine ⟨t', Snapshot.readBack f, hr, ?_, rfl, ?_⟩
  · exact fact?_id (wellKept_restore hr).own_id hmem
  · exact Snapshot.metadataOf_eq_self_iff (hkept.storable hi).isRecord

/-- A note on where a fact was read, under a name of its own and under one that the record of a
fact has too. -/
def sourceNote : Value := .record [("source", .text "test"), ("subject", .text "memo")]

/-- A fact with a note. -/
def rexNoted : Fact := ⟨1, ⟨"Rex", "IS_A", "Dog"⟩, Existence.certain, sourceNote⟩

def noted : Store :=
  ({ dimensions := 2 } : Store).after (.add rexNoted.triple rexNoted.existence sourceNote 5)

theorem reached_noted : Reached Unwrapped noted := by
  unfold noted
  exact .step _ (.make (n := 2) rfl) (by decide +kernel)

theorem rexNoted_mem : rexNoted ∈ noted.allFacts := mem_allFacts.mpr ⟨1, rfl⟩

theorem metadata_kept_iff_noted : Reached Unwrapped noted ∧ rexNoted ∈ noted.allFacts ∧
    ∃ t' g, threeAsserted.restore noted.snapshot 6 = .ok t' ∧ t'.fact? rexNoted.id = some g ∧
      g = Snapshot.readBack rexNoted ∧
      (g.metadata = rexNoted.metadata ↔
        ∀ name ∈ Snapshot.ownFields, rexNoted.metadata.field? name = none) :=
  ⟨reached_noted, rexNoted_mem, metadata_kept_iff reached_noted rexNoted_mem threeAsserted 6⟩

/-- **A note under the name of one of the record's own fields is lost.** -/
theorem note_lost : Reached Unwrapped noted ∧ rexNoted ∈ noted.allFacts ∧
    ∃ t' g, threeAsserted.restore noted.snapshot 6 = .ok t' ∧ t'.fact? rexNoted.id = some g ∧
      g.metadata = .record [("source", .text "test")] ∧ g.metadata ≠ rexNoted.metadata := by
  obtain ⟨t', hr, hall⟩ :=
    (wellKept_of_reached reached_noted).restore_snapshot threeAsserted 6
  have hmem : Snapshot.readBack rexNoted ∈ t'.allFacts := hall ▸ List.mem_map_of_mem rexNoted_mem
  have hleft : (Snapshot.readBack rexNoted).metadata = .record [("source", .text "test")] := by
    simp [Snapshot.readBack, Snapshot.metadataOf, rexNoted, sourceNote, Snapshot.ownFields,
      Snapshot.existenceField, Snapshot.idField]
  refine ⟨reached_noted, rexNoted_mem, t', Snapshot.readBack rexNoted, hr, ?_, hleft, ?_⟩
  · exact fact?_id (wellKept_restore hr).own_id hmem
  · rw [hleft]
    simp [rexNoted, sourceNote]

/-! ### Equal answers -/

open Snapshot (readBack)

/-- A store answers every question about facts as another one does, with each fact as it is read
back from its record. -/
structure Mirrors (t s : Store) : Prop where
  inOrder : t.allFacts = s.allFacts.map readBack
  byId : ∀ i, t.fact? i = (s.fact? i).map readBack
  bySubject : ∀ a, t.factsBySubject a = (s.factsBySubject a).map (List.map readBack)
  byObject : ∀ b, t.factsByObject b = (s.factsByObject b).map (List.map readBack)
  byPair : ∀ a r min, t.factsByPair a r min = (s.factsByPair a r min).map (List.map readBack)
  byLevel : ∀ min, t.factsFrom min = (s.factsFrom min).map readBack
  ranked : ∀ a, t.factsRanked a = (s.factsRanked a).map (List.map readBack)
  best : ∀ a r o, t.bestFact a r o = (s.bestFact a r o).map (Option.map readBack)

theorem best_map (fs : List Fact) : best (fs.map readBack) = (best fs).map readBack := by
  cases fs with
  | nil => rfl
  | cons f fs =>
    refine congrArg some ?_
    rw [List.foldl_map]
    refine List.foldl_hom readBack fun b g => ?_
    show (if b.existence < g.existence then readBack g else readBack b) = _
    exact (apply_ite readBack _ g b).symm

theorem ranked_map (fs : List Fact) :
    (fs.map readBack).mergeSort (fun a b => decide (b.existence ≤ a.existence)) =
      (fs.mergeSort fun a b => decide (b.existence ≤ a.existence)).map readBack := by
  symm
  refine List.map_mergeSort ?_
  intro a _ b _
  rfl

section

variable (h : Coherent s) (h' : Coherent t) (hall : t.allFacts = s.allFacts.map readBack)
include hall

theorem scan_readBack {p : Fact → Bool} (hp : ∀ f, p (readBack f) = p f) :
    t.scan p = (s.scan p).map readBack := by
  have hcomp : p ∘ readBack = p := funext hp
  rw [scan, scan, hall, List.filter_map, hcomp]

include h h'

theorem collect_readBack {idx idx' : Index} {key : Fact → String}
    (hfile : Files s.fact? key (· < ·) idx) (hfile' : Files t.fact? key (· < ·) idx')
    (hkey : ∀ f, key (readBack f) = key f) (k : String) :
    t.collect idx' k = (s.collect idx k).map (List.map readBack) := by
  have hscan : t.scan (key · == k) = (s.scan (key · == k)).map readBack :=
    scan_readBack hall fun f => by rw [hkey]
  rw [h.collect_eq hfile, h'.collect_eq hfile', hscan]
  rfl

theorem fact?_readBack (i : FactId) : t.fact? i = (s.fact? i).map readBack := by
  have hcomp : (fun f : Fact => f.id == i) ∘ readBack = fun f => f.id == i := rfl
  rw [h.fact?_eq_find, h'.fact?_eq_find, hall, List.find?_map, hcomp]

theorem levelOf?_readBack : t.levelOf? none = s.levelOf? none := by
  funext i
  unfold levelOf?
  rw [fact?_readBack h h' hall, Option.map_map]
  rfl

/-- Versions are in one order however they came to be sorted. -/
theorem bucket_readBack (k : String) : t.byTriple.bucket k = s.byTriple.bucket k := by
  have hsorted := h'.byTriple.sorted k
  rw [levelOf?_readBack h h' hall] at hsorted
  refine Versions.eq_of_ranks hsorted (h.byTriple.sorted k) fun i => ?_
  rw [h.byTriple.mem_iff, h'.byTriple.mem_iff, fact?_readBack h h' hall]
  simp [tripleKeyOf, readBack]

theorem factsByPair_readBack (a r : String) (min : Option Existence) :
    t.factsByPair a r min = (s.factsByPair a r min).map (List.map readBack) := by
  unfold factsByPair
  rw [collect_readBack h h' hall h.byPair h'.byPair fun _ => rfl]
  cases s.collect s.byPair (pairKey a r) with
  | error e => rfl
  | ok fs =>
    cases min with
    | none => rfl
    | some level => exact congrArg Except.ok List.filter_map

theorem factsRanked_readBack (a : String) :
    t.factsRanked a = (s.factsRanked a).map (List.map readBack) := by
  unfold factsRanked factsBySubject
  rw [collect_readBack h h' hall h.bySubject h'.bySubject fun _ => rfl]
  cases s.collect s.bySubject a with
  | error e => rfl
  | ok fs => exact congrArg Except.ok (ranked_map fs)

theorem bestFact_readBack (a r : String) (o : Option String) :
    t.bestFact a r o = (s.bestFact a r o).map (Option.map readBack) := by
  unfold bestFact
  cases o with
  | none =>
    dsimp only
    rw [factsByPair_readBack h h' hall]
    cases s.factsByPair a r none with
    | error e => rfl
    | ok fs => exact congrArg Except.ok (best_map fs)
  | some o =>
    dsimp only
    rw [bucket_readBack h h' hall]
    cases s.byTriple.bucket (Triple.key ⟨a, r, o⟩) with
    | nil => rfl
    | cons i is =>
      dsimp only
      rw [fact?_readBack h h' hall]
      cases s.fact? i <;> rfl

/-- Coherent stores with the same facts answer alike, however their indexes came about. -/
theorem mirrors_of_allFacts : Mirrors t s where
  inOrder := hall
  byId := fact?_readBack h h' hall
  bySubject := collect_readBack h h' hall h.bySubject h'.bySubject fun _ => rfl
  byObject := collect_readBack h h' hall h.byObject h'.byObject fun _ => rfl
  byPair := factsByPair_readBack h h' hall
  byLevel := fun _ => scan_readBack hall fun _ => rfl
  ranked := factsRanked_readBack h h' hall
  best := bestFact_readBack h h' hall

end

/-- A coherent store has not run out of ids. -/
theorem Coherent.unwrapped (h : Coherent s) : s.Unwrapped := by
  intro f hf
  have hlt := UInt64.lt_iff_toNat_lt.mp (h.below (h.fact?_id hf))
  intro hzero
  have hsum := congrArg UInt64.toNat hzero
  rw [UInt64.toNat_add] at hsum
  have hone : (1 : UInt64).toNat = 1 := rfl
  have hnone : (0 : UInt64).toNat = 0 := rfl
  have hnext := s.nextId.toNat_lt
  omega

/-- **A store that has taken in the snapshot of another one answers as that one does.** -/
theorem mirrors_restore_snapshot (hs : Reached Unwrapped s) (t : Store) (now : Millis) :
    ∃ t', t.restore s.snapshot now = .ok t' ∧ Mirrors t' s := by
  have hcoh := coherent_of_reached hs
  obtain ⟨t', hr, hall⟩ := (wellKept_of_reached hs).restore_snapshot t now
  have hw : t'.Unwrapped := by
    intro g hg
    rw [hall] at hg
    obtain ⟨f, hf, rfl⟩ := List.mem_map.mp hg
    exact hcoh.unwrapped f hf
  exact ⟨t', hr, mirrors_of_allFacts hcoh (coherent_restore hr hw) hall⟩

end KnowledgeBase.Store
