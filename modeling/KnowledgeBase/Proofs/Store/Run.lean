import KnowledgeBase.Proofs.Outcome
import KnowledgeBase.Proofs.Store.Coherence
import KnowledgeBase.Proofs.Store.Records

/-!
# Runs of commands on a store

Every change a store can undergo is a `Command`, and `Store.Reached ok` holds of the stores that
commands lead to from a new one, through stores that are all `ok`.

* `Store.Unwrapped`: no fact has the last id, so the counter, which stays above every id that is
  given out or loaded, has not wrapped;
* `changes_after`: what a command can do to facts and indexes, as the cases of `Changes`;
* `Coherent.after`: a change that leads to an unwrapped store keeps the store coherent;
* `coherent_of_reached`: stores reached through unwrapped stores are coherent.
-/

namespace KnowledgeBase

/-! ### Commands -/

/-- A change of a store, with the time of the clock where it counts. -/
inductive Command where
  | ensure (label : String) (now : Millis)
  | query (label : String) (now : Millis)
  | upsert (label : String) (diamonds : List Diamond) (now : Millis)
  | observe (label : String) (v : ConceptVector) (now : Millis)
  | boost (label : String) (amount : UInt32) (now : Millis)
  | protect (label : String)
  | unprotect (label : String)
  | add (t : Triple) (level : Existence) (metadata : Value) (now : Millis)
  | upgrade (id : FactId) (level : Existence)
  | remove (id : FactId)
  | forget (r : ForgetRequest) (now : Millis)
  | restore (snapshot : Value) (now : Millis)

namespace Store

/-- A refused change leaves the store as it was. -/
def orKept (s : Store) (r : Except Fault Store) : Store :=
  match r with
  | .ok s' => s'
  | .error _ => s

/-- The store that a command leaves behind. -/
def after (s : Store) : Command → Store
  | .ensure label now => s.orKept (s.ensureConcept label now)
  | .query label now => (s.queryConcept label now).1
  | .upsert label diamonds now => s.orKept (s.upsert label diamonds now)
  | .observe label v now => s.orKept (s.observe label v now)
  | .boost label amount now => (s.boost label amount now).1
  | .protect label => s.protect label
  | .unprotect label => (s.unprotect label).1
  | .add t level metadata now => (s.add t level metadata now).1
  | .upgrade id level => (s.upgrade id level).1
  | .remove id => (s.remove id).1
  | .forget r now => s.orKept ((s.forget r now).map Prod.fst)
  | .restore snapshot now => s.orKept (s.restore snapshot now)

/-- The stores that commands lead to from a new store, every store on the way being `ok`. -/
inductive Reached (ok : Store → Prop) : Store → Prop
  | make {n : Nat} {s : Store} : Store.make n = .ok s → Reached ok s
  | step {s : Store} (c : Command) : Reached ok s → ok (s.after c) → Reached ok (s.after c)

/-- Every id in use has a successor. -/
def Unwrapped (s : Store) : Prop := ∀ f ∈ s.allFacts, f.id + 1 ≠ 0

instance (s : Store) : Decidable s.Unwrapped :=
  inferInstanceAs (Decidable (∀ f ∈ s.allFacts, f.id + 1 ≠ 0))

variable {s s' : Store} {f : Fact} {i : FactId} {now : Millis}

theorem values_eq_map_toList {α β : Type} {cmp : α → α → Ordering} (t : Std.TreeMap α β cmp) :
    t.values = t.toList.map Prod.snd := by
  show Std.DTreeMap.Internal.Impl.values t.inner.inner =
    (Std.DTreeMap.Internal.Impl.Const.toList t.inner.inner).map Prod.snd
  rw [Std.DTreeMap.Internal.Impl.values_eq_map_snd,
    Std.DTreeMap.Internal.Impl.Const.toList_eq_toListModel_map]
  simp

theorem mem_allFacts : f ∈ s.allFacts ↔ ∃ i, s.fact? i = some f := by
  unfold allFacts fact?
  rw [values_eq_map_toList, List.mem_map]
  constructor
  · rintro ⟨⟨i, g⟩, hg, rfl⟩
    exact ⟨i, Std.TreeMap.mem_toList_iff_getElem?_eq_some.mp hg⟩
  · rintro ⟨i, hi⟩
    exact ⟨(i, f), Std.TreeMap.mem_toList_iff_getElem?_eq_some.mpr hi, rfl⟩

theorem id_lt_succ (h : i + 1 ≠ 0) : i < i + 1 := by
  rw [UInt64.lt_iff_toNat_lt, UInt64.toNat_add]
  have hne : (i + 1).toNat ≠ 0 := fun he => h (UInt64.toNat_inj.mp he)
  rw [UInt64.toNat_add] at hne
  have hi := i.toNat_lt
  have h1 : (1 : UInt64).toNat = 1 := rfl
  omega

/-! ### Changes that leave facts and indexes alone -/

theorem facts_congr (h : s'.ledger = s.ledger) : s'.facts = s.facts := congrArg Ledger.facts h

theorem nextId_congr (h : s'.ledger = s.ledger) : s'.nextId = s.nextId := congrArg Ledger.nextId h

theorem byTriple_congr (h : s'.ledger = s.ledger) : s'.byTriple = s.byTriple :=
  congrArg Ledger.byTriple h

theorem allFacts_congr (h : s'.ledger = s.ledger) : s'.allFacts = s.allFacts := by
  unfold allFacts
  rw [facts_congr h]

theorem fact?_congr (h : s'.ledger = s.ledger) (i : FactId) : s'.fact? i = s.fact? i := by
  unfold fact?
  rw [facts_congr h]

theorem ledger_modifyUsage (label : String) (u : Usage → Usage) :
    (s.modifyUsage label u).ledger = s.ledger := by
  unfold modifyUsage
  split <;> rfl

theorem ledger_introduce (label : String) : (s.introduce label now).ledger = s.ledger := by
  unfold introduce
  split <;> rfl

theorem ledger_assertConcept (label : String) :
    (s.assertConcept label now).ledger = s.ledger :=
  (ledger_modifyUsage label _).trans (ledger_introduce label)

theorem ledger_relationUsage (usage : Std.TreeMap String Usage) :
    ({ s with relationUsage := usage } : Store).ledger = s.ledger := rfl

theorem ledger_touch (t : Triple) : (s.touch t now).ledger = s.ledger := by
  unfold touch
  rw [ledger_relationUsage, ledger_assertConcept, ledger_assertConcept]

theorem ledger_ensureConcept {label : String} (h : s.ensureConcept label now = .ok s') :
    s'.ledger = s.ledger := by
  unfold ensureConcept at h
  split at h
  · cases h
  · cases h
    exact ledger_introduce label

theorem ledger_upsert {label : String} {ds : List Diamond}
    (h : s.upsert label ds now = .ok s') : s'.ledger = s.ledger := by
  unfold upsert at h
  split at h
  · cases h
  · dsimp only at h
    split at h
    · cases h
    · cases h
      rfl

theorem ledger_observe {label : String} {v : ConceptVector}
    (h : s.observe label v now = .ok s') : s'.ledger = s.ledger := by
  unfold observe at h
  dsimp only at h
  split at h
  · cases h
  · split at h
    · cases h
    · split at h
      · obtain ⟨d, -, h⟩ := Outcome.bind_eq_ok.mp h
        cases h
        rfl
      · cases h
        rfl

/-! ### Asserting -/

theorem ledger_put {x y : Store} (h : x.ledger = y.ledger) :
    (x.put f).ledger = (y.put f).ledger := by
  cases x
  cases y
  simp only [ledger, Ledger.mk.injEq] at h
  obtain ⟨rfl, rfl, rfl, rfl, rfl, rfl⟩ := h
  rfl

/-- The version of a triple that is stored next. -/
def nextVersion (s : Store) (t : Triple) (level : Existence) (metadata : Value) : Fact :=
  ⟨s.nextId, t, level, metadata⟩

theorem Coherent.above_nextVersion (h : Coherent s) (t : Triple) (level : Existence)
    (metadata : Value) (i : FactId) (hi : (s.fact? i).isSome) :
    i < (s.nextVersion t level metadata).id := by
  obtain ⟨g, hg⟩ := Option.isSome_iff_exists.mp hi
  exact h.below hg

/-- The counter of a coherent store stands at a free id. -/
theorem Coherent.free_nextId (h : Coherent s) : s.fact? s.nextId = none := by
  by_contra hne
  obtain ⟨f, hf⟩ := Option.ne_none_iff_exists'.mp hne
  exact UInt64.lt_irrefl _ (h.below hf)

theorem Indexed.addVersion_eq {r : FactId → FactId → Prop} (h : Indexed r s)
    (hfree : s.fact? s.nextId = none) (t : Triple) (level : Existence) (metadata : Value) :
    s.addVersion t level metadata now =
      ((s.receive (s.nextId + 1) (s.nextVersion t level metadata)).touch t now, .ok s.nextId) := by
  have hsort := h.sort_receive (n := s.nextId + 1) (f := s.nextVersion t level metadata) hfree
  have hok := congrArg Prod.snd hsort
  unfold addVersion Store.receive
  dsimp only [nextVersion] at hok ⊢
  split
  · rename_i sorted hs
    rw [hs]
  · rename_i left why hs
    rw [hs] at hok
    cases hok

theorem addVersion_eq (h : Coherent s) (t : Triple) (level : Existence) (metadata : Value) :
    s.addVersion t level metadata now =
      ((s.receive (s.nextId + 1) (s.nextVersion t level metadata)).touch t now, .ok s.nextId) :=
  h.indexed.addVersion_eq h.free_nextId t level metadata

/-- The counter moves on, even if the sort of the versions breaks off. -/
theorem nextId_addVersion (t : Triple) (level : Existence) (metadata : Value) (now : Millis) :
    (s.addVersion t level metadata now).1.nextId = s.nextId + 1 := by
  unfold addVersion
  dsimp only
  split
  · rename_i sorted _ hs
    have hsorted : sorted.nextId = s.nextId + 1 := (congrArg (fun r => r.1.nextId) hs).symm
    exact (nextId_congr (ledger_touch t)).trans hsorted
  · rename_i left _ hs
    exact (congrArg (fun r => r.1.nextId) hs).symm

/-- A new version that is answered has the id at the counter, and is stored unless that is taken. -/
theorem addVersion_cases (s : Store) (t : Triple) (level : Existence) (metadata : Value)
    (now : Millis) :
    (∃ why, (s.addVersion t level metadata now).2 = .error why) ∧
        (s.addVersion t level metadata now).1.facts = s.facts ∨
      (s.addVersion t level metadata now).2 = .ok s.nextId ∧
        (s.addVersion t level metadata now).1.facts =
          s.facts.insertIfNew s.nextId (s.nextVersion t level metadata) := by
  unfold addVersion
  dsimp only
  split
  · rename_i sorted _ hs
    have hsorted : sorted.facts = s.facts := (congrArg (fun r => r.1.facts) hs).symm
    refine .inr ⟨rfl, ?_⟩
    rw [facts_congr (ledger_touch t)]
    unfold put
    rw [hsorted]
    rfl
  · rename_i left why hs
    exact .inl ⟨⟨why, rfl⟩, (congrArg (fun r => r.1.facts) hs).symm⟩

theorem Coherent.addVersion (h : Coherent s) (t : Triple) (level : Existence) (metadata : Value)
    (hw : (s.addVersion t level metadata now).1.Unwrapped) :
    Coherent (s.addVersion t level metadata now).1 := by
  have hnew := h.above_nextVersion t level metadata
  rw [addVersion_eq h] at hw ⊢
  have hledger : ((s.receive (s.nextId + 1) (s.nextVersion t level metadata)).touch t now).ledger =
      (s.receive (s.nextId + 1) (s.nextVersion t level metadata)).ledger := ledger_touch t
  have hmem : s.nextVersion t level metadata ∈
      ((s.receive (s.nextId + 1) (s.nextVersion t level metadata)).touch t now).allFacts := by
    rw [allFacts_congr hledger]
    refine mem_allFacts.mpr ⟨s.nextId, ?_⟩
    rw [fact?_receive _ (fact?_eq_none_of_above hnew)]
    exact if_pos rfl
  have hlt : s.nextId < s.nextId + 1 := id_lt_succ (hw _ hmem)
  exact (h.receive hnew (UInt64.le_of_lt hlt) hlt).congr hledger

theorem Coherent.add (h : Coherent s) (t : Triple) (level : Existence) (metadata : Value)
    (hw : (s.add t level metadata now).1.Unwrapped) :
    Coherent (s.add t level metadata now).1 := by
  unfold Store.add at hw ⊢
  split
  · exact h
  · rename_i hfault
    rw [hfault] at hw
    split
    · exact h
    · rename_i g hbest
      rw [hbest] at hw
      dsimp only at hw ⊢
      split
      · exact h
      · rename_i hle
        rw [if_neg hle] at hw
        exact h.addVersion t level metadata hw
    · rename_i hbest
      rw [hbest] at hw
      exact h.addVersion t level metadata hw

/-! ### Loading -/

theorem ledger_load (f : Fact) :
    (s.load now f).ledger = (s.receive (max s.nextId (f.id + 1)) f).ledger := by
  unfold load receive
  exact ledger_put ((ledger_introduce f.object).trans (ledger_introduce f.subject))

theorem max_id_cases (i j : FactId) : max i j = i ∨ max i j = j := by
  rw [show max i j = if i ≤ j then j else i from rfl]
  split
  · exact .inr rfl
  · exact .inl rfl

theorem le_max_id (i j : FactId) : i ≤ max i j ∧ j ≤ max i j := by
  rw [show max i j = if i ≤ j then j else i from rfl]
  split
  · exact ⟨by assumption, UInt64.le_refl _⟩
  · rename_i hle
    exact ⟨UInt64.le_refl _, UInt64.le_of_lt (UInt64.not_le.mp hle)⟩

theorem Coherent.load (h : Coherent s) (hnew : ∀ i, (s.fact? i).isSome → i < f.id)
    (hsucc : f.id + 1 ≠ 0) : Coherent (s.load now f) := by
  obtain ⟨hle, hnext⟩ := le_max_id s.nextId (f.id + 1)
  exact (h.receive hnew hle (UInt64.lt_of_lt_of_le (id_lt_succ hsucc) hnext)).congr (ledger_load f)

theorem fact?_load (hf : s.fact? f.id = none) (i : FactId) :
    (s.load now f).fact? i = if i = f.id then some f else s.fact? i := by
  rw [fact?_congr (ledger_load f), fact?_receive _ hf]

/-- Facts with ascending ids, all above those of the store, are loaded in turn. -/
theorem coherent_foldl_load {fs : List Fact} (h : Coherent s)
    (hasc : fs.Pairwise fun a b => a.id < b.id)
    (hnew : ∀ f ∈ fs, ∀ i, (s.fact? i).isSome → i < f.id) (hsucc : ∀ f ∈ fs, f.id + 1 ≠ 0) :
    Coherent (fs.foldl (·.load now) s) := by
  induction fs generalizing s with
  | nil => exact h
  | cons f fs ih =>
    rw [List.pairwise_cons] at hasc
    have hf := hnew f List.mem_cons_self
    refine ih (h.load hf (hsucc f List.mem_cons_self)) hasc.2 ?_ ?_
    · intro g hg i hi
      rw [fact?_load (fact?_eq_none_of_above hf)] at hi
      split at hi
      · rename_i hif
        rw [hif]
        exact hasc.1 g hg
      · exact hnew g (List.mem_cons_of_mem _ hg) i hi
    · exact fun g hg => hsucc g (List.mem_cons_of_mem _ hg)

/-- Facts that are there, and facts with new ids, are there after loading. -/
theorem fact?_foldl_load {fs : List Fact} (hasc : fs.Pairwise fun a b => a.id < b.id)
    (hnew : ∀ f ∈ fs, s.fact? f.id = none) {f : Fact} (hf : f ∈ fs ∨ s.fact? f.id = some f) :
    (fs.foldl (·.load now) s).fact? f.id = some f := by
  induction fs generalizing s with
  | nil =>
    rcases hf with hf | hf
    · cases hf
    · exact hf
  | cons g gs ih =>
    rw [List.pairwise_cons] at hasc
    have hg := hnew g List.mem_cons_self
    refine ih hasc.2 ?_ ?_
    · intro e he
      rw [fact?_load hg, if_neg]
      · exact hnew e (List.mem_cons_of_mem _ he)
      · exact fun heq => UInt64.lt_irrefl _ (heq ▸ hasc.1 e he)
    · rcases hf with hf | hf
      · rcases List.mem_cons.mp hf with rfl | hf
        · right
          rw [fact?_load hg, if_pos rfl]
        · exact Or.inl hf
      · right
        rw [fact?_load hg, if_neg]
        · exact hf
        · intro heq
          rw [heq, hg] at hf
          cases hf

end Store

namespace Snapshot

theorem readRecord_id {taken : List FactId} {free free' : FactId} {v : Value} {f : Fact}
    (h : readRecord taken free v = .ok (f, free')) : f.id ∉ taken := by
  obtain ⟨-, -, -, -, -, -, hnew, -⟩ := readRecord_eq_ok.mp h
  exact hnew

/-- The ids of the facts of a snapshot are different. -/
theorem readRecords_nodup {index : Nat} {taken : List FactId} {free : FactId} {vs : List Value}
    {fs : List Fact} (h : readRecords index taken free vs = .ok fs) :
    (fs.map Fact.id).Nodup ∧ ∀ f ∈ fs, f.id ∉ taken := by
  induction vs generalizing index taken free fs with
  | nil =>
    cases h
    simp
  | cons v vs ih =>
    unfold readRecords at h
    split at h
    · cases h
    · rename_i f free' hv
      obtain ⟨gs, hgs, h⟩ := Outcome.bind_eq_ok.mp h
      cases h
      obtain ⟨hnodup, htaken⟩ := ih hgs
      refine ⟨?_, ?_⟩
      · rw [List.map_cons, List.nodup_cons]
        refine ⟨?_, hnodup⟩
        intro hmem
        obtain ⟨g, hg, hgid⟩ := List.mem_map.mp hmem
        exact htaken g hg (hgid ▸ List.mem_cons_self)
      · intro g hg
        rcases List.mem_cons.mp hg with rfl | hg
        · exact readRecord_id hv
        · exact fun hmem => htaken g hg (List.mem_cons_of_mem _ hmem)

theorem read_nodup {v : Value} {fs : List Fact} (h : read v = .ok fs) : (fs.map Fact.id).Nodup := by
  unfold read at h
  split at h
  · exact (readRecords_nodup h).1
  · cases h

end Snapshot

namespace Store

variable {s s' : Store} {now : Millis} {ok : Store → Prop}

/-- A store without facts and indexes, with the counter at its start. -/
def bare (s : Store) : Store :=
  { s with nextId := 1, facts := ∅, bySubject := ∅, byPair := ∅, byObject := ∅, byTriple := ∅ }

/-- Facts in ascending order of their ids. -/
def ascending (fs : List Fact) : List Fact := fs.mergeSort fun a b => decide (a.id ≤ b.id)

theorem ascending_pairwise {fs : List Fact} (h : (fs.map Fact.id).Nodup) :
    (ascending fs).Pairwise fun a b => a.id < b.id := by
  have htrans (a b c : Fact) (hab : decide (a.id ≤ b.id) = true)
      (hbc : decide (b.id ≤ c.id) = true) : decide (a.id ≤ c.id) = true :=
    decide_eq_true (UInt64.le_trans (of_decide_eq_true hab) (of_decide_eq_true hbc))
  have htotal (a b : Fact) : (decide (a.id ≤ b.id) || decide (b.id ≤ a.id)) = true := by
    simp [UInt64.le_total a.id b.id]
  have hs := List.pairwise_mergeSort htrans htotal fs
  have hn : (ascending fs).Pairwise fun a b => a.id ≠ b.id := by
    refine List.pairwise_map.mp (?_ : ((ascending fs).map Fact.id).Nodup)
    exact ((List.mergeSort_perm fs _).map Fact.id).nodup_iff.mpr h
  refine (List.Pairwise.and hs hn).imp fun {a b} hab => ?_
  exact UInt64.lt_of_le_of_ne (of_decide_eq_true hab.1) hab.2

theorem ascending_eq_self {fs : List Fact} (h : fs.Pairwise fun a b => a.id < b.id) :
    ascending fs = fs := by
  refine List.mergeSort_of_pairwise (h.imp fun {a b} hab => ?_)
  exact decide_eq_true (UInt64.le_of_lt hab)

/-- A snapshot whose records are in order is loaded record by record. -/
theorem restore_of_read {snapshot : Value} {fs : List Fact} (h : Snapshot.read snapshot = .ok fs)
    (hasc : fs.Pairwise fun a b => a.id < b.id) :
    s.restore snapshot now = .ok (fs.foldl (·.load now) s.bare) := by
  unfold restore
  rw [h]
  show Except.ok ((ascending fs).foldl (·.load now) s.bare) = _
  rw [ascending_eq_self hasc]

theorem restore_eq_ok {snapshot : Value} (h : s.restore snapshot now = .ok s') :
    ∃ fs, Snapshot.read snapshot = .ok fs ∧ s' = (ascending fs).foldl (·.load now) s.bare := by
  obtain ⟨fs, hfs, h⟩ := Outcome.bind_eq_ok.mp h
  cases h
  exact ⟨fs, hfs, rfl⟩

theorem coherent_bare : Coherent s.bare := coherent_of_empty rfl

theorem fact?_bare (i : FactId) : s.bare.fact? i = none := by
  unfold fact? bare
  simp

theorem coherent_restore {snapshot : Value} (h : s.restore snapshot now = .ok s')
    (hw : s'.Unwrapped) : Coherent s' := by
  obtain ⟨fs, hfs, rfl⟩ := restore_eq_ok h
  have hasc := ascending_pairwise (Snapshot.read_nodup hfs)
  refine coherent_foldl_load coherent_bare hasc ?_ ?_
  · intro f _ i hi
    rw [fact?_bare] at hi
    cases hi
  · intro f hf
    exact hw f (mem_allFacts.mpr
      ⟨f.id, fact?_foldl_load hasc (fun g _ => fact?_bare g.id) (Or.inl hf)⟩)

/-! ### Runs -/

/-- What a command can do to the facts and indexes of a store. -/
inductive Changes (s : Store) : Store → Prop
  | nothing {s' : Store} : s'.ledger = s.ledger → Changes s s'
  | added (t : Triple) (level : Existence) (metadata : Value) (now : Millis) :
      Changes s (s.add t level metadata now).1
  | upgraded (id : FactId) (level : Existence) : Changes s (s.upgrade id level).1
  | removed (id : FactId) : Changes s (s.remove id).1
  | dropped (labels : List String) : Changes s (s.dropAll labels).1
  | restored {s' : Store} {snapshot : Value} {now : Millis} :
      s.restore snapshot now = .ok s' → Changes s s'

theorem changes_orKept {r : Except Fault Store} (h : ∀ s', r = .ok s' → Changes s s') :
    Changes s (s.orKept r) := by
  cases r with
  | ok s' => exact h s' rfl
  | error e => exact .nothing rfl

theorem changes_forget {r : ForgetRequest} {done : Forgotten}
    (h : s.forget r now = .ok (s', done)) : Changes s s' := by
  obtain ⟨targets, -, h⟩ := Outcome.bind_eq_ok.mp h
  dsimp only at h
  split at h
  · cases h
    exact .nothing rfl
  · cases h
    exact .dropped _

theorem changes_after (s : Store) (c : Command) : Changes s (s.after c) := by
  cases c with
  | ensure label now => exact changes_orKept fun s' hs => .nothing (ledger_ensureConcept hs)
  | query label now => exact .nothing (ledger_modifyUsage label _)
  | upsert label diamonds now => exact changes_orKept fun s' hs => .nothing (ledger_upsert hs)
  | observe label v now => exact changes_orKept fun s' hs => .nothing (ledger_observe hs)
  | boost label amount now => exact .nothing (ledger_modifyUsage label _)
  | protect label => exact .nothing rfl
  | unprotect label => exact .nothing rfl
  | add t level metadata now => exact .added t level metadata now
  | upgrade id level => exact .upgraded id level
  | remove id => exact .removed id
  | forget r now =>
    refine changes_orKept fun s' hs => ?_
    obtain ⟨⟨s'', done⟩, hf, rfl⟩ := Outcome.map_eq_ok.mp hs
    exact changes_forget hf
  | restore snapshot now => exact changes_orKept fun s' hs => .restored hs

/-- **A change that does not make the counter wrap keeps a store coherent.** -/
theorem Coherent.after (h : Coherent s) (hc : Changes s s') (hw : s'.Unwrapped) :
    Coherent s' := by
  cases hc with
  | nothing he => exact h.congr he
  | added t level metadata now => exact h.add t level metadata hw
  | upgraded id level => exact h.upgrade id level
  | removed id => exact h.remove id
  | dropped labels => exact h.dropAll labels
  | restored hs => exact coherent_restore hs hw

theorem coherent_make {n : Nat} (h : Store.make n = .ok s) : Coherent s := by
  unfold Store.make at h
  split at h
  · cases h
  · cases h
    exact coherent_of_empty rfl

/-- **Stores reached without a wrap of the counter are coherent.** -/
theorem coherent_of_reached (h : Reached Unwrapped s) : Coherent s := by
  induction h with
  | make hs => exact coherent_make hs
  | step c _ hw ih => exact ih.after (changes_after _ c) hw

end Store

end KnowledgeBase
