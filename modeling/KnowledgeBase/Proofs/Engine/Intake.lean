import KnowledgeBase.Engine
import KnowledgeBase.Proofs.Store.Ascent

/-!
# Taking facts in

An engine takes facts in through its store, and does nothing besides but to give levels to them.

* `ingest_eq`, `ingestAll_frame`: the answer is the store's, and only store and levels change;
* `ingestAll_induction`: what every assertion keeps of a store is kept by a list of them;
* `Store.Coherent.add_above`: a triple that comes in above all its versions;
* `ingestAll_eq`: a list of such triples is stored in a row, under ids that are counted up.
-/

namespace KnowledgeBase

namespace Store

variable {s : Store} {t : Triple} {level : Existence} {metadata : Value}

/-- A triple that stands above all versions that share its key is stored under the next id. -/
theorem Coherent.add_above (h : Coherent s) (hvalid : assertionFault? t level metadata = none)
    (habove : ∀ f ∈ s.allFacts, f.triple.key = t.key → f.existence < level) (now : Millis) :
    (s.add t level metadata now).2 = .ok s.nextId ∧
      (s.add t level metadata now).1.allFacts = s.allFacts ++ [s.nextVersion t level metadata] ∧
      (s.add t level metadata now).1.nextId = s.nextId + 1 := by
  rcases h.indexed.add_cases hvalid now with ⟨f, hf, hkey, -, hle, -⟩ | ⟨-, hadd⟩
  · exact absurd (habove f hf hkey) (not_lt.mpr hle)
  · rw [hadd]
    refine ⟨?_, ?_, nextId_addVersion t level metadata now⟩
    · rw [addVersion_eq h]
    · rw [addVersion_eq h]
      exact h.allFacts_newVersion t level metadata now

end Store

namespace Engine

open Store (Coherent WellKept)

variable {e : Engine} {t : Triple} {level : Existence} {metadata : Value} {now : Millis}
  {fs : List Fact}

/-! ### One fact -/

/-- Giving a fact its level changes levels only. -/
theorem levelFact_eq (e : Engine) (id : FactId) (t : Triple) :
    ∃ levels, e.levelFact id t = { e with levels } := by
  unfold levelFact
  split
  · exact ⟨_, rfl⟩
  · exact ⟨_, rfl⟩

theorem ingest_eq (e : Engine) (t : Triple) (level : Existence) (metadata : Value)
    (now : Millis) : ∃ levels, e.ingest t level metadata now =
      ({ e with store := (e.store.add t level metadata now).1, levels },
        (e.store.add t level metadata now).2) := by
  unfold ingest
  generalize e.store.add t level metadata now = out
  obtain ⟨store, answer⟩ := out
  cases answer with
  | ok id =>
    obtain ⟨levels, hlevels⟩ := levelFact_eq { e with store } id t
    refine ⟨levels, ?_⟩
    dsimp only
    rw [hlevels]
  | error why => exact ⟨e.levels, rfl⟩

theorem store_ingest (e : Engine) (t : Triple) (level : Existence) (metadata : Value)
    (now : Millis) :
    (e.ingest t level metadata now).1.store = (e.store.add t level metadata now).1 := by
  obtain ⟨levels, hingest⟩ := e.ingest_eq t level metadata now
  rw [hingest]

/-! ### A list of facts -/

theorem ingestAll_of_ok {e' : Engine} {f : Fact} {id : FactId}
    (h : e.ingest f.triple Existence.demonstrated f.metadata now = (e', .ok id))
    (fs : List Fact) : e.ingestAll now (f :: fs) =
      ((e'.ingestAll now fs).1, (e'.ingestAll now fs).2.map ({ f with id } :: ·)) := by
  rw [ingestAll, h]

theorem ingestAll_of_error {e' : Engine} {f : Fact} {why : Fault}
    (h : e.ingest f.triple Existence.demonstrated f.metadata now = (e', .error why))
    (fs : List Fact) : e.ingestAll now (f :: fs) = (e', .error why) := by
  rw [ingestAll, h]

/-- What holds of an engine and is kept whenever a fact is taken in holds after any number of
them. -/
theorem ingestAll_induction {P : Engine → Prop}
    (hstep : ∀ e t level metadata, P e → P (e.ingest t level metadata now).1) (h : P e)
    (fs : List Fact) : P (e.ingestAll now fs).1 := by
  induction fs generalizing e with
  | nil => exact h
  | cons f fs ih =>
    have hnext := hstep e f.triple Existence.demonstrated f.metadata h
    cases hingest : e.ingest f.triple Existence.demonstrated f.metadata now with
    | mk e' answer =>
      rw [hingest] at hnext
      cases answer with
      | ok id =>
        rw [ingestAll_of_ok hingest]
        exact ih hnext
      | error why =>
        rw [ingestAll_of_error hingest]
        exact hnext

/-- Nothing but the store and the levels changes. -/
theorem ingestAll_frame (e : Engine) (now : Millis) (fs : List Fact) :
    ∃ store levels, (e.ingestAll now fs).1 = { e with store, levels } := by
  refine ingestAll_induction (P := fun e' => ∃ store levels, e' = { e with store, levels })
    ?_ ⟨e.store, e.levels, rfl⟩ fs
  rintro e' t level metadata ⟨store, levels, rfl⟩
  obtain ⟨levels', hingest⟩ := Engine.ingest_eq { e with store, levels } t level metadata now
  exact ⟨_, levels', by rw [hingest]⟩

/-- No id is lost, and the store stays well kept. -/
theorem grown_ingestAll (h : WellKept e.store) (now : Millis) (fs : List Fact) :
    WellKept (e.ingestAll now fs).1.store ∧
      ∀ i, (e.store.fact? i).isSome → ((e.ingestAll now fs).1.store.fact? i).isSome := by
  refine ingestAll_induction (P := fun e' => WellKept e'.store ∧
    ∀ i, (e.store.fact? i).isSome → (e'.store.fact? i).isSome) ?_ ⟨h, fun _ hi => hi⟩ fs
  rintro e' t level metadata ⟨hkept, hgrown⟩
  rw [store_ingest]
  exact ⟨hkept.add t level metadata, fun i hi =>
    Store.isSome_add t level metadata now (hgrown i hi)⟩

/-- A list of facts under ids that are counted up. -/
def numbered (next : FactId) : List Fact → List Fact
  | [] => []
  | f :: fs => { f with id := next } :: numbered (next + 1) fs

@[simp] theorem map_triple_numbered (next : FactId) (fs : List Fact) :
    (numbered next fs).map Fact.triple = fs.map Fact.triple := by
  induction fs generalizing next with
  | nil => rfl
  | cons f fs ih => exact congrArg (f.triple :: ·) (ih (next + 1))

/-- Facts at the demonstrated level, of which each may be asserted, no two share a key, and each
stands above all stored facts of its key. -/
structure Incoming (s : Store) (fs : List Fact) : Prop where
  demonstrated : ∀ f ∈ fs, f.existence = Existence.demonstrated
  valid : ∀ f ∈ fs, Store.assertionFault? f.triple Existence.demonstrated f.metadata = none
  above : ∀ f ∈ fs, ∀ g ∈ s.allFacts, g.triple.key = f.triple.key →
    g.existence < Existence.demonstrated
  apart : fs.Pairwise fun f g => f.triple.key ≠ g.triple.key

/-- Once the first of them is stored, the others can still come in. -/
theorem Incoming.tail {s s' : Store} {f g : Fact} (h : Incoming s (f :: fs))
    (hall : s'.allFacts = s.allFacts ++ [g]) (hg : g.triple = f.triple) : Incoming s' fs := by
  obtain ⟨hfirst, happart⟩ := List.pairwise_cons.mp h.apart
  refine ⟨fun d hd => h.demonstrated d (List.mem_cons_of_mem f hd),
    fun d hd => h.valid d (List.mem_cons_of_mem f hd), fun d hd k hk hkey => ?_, happart⟩
  rw [hall] at hk
  rcases List.mem_append.mp hk with hk | hk
  · exact h.above d (List.mem_cons_of_mem f hd) k hk hkey
  · rw [List.mem_singleton.mp hk, hg] at hkey
    exact absurd hkey (hfirst d hd)

/-- All of them are stored, in a row at the end. -/
theorem ingestAll_eq (hs : Coherent e.store) (hk : WellKept e.store) (h : Incoming e.store fs)
    (hw : (e.ingestAll now fs).1.store.Unwrapped) :
    (e.ingestAll now fs).2 = .ok (numbered e.store.nextId fs) ∧
      (e.ingestAll now fs).1.store.allFacts = e.store.allFacts ++ numbered e.store.nextId fs ∧
      Coherent (e.ingestAll now fs).1.store := by
  induction fs generalizing e with
  | nil => exact ⟨rfl, (List.append_nil _).symm, hs⟩
  | cons f fs ih =>
    obtain ⟨hanswer, hall, hnext⟩ := hs.add_above (h.valid f List.mem_cons_self)
      (h.above f List.mem_cons_self) now
    obtain ⟨levels, hingest⟩ := e.ingest_eq f.triple Existence.demonstrated f.metadata now
    rw [hanswer] at hingest
    rw [ingestAll_of_ok hingest] at hw ⊢
    -- the engine after the first fact, to which the hypothesis of the induction is applied
    generalize he : ({ e with
      store := (e.store.add f.triple Existence.demonstrated f.metadata now).1, levels } : Engine) =
        e' at hw ⊢
    have hstore : e'.store = (e.store.add f.triple Existence.demonstrated f.metadata now).1 := by
      rw [← he]
    have hfact : e.store.nextVersion f.triple Existence.demonstrated f.metadata =
        { f with id := e.store.nextId } := by
      rw [← h.demonstrated f List.mem_cons_self]
      rfl
    rw [← hstore, hfact] at hall
    rw [← hstore] at hnext
    have hk' : WellKept e'.store := hstore ▸ hk.add f.triple Existence.demonstrated f.metadata
    have hw' : e'.store.Unwrapped := by
      obtain ⟨hkept, hgrown⟩ := grown_ingestAll hk' now fs
      exact hk'.unwrapped_of_grown hkept hgrown hw
    have hs' : Coherent e'.store := by
      rw [hstore] at hw' ⊢
      exact hs.add f.triple Existence.demonstrated f.metadata hw'
    obtain ⟨hrest, hstored, hcoherent⟩ := ih hs' hk' (h.tail hall rfl) hw
    refine ⟨?_, ?_, hcoherent⟩
    · dsimp only
      rw [hrest, hnext]
      rfl
    · dsimp only
      rw [hstored, hall, hnext, List.append_assoc]
      rfl

end Engine

end KnowledgeBase
