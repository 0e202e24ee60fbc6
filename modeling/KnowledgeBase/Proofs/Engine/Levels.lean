import KnowledgeBase.Proofs.Engine.Intake
import KnowledgeBase.Proofs.Store.Snapshots
import Mathlib.Data.List.Induction

/-!
# Levels that are rebuilt

Levels depend on the order in which facts came.  An engine gives them as facts come in, and gives
them anew, in the order of ids, when it is restored; the two agree, because a fact that changes
nothing gets no level, a new one gets an id above all others, and rules have no part in the levels
of facts and concepts.

* `Levels.ofFacts`, `Levels.withoutRules`: levels from scratch, and levels apart from rules;
* `Action`, `Arises`: the engines that actions lead to from a new one, through unwrapped stores;
* `Leveled`: the levels are those of the facts in the order of their ids, which every action keeps;
* `levels_rebuilt`: every fact has a level, and any engine that is restored from a snapshot of this
  one has the same levels.
-/

namespace KnowledgeBase

/-! ### Levels and rules -/

namespace Levels

variable {l : Levels} {id i : FactId} {t : Triple} {name : String} {level : Int}

/-- The levels of facts, given in turn. -/
def ofFacts (fs : List Fact) : Levels := fs.foldl (fun l f => l.addFact f.id f.triple) {}

/-- The levels of facts and concepts alone. -/
def withoutRules (l : Levels) : Levels := { l with rules := ∅ }

theorem withoutRules_register :
    (l.register name level).withoutRules = l.withoutRules.register name level := by
  unfold register
  rw [show l.withoutRules.raises name level = l.raises name level from rfl]
  split <;> rfl

theorem withoutRules_introduce :
    (l.introduce name level).withoutRules = l.withoutRules.introduce name level := by
  unfold introduce
  rw [show l.withoutRules.knows name = l.knows name from rfl]
  split
  · rfl
  · exact withoutRules_register

theorem withoutRules_addFact : (l.addFact id t).withoutRules = l.withoutRules.addFact id t := by
  unfold addFact
  simp only [withoutRules_introduce]
  rfl

theorem withoutRules_foldl_addFact (fs : List Fact) :
    (fs.foldl (fun l f => l.addFact f.id f.triple) l).withoutRules =
      fs.foldl (fun l f => l.addFact f.id f.triple) l.withoutRules := by
  induction fs generalizing l with
  | nil => rfl
  | cons f fs ih =>
    rw [List.foldl_cons, List.foldl_cons, ih, withoutRules_addFact]

@[simp] theorem withoutRules_ofFacts (fs : List Fact) :
    (ofFacts fs).withoutRules = ofFacts fs := withoutRules_foldl_addFact fs

/-- Rules have no part in the levels of facts and concepts. -/
theorem withoutRules_foldl_addRule (rs : List Rule) :
    (rs.foldl addRule l).withoutRules = l.withoutRules := by
  induction rs generalizing l with
  | nil => rfl
  | cons r rs ih => exact ih

theorem ofFacts_concat (fs : List Fact) (f : Fact) :
    ofFacts (fs ++ [f]) = (ofFacts fs).addFact f.id f.triple := List.foldl_append

/-! ### Facts that have a level -/

theorem facts_introduce : (l.introduce name level).facts = l.facts := by
  unfold introduce register
  split
  · rfl
  · split <;> rfl

theorem factLevel?_addFact : (l.addFact id t).factLevel? i =
    if id = i then some (l.tripleLevel t) else l.factLevel? i := by
  unfold factLevel? addFact
  simp only [facts_introduce]
  rw [Std.TreeMap.getElem?_insert]
  simp only [Std.compare_eq_iff_eq]

theorem isSome_factLevel?_ofFacts {fs : List Fact} :
    ((ofFacts fs).factLevel? i).isSome ↔ ∃ f ∈ fs, f.id = i := by
  induction fs using List.reverseRecOn with
  | nil => simp [ofFacts, factLevel?]
  | append_singleton fs f ih =>
    rw [ofFacts_concat, factLevel?_addFact]
    by_cases hid : f.id = i
    · rw [if_pos hid]
      exact ⟨fun _ => ⟨f, by simp, hid⟩, fun _ => rfl⟩
    · rw [if_neg hid, ih]
      constructor
      · rintro ⟨g, hg, hgi⟩
        exact ⟨g, List.mem_append_left _ hg, hgi⟩
      · rintro ⟨g, hg, hgi⟩
        rcases List.mem_append.mp hg with hg | hg
        · exact ⟨g, hg, hgi⟩
        · rw [List.mem_singleton.mp hg] at hgi
          exact absurd hgi hid

end Levels

/-! ### Actions -/

/-- A change of an engine, with the time of the clock where it counts. -/
inductive Action where
  | ingest (t : Triple) (level : Existence) (metadata : Value) (now : Millis)
  | addRules (batch : List Statement)
  | saturate (now : Millis)
  | observe (label : String) (v : ConceptVector) (now : Millis)
  | restore (snapshot : Value) (now : Millis)
  | importState (state : Value) (now : Millis)
  | relate (r : Relations)

namespace Engine

open Store (Unwrapped Coherent WellKept)

/-- A refused change leaves the engine as it was. -/
def orKept (e : Engine) (r : Except Fault Engine) : Engine :=
  match r with
  | .ok e' => e'
  | .error _ => e

/-- The engine that an action leaves behind. -/
def after (e : Engine) : Action → Engine
  | .ingest t level metadata now => (e.ingest t level metadata now).1
  | .addRules batch => e.orKept ((e.addRules batch).map Prod.fst)
  | .saturate now => (e.saturate now).1
  | .observe label v now => { e with store := e.store.after (.observe label v now) }
  | .restore snapshot now => e.orKept (e.restore snapshot now)
  | .importState state now => e.orKept (e.importState state now)
  | .relate r => { e with relations := r }

/-- A new store and no levels but those of the primitives, under whatever configuration. -/
structure Fresh (e : Engine) : Prop where
  store : ∃ dimensions, Store.make dimensions = .ok e.store
  levels : e.levels = {}

/-- The engines that actions lead to from a new one, the counter having wrapped nowhere. -/
inductive Arises : Engine → Prop
  | fresh {e : Engine} : e.Fresh → Arises e
  | act {e : Engine} (a : Action) : Arises e → (e.after a).store.Unwrapped → Arises (e.after a)

variable {e e' : Engine} {t : Triple} {level : Existence} {metadata : Value} {now : Millis}

/-- The store is one that commands lead to, and the levels are those of its facts, in the order of
their ids. -/
structure Leveled (e : Engine) : Prop where
  store : Store.Reached Unwrapped e.store
  inOrder : e.levels.withoutRules = .ofFacts e.store.allFacts

theorem Leveled.isSome_factLevel? (h : Leveled e) {i : FactId} :
    (e.levels.factLevel? i).isSome ↔ ∃ f ∈ e.store.allFacts, f.id = i := by
  rw [← Levels.isSome_factLevel?_ofFacts, ← h.inOrder]
  exact Iff.rfl

/-! ### One action -/

theorem fresh_make {config : Config} (h : Engine.make config = .ok e) : e.Fresh := by
  unfold Engine.make at h
  split at h
  · cases h
  · obtain ⟨algebra, -, h⟩ := Outcome.bind_eq_ok.mp h
    obtain ⟨store, hstore, h⟩ := Outcome.bind_eq_ok.mp h
    cases h
    exact ⟨⟨_, hstore⟩, rfl⟩

theorem Fresh.leveled (h : e.Fresh) : Leveled e := by
  obtain ⟨n, hstore⟩ := h.store
  refine ⟨.make hstore, ?_⟩
  rw [h.levels, Store.allFacts_make hstore]
  rfl

/-- A fact that is taken in gets its level exactly if it is stored. -/
theorem Leveled.inOrder_ingest (h : Leveled e) (t : Triple) (level : Existence) (metadata : Value)
    (now : Millis) : (e.ingest t level metadata now).1.levels.withoutRules =
      .ofFacts (e.ingest t level metadata now).1.store.allFacts := by
  have hs : Coherent e.store := Store.coherent_of_reached h.store
  unfold Engine.ingest
  cases hvalid : Store.assertionFault? t level metadata with
  | some why =>
    have hadd : e.store.add t level metadata now = (e.store, refuse why) := by
      unfold Store.add
      rw [hvalid]
    rw [hadd]
    exact h.inOrder
  | none =>
    rcases hs.add_cases hvalid now with ⟨f, hf, -, -, hadd⟩ | hadd
    · have hleveled : (e.levels.factLevel? f.id).isSome = true :=
        h.isSome_factLevel?.mpr ⟨f, hf, rfl⟩
      rw [hadd]
      dsimp only
      unfold levelFact
      rw [if_pos hleveled]
      exact h.inOrder
    · have hnew : ¬ (e.levels.factLevel? e.store.nextId).isSome = true := by
        rw [h.isSome_factLevel?]
        rintro ⟨f, hf, hid⟩
        have hstored := hs.fact?_id hf
        rw [hid, hs.free_nextId] at hstored
        cases hstored
      rw [hadd]
      dsimp only
      unfold levelFact
      rw [if_neg hnew]
      show (e.levels.addFact e.store.nextId t).withoutRules = .ofFacts (Store.allFacts _)
      rw [hs.allFacts_newVersion, Levels.withoutRules_addFact, h.inOrder, Levels.ofFacts_concat]
      rfl

theorem Leveled.ingest (h : Leveled e)
    (hw : (e.ingest t level metadata now).1.store.Unwrapped) :
    Leveled (e.ingest t level metadata now).1 := by
  refine ⟨?_, h.inOrder_ingest t level metadata now⟩
  rw [store_ingest] at hw ⊢
  exact .step (.add t level metadata now) h.store hw

/-- Saturation is a run of facts that are taken in.  The stores on the way have not wrapped if the
last one has not, since no id is lost. -/
theorem Leveled.saturate (h : Leveled e) (hw : (e.saturate now).1.store.Unwrapped) :
    Leveled (e.saturate now).1 := by
  refine (ingestAll_induction (P := fun e' => WellKept e'.store ∧ (e'.store.Unwrapped → Leveled e'))
    ?_ ⟨Store.wellKept_of_reached h.store, fun _ => h⟩ _).2 hw
  rintro e' t level metadata ⟨hkept, hleveled⟩
  have hkept' : WellKept (e'.ingest t level metadata now).1.store := by
    rw [store_ingest]
    exact hkept.add t level metadata
  refine ⟨hkept', fun hw' => (hleveled ?_).ingest hw'⟩
  refine hkept.unwrapped_of_grown hkept' (fun i hi => ?_) hw'
  rw [store_ingest]
  exact Store.isSome_add t level metadata now hi

theorem withoutRules_levelsOf (s : Store) (rs : List Rule) :
    (levelsOf s rs).withoutRules = .ofFacts s.allFacts := by
  unfold levelsOf
  rw [Levels.withoutRules_foldl_addRule]
  exact Levels.withoutRules_ofFacts _

theorem restore_eq_ok {snapshot : Value} (h : e.restore snapshot now = .ok e') :
    ∃ store, e.store.restore snapshot now = .ok store ∧
      e' = { e with store, levels := levelsOf store e.book.rules } := by
  obtain ⟨store, hstore, h⟩ := Outcome.bind_eq_ok.mp h
  cases h
  exact ⟨store, hstore, rfl⟩

theorem Leveled.restore {snapshot : Value} (h : Leveled e)
    (hr : e.restore snapshot now = .ok e') (hw : e'.store.Unwrapped) : Leveled e' := by
  obtain ⟨store, hstore, rfl⟩ := restore_eq_ok hr
  have hafter : e.store.after (.restore snapshot now) = store := by
    unfold Store.after
    dsimp only
    rw [hstore]
    rfl
  refine ⟨?_, withoutRules_levelsOf store e.book.rules⟩
  show Store.Reached Unwrapped store
  rw [← hafter] at hw ⊢
  exact .step _ h.store hw

theorem Leveled.importState {state : Value} (h : Leveled e)
    (hr : e.importState state now = .ok e') (hw : e'.store.Unwrapped) : Leveled e' := by
  unfold Engine.importState at hr
  split at hr
  · exact h.restore hr hw
  · cases hr

theorem Leveled.addRules {batch : List Statement} {added : List Rule} (h : Leveled e)
    (hr : e.addRules batch = .ok (e', added)) : Leveled e' := by
  obtain ⟨⟨book, new⟩, -, hr⟩ := Outcome.bind_eq_ok.mp hr
  cases hr
  exact ⟨h.store, (Levels.withoutRules_foldl_addRule _).trans h.inOrder⟩

theorem Leveled.observe {label : String} {v : ConceptVector} (h : Leveled e)
    (hw : (e.store.after (.observe label v now)).Unwrapped) :
    Leveled { e with store := e.store.after (.observe label v now) } := by
  refine ⟨.step _ h.store hw, ?_⟩
  have hledger : (e.store.after (.observe label v now)).ledger = e.store.ledger :=
    Store.ledger_orKept fun _ hs => Store.ledger_observe hs
  show e.levels.withoutRules = _
  rw [Store.allFacts_congr hledger]
  exact h.inOrder

/-! ### Runs -/

theorem Leveled.orKept {r : Except Fault Engine} (h : Leveled e)
    (hr : ∀ e', r = .ok e' → e'.store.Unwrapped → Leveled e')
    (hw : (e.orKept r).store.Unwrapped) : Leveled (e.orKept r) := by
  cases r with
  | ok e' => exact hr e' rfl hw
  | error why => exact h

/-- **Every action keeps the levels those of the facts in order.** -/
theorem Leveled.after (h : Leveled e) (a : Action) (hw : (e.after a).store.Unwrapped) :
    Leveled (e.after a) := by
  cases a with
  | ingest t level metadata now => exact h.ingest hw
  | addRules batch =>
    refine h.orKept (fun e' hr _ => ?_) hw
    obtain ⟨⟨e'', added⟩, hadd, rfl⟩ := Outcome.map_eq_ok.mp hr
    exact h.addRules hadd
  | saturate now => exact h.saturate hw
  | observe label v now => exact h.observe hw
  | restore snapshot now => exact h.orKept (fun _ hr hw' => h.restore hr hw') hw
  | importState state now => exact h.orKept (fun _ hr hw' => h.importState hr hw') hw
  | relate r => exact ⟨h.store, h.inOrder⟩

theorem leveled_of_arises (h : Arises e) : Leveled e := by
  induction h with
  | fresh hfresh => exact hfresh.leveled
  | act a _ hw ih => exact ih.after a hw

/-- The same levels of facts and concepts. -/
structure SameLevels (l l' : Levels) : Prop where
  fact : ∀ id, l.factLevel? id = l'.factLevel? id
  concept : ∀ name, l.conceptLevel name = l'.conceptLevel name
  highest : l.highest = l'.highest

theorem sameLevels_of_withoutRules {l l' : Levels} (h : l.withoutRules = l'.withoutRules) :
    SameLevels l l' where
  fact id := congrArg (·.factLevel? id) h
  concept name := congrArg (·.conceptLevel name) h
  highest := (congrArg Levels.highest h : l.withoutRules.highest = l'.withoutRules.highest)

theorem ofFacts_readBack (fs : List Fact) :
    Levels.ofFacts (fs.map Snapshot.readBack) = .ofFacts fs := List.foldl_map

/-- **Levels that are rebuilt are those that were given as facts came in.**  In every engine that
actions lead to each fact has a level, and whatever engine takes in a snapshot of it, a new one
above all, has the same levels. -/
theorem levels_rebuilt (h : Arises e) :
    (∀ f ∈ e.store.allFacts, (e.levels.factLevel? f.id).isSome = true) ∧
      ∀ (e₀ : Engine) (now : Millis), ∃ e', e₀.restore e.store.snapshot now = .ok e' ∧
        SameLevels e'.levels e.levels := by
  have hleveled := leveled_of_arises h
  refine ⟨fun f hf => hleveled.isSome_factLevel?.mpr ⟨f, hf, rfl⟩, fun e₀ now => ?_⟩
  obtain ⟨store, hstore, hall⟩ :=
    (Store.wellKept_of_reached hleveled.store).restore_snapshot e₀.store now
  refine ⟨{ e₀ with store, levels := levelsOf store e₀.book.rules }, ?_, ?_⟩
  · unfold Engine.restore
    rw [hstore]
    rfl
  · refine sameLevels_of_withoutRules ?_
    show (levelsOf store e₀.book.rules).withoutRules = _
    rw [withoutRules_levelsOf, hall, ofFacts_readBack]
    exact hleveled.inOrder.symm

/-- What follows from two facts is one level above them; an assertion that is not new brings
nothing. -/
def grown : Engine :=
  let barks : Formula := .implies (.leaf ⟨"isA", [.hole "x", .ident "Dog"]⟩)
    (.leaf ⟨"can", [.hole "x", .ident "Bark"]⟩)
  let e : Engine := { config := {}, store := { dimensions := 2 }, book := {} }
  let e := e.after (.ingest ⟨"Dog", "IS_A", "Mammal"⟩ Existence.certain (.record []) 5)
  let e := e.after (.ingest ⟨"mammal ", "IS_A", "Animal"⟩ Existence.certain (.record []) 6)
  let e := e.after (.ingest ⟨"Dog", "IS_A", "Mammal"⟩ Existence.possible (.record []) 7)
  let e := e.after (.addRules [⟨"barks", some barks⟩])
  e.after (.saturate 8)

theorem levels_rebuilt_grown : Arises grown ∧
    (∀ f ∈ grown.store.allFacts, (grown.levels.factLevel? f.id).isSome = true) ∧
    (∃ e', ({ config := {}, store := { dimensions := 3 }, book := {} } : Engine).restore
        grown.store.snapshot 10 = .ok e' ∧ SameLevels e'.levels grown.levels) ∧
    grown.levels.factLevel? 3 = some 2 ∧ grown.book.rules.length = 1 := by
  have hgrown : Arises grown := by
    unfold grown
    refine .act _ (.act _ (.act _ (.act _ (.act _ (.fresh ⟨⟨2, rfl⟩, rfl⟩)
      ?_) ?_) ?_) ?_) ?_
    all_goals decide +kernel
  obtain ⟨hleveled, hrestored⟩ := levels_rebuilt hgrown
  exact ⟨hgrown, hleveled, hrestored _ 10, by decide +kernel, by decide +kernel⟩

end Engine

end KnowledgeBase
