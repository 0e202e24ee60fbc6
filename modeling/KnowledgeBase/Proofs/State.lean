import KnowledgeBase.Engine
import KnowledgeBase.Proofs.Consistency.Metadata
import KnowledgeBase.Proofs.Store.Snapshots
import Std.Data.TreeSet.Lemmas

/-!
# States of an engine

An engine that takes in the state of another one gives the same answers, if both go by the same
configuration, relations and detector.

* `Relations.Same`, `Detector.Same`: the same registrations, whatever the order in which relations
  were entered;
* `Inference.ask_same`, `Detector.detect_same`: they are all that answers and reports depend on;
* `importState_exported`: the state of an engine is taken in whole;
* `answers_restored`: the answers of stores and engines after that.
-/

namespace KnowledgeBase

/-! ### Registrations -/

/-- The same relations have each property, and the rules are the same. -/
structure Relations.Same (r r' : Relations) : Prop where
  symmetric : r.isSymmetric = r'.isSymmetric
  transitive : r.isTransitive = r'.isTransitive
  inheritable : r.isInheritable = r'.isInheritable
  inverse : r.inverse? = r'.inverse?
  defaults : r.defaults = r'.defaults
  compositions : r.compositions = r'.compositions

/-- The same relations are single-valued, and the bounds are the same. -/
structure Detector.Same (d d' : Detector) : Prop where
  functional : d.isFunctional = d'.isFunctional
  cardinalities : d.cardinalities = d'.cardinalities

namespace Inference

section

variable {r r' : Relations} (h : r.Same r') (th : Thresholds) (n : Nat) (facts : List Fact)
include h

theorem transitive_same : (Inference.mk r th n).transitive facts =
    (Inference.mk r' th n).transitive facts := by
  funext goal depth
  unfold transitive
  rw [h.transitive]

theorem isA_same : (Inference.mk r th n).isA facts = (Inference.mk r' th n).isA facts := by
  funext term type
  unfold isA
  rw [transitive_same h]

theorem isException_same :
    (Inference.mk r th n).isException facts = (Inference.mk r' th n).isException facts := by
  funext term exception
  unfold isException
  rw [isA_same h]

theorem run_same (goal : Triple) (depth : Nat) :
    (Inference.mk r th n).run facts goal depth = (Inference.mk r' th n).run facts goal depth := by
  funext m
  cases m with
  | direct => rfl
  | transitive => exact congrFun (congrFun (transitive_same h th n facts) goal) depth
  | symmetric =>
    unfold run symmetric
    rw [h.symmetric]
  | inverse =>
    unfold run inverse
    rw [h.inverse]
  | inheritance =>
    unfold run inheritance
    rw [h.inheritable]
  | composition =>
    unfold run composition
    rw [h.compositions]
  | byDefault =>
    unfold run byDefault
    rw [h.defaults, isA_same h, isException_same h]

theorem ask_same (goal : Triple) (names : List String) (depth : Option Nat) :
    (Inference.mk r th n).ask facts goal names depth =
      (Inference.mk r' th n).ask facts goal names depth := by
  unfold ask infer
  rw [run_same h]

end

end Inference

theorem Detector.detect_same {d d' : Detector} (h : d.Same d') (facts : List Fact)
    (checks : Checks) : d.detect facts checks = d'.detect facts checks := by
  have hlist : d.functional.toList = d'.functional.toList :=
    (Std.TreeSet.Equiv.of_forall_contains_eq (congrFun h.functional)).toList_eq
  unfold detect checkFunctional checkCardinality
  rw [hlist, h.cardinalities]

/-! ### States -/

namespace Engine

open Snapshot (readBack)
open Store (Reached Unwrapped Mirrors)

variable {s : Store} {e e' : Engine} {now : Millis}

theorem factsOf_exported (e : Engine) : factsOf e.exported = .ok e.store.snapshot := rfl

/-- The exported state of an engine can be imported, and brings its facts. -/
theorem importState_exported (hs : Reached Unwrapped e.store) (e' : Engine) (now : Millis) :
    ∃ store, e'.importState e.exported now =
      .ok { e' with store, levels := levelsOf store e'.book.rules } ∧ Mirrors store e.store := by
  obtain ⟨store, hr, hm⟩ := Store.mirrors_restore_snapshot hs e'.store now
  refine ⟨store, ?_, hm⟩
  unfold importState
  rw [factsOf_exported]
  unfold restore
  dsimp only
  rw [hr]
  rfl

theorem keepsTriples_readBack : KeepsTriples readBack := fun _ => rfl

/-- **Restoring a snapshot gives back everything but metadata**: any store can take in the snapshot
of a store whose counter has not wrapped, and then answers every question about facts as that one
does.  An engine that imports the state of another one, with the same configuration, relations and
detector, then answers every question and reports every contradiction as that one does. -/
theorem answers_restored (hs : Reached Unwrapped s) (now : Millis) :
    (∀ t : Store, ∃ t', t.restore s.snapshot now = .ok t' ∧ Mirrors t' s) ∧
    ∀ e e' : Engine, e.store = s → e'.config = e.config → e'.relations.Same e.relations →
      e'.detector.Same e.detector →
      ∃ e'', e'.importState e.exported now = .ok e'' ∧ Mirrors e''.store s ∧
        (∀ goal names depth, e''.query goal names depth = e.query goal names depth) ∧
        ∀ checks, e''.consistency checks = (e.consistency checks).mapFacts readBack ∧
          (e''.consistency checks).report = (e.consistency checks).report := by
  refine ⟨fun t => Store.mirrors_restore_snapshot hs t now, ?_⟩
  rintro e e' rfl hconfig hrelations hdetector
  obtain ⟨store, himport, hm⟩ := importState_exported hs e' now
  have hlive : store.factsFrom Existence.possible = e.liveFacts.map readBack :=
    hm.byLevel Existence.possible
  have hreport : ∀ checks, e'.detector.detect (store.factsFrom Existence.possible) checks =
      (e.consistency checks).mapFacts readBack := by
    intro checks
    rw [Detector.detect_same hdetector, hlive, Detector.detect_map keepsTriples_readBack]
    rfl
  refine ⟨_, himport, hm, fun goal names depth => ?_, fun checks => ⟨hreport checks, ?_⟩⟩
  · show Inference.ask ⟨e'.relations, e'.config.thresholds, e'.config.recursionHorizon.toNat⟩
      (store.factsFrom Existence.possible) goal names depth = _
    rw [hconfig, hlive, Inference.ask_same hrelations, Inference.ask_map keepsTriples_readBack]
    rfl
  · show (e'.detector.detect (store.factsFrom Existence.possible) checks).report = _
    rw [hreport, Detector.report_mapFacts keepsTriples_readBack]

/-- A store with a history: a level was raised, a fact removed and a concept forgotten. -/
def worn : Store :=
  let s : Store := { dimensions := 2 }
  let s := s.after (.add ⟨"Rex", "IS_A", "Dog"⟩ Existence.possible (.record []) 5)
  let s := s.after (.add ⟨"Dog", "IS_A", "Animal"⟩ Existence.certain (.record []) 6)
  let s := s.after (.add ⟨"Rex", "IS_A", "Robot"⟩ Existence.certain (.record []) 7)
  let s := s.after (.add ⟨"Tom", "IS_A", "Cat"⟩ Existence.certain (.record []) 8)
  let s := s.after (.upgrade 1 Existence.demonstrated)
  let s := s.after (.remove 3)
  s.after (.forget { label := some "Tom" } 9)

theorem reached_worn : Reached Unwrapped worn := by
  unfold worn
  refine .step _ (.step _ (.step _ (.step _ (.step _ (.step _ (.step _ (.make (n := 2) rfl)
    ?_) ?_) ?_) ?_) ?_) ?_) ?_
  all_goals decide +kernel

/-- An engine over a store, with nothing registered beyond the standard. -/
def standing (s : Store) : Engine := { config := {}, store := s, book := {} }

theorem answers_restored_worn : Reached Unwrapped worn ∧
    (∃ t', ({ dimensions := 3 } : Store).restore worn.snapshot 10 = .ok t' ∧ Mirrors t' worn) ∧
    ∃ e'', (standing { dimensions := 3 }).importState (standing worn).exported 10 = .ok e'' ∧
      Mirrors e''.store worn ∧
      (∀ goal names depth,
        e''.query goal names depth = (standing worn).query goal names depth) ∧
      ∀ checks, e''.consistency checks = ((standing worn).consistency checks).mapFacts readBack ∧
        (e''.consistency checks).report = ((standing worn).consistency checks).report := by
  obtain ⟨hstores, hengines⟩ := answers_restored reached_worn 10
  exact ⟨reached_worn, hstores { dimensions := 3 }, hengines (standing worn)
    (standing { dimensions := 3 }) rfl rfl ⟨rfl, rfl, rfl, rfl, rfl, rfl⟩ ⟨rfl, rfl⟩⟩

end Engine

end KnowledgeBase
