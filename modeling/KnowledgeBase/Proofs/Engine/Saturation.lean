import KnowledgeBase.Proofs.Engine.Intake
import KnowledgeBase.Proofs.Inference.FixedPoint
import KnowledgeBase.Proofs.Inference.Metadata

/-!
# Saturation stores what follows

Forward chaining goes by the keys of triples up to spelling, and the store by their exact keys.  If
no term holds the separator of keys the two never disagree, so that whatever is derived is new to
the store, and what was derived once is not derived again.

* `Registered.head_named`, `over_named`: what is derived has no empty part;
* `round_congr`, `forwardChain_again`: a chain that has ended finds nothing in what it leaves
  behind;
* `incoming_derived`: the derived facts are new to the store and told apart by it;
* `saturate_stored`: they are all stored, in a row, and a second saturation changes nothing.
-/

namespace KnowledgeBase

/-! ### Names -/

/-- Every pattern of an accepted rule is well formed. -/
theorem CompositionRule.wellFormed_of_mem {c : CompositionRule} (h : c.fault? = none) {p : Pattern}
    (hp : p ∈ c.head :: c.body) : Triple.wellFormed p = true := by
  have hall : ∀ q ∈ c.head :: c.body, wellFormed q = true := by
    unfold fault? at h
    split at h
    · cases h
    split at h
    · cases h
    rename_i hhead
    split at h
    · cases h
    split at h
    · cases h
    rename_i hbody
    exact List.forall_mem_cons.mpr ⟨by simpa using hhead, by simpa using hbody⟩
  have hwell := hall p hp
  unfold wellFormed at hwell
  exact (Bool.and_eq_true_iff.mp hwell).1

namespace Relations

variable {r : Relations}

theorem checkName_eq_ok {relation : String} {u : Unit} (h : checkName relation = .ok u) :
    relation.isEmpty = false := by
  unfold checkName at h
  split at h
  · cases h
  · rename_i hname
    simpa using hname

/-- An inverse has a name. -/
theorem Registered.inverse_named (h : r.Registered) {a b : String} (hab : r.inverse? a = some b) :
    b.isEmpty = false := by
  induction h with
  | bare =>
    unfold inverse? Relations.bare at hab
    rw [Std.TreeMap.getElem?_emptyc] at hab
    cases hab
  | symmetric _ hadd ih | transitive _ hadd ih | inheritable _ hadd ih =>
    obtain ⟨-, -, hadd⟩ := Outcome.bind_eq_ok.mp hadd
    cases hadd
    exact ih hab
  | @inverse r _ relation inverse _ hadd ih =>
    obtain ⟨_, hrelation, hadd⟩ := Outcome.bind_eq_ok.mp hadd
    obtain ⟨_, hinverse, hadd⟩ := Outcome.bind_eq_ok.mp hadd
    cases hadd
    unfold inverse? pair at hab
    rw [Std.TreeMap.getElem?_insert] at hab
    split at hab
    · cases hab
      exact checkName_eq_ok hrelation
    · rw [Std.TreeMap.getElem?_insert] at hab
      split at hab
      · cases hab
        exact checkName_eq_ok hinverse
      · exact ih hab
  | byDefault _ hadd ih =>
    obtain ⟨_, -, hadd⟩ := Outcome.bind_eq_ok.mp hadd
    cases hadd
    exact ih hab
  | composition _ hadd ih =>
    obtain ⟨-, rfl⟩ := addComposition_eq_ok hadd
    exact ih hab

end Relations

namespace Inference.Saturation

variable {r : Relations} {facts facts' : List Fact} {t : Triple} {d : Fact} {name : String}

theorem wellFormed_iff : t.wellFormed = true ↔
    t.subject.isEmpty = false ∧ t.relation.isEmpty = false ∧ t.object.isEmpty = false := by
  simp [Triple.wellFormed, and_assoc]

/-- What is in stock over well-formed facts is well formed. -/
theorem wellFormed_of_over (hr : r.Registered) (hfacts : ∀ f ∈ facts, f.triple.wellFormed = true)
    (h : Over (vocabulary r facts) (conclusions r facts) t) : t.wellFormed = true := by
  have hterm : ∀ a ∈ vocabulary r facts, a.isEmpty = false := by
    intro a ha
    rcases List.mem_append.mp ha with ha | ha
    · obtain ⟨f, hf, ha⟩ := List.mem_flatMap.mp ha
      obtain ⟨hsubject, -, hobject⟩ := wellFormed_iff.mp (hfacts f hf)
      rcases List.mem_pair.mp ha with rfl | rfl
      · exact hsubject
      · exact hobject
    · obtain ⟨ha, -⟩ := List.mem_filter.mp ha
      obtain ⟨c, hc, ha⟩ := List.mem_flatMap.mp ha
      obtain ⟨p, hp, ha⟩ := List.mem_flatMap.mp ha
      obtain ⟨hsubject, -, hobject⟩ :=
        wellFormed_iff.mp (CompositionRule.wellFormed_of_mem (hr.faultless c hc) hp)
      rcases List.mem_pair.mp ha with rfl | rfl
      · exact hsubject
      · exact hobject
  have hrelation : ∀ a ∈ conclusions r facts, a.isEmpty = false := by
    intro a ha
    rcases List.mem_append.mp ha with ha | ha
    · rcases List.mem_append.mp ha with ha | ha
      · obtain ⟨f, hf, rfl⟩ := List.mem_map.mp ha
        exact (wellFormed_iff.mp (hfacts f hf)).2.1
      · obtain ⟨c, hc, rfl⟩ := List.mem_map.mp ha
        exact (wellFormed_iff.mp (CompositionRule.wellFormed_of_mem (hr.faultless c hc)
          List.mem_cons_self)).2.1
    · obtain ⟨e, he, rfl⟩ := List.mem_map.mp ha
      exact hr.inverse_named (Std.TreeMap.mem_toList_iff_getElem?_eq_some.mp he)
  exact wellFormed_iff.mpr ⟨hterm _ h.subject, hrelation _ h.relation, hterm _ h.object⟩

/-! ### Chains over what was stored -/

/-- What follows from facts follows from others that state the same. -/
theorem Follows.congr (h : Follows r facts t name)
    (hsub : ∀ f ∈ facts, ∃ g ∈ facts', g.triple = f.triple) : Follows r facts' t name := by
  cases h with
  | composition hrule hbody hground =>
    refine .composition hrule (fun p hp => ?_) hground
    obtain ⟨f, hf, hfits⟩ := hbody p hp
    obtain ⟨g, hg, hgf⟩ := hsub f hf
    exact ⟨g, hg, hgf ▸ hfits⟩
  | @chain f g htrans hf hg hrel hmeet hends =>
    obtain ⟨f', hf', hff⟩ := hsub f hf
    obtain ⟨g', hg', hgg⟩ := hsub g hg
    have hsubject : f.subject = f'.subject := congrArg Triple.subject hff.symm
    have hrelation : f.relation = f'.relation := congrArg Triple.relation hff.symm
    have hmiddle : f.object = f'.object := congrArg Triple.object hff.symm
    have hsubject' : g.subject = g'.subject := congrArg Triple.subject hgg.symm
    have hrelation' : g.relation = g'.relation := congrArg Triple.relation hgg.symm
    have hobject : g.object = g'.object := congrArg Triple.object hgg.symm
    rw [hsubject, hobject] at hends
    rw [hmiddle, hsubject'] at hmeet
    rw [hrelation', hrelation] at hrel
    rw [hrelation] at htrans
    rw [hsubject, hrelation, hobject]
    exact .chain htrans hf' hg' hrel hmeet hends
  | @symmetry f hsymm hf =>
    obtain ⟨f', hf', hff⟩ := hsub f hf
    have hrelation : f.relation = f'.relation := congrArg Triple.relation hff.symm
    rw [hrelation] at hsymm
    rw [hrelation, ← hff]
    exact .symmetry hsymm hf'
  | @inversion f inverse hinv hf =>
    obtain ⟨f', hf', hff⟩ := hsub f hf
    have hrelation : f.relation = f'.relation := congrArg Triple.relation hff.symm
    rw [hrelation] at hinv
    rw [← hff]
    exact .inversion hinv hf'

section

variable {g : Fact → Fact} (hg : KeepsTriples g)
include hg

theorem join_map (ps : List Pattern) (b : Bindings) :
    join (facts.map g) ps b = join facts ps b := by
  induction ps generalizing b with
  | nil => rfl
  | cons p ps ih =>
    rw [join, join, List.flatMap_map]
    refine congrArg (facts.flatMap ·) (funext fun f => ?_)
    simp only [hg.relation, hg.subject, hg.object, ih]

theorem chain_map : chain (facts.map g) = chain facts := by
  funext relation
  unfold chain
  simp only [Chain.edges_map hg, Chain.edgesFrom_map, List.flatMap_map, List.filter_map,
    List.map_map, Function.comp_def, Chain.Edge.map, hg.subject, hg.object]

theorem swapSymmetric_map : swapSymmetric (facts.map g) = swapSymmetric facts := by
  funext relation
  unfold swapSymmetric
  simp only [hg.filter_relation, List.map_map, Function.comp_def, hg _]

theorem swapInverse_map : swapInverse (facts.map g) = swapInverse facts := by
  funext relation inverse
  unfold swapInverse
  simp only [hg.filter_relation, List.map_map, Function.comp_def, hg _]

theorem round_map (r : Relations) : round r (facts.map g) = round r facts := by
  unfold round candidates compose
  simp only [join_map hg, chain_map hg, swapSymmetric_map hg, swapInverse_map hg, List.map_map,
    Function.comp_def, hg _]

end

/-- Of the facts a round reads the triples only. -/
theorem round_congr (h : facts.map Fact.triple = facts'.map Fact.triple) :
    round r facts = round r facts' := by
  have hplain : KeepsTriples fun f : Fact => { triple := f.triple } := fun _ => rfl
  have heq : facts.map (fun f => ({ triple := f.triple } : Fact)) =
      facts'.map fun f => { triple := f.triple } := by
    have hmap := congrArg (List.map fun t : Triple => ({ triple := t } : Fact)) h
    rwa [List.map_map, List.map_map] at hmap
  rw [← round_map hplain r, heq, round_map hplain r]

/-- A chain has ended after some number of rounds, at most `cap`. -/
def EndsWithin (r : Relations) (cap : Nat) (facts : List Fact) : Prop :=
  ∃ n ≤ cap, round r (facts ++ forwardChain r n facts) = []

/-- A chain that has ended finds nothing more in facts that state what it has left behind. -/
theorem forwardChain_again {cap : Nat} (h : EndsWithin r cap facts)
    (hstate : facts'.map Fact.triple = (facts ++ forwardChain r cap facts).map Fact.triple)
    (rounds : Nat) : forwardChain r rounds facts' = [] := by
  obtain ⟨n, hle, hended⟩ := h
  have hround : round r facts' = [] := by
    rw [round_congr hstate, forwardChain_of_ended hended hle]
    exact hended
  exact forwardChain_of_round hround rounds

end Inference.Saturation

/-! ### Engines -/

namespace Engine

open Inference.Saturation
open Store (Reached Unwrapped Coherent WellKept)

variable {e : Engine} {now : Millis} {next : FactId} {fs ds : List Fact} {f d : Fact}

/-- What forward chaining derives from the facts of an engine. -/
def derived (e : Engine) : List Fact :=
  forwardChain e.relations e.config.forwardChainIterations.toNat e.liveFacts

theorem mem_liveFacts :
    f ∈ e.liveFacts ↔ f ∈ e.store.allFacts ∧ Existence.possible ≤ f.existence := by
  unfold liveFacts Store.factsFrom
  rw [List.mem_filter, decide_eq_true_eq]

/-- An assertion of a candidate keeps to the form that is checked. -/
theorem assertionFault?_fact {c : Candidate} (h : c.triple.wellFormed = true) :
    Store.assertionFault? c.fact.triple Existence.demonstrated c.fact.metadata = none := by
  unfold Store.assertionFault? Candidate.fact
  rw [h]
  rfl

/-- What is derived is new to the store, which tells it apart. -/
theorem incoming_derived (hk : WellKept e.store) (hr : e.relations.Registered)
    (hc : ∀ a ∈ vocabulary e.relations e.liveFacts, Text.Clean a) :
    Incoming e.store e.derived := by
  have hover : ∀ d ∈ e.liveFacts ++ e.derived, Over (vocabulary e.relations e.liveFacts)
      (conclusions e.relations e.liveFacts) d.triple := over_forwardChain hr e.liveFacts _
  have hkey : ∀ f ∈ e.liveFacts ++ e.derived, ∀ g ∈ e.liveFacts ++ e.derived,
      f.triple.key = g.triple.key → f.triple.termKey = g.triple.termKey := by
    intro f hf g hg hkey
    obtain ⟨hsubject, hrelation, hobject⟩ := Text.composed_inj
      (hc _ (hover f hf).subject) (hc _ (hover f hf).object)
      (hc _ (hover g hg).subject) (hc _ (hover g hg).object) hkey
    unfold Triple.termKey
    rw [hsubject, hrelation, hobject]
  obtain ⟨hnodup, hdisjoint, hlevel, -⟩ :=
    forwardChain_justified e.relations e.config.forwardChainIterations.toNat e.liveFacts
  refine ⟨hlevel, fun d hd => ?_, fun d hd g hg hsame => ?_, ?_⟩
  · have hwell : d.triple.wellFormed = true := by
      refine wellFormed_of_over hr (fun g hg => ?_) (hover d (List.mem_append_right _ hd))
      obtain ⟨i, hi⟩ := Store.mem_allFacts.mp (mem_liveFacts.mp hg).1
      exact (hk.storable hi).wellFormed
    obtain ⟨k, -, hround⟩ := exists_round hd
    obtain ⟨c, -, rfl, -⟩ := mem_round hround
    exact assertionFault?_fact hwell
  · by_contra hhigh
    have hlive : g ∈ e.liveFacts :=
      mem_liveFacts.mpr ⟨hg, le_trans (by decide) (not_lt.mp hhigh)⟩
    have hterm := hkey g (List.mem_append_left _ hlive) d (List.mem_append_right _ hd) hsame
    exact key_not_mem_of_derived hd (mem_keysOf.mpr ⟨g, hlive, hterm⟩)
  · have happart : e.derived.Pairwise fun f g => f.triple.termKey ≠ g.triple.termKey :=
      List.pairwise_map.mp hnodup
    refine happart.imp_of_mem fun {f g} hf hg hne hsame => hne ?_
    exact hkey f (List.mem_append_right _ hf) g (List.mem_append_right _ hg) hsame

/-! ### What is stored -/

theorem exists_of_mem_numbered (h : f ∈ numbered next fs) :
    ∃ d ∈ fs, f = { d with id := f.id } := by
  induction fs generalizing next with
  | nil => cases h
  | cons d fs ih =>
    rcases List.mem_cons.mp h with rfl | h
    · exact ⟨d, List.mem_cons_self, rfl⟩
    · obtain ⟨d', hd', hf⟩ := ih h
      exact ⟨d', List.mem_cons_of_mem _ hd', hf⟩

theorem exists_numbered (next : FactId) (h : d ∈ fs) :
    ∃ f ∈ numbered next fs, f.triple = d.triple := by
  have hmem : d.triple ∈ (numbered next fs).map Fact.triple := by
    rw [map_triple_numbered]
    exact List.mem_map_of_mem h
  obtain ⟨f, hf, htriple⟩ := List.mem_map.mp hmem
  exact ⟨f, hf, htriple⟩

/-- The derived facts are stored, each under an id above all those in use, and the facts that were
there stay as they are. -/
structure Stores (e e' : Engine) (ds : List Fact) : Prop where
  derived : ds = numbered e.store.nextId e.derived
  inOrder : e'.store.allFacts = e.store.allFacts ++ ds
  ascending : ds.Pairwise fun f g => f.id < g.id
  new : ∀ f ∈ ds, ∀ g ∈ e.store.allFacts, g.id < f.id
  stored : ∀ f ∈ ds, e'.store.fact? f.id = some f ∧ f.existence = Existence.demonstrated
  justified : ∀ f ∈ ds, ∃ name, f.derivedBy = .ok name ∧
    Follows e.relations (e.liveFacts ++ ds) f.triple name
  kept : ∀ i f, e.store.fact? i = some f → e'.store.fact? i = some f

theorem justified_numbered (hf : f ∈ numbered next e.derived) :
    f.existence = Existence.demonstrated ∧ ∃ name, f.derivedBy = .ok name ∧
      Follows e.relations (e.liveFacts ++ numbered next e.derived) f.triple name := by
  obtain ⟨d, hd, heq⟩ := exists_of_mem_numbered hf
  obtain ⟨earlier, later, hsplit⟩ := List.append_of_mem hd
  obtain ⟨hlevel, name, hby, hfollows⟩ := follows_of_split hsplit
  rw [heq]
  refine ⟨hlevel, name, hby, hfollows.congr fun g hg => ?_⟩
  rcases List.mem_append.mp hg with hg | hg
  · exact ⟨g, List.mem_append_left _ hg, rfl⟩
  · have hmem : g ∈ e.derived := by
      rw [hsplit]
      exact List.mem_append_left _ hg
    obtain ⟨g', hg', htriple⟩ := exists_numbered next hmem
    exact ⟨g', List.mem_append_right _ hg', htriple⟩

/-- What coherence says of the facts that are stored at the end. -/
theorem stores_of_allFacts (hcoherent : Coherent e.store)
    (hcoherent' : Coherent (e.saturate now).1.store)
    (hall : (e.saturate now).1.store.allFacts =
      e.store.allFacts ++ numbered e.store.nextId e.derived) :
    Stores e (e.saturate now).1 (numbered e.store.nextId e.derived) := by
  have hasc := hcoherent'.allFacts_ascending
  rw [hall] at hasc
  obtain ⟨-, hascending, hnew⟩ := List.pairwise_append.mp hasc
  have hid : ∀ f ∈ e.store.allFacts ++ numbered e.store.nextId e.derived,
      (e.saturate now).1.store.fact? f.id = some f := by
    intro f hf
    rw [← hall] at hf
    exact hcoherent'.fact?_id hf
  refine ⟨rfl, hall, hascending, fun f hf g hg => hnew g hg f hf, fun f hf =>
    ⟨hid f (List.mem_append_right _ hf), (justified_numbered hf).1⟩,
    fun f hf => (justified_numbered hf).2, fun i f hf => ?_⟩
  rw [← hcoherent.own_id hf]
  exact hid f (List.mem_append_left _ (Store.mem_allFacts.mpr ⟨i, hf⟩))

theorem relations_saturate (e : Engine) (now : Millis) :
    (e.saturate now).1.relations = e.relations := by
  obtain ⟨store, levels, hframe⟩ := ingestAll_frame e now e.derived
  rw [show e.saturate now = e.ingestAll now e.derived from rfl, hframe]

/-- What is stored is live. -/
theorem liveFacts_saturate (hall : (e.saturate now).1.store.allFacts =
      e.store.allFacts ++ numbered e.store.nextId e.derived) :
    (e.saturate now).1.liveFacts = e.liveFacts ++ numbered e.store.nextId e.derived := by
  unfold liveFacts Store.factsFrom
  rw [hall, List.filter_append]
  refine congrArg _ (List.filter_eq_self.mpr fun f hf => ?_)
  rw [(justified_numbered hf).1]
  rfl

/-- A chain that has ended leaves nothing to a second saturation. -/
theorem saturate_again {now' : Millis} (hall : (e.saturate now).1.store.allFacts =
      e.store.allFacts ++ numbered e.store.nextId e.derived)
    (hended : EndsWithin e.relations e.config.forwardChainIterations.toNat e.liveFacts) :
    (e.saturate now).1.saturate now' = ((e.saturate now).1, .ok []) := by
  have hstate : (e.saturate now).1.liveFacts.map Fact.triple =
      (e.liveFacts ++ e.derived).map Fact.triple := by
    rw [liveFacts_saturate hall, List.map_append, List.map_append, map_triple_numbered]
  have hnone := forwardChain_again hended hstate
  rw [← relations_saturate e now] at hnone
  show (e.saturate now).1.ingestAll now' (forwardChain _ _ _) = _
  rw [hnone]
  rfl

/-- **Saturation is stored and repeats nothing.**  Over every store that commands lead to, as long
as no term holds the separator of keys and the counter does not wrap, it is answered with the
derived facts, which are then stored beside all others.  If the chain has ended, another saturation
derives nothing and changes nothing. -/
theorem saturate_stored (hs : Reached Unwrapped e.store) (hr : e.relations.Registered)
    (hc : ∀ a ∈ vocabulary e.relations e.liveFacts, Text.Clean a)
    (hw : (e.saturate now).1.store.Unwrapped) :
    (∃ ds, (e.saturate now).2 = .ok ds ∧ Stores e (e.saturate now).1 ds) ∧
      (EndsWithin e.relations e.config.forwardChainIterations.toNat e.liveFacts →
        ∀ now', (e.saturate now).1.saturate now' = ((e.saturate now).1, .ok [])) := by
  have hcoherent := Store.coherent_of_reached hs
  have hkept := Store.wellKept_of_reached hs
  obtain ⟨hanswer, hall, hcoherent'⟩ :=
    ingestAll_eq hcoherent hkept (incoming_derived hkept hr hc) hw
  exact ⟨⟨_, hanswer, stores_of_allFacts hcoherent hcoherent' hall⟩,
    fun hended _ => saturate_again hall hended⟩

/-- Dogs are mammals and mammals are animals, written in two ways; that dogs are animals is no more
than a guess. -/
def guessed : Store :=
  let s : Store := { dimensions := 2 }
  let s := s.after (.add ⟨"Dog", "IS_A", "Mammal"⟩ Existence.certain (.record []) 5)
  let s := s.after (.add ⟨"Dog", "IS_A", "Animal"⟩ Existence.unproven (.record []) 6)
  s.after (.add ⟨"mammal ", "IS_A", "Animal"⟩ Existence.possible (.record []) 7)

theorem reached_guessed : Reached Unwrapped guessed := by
  unfold guessed
  refine .step _ (.step _ (.step _ (.make (n := 2) rfl) ?_) ?_) ?_
  all_goals decide +kernel

theorem saturate_stored_guessed :
    let e : Engine := { config := {}, store := guessed, book := {} }
    Reached Unwrapped e.store ∧ e.relations.Registered ∧
      (∀ a ∈ vocabulary e.relations e.liveFacts, Text.Clean a) ∧
      (e.saturate 9).1.store.Unwrapped ∧
      (∃ ds, (e.saturate 9).2 = .ok ds ∧ Stores e (e.saturate 9).1 ds ∧
        ds.map (fun f => (f.id, f.triple)) = [(4, ⟨"Dog", "IS_A", "Animal"⟩)]) ∧
      (e.saturate 9).1.saturate 10 = ((e.saturate 9).1, .ok []) := by
  intro e
  have hr : e.relations.Registered := Relations.registered_standard
  have hc : ∀ a ∈ vocabulary e.relations e.liveFacts, Text.Clean a := by decide +kernel
  have hw : (e.saturate 9).1.store.Unwrapped := by decide +kernel
  have hround : (round e.relations (e.liveFacts ++
      forwardChain e.relations 1 e.liveFacts)).isEmpty = true := by decide +kernel
  have hreport : (numbered e.store.nextId e.derived).map (fun f => (f.id, f.triple)) =
      [(4, ⟨"Dog", "IS_A", "Animal"⟩)] := by decide +kernel
  obtain ⟨⟨ds, hanswer, hstores⟩, hagain⟩ := saturate_stored reached_guessed hr hc hw
  rw [← hstores.derived] at hreport
  exact ⟨reached_guessed, hr, hc, hw, ⟨ds, hanswer, hstores, hreport⟩,
    hagain ⟨1, by decide +kernel, List.isEmpty_iff.mp hround⟩ 10⟩

end Engine

end KnowledgeBase
