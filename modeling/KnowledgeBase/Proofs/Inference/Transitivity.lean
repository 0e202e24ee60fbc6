import KnowledgeBase.Inference.Query
import KnowledgeBase.Proofs.Inference.FixedPoint
import KnowledgeBase.Proofs.Inference.Walks
import KnowledgeBase.Proofs.Store.Scan

/-!
# Transitivity backwards and forwards

A transitive relation is followed backwards by a search for a chain of facts, and forwards by
rounds that put two facts together wherever they meet.  Both come down to the same: a way from one
term to another along the edges of the relation.  The pairs that the rounds leave out, those that
lead back to where they start, lead to nothing else.

* `Triple.folded_eq_of_termKey`, `Separable`: when keys tell triples apart;
* `OnlyChains`, `Follows.transGen`: a relation that nothing but chains leads to, so that each of its
  facts lies at the end of a way;
* `step_of_way`: along a way of `m` edges `m - 1` rounds lead from start to end;
* `key_mem_iff_transGen`, `infer_certain_iff_transGen`: both directions in terms of ways;
* `transitive_agrees`: the answers, backwards and forwards.
-/

namespace KnowledgeBase

/-! ### Keys -/

namespace Triple

/-- The triple with its terms folded. -/
def folded (t : Triple) : Triple := ⟨Text.fold t.subject, t.relation, Text.fold t.object⟩

theorem key_folded (t : Triple) : t.folded.key = t.termKey := by
  unfold folded key termKey
  rfl

theorem folded_eq_iff {t : Triple} {a relation b : String} : t.folded = ⟨a, relation, b⟩ ↔
    Text.fold t.subject = a ∧ t.relation = relation ∧ Text.fold t.object = b :=
  Iff.of_eq (mk.injEq ..)

/-- A triple whose terms are clean; its relation may be any text. -/
def TermsClean (t : Triple) : Prop := Text.Clean t.subject ∧ Text.Clean t.object

instance (t : Triple) : Decidable t.TermsClean :=
  inferInstanceAs (Decidable (Text.Clean t.subject ∧ Text.Clean t.object))

variable {t u : Triple}

theorem Clean.folded (h : t.Clean) : t.folded.Clean := ⟨h.1.fold, h.2.1, h.2.2.fold⟩

theorem TermsClean.folded (h : t.TermsClean) : t.folded.TermsClean := ⟨h.1.fold, h.2.fold⟩

/-- One triple need be clean, or the terms of both. -/
theorem folded_eq_of_termKey (h : t.Clean ∨ u.Clean ∨ t.TermsClean ∧ u.TermsClean)
    (hkey : t.termKey = u.key) : t.folded = u := by
  rw [← key_folded] at hkey
  rcases h with ht | hu | ⟨ht, hu⟩
  · exact (key_eq_iff ht.folded).mp hkey
  · exact ((key_eq_iff hu).mp hkey.symm).symm
  · exact folded_eq_iff.mpr (Text.composed_inj ht.folded.1 ht.folded.2 hu.1 hu.2 hkey)

end Triple

namespace Inference.Saturation

open Chain (Way edges)

variable {r : Relations} {facts : List Fact} {relation a b : String} {t q : Triple} {name : String}
  {n : Nat}

theorem step_edges : Chain.Step (edges facts relation) a b ↔
    ∃ f ∈ facts, f.relation = relation ∧ Text.fold f.subject = a ∧ Text.fold f.object = b := by
  unfold Chain.Step edges
  simp only [List.mem_map, List.mem_filter, beq_iff_eq]
  constructor
  · rintro ⟨-, ⟨f, ⟨hf, hrel⟩, rfl⟩, hsource, htarget⟩
    exact ⟨f, hf, hrel, hsource, htarget⟩
  · rintro ⟨f, hf, hrel, hsource, htarget⟩
    exact ⟨_, ⟨f, ⟨hf, hrel⟩, rfl⟩, hsource, htarget⟩

theorem step_edges_mono {facts' : List Fact} (hsub : ∀ f ∈ facts, f ∈ facts')
    (h : Chain.Step (edges facts relation) a b) : Chain.Step (edges facts' relation) a b := by
  obtain ⟨f, hf, hends⟩ := step_edges.mp h
  exact step_edges.mpr ⟨f, hsub f hf, hends⟩

/-- A way along facts need not be longer than their number. -/
theorem exists_way_edges (h : Relation.TransGen (Chain.Step (edges facts relation)) a b) :
    ∃ m ≤ facts.length, Way (edges facts relation) m a b := by
  obtain ⟨m, hm, hway⟩ := Chain.exists_way h
  have hlen : (edges facts relation).length ≤ facts.length := by
    unfold edges
    rw [List.length_map]
    exact List.length_filter_le _ _
  exact ⟨m, hm.trans hlen, hway⟩

/-! ### Facts lie at the end of a way -/

/-- A transitive relation that no rule, swap or inverse leads to. -/
structure OnlyChains (r : Relations) (relation : String) : Prop where
  transitive : r.isTransitive relation = true
  no_head : ∀ c ∈ r.compositions, c.head.relation ≠ relation
  not_symmetric : r.isSymmetric relation = false
  no_inverse : ∀ other, r.inverse? other ≠ some relation

theorem onlyChains_standard (h : Relations.standard.isTransitive relation = true) :
    OnlyChains .standard relation := by
  have hname : relation = "IS_A" ∨ relation = "PART_OF" := by
    simpa [Relations.isTransitive, Relations.standard, Relations.pair, Relation.isA] using h
  refine ⟨h, fun c hc => absurd hc List.not_mem_nil, ?_, fun other hinverse => ?_⟩
  · rcases hname with rfl | rfl <;> decide +kernel
  · have hvalue : relation = "CHILD_OF" ∨ relation = "PARENT_OF" := by
      simp only [Relations.inverse?, Relations.standard, Relations.pair,
        Std.TreeMap.getElem?_insert] at hinverse
      split at hinverse
      · exact .inr (Option.some.inj hinverse).symm
      · split at hinverse
        · exact .inl (Option.some.inj hinverse).symm
        · cases hinverse
    rcases hname with rfl | rfl <;> simp at hvalue

/-- What follows lies at the end of a way, if all that it follows from does. -/
theorem Follows.transGen {S : String → String → Prop} (hr : OnlyChains r t.relation)
    (hfacts : ∀ f ∈ facts, f.relation = t.relation →
      Relation.TransGen S (Text.fold f.subject) (Text.fold f.object))
    (h : Follows r facts t name) :
    Relation.TransGen S (Text.fold t.subject) (Text.fold t.object) := by
  cases h with
  | @composition c σ hc _ _ => exact absurd rfl (hr.no_head c hc)
  | @chain f g _ hf hg hrel hmeet _ =>
    have hfirst := hfacts f hf rfl
    have hsecond := hfacts g hg hrel
    rw [← Text.same_iff.mp hmeet] at hsecond
    exact hfirst.trans hsecond
  | @symmetry f hsymm _ =>
    have hnot := hr.not_symmetric
    rw [show (f.triple.swapped f.relation).relation = f.relation from rfl, hsymm] at hnot
    cases hnot
  | @inversion f inverse hinv _ => exact absurd hinv (hr.no_inverse f.relation)

theorem transGen_of_mem (hr : OnlyChains r relation) (n : Nat) :
    ∀ f ∈ facts ++ forwardChain r n facts, f.relation = relation →
      Relation.TransGen (Chain.Step (edges facts relation)) (Text.fold f.subject)
        (Text.fold f.object) := by
  induction n with
  | zero =>
    intro f hf hrel
    rw [forwardChain, List.append_nil] at hf
    exact .single (step_edges.mpr ⟨f, hf, hrel, rfl, rfl⟩)
  | succ n ih =>
    intro f hf hrel
    rw [forwardChain_succ, ← List.append_assoc, List.mem_append] at hf
    rcases hf with hf | hf
    · exact ih f hf hrel
    · obtain ⟨-, name, -, hfollows⟩ := follows_of_mem_round hf
      subst hrel
      exact hfollows.transGen hr ih

/-! ### Ways lead to facts -/

/-- What keeps the key of a goal apart from others: no term of a fact holds the separator.  Neither
does any part of the goal; or else no term of a rule does, and no term of the goal or no relation of
a fact that is given or derived. -/
structure Separable (r : Relations) (facts : List Fact) (q : Triple) : Prop where
  terms : ∀ f ∈ facts, f.triple.TermsClean
  goal : q.Clean ∨ (∀ a ∈ r.constants, Text.Clean a) ∧
    (q.TermsClean ∨ ∀ relation ∈ conclusions r facts, Text.Clean relation)

section

variable {d : Fact}

/-- Terms of derived facts come from facts and rules. -/
theorem termsClean_of_mem (hreg : r.Registered) (hterms : ∀ f ∈ facts, f.triple.TermsClean)
    (hrules : ∀ a ∈ r.constants, Text.Clean a) (hd : d ∈ facts ++ forwardChain r n facts) :
    d.triple.TermsClean := by
  have hstock : ∀ a ∈ vocabulary r facts, Text.Clean a := by
    intro a ha
    rcases List.mem_append.mp ha with ha | ha
    · obtain ⟨f, hf, ha⟩ := List.mem_flatMap.mp ha
      have hends : a = f.subject ∨ a = f.object := by simpa using ha
      rcases hends with rfl | rfl
      · exact (hterms f hf).1
      · exact (hterms f hf).2
    · exact hrules a ha
  have hover := over_forwardChain hreg facts n d hd
  exact ⟨hstock _ hover.subject, hstock _ hover.object⟩

/-- A fact with the key of a triple over clean terms states that triple. -/
theorem Separable.folded_eq (h : Separable r facts q) (hreg : r.Registered)
    (hd : d ∈ facts ++ forwardChain r n facts) (ha : Text.Clean a) (hb : Text.Clean b)
    (hkey : d.triple.termKey = Triple.key ⟨a, q.relation, b⟩) :
    d.triple.folded = ⟨a, q.relation, b⟩ := by
  refine Triple.folded_eq_of_termKey ?_ hkey
  rcases h.goal with hgoal | ⟨hrules, -⟩
  · exact .inr (.inl ⟨ha, hgoal.2.1, hb⟩)
  · exact .inr (.inr ⟨termsClean_of_mem hreg h.terms hrules hd, ha, hb⟩)

/-- A fact with the key of the goal states the goal. -/
theorem Separable.folded_eq_goal (h : Separable r facts q) (hreg : r.Registered)
    (hd : d ∈ facts ++ forwardChain r n facts) (hkey : d.triple.termKey = q.termKey) :
    d.triple.folded = q.folded := by
  rw [← Triple.key_folded q] at hkey
  refine Triple.folded_eq_of_termKey ?_ hkey
  rcases h.goal with hgoal | ⟨hrules, hgoal⟩
  · exact .inr (.inl hgoal.folded)
  · have hterms : d.triple.TermsClean := termsClean_of_mem hreg h.terms hrules hd
    rcases hgoal with hgoal | hrelations
    · exact .inr (.inr ⟨hterms, hgoal.folded⟩)
    · have hrelation := hrelations _ (over_forwardChain hreg facts n d hd).relation
      exact .inl ⟨hterms.1, hrelation, hterms.2⟩

end

/-- Edges lead from clean terms to clean terms. -/
theorem clean_of_step (hterms : ∀ f ∈ facts, f.triple.TermsClean)
    (h : Chain.Step (edges facts relation) a b) : Text.Clean a ∧ Text.Clean b := by
  obtain ⟨f, hf, -, rfl, rfl⟩ := step_edges.mp h
  exact ⟨(hterms f hf).1.fold, (hterms f hf).2.fold⟩

theorem clean_of_way (hterms : ∀ f ∈ facts, f.triple.TermsClean) {m : Nat}
    (h : Way (edges facts relation) m a b) : Text.Clean a ∧ Text.Clean b := by
  induction h with
  | edge hstep => exact clean_of_step hterms hstep
  | cons hstep _ ih => exact ⟨(clean_of_step hterms hstep).1, ih.2⟩

/-- Two facts that meet are put together by the next round. -/
theorem step_of_meet (hreg : r.Registered) (hr : r.isTransitive q.relation = true)
    (hsep : Separable r facts q) (ha : Text.Clean a) (hb : Text.Clean b) (hne : a ≠ b) {c : String}
    (hac : Chain.Step (edges (facts ++ forwardChain r n facts) q.relation) a c)
    (hcb : Chain.Step (edges (facts ++ forwardChain r n facts) q.relation) c b) :
    Chain.Step (edges (facts ++ forwardChain r (n + 1) facts) q.relation) a b := by
  obtain ⟨f, hf, hrel, rfl, hmeet⟩ := step_edges.mp hac
  obtain ⟨g, hg, hrel', hmeet', rfl⟩ := step_edges.mp hcb
  have hfollows : Follows r (facts ++ forwardChain r n facts) ⟨f.subject, f.relation, g.object⟩
      "transitive_closure" := by
    refine .chain (hrel ▸ hr) hf hg (hrel'.trans hrel.symm)
      (Text.same_iff.mpr (hmeet.trans hmeet'.symm)) ?_
    exact Bool.eq_false_iff.mpr fun hsame => hne (Text.same_iff.mp hsame)
  have hkey := key_mem_round (mem_candidates hreg hfollows)
  rw [List.append_assoc, ← forwardChain_succ] at hkey
  obtain ⟨d, hd, hkey⟩ := mem_keysOf.mp hkey
  rw [hrel, ← Triple.key_folded ⟨f.subject, q.relation, g.object⟩] at hkey
  obtain ⟨hsubject, hrelation, hobject⟩ :=
    Triple.folded_eq_iff.mp (hsep.folded_eq hreg hd ha hb hkey)
  exact step_edges.mpr ⟨d, hd, hrelation, hsubject, hobject⟩

/-- Along a way of `m` edges the ends are linked after `m - 1` rounds.  The way is followed from its
end, where it stops the first time, so a pair that leads back to its start is never needed. -/
theorem step_of_way (hreg : r.Registered) (hr : r.isTransitive q.relation = true)
    (hsep : Separable r facts q) {m : Nat} (hway : Way (edges facts q.relation) m a b) (hne : a ≠ b)
    (hn : m ≤ n + 1) : Chain.Step (edges (facts ++ forwardChain r n facts) q.relation) a b := by
  have hsub : ∀ n, ∀ f ∈ facts, f ∈ facts ++ forwardChain r n facts :=
    fun _ f hf => List.mem_append_left _ hf
  induction hway generalizing n with
  | edge hstep => exact step_edges_mono (hsub n) hstep
  | @cons a c b m hstep hrest ih =>
    by_cases hcb : c = b
    · exact step_edges_mono (hsub n) (hcb ▸ hstep)
    · obtain ⟨k, rfl⟩ : ∃ k, n = k + 1 := ⟨n - 1, by have := hrest.pos; omega⟩
      have hlinked := ih hcb (n := k) (by omega)
      exact step_of_meet hreg hr hsep (clean_of_step hsep.terms hstep).1
        (clean_of_way hsep.terms hrest).2 hne (step_edges_mono (hsub k) hstep) hlinked

/-- After as many rounds as there are facts, the key of the goal is among the facts exactly if its
terms are linked by a way. -/
theorem key_mem_iff_transGen (hreg : r.Registered) (hr : OnlyChains r q.relation)
    (hsep : Separable r facts q) (hne : Text.same q.subject q.object = false)
    (hn : facts.length ≤ n) :
    (∃ f ∈ facts ++ forwardChain r n facts, f.triple.termKey = q.termKey) ↔
      Relation.TransGen (Chain.Step (edges facts q.relation)) (Text.fold q.subject)
        (Text.fold q.object) := by
  constructor
  · rintro ⟨f, hf, hkey⟩
    obtain ⟨hsubject, hrelation, hobject⟩ :=
      Triple.folded_eq_iff.mp (hsep.folded_eq_goal hreg hf hkey)
    rw [← hsubject, ← hobject]
    exact transGen_of_mem hr n f hf hrelation
  · intro hlinked
    obtain ⟨m, hm, hway⟩ := exists_way_edges hlinked
    have hends : Text.fold q.subject ≠ Text.fold q.object := fun heq =>
      Bool.eq_false_iff.mp hne (Text.same_iff.mpr heq)
    have hstep := step_of_way hreg hr.transitive hsep hway hends (n := n) (by omega)
    obtain ⟨f, hf, hrelation, hsubject, hobject⟩ := step_edges.mp hstep
    have hfold : f.triple.folded = q.folded :=
      Triple.folded_eq_iff.mpr ⟨hsubject, hrelation, hobject⟩
    refine ⟨f, hf, ?_⟩
    rw [← Triple.key_folded, ← Triple.key_folded, hfold]

/-! ### Backwards -/

theorem states_iff {f : Fact} : f.states q = true ↔ f.relation = q.relation ∧
    Text.fold f.subject = Text.fold q.subject ∧ Text.fold f.object = Text.fold q.object := by
  unfold Fact.states
  rw [Bool.and_eq_true, Bool.and_eq_true, beq_iff_eq, Text.same_iff, Text.same_iff, and_assoc]

theorem find?_states_isSome : (facts.find? (·.states q)).isSome ↔
    Chain.Step (edges facts q.relation) (Text.fold q.subject) (Text.fold q.object) := by
  rw [List.find?_isSome, step_edges]
  simp only [states_iff]

/-- Names that say no more than direct and transitive. -/
theorem select_of_names {names : List String}
    (h : ∀ m, m ∈ names ↔ m = "direct" ∨ m = "transitive") :
    Method.select names = .ok [.direct, .transitive] := by
  have hknown : names.find? (fun m => (Method.ofName? m).isNone) = none := by
    rw [List.find?_eq_none]
    intro m hm
    rcases (h m).mp hm with rfl | rfl <;> decide
  have hsome : names.isEmpty = false := by
    have hmem : "direct" ∈ names := (h "direct").mpr (.inl rfl)
    cases names with
    | nil => cases hmem
    | cons => rfl
  have hchosen : (fun m : Method => names.contains m.name) =
      fun m : Method => decide (m.name = "direct" ∨ m.name = "transitive") := by
    funext m
    rw [Bool.eq_iff_iff, List.contains_iff_mem, h, decide_eq_true_iff]
  unfold Method.select
  rw [hknown, hsome, hchosen]
  rfl

section

variable {i : Inference} {depth : Nat}

/-- A goal is certain if one of the methods finds it certain, provided that no method but the last
has another decisive answer. -/
theorem infer_certain_iff_exists {methods : List Method}
    (h : methods.Pairwise fun m _ => (i.run facts q depth m).isDecisive = true →
      (i.run facts q depth m).truth = .certain) :
    (i.infer facts q methods depth).truth = .certain ↔
      ∃ m ∈ methods, (i.run facts q depth m).truth = .certain := by
  induction methods with
  | nil => simp [infer, Answer.exhausted]
  | cons m ms ih =>
    obtain ⟨hhead, hms⟩ := List.pairwise_cons.mp h
    have hrest := ih hms
    rw [List.exists_mem_cons_iff]
    unfold infer at hrest ⊢
    rw [List.findSome?_cons, Option.filter_some]
    by_cases hdecisive : (i.run facts q depth m).isDecisive = true
    · rw [if_pos hdecisive]
      constructor
      · exact .inl
      · rintro (hcertain | ⟨m', hm', -⟩)
        · exact hcertain
        · exact hhead m' hm' hdecisive
    · have hopen : (i.run facts q depth m).truth ≠ .certain := fun hcertain =>
        hdecisive (congrArg Truth.isDecisive hcertain)
      rw [if_neg hdecisive, or_iff_right hopen]
      exact hrest

theorem truth_direct : (direct facts q).truth =
    if (facts.find? (·.states q)).isSome then .certain else .unknown := by
  unfold direct
  cases facts.find? (·.states q) <;> rfl

theorem truth_transitive (h : i.relations.isTransitive q.relation = true) :
    (i.transitive facts q depth).truth =
      if (Chain.shortest? facts q.relation q.subject q.object depth).isSome then .certain
      else .unknown := by
  unfold transitive
  rw [h]
  cases Chain.shortest? facts q.relation q.subject q.object depth <;> rfl

/-- The goal is certain if it is stated, or a chain is found. -/
theorem infer_certain_iff (h : i.relations.isTransitive q.relation = true) :
    (i.infer facts q [.direct, .transitive] depth).truth = .certain ↔
      (facts.find? (·.states q)).isSome ∨
        (Chain.shortest? facts q.relation q.subject q.object depth).isSome := by
  have hdirect : (i.run facts q depth .direct).truth = _ := truth_direct
  have htransitive : (i.run facts q depth .transitive).truth = _ := truth_transitive h
  rw [infer_certain_iff_exists]
  · simp [hdirect, htransitive, Option.isSome_iff_ne_none]
  · rw [List.pairwise_pair, Answer.isDecisive, hdirect]
    split <;> simp [Truth.isDecisive]

/-- With a depth of as many facts as there are, an answer is certain exactly if the terms of the
goal are linked by a way. -/
theorem infer_certain_iff_transGen (h : i.relations.isTransitive q.relation = true)
    (hdepth : facts.length ≤ depth) :
    (i.infer facts q [.direct, .transitive] depth).truth = .certain ↔
      Relation.TransGen (Chain.Step (edges facts q.relation)) (Text.fold q.subject)
        (Text.fold q.object) := by
  rw [infer_certain_iff h, find?_states_isSome, Chain.shortest?_isSome_iff]
  constructor
  · rintro (hstep | ⟨n, -, hway⟩)
    · exact .single hstep
    · exact hway.transGen
  · intro hlinked
    obtain ⟨n, hn, hway⟩ := exists_way_edges hlinked
    exact .inr ⟨n, hn.trans hdepth, hway⟩

end

/-! ### Agreement -/

/-- **A chain is found backwards exactly if its ends are put together forwards.**  The relation is
one that nothing but chains leads to; as many rounds as there are facts are enough. -/
theorem transitive_agrees {i : Inference} {names : List String} {depth : Nat}
    (hreg : i.relations.Registered) (hr : OnlyChains i.relations q.relation)
    (hsep : Separable i.relations facts q) (hne : Text.same q.subject q.object = false)
    (hnames : ∀ m, m ∈ names ↔ m = "direct" ∨ m = "transitive") (hdepth : facts.length ≤ depth) :
    ∃ a, i.ask facts q names (some depth) = .ok a ∧ ∀ n, facts.length ≤ n →
      (a.truth = .certain ↔
        ∃ f ∈ facts ++ forwardChain i.relations n facts, f.triple.termKey = q.termKey) := by
  refine ⟨i.infer facts q [.direct, .transitive] depth, ?_, fun n hn => ?_⟩
  · unfold ask
    rw [select_of_names hnames]
    rfl
  · rw [infer_certain_iff_transGen hr.transitive hdepth,
      key_mem_iff_transGen hreg hr hsep hne hn]

/-- Dogs are mammals, which are dogs again, in another spelling, and animals, which are things. -/
def loopedFacts : List Fact :=
  [{ triple := ⟨"Dog", "IS_A", "Mammal"⟩ }, { triple := ⟨"mammal ", "IS_A", "dog"⟩ },
    { triple := ⟨"Mammal", "IS_A", "Animal"⟩ }, { triple := ⟨"animal", "IS_A", "Thing"⟩ }]

theorem transitive_agrees_loopedFacts :
    let i : Inference := {}
    let q : Triple := ⟨"DOG", "IS_A", "thing"⟩
    i.relations.Registered ∧ OnlyChains i.relations q.relation ∧
      Separable i.relations loopedFacts q ∧ Text.same q.subject q.object = false ∧
      ∃ a, i.ask loopedFacts q ["transitive", "direct"] (some 4) = .ok a ∧ a.truth = .certain ∧
        ∀ n, 4 ≤ n → ∃ f ∈ loopedFacts ++ forwardChain i.relations n loopedFacts,
          f.triple.termKey = q.termKey := by
  intro i q
  have hreg : i.relations.Registered := Relations.registered_standard
  have hr : OnlyChains i.relations q.relation := onlyChains_standard (by decide +kernel)
  have hsep : Separable i.relations loopedFacts q := ⟨by decide +kernel, .inl (by decide +kernel)⟩
  have hne : Text.same q.subject q.object = false := by decide +kernel
  have hnames : ∀ m, m ∈ ["transitive", "direct"] ↔ m = "direct" ∨ m = "transitive" := by
    simp [or_comm]
  obtain ⟨a, hask, hagrees⟩ := transitive_agrees hreg hr hsep hne hnames (Nat.le_refl 4)
  have htruth : (i.ask loopedFacts q ["transitive", "direct"] (some 4)).map Answer.truth =
      .ok .certain := by decide +kernel
  rw [hask] at htruth
  have hcertain : a.truth = .certain := Except.ok.inj htruth
  exact ⟨hreg, hr, hsep, hne, a, hask, hcertain, fun n hn => (hagrees n hn).mp hcertain⟩

/-- The terms must differ: a loop is found backwards, and left out forwards. -/
example :
    let q : Triple := ⟨"DOG", "IS_A", "dog"⟩
    ((({} : Inference).ask loopedFacts q ["transitive", "direct"] (some 4)).map Answer.truth =
      .ok .certain) ∧
      q.termKey ∉ keysOf (loopedFacts ++ forwardChain .standard 4 loopedFacts) := by
  decide +kernel

end Inference.Saturation

end KnowledgeBase
