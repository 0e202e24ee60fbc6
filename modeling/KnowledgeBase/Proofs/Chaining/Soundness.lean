import KnowledgeBase.Proofs.Chaining.Derivation
import KnowledgeBase.Proofs.Chaining.Search
import KnowledgeBase.Proofs.Store.Scan

/-!
# Backward chaining is sound in the open world

A goal that is proved follows from the facts and the rules, as long as the store gives out facts
under their own triples.

* `Store.Faithful`: the best fact of a triple states that triple;
* `solution_sound`: the solutions of a condition bind its holes so that it holds;
* `certificate_sound`: by induction on the levels left, goals that are proved hold in every closed
  set;
* `proved_derivable`: stores reached without a wrap of the counter are faithful, and the faithful
  stores are exactly those over which all proofs are sound.
-/

namespace KnowledgeBase

namespace Store

/-- A fact that is looked up by a triple and possible at least vouches for this triple: a stored
fact states it. -/
def Faithful (s : Store) : Prop :=
  ∀ a r b f, s.bestFact a r (some b) = .ok (some f) → Existence.possible ≤ f.existence →
    ∃ g ∈ s.allFacts, g.triple = ⟨a, r, b⟩ ∧ Existence.possible ≤ g.existence

variable {s : Store}

theorem Coherent.faithful (h : Coherent s) (hc : s.Clean) : s.Faithful := by
  intro a r b f hbest hlevel
  obtain ⟨r', hr', hf⟩ := h.bestFact_triple (t := ⟨a, r, b⟩) (.inl hc)
  rw [hbest] at hr'
  cases hr'
  obtain ⟨hmem, htriple⟩ := List.mem_filter.mp hf.1
  exact ⟨f, hmem, by simpa using htriple, hlevel⟩

/-- The facts that an index gives out are stored, whether or not they belong there. -/
theorem mem_of_collect {idx : Index} {k : String} {fs : List Fact}
    (h : s.collect idx k = .ok fs) {f : Fact} (hf : f ∈ fs) : f ∈ s.allFacts := by
  obtain ⟨i, -, hi⟩ := Outcome.mem_of_mapM h hf
  split at hi
  · rename_i g hg
    cases hi
    exact mem_allFacts.mpr ⟨i, hg⟩
  · cases hi

end Store

namespace Proof

open Bindings

namespace Theory

variable {t : Theory} {D : Atom → Prop} {prove : Leaf → Search (Option Certificate)}

/-! ### Facts -/

theorem fact_of_matchable {l : Leaf} {subject : Term} {b : Bindings} {fs : List Fact}
    (h : t.matchable l subject b = .ok fs) {f : Fact} (hf : f ∈ fs) :
    f ∈ t.store.allFacts ∧ f.relation = l.op ∧ Existence.possible ≤ f.existence := by
  unfold matchable at h
  dsimp only at h
  split at h
  · obtain ⟨fs', hfs', h⟩ := Outcome.bind_eq_ok.mp h
    obtain ⟨gs, hgs, hfs'⟩ := Outcome.bind_eq_ok.mp hfs'
    cases hfs'
    cases h
    obtain ⟨hf, hrel⟩ := List.mem_filter.mp hf
    obtain ⟨hf, hlevel⟩ := List.mem_filter.mp hf
    exact ⟨Store.mem_of_collect hgs hf, by simpa using hrel, of_decide_eq_true hlevel⟩
  · cases h
    obtain ⟨hf, hrel⟩ := List.mem_filter.mp hf
    obtain ⟨hf, hlevel⟩ := List.mem_filter.mp hf
    exact ⟨hf, by simpa using hrel, of_decide_eq_true hlevel⟩

/-- A solution that the facts give a leaf makes it the atom of a fact. -/
theorem matchFacts_sound
    (hD : ∀ f ∈ t.store.allFacts, Existence.possible ≤ f.existence → D f.atom) {l : Leaf}
    {s s' : Solution} {sols : List Solution} (h : t.matchFacts l s = .ok sols) (hs : s' ∈ sols) :
    s.bindings.Extends s'.bindings ∧ ∀ σ, Agrees σ s'.bindings → D (l.under σ) := by
  unfold matchFacts at h
  split at h
  · rename_i subject object hargs
    obtain ⟨fs, hfs, h⟩ := Outcome.bind_eq_ok.mp h
    cases h
    obtain ⟨f, hf, hmatch⟩ := List.mem_filterMap.mp (List.mem_of_mem_take hs)
    obtain ⟨b, hb, rfl⟩ := Option.map_eq_some_iff.mp hmatch
    obtain ⟨hmem, hrel, hlevel⟩ := fact_of_matchable hfs hf
    obtain ⟨hext, hterms⟩ := matchTerms?_sound hb
    refine ⟨hext, fun σ hσ => ?_⟩
    have hatom : l.under σ = f.atom := by
      unfold Leaf.under Fact.atom
      rw [hterms σ hσ, hrel]
    rw [hatom]
    exact hD f hmem hlevel
  · cases h
    cases hs

/-! ### Conditions -/

/-- Goals that the prover certifies are in the set. -/
def ProvesIn (prove : Leaf → Search (Option Certificate)) (D : Atom → Prop) : Prop :=
  ∀ goal c, (prove goal).value = .ok (some c) → D ⟨goal.op, goalTexts goal⟩

theorem solveLeaf_sound (hD : Closed t.store.allFacts t.rules D) (hprove : ProvesIn prove D)
    {l : Leaf} {s s' : Solution} {sols : List Solution}
    (h : (t.solveLeaf prove l s).value = .ok sols) (hs : s' ∈ sols) :
    s.bindings.Extends s'.bindings ∧ ∀ σ, Agrees σ s'.bindings → D (l.under σ) := by
  unfold solveLeaf at h
  split at h
  · rename_i hbound
    obtain ⟨r, hr, h⟩ := Search.bind_eq_ok.mp h
    cases r with
    | none =>
      cases h
      cases hs
    | some c =>
      cases h
      rw [List.mem_singleton.mp hs]
      refine ⟨.refl _, fun σ hσ => ?_⟩
      rw [substitute_under hbound hσ]
      exact hprove _ c hr
  · exact matchFacts_sound hD.fact (Search.ofExcept_eq_ok.mp h) hs

mutual

/-- **A solution of a condition extends what it started from, and the condition holds under every
assignment that agrees with it.** -/
theorem solution_sound (hopen : t.config.closedWorld = false)
    (hD : Closed t.store.allFacts t.rules D) (hprove : ProvesIn prove D) {s s' : Solution}
    {sols : List Solution} : (f : Formula) → (t.solve prove f s).value = .ok sols → s' ∈ sols →
      s.bindings.Extends s'.bindings ∧ ∀ σ, Agrees σ s'.bindings → f.Holds D σ
  | .leaf l, h, hs => by
    unfold solve at h
    unfold Formula.Holds
    exact solveLeaf_sound hD hprove h hs
  | .all ps, h, hs => by
    unfold solve at h
    unfold Formula.Holds
    obtain ⟨p, hp, hext, hholds⟩ := solutionAll_sound hopen hD hprove ps h hs
    rw [List.mem_singleton.mp hp] at hext
    exact ⟨hext, hholds⟩
  | .any ps, h, hs => by
    unfold solve at h
    unfold Formula.Holds
    rcases solutionAny_sound hopen hD hprove ps h hs with hfound | hsound
    · cases hfound
    · exact hsound
  | .negate _, h, hs => by
    unfold solve at h
    rw [hopen] at h
    cases h
    cases hs
  | .implies _ _, h, hs | .reference _, h, hs => by
    unfold solve at h
    cases h
    cases hs

theorem solutionAll_sound (hopen : t.config.closedWorld = false)
    (hD : Closed t.store.allFacts t.rules D) (hprove : ProvesIn prove D) {s' : Solution}
    {partials sols : List Solution} : (fs : List Formula) →
      (t.solveAll prove fs partials).value = .ok sols → s' ∈ sols →
      ∃ p ∈ partials, p.bindings.Extends s'.bindings ∧
        ∀ σ, Agrees σ s'.bindings → Formula.HoldsAll D σ fs
  | [], h, hs => by
    unfold solveAll at h
    cases h
    refine ⟨s', hs, .refl _, fun σ _ => ?_⟩
    unfold Formula.HoldsAll
    trivial
  | f :: fs, h, hs => by
    unfold solveAll at h
    obtain ⟨next, hnext, h⟩ := Search.bind_eq_ok.mp h
    split at h
    · cases h
      cases hs
    · obtain ⟨q, hq, hext, hrest⟩ := solutionAll_sound hopen hD hprove fs h hs
      rcases Search.mem_of_gather hnext hq with hq | ⟨p, hp, sols', hsols', hq⟩
      · cases hq
      · obtain ⟨hext', hf⟩ := solution_sound hopen hD hprove f hsols' hq
        refine ⟨p, hp, hext'.trans hext, fun σ hσ => ?_⟩
        unfold Formula.HoldsAll
        exact ⟨hf σ (hσ.of_extends hext), hrest σ hσ⟩

theorem solutionAny_sound (hopen : t.config.closedWorld = false)
    (hD : Closed t.store.allFacts t.rules D) (hprove : ProvesIn prove D) {s s' : Solution}
    {found sols : List Solution} : (fs : List Formula) →
      (t.solveAny prove fs s found).value = .ok sols → s' ∈ sols →
      s' ∈ found ∨ s.bindings.Extends s'.bindings ∧
        ∀ σ, Agrees σ s'.bindings → Formula.HoldsAny D σ fs
  | [], h, hs => by
    unfold solveAny at h
    cases h
    exact Or.inl hs
  | f :: fs, h, hs => by
    unfold solveAny at h
    obtain ⟨sols', hsols', h⟩ := Search.bind_eq_ok.mp h
    have hstep : s' ∈ (found ++ sols').take maxSolutions → s' ∈ found ∨
        s.bindings.Extends s'.bindings ∧
          ∀ σ, Agrees σ s'.bindings → Formula.HoldsAny D σ (f :: fs) := by
      intro hmem
      rcases List.mem_append.mp (List.mem_of_mem_take hmem) with hmem | hmem
      · exact Or.inl hmem
      · obtain ⟨hext, hf⟩ := solution_sound hopen hD hprove f hsols' hmem
        refine Or.inr ⟨hext, fun σ hσ => ?_⟩
        unfold Formula.HoldsAny
        exact Or.inl (hf σ hσ)
    dsimp only at h
    split at h
    · cases h
      exact hstep hs
    · rcases solutionAny_sound hopen hD hprove fs h hs with hmem | ⟨hext, hrest⟩
      · exact hstep hmem
      · refine Or.inr ⟨hext, fun σ hσ => ?_⟩
        unfold Formula.HoldsAny
        exact Or.inr (hrest σ hσ)

end

/-! ### Goals -/

theorem statedBy?_sound (hstore : t.store.Faithful) (hD : Closed t.store.allFacts t.rules D)
    {goal : Leaf} {f : Fact} (h : t.statedBy? goal = .ok (some f)) :
    D ⟨goal.op, goalTexts goal⟩ := by
  unfold statedBy? at h
  split at h
  · rename_i a b hargs
    split at h
    · cases h
    · rename_i hholes
      obtain ⟨best, hbest, h⟩ := Outcome.bind_eq_ok.mp h
      obtain ⟨rfl, hlevel⟩ := Option.filter_eq_some_iff.mp (Except.ok.inj h)
      obtain ⟨g, hg, htriple, hglevel⟩ := hstore _ _ _ _ hbest (of_decide_eq_true hlevel)
      have htexts : goalTexts goal = [a.name, b.name] := by
        simp only [Bool.or_eq_true, not_or, Bool.not_eq_true] at hholes
        unfold goalTexts
        rw [hargs]
        cases a <;> cases b <;> simp_all [Leaf.instanceOf, Term.name, Term.isHole]
      have hatom : g.atom = ⟨goal.op, goalTexts goal⟩ := by
        unfold Fact.atom Fact.relation Fact.subject Fact.object
        rw [htriple, htexts]
      rw [← hatom]
      exact hD.fact g hg hglevel
  · cases h

/-- A rule proves a goal by a conclusion that matches it, its condition being solved from there. -/
theorem unify?_eq_ok {decay : Float32} {p : Pruning} {goal : Leaf} {r : Rule}
    {solveFor : Rule → Bindings → Search (Option Solution)} {u : Unification}
    (h : (unify? solveFor decay p goal r).value = .ok (some u)) :
    ∃ c ∈ r.candidates, ∃ b s, matchConclusion? goal c = some b ∧
      (solveFor r b).value = .ok (some s) := by
  obtain ⟨before, b, after, hoffers, -, h⟩ := Search.findSomeM?_eq_ok_some.mp h
  obtain ⟨s, hs, h⟩ := Search.bind_eq_ok.mp h
  have hb : b ∈ offers p goal r := hoffers ▸ List.mem_append_right _ List.mem_cons_self
  obtain ⟨c, hc, hmatch⟩ := List.mem_filterMap.mp (List.mem_of_mem_filter hb)
  cases s with
  | none => cases h
  | some s => exact ⟨c, hc, b, s, hmatch, hs⟩

theorem solveCondition_eq_ok {room : Nat} {r : Rule} {b : Bindings} {s : Solution}
    (h : (t.solveCondition prove room r b).value = .ok (some s)) :
    ∃ c sols, r.condition = some c ∧ (t.solve prove c ⟨b, 1.0, []⟩).value = .ok sols ∧
      s ∈ sols := by
  unfold solveCondition at h
  split at h
  · cases h
  · rename_i c hc
    split at h
    · cases h
    · obtain ⟨sols, hsols, h⟩ := Search.bind_eq_ok.mp h
      exact ⟨c, sols, hc, hsols, List.mem_of_mem_head? (Except.ok.inj h)⟩

/-- **Goals that are proved with some levels left are in every closed set.** -/
theorem certificate_sound (hopen : t.config.closedWorld = false) (hstore : t.store.Faithful)
    (hrules : ∀ r ∈ t.rules, r.Whole) (hD : Closed t.store.allFacts t.rules D) (room : Nat)
    (pending : List String) : ProvesIn (t.proveLeaf room pending) D := by
  induction room generalizing pending with
  | zero =>
    intro goal c h
    cases h
  | succ room ih =>
    intro goal c h
    unfold proveLeaf at h
    split at h
    · cases h
    · obtain ⟨stated, hstated, h⟩ := Search.bind_eq_ok.mp h
      cases stated with
      | some f => exact statedBy?_sound hstore hD (Search.ofExcept_eq_ok.mp hstated)
      | none =>
        obtain ⟨u, hu, h⟩ := Search.bind_eq_ok.mp h
        cases u with
        | none => cases h
        | some u =>
          obtain ⟨before, r, after, hrs, -, hunify⟩ :=
            Search.findSomeM?_eq_ok_some.mp (Search.workingOn_eq_ok.mp hu)
          have hr : r ∈ t.rules := hrs ▸ List.mem_append_right _ List.mem_cons_self
          obtain ⟨concl, hconcl, b, s, hmatch, hs⟩ := unify?_eq_ok hunify
          obtain ⟨cond, sols, hcond, hsols, hmem⟩ := solveCondition_eq_ok hs
          obtain ⟨hext, hholds⟩ := solution_sound hopen hD (ih _) cond hsols hmem
          obtain ⟨σ, hσ⟩ := exists_agrees s.bindings
          rw [← matchConclusion?_sound hmatch (hσ.of_extends hext)]
          rw [(hrules r hr).candidates_eq] at hconcl
          exact hD.rule r hr cond hcond concl hconcl σ (hholds σ hσ)

end Theory

/-! ### Sound stores -/

/-- Whatever is proved over a store in the open world follows from its facts and the rules. -/
def SoundOver (s : Store) : Prop :=
  ∀ (t : Theory) (book : RuleBook) (goal : Leaf), t.store = s → book.Reached →
    t.rules = book.rules → t.config.closedWorld = false → t.proves (.leaf goal) = true →
    Derivable s.allFacts book.rules ⟨goal.op, goalTexts goal⟩

theorem soundOver_of_faithful {s : Store} (h : s.Faithful) : SoundOver s := by
  rintro t book goal rfl hbook hrules hopen hproves D hD
  obtain ⟨c, hc⟩ := Theory.proves_iff.mp hproves
  rw [← hrules] at hD
  refine Theory.certificate_sound hopen h ?_ hD t.maxDepth [] goal c hc
  rw [hrules]
  exact hbook.whole

/-- A fact that stands in for a triple that no fact states proves what does not follow. -/
theorem faithful_of_soundOver {s : Store} (h : SoundOver s) : s.Faithful := by
  intro a r b f hbest hlevel
  let t : Theory := { store := s, config := { closedWorld := false, maxProofDepth := 1 } }
  have hstated : t.statedBy? ⟨r, [.ident a, .ident b]⟩ = .ok (some f) := by
    show (s.bestFact a r (some b) >>= fun f =>
      pure (f.filter fun f => decide (Existence.possible ≤ f.existence))) = _
    rw [hbest]
    show Except.ok (Option.filter _ (some f)) = _
    rw [Option.filter_some, if_pos (decide_eq_true hlevel)]
  have hproves : t.proves (.leaf ⟨r, [.ident a, .ident b]⟩) = true := by
    refine Theory.proves_iff.mpr ⟨t.certifyFact f, ?_⟩
    show (t.proveLeaf (0 + 1) [] ⟨r, [.ident a, .ident b]⟩).value = _
    unfold Theory.proveLeaf
    rw [if_neg (by simp), hstated]
    rfl
  refine h t {} ⟨r, [.ident a, .ident b]⟩ rfl (.empty none) rfl rfl hproves
    (fun atom => ∃ g ∈ s.allFacts, g.triple = ⟨atom.args.getD 0 "", atom.op, atom.args.getD 1 ""⟩ ∧
      Existence.possible ≤ g.existence) ?_
  refine ⟨fun g hg hglevel => ⟨g, hg, rfl, hglevel⟩, ?_⟩
  intro rule hrule
  cases hrule

/-- **Proofs in the open world are sound over the faithful stores and no others, and with that over
every store that is reached without a wrap of the counter.** -/
theorem proved_derivable (s : Store) :
    (SoundOver s ↔ s.Faithful) ∧ (Store.Reached Store.Unwrapped s → s.Clean → SoundOver s) := by
  refine ⟨⟨faithful_of_soundOver, soundOver_of_faithful⟩, fun hs hc => ?_⟩
  exact soundOver_of_faithful ((Store.coherent_of_reached hs).faithful hc)

/-- Two parents. -/
def parents : Store :=
  let s : Store := { dimensions := 2 }
  let s := s.after (.add ⟨"Tom", "parent", "Ann"⟩ Existence.certain (.record []) 5)
  s.after (.add ⟨"Ann", "parent", "Sue"⟩ Existence.certain (.record []) 6)

/-- A rule that has to find the one in between. -/
def grandparents : RuleBook :=
  (RuleBook.addRule {} "grandparent"
    (some (.all [.leaf ⟨"parent", [.hole "x", .hole "y"]⟩,
      .leaf ⟨"parent", [.hole "y", .hole "z"]⟩]))
    (some (.leaf ⟨"grandparent", [.hole "x", .hole "z"]⟩))).toOption.getD {}

theorem proved_derivable_grandparent :
    Store.Reached Store.Unwrapped parents ∧ parents.Clean ∧
      Theory.proves { store := parents, rules := grandparents.rules }
        (.leaf ⟨"grandparent", [.ident "Tom", .ident "Sue"]⟩) = true ∧
      Derivable parents.allFacts grandparents.rules ⟨"grandparent", ["Tom", "Sue"]⟩ := by
  have hs : Store.Reached Store.Unwrapped parents := by
    unfold parents
    refine .step _ (.step _ (.make (n := 2) rfl) ?_) ?_
    all_goals decide +kernel
  have hc : parents.Clean := by decide +kernel
  have hbook : grandparents.Reached := by
    refine .addRule (.empty none) (Outcome.eq_ok_of_isOk ?_)
    decide +kernel
  have hproves : Theory.proves { store := parents, rules := grandparents.rules }
      (.leaf ⟨"grandparent", [.ident "Tom", .ident "Sue"]⟩) = true := by
    decide +kernel
  exact ⟨hs, hc, hproves,
    (proved_derivable parents).2 hs hc _ grandparents _ rfl hbook rfl rfl hproves⟩

/-! ### After a wrap of the counter -/

/-- Facts under the last two ids; loading them leaves the counter at an id that is taken. -/
def lastIds : List Fact :=
  [⟨18446744073709551614, ⟨"e", "q", "f"⟩, Existence.certain, .record []⟩,
    ⟨18446744073709551615, ⟨"c", "q", "d"⟩, Existence.certain, .record []⟩]

/-- A store in which a triple was asserted under an id that is taken. -/
def wrapped : Store :=
  let s : Store := { dimensions := 2 }
  let s := s.after (.restore (.list (lastIds.map Snapshot.ofFact)) 5)
  s.after (.add ⟨"x", "p", "y"⟩ Existence.impossible (.record []) 6)

theorem wrapped_eq : wrapped = (lastIds.foldl (·.load 5) ({ dimensions := 2 } : Store)).after
    (.add ⟨"x", "p", "y"⟩ Existence.impossible (.record []) 6) := by
  have hread : Snapshot.read (.list (lastIds.map Snapshot.ofFact)) = .ok lastIds := by rfl
  have hasc : lastIds.Pairwise fun a b => a.id < b.id := by decide
  have hrestore : Store.restore { dimensions := 2 } (.list (lastIds.map Snapshot.ofFact)) 5 = _ :=
    Store.restore_of_read hread hasc
  unfold wrapped
  dsimp only
  conv_lhs => arg 1; unfold Store.after; dsimp only; rw [hrestore]
  rfl

/-- An impossible triple is proved by the fact whose id it was given. -/
theorem unsound_after_wrap :
    Store.Reached (fun _ => True) wrapped ∧ wrapped.Clean ∧
      Theory.proves { store := wrapped, config := { closedWorld := false } }
        (.leaf ⟨"p", [.ident "x", .ident "y"]⟩) = true ∧
      ¬ Derivable wrapped.allFacts [] ⟨"p", ["x", "y"]⟩ := by
  have hs : Store.Reached (fun _ => True) wrapped := by
    unfold wrapped
    exact .step _ (.step _ (.make (n := 2) rfl) trivial) trivial
  refine ⟨hs, ?_, ?_, fun h => ?_⟩
  · rw [wrapped_eq]
    decide +kernel
  · rw [wrapped_eq]
    decide +kernel
  · have hall : ∀ f ∈ wrapped.allFacts, f.atom.op = "q" := by
      rw [wrapped_eq]
      decide +kernel
    have hD := h (fun a => a.op = "q") ⟨fun f hf _ => hall f hf, fun r hr => nomatch hr⟩
    exact absurd hD (by decide)

end Proof

end KnowledgeBase
