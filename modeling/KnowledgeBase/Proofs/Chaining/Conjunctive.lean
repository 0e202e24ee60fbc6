import KnowledgeBase.Proofs.Chaining.Height
import KnowledgeBase.Proofs.Store.Pairs
import Mathlib.Algebra.Group.Nat.Defs

/-!
# Conditions as queries

Where no rule is tried, the search for the solutions of a condition answers a query over the stored
facts.  A leaf without free holes is looked up by its triple, any other leaf is matched against the
facts, and both must agree on what is stored.

* `Store.States`, `Store.Precise`: what a store states, and look-ups that find just that;
* `Splits p b sols`: solutions among which the assignments are split that agree with `b` and satisfy
  `p`; `splits_gather` puts them together;
* `decided`: by induction on the condition;
* `throughout_conjunction`: where nothing is dropped, as there are too few facts for it;
* `decidesOver_iff`: the precise stores are those over which conditions are decided, and every store
  reached without a wrap of the counter is one of them.
-/

namespace KnowledgeBase

/-! ### Precise look-ups -/

namespace Store

/-- A stored fact that is possible at least states the atom. -/
def States (s : Store) (a : Atom) : Prop :=
  ∃ f ∈ s.allFacts, Existence.possible ≤ f.existence ∧ f.atom = a

/-- Look-ups are answered, and something possible is found exactly if a stored fact of the triple is
possible. -/
structure Precise (s : Store) : Prop where
  best : ∀ t : Triple, ∃ b, s.bestFact t.subject t.relation (some t.object) = .ok b ∧
    (b.any (fun f => decide (Existence.possible ≤ f.existence)) = true ↔
      ∃ f ∈ s.allFacts, f.triple = t ∧ Existence.possible ≤ f.existence)
  pair : ∀ a r min, ∃ fs, s.factsByPair a r min = .ok fs

variable {s : Store}

theorem Precise.answers (h : s.Precise) : s.Answers where
  best := fun a r b => by
    obtain ⟨f, hf, -⟩ := h.best ⟨a, r, b⟩
    exact ⟨f, hf⟩
  pair := h.pair

theorem Coherent.precise (h : Coherent s) (hc : s.Clean) : s.Precise where
  best := fun _ => h.bestFact_any (.inl hc) _
  pair := h.answers.pair

/-- Facts have two arguments. -/
theorem States.length_args {a : Atom} (h : s.States a) : a.args.length = 2 := by
  obtain ⟨f, -, -, rfl⟩ := h
  rfl

end Store

namespace Proof

open Bindings Search

/-! ### Assignments that are split among solutions -/

/-- The assignments that agree with bindings and satisfy `p` are those that agree with one of the
solutions, and each solution keeps the bindings. -/
structure Splits (p : (String → String) → Prop) (b : Bindings) (sols : List Solution) :
    Prop where
  keeps : ∀ s ∈ sols, b.Extends s.bindings
  iff : ∀ σ, Agrees σ b → (p σ ↔ ∃ s ∈ sols, Agrees σ s.bindings)

section

variable {p q : (String → String) → Prop} {b : Bindings} {sols : List Solution}

theorem Splits.congr (h : Splits p b sols) (hpq : ∀ σ, Agrees σ b → (p σ ↔ q σ)) :
    Splits q b sols :=
  ⟨h.keeps, fun σ hσ => (hpq σ hσ).symm.trans (h.iff σ hσ)⟩

theorem splits_nil (h : ∀ σ, Agrees σ b → ¬ p σ) : Splits p b [] :=
  ⟨by simp, fun σ hσ => by simp [h σ hσ]⟩

/-- One solution with the same bindings is for what every assignment satisfies. -/
theorem splits_singleton {s : Solution} (hs : s.bindings = b) (h : ∀ σ, Agrees σ b → p σ) :
    Splits p b [s] := by
  subst hs
  exact ⟨by simp [Extends.refl], fun σ hσ => by simp [h σ hσ, hσ]⟩

/-- Every assignment that agrees with a solution satisfies the predicate. -/
theorem Splits.sound (h : Splits p b sols) {s : Solution} (hs : s ∈ sols) {σ : String → String}
    (hσ : Agrees σ s.bindings) : p σ :=
  (h.iff σ (hσ.of_extends (h.keeps s hs))).mpr ⟨s, hs, hσ⟩

/-- There are solutions exactly if some assignment satisfies the predicate. -/
theorem Splits.ne_nil_iff (h : Splits p b sols) : sols ≠ [] ↔ ∃ σ, Agrees σ b ∧ p σ := by
  constructor
  · intro hne
    obtain ⟨s, hs⟩ := List.exists_mem_of_ne_nil sols hne
    obtain ⟨σ, hσ⟩ := exists_agrees s.bindings
    exact ⟨σ, hσ.of_extends (h.keeps s hs), h.sound hs hσ⟩
  · rintro ⟨σ, hσ, hp⟩
    obtain ⟨s, hs, -⟩ := (h.iff σ hσ).mp hp
    exact List.ne_nil_of_mem hs

/-- What is gathered is split by where it was found, if nothing is dropped. -/
theorem splits_gather {α : Type} {f : α → Search (List Solution)} {as : List α}
    {given : α → Bindings} {p : α → (String → String) → Prop}
    (hkeeps : ∀ a ∈ as, b.Extends (given a))
    (hsplits : ∀ a ∈ as, ∀ sols, (f a).value = .ok sols → Splits (p a) (given a) sols)
    (h : (gather maxSolutions f as []).value = .ok sols) (hcap : sols.length < maxSolutions) :
    Splits (fun σ => ∃ a ∈ as, Agrees σ (given a) ∧ p a σ) b sols := by
  have hfrom : ∀ s ∈ sols, ∃ a ∈ as, ∃ bs, (f a).value = .ok bs ∧ s ∈ bs := by
    intro s hs
    rcases mem_of_gather h hs with hs | hs
    · cases hs
    · exact hs
  constructor
  · intro s hs
    obtain ⟨a, ha, bs, hbs, hs⟩ := hfrom s hs
    exact (hkeeps a ha).trans ((hsplits a ha bs hbs).keeps s hs)
  · intro σ _
    constructor
    · rintro ⟨a, ha, hσ, hp⟩
      obtain ⟨bs, hbs, hsub⟩ := (gather_complete h hcap).2 a ha
      obtain ⟨s, hs, hσs⟩ := ((hsplits a ha bs hbs).iff σ hσ).mp hp
      exact ⟨s, hsub hs, hσs⟩
    · rintro ⟨s, hs, hσs⟩
      obtain ⟨a, ha, bs, hbs, hs⟩ := hfrom s hs
      have ha' := hsplits a ha bs hbs
      exact ⟨a, ha, hσs.of_extends (ha'.keeps s hs), ha'.sound hs hσs⟩

end

namespace Theory

variable {t : Theory} {room : Nat} {l : Leaf}

/-! ### Leaves -/

/-- No rule concludes anything with the operator of a leaf. -/
def Untried (t : Theory) (l : Leaf) : Prop := ∀ r ∈ t.rules, ∀ c ∈ r.candidates, c.op ≠ l.op

instance (t : Theory) (l : Leaf) : Decidable (t.Untried l) :=
  inferInstanceAs (Decidable (∀ r ∈ t.rules, ∀ c ∈ r.candidates, c.op ≠ l.op))

theorem attempts_of_untried {g : Leaf} (h : t.Untried g) : t.attempts g = [] := by
  refine List.eq_nil_iff_forall_not_mem.mpr fun e he => ?_
  obtain ⟨r, hr, he⟩ := List.mem_flatMap.mp he
  obtain ⟨b, hb, rfl⟩ := List.mem_map.mp he
  obtain ⟨c, hc, hmatch⟩ := List.mem_filterMap.mp (List.mem_of_mem_filter hb)
  unfold matchConclusion? at hmatch
  rw [if_pos (by simp [h r hr c hc])] at hmatch
  cases hmatch

/-- A leaf without free holes is looked up. -/
theorem splits_bound (hs : t.store.Precise) (hl : t.Untried l) {s : Solution}
    {sols : List Solution} (hbound : l.isBound s.bindings = true)
    (h : (t.solveLeaf (t.proveLeaf (room + 1) []) l s).value = .ok sols) :
    Splits (fun σ => t.store.States (l.under σ)) s.bindings sols := by
  obtain ⟨o, ho, hiff⟩ := statedBy?_of_best (isHole_substitute hbound) fun x y _ =>
    hs.best ⟨x.name, l.op, y.name⟩
  have hproved : (t.proveLeaf (room + 1) [] (l.substitute s.bindings)).value =
      .ok (o.map t.certifyFact) :=
    proveLeaf_of_untried (by simp) (attempts_of_untried (g := l.substitute s.bindings) hl) ho
  have hstates : ∀ σ, Agrees σ s.bindings →
      (t.store.States (l.under σ) ↔ o.isSome = true) := by
    intro σ hσ
    rw [← atom_substitute hbound hσ, hiff]
    rfl
  obtain ⟨c, hc, rfl⟩ := solveLeaf_of_bound hbound h
  rw [hproved] at hc
  cases hc
  cases o with
  | none => exact splits_nil fun σ hσ => by simp [hstates σ hσ]
  | some f => exact splits_singleton rfl fun σ hσ => (hstates σ hσ).mpr rfl

/-- No fact is missed that states an instance of a leaf. -/
theorem mem_matchable (hp : t.store.Paired) {subject : Term} {b : Bindings} {fs : List Fact}
    (h : t.matchable l subject b = .ok fs) {σ : String → String} (hσ : Agrees σ b) {f : Fact}
    (hf : f ∈ t.store.allFacts) (hlevel : Existence.possible ≤ f.existence)
    (hrel : f.relation = l.op) (hsub : f.subject = subject.under σ) : f ∈ fs := by
  unfold matchable at h
  dsimp only at h
  split at h
  · rename_i a hknown
    obtain ⟨gs, hgs, h⟩ := Outcome.bind_eq_ok.mp h
    cases h
    have ha : f.subject = a := by
      cases subject with
      | hole n => exact hsub.trans (hσ n a hknown)
      | ident n | literal n => exact hsub.trans (Option.some.inj hknown)
    exact List.mem_filter.mpr ⟨hp.mem_factsByPair hgs hf ha hrel hlevel, by simp [hrel]⟩
  · cases h
    have hfrom : f ∈ t.store.factsFrom Existence.possible :=
      List.mem_filter.mpr ⟨hf, decide_eq_true hlevel⟩
    exact List.mem_filter.mpr ⟨hfrom, by simp [hrel]⟩

/-- A leaf with free holes is matched against the facts. -/
theorem splits_matchFacts (hp : t.store.Paired) {s : Solution} {sols : List Solution}
    (h : t.matchFacts l s = .ok sols) (hcap : sols.length < maxSolutions) :
    Splits (fun σ => t.store.States (l.under σ)) s.bindings sols := by
  have hsound : ∀ s' ∈ sols, s.bindings.Extends s'.bindings ∧
      ∀ σ, Agrees σ s'.bindings → t.store.States (l.under σ) :=
    fun s' hs' => matchFacts_sound (fun f hf hlevel => ⟨f, hf, hlevel, rfl⟩) h hs'
  refine ⟨fun s' hs' => (hsound s' hs').1, fun σ hσ => ⟨?_, ?_⟩⟩
  · intro hstates
    have htwo : ∃ x y, l.args = [x, y] := by
      refine List.length_eq_two.mp ?_
      simpa [Leaf.under] using hstates.length_args
    obtain ⟨subject, object, hargs⟩ := htwo
    obtain ⟨f, hf, hlevel, hatom⟩ := hstates
    have hterms : l.args.map (Term.under σ) = [f.subject, f.object] :=
      (congrArg Atom.args hatom).symm
    have hsub : f.subject = subject.under σ := by
      rw [hargs] at hterms
      exact (List.cons.inj hterms).1.symm
    unfold matchFacts at h
    split at h
    · rename_i subject' object' hargs'
      rw [hargs] at hargs'
      cases hargs'
      obtain ⟨fs, hfs, h⟩ := Outcome.bind_eq_ok.mp h
      cases h
      -- what stays below the cap was not cut off
      rw [List.length_take] at hcap
      rw [List.take_of_length_le (by omega)]
      have hmem := mem_matchable hp hfs hσ hf hlevel (congrArg Atom.op hatom) hsub
      obtain ⟨b, hb, hσb⟩ := exists_matchTerms? hσ hterms
      exact ⟨_, List.mem_filterMap.mpr ⟨f, hmem, by rw [hb]; rfl⟩, hσb⟩
    · rename_i hnot
      exact (hnot subject object hargs).elim
  · rintro ⟨s', hs', hσ'⟩
    exact (hsound s' hs').2 σ hσ'

/-! ### Conditions -/

/-- From any solution on, the solutions of a condition split the assignments under which it holds,
if nothing is dropped. -/
def Decided (t : Theory) (room : Nat) (f : Formula) : Prop :=
  ∀ s sols, t.Throughout t.Uncapped (.condition room [] f s) →
    (t.solve (t.proveLeaf room []) f s).value = .ok sols →
    Splits (f.Holds t.store.States ·) s.bindings sols

theorem decided_leaf (hs : t.store.Precise) (hp : t.store.Paired) (hroom : room ≠ 0)
    (hl : t.Untried l) : Decided t room (.leaf l) := by
  intro s sols hcap h
  have hbelow := hcap.here sols h
  obtain ⟨room, rfl⟩ := Nat.exists_eq_succ_of_ne_zero hroom
  unfold solve at h
  simp only [Formula.Holds]
  by_cases hbound : l.isBound s.bindings = true
  · exact splits_bound hs hl hbound h
  · unfold solveLeaf at h
    rw [if_neg hbound] at h
    exact splits_matchFacts hp (ofExcept_eq_ok.mp h) hbelow

/-- The last parts of a conjunction split further what the first ones leave. -/
theorem splits_solveAll {fs : List Formula} (hfs : ∀ f ∈ fs, Decided t room f)
    {p : (String → String) → Prop} {b : Bindings} {partials sols : List Solution}
    (hpart : Splits p b partials)
    (hcap : t.Throughout t.Uncapped (.conjuncts room [] fs partials))
    (h : (t.solveAll (t.proveLeaf room []) fs partials).value = .ok sols) :
    Splits (fun σ => p σ ∧ Formula.HoldsAll t.store.States σ fs) b sols := by
  -- for all `p`: each part adds itself to what the partial solutions split
  induction fs generalizing p partials with
  | nil =>
    unfold solveAll at h
    cases h
    simpa [Formula.HoldsAll] using hpart
  | cons f fs ih =>
    obtain ⟨hf, hfs⟩ := List.forall_mem_cons.mp hfs
    unfold solveAll at h
    obtain ⟨next, hnext, h⟩ := bind_eq_ok.mp h
    have hgather := splits_gather hpart.keeps
      (fun s hs bs hbs => hf s bs (hcap.next (.conjunct hs)) hbs) hnext (hcap.here next hnext)
    have hsplits : Splits (fun σ => p σ ∧ f.Holds t.store.States σ) b next := by
      refine hgather.congr fun σ hσ => ?_
      rw [hpart.iff σ hσ]
      constructor
      · rintro ⟨s, hs, hσs, hholds⟩
        exact ⟨⟨s, hs, hσs⟩, hholds⟩
      · rintro ⟨⟨s, hs, hσs⟩, hholds⟩
        exact ⟨s, hs, hσs, hholds⟩
    simp only [Formula.HoldsAll, ← and_assoc]
    cases next with
    | nil =>
      cases h
      exact splits_nil fun σ hσ hall => by simpa using (hsplits.iff σ hσ).mp hall.1
    | cons s next => exact ih hfs hsplits (hcap.next (.rest hnext)) h

/-- The parts of a disjunction are solved from the same bindings. -/
theorem decided_any {ps : List Formula} (hps : ∀ p ∈ ps, Decided t room p) :
    Decided t room (.any ps) := by
  intro s sols hcap h
  have hbelow := hcap.here sols h
  unfold solve at h
  rw [solveAny_eq_gather] at h
  have hgather : Splits (fun σ => ∃ p ∈ ps, Agrees σ s.bindings ∧ p.Holds t.store.States σ)
      s.bindings sols :=
    splits_gather (fun _ _ => Extends.refl _)
      (fun p hp bs hbs => hps p hp s bs (hcap.next (.any hp)) hbs) h hbelow
  refine hgather.congr fun σ hσ => ?_
  simp [Formula.Holds, Formula.holdsAny_iff, hσ]

mutual

/-- **The solutions of a positive condition split the assignments under which it holds**, if no rule
is tried for its leaves and nothing is dropped. -/
theorem decided (hs : t.store.Precise) (hp : t.store.Paired) (hroom : room ≠ 0) :
    (f : Formula) → f.isPositive = true → (∀ l ∈ f.leaves, t.Untried l) → Decided t room f
  | .leaf l, _, hl => decided_leaf hs hp hroom (hl l (by simp [Formula.leaves]))
  | .all ps, hpos, hl => by
    intro s sols hcap h
    unfold Formula.isPositive at hpos
    unfold Formula.leaves at hl
    unfold solve at h
    have hstart : Splits (fun _ => True) s.bindings [s] := splits_singleton rfl fun _ _ => trivial
    have hparts := splits_solveAll (decided_parts hs hp hroom ps hpos hl) hstart
      (hcap.next .all) h
    simpa [Formula.Holds] using hparts
  | .any ps, hpos, hl => by
    unfold Formula.isPositive at hpos
    unfold Formula.leaves at hl
    exact decided_any (decided_parts hs hp hroom ps hpos hl)
  | .negate _, hpos, _ | .implies _ _, hpos, _ | .reference _, hpos, _ => by cases hpos

theorem decided_parts (hs : t.store.Precise) (hp : t.store.Paired) (hroom : room ≠ 0) :
    (fs : List Formula) → Formula.arePositive fs = true →
      (∀ l ∈ Formula.leavesOf fs, t.Untried l) → ∀ f ∈ fs, Decided t room f
  | [], _, _ => nofun
  | f :: fs, hpos, hl => by
    unfold Formula.arePositive at hpos
    unfold Formula.leavesOf at hl
    rw [Bool.and_eq_true] at hpos
    rw [List.forall_mem_append] at hl
    exact List.forall_mem_cons.mpr
      ⟨decided hs hp hroom f hpos.1 hl.1, decided_parts hs hp hroom fs hpos.2 hl.2⟩

end

/-! ### Where nothing is dropped -/

section

variable {k : Nat} {ls : List Leaf}

/-- No leaf of a list has more than `k` solutions. -/
def AtMost (t : Theory) (room k : Nat) (ls : List Leaf) : Prop :=
  ∀ l ∈ ls, ∀ s sols, (t.solveLeaf (t.proveLeaf room []) l s).value = .ok sols → sols.length ≤ k

/-- What is bounded before the first leaf of a list is solved is bounded afterwards. -/
theorem AtMost.step (hk : t.AtMost room k (l :: ls)) {partials next : List Solution}
    (h : (gather maxSolutions (t.solve (t.proveLeaf room []) (.leaf l)) partials []).value =
      .ok next) : next.length * k ^ ls.length ≤ partials.length * k ^ (l :: ls).length := by
  have hle : next.length ≤ 0 + partials.length * k := by
    refine length_gather_le (fun s _ bs hbs => ?_) h
    unfold solve at hbs
    exact hk l List.mem_cons_self s bs hbs
  calc next.length * k ^ ls.length ≤ partials.length * k * k ^ ls.length :=
        Nat.mul_le_mul_right _ (by omega)
    _ = partials.length * k ^ (l :: ls).length := by
      rw [List.length_cons, Nat.pow_succ']
      exact Nat.mul_assoc _ _ _

theorem length_solveAll_le (hk : t.AtMost room k ls) {partials sols : List Solution}
    (h : (t.solveAll (t.proveLeaf room []) (ls.map .leaf) partials).value = .ok sols) :
    sols.length ≤ partials.length * k ^ ls.length := by
  induction ls generalizing partials with
  | nil =>
    rw [List.map_nil] at h
    unfold solveAll at h
    cases h
    simp
  | cons l ls ih =>
    rw [List.map_cons] at h
    unfold solveAll at h
    obtain ⟨next, hnext, h⟩ := bind_eq_ok.mp h
    split at h
    · cases h
      exact Nat.zero_le _
    · exact (ih (fun l' hl' => hk l' (List.mem_cons_of_mem _ hl')) h).trans (hk.step hnext)

theorem throughout_conjuncts (hl : ∀ l ∈ ls, t.Untried l) (hk : t.AtMost room k ls) (hpos : 0 < k)
    {partials : List Solution} (hfew : partials.length * k ^ ls.length < maxSolutions) :
    t.Throughout t.Uncapped (.conjuncts room [] (ls.map .leaf) partials) := by
  induction ls generalizing partials with
  | nil =>
    refine throughout_iff.mpr ⟨trivial, fun y hy => ?_⟩
    cases hy
  | cons l ls ih =>
    obtain ⟨huntried, hl⟩ := List.forall_mem_cons.mp hl
    have hnext : ∀ next, (gather maxSolutions (t.solve (t.proveLeaf room []) (.leaf l)) partials
        []).value = .ok next → next.length * k ^ ls.length < maxSolutions :=
      fun next h => Nat.lt_of_le_of_lt (hk.step h) hfew
    refine throughout_iff.mpr ⟨fun next h => ?_, fun y hy => ?_⟩
    · exact Nat.lt_of_le_of_lt (Nat.le_mul_of_pos_right _ (Nat.pow_pos hpos)) (hnext next h)
    · cases hy with
      | conjunct hs =>
        have hone : k ≤ partials.length * k ^ (l :: ls).length :=
          calc k = 1 * k ^ 1 := by rw [Nat.pow_one, Nat.one_mul]
            _ ≤ _ := Nat.mul_le_mul (List.length_pos_of_mem hs)
              (Nat.pow_le_pow_right hpos (by simp))
        refine throughout_leaf (fun sols h => ?_) trivial
          (attempts_of_untried (g := l.substitute _) huntried)
        unfold solve at h
        have hle := hk l List.mem_cons_self _ sols h
        omega
      | rest h => exact ih hl (fun l' hl' => hk l' (List.mem_cons_of_mem _ hl')) (hnext _ h)

/-- The facts of a store in order give a leaf no more solutions than there are facts. -/
theorem atMost_facts (hs : t.store.Coherent) (hc : t.store.Clean) (ls : List Leaf) :
    t.AtMost room (t.store.allFacts.length + 1) ls := by
  intro l _ s sols h
  by_cases hbound : l.isBound s.bindings = true
  · exact (length_of_bound hbound h).trans (Nat.le_add_left _ _)
  · unfold solveLeaf at h
    rw [if_neg hbound] at h
    have h := ofExcept_eq_ok.mp h
    unfold matchFacts at h
    split at h
    · rename_i subject object hargs
      obtain ⟨fs, hfs, h⟩ := Outcome.bind_eq_ok.mp h
      cases h
      have hfacts : fs.length ≤ t.store.allFacts.length := by
        unfold matchable at hfs
        dsimp only at hfs
        split at hfs
        · rw [hs.factsByPair_eq hc] at hfs
          cases hfs
          exact (List.length_filter_le _ _).trans (List.length_filter_le _ _)
        · cases hfs
          exact (List.length_filter_le _ _).trans (List.length_filter_le _ _)
      have hfound := List.length_filterMap_le (fun f =>
        (matchTerms? l.args [f.subject, f.object] s.bindings).map fun b =>
          (({ s with bindings := b }).atMost t.config.thresholds.directMatch).add
            [⟨.factMatch, f.text, "", "", .empty⟩]) fs
      rw [List.length_take]
      omega
    · cases h
      exact Nat.zero_le _

/-- **A conjunction of `n` leaves drops nothing over facts whose number, one more, to the power of
`n` stays below the cap.** -/
theorem throughout_conjunction (hs : t.store.Coherent) (hc : t.store.Clean)
    (hl : ∀ l ∈ ls, t.Untried l)
    (hfew : (t.store.allFacts.length + 1) ^ ls.length < maxSolutions) (s : Solution) :
    t.Throughout t.Uncapped (.condition room [] (.all (ls.map .leaf)) s) := by
  have hk : t.AtMost room (t.store.allFacts.length + 1) ls := atMost_facts hs hc ls
  refine throughout_iff.mpr ⟨fun sols h => ?_, fun y hy => ?_⟩
  · unfold solve at h
    exact Nat.lt_of_le_of_lt (length_solveAll_le hk h) (by simpa using hfew)
  · cases hy
    exact throughout_conjuncts hl hk (Nat.succ_pos _) (by simpa using hfew)

end

/-! ### Conditions of rules -/

section

variable {before : Bool} {pending : List String} {rule : Rule} {c : Formula} {b : Bindings}
  {depth : Nat}

theorem solveCondition_iff {prove : Leaf → Search (Option Certificate)} {o : Option Solution}
    (hcond : rule.condition = some c) (hroom : room ≠ 0) :
    (t.solveCondition prove room rule b).value = .ok o ↔
      ∃ sols, (t.solve prove c ⟨b, 1.0, []⟩).value = .ok sols ∧ sols.head? = o := by
  unfold solveCondition
  rw [hcond]
  dsimp only
  rw [if_neg hroom, bind_eq_ok]
  simp

/-- A condition is proved by its first solution, if there is one. -/
theorem proveCondition_eq_ok (hcond : rule.condition = some c) (hdepth : depth < t.maxDepth)
    {r : ConditionResult} (h : (t.proveCondition before pending rule b depth).value = .ok r) :
    ∃ sols, (t.solve (t.proveLeaf (t.maxDepth - depth) pending) c ⟨b, 1.0, []⟩).value = .ok sols ∧
      ∀ sol, r.outcome = .ok sol ↔ sols.head? = some sol := by
  obtain ⟨o, ho, rfl⟩ := Outcome.map_eq_ok.mp h
  obtain ⟨sols, hsols, rfl⟩ := (solveCondition_iff hcond (by omega)).mp ho
  refine ⟨sols, hsols, fun sol => ?_⟩
  cases sols.head? with
  | none => simp
  | some sol' => simp

theorem exists_proveCondition (hcond : rule.condition = some c) (hdepth : depth < t.maxDepth)
    (h : (t.solve (t.proveLeaf (t.maxDepth - depth) pending) c ⟨b, 1.0, []⟩).Ends) :
    ∃ r, (t.proveCondition before pending rule b depth).value = .ok r := by
  obtain ⟨sols, hsols⟩ := h
  have hroom : t.maxDepth - depth ≠ 0 := by omega
  have ho := (solveCondition_iff hcond hroom).mpr ⟨sols, hsols, rfl⟩
  exact ⟨_, Outcome.map_eq_ok.mpr ⟨_, ho, rfl⟩⟩

end

end Theory

/-! ### Stores over which conditions are decided -/

/-- Over a store, positive conditions whose leaves no rule is tried for are decided, as long as no
goal is in work already and no alternatives are dropped: a condition is proved exactly if it holds
under some assignment that agrees with the bindings put in, and the bindings given back keep those
and make it hold. -/
def DecidesOver (s : Store) : Prop :=
  ∀ (t : Theory) (before : Bool) (rule : Rule) (c : Formula) (b : Bindings) (depth : Nat),
    t.store = s → rule.condition = some c → c.isPositive = true →
    (∀ l ∈ c.leaves, t.Untried l) → depth < t.maxDepth →
    t.Throughout t.Uncapped (.condition (t.maxDepth - depth) [] c ⟨b, 1.0, []⟩) →
    ∃ r, (t.proveCondition before [] rule b depth).value = .ok r ∧
      ((∃ sol, r.outcome = .ok sol) ↔ ∃ σ, Agrees σ b ∧ c.Holds s.States σ) ∧
      ∀ sol, r.outcome = .ok sol → b.Extends sol.bindings ∧
        ∀ σ, Agrees σ sol.bindings → c.Holds s.States σ

theorem decidesOver_of_precise {s : Store} (h : s.Precise) (hp : s.Paired) : DecidesOver s := by
  rintro t before rule c b depth rfl hcond hpos hl hdepth hcap
  obtain ⟨r, hr⟩ : ∃ r, (t.proveCondition before [] rule b depth).value = .ok r :=
    Theory.exists_proveCondition hcond hdepth
      (Theory.ends_solve h.answers (Theory.ends_proveLeaf h.answers (t.maxDepth - depth) []) c _)
  obtain ⟨sols, hsols, hout⟩ := Theory.proveCondition_eq_ok hcond hdepth hr
  have hsplits := Theory.decided h hp (by omega) c hpos hl _ sols hcap hsols
  refine ⟨r, hr, ?_, fun sol hsol => ?_⟩
  · rw [← hsplits.ne_nil_iff]
    simp only [hout]
    rw [← Option.isSome_iff_exists, List.isSome_head?]
  · have hmem : sol ∈ sols := List.mem_of_mem_head? ((hout sol).mp hsol)
    exact ⟨hsplits.keeps sol hmem, fun σ hσ => hsplits.sound hmem hσ⟩

/-- No rules, and one level, which is for looking up. -/
def bare (s : Store) : Theory := { store := s, config := { maxProofDepth := 1 } }

/-- What is decided of a condition of one leaf. -/
theorem DecidesOver.leaf {s : Store} (h : DecidesOver s) (l : Leaf)
    (hcap : (bare s).Uncapped (.condition 1 [] (.leaf l) ⟨.empty, 1.0, []⟩)) :
    ∃ sols, ((bare s).solveLeaf ((bare s).proveLeaf 1 []) l ⟨.empty, 1.0, []⟩).value = .ok sols ∧
      (sols ≠ [] ↔ ∃ σ, s.States (l.under σ)) := by
  let rule : Rule := { condition := some (.leaf l) }
  have hempty : ∀ σ, Agrees σ .empty := fun σ => nofun
  have hl : (bare s).Untried l := nofun
  have hdepth : 0 < (bare s).maxDepth := Nat.zero_lt_one
  obtain ⟨r, hr, hiff, -⟩ := h (bare s) false rule (.leaf l) .empty 0 rfl rfl rfl
    (by simpa [Formula.leaves] using hl) hdepth
    (Theory.throughout_leaf hcap trivial (Theory.attempts_of_untried nofun))
  obtain ⟨sols, hsols, hout⟩ := Theory.proveCondition_eq_ok rfl hdepth hr
  unfold Theory.solve at hsols
  refine ⟨sols, hsols, ?_⟩
  simp only [hout, hempty, true_and, Formula.Holds] at hiff
  rw [← hiff, ← Option.isSome_iff_exists, List.isSome_head?]

/-- The condition that is the goal of a triple is decided, so its look-up is exact. -/
theorem DecidesOver.best {s : Store} (h : DecidesOver s) (t : Triple) :
    ∃ b, s.bestFact t.subject t.relation (some t.object) = .ok b ∧
      (b.any (fun f => decide (Existence.possible ≤ f.existence)) = true ↔
        ∃ f ∈ s.allFacts, f.triple = t ∧ Existence.possible ≤ f.existence) := by
  have hbound : (goalOf t).isBound .empty = true := rfl
  obtain ⟨sols, hsols, hiff⟩ := h.leaf (goalOf t) (Theory.uncapped_leaf hbound)
  obtain ⟨c, hc, rfl⟩ := Theory.solveLeaf_of_bound hbound hsols
  obtain ⟨b, hb⟩ := exists_bestFact_of_ends (bare s) (by simp) ⟨c, hc⟩
  have hstates : (∃ σ, s.States ((goalOf t).under σ)) ↔
      ∃ f ∈ s.allFacts, f.triple = t ∧ Existence.possible ≤ f.existence := by
    have hatom : ∀ f : Fact, ∀ σ, f.atom = (goalOf t).under σ ↔ f.triple = t :=
      fun f σ => Fact.atom_eq_iff
    simp only [Store.States, hatom, exists_const, and_comm]
  refine ⟨b, hb, ?_⟩
  rw [← hstates, ← hiff, ← Option.isSome_filter]
  change ((bare s).proveLeaf (0 + 1) [] (goalOf t)).value = _ at hc
  rw [proveLeaf_goalOf 0 rfl hb] at hc
  cases hc
  cases b.filter fun f => decide (Existence.possible ≤ f.existence) with
  | none => simp
  | some f => simp

/-- A condition that has to match the facts of a subject is decided, so these are looked up. -/
theorem DecidesOver.pair {s : Store} (h : DecidesOver s) (a r : String) (min : Option Existence) :
    ∃ fs, s.factsByPair a r min = .ok fs := by
  let l : Leaf := ⟨r, [.ident a, .hole "y"]⟩
  cases hfiled : s.collect s.byPair (Store.pairKey a r) with
  | ok fs =>
    unfold Store.factsByPair
    rw [hfiled]
    exact ⟨_, rfl⟩
  | error e =>
    exfalso
    have hmatch : (bare s).matchFacts l ⟨.empty, 1.0, []⟩ = .error e := by
      show (s.factsByPair a r (some Existence.possible) >>= _) >>= _ = _
      unfold Store.factsByPair
      rw [hfiled]
      rfl
    have hbroken : ∀ sols,
        ((bare s).solveLeaf ((bare s).proveLeaf 1 []) l ⟨.empty, 1.0, []⟩).value ≠ .ok sols := by
      intro sols hsols
      change (ofExcept ((bare s).matchFacts l ⟨.empty, 1.0, []⟩)).value = _ at hsols
      rw [hmatch] at hsols
      cases hsols
    -- a search that breaks off drops nothing
    have hcap : (bare s).Uncapped (.condition 1 [] (.leaf l) ⟨.empty, 1.0, []⟩) := by
      intro sols hsols
      unfold Theory.solve at hsols
      exact (hbroken sols hsols).elim
    obtain ⟨sols, hsols, -⟩ := h.leaf l hcap
    exact hbroken sols hsols

/-- **Conditions are decided as queries over the precise stores and no others, and with that over
every store that is reached without a wrap of the counter.** -/
theorem decidesOver_iff {ok : Store → Prop} {s : Store} (h : Store.Reached ok s) :
    (DecidesOver s ↔ s.Precise) ∧
      (Store.Reached Store.Unwrapped s → s.Clean → DecidesOver s) := by
  have hp := Store.paired_of_reached h
  refine ⟨⟨fun hd => ⟨hd.best, hd.pair⟩, fun hs => decidesOver_of_precise hs hp⟩, fun hr hc => ?_⟩
  exact decidesOver_of_precise ((Store.coherent_of_reached hr).precise hc) hp

/-- A grandchild of Tom is found by way of the one in between, whom only the condition names. -/
theorem decidesOver_iff_grandparent :
    let c : Formula := .all [.leaf ⟨"parent", [.hole "x", .hole "y"]⟩,
      .leaf ⟨"parent", [.hole "y", .hole "z"]⟩]
    let t : Theory := { store := parents, rules := grandparents.rules }
    let b : Bindings := ⟨[("x", "Tom")]⟩
    Store.Reached Store.Unwrapped parents ∧ parents.Clean ∧
      (∀ l ∈ c.leaves, t.Untried l) ∧
      t.Throughout t.Uncapped (.condition t.maxDepth [] c ⟨b, 1.0, []⟩) ∧
      ∃ rule ∈ grandparents.rules, rule.condition = some c ∧
        ∃ r sol, (t.proveCondition false [] rule b 0).value = .ok r ∧ r.outcome = .ok sol ∧
          sol.bindings = ⟨[("x", "Tom"), ("y", "Ann"), ("z", "Sue")]⟩ ∧ b.Extends sol.bindings ∧
          ∀ σ, Agrees σ sol.bindings → c.Holds parents.States σ := by
  intro c t b
  have hs : Store.Reached Store.Unwrapped parents := by
    unfold parents
    refine .step _ (.step _ (.make (n := 2) rfl) ?_) ?_
    all_goals decide +kernel
  have hc : parents.Clean := by decide +kernel
  have hl : ∀ l ∈ c.leaves, t.Untried l := by decide +kernel
  have hcap : t.Throughout t.Uncapped (.condition t.maxDepth [] c ⟨b, 1.0, []⟩) :=
    Theory.throughout_conjunction (t := t) (Store.coherent_of_reached hs) hc hl
      (by decide +kernel) _
  obtain ⟨rule, hrule, hcond⟩ : ∃ rule ∈ grandparents.rules, rule.condition = some c :=
    ⟨_, List.mem_cons_self, rfl⟩
  have hdepth : 0 < t.maxDepth := by decide
  have hfirst : ((t.solve (t.proveLeaf t.maxDepth []) c ⟨b, 1.0, []⟩).value.toOption.bind
      List.head?).map Solution.bindings = some ⟨[("x", "Tom"), ("y", "Ann"), ("z", "Sue")]⟩ := by
    decide +kernel
  obtain ⟨r, hr, -, hsound⟩ :=
    (decidesOver_iff hs).2 hs hc t false rule c b 0 rfl hcond rfl hl hdepth hcap
  obtain ⟨sols, hsols, hout⟩ := Theory.proveCondition_eq_ok hcond hdepth hr
  change (t.solve (t.proveLeaf t.maxDepth []) c ⟨b, 1.0, []⟩).value = _ at hsols
  rw [hsols] at hfirst
  obtain ⟨sol, hsol, hbindings⟩ := Option.map_eq_some_iff.mp hfirst
  have hfound : r.outcome = .ok sol := (hout sol).mpr hsol
  exact ⟨hs, hc, hl, hcap, rule, hrule, hcond, r, sol, hr, hfound, hbindings,
    (hsound sol hfound).1, (hsound sol hfound).2⟩

/-- After a wrap, a condition is proved that holds under no assignment: the look-up of its triple
gives the fact whose id the triple was given. -/
theorem undecided_after_wrap :
    let c : Formula := .leaf (goalOf ⟨"x", "p", "y"⟩)
    let t : Theory := { store := wrapped }
    Store.Reached (fun _ => True) wrapped ∧ wrapped.Clean ∧
      (∃ r sol, (t.proveCondition false [] { condition := some c } .empty 0).value = .ok r ∧
        r.outcome = .ok sol) ∧
      (¬ ∃ σ, c.Holds wrapped.States σ) ∧ ¬ DecidesOver wrapped := by
  intro c t
  have hs : Store.Reached (fun _ => True) wrapped := by
    unfold wrapped
    exact .step _ (.step _ (.make (n := 2) rfl) trivial) trivial
  have hclean : wrapped.Clean := by
    rw [wrapped_eq]
    decide +kernel
  have hnone : ¬ ∃ σ, c.Holds wrapped.States σ := by
    rintro ⟨σ, f, hf, -, hatom⟩
    have hall : ∀ f ∈ wrapped.allFacts, f.relation = "q" := by
      rw [wrapped_eq]
      decide +kernel
    have hrel : f.relation = "p" := congrArg Atom.op hatom
    rw [hall f hf] at hrel
    exact absurd hrel (by decide)
  have hproved : ((t.proveCondition false [] { condition := some c } .empty 0).value.toOption.bind
      (·.outcome.toOption)).isSome = true := by
    show ((Theory.proveCondition { store := wrapped } _ _ _ _ _).value.toOption.bind _).isSome = _
    rw [wrapped_eq]
    decide +kernel
  have hvalid : ∃ r sol, (t.proveCondition false [] { condition := some c } .empty 0).value =
      .ok r ∧ r.outcome = .ok sol := by
    obtain ⟨sol, hsol⟩ := Option.isSome_iff_exists.mp hproved
    obtain ⟨r, hr, hsol⟩ := Option.bind_eq_some_iff.mp hsol
    exact ⟨r, sol, Outcome.eq_ok_of_toOption hr, Outcome.eq_ok_of_toOption hsol⟩
  refine ⟨hs, hclean, hvalid, hnone, fun hd => ?_⟩
  obtain ⟨r, hr, hiff, -⟩ := hd t false { condition := some c } c .empty 0 rfl rfl rfl nofun
    (by decide) (Theory.throughout_leaf (Theory.uncapped_leaf rfl) trivial
      (Theory.attempts_of_untried nofun))
  obtain ⟨r', sol, hr', hsol⟩ := hvalid
  rw [hr] at hr'
  cases hr'
  obtain ⟨σ, -, hholds⟩ := hiff.mp ⟨sol, hsol⟩
  exact hnone ⟨σ, hholds⟩

end Proof

end KnowledgeBase
