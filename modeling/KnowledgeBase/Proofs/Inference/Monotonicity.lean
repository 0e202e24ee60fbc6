import KnowledgeBase.Proofs.Inference.Certainty

/-!
# More facts

What becomes of a certain answer when facts are added.  The methods that look for facts keep theirs.
A composition search keeps at most `matchCap` triples for a goal and at most as many matches of a
body, and one spelling of each triple, so an added fact may take the place of the one that a proof
needs; as long as the search over all the facts leaves nothing out, it finds what it found over
fewer.

* `run_certain_mono`: the methods that look for facts;
* `lossless`, `full_or_respelled_of_lost`: a search that leaves nothing out, and what it takes to
  leave something out;
* `exists_derivation_mono`: whatever meets a goal still does, by induction on the depth;
* `ask_certain_of_append`, `crowded_out`: the law for questions, and why it has its condition.
-/

namespace KnowledgeBase.Inference

open Saturation

variable {i : Inference} {facts facts' : List Fact} {goal : Triple} {depth : Nat}

/-! ### Methods that look for facts -/

section

variable (hsub : ∀ f ∈ facts, f ∈ facts')

include hsub

theorem exists_states_mono {t : Triple} (h : ∃ f ∈ facts, f.states t = true) :
    ∃ f ∈ facts', f.states t = true := by
  obtain ⟨f, hf, hstates⟩ := h
  exact ⟨f, hsub f hf, hstates⟩

theorem way_edges_mono {relation a b : String} {n : Nat}
    (h : Chain.Way (Chain.edges facts relation) n a b) :
    Chain.Way (Chain.edges facts' relation) n a b := by
  refine h.mono fun e he => ?_
  obtain ⟨f, hf, rfl⟩ := List.mem_map.mp he
  obtain ⟨hf, hrelation⟩ := List.mem_filter.mp hf
  exact List.mem_map_of_mem (List.mem_filter.mpr ⟨hsub f hf, hrelation⟩)

/-- A type of a term stays one of its types, if maybe in another spelling. -/
theorem exists_types_mono {term t : String} (h : t ∈ Chain.types facts term depth) :
    ∃ t' ∈ Chain.types facts' term depth, Text.fold t' = Text.fold t := by
  obtain ⟨hne, n, hn, hway⟩ := Chain.exists_mem_types_iff.mp ⟨t, h, rfl⟩
  exact Chain.exists_mem_types_iff.mpr ⟨hne, n, hn, way_edges_mono hsub hway⟩

/-- More facts take no certain answer away from a method that looks for facts. -/
theorem run_certain_mono {m : Method} (hm : m ≠ .composition)
    (h : (i.run facts goal depth m).truth = .certain) :
    (i.run facts' goal depth m).truth = .certain := by
  cases m with
  | direct => exact direct_certain_iff.mpr (exists_states_mono hsub (direct_certain_iff.mp h))
  | transitive =>
    obtain ⟨htrans, n, hn, hway⟩ := transitive_certain_iff.mp h
    exact transitive_certain_iff.mpr ⟨htrans, n, hn, way_edges_mono hsub hway⟩
  | symmetric =>
    obtain ⟨hsymm, hstated⟩ := symmetric_certain_iff.mp h
    exact symmetric_certain_iff.mpr ⟨hsymm, exists_states_mono hsub hstated⟩
  | inverse =>
    obtain ⟨inv, hinv, hstated⟩ := inverse_certain_iff.mp h
    exact inverse_certain_iff.mpr ⟨inv, hinv, exists_states_mono hsub hstated⟩
  | inheritance =>
    obtain ⟨hinherits, t, ht, hstated⟩ := inheritance_certain_iff.mp h
    obtain ⟨t', ht', hfold⟩ := exists_types_mono hsub ht
    obtain ⟨f, hf, hstates⟩ := exists_states_mono hsub hstated
    refine inheritance_certain_iff.mpr ⟨hinherits, t', ht', f, hf, ?_⟩
    rw [states_iff] at hstates ⊢
    exact ⟨hstates.1, hstates.2.1.trans hfold.symm, hstates.2.2⟩
  | composition => exact absurd rfl hm
  | byDefault => exact absurd h byDefault_truth_ne_certain

end

namespace Composition

/-! ### Searches that leave nothing out -/

section

variable (rules : List CompositionRule) (facts : List Fact)

/-- Every triple that a goal is offered is kept as it is spelled. -/
def keepsAll (depth : Nat) (path : List String) (goal : Triple) : Bool :=
  (offers rules facts depth path goal).all fun d =>
    (derivations rules facts depth path goal).any (·.triple == d.triple)

/-- The search for a goal leaves nothing out, nor does the search for any goal that comes up in
it. -/
def lossless : (depth : Nat) → (path : List String) → Triple → Bool
  | 0, path, goal => path.contains (Pattern.key goal) || keepsAll rules facts 0 path goal
  | depth + 1, path, goal =>
    path.contains (Pattern.key goal) ||
      keepsAll rules facts (depth + 1) path goal &&
        (openings rules goal).all fun o =>
          let derive := derivations rules facts depth (Pattern.key goal :: path)
          decide ((allMatches derive o.1.body o.2).length ≤ matchCap) &&
            (asked derive o.1.body o.2).all (lossless depth (Pattern.key goal :: path))

/-- The search for a proof of a goal leaves nothing out. -/
def losslessProof (goal : Triple) : (depth : Nat) → Bool
  | 0 => true
  | depth + 1 =>
    (openings rules goal).all fun o =>
      (asked (derivations rules facts depth [Pattern.key goal]) o.1.body o.2).all
        (lossless rules facts depth [Pattern.key goal])

end

variable {rules : List CompositionRule} {derive derive' : Triple → List Derivation}
  {ps : List Pattern} {b : Bindings} {d : Derivation} {path : List String}

/-- A triple is left out only if the goal has all it may have, or has another spelling of it. -/
theorem full_or_respelled_of_lost (hpath : path.contains (Pattern.key goal) = false)
    (hd : d ∈ offers rules facts depth path goal)
    (hlost : ∀ e ∈ derivations rules facts depth path goal, e.triple ≠ d.triple) :
    matchCap ≤ (derivations rules facts depth path goal).length ∨
      ∃ e ∈ derivations rules facts depth path goal,
        e.triple ≠ d.triple ∧ e.triple.termKey = d.triple.termKey := by
  refine or_iff_not_imp_left.mpr fun hroom => ?_
  obtain ⟨e, he, hkey⟩ := exists_derivation hpath (Nat.lt_of_not_le hroom) hd
  exact ⟨e, he, hlost e he, hkey⟩

theorem exists_kept_of_keepsAll (h : keepsAll rules facts depth path goal = true)
    (hd : d ∈ offers rules facts depth path goal) :
    ∃ e ∈ derivations rules facts depth path goal, e.triple = d.triple := by
  obtain ⟨e, he, hsame⟩ := List.any_eq_true.mp (List.all_eq_true.mp h d hd)
  exact ⟨e, he, beq_iff_eq.mp hsame⟩

/-! ### More facts -/

/-- A match of a body is still there if whatever meets the goals of the body still does. -/
theorem exists_allMatches_mono
    (h : ∀ g ∈ asked derive' ps b, ∀ d ∈ derive g, ∃ d' ∈ derive' g, d'.triple = d.triple)
    {m : Match} (hm : m ∈ allMatches derive ps b) :
    ∃ m' ∈ allMatches derive' ps b, m'.bindings = m.bindings := by
  induction ps generalizing b m with
  | nil => exact ⟨m, hm, rfl⟩
  | cons p ps ih =>
    obtain ⟨d, hd, ext, hext, n, hn, rfl⟩ := mem_allMatches_cons.mp hm
    obtain ⟨d', hd', htriple⟩ := h (p.instantiate b) List.mem_cons_self d hd
    rw [← htriple] at hext
    have hrest : ∀ g ∈ asked derive' ps ext, g ∈ asked derive' (p :: ps) b := by
      intro g hg
      rw [asked, List.mem_cons, List.mem_flatMap]
      refine Or.inr ⟨d', hd', ?_⟩
      rw [hext]
      exact hg
    obtain ⟨n', hn', hbindings⟩ := ih (fun g hg => h g (hrest g hg)) hn
    exact ⟨⟨n'.bindings, d'.steps ++ n'.steps⟩,
      mem_allMatches_cons.mpr ⟨d', hd', ext, hext, n', hn', rfl⟩, hbindings⟩

/-- An opening still concludes what it did, if no match of its body is cut off. -/
theorem exists_concluded_mono {o : CompositionRule × Bindings}
    (h : ∀ g ∈ asked derive' o.1.body o.2, ∀ d ∈ derive g, ∃ d' ∈ derive' g, d'.triple = d.triple)
    (hcap : (allMatches derive' o.1.body o.2).length ≤ matchCap) (hd : d ∈ concluded derive o) :
    ∃ d' ∈ concluded derive' o, d'.triple = d.triple := by
  obtain ⟨m, hm, hground, rfl⟩ := mem_concluded.mp hd
  rw [matchBody_eq_take _ _ _ (by decide)] at hm
  obtain ⟨m', hm', hbindings⟩ := exists_allMatches_mono h (List.mem_of_mem_take hm)
  rw [← hbindings] at hground ⊢
  refine ⟨_, mem_concluded.mpr ⟨m', ?_, hground, rfl⟩, rfl⟩
  rw [matchBody_eq_take _ _ _ (by decide), List.take_of_length_le hcap]
  exact hm'

section

variable (hsub : ∀ f ∈ facts, f ∈ facts')

include hsub

/-- **More facts take away nothing that meets a goal**, if the search over them leaves nothing
out. -/
theorem exists_derivation_mono (hfree : lossless rules facts' depth path goal = true)
    (hd : d ∈ derivations rules facts depth path goal) :
    ∃ d' ∈ derivations rules facts' depth path goal, d'.triple = d.triple := by
  have hmatching : ∀ g d, d ∈ matching facts g → d ∈ matching facts' g := by
    intro g d hd
    obtain ⟨f, hf, hfits⟩ := mem_matching.mp hd
    exact mem_matching.mpr ⟨f, hsub f hf, hfits⟩
  induction depth generalizing path goal d with
  | zero =>
    rcases Bool.or_eq_true_iff.mp hfree with hblocked | hkeeps
    · rw [derivations_eq, if_pos hblocked] at hd
      cases hd
    · exact exists_kept_of_keepsAll hkeeps (hmatching goal d (mem_offers hd))
  | succ depth ih =>
    rcases Bool.or_eq_true_iff.mp hfree with hblocked | hfree
    · rw [derivations_eq, if_pos hblocked] at hd
      cases hd
    obtain ⟨hkeeps, hopenings⟩ := Bool.and_eq_true_iff.mp hfree
    -- what was offered still is, and all of it is kept
    suffices hoffer : ∃ d' ∈ offers rules facts' (depth + 1) path goal, d'.triple = d.triple by
      obtain ⟨d', hd', htriple⟩ := hoffer
      rw [← htriple]
      exact exists_kept_of_keepsAll hkeeps hd'
    rcases mem_offers_succ.mp (mem_offers hd) with hstored | ⟨o, ho, hd⟩
    · exact ⟨d, mem_offers_succ.mpr (Or.inl (hmatching goal d hstored)), rfl⟩
    · obtain ⟨hcap, hasked⟩ := Bool.and_eq_true_iff.mp (List.all_eq_true.mp hopenings o ho)
      obtain ⟨d', hd', htriple⟩ := exists_concluded_mono
        (fun g hg _ hd => ih (List.all_eq_true.mp hasked g hg) hd) (of_decide_eq_true hcap) hd
      exact ⟨d', mem_offers_succ.mpr (Or.inr ⟨o, ho, hd'⟩), htriple⟩

theorem prove?_isSome_mono (hfree : losslessProof rules facts' goal depth = true)
    (h : (prove? rules facts goal depth).isSome = true) :
    (prove? rules facts' goal depth).isSome = true := by
  cases depth with
  | zero =>
    -- without depth a body is matched only if it is empty, whatever the facts are
    have hsame : prove? rules facts goal 0 = prove? rules facts' goal 0 := by
      unfold prove?
      congr 1
      funext r
      cases r.body <;> rfl
    rwa [← hsame]
  | succ depth =>
    obtain ⟨o, ho, hmatches⟩ := prove?_isSome.mp h
    obtain ⟨m, hm⟩ := List.exists_mem_of_ne_nil _ hmatches
    obtain ⟨m', hm', -⟩ := exists_allMatches_mono
      (fun g hg _ hd => exists_derivation_mono hsub
        (List.all_eq_true.mp (List.all_eq_true.mp hfree o ho) g hg) hd) hm
    exact prove?_isSome.mpr ⟨o, ho, List.ne_nil_of_mem hm'⟩

end

end Composition

open KnowledgeBase.Inference.Composition

/-! ### Questions -/

theorem composition_method : (i.composition facts goal depth).method = Method.composition.name := by
  unfold composition
  cases prove? i.relations.compositions facts goal depth <;> rfl

/-- **Certain answers survive new facts**: a question that is certain stays certain when facts are
added, if by composition then as long as its search over all of them leaves nothing out. -/
theorem ask_certain_of_append (i : Inference) {facts more : List Fact} {goal : Triple}
    {names : List String} {depth : Option Nat} {a : Answer}
    (hask : i.ask facts goal names depth = .ok a) (hcertain : a.truth = .certain)
    (hfree : a.method = Method.composition.name →
      losslessProof i.relations.compositions (facts ++ more) goal (depth.getD i.horizon) = true) :
    ∃ a', i.ask (facts ++ more) goal names depth = .ok a' ∧ a'.truth = .certain := by
  obtain ⟨ms, hms, hinfer⟩ : ∃ ms, Method.select names = .ok ms ∧
      i.infer facts goal ms (depth.getD i.horizon) = a := by
    unfold ask at hask
    cases hselect : Method.select names with
    | error e =>
      rw [hselect] at hask
      cases hask
    | ok ms =>
      rw [hselect] at hask
      exact ⟨ms, rfl, Except.ok.inj hask⟩
  have hsub : ∀ f ∈ facts, f ∈ facts ++ more := fun f hf => List.mem_append_left more hf
  refine ⟨i.infer (facts ++ more) goal ms (depth.getD i.horizon), ?_, ?_⟩
  · rw [ask, hms]
    rfl
  rw [← hinfer] at hcertain hfree
  obtain ⟨m, hm, hrun⟩ := exists_run_of_infer hcertain
  rw [hrun] at hcertain hfree
  refine (infer_certain_iff_run hms).mpr ⟨m, hm, ?_⟩
  by_cases hcomposition : m = .composition
  · subst hcomposition
    exact composition_certain_iff.mpr (prove?_isSome_mono hsub (hfree composition_method)
      (composition_certain_iff.mp hcertain))
  · exact run_certain_mono hsub hcomposition hcertain

/-! ### Trips -/

/-- A flight is a leg of its trip, and a trip gets to where one of its legs ends. -/
def traveling : Inference :=
  { relations := { Relations.bare with
      compositions := [⟨"flight", ⟨"?y", "LEG", "?x"⟩, [⟨"?y", "FLIGHT", "?x"⟩]⟩,
        ⟨"gets", ⟨"?x", "GETS_TO", "?z"⟩, [⟨"?y", "LEG", "?x"⟩, ⟨"?y", "ENDS", "?z"⟩]⟩] } }

theorem registered_traveling : traveling.relations.Registered := by
  have hflight := Relations.Registered.composition .bare
    (c := ⟨"flight", ⟨"?y", "LEG", "?x"⟩, [⟨"?y", "FLIGHT", "?x"⟩]⟩) rfl
  exact hflight.composition
    (c := ⟨"gets", ⟨"?x", "GETS_TO", "?z"⟩, [⟨"?y", "LEG", "?x"⟩, ⟨"?y", "ENDS", "?z"⟩]⟩) rfl

/-- Trip `a` with flight `b`. -/
def flightFacts : List Fact :=
  [{ triple := ⟨"b", "FLIGHT", "a"⟩ }, { triple := ⟨"b", "ENDS", "c"⟩ }]

/-- One more leg beside the flight. -/
theorem ask_certain_of_append_flight :
    ∃ a, traveling.ask flightFacts ⟨"a", "GETS_TO", "c"⟩ [] none = .ok a ∧ a.truth = .certain ∧
      a.method = Method.composition.name ∧
      losslessProof traveling.relations.compositions
        (flightFacts ++ [{ triple := ⟨"d", "LEG", "a"⟩ }]) ⟨"a", "GETS_TO", "c"⟩ 10 = true ∧
      ∃ a', traveling.ask (flightFacts ++ [{ triple := ⟨"d", "LEG", "a"⟩ }]) ⟨"a", "GETS_TO", "c"⟩
        [] none = .ok a' ∧ a'.truth = .certain := by
  have hanswer : (traveling.infer flightFacts ⟨"a", "GETS_TO", "c"⟩ Method.all 10).truth =
        .certain ∧
      (traveling.infer flightFacts ⟨"a", "GETS_TO", "c"⟩ Method.all 10).method =
        Method.composition.name := by
    decide +kernel
  have hfree : losslessProof traveling.relations.compositions
      (flightFacts ++ [{ triple := ⟨"d", "LEG", "a"⟩ }]) ⟨"a", "GETS_TO", "c"⟩ 10 = true := by
    decide +kernel
  exact ⟨_, rfl, hanswer.1, hanswer.2, hfree,
    ask_certain_of_append traveling rfl hanswer.1 fun _ => hfree⟩

/-- Sixty-four more legs, of which nothing else is known. -/
def otherLegs : List Fact :=
  "abcdefgh".toList.flatMap fun x => "abcdefgh".toList.map fun y =>
    { triple := ⟨String.ofList [x, y], "LEG", "a"⟩ }

/-- **Added facts may crowd out the match of a proof**: stored legs come before those that a rule
derives, and these are as many as are kept. -/
theorem crowded_out :
    traveling.relations.Registered ∧ otherLegs.length = matchCap ∧
      (traveling.ask flightFacts ⟨"a", "GETS_TO", "c"⟩ [] none).map Answer.truth = .ok .certain ∧
      (traveling.ask (flightFacts ++ otherLegs) ⟨"a", "GETS_TO", "c"⟩ [] none).map Answer.truth =
        .ok .unknown :=
  ⟨registered_traveling, by decide +kernel, by decide +kernel, by decide +kernel⟩

end KnowledgeBase.Inference
