import KnowledgeBase.Proofs.Inference.Search
import KnowledgeBase.Proofs.Inference.Spelling

/-!
# Consistent respellings

Composition rules bind variables to terms as they are written, so a search of the rules is left
alone only by a respelling that keeps equal terms equal and different terms different.

* `Renaming`, `Keeps`: one-to-one respellings, and those that leave the terms of rules as they are;
* `Bindings.Renamed`, `rel_matchTerms?`, `rel_matchGoal?`: the same matches with respelled values;
* `rel_derivations`, `rel_prove?`: the same search, derivation for derivation, by induction on the
  depth;
* `ask_truth_of_respelled`: all methods together, and `spelling_decides`, where a respelling that is
  not consistent loses an answer.
-/

namespace KnowledgeBase

/-- A respelling under which terms are equal exactly if they were equal before. -/
structure Renaming (R : String → String → Prop) : Prop where
  alike : ∀ a a', R a a' → Text.Alike a a'
  isVariable : ∀ a a', R a a' → Text.isVariable a = Text.isVariable a'
  unique : Relator.BiUnique R

/-- A respelling leaves the terms of the rules as they are. -/
def Keeps (R : String → String → Prop) (rules : List CompositionRule) : Prop :=
  ∀ c ∈ rules, ∀ p ∈ c.head :: c.body, p.Respelled R p

variable {R : String → String → Prop}

/-- A respelling is a renaming, if each term has one spelling before and one afterwards. -/
theorem Renaming.of_spelled {terms terms' : List String} (halike : ∀ a a', R a a' → Text.Alike a a')
    (hvariable : ∀ a a', R a a' → Text.isVariable a = Text.isVariable a')
    (hstock : ∀ a a', R a a' → a ∈ terms ∧ a' ∈ terms')
    (hterms : ∀ a ∈ terms, ∀ b ∈ terms, Text.fold a = Text.fold b → a = b)
    (hterms' : ∀ a ∈ terms', ∀ b ∈ terms', Text.fold a = Text.fold b → a = b) : Renaming R := by
  refine ⟨halike, hvariable, fun a b c hac hbc => ?_, fun a b c hab hac => ?_⟩
  · have hfold : Text.fold a = Text.fold b := (halike a c hac).trans (halike b c hbc).symm
    exact hterms a (hstock a c hac).1 b (hstock b c hbc).1 hfold
  · have hfold : Text.fold b = Text.fold c := (halike a b hab).symm.trans (halike a c hac)
    exact hterms' b (hstock a b hab).2 c (hstock a c hac).2 hfold

/-! ### Bindings -/

namespace Bindings

/-- The same variables, with values that correspond. -/
def Renamed (R : String → String → Prop) (b b' : Bindings) : Prop :=
  List.Forall₂ (fun e e' : String × String => e.1 = e'.1 ∧ R e.2 e'.2) b.entries b'.entries

variable {b b' : Bindings} {value value' : String}

theorem renamed_empty (R : String → String → Prop) : empty.Renamed R empty := .nil

theorem rel_get? (h : b.Renamed R b') (name : String) :
    Option.Rel R (b.get? name) (b'.get? name) := by
  unfold Renamed at h
  unfold get?
  generalize b.entries = es, b'.entries = es' at h ⊢
  induction h with
  | nil => exact .none
  | @cons e e' es es' he _ ih =>
    rw [List.lookup_cons, List.lookup_cons, he.1]
    split
    · exact .some he.2
    · exact ih

theorem rel_bind? (hR : Renaming R) (h : b.Renamed R b') (name : String) (hv : R value value') :
    Option.Rel (Renamed R) (b.bind? name value) (b'.bind? name value') := by
  have hget := rel_get? h name
  unfold bind?
  generalize b.get? name = found, b'.get? name = found' at hget ⊢
  cases hget with
  | none => exact .some (List.rel_append h (.cons ⟨rfl, hv⟩ .nil))
  | @some w w' hw =>
    have heq : w = value ↔ w' = value' := Relator.rel_eq hR.unique hw hv
    dsimp only
    by_cases hwv : w = value
    · rw [if_pos hwv, if_pos (heq.mp hwv)]
      exact .some h
    · rw [if_neg hwv, if_neg fun hwv' => hwv (heq.mpr hwv')]
      exact .none

end Bindings

/-! ### Patterns -/

namespace Pattern

open Bindings

variable {b b' : Bindings} {term value value' : String} {p : Pattern} {goal goal' t t' : Triple}

theorem resolve_renamed (h : b.Renamed R b') (hterm : R term term) :
    R (resolve b term) (resolve b' term) := by
  have hget := rel_get? h (variableName term)
  unfold resolve
  generalize b.get? (variableName term) = found, b'.get? (variableName term) = found' at hget ⊢
  split
  · cases hget with
    | none => exact hterm
    | some hv => exact hv
  · exact hterm

theorem instantiate_respelled (h : b.Renamed R b') (hp : p.Respelled R p) :
    (p.instantiate b).Respelled R (p.instantiate b') :=
  ⟨rfl, resolve_renamed h hp.subject, resolve_renamed h hp.object⟩

section

variable (hR : Renaming R)

include hR

theorem isGround_eq (h : t.Respelled R t') : isGround t = isGround t' := by
  unfold isGround
  rw [hR.isVariable _ _ h.subject, hR.isVariable _ _ h.object]

theorem key_eq (h : goal.Respelled R goal') : key goal = key goal' := by
  unfold key
  dsimp only
  rw [hR.isVariable _ _ h.subject, hR.isVariable _ _ h.object, hR.alike _ _ h.subject,
    hR.alike _ _ h.object, h.relation]

theorem rel_matchTerm? (h : b.Renamed R b') (term : String) (hv : R value value') :
    Option.Rel (Renamed R) (matchTerm? term value b) (matchTerm? term value' b') := by
  have hsame : Text.same term value = Text.same term value' :=
    Text.same_congr (Text.Alike.refl term) (hR.alike _ _ hv)
  unfold matchTerm?
  rw [hsame]
  split
  · exact rel_bind? hR h _ hv
  · split
    · exact .some h
    · exact .none

theorem rel_matchTerms? (h : b.Renamed R b') (p : Pattern) (ht : t.Respelled R t') :
    Option.Rel (Renamed R) (p.matchTerms? t.subject t.object b)
      (p.matchTerms? t'.subject t'.object b') :=
  rel_bind (rel_matchTerm? hR h p.subject ht.subject) fun _ _ hext =>
    rel_matchTerm? hR hext p.object ht.object

theorem rel_matchGoal? (head : Pattern) (h : goal.Respelled R goal') :
    Option.Rel (Renamed R) (head.matchGoal? goal) (head.matchGoal? goal') := by
  have hempty : Option.Rel (Renamed R) (some Bindings.empty) (some Bindings.empty) :=
    .some (renamed_empty R)
  unfold matchGoal?
  dsimp only
  rw [hR.isVariable _ _ h.subject, hR.isVariable _ _ h.object]
  refine rel_bind (S := Renamed R) ?_ fun b b' hb => ?_
  · split
    · exact hempty
    · exact rel_matchTerm? hR (renamed_empty R) head.subject h.subject
  · split
    · exact .some hb
    · exact rel_matchTerm? hR hb head.object h.object

end

end Pattern

/-! ### Bodies -/

namespace Inference.Composition

open Bindings Pattern

/-- The same triple about terms that correspond, whatever the steps. -/
def Derivation.Respelled (R : String → String → Prop) (d d' : Derivation) : Prop :=
  d.triple.Respelled R d'.triple

def Match.Renamed (R : String → String → Prop) (m m' : Match) : Prop :=
  m.bindings.Renamed R m'.bindings

/-- Goals that correspond are met by derivations that correspond. -/
def Tracks (R : String → String → Prop) (derive derive' : Triple → List Derivation) : Prop :=
  ∀ g g' : Triple, g.Respelled R g' →
    List.Forall₂ (Derivation.Respelled R) (derive g) (derive' g')

variable {derive derive' : Triple → List Derivation} {ps : List Pattern} {b b' : Bindings}
  {rules : List CompositionRule} {facts facts' : List Fact} {goal goal' : Triple}

section

variable (hR : Renaming R)

include hR

theorem rel_allMatches (hderive : Tracks R derive derive') (hps : ∀ p ∈ ps, p.Respelled R p)
    (hb : b.Renamed R b') :
    List.Forall₂ (Match.Renamed R) (allMatches derive ps b) (allMatches derive' ps b') := by
  induction ps generalizing b b' with
  | nil => exact .cons hb .nil
  | cons p ps ih =>
    refine List.rel_flatMap (hderive _ _ (instantiate_respelled hb (hps p List.mem_cons_self))) ?_
    intro d d' hd
    have hmatch := rel_matchTerms? hR hb p hd
    dsimp only
    generalize p.matchTerms? d.triple.subject d.triple.object b = ext,
      p.matchTerms? d'.triple.subject d'.triple.object b' = ext' at hmatch ⊢
    cases hmatch with
    | none => exact .nil
    | some hext =>
      have hrest := ih (fun q hq => hps q (List.mem_cons_of_mem p hq)) hext
      refine List.rel_map ?_ hrest
      intro m m' hm
      exact hm

theorem rel_matchBody (hderive : Tracks R derive derive') (hps : ∀ p ∈ ps, p.Respelled R p)
    (hb : b.Renamed R b') {limit : Nat} (hlimit : 1 ≤ limit) :
    List.Forall₂ (Match.Renamed R) (matchBody derive ps b limit)
      (matchBody derive' ps b' limit) := by
  rw [matchBody_eq_take _ _ _ hlimit, matchBody_eq_take _ _ _ hlimit]
  exact List.forall₂_take limit (rel_allMatches hR hderive hps hb)

/-! ### Pools -/

/-- Pools that correspond have the same keys. -/
structure Pool.Respelled (R : String → String → Prop) (p p' : Pool) : Prop where
  keys : p.keys = p'.keys
  kept : List.Forall₂ (Derivation.Respelled R) p.kept p'.kept

theorem Pool.Respelled.keep {p p' : Pool} {d d' : Derivation} (hp : p.Respelled R p')
    (hd : d.Respelled R d') : (p.keep d).Respelled R (p'.keep d') := by
  have hfull : p.isFull = p'.isFull := by
    unfold Pool.isFull
    rw [hp.kept.length_eq]
  have hkey : d.triple.termKey = d'.triple.termKey := (hd.mono hR.alike).termKey_eq
  unfold Pool.keep
  rw [hfull, hp.keys, hkey]
  split
  · exact hp
  · dsimp only
    split
    · exact hp
    · exact ⟨rfl, List.rel_append hp.kept (.cons hd .nil)⟩

theorem rel_foldl_keep {ds ds' : List Derivation}
    (hds : List.Forall₂ (Derivation.Respelled R) ds ds') :
    Pool.Respelled R (ds.foldl Pool.keep {}) (ds'.foldl Pool.keep {}) :=
  List.rel_foldl (fun _ _ hp _ _ hd => hp.keep hR hd) ⟨rfl, .nil⟩ hds

/-! ### Goals -/

theorem rel_matching (hfacts : List.Forall₂ (Fact.Respelled R) facts facts')
    (hgoal : goal.Respelled R goal') :
    List.Forall₂ (Derivation.Respelled R) (matching facts goal) (matching facts' goal') := by
  have hwanted : ∀ a a', R a a' → wanted a = wanted a' := by
    intro a a' ha
    unfold wanted
    rw [hR.isVariable _ _ ha, hR.alike _ _ ha]
  have hfits : ∀ w a a', R a a' → fits w a = fits w a' := by
    intro w a a' ha
    unfold fits
    rw [hR.alike _ _ ha]
  unfold matching
  rw [hgoal.relation, hwanted _ _ hgoal.subject, hwanted _ _ hgoal.object]
  refine List.rel_map ?_ (rel_filter ?_ hfacts)
  · intro f f' hf
    exact hf
  · intro f f' hf
    have hrelation : f.relation = f'.relation := hf.relation
    rw [hrelation, hfits _ f.subject f'.subject hf.subject, hfits _ f.object f'.object hf.object]

/-- The rules that may conclude a goal stay the same, and their bindings correspond. -/
theorem rel_openings (hgoal : goal.Respelled R goal') :
    List.Forall₂ (fun o o' : CompositionRule × Bindings => o.1 = o'.1 ∧ o.1 ∈ rules ∧
      o.2.Renamed R o'.2) (openings rules goal) (openings rules goal') := by
  refine List.rel_filterMap ?_ (rel_self rules)
  rintro r r' ⟨rfl, hr⟩
  dsimp only
  rw [hgoal.relation]
  split
  · exact .none
  · have hmatch := rel_matchGoal? hR r.head hgoal
    generalize r.head.matchGoal? goal = b, r.head.matchGoal? goal' = b' at hmatch ⊢
    cases hmatch with
    | none => exact .none
    | some hb => exact .some ⟨rfl, hr, hb⟩

theorem rel_concluded (hkeeps : Keeps R rules) (hderive : Tracks R derive derive')
    {o o' : CompositionRule × Bindings}
    (ho : o.1 = o'.1 ∧ o.1 ∈ rules ∧ o.2.Renamed R o'.2) :
    List.Forall₂ (Derivation.Respelled R) (concluded derive o) (concluded derive' o') := by
  obtain ⟨r, b⟩ := o
  obtain ⟨r', b'⟩ := o'
  obtain ⟨rfl, hr, hb⟩ := ho
  have hbody : ∀ p ∈ r.body, p.Respelled R p := fun p hp =>
    hkeeps r hr p (List.mem_cons_of_mem _ hp)
  refine List.rel_filterMap ?_ (rel_matchBody hR hderive hbody hb (by decide))
  intro m m' hm
  have hhead : Triple.Respelled R (r.head.instantiate m.bindings)
      (r.head.instantiate m'.bindings) :=
    instantiate_respelled hm (hkeeps r hr _ List.mem_cons_self)
  dsimp only
  rw [isGround_eq hR hhead]
  split
  · exact .some hhead
  · exact .none

/-- **The search meets goals that correspond by derivations that correspond.**  The induction is
on the depth. -/
theorem rel_derivations (hkeeps : Keeps R rules)
    (hfacts : List.Forall₂ (Fact.Respelled R) facts facts') (depth : Nat) (path : List String) :
    Tracks R (derivations rules facts depth path) (derivations rules facts' depth path) := by
  induction depth generalizing path with
  | zero =>
    intro g g' hg
    rw [derivations_eq, derivations_eq, key_eq hR hg]
    split
    · exact .nil
    · exact (rel_foldl_keep hR (rel_matching hR hfacts hg)).kept
  | succ depth ih =>
    intro g g' hg
    rw [derivations_eq, derivations_eq, key_eq hR hg]
    split
    · exact .nil
    · have hconcluded : List.Forall₂ (Derivation.Respelled R)
          ((openings rules g).flatMap
            (concluded (derivations rules facts depth (Pattern.key g' :: path))))
          ((openings rules g').flatMap
            (concluded (derivations rules facts' depth (Pattern.key g' :: path)))) :=
        List.rel_flatMap (rel_openings hR hg) fun o o' ho => rel_concluded hR hkeeps (ih _) ho
      unfold offers
      dsimp only
      rw [key_eq hR hg]
      exact (rel_foldl_keep hR (List.rel_append (rel_matching hR hfacts hg) hconcluded)).kept

theorem rel_satisfy (hkeeps : Keeps R rules)
    (hfacts : List.Forall₂ (Fact.Respelled R) facts facts') {body : List Pattern}
    (hbody : ∀ p ∈ body, p.Respelled R p) (hb : b.Renamed R b') (depth : Nat) (path : List String)
    {limit : Nat} (hlimit : 1 ≤ limit) :
    List.Forall₂ (Match.Renamed R) (satisfy rules facts body b depth path limit)
      (satisfy rules facts' body b' depth path limit) := by
  cases body with
  | nil => exact .cons hb .nil
  | cons p ps =>
    cases depth with
    | zero => exact .nil
    | succ depth =>
      exact rel_matchBody hR (rel_derivations hR hkeeps hfacts depth path) hbody hb hlimit

/-- The same rule proves both goals. -/
theorem rel_prove? (hkeeps : Keeps R rules)
    (hfacts : List.Forall₂ (Fact.Respelled R) facts facts') (hgoal : goal.Respelled R goal')
    (depth : Nat) :
    Option.Rel (fun x y : CompositionRule × List Step => x.1 = y.1)
      (prove? rules facts goal depth) (prove? rules facts' goal' depth) := by
  refine rel_findSome? ?_ (rel_self rules)
  rintro r r' ⟨rfl, hr⟩
  rw [hgoal.relation, key_eq hR hgoal]
  split
  · exact .none
  · refine rel_bind (rel_matchGoal? hR r.head hgoal) fun b b' hb => ?_
    have hbody : ∀ p ∈ r.body, p.Respelled R p := fun p hp =>
      hkeeps r hr p (List.mem_cons_of_mem _ hp)
    have hfirst := rel_head?
      (rel_satisfy hR hkeeps hfacts hbody hb depth [Pattern.key goal'] (Nat.le_refl 1))
    exact rel_bind hfirst fun m m' _ => .some rfl

end

end Inference.Composition

/-! ### Questions -/

namespace Inference

open Inference.Composition

variable {i : Inference} {facts facts' : List Fact} {goal goal' : Triple}

/-- Composition finds the same truth under a renaming that keeps the rules. -/
theorem composition_truth (hR : Renaming R) (hkeeps : Keeps R i.relations.compositions)
    (hfacts : List.Forall₂ (Fact.Respelled R) facts facts') (hgoal : goal.Respelled R goal')
    (depth : Nat) :
    (i.composition facts goal depth).truth = (i.composition facts' goal' depth).truth := by
  have hproved := rel_prove? hR hkeeps hfacts hgoal depth
  unfold composition
  generalize prove? i.relations.compositions facts goal depth = proof,
    prove? i.relations.compositions facts' goal' depth = proof' at hproved ⊢
  cases hproved <;> rfl

/-- Without a rule for the relation of the goal composition has no answer. -/
theorem composition_truth_of_no_rule
    (h : ∀ c ∈ i.relations.compositions, c.head.relation ≠ goal.relation) (depth : Nat) :
    (i.composition facts goal depth).truth = .unknown := by
  have hnone : prove? i.relations.compositions facts goal depth = none := by
    unfold prove?
    rw [List.findSome?_eq_none_iff]
    intro c hc
    rw [if_pos (by simpa using h c hc)]
  unfold composition
  rw [hnone]
  rfl

theorem composition_mem_select {names : List String} {ms : List Method}
    (h : Method.select names = .ok ms) (hm : .composition ∈ ms) :
    names = [] ∨ "composition" ∈ names := by
  unfold Method.select at h
  split at h
  · cases h
  · cases h
    split at hm
    · rename_i hempty
      exact Or.inl (List.isEmpty_iff.mp hempty)
    · rw [List.mem_filter] at hm
      exact Or.inr (by simpa [Method.name] using hm.2)

/-- The first decisive answer has the same truth, if each method's answer has. -/
theorem infer_truth {methods : List Method} {depth : Nat}
    (h : ∀ m ∈ methods, (i.run facts goal depth m).truth = (i.run facts' goal' depth m).truth) :
    (i.infer facts goal methods depth).truth = (i.infer facts' goal' methods depth).truth := by
  have hfound : Option.Rel (fun a a' : Answer => a.truth = a'.truth)
      (methods.findSome? fun m => (some (i.run facts goal depth m)).filter Answer.isDecisive)
      (methods.findSome? fun m =>
        (some (i.run facts' goal' depth m)).filter Answer.isDecisive) := by
    refine rel_findSome? ?_ (rel_self methods)
    rintro m m' ⟨rfl, hm⟩
    have hdecisive : (i.run facts goal depth m).isDecisive =
        (i.run facts' goal' depth m).isDecisive := congrArg Truth.isDecisive (h m hm)
    rw [Option.filter_some, Option.filter_some, hdecisive]
    split
    · exact .some (h m hm)
    · exact .none
  unfold infer
  generalize List.findSome? (fun m => (some (i.run facts goal depth m)).filter _) methods = found,
    List.findSome? (fun m => (some (i.run facts' goal' depth m)).filter _) methods = found'
    at hfound ⊢
  cases hfound with
  | none => rfl
  | some htruth => exact htruth

/-- **Answers do not depend on spelling.**  Terms of the goal and of the facts may be respelled each
on its own; only where composition is asked and has a rule for the relation must equal terms stay
equal, different ones different, and the terms of the rules as they are. -/
theorem ask_truth_of_respelled (i : Inference) {R : String → String → Prop}
    (hR : ∀ a a', R a a' → Text.Alike a a') {facts facts' : List Fact} {goal goal' : Triple}
    (hfacts : List.Forall₂ (Fact.Respelled R) facts facts') (hgoal : goal.Respelled R goal')
    (names : List String) (depth : Option Nat)
    (hconsistent : (names = [] ∨ "composition" ∈ names) →
      (∃ c ∈ i.relations.compositions, c.head.relation = goal.relation) →
      Renaming R ∧ Keeps R i.relations.compositions) :
    (i.ask facts goal names depth).map Answer.truth =
      (i.ask facts' goal' names depth).map Answer.truth := by
  have halike : List.Forall₂ (Fact.Respelled Text.Alike) facts facts' :=
    hfacts.imp fun f f' hf => hf.mono hR
  unfold ask
  cases hselect : Method.select names with
  | error e => rfl
  | ok ms =>
    refine congrArg Except.ok (infer_truth fun m hm => ?_)
    by_cases hcomposition : m = .composition
    · -- without a rule for the relation there is no answer under any spelling
      subst hcomposition
      by_cases hrule : ∃ c ∈ i.relations.compositions, c.head.relation = goal.relation
      · obtain ⟨hrenaming, hkeeps⟩ := hconsistent (composition_mem_select hselect hm) hrule
        exact composition_truth hrenaming hkeeps hfacts hgoal _
      · have hnone : ∀ c ∈ i.relations.compositions, c.head.relation ≠ goal.relation :=
          fun c hc hrel => hrule ⟨c, hc, hrel⟩
        have hnone' : ∀ c ∈ i.relations.compositions, c.head.relation ≠ goal'.relation := by
          rw [← hgoal.relation]
          exact hnone
        have htruth : ∀ k, (i.composition facts goal k).truth = .unknown :=
          composition_truth_of_no_rule hnone
        have htruth' : ∀ k, (i.composition facts' goal' k).truth = .unknown :=
          composition_truth_of_no_rule hnone'
        exact (htruth _).trans (htruth' _).symm
    · exact run_truth_of_alike halike (hgoal.mono hR) _ hcomposition

/-! ### One term in two spellings -/

/-- One relation leads to another. -/
def linking : Inference :=
  { relations := { Relations.bare with
      compositions := [⟨"link", ⟨"?x", "Q", "?y"⟩, [⟨"?x", "P", "?y"⟩]⟩] } }

def linkedFacts (term : String) : List Fact := [{ triple := ⟨term, "P", "B"⟩ }]

/-- One term is written small, the others stay. -/
def WrittenSmall (a a' : String) : Prop :=
  (a, a') ∈ [("A", "a"), ("B", "B"), ("?x", "?x"), ("?y", "?y")]

instance (a a' : String) : Decidable (WrittenSmall a a') :=
  inferInstanceAs (Decidable ((a, a') ∈ [("A", "a"), ("B", "B"), ("?x", "?x"), ("?y", "?y")]))

theorem renaming_writtenSmall : Renaming WrittenSmall := by
  have hpairs : ∀ a a', WrittenSmall a a' →
      (Text.fold a = Text.fold a' ∧ Text.isVariable a = Text.isVariable a') ∧
        a ∈ ["A", "B", "?x", "?y"] ∧ a' ∈ ["a", "B", "?x", "?y"] := by
    have hall : ∀ e ∈ [("A", "a"), ("B", "B"), ("?x", "?x"), ("?y", "?y")],
        (Text.fold e.1 = Text.fold e.2 ∧ Text.isVariable e.1 = Text.isVariable e.2) ∧
          e.1 ∈ ["A", "B", "?x", "?y"] ∧ e.2 ∈ ["a", "B", "?x", "?y"] := by decide +kernel
    exact fun a a' h => hall (a, a') h
  exact .of_spelled (fun a a' h => (hpairs a a' h).1.1) (fun a a' h => (hpairs a a' h).1.2)
    (fun a a' h => (hpairs a a' h).2) (by decide +kernel) (by decide +kernel)

/-- The same term written small in the goal and in the fact. -/
theorem ask_truth_of_respelled_writtenSmall :
    List.Forall₂ (Fact.Respelled WrittenSmall) (linkedFacts "A") (linkedFacts "a") ∧
      Keeps WrittenSmall linking.relations.compositions ∧
      (linking.ask (linkedFacts "A") ⟨"A", "Q", "B"⟩ [] none).map Answer.truth = .ok .certain ∧
      (linking.ask (linkedFacts "A") ⟨"A", "Q", "B"⟩ [] none).map Answer.truth =
        (linking.ask (linkedFacts "a") ⟨"a", "Q", "B"⟩ [] none).map Answer.truth := by
  have hfacts : List.Forall₂ (Fact.Respelled WrittenSmall) (linkedFacts "A") (linkedFacts "a") :=
    .cons ⟨rfl, by decide, by decide⟩ .nil
  have hgoal : Triple.Respelled WrittenSmall ⟨"A", "Q", "B"⟩ ⟨"a", "Q", "B"⟩ :=
    ⟨rfl, by decide, by decide⟩
  have hkeeps : Keeps WrittenSmall linking.relations.compositions := by
    intro c hc p hp
    have hp : p = ⟨"?x", "Q", "?y"⟩ ∨ p = ⟨"?x", "P", "?y"⟩ := by
      rw [List.mem_singleton.mp hc] at hp
      simpa using hp
    rcases hp with rfl | rfl <;> exact ⟨rfl, by decide, by decide⟩
  exact ⟨hfacts, hkeeps, rfl, ask_truth_of_respelled linking renaming_writtenSmall.alike hfacts
    hgoal [] none fun _ _ => ⟨renaming_writtenSmall, hkeeps⟩⟩

/-- **A goal that is spelled unlike the facts is not composed**, although it asks about the same
terms: the head takes the goal's spelling, and the body is held to it. -/
theorem spelling_decides :
    Text.Alike "A" "a" ∧ Text.isVariable "A" = false ∧ Text.isVariable "a" = false ∧
      (linking.ask (linkedFacts "A") ⟨"A", "Q", "B"⟩ [] none).map Answer.truth = .ok .certain ∧
      (linking.ask (linkedFacts "A") ⟨"a", "Q", "B"⟩ [] none).map Answer.truth = .ok .unknown := by
  have halike : Text.fold "A" = Text.fold "a" := by decide +kernel
  exact ⟨halike, by decide, by decide, rfl, by decide +kernel⟩

end Inference

end KnowledgeBase
