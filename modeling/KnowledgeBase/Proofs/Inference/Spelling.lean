import KnowledgeBase.Inference.Query
import KnowledgeBase.Proofs.Text
import Mathlib.Data.List.Forall2

/-!
# Respelled questions

The same question over the same facts, with the terms spelled in another way.  The methods that
compare folded terms go through the same steps on both sides.

* `Text.Alike`, `Triple.Respelled`, `Fact.Respelled`: what a respelling changes;
* `rel_find?`, `rel_findSome?`: what two lists that are taken side by side give;
* `Chain.rel_shortest?`, `Chain.rel_types`: the same walks, fact for fact;
* `run_truth_of_alike`: every method but composition finds the same truth.
-/

namespace KnowledgeBase

/-! ### Respellings -/

/-- Two spellings of one term. -/
def Text.Alike (a b : String) : Prop := Text.fold a = Text.fold b

theorem Text.Alike.refl (a : String) : Alike a a := rfl

theorem Text.same_congr {a a' b b' : String} (h : Alike a a') (hb : Alike b b') :
    same a b = same a' b' := by
  unfold same
  rw [h, hb]

/-- The same relation between terms that correspond. -/
structure Triple.Respelled (R : String → String → Prop) (t t' : Triple) : Prop where
  relation : t.relation = t'.relation
  subject : R t.subject t'.subject
  object : R t.object t'.object

/-- The same fact about terms that correspond. -/
def Fact.Respelled (R : String → String → Prop) (f f' : Fact) : Prop :=
  f.triple.Respelled R f'.triple

section

variable {R S : String → String → Prop} {t t' : Triple}

theorem Triple.Respelled.mono (h : t.Respelled R t') (hRS : ∀ a a', R a a' → S a a') :
    t.Respelled S t' :=
  ⟨h.relation, hRS _ _ h.subject, hRS _ _ h.object⟩

theorem Triple.Respelled.swapped (h : t.Respelled R t') (relation : String) :
    (t.swapped relation).Respelled R (t'.swapped relation) :=
  ⟨rfl, h.object, h.subject⟩

theorem Triple.Respelled.termKey_eq (h : t.Respelled Text.Alike t') : t.termKey = t'.termKey := by
  unfold Triple.termKey
  rw [h.subject, h.relation, h.object]

theorem Fact.states_eq {f f' : Fact} (hf : f.Respelled Text.Alike f')
    (ht : t.Respelled Text.Alike t') : f.states t = f'.states t' := by
  have hrelation : f.relation = f'.relation := hf.relation
  have hsubject : Text.same f.subject t.subject = Text.same f'.subject t'.subject :=
    Text.same_congr hf.subject ht.subject
  have hobject : Text.same f.object t.object = Text.same f'.object t'.object :=
    Text.same_congr hf.object ht.object
  unfold Fact.states
  rw [hrelation, ht.relation, hsubject, hobject]

end

/-! ### Lists and options side by side -/

section

variable {α β γ δ : Type} {S : α → β → Prop} {T : γ → δ → Prop} {l : List α} {l' : List β}

/-- A list beside itself. -/
theorem rel_self (l : List α) : List.Forall₂ (fun a a' => a = a' ∧ a ∈ l) l l :=
  List.forall₂_same.mpr fun _ ha => ⟨rfl, ha⟩

theorem rel_head? (h : List.Forall₂ S l l') : Option.Rel S l.head? l'.head? := by
  cases h with
  | nil => exact .none
  | cons hab _ => exact .some hab

theorem rel_filter {p : α → Bool} {q : β → Bool} (hpq : ∀ a b, S a b → p a = q b)
    (hl : List.Forall₂ S l l') : List.Forall₂ S (l.filter p) (l'.filter q) := by
  refine List.rel_filter (fun a b hab => ?_) hl
  change p a = true ↔ q b = true
  rw [hpq a b hab]

/-- What is found in two lists corresponds, if the same is looked for. -/
theorem rel_find? {p : α → Bool} {q : β → Bool} (hpq : ∀ a b, S a b → p a = q b)
    (hl : List.Forall₂ S l l') : Option.Rel S (l.find? p) (l'.find? q) := by
  rw [← List.head?_filter, ← List.head?_filter]
  exact rel_head? (rel_filter hpq hl)

theorem rel_findSome? {f : α → Option γ} {g : β → Option δ}
    (hfg : ∀ a b, S a b → Option.Rel T (f a) (g b)) (hl : List.Forall₂ S l l') :
    Option.Rel T (l.findSome? f) (l'.findSome? g) := by
  rw [← List.head?_filterMap, ← List.head?_filterMap]
  exact rel_head? (List.rel_filterMap (fun a b hab => hfg a b hab) hl)

theorem rel_bind {x : Option α} {y : Option β} {f : α → Option γ} {g : β → Option δ}
    (hxy : Option.Rel S x y) (hfg : ∀ a b, S a b → Option.Rel T (f a) (g b)) :
    Option.Rel T (x.bind f) (y.bind g) := by
  cases hxy with
  | none => exact .none
  | some hab => exact hfg _ _ hab

end

/-! ### Walks -/

namespace Chain

open Text

/-- Edges between the same folded terms. -/
structure Edge.Respelled (e e' : Edge) : Prop where
  fact : e.fact.Respelled Alike e'.fact
  source : e.source = e'.source
  target : e.target = e'.target

structure Tip.Respelled (t t' : Tip) : Prop where
  term : t.term = t'.term
  path : List.Forall₂ (Fact.Respelled Alike) t.path t'.path

/-- Rounds that end alike. -/
inductive Round.Respelled : Round → Round → Prop
  | arrived {path path' : List Fact} (h : List.Forall₂ (Fact.Respelled Alike) path path') :
    Respelled (.arrived path) (.arrived path')
  | going {visited : List String} {ahead ahead' : List Tip}
    (h : List.Forall₂ Tip.Respelled ahead ahead') :
    Respelled (.going visited ahead) (.going visited ahead')

variable {facts facts' : List Fact} {es es' : List Edge}

theorem rel_edges (h : List.Forall₂ (Fact.Respelled Alike) facts facts') (relation : String) :
    List.Forall₂ Edge.Respelled (edges facts relation) (edges facts' relation) := by
  have hfilter : List.Forall₂ (Fact.Respelled Alike) (facts.filter (·.relation == relation))
      (facts'.filter (·.relation == relation)) := by
    refine rel_filter (fun f f' hf => ?_) h
    have hrelation : f.relation = f'.relation := hf.relation
    rw [hrelation]
  exact List.rel_map (fun f f' hf => ⟨hf, hf.subject, hf.object⟩) hfilter

theorem rel_edgesFrom (h : List.Forall₂ Edge.Respelled es es') (term : String) :
    List.Forall₂ Edge.Respelled (edgesFrom es term) (edgesFrom es' term) :=
  rel_filter (fun e e' he => by rw [he.source]) h

/-- Tips that correspond grow by facts that correspond. -/
theorem rel_grow (hes : List.Forall₂ Edge.Respelled es es') (target : String)
    {tips tips' : List Tip} (htips : List.Forall₂ Tip.Respelled tips tips') (visited : List String)
    {ahead ahead' : List Tip} (hahead : List.Forall₂ Tip.Respelled ahead ahead') :
    (grow es target tips visited ahead).Respelled (grow es' target tips' visited ahead') := by
  induction htips generalizing visited ahead ahead' with
  | nil => exact .going hahead
  | @cons tip tip' rest rest' htip _ ih =>
    unfold grow
    rw [htip.term]
    split
    · exact ih visited hahead
    · dsimp only
      have hout := rel_edgesFrom hes tip'.term
      have hfind : Option.Rel Edge.Respelled
          ((edgesFrom es tip'.term).find? fun e => e.target == target)
          ((edgesFrom es' tip'.term).find? fun e => e.target == target) :=
        rel_find? (fun e e' he => by rw [he.target]) hout
      generalize (edgesFrom es tip'.term).find? _ = found,
        (edgesFrom es' tip'.term).find? _ = found' at hfind ⊢
      cases hfind with
      | none =>
        refine ih _ (List.rel_append hahead (List.rel_map (fun e e' he => ?_) hout))
        exact ⟨he.target, List.rel_append htip.path (.cons he.fact .nil)⟩
      | some he => exact .arrived (List.rel_append htip.path (.cons he.fact .nil))

theorem rel_search (hes : List.Forall₂ Edge.Respelled es es') (target : String) (depth : Nat)
    {tips tips' : List Tip} (htips : List.Forall₂ Tip.Respelled tips tips')
    (visited : List String) :
    Option.Rel (List.Forall₂ (Fact.Respelled Alike)) (search es target depth tips visited)
      (search es' target depth tips' visited) := by
  induction depth generalizing tips tips' visited with
  | zero => exact .none
  | succ depth ih =>
    have hempty : tips.isEmpty = tips'.isEmpty := by
      cases htips <;> rfl
    unfold search
    rw [hempty]
    split
    · exact .none
    · have hround := rel_grow hes target htips visited .nil
      generalize grow es target tips visited [] = round,
        grow es' target tips' visited [] = round' at hround ⊢
      cases hround with
      | arrived hpath => exact .some hpath
      | going hahead => exact ih hahead _

/-- A shortest chain leads from fact to fact that correspond. -/
theorem rel_shortest? (h : List.Forall₂ (Fact.Respelled Alike) facts facts') (relation : String)
    {start start' target target' : String} (hstart : Alike start start')
    (htarget : Alike target target') (depth : Nat) :
    Option.Rel (List.Forall₂ (Fact.Respelled Alike)) (shortest? facts relation start target depth)
      (shortest? facts' relation start' target' depth) := by
  unfold shortest?
  rw [hstart, htarget]
  exact rel_search (rel_edges h relation) _ depth (.cons ⟨rfl, .nil⟩ .nil) []

theorem map_fold_eq {ts ts' : List String} (h : List.Forall₂ Alike ts ts') :
    ts.map fold = ts'.map fold := by
  rw [← List.forall₂_eq_eq_eq, List.forall₂_map_left_iff, List.forall₂_map_right_iff]
  exact h

theorem rel_fresh {ts ts' : List String} (h : List.Forall₂ Alike ts ts')
    (seen : Std.TreeSet String) : List.Forall₂ Alike (fresh seen ts) (fresh seen ts') := by
  induction h generalizing seen with
  | nil => exact .nil
  | @cons t t' ts ts' ht _ ih =>
    unfold fresh
    rw [ht]
    dsimp only
    split
    · exact ih seen
    · exact .cons ht (ih _)

theorem rel_statedTypes (hes : List.Forall₂ Edge.Respelled es es') {terms terms' : List String}
    (hterms : List.Forall₂ Alike terms terms') :
    List.Forall₂ Alike (statedTypes es terms) (statedTypes es' terms') := by
  refine List.rel_flatMap hterms fun t t' ht => ?_
  rw [ht]
  exact List.rel_map (fun e e' he => he.fact.object) (rel_edgesFrom hes _)

theorem rel_typesAux (hes : List.Forall₂ Edge.Respelled es es') (depth : Nat)
    (seen : Std.TreeSet String) {frontier frontier' : List String}
    (hfrontier : List.Forall₂ Alike frontier frontier') :
    List.Forall₂ Alike (typesAux es depth seen frontier) (typesAux es' depth seen frontier') := by
  induction depth generalizing seen frontier frontier' with
  | zero => exact .nil
  | succ depth ih =>
    have hempty : frontier.isEmpty = frontier'.isEmpty := by
      cases hfrontier <;> rfl
    have hnext := rel_fresh (rel_statedTypes hes hfrontier) seen
    unfold typesAux
    rw [hempty]
    split
    · exact .nil
    · dsimp only
      rw [map_fold_eq hnext]
      exact List.rel_append hnext (ih _ hnext)

/-- The types of a term come in the same order. -/
theorem rel_types (h : List.Forall₂ (Fact.Respelled Alike) facts facts') {term term' : String}
    (hterm : Alike term term') (depth : Nat) :
    List.Forall₂ Alike (types facts term depth) (types facts' term' depth) := by
  unfold types
  rw [hterm]
  exact rel_typesAux (rel_edges h _) depth _ (.cons hterm .nil)

end Chain

/-! ### Methods that compare folded terms -/

namespace Inference

open Text

variable {i : Inference} {facts facts' : List Fact} {goal goal' : Triple}

theorem rel_stated (h : List.Forall₂ (Fact.Respelled Alike) facts facts')
    (hgoal : goal.Respelled Alike goal') :
    Option.Rel (Fact.Respelled Alike) (facts.find? (·.states goal))
      (facts'.find? (·.states goal')) :=
  rel_find? (fun _ _ hf => Fact.states_eq hf hgoal) h

section

variable (h : List.Forall₂ (Fact.Respelled Alike) facts facts') (hgoal : goal.Respelled Alike goal')

include h hgoal

theorem direct_truth : (direct facts goal).truth = (direct facts' goal').truth := by
  have hfound := rel_stated h hgoal
  unfold direct
  generalize facts.find? _ = found, facts'.find? _ = found' at hfound ⊢
  cases hfound <;> rfl

theorem transitive_truth (depth : Nat) :
    (i.transitive facts goal depth).truth = (i.transitive facts' goal' depth).truth := by
  have hpath := Chain.rel_shortest? h goal.relation hgoal.subject hgoal.object depth
  unfold transitive
  rw [← hgoal.relation]
  split
  · rfl
  · generalize Chain.shortest? facts _ _ _ _ = path, Chain.shortest? facts' _ _ _ _ = path'
      at hpath ⊢
    cases hpath <;> rfl

theorem symmetric_truth :
    (i.symmetric facts goal).truth = (i.symmetric facts' goal').truth := by
  have hfound := rel_stated h (hgoal.swapped goal.relation)
  unfold symmetric
  rw [← hgoal.relation]
  split
  · rfl
  · generalize facts.find? _ = found, facts'.find? _ = found' at hfound ⊢
    cases hfound <;> rfl

theorem inverse_truth : (i.inverse facts goal).truth = (i.inverse facts' goal').truth := by
  unfold inverse
  rw [← hgoal.relation]
  split
  · rfl
  · rename_i inv _
    have hfound := rel_stated h (hgoal.swapped inv)
    generalize facts.find? _ = found, facts'.find? _ = found' at hfound ⊢
    cases hfound <;> rfl

theorem inheritance_truth (depth : Nat) :
    (i.inheritance facts goal depth).truth = (i.inheritance facts' goal' depth).truth := by
  have htypes := Chain.rel_types h hgoal.subject depth
  have hfound : Option.Rel (fun x y : String × Fact => x.2.Respelled Alike y.2)
      ((Chain.types facts goal.subject depth).findSome? fun t =>
        (facts.find? (·.states { goal with subject := t })).map fun f => (t, f))
      ((Chain.types facts' goal'.subject depth).findSome? fun t =>
        (facts'.find? (·.states { goal' with subject := t })).map fun f => (t, f)) := by
    refine rel_findSome? (fun t t' ht => ?_) htypes
    have hgoal_t : Triple.Respelled Alike { goal with subject := t }
        { goal' with subject := t' } := ⟨hgoal.relation, ht, hgoal.object⟩
    have hstated := rel_stated h hgoal_t
    generalize facts.find? _ = found, facts'.find? _ = found' at hstated ⊢
    cases hstated with
    | none => exact .none
    | some hf => exact .some hf
  unfold inheritance
  rw [← hgoal.relation]
  split
  · rfl
  · dsimp only
    rw [← hgoal.relation] at hfound
    generalize List.findSome? _ (Chain.types facts _ _) = found,
      List.findSome? _ (Chain.types facts' _ _) = found' at hfound ⊢
    cases hfound <;> rfl

end

section

variable (h : List.Forall₂ (Fact.Respelled Alike) facts facts')

include h

theorem isA_eq {term term' type type' : String} (hterm : Alike term term')
    (htype : Alike type type') : i.isA facts term type = i.isA facts' term' type' := by
  have hgoal : Triple.Respelled Alike ⟨term, Relation.isA, type⟩ ⟨term', Relation.isA, type'⟩ :=
    ⟨rfl, hterm, htype⟩
  have hdirect := direct_truth h hgoal
  have htransitive := transitive_truth (i := i) h hgoal i.horizon
  unfold isA Answer.isDecisive
  dsimp only
  rw [hdirect, htransitive]

theorem isException_eq {term term' : String} (hterm : Alike term term') (exception : String) :
    i.isException facts term exception = i.isException facts' term' exception := by
  unfold isException
  rw [same_congr hterm (Alike.refl exception), isA_eq h hterm (Alike.refl exception)]

theorem byDefault_truth (hgoal : goal.Respelled Alike goal') :
    (i.byDefault facts goal).truth = (i.byDefault facts' goal').truth := by
  have happlies : (fun d : DefaultRule => d.property == goal.relation &&
        Text.same d.value goal.object && i.isA facts goal.subject d.typicalType) =
      fun d : DefaultRule => d.property == goal'.relation && Text.same d.value goal'.object &&
        i.isA facts' goal'.subject d.typicalType := by
    funext d
    rw [hgoal.relation, same_congr (Alike.refl d.value) hgoal.object,
      isA_eq h hgoal.subject (Alike.refl d.typicalType)]
  have hexception : i.isException facts goal.subject = i.isException facts' goal'.subject := by
    funext e
    exact isException_eq h hgoal.subject e
  unfold byDefault
  dsimp only
  rw [happlies, hexception]
  split
  · rfl
  · split <;> rfl

end

/-- Every method but composition finds the same truth, however the terms are spelled. -/
theorem run_truth_of_alike (h : List.Forall₂ (Fact.Respelled Alike) facts facts')
    (hgoal : goal.Respelled Alike goal') (depth : Nat) {m : Method} (hm : m ≠ .composition) :
    (i.run facts goal depth m).truth = (i.run facts' goal' depth m).truth := by
  cases m with
  | direct => exact direct_truth h hgoal
  | transitive => exact transitive_truth h hgoal depth
  | symmetric => exact symmetric_truth h hgoal
  | inverse => exact inverse_truth h hgoal
  | inheritance => exact inheritance_truth h hgoal depth
  | composition => exact absurd rfl hm
  | byDefault => exact byDefault_truth h hgoal

end Inference

end KnowledgeBase
