import KnowledgeBase.Inference.Query

/-!
# Inference and metadata

Nothing that inference reads of a fact but its triple counts.  A change of facts that leaves their
triples alone leaves every answer as it is.

* `KeepsTriples g`: `g` leaves the triple of every fact alone;
* `Chain.shortest?_map`, `Chain.types_map`: walks along changed facts;
* `Composition.prove?_map`: the search over composition rules;
* `ask_map`: every question, asked with any methods to any depth.
-/

namespace KnowledgeBase

/-- A change of facts that leaves their triples alone. -/
def KeepsTriples (g : Fact → Fact) : Prop := ∀ f, (g f).triple = f.triple

variable {g : Fact → Fact}

namespace KeepsTriples

variable (hg : KeepsTriples g)
include hg

theorem subject (f : Fact) : (g f).subject = f.subject := congrArg Triple.subject (hg f)

theorem relation (f : Fact) : (g f).relation = f.relation := congrArg Triple.relation (hg f)

theorem object (f : Fact) : (g f).object = f.object := congrArg Triple.object (hg f)

theorem text (f : Fact) : (g f).text = f.text := congrArg Triple.text (hg f)

theorem states (f : Fact) (t : Triple) : (g f).states t = f.states t := by
  unfold Fact.states
  rw [hg.relation, hg.subject, hg.object]

theorem find?_states (facts : List Fact) (t : Triple) :
    (facts.map g).find? (·.states t) = (facts.find? (·.states t)).map g := by
  have hcomp : (fun f : Fact => f.states t) ∘ g = fun f => f.states t :=
    funext fun f => hg.states f t
  rw [List.find?_map, hcomp]

theorem filter_relation (facts : List Fact) (r : String) :
    (facts.map g).filter (·.relation == r) = (facts.filter (·.relation == r)).map g := by
  have hcomp : (fun f : Fact => f.relation == r) ∘ g = fun f => f.relation == r :=
    funext fun f => by rw [Function.comp_apply, hg.relation]
  rw [List.filter_map, hcomp]

end KeepsTriples

/-! ### Walks -/

namespace Chain

/-- An edge along the changed fact. -/
def Edge.map (g : Fact → Fact) (e : Edge) : Edge := { e with fact := g e.fact }

/-- A tip whose path runs along changed facts. -/
def Tip.map (g : Fact → Fact) (tip : Tip) : Tip := { tip with path := tip.path.map g }

def Round.map (g : Fact → Fact) : Round → Round
  | .arrived path => .arrived (path.map g)
  | .going visited ahead => .going visited (ahead.map (Tip.map g))

theorem edges_map (hg : KeepsTriples g) (facts : List Fact) (r : String) :
    edges (facts.map g) r = (edges facts r).map (Edge.map g) := by
  unfold edges
  rw [hg.filter_relation, List.map_map, List.map_map]
  refine List.map_congr_left fun f _ => ?_
  simp only [Function.comp_apply, Edge.map, hg.subject, hg.object]

theorem edgesFrom_map (es : List Edge) (term : String) :
    edgesFrom (es.map (Edge.map g)) term = (edgesFrom es term).map (Edge.map g) :=
  List.filter_map

theorem grow_map (es : List Edge) (target : String) (tips : List Tip) (visited : List String)
    (ahead : List Tip) :
    grow (es.map (Edge.map g)) target (tips.map (Tip.map g)) visited (ahead.map (Tip.map g)) =
      (grow es target tips visited ahead).map g := by
  induction tips generalizing visited ahead with
  | nil => rfl
  | cons tip rest ih =>
    have hterm : (Tip.map g tip).term = tip.term := rfl
    have hfind : (fun e : Edge => e.target == target) ∘ Edge.map g = fun e => e.target == target :=
      rfl
    simp only [List.map_cons, grow, hterm]
    by_cases hv : visited.contains tip.term
    · rw [if_pos hv, if_pos hv]
      exact ih visited ahead
    · rw [if_neg hv, if_neg hv, edgesFrom_map, List.find?_map, hfind]
      cases (edgesFrom es tip.term).find? fun e => e.target == target with
      | some e => simp [Round.map, Tip.map, Edge.map]
      | none =>
        have hahead : ahead.map (Tip.map g) ++ ((edgesFrom es tip.term).map (Edge.map g)).map
            (fun e => (⟨e.target, (Tip.map g tip).path ++ [e.fact]⟩ : Tip)) =
              (ahead ++ (edgesFrom es tip.term).map
                fun e => (⟨e.target, tip.path ++ [e.fact]⟩ : Tip)).map (Tip.map g) := by
          simp [Tip.map, Edge.map]
        show grow _ _ _ _ (ahead.map (Tip.map g) ++ _) = _
        rw [hahead]
        exact ih _ _

theorem search_map (es : List Edge) (target : String) (depth : Nat) (tips : List Tip)
    (visited : List String) :
    search (es.map (Edge.map g)) target depth (tips.map (Tip.map g)) visited =
      (search es target depth tips visited).map (List.map g) := by
  induction depth generalizing tips visited with
  | zero => rfl
  | succ depth ih =>
    have hgrow := grow_map (g := g) es target tips visited []
    simp only [search, List.isEmpty_map]
    rw [List.map_nil] at hgrow
    rw [hgrow]
    split
    · rfl
    · cases grow es target tips visited [] with
      | arrived path => rfl
      | going visited ahead => exact ih ahead visited

theorem shortest?_map (hg : KeepsTriples g) (facts : List Fact) (r start target : String)
    (depth : Nat) : shortest? (facts.map g) r start target depth =
      (shortest? facts r start target depth).map (List.map g) := by
  unfold shortest?
  rw [edges_map hg]
  exact search_map _ _ _ [⟨Text.fold start, []⟩] []

theorem statedTypes_map (hg : KeepsTriples g) (es : List Edge) (terms : List String) :
    statedTypes (es.map (Edge.map g)) terms = statedTypes es terms := by
  unfold statedTypes
  refine congrArg (terms.flatMap ·) (funext fun t => ?_)
  rw [edgesFrom_map, List.map_map]
  exact List.map_congr_left fun e _ => hg.object e.fact

theorem typesAux_map (hg : KeepsTriples g) (es : List Edge) (depth : Nat)
    (seen : Std.TreeSet String) (frontier : List String) :
    typesAux (es.map (Edge.map g)) depth seen frontier = typesAux es depth seen frontier := by
  induction depth generalizing seen frontier with
  | zero => rfl
  | succ depth ih => simp only [typesAux, statedTypes_map hg, ih]

theorem types_map (hg : KeepsTriples g) (facts : List Fact) (term : String) (depth : Nat) :
    types (facts.map g) term depth = types facts term depth := by
  unfold types
  rw [edges_map hg, typesAux_map hg]

end Chain

namespace Inference

/-! ### Composition -/

namespace Composition

theorem stored_map (hg : KeepsTriples g) (facts : List Fact) :
    stored (facts.map g) = stored facts := by
  funext goal
  unfold stored
  simp only [List.foldl_map, hg.relation, hg.subject, hg.object, hg.text]
  simp only [hg _]

theorem derivations_map (hg : KeepsTriples g) (rules : List CompositionRule) (facts : List Fact)
    (depth : Nat) : derivations rules (facts.map g) depth = derivations rules facts depth := by
  induction depth with
  | zero =>
    funext path goal
    simp only [derivations, stored_map hg]
  | succ depth ih =>
    funext path goal
    simp only [derivations, stored_map hg, ih]

theorem satisfy_map (hg : KeepsTriples g) (rules : List CompositionRule) (facts : List Fact) :
    satisfy rules (facts.map g) = satisfy rules facts := by
  funext body b depth path limit
  cases body with
  | nil => rfl
  | cons p ps =>
    cases depth with
    | zero => rfl
    | succ depth => simp only [satisfy, derivations_map hg]

theorem prove?_map (hg : KeepsTriples g) (rules : List CompositionRule) (facts : List Fact) :
    prove? rules (facts.map g) = prove? rules facts := by
  funext goal depth
  unfold prove?
  rw [satisfy_map hg]

end Composition

/-! ### Methods -/

section

variable (hg : KeepsTriples g) (i : Inference) (facts : List Fact)
include hg

theorem direct_map : direct (facts.map g) = direct facts := by
  funext goal
  unfold direct
  rw [hg.find?_states]
  cases facts.find? (·.states goal) with
  | none => rfl
  | some f => simp only [Option.map_some, hg.text]

theorem transitive_map : i.transitive (facts.map g) = i.transitive facts := by
  funext goal depth
  unfold transitive
  rw [Chain.shortest?_map hg]
  cases Chain.shortest? facts goal.relation goal.subject goal.object depth with
  | none => rfl
  | some path =>
    simp only [Option.map_some, List.length_map, List.map_map, Function.comp_def, hg.text]

theorem symmetric_map : i.symmetric (facts.map g) = i.symmetric facts := by
  funext goal
  unfold symmetric
  rw [hg.find?_states]
  cases facts.find? (·.states (goal.swapped goal.relation)) with
  | none => rfl
  | some f => simp only [Option.map_some, hg.text]

theorem inverse_map : i.inverse (facts.map g) = i.inverse facts := by
  funext goal
  unfold inverse
  cases i.relations.inverse? goal.relation with
  | none => rfl
  | some inv =>
    dsimp only
    rw [hg.find?_states]
    cases facts.find? (·.states (goal.swapped inv)) with
    | none => rfl
    | some f => simp only [Option.map_some, hg.text]

theorem inheritance_map : i.inheritance (facts.map g) = i.inheritance facts := by
  funext goal depth
  have hfound : (Chain.types facts goal.subject depth).findSome? (fun t =>
      ((facts.map g).find? (·.states { goal with subject := t })).map fun f => (t, f)) =
        ((Chain.types facts goal.subject depth).findSome? fun t =>
          (facts.find? (·.states { goal with subject := t })).map fun f => (t, f)).map
            (Prod.map id g) := by
    rw [List.map_findSome?]
    refine congrArg (List.findSome? · _) (funext fun t => ?_)
    rw [hg.find?_states, Function.comp_apply, Option.map_map, Option.map_map]
    rfl
  unfold inheritance
  rw [Chain.types_map hg]
  dsimp only
  rw [hfound]
  cases (Chain.types facts goal.subject depth).findSome? fun t =>
      (facts.find? (·.states { goal with subject := t })).map fun f => (t, f) with
  | none => rfl
  | some found => simp only [Option.map_some, Prod.map_fst, Prod.map_snd, id_eq, hg.text]

theorem composition_map : i.composition (facts.map g) = i.composition facts := by
  funext goal depth
  unfold composition
  rw [Composition.prove?_map hg]

theorem isA_map : i.isA (facts.map g) = i.isA facts := by
  funext term type
  unfold isA
  rw [direct_map hg, transitive_map hg]

theorem byDefault_map : i.byDefault (facts.map g) = i.byDefault facts := by
  have hex : i.isException (facts.map g) = i.isException facts := by
    funext term exception
    unfold isException
    rw [isA_map hg]
  funext goal
  unfold byDefault
  rw [isA_map hg, hex]

theorem run_map (goal : Triple) (depth : Nat) :
    i.run (facts.map g) goal depth = i.run facts goal depth := by
  funext m
  cases m with
  | direct => exact congrFun (direct_map hg facts) goal
  | transitive => exact congrFun (congrFun (transitive_map hg i facts) goal) depth
  | symmetric => exact congrFun (symmetric_map hg i facts) goal
  | inverse => exact congrFun (inverse_map hg i facts) goal
  | inheritance => exact congrFun (congrFun (inheritance_map hg i facts) goal) depth
  | composition => exact congrFun (congrFun (composition_map hg i facts) goal) depth
  | byDefault => exact congrFun (byDefault_map hg i facts) goal

/-- A question has the same answer over changed facts. -/
theorem ask_map (goal : Triple) (names : List String) (depth : Option Nat) :
    i.ask (facts.map g) goal names depth = i.ask facts goal names depth := by
  unfold ask infer
  rw [run_map hg]

end

end Inference

end KnowledgeBase
