import KnowledgeBase.Proofs.Chaining.Limit
import Mathlib.Logic.Relation

/-!
# Solutions that are found again

A goal that one search proves is proved again by a search that may try more, provided that no
alternatives are dropped and that negations hold again.

* `Task`, `Theory.Calls`: what a search works on, and what it hands on, negations being closed to
  view;
* `Theory.Throughout`, `Theory.Uncapped`: what holds of everything a search works on, and
  alternatives that all fit;
* `Broader`: a theory with the same facts that tries at least the same rules;
* `findsAgain`: every solution of a condition is found again, by induction on the formula;
* `provesAgain`: every goal is proved again, by induction on the levels left.
-/

namespace KnowledgeBase.Proof

/-- What a search works on, with the levels left and the goals in work. -/
inductive Task where
  | goal (room : Nat) (pending : List String) (g : Leaf)
  | condition (room : Nat) (pending : List String) (f : Formula) (s : Solution)
  /-- the last parts of a conjunction, the first ones being solved -/
  | conjuncts (room : Nat) (pending : List String) (fs : List Formula) (partials : List Solution)

namespace Theory

open Search

variable (t : Theory)

/-- What a goal is tried by: rules, with the bindings that a match of a conclusion gives. -/
def attempts (g : Leaf) : List (Rule × Bindings) :=
  t.rules.flatMap fun r => (offers t.pruning g r).map (r, ·)

/-- One attempt at a goal. -/
def answer (room : Nat) (pending : List String) (g : Leaf) (e : Rule × Bindings) :
    Search (Option Solution) :=
  t.solveCondition (t.proveLeaf room (g.text :: pending)) room e.1 e.2

/-- What a search hands on.  A goal is handed to the attempts up to the first that succeeds, and a
negation hands on nothing. -/
inductive Calls : Task → Task → Prop
  | attempt {room : Nat} {pending : List String} {g : Leaf} {before after : List (Rule × Bindings)}
      {r : Rule} {b : Bindings} {c : Formula} :
      pending.contains g.text = false → t.statedBy? g = .ok none →
      t.attempts g = before ++ (r, b) :: after →
      (∀ e ∈ before, (t.answer room pending g e).value = .ok none) →
      room ≠ 0 → r.condition = some c →
      Calls (.goal (room + 1) pending g) (.condition room (g.text :: pending) c ⟨b, 1.0, []⟩)
  | leaf {room : Nat} {pending : List String} {l : Leaf} {s : Solution} :
      l.isBound s.bindings = true →
      Calls (.condition room pending (.leaf l) s) (.goal room pending (l.substitute s.bindings))
  | all {room : Nat} {pending : List String} {ps : List Formula} {s : Solution} :
      Calls (.condition room pending (.all ps) s) (.conjuncts room pending ps [s])
  | any {room : Nat} {pending : List String} {ps : List Formula} {p : Formula} {s : Solution} :
      p ∈ ps → Calls (.condition room pending (.any ps) s) (.condition room pending p s)
  | conjunct {room : Nat} {pending : List String} {f : Formula} {fs : List Formula}
      {partials : List Solution} {s : Solution} :
      s ∈ partials →
      Calls (.conjuncts room pending (f :: fs) partials) (.condition room pending f s)
  | rest {room : Nat} {pending : List String} {f : Formula} {fs : List Formula}
      {partials next : List Solution} :
      (gather maxSolutions (t.solve (t.proveLeaf room pending) f) partials []).value = .ok next →
      Calls (.conjuncts room pending (f :: fs) partials) (.conjuncts room pending fs next)

/-- A property of everything that a search works on. -/
def Throughout (P : Task → Prop) (start : Task) : Prop :=
  ∀ task, Relation.ReflTransGen t.Calls start task → P task

variable {t}

theorem Throughout.here {P : Task → Prop} {x : Task} (h : t.Throughout P x) : P x := h x .refl

theorem Throughout.next {P : Task → Prop} {x y : Task} (h : t.Throughout P x)
    (hxy : t.Calls x y) : t.Throughout P y :=
  fun z hz => h z (.head hxy hz)

theorem throughout_iff {P : Task → Prop} {x : Task} :
    t.Throughout P x ↔ P x ∧ ∀ y, t.Calls x y → t.Throughout P y := by
  refine ⟨fun h => ⟨h.here, fun y hxy => h.next hxy⟩, ?_⟩
  rintro ⟨hx, h⟩ z hz
  rcases Relation.ReflTransGen.cases_head hz with rfl | ⟨y, hxy, hz⟩
  · exact hx
  · exact h y hxy z hz

/-- A goal hands on the conditions of the rules that it is tried by. -/
theorem throughout_goal {P : Task → Prop} {room : Nat} {pending : List String} {g : Leaf}
    (hgoal : P (.goal (room + 1) pending g)) (h : ∀ e ∈ t.attempts g, ∀ c,
      e.1.condition = some c → t.Throughout P (.condition room (g.text :: pending) c ⟨e.2, 1.0, []⟩)) :
    t.Throughout P (.goal (room + 1) pending g) := by
  refine throughout_iff.mpr ⟨hgoal, fun y hy => ?_⟩
  cases hy with
  | attempt _ _ hsplit _ _ hcond =>
    exact h _ (hsplit ▸ List.mem_append_right _ List.mem_cons_self) _ hcond

/-- A leaf hands on one goal. -/
theorem throughout_leaf_of_goal {P : Task → Prop} {room : Nat} {pending : List String} {l : Leaf}
    {s : Solution} (hleaf : P (.condition room pending (.leaf l) s))
    (hgoal : t.Throughout P (.goal room pending (l.substitute s.bindings))) :
    t.Throughout P (.condition room pending (.leaf l) s) := by
  refine throughout_iff.mpr ⟨hleaf, fun y hy => ?_⟩
  cases hy
  exact hgoal

/-- The goal of a leaf goes no further if nothing is tried for it. -/
theorem throughout_leaf {P : Task → Prop} {room : Nat} {pending : List String} {l : Leaf}
    {s : Solution} (hleaf : P (.condition room pending (.leaf l) s))
    (hgoal : P (.goal room pending (l.substitute s.bindings)))
    (huntried : t.attempts (l.substitute s.bindings) = []) :
    t.Throughout P (.condition room pending (.leaf l) s) := by
  refine throughout_leaf_of_goal hleaf (throughout_iff.mpr ⟨hgoal, fun y hy => ?_⟩)
  cases hy with
  | attempt _ _ hsplit =>
    rw [huntried] at hsplit
    simp at hsplit

variable (t)

/-- The alternatives of a condition, or of the part of a conjunction that is solved next, stay
below the number that is kept. -/
def Uncapped : Task → Prop
  | .condition room pending f s => ∀ sols,
    (t.solve (t.proveLeaf room pending) f s).value = .ok sols → sols.length < maxSolutions
  | .conjuncts room pending (f :: _) partials => ∀ next,
    (gather maxSolutions (t.solve (t.proveLeaf room pending) f) partials []).value = .ok next →
      next.length < maxSolutions
  | _ => True

/-- One alternative always fits. -/
theorem lt_maxSolutions {n : Nat} (h : n ≤ 1) : n < maxSolutions :=
  Nat.lt_of_le_of_lt h (by decide)

variable {t} {prove : Leaf → Search (Option Certificate)}

/-- A bound leaf is a goal, and has a solution if that is proved. -/
theorem solveLeaf_of_bound {l : Leaf} {s : Solution} {sols : List Solution}
    (hbound : l.isBound s.bindings = true) (h : (t.solveLeaf prove l s).value = .ok sols) :
    ∃ c, (prove (l.substitute s.bindings)).value = .ok c ∧
      sols = (c.map fun c => (s.atMost c.confidence).add c.steps).toList := by
  unfold solveLeaf at h
  rw [if_pos hbound] at h
  obtain ⟨c, hc, h⟩ := bind_eq_ok.mp h
  refine ⟨c, hc, ?_⟩
  cases c with
  | none =>
    cases h
    rfl
  | some c =>
    cases h
    rfl

theorem length_of_bound {l : Leaf} {s : Solution} {sols : List Solution}
    (hbound : l.isBound s.bindings = true) (h : (t.solveLeaf prove l s).value = .ok sols) :
    sols.length ≤ 1 := by
  obtain ⟨c, -, rfl⟩ := solveLeaf_of_bound hbound h
  cases c <;> simp

/-- A bound leaf has one solution at most. -/
theorem uncapped_leaf {room : Nat} {pending : List String} {l : Leaf} {s : Solution}
    (hbound : l.isBound s.bindings = true) :
    t.Uncapped (.condition room pending (.leaf l) s) := by
  intro sols h
  unfold solve at h
  exact lt_maxSolutions (length_of_bound hbound h)

variable (t) in
/-- A goal is only tried by rules whose condition is one bound leaf, and so is the goal of that leaf,
as far as there are levels left. -/
def leadsByLeaves : (room : Nat) → Leaf → Bool
  | 0, _ => true
  | room + 1, g => (t.attempts g).all fun e =>
    match e.1.condition with
    | some (.leaf l) => l.isBound e.2 && leadsByLeaves room (l.substitute e.2)
    | _ => false

/-- Nothing is dropped where every condition is one bound leaf. -/
theorem uncapped_of_leadsByLeaves {room : Nat} {pending : List String} {g : Leaf}
    (h : t.leadsByLeaves room g = true) : t.Throughout t.Uncapped (.goal room pending g) := by
  induction room generalizing pending g with
  | zero => exact throughout_iff.mpr ⟨trivial, nofun⟩
  | succ room ih =>
    refine throughout_goal trivial fun e he c hcond => ?_
    have hleads := List.all_eq_true.mp h e he
    rw [hcond] at hleads
    cases c with
    | leaf l =>
      obtain ⟨hbound, hnext⟩ := Bool.and_eq_true_iff.mp hleads
      exact throughout_leaf_of_goal (uncapped_leaf hbound) (ih hnext)
    | all _ | any _ | negate _ | implies _ _ | reference _ => cases hleads

/-! ### Attempts at a goal -/

theorem unify?_eq_none {decay : Float32} {p : Pruning} {g : Leaf} {r : Rule}
    {solveFor : Rule → Bindings → Search (Option Solution)} :
    (unify? solveFor decay p g r).value = .ok none ↔
      ∀ b ∈ offers p g r, (solveFor r b).value = .ok none := by
  unfold unify?
  rw [findSomeM?_eq_ok_none]
  refine forall₂_congr fun b _ => ?_
  rw [bind_eq_ok]
  constructor
  · rintro ⟨s, hs, h⟩
    cases s with
    | none => exact hs
    | some s => cases h
  · exact fun h => ⟨none, h, rfl⟩

/-- No rule proves a goal if every attempt gives nothing. -/
theorem rules_eq_none {decay : Float32} {p : Pruning} {g : Leaf} {rules : List Rule}
    {solveFor : Rule → Bindings → Search (Option Solution)} :
    (rules.findSomeM? (unify? solveFor decay p g)).value = .ok none ↔
      ∀ e ∈ rules.flatMap fun r => (offers p g r).map (r, ·),
        (solveFor e.1 e.2).value = .ok none := by
  rw [findSomeM?_eq_ok_none]
  simp only [unify?_eq_none, List.mem_flatMap, List.mem_map]
  constructor
  · rintro h e ⟨r, hr, b, hb, rfl⟩
    exact h r hr b hb
  · exact fun h r hr b hb => h (r, b) ⟨r, hr, b, hb, rfl⟩

/-- A rule proves a goal by the first attempt that succeeds. -/
theorem rules_eq_some {decay : Float32} {p : Pruning} {g : Leaf} {rules : List Rule}
    {solveFor : Rule → Bindings → Search (Option Solution)} {u : Unification}
    (h : (rules.findSomeM? (unify? solveFor decay p g)).value = .ok (some u)) :
    ∃ before r b after s, (rules.flatMap fun r => (offers p g r).map (r, ·)) =
        before ++ (r, b) :: after ∧
      (∀ e ∈ before, (solveFor e.1 e.2).value = .ok none) ∧
        (solveFor r b).value = .ok (some s) := by
  obtain ⟨rs, r, rs', rfl, hrs, hr⟩ := findSomeM?_eq_ok_some.mp h
  obtain ⟨bs, b, bs', hoffers, hbs, hb⟩ := findSomeM?_eq_ok_some.mp hr
  obtain ⟨s, hs, hu⟩ := bind_eq_ok.mp hb
  cases s with
  | none => cases hu
  | some s =>
    refine ⟨(rs.flatMap fun r => (offers p g r).map (r, ·)) ++ bs.map (r, ·), r, b,
      bs'.map (r, ·) ++ rs'.flatMap fun r => (offers p g r).map (r, ·), s, ?_, ?_, hs⟩
    · simp [hoffers]
    · intro e he
      rcases List.mem_append.mp he with he | he
      · exact rules_eq_none.mp (findSomeM?_eq_ok_none.mpr hrs) e he
      · obtain ⟨b', hb', rfl⟩ := List.mem_map.mp he
        obtain ⟨s', hs', hnone⟩ := bind_eq_ok.mp (hbs b' hb')
        cases s' with
        | none => exact hs'
        | some s' => cases hnone

/-! ### Alternatives -/

theorem solveAny_eq_gather (fs : List Formula) (s : Solution) (found : List Solution) :
    t.solveAny prove fs s found = gather maxSolutions (fun f => t.solve prove f s) fs found := by
  induction fs generalizing found with
  | nil =>
    unfold solveAny
    rfl
  | cons f fs ih =>
    unfold solveAny
    rw [gather_cons]
    simp only [ih]

/-- Every solution of one list has its like in another. -/
def Covers (sols sols' : List Solution) : Prop := ∀ s ∈ sols, ∃ s' ∈ sols', Alike s s'

theorem covers_nil (sols : List Solution) : Covers [] sols :=
  fun _ hs => absurd hs List.not_mem_nil

theorem covers_of_forall₂ {sols sols' : List Solution} (h : List.Forall₂ Alike sols sols') :
    Covers sols sols' := by
  induction h with
  | nil => exact covers_nil _
  | cons hab _ ih =>
    intro s hs
    rcases List.mem_cons.mp hs with rfl | hs
    · exact ⟨_, List.mem_cons_self, hab⟩
    · obtain ⟨s', hs', halike⟩ := ih s hs
      exact ⟨s', List.mem_cons_of_mem _ hs', halike⟩

/-! ### Conditions -/

/-- A theory gives the same facts as another one, and tries whatever that one tries. -/
structure Broader (t t' : Theory) : Prop where
  facts : ∀ l s, t'.matchFacts l s = t.matchFacts l s
  stated : ∀ g, t'.statedBy? g = t.statedBy? g
  attempts : ∀ g, t.attempts g ⊆ t'.attempts g

theorem Broader.refl (t : Theory) : Broader t t :=
  ⟨fun _ _ => rfl, fun _ => rfl, fun _ => List.Subset.refl _⟩

section

variable {t' : Theory} {P : Task → Prop} {room room' : Nat} {pending : List String}

/-- Goals that the first theory proves with `room` levels left, the second one proves with
`room'`. -/
def ProvesAgain (t t' : Theory) (P : Task → Prop) (room room' : Nat) (pending : List String) :
    Prop :=
  ∀ g c r, t.Throughout P (.goal room pending g) →
    t'.Throughout t'.Uncapped (.goal room' pending g) →
    (t.proveLeaf room pending g).value = .ok (some c) →
    (t'.proveLeaf room' pending g).value = .ok r → r.isSome = true

/-- Every solution of a condition that the first theory finds with `room` levels left, the second
one finds with `room'`. -/
def FindsAgain (t t' : Theory) (P : Task → Prop) (room room' : Nat) (pending : List String)
    (f : Formula) : Prop :=
  ∀ s s', Alike s s' → t.Throughout P (.condition room pending f s) →
    t'.Throughout t'.Uncapped (.condition room' pending f s') → ∀ sols sols',
    (t.solve (t.proveLeaf room pending) f s).value = .ok sols →
    (t'.solve (t'.proveLeaf room' pending) f s').value = .ok sols' → Covers sols sols'

theorem findsAgain_leaf (hbroad : Broader t t') (hgoal : ProvesAgain t t' P room room' pending)
    (l : Leaf) : FindsAgain t t' P room room' pending (.leaf l) := by
  intro s s' h hP hcap sols sols' hs hs'
  unfold solve at hs hs'
  by_cases hbound : l.isBound s.bindings = true
  · have hbound' : l.isBound s'.bindings = true := h ▸ hbound
    obtain ⟨c, hc, rfl⟩ := solveLeaf_of_bound hbound hs
    obtain ⟨c', hc', rfl⟩ := solveLeaf_of_bound hbound' hs'
    cases c with
    | none => exact covers_nil _
    | some c =>
      have hsome : c'.isSome = true := by
        refine hgoal _ c c' (hP.next (.leaf hbound)) ?_ hc (h ▸ hc')
        rw [h]
        exact hcap.next (.leaf hbound')
      obtain ⟨c', rfl⟩ := Option.isSome_iff_exists.mp hsome
      exact covers_of_forall₂ (.cons h .nil)
  · have hbound' : ¬ l.isBound s'.bindings = true := h ▸ hbound
    unfold solveLeaf at hs hs'
    rw [if_neg hbound] at hs
    rw [if_neg hbound', hbroad.facts] at hs'
    have halike := likeness_bindings.matchFacts (t := t) l h
    rw [hs, hs'] at halike
    cases halike with
    | ok hsols => exact covers_of_forall₂ hsols

/-- A conjunction finds solutions again part by part. -/
theorem covers_solveAll {fs : List Formula} (hfs : ∀ f ∈ fs, FindsAgain t t' P room room' pending f)
    {ps ps' : List Solution} (h : Covers ps ps')
    (hP : t.Throughout P (.conjuncts room pending fs ps))
    (hcap : t'.Throughout t'.Uncapped (.conjuncts room' pending fs ps')) {sols sols' : List Solution}
    (hs : (t.solveAll (t.proveLeaf room pending) fs ps).value = .ok sols)
    (hs' : (t'.solveAll (t'.proveLeaf room' pending) fs ps').value = .ok sols') :
    Covers sols sols' := by
  induction fs generalizing ps ps' with
  | nil =>
    unfold solveAll at hs hs'
    cases hs
    cases hs'
    exact h
  | cons f fs ih =>
    rw [List.forall_mem_cons] at hfs
    unfold solveAll at hs hs'
    obtain ⟨next, hnext, hs⟩ := bind_eq_ok.mp hs
    obtain ⟨next', hnext', hs'⟩ := bind_eq_ok.mp hs'
    have hbelow : next'.length < maxSolutions := hcap.here next' hnext'
    have hcovers : Covers next next' := by
      intro x hx
      rcases mem_of_gather hnext hx with hx | ⟨p, hp, bs, hbs, hx⟩
      · cases hx
      · obtain ⟨p', hp', halike⟩ := h p hp
        obtain ⟨bs', hbs', hsub⟩ := (gather_complete hnext' hbelow).2 p' hp'
        obtain ⟨x', hx', hxx⟩ := hfs.1 p p' halike (hP.next (.conjunct hp))
          (hcap.next (.conjunct hp')) bs bs' hbs hbs' x hx
        exact ⟨x', hsub hx', hxx⟩
    cases next with
    | nil =>
      cases hs
      exact covers_nil _
    | cons x xs =>
      obtain ⟨x', hx', -⟩ := hcovers x List.mem_cons_self
      have hne : next'.isEmpty = false := by
        cases next' with
        | nil => cases hx'
        | cons _ _ => rfl
      rw [hne] at hs'
      exact ih hfs.2 hcovers (hP.next (.rest hnext)) (hcap.next (.rest hnext')) hs hs'

/-- A disjunction finds solutions again in the part they come from. -/
theorem findsAgain_any {ps : List Formula} (hps : ∀ p ∈ ps, FindsAgain t t' P room room' pending p) :
    FindsAgain t t' P room room' pending (.any ps) := by
  intro s s' h hP hcap sols sols' hs hs'
  have hbelow : sols'.length < maxSolutions := hcap.here sols' hs'
  unfold solve at hs hs'
  rw [solveAny_eq_gather] at hs hs'
  intro x hx
  rcases mem_of_gather hs hx with hx | ⟨p, hp, bs, hbs, hx⟩
  · cases hx
  · obtain ⟨bs', hbs', hsub⟩ := (gather_complete hs' hbelow).2 p hp
    obtain ⟨x', hx', halike⟩ := hps p hp s s' h (hP.next (.any hp)) (hcap.next (.any hp))
      bs bs' hbs hbs' x hx
    exact ⟨x', hsub hx', halike⟩

/-- In an open world no negation has a solution to find again. -/
theorem findsAgain_negate_open (hopen : t.config.closedWorld = false) (f : Formula) :
    FindsAgain t t' P room room' pending (.negate f) := by
  intro s s' _ _ _ sols sols' hs _
  unfold solve at hs
  rw [hopen] at hs
  cases hs
  exact covers_nil _

mutual

/-- **Every solution of a condition is found again**, if goals and negations are. -/
theorem findsAgain (hbroad : Broader t t') (hgoal : ProvesAgain t t' P room room' pending)
    (hneg : ∀ f, FindsAgain t t' P room room' pending (.negate f)) :
    (f : Formula) → FindsAgain t t' P room room' pending f
  | .leaf l => findsAgain_leaf hbroad hgoal l
  | .all ps => by
    intro s s' h hP hcap sols sols' hs hs'
    unfold solve at hs hs'
    exact covers_solveAll (findsAgain_parts hbroad hgoal hneg ps)
      (covers_of_forall₂ (.cons h .nil)) (hP.next .all) (hcap.next .all) hs hs'
  | .any ps => findsAgain_any (findsAgain_parts hbroad hgoal hneg ps)
  | .negate f => hneg f
  | .implies _ _ | .reference _ => by
    intro s s' _ _ _ sols sols' hs _
    unfold solve at hs
    cases hs
    exact covers_nil _

theorem findsAgain_parts (hbroad : Broader t t') (hgoal : ProvesAgain t t' P room room' pending)
    (hneg : ∀ f, FindsAgain t t' P room room' pending (.negate f)) :
    (fs : List Formula) → ∀ f ∈ fs, FindsAgain t t' P room room' pending f
  | [] => nofun
  | f :: fs => List.forall_mem_cons.mpr
    ⟨findsAgain hbroad hgoal hneg f, findsAgain_parts hbroad hgoal hneg fs⟩

end

/-! ### Goals -/

/-- A condition has a first solution again if its solutions are found again. -/
theorem isSome_solveCondition {r : Rule} {b : Bindings} {s : Solution} {again : Option Solution}
    (hle : room ≤ room') (hcovers : ∀ c, r.condition = some c → room ≠ 0 → ∀ sols sols',
      (t.solve (t.proveLeaf room pending) c ⟨b, 1.0, []⟩).value = .ok sols →
      (t'.solve (t'.proveLeaf room' pending) c ⟨b, 1.0, []⟩).value = .ok sols' →
      Covers sols sols')
    (hs : (t.solveCondition (t.proveLeaf room pending) room r b).value = .ok (some s))
    (hagain : (t'.solveCondition (t'.proveLeaf room' pending) room' r b).value = .ok again) :
    again.isSome = true := by
  unfold solveCondition at hs hagain
  split at hs
  · cases hs
  · rename_i c hc
    split at hs
    · cases hs
    · rename_i hroom
      rw [hc] at hagain
      have hroom' : room' ≠ 0 := by omega
      dsimp only at hagain
      rw [if_neg hroom'] at hagain
      obtain ⟨sols, hsols, hhead⟩ := bind_eq_ok.mp hs
      obtain ⟨sols', hsols', hhead'⟩ := bind_eq_ok.mp hagain
      have hmem : s ∈ sols := List.mem_of_mem_head? (Except.ok.inj hhead)
      obtain ⟨s', hs', -⟩ := hcovers c hc hroom sols sols' hsols hsols' s hmem
      cases sols' with
      | nil => cases hs'
      | cons x xs =>
        cases hhead'
        rfl

/-- **A goal that is proved is proved again by a broader theory with at least as many levels left**,
if negations hold again at every level on the way. -/
theorem provesAgain (hbroad : Broader t t') (hneg : ∀ room room' pending f, room ≤ room' →
      FindsAgain t t' P room room' pending (.negate f)) (hle : room ≤ room')
    (pending : List String) : ProvesAgain t t' P room room' pending := by
  induction room generalizing room' pending with
  | zero =>
    intro g c r _ _ hc
    cases hc
  | succ room ih =>
    obtain ⟨room', rfl⟩ : ∃ n, room' = n + 1 := ⟨room' - 1, by omega⟩
    have hle' : room ≤ room' := by omega
    intro g c r hP hcap hc hr
    unfold proveLeaf at hc hr
    split at hc
    · cases hc
    · rename_i hpending
      rw [if_neg hpending, hbroad.stated] at hr
      have hfresh : pending.contains g.text = false := by simpa using hpending
      obtain ⟨stated, hstated, hc⟩ := bind_eq_ok.mp hc
      obtain ⟨stated', hstated', hr⟩ := bind_eq_ok.mp hr
      rw [hstated] at hstated'
      cases hstated'
      cases stated with
      | some f =>
        cases hr
        rfl
      | none =>
        have hnot := ofExcept_eq_ok.mp hstated
        have hnot' := (hbroad.stated g).trans hnot
        obtain ⟨u, hu, hc⟩ := bind_eq_ok.mp hc
        obtain ⟨u', hu', hr⟩ := bind_eq_ok.mp hr
        cases u with
        | none => cases hc
        | some u =>
          cases u' with
          | some u' =>
            cases hr
            rfl
          | none =>
            exfalso
            obtain ⟨before, rule, b, after, s, hsplit, hbefore, hs⟩ :=
              rules_eq_some (workingOn_eq_ok.mp hu)
            have hnone : ∀ e ∈ t'.attempts g, (t'.answer room' pending g e).value = .ok none :=
              rules_eq_none.mp (workingOn_eq_ok.mp hu')
            have hmade : (rule, b) ∈ t.attempts g := by
              unfold attempts
              rw [hsplit]
              exact List.mem_append_right _ List.mem_cons_self
            -- the attempt that succeeded is made again, after others that give nothing
            have hmade' := hbroad.attempts g hmade
            obtain ⟨before', after', hsplit'⟩ := List.append_of_mem hmade'
            have hbefore' : ∀ e ∈ before', (t'.answer room' pending g e).value = .ok none :=
              fun e he => hnone e (hsplit' ▸ List.mem_append_left _ he)
            have hsome := isSome_solveCondition hle' (fun cond hcond hroom => findsAgain hbroad
              (ih hle' _) (fun f => hneg _ _ _ f hle') cond _ _ rfl
              (hP.next (.attempt hfresh hnot hsplit hbefore hroom hcond))
              (hcap.next (.attempt hfresh hnot' hsplit' hbefore' (by omega) hcond)))
              hs (hnone _ hmade')
            cases hsome

end

end Theory

end KnowledgeBase.Proof
