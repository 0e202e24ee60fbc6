import KnowledgeBase.Proof.Theory
import KnowledgeBase.Proofs.Chaining.Search

/-!
# Searches that no branch was cut short for

A search with more levels left comes to the same, if no branch of the first one was cut short.

* `Search.Settles R x y`: if `x` was not cut short, neither was `y`, and they end alike;
* `Settles.bind`, `Settles.findSomeM?`, `Settles.gather`: composed searches settle if their parts
  do;
* `Likeness C S`: relations of certificates and of solutions that every step of a proof keeps;
  `likeness_bindings` only looks at bindings, `likeness_eq` at everything;
* `settles_solve`: conditions, by induction on the formula;
* `settles_proveLeaf`: goals, by induction on the levels left;
* `proveLeaf_of_not_limited`: a goal that no branch was cut short for has the same search with more
  levels left.
-/

namespace KnowledgeBase.Proof

namespace Search

variable {α β γ δ : Type}

/-- Two searches end alike: with related values, or in the same break. -/
inductive EndAlike (R : α → β → Prop) : Except Break α → Except Break β → Prop
  | ok {a : α} {b : β} : R a b → EndAlike R (.ok a) (.ok b)
  | error (e : Break) : EndAlike R (.error e) (.error e)

/-- If no branch of the first search was cut short, none of the second was, and they end alike. -/
def Settles (R : α → β → Prop) (x : Search α) (y : Search β) : Prop :=
  x.limited = false → y.limited = false ∧ EndAlike R x.value y.value

variable {R : α → β → Prop} {S : γ → δ → Prop} {x : Search α} {y : Search β}

theorem settles_pure {a : α} {b : β} (h : R a b) : Settles R (pure a) (pure b) :=
  fun _ => ⟨rfl, .ok h⟩

theorem settles_cut (a : α) : Settles R (cut a) y := nofun

theorem settles_ofExcept {r : Except Fault α} {r' : Except Fault β}
    (h : EndAlike R (ofExcept r).value (ofExcept r').value) :
    Settles R (ofExcept r) (ofExcept r') :=
  fun _ => ⟨rfl, h⟩

theorem endAlike_ofExcept {r : Except Fault α} {R : α → α → Prop}
    (h : ∀ a, r = .ok a → R a a) : EndAlike R (ofExcept r).value (ofExcept r).value := by
  cases r with
  | ok a => exact .ok (h a rfl)
  | error e => exact .error _

theorem Settles.bind {f : α → Search γ} {g : β → Search δ} (h : Settles R x y)
    (hf : ∀ a b, R a b → Settles S (f a) (g b)) : Settles S (x >>= f) (y >>= g) := by
  intro hlim
  cases hx : x.value with
  | ok a =>
    rw [bind_of_ok hx] at hlim ⊢
    simp only [Bool.or_eq_false_iff] at hlim
    obtain ⟨hy, halike⟩ := h hlim.1
    rw [hx] at halike
    cases hyv : y.value with
    | ok b =>
      rw [hyv] at halike
      cases halike with
      | ok hab =>
        obtain ⟨hg, hvalue⟩ := hf a b hab hlim.2
        rw [bind_of_ok hyv]
        exact ⟨by simp [hy, hg], hvalue⟩
    | error e =>
      rw [hyv] at halike
      cases halike
  | error e =>
    rw [bind_of_error hx] at hlim ⊢
    obtain ⟨hy, halike⟩ := h hlim
    rw [hx] at halike
    cases hyv : y.value with
    | ok b =>
      rw [hyv] at halike
      cases halike
    | error e' =>
      rw [hyv] at halike
      cases halike
      rw [bind_of_error hyv]
      exact ⟨hy, .error e⟩

theorem Settles.workingOn (h : Settles R x y) (goal : String) :
    Settles R (x.workingOn goal) (y.workingOn goal) := by
  intro hlim
  obtain ⟨hy, halike⟩ := h hlim
  refine ⟨hy, ?_⟩
  unfold Search.workingOn
  generalize x.value = v, y.value = w at halike
  cases halike with
  | ok hab => exact .ok hab
  | error e => exact .error _

theorem Settles.findSomeM? {f : γ → Search (Option α)} {g : γ → Search (Option β)} {as : List γ}
    (h : ∀ a ∈ as, Settles (Option.Rel R) (f a) (g a)) :
    Settles (Option.Rel R) (as.findSomeM? f) (as.findSomeM? g) := by
  induction as with
  | nil => exact settles_pure .none
  | cons a as ih =>
    rw [findSomeM?_cons, findSomeM?_cons]
    refine (h a List.mem_cons_self).bind fun r r' hr => ?_
    cases hr with
    | some hab => exact settles_pure (.some hab)
    | none => exact ih fun a' ha' => h a' (List.mem_cons_of_mem _ ha')

theorem Settles.gather {cap : Nat} {f : α → Search (List γ)} {g : β → Search (List δ)}
    {as : List α} {bs : List β} {found : List γ} {found' : List δ} (has : List.Forall₂ R as bs)
    (hf : ∀ a b, R a b → Settles (List.Forall₂ S) (f a) (g b))
    (hfound : List.Forall₂ S found found') :
    Settles (List.Forall₂ S) (gather cap f as found) (gather cap g bs found') := by
  induction has generalizing found found' with
  | nil => exact settles_pure hfound
  | cons hab _ ih =>
    rw [gather_cons, gather_cons]
    refine (hf _ _ hab).bind fun cs ds hcd => ?_
    have hnext := List.forall₂_take cap (List.rel_append hfound hcd)
    rw [hnext.length_eq]
    split
    · exact settles_pure hnext
    · exact ih hnext

end Search

open Search

namespace Theory

variable {t : Theory} {prove prove' : Leaf → Search (Option Certificate)}

/-! ### Comparing proofs -/

/-- Relations of certificates and of solutions that every step of a proof keeps. -/
structure Likeness (C : Certificate → Certificate → Prop) (S : Solution → Solution → Prop) :
    Prop where
  bindings : ∀ {s s'}, S s s' → s.bindings = s'.bindings
  start : ∀ s, S s s
  stated : ∀ c, C c c
  rebind : ∀ {s s'} (b : Bindings), S s s' →
    S { s with bindings := b } { s' with bindings := b }
  /-- a fact or a negation is used -/
  step : ∀ {s s'} (confidence : Float32) (steps : List Step), S s s' →
    S ((s.atMost confidence).add steps) ((s'.atMost confidence).add steps)
  /-- a goal is used -/
  goal : ∀ {s s' c c'}, S s s' → C c c' →
    S ((s.atMost c.confidence).add c.steps) ((s'.atMost c'.confidence).add c'.steps)
  rule : ∀ {s s'} (decay : Float32) (g : Leaf) (r : Rule) (b : Bindings), S s s' →
    C (certifyRule (conclude decay g r b s)) (certifyRule (conclude decay g r b s'))

/-- Two solutions with the same bindings, whatever they rest on. -/
def Alike (s s' : Solution) : Prop := s.bindings = s'.bindings

theorem likeness_bindings : Likeness (fun _ _ => True) Alike where
  bindings := fun h => h
  start := fun _ => rfl
  stated := fun _ => trivial
  rebind := fun _ _ => rfl
  step := fun _ _ h => h
  goal := fun h _ => h
  rule := fun _ _ _ _ _ => trivial

section

variable {C : Certificate → Certificate → Prop} {S : Solution → Solution → Prop}

/-! ### Conditions -/

/-- What the facts give depends on the bindings only. -/
theorem Likeness.matchFacts (hl : Likeness C S) (l : Leaf) {s s' : Solution} (h : S s s') :
    EndAlike (List.Forall₂ S) (ofExcept (t.matchFacts l s)).value
      (ofExcept (t.matchFacts l s')).value := by
  unfold Theory.matchFacts
  split
  · rename_i subject object hargs
    rw [hl.bindings h]
    cases t.matchable l subject s'.bindings with
    | error e => exact .error _
    | ok fs =>
      refine .ok (List.forall₂_take _ ?_)
      induction fs with
      | nil => exact .nil
      | cons f fs ih =>
        rw [List.filterMap_cons, List.filterMap_cons]
        cases matchTerms? l.args [f.subject, f.object] s'.bindings with
        | none => exact ih
        | some b => exact .cons (hl.step _ _ (hl.rebind b h)) ih
  · exact .ok .nil

theorem settles_solveLeaf (hl : Likeness C S)
    (hprove : ∀ g, Settles (Option.Rel C) (prove g) (prove' g)) (l : Leaf)
    {s s' : Solution} (h : S s s') :
    Settles (List.Forall₂ S) (t.solveLeaf prove l s) (t.solveLeaf prove' l s') := by
  unfold solveLeaf
  rw [hl.bindings h]
  split
  · refine (hprove _).bind fun c c' hc => ?_
    cases hc with
    | none => exact settles_pure .nil
    | some hc => exact settles_pure (.cons (hl.goal h hc) .nil)
  · exact settles_ofExcept (hl.matchFacts l h)

mutual

/-- **Conditions settle if the goals in them do.** -/
theorem settles_solve (hl : Likeness C S)
    (hprove : ∀ g, Settles (Option.Rel C) (prove g) (prove' g)) :
    (f : Formula) → {s s' : Solution} → S s s' →
      Settles (List.Forall₂ S) (t.solve prove f s) (t.solve prove' f s')
  | .leaf l, s, s', h => by
    unfold solve
    exact settles_solveLeaf hl hprove l h
  | .all ps, s, s', h => by
    unfold solve
    exact settles_solveAll hl hprove ps (.cons h .nil)
  | .any ps, s, s', h => by
    unfold solve
    exact settles_solveAny hl hprove ps h .nil
  | .negate f, s, s', h => by
    unfold solve
    split
    · refine (settles_solve hl hprove f h).bind fun sols sols' hsols => ?_
      cases hsols with
      | nil =>
        rw [hl.bindings h]
        exact settles_pure (.cons (hl.step _ _ h) .nil)
      | cons _ _ => exact settles_pure .nil
    · exact settles_pure .nil
  | .implies _ _, s, s', h | .reference _, s, s', h => by
    unfold solve
    exact settles_pure .nil

theorem settles_solveAll (hl : Likeness C S)
    (hprove : ∀ g, Settles (Option.Rel C) (prove g) (prove' g)) :
    (fs : List Formula) → {ps ps' : List Solution} → List.Forall₂ S ps ps' →
      Settles (List.Forall₂ S) (t.solveAll prove fs ps) (t.solveAll prove' fs ps')
  | [], ps, ps', h => by
    unfold solveAll
    exact settles_pure h
  | f :: fs, ps, ps', h => by
    unfold solveAll
    refine (Settles.gather h (fun _ _ => settles_solve hl hprove f) .nil).bind
      fun next next' hnext => ?_
    cases hnext with
    | nil => exact settles_pure .nil
    | cons hhead htail => exact settles_solveAll hl hprove fs (.cons hhead htail)

theorem settles_solveAny (hl : Likeness C S)
    (hprove : ∀ g, Settles (Option.Rel C) (prove g) (prove' g)) :
    (fs : List Formula) → {s s' : Solution} → {found found' : List Solution} → S s s' →
      List.Forall₂ S found found' →
      Settles (List.Forall₂ S) (t.solveAny prove fs s found) (t.solveAny prove' fs s' found')
  | [], s, s', found, found', h, hfound => by
    unfold solveAny
    exact settles_pure hfound
  | f :: fs, s, s', found, found', h, hfound => by
    unfold solveAny
    refine (settles_solve hl hprove f h).bind fun sols sols' hsols => ?_
    have hnext := List.forall₂_take maxSolutions (List.rel_append hfound hsols)
    dsimp only
    rw [hnext.length_eq]
    split
    · exact settles_pure hnext
    · exact settles_solveAny hl hprove fs h hnext

end

theorem settles_solveCondition (hl : Likeness C S)
    (hprove : ∀ g, Settles (Option.Rel C) (prove g) (prove' g))
    {room room' : Nat} (hle : room ≤ room') (r : Rule) (b : Bindings) :
    Settles (Option.Rel S) (t.solveCondition prove room r b)
      (t.solveCondition prove' room' r b) := by
  unfold solveCondition
  split
  · exact settles_pure .none
  · rename_i c _
    by_cases hroom : room = 0
    · rw [if_pos hroom]
      exact settles_cut none
    · rw [if_neg hroom, if_neg (by omega)]
      refine (settles_solve hl hprove c (hl.start _)).bind fun sols sols' hsols => ?_
      cases hsols with
      | nil => exact settles_pure .none
      | cons hhead _ => exact settles_pure (.some hhead)

/-! ### Goals -/

theorem settles_unify? (hl : Likeness C S)
    {solveFor solveFor' : Rule → Bindings → Search (Option Solution)}
    (h : ∀ r b, Settles (Option.Rel S) (solveFor r b) (solveFor' r b)) (decay : Float32)
    (p : Pruning) (goal : Leaf) (r : Rule) :
    Settles (Option.Rel fun u u' => C (certifyRule u) (certifyRule u'))
      (unify? solveFor decay p goal r) (unify? solveFor' decay p goal r) := by
  refine Settles.findSomeM? fun b _ => (h r b).bind fun s s' hs => ?_
  cases hs with
  | none => exact settles_pure .none
  | some hs => exact settles_pure (.some (hl.rule decay goal r b hs))

/-- The rules settle a goal, if the goals of their conditions are settled. -/
theorem settles_rules (hl : Likeness C S)
    (hprove : ∀ g, Settles (Option.Rel C) (prove g) (prove' g))
    {room room' : Nat} (hle : room ≤ room') (goal : Leaf) :
    Settles (Option.Rel fun u u' => C (certifyRule u) (certifyRule u'))
      (workingOn goal.text (t.rules.findSomeM?
        (unify? (t.solveCondition prove room) t.config.thresholds.confidenceDecay t.pruning goal)))
      (workingOn goal.text (t.rules.findSomeM?
        (unify? (t.solveCondition prove' room') t.config.thresholds.confidenceDecay t.pruning
          goal))) :=
  Settles.workingOn (Settles.findSomeM? fun r _ =>
    settles_unify? hl (settles_solveCondition hl hprove hle) _ _ goal r) goal.text

/-- **A goal that no branch was cut short for is settled: with more levels left it comes to the
same.** -/
theorem settles_proveLeaf (hl : Likeness C S) {room room' : Nat} (hle : room ≤ room')
    (pending : List String) (goal : Leaf) :
    Settles (Option.Rel C) (t.proveLeaf room pending goal) (t.proveLeaf room' pending goal) := by
  induction room generalizing room' pending goal with
  | zero => exact settles_cut none
  | succ room ih =>
    obtain ⟨room', rfl⟩ : ∃ n, room' = n + 1 := ⟨room' - 1, by omega⟩
    have hle' : room ≤ room' := by omega
    unfold proveLeaf
    split
    · exact settles_pure .none
    · refine (settles_ofExcept (R := Eq) (endAlike_ofExcept fun _ _ => rfl)).bind ?_
      rintro stated _ rfl
      cases stated with
      | some f => exact settles_pure (.some (hl.stated _))
      | none =>
        refine (settles_rules hl (fun g => ih hle' _ g) hle' goal).bind fun u u' hu => ?_
        cases hu with
        | none => exact settles_pure .none
        | some hu => exact settles_pure (.some hu)

end

end Theory

end KnowledgeBase.Proof
