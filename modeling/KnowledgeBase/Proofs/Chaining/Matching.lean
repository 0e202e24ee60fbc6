import KnowledgeBase.Proofs.Chaining.Derivation

/-!
# Matching is exact

A conclusion matches a goal exactly if some assignment of its holes makes it the goal, and the match
lists this assignment: each hole once, where it is first seen.  A prover is asked for the matches in
the order of the conclusions, one level deeper, until it accepts one.

* `Term.shown`, `Leaf.shown`: a goal whose holes stand for texts of their own;
* `Matches`, `matchConclusion?_iff`: what a match is, without a word on how it is found;
* `Lists`, `Lists.matchTerms?`: terms are matched by listing the values of their holes;
* `Consults`: the runs in which a prover is asked for one candidate after the other;
* `logged`, `recorded`: a prover that keeps what it was asked;
* `unifyAt?_consults`: a rule is tried by such a run and no other.
-/

namespace KnowledgeBase

/-! ### Goals -/

/-- The text of an argument: its name, and that of a hole after a question mark. -/
def Term.shown : Term → String
  | .hole n => "?" ++ n
  | .ident n | .literal n => n

/-- A goal, its holes standing for texts of their own. -/
def Leaf.shown (g : Leaf) : Atom := ⟨g.op, g.args.map Term.shown⟩

namespace Proof

theorem goalTexts_eq_shown (g : Leaf) : goalTexts g = g.args.map Term.shown := by
  unfold goalTexts
  apply List.map_congr_left
  intro a _
  cases a with
  | hole n | ident n | literal n => rfl

/-- An assignment of the conclusion's holes makes it the goal, and the bindings list the holes in
the order in which they are first seen, with their values. -/
def Matches (goal conclusion : Leaf) (b : Bindings) : Prop :=
  ∃ σ : String → String, conclusion.under σ = goal.shown ∧
    b.entries = (Formula.leaf conclusion).holes.map fun n => (n, σ n)

/-! ### Lists of values -/

/-- Names in the order in which they are first seen. -/
def seeing (seen : List String) (n : String) : List String :=
  if seen.contains n then seen else seen ++ [n]

theorem holes_leaf (l : Leaf) : (Formula.leaf l).holes = l.holes.foldl seeing [] := by
  unfold Formula.holes
  rw [Formula.leaves, List.flatMap_singleton]
  rfl

/-- The bindings are those of certain names, in order, to their values under an assignment. -/
def Lists (σ : String → String) (ns : List String) (b : Bindings) : Prop :=
  b.entries = ns.map fun n => (n, σ n)

variable {σ : String → String} {ns : List String} {b b' : Bindings} {goal c : Leaf}

theorem Lists.get? (h : Lists σ ns b) (n : String) :
    b.get? n = if n ∈ ns then some (σ n) else none := by
  unfold Bindings.get?
  rw [show b.entries = _ from h]
  clear h
  induction ns with
  | nil => rfl
  | cons m ns ih =>
    rw [List.map_cons, List.lookup_cons, ih]
    by_cases hnm : n = m
    · subst hnm
      simp
    · have hne : (n == m) = false := by simpa using hnm
      simp [hne, hnm]

/-- A hole is bound to its value, and is listed unless it has been before. -/
theorem Lists.bind? (h : Lists σ ns b) (n : String) :
    ∃ b', b.bind? n (σ n) = some b' ∧ Lists σ (seeing ns n) b' := by
  unfold Bindings.bind? seeing
  rw [h.get? n]
  by_cases hn : n ∈ ns
  · refine ⟨b, ?_, ?_⟩
    · simp [hn]
    · simpa [hn] using h
  · refine ⟨⟨b.entries ++ [(n, σ n)]⟩, ?_, ?_⟩
    · simp [hn]
    · unfold Lists at h ⊢
      simp [hn, h]

/-- Terms match their texts under an assignment by listing the values of their holes, by induction
on the terms. -/
theorem Lists.matchTerms? (h : Lists σ ns b) (ts : List Term) :
    ∃ b', matchTerms? ts (ts.map (Term.under σ)) b = some b' ∧
      Lists σ (((ts.filter Term.isHole).map Term.name).foldl seeing ns) b' := by
  induction ts generalizing ns b with
  | nil => exact ⟨b, rfl, h⟩
  | cons t ts ih =>
    cases t with
    | hole n =>
      obtain ⟨b₁, hb₁, h₁⟩ := h.bind? n
      obtain ⟨b', hb', h'⟩ := ih h₁
      refine ⟨b', ?_, h'⟩
      show (b.bind? n (σ n)).bind _ = some b'
      rw [hb₁]
      exact hb'
    | ident n | literal n =>
      obtain ⟨b', hb', h'⟩ := ih h
      refine ⟨b', ?_, h'⟩
      rw [List.map_cons, matchTerms?_fixed rfl]
      exact (if_pos rfl).trans hb'

/-! ### Conclusions -/

/-- **A conclusion matches by the bindings that list an assignment under which it is the goal.**  A
goal without an operator or without arguments is not matched at all. -/
theorem matchConclusion?_iff :
    matchConclusion? goal c = some b ↔ goal.op ≠ "" ∧ goal.args ≠ [] ∧ Matches goal c b := by
  constructor
  · intro h
    -- the assignment is read off the bindings, and listing it can only give these again
    obtain ⟨σ, hσ⟩ := Bindings.exists_agrees b
    have hunder := matchConclusion?_sound h hσ
    rw [goalTexts_eq_shown] at hunder
    unfold matchConclusion? at h
    split at h
    · cases h
    · rename_i hguard
      simp only [Bool.or_eq_true, not_or, List.isEmpty_iff, String.isEmpty_iff] at hguard
      refine ⟨hguard.1.1, hguard.1.2, σ, hunder, ?_⟩
      have hempty : Lists σ [] .empty := rfl
      obtain ⟨b', hb', hlist⟩ := hempty.matchTerms? c.args
      have htexts : c.args.map (Term.under σ) = goalTexts goal := by
        rw [goalTexts_eq_shown]
        exact congrArg Atom.args hunder
      rw [htexts, h] at hb'
      cases hb'
      rw [holes_leaf]
      exact hlist
  · rintro ⟨hop, hargs, σ, hunder, hentries⟩
    have hsame : c.op = goal.op := congrArg Atom.op hunder
    have htexts : c.args.map (Term.under σ) = goalTexts goal := by
      rw [goalTexts_eq_shown]
      exact congrArg Atom.args hunder
    have hempty : Lists σ [] .empty := rfl
    obtain ⟨b', hb', hlist⟩ := hempty.matchTerms? c.args
    have heq : b' = b := by
      cases b
      cases b'
      congr
      rw [holes_leaf] at hentries
      exact hlist.trans hentries.symm
    unfold matchConclusion?
    rw [if_neg (by simp [hsame, hop, hargs]), ← htexts, hb', heq]

theorem matchConclusion?_eq_none (hop : goal.op ≠ "") (hargs : goal.args ≠ []) :
    matchConclusion? goal c = none ↔ ∀ b, ¬ Matches goal c b := by
  rw [Option.eq_none_iff_forall_ne_some]
  apply forall_congr'
  intro b
  rw [ne_eq, matchConclusion?_iff]
  simp [hop, hargs]

/-! ### Provers -/

/-- What a prover is asked. -/
structure Question where
  rule : Rule
  bindings : Bindings
  depth : Nat

/-- A prover with a state of its own, which may break off. -/
abbrev Prover (ε σ : Type) := Rule → Bindings → Nat → EStateM ε σ (Option Solution)

variable {ε σ α : Type}

/-- What came out, with questions put beside the state. -/
def logged (asked : List Question) : EStateM.Result ε σ α → EStateM.Result ε (σ × List Question) α
  | .ok a s => .ok a (s, asked)
  | .error e s => .error e (s, asked)

/-- The prover, keeping each question that it is asked. -/
def recorded (prove : Prover ε σ) : Prover ε (σ × List Question) :=
  fun r b depth s => logged (s.2 ++ [⟨r, b, depth⟩]) (prove r b depth s.1)

/-- A prover is asked for some candidates in turn: what it is asked, and what comes of it.  A
candidate without a match is passed over.  For any other the prover is asked at the next depth, and
the first one that it accepts settles the goal. -/
inductive Consults (prove : Prover ε σ) (decay : Float32) (goal : Leaf) (rule : Rule)
    (depth : Nat) : List Leaf → σ → List Question → EStateM.Result ε σ (Option Unification) → Prop
  | exhausted {s : σ} : Consults prove decay goal rule depth [] s [] (.ok none s)
  | passed {c : Leaf} {cs : List Leaf} {s : σ} {asked : List Question}
      {out : EStateM.Result ε σ (Option Unification)} (unmatched : ∀ b, ¬ Matches goal c b)
      (rest : Consults prove decay goal rule depth cs s asked out) :
      Consults prove decay goal rule depth (c :: cs) s asked out
  | refused {c : Leaf} {cs : List Leaf} {b : Bindings} {s s' : σ} {asked : List Question}
      {out : EStateM.Result ε σ (Option Unification)} (found : Matches goal c b)
      (answer : prove rule b (depth + 1) s = .ok none s')
      (rest : Consults prove decay goal rule depth cs s' asked out) :
      Consults prove decay goal rule depth (c :: cs) s (⟨rule, b, depth + 1⟩ :: asked) out
  | accepted {c : Leaf} {cs : List Leaf} {b : Bindings} {s s' : σ} {solution : Solution}
      (found : Matches goal c b)
      (answer : prove rule b (depth + 1) s = .ok (some solution) s') :
      Consults prove decay goal rule depth (c :: cs) s [⟨rule, b, depth + 1⟩]
        (.ok (some (conclude decay goal rule b solution)) s')
  | brokenOff {c : Leaf} {cs : List Leaf} {b : Bindings} {s s' : σ} {e : ε}
      (found : Matches goal c b) (answer : prove rule b (depth + 1) s = .error e s') :
      Consults prove decay goal rule depth (c :: cs) s [⟨rule, b, depth + 1⟩] (.error e s')

/-! ### One attempt -/

/-- A match is put to a prover. -/
def attemptMatch (prove : Prover ε σ) (decay : Float32) (goal : Leaf) (rule : Rule) (depth : Nat)
    (b : Bindings) : EStateM ε σ (Option Unification) := do
  return (← prove rule b (depth + 1)).map (conclude decay goal rule b)

section

variable {prove : Prover ε σ} {decay : Float32} {rule : Rule} {depth : Nat} {s s' : σ}
  {answer : Option Solution} {e : ε} {bs : List Bindings}

theorem attemptMatch_of_ok (h : prove rule b (depth + 1) s = .ok answer s') :
    attemptMatch prove decay goal rule depth b s =
      .ok (answer.map (conclude decay goal rule b)) s' := by
  show EStateM.bind _ _ s = _
  unfold EStateM.bind
  rw [h]
  rfl

theorem attemptMatch_of_error (h : prove rule b (depth + 1) s = .error e s') :
    attemptMatch prove decay goal rule depth b s = .error e s' := by
  show EStateM.bind _ _ s = _
  unfold EStateM.bind
  rw [h]

theorem findSomeM?_of_refused (h : prove rule b (depth + 1) s = .ok none s') :
    (b :: bs).findSomeM? (attemptMatch prove decay goal rule depth) s =
      bs.findSomeM? (attemptMatch prove decay goal rule depth) s' := by
  show EStateM.bind _ _ s = _
  unfold EStateM.bind
  rw [attemptMatch_of_ok h]
  rfl

theorem findSomeM?_of_accepted {solution : Solution}
    (h : prove rule b (depth + 1) s = .ok (some solution) s') :
    (b :: bs).findSomeM? (attemptMatch prove decay goal rule depth) s =
      .ok (some (conclude decay goal rule b solution)) s' := by
  show EStateM.bind _ _ s = _
  unfold EStateM.bind
  rw [attemptMatch_of_ok h]
  rfl

theorem findSomeM?_of_brokenOff (h : prove rule b (depth + 1) s = .error e s') :
    (b :: bs).findSomeM? (attemptMatch prove decay goal rule depth) s = .error e s' := by
  show EStateM.bind _ _ s = _
  unfold EStateM.bind
  rw [attemptMatch_of_error h]

theorem recorded_of_ok {asked : List Question} (h : prove rule b depth s = .ok answer s') :
    recorded prove rule b depth (s, asked) = .ok answer (s', asked ++ [⟨rule, b, depth⟩]) := by
  unfold recorded
  rw [h]
  rfl

theorem recorded_of_error {asked : List Question} (h : prove rule b depth s = .error e s') :
    recorded prove rule b depth (s, asked) = .error e (s', asked ++ [⟨rule, b, depth⟩]) := by
  unfold recorded
  rw [h]
  rfl

/-! ### Runs -/

variable {cs : List Leaf} {asked : List Question} {out : EStateM.Result ε σ (Option Unification)}

/-- Such a run is what the search through the matches makes, with the questions and without, by
induction on the run. -/
theorem Consults.eq_findSomeM? (h : Consults prove decay goal rule depth cs s asked out)
    (hop : goal.op ≠ "") (hargs : goal.args ≠ []) (before : List Question) :
    (cs.filterMap (matchConclusion? goal)).findSomeM?
        (attemptMatch (recorded prove) decay goal rule depth) (s, before) =
      logged (before ++ asked) out ∧
    (cs.filterMap (matchConclusion? goal)).findSomeM?
        (attemptMatch prove decay goal rule depth) s = out := by
  induction h generalizing before with
  | exhausted => exact ⟨by simp [logged]; rfl, rfl⟩
  | passed unmatched _ ih =>
    rw [List.filterMap_cons_none ((matchConclusion?_eq_none hop hargs).mpr unmatched)]
    exact ih before
  | refused found answer _ ih =>
    rw [List.filterMap_cons_some (matchConclusion?_iff.mpr ⟨hop, hargs, found⟩),
      findSomeM?_of_refused (recorded_of_ok answer), findSomeM?_of_refused answer]
    obtain ⟨hlogged, hplain⟩ := ih (before ++ [⟨rule, _, depth + 1⟩])
    refine ⟨?_, hplain⟩
    simpa using hlogged
  | accepted found answer =>
    rw [List.filterMap_cons_some (matchConclusion?_iff.mpr ⟨hop, hargs, found⟩),
      findSomeM?_of_accepted (recorded_of_ok answer), findSomeM?_of_accepted answer]
    exact ⟨rfl, rfl⟩
  | brokenOff found answer =>
    rw [List.filterMap_cons_some (matchConclusion?_iff.mpr ⟨hop, hargs, found⟩),
      findSomeM?_of_brokenOff (recorded_of_error answer), findSomeM?_of_brokenOff answer]
    exact ⟨rfl, rfl⟩

/-- Whatever a prover answers, some run puts the candidates to it. -/
theorem exists_consults (prove : Prover ε σ) (decay : Float32) (goal : Leaf) (rule : Rule)
    (depth : Nat) (cs : List Leaf) (s : σ) :
    ∃ asked out, Consults prove decay goal rule depth cs s asked out := by
  induction cs generalizing s with
  | nil => exact ⟨[], _, .exhausted⟩
  | cons c cs ih =>
    by_cases hfound : ∃ b, Matches goal c b
    · obtain ⟨b, hb⟩ := hfound
      cases hanswer : prove rule b (depth + 1) s with
      | error e s' => exact ⟨_, _, .brokenOff hb hanswer⟩
      | ok answer s' =>
        cases answer with
        | some solution => exact ⟨_, _, .accepted hb hanswer⟩
        | none =>
          obtain ⟨asked, out, hrest⟩ := ih s'
          exact ⟨_, _, .refused hb hanswer hrest⟩
    · obtain ⟨asked, out, hrest⟩ := ih s
      exact ⟨_, _, .passed (fun b hb => hfound ⟨b, hb⟩) hrest⟩

theorem logged_inj {asked asked' : List Question} {out out' : EStateM.Result ε σ α}
    (h : logged asked out = logged asked' out') : asked = asked' ∧ out = out' := by
  cases out <;> cases out' <;> cases h <;> exact ⟨rfl, rfl⟩

end

/-! ### Rules -/

namespace Pruning

/-- No rule is skipped, whatever the levels are. -/
def IsOff (p : Pruning) : Prop := (p.strict && p.useLevels) = false

theorem IsOff.skips {p : Pruning} (h : p.IsOff) (goal : Leaf) (rule : Rule) (b : Bindings) :
    p.skips goal rule b = false := by
  unfold Pruning.skips
  rw [show (p.strict && p.useLevels) = false from h, Bool.false_and]

end Pruning

/-- Without pruning a goal is searched for through the matches of all candidates. -/
theorem unifyAt?_eq {p : Pruning} (hp : p.IsOff) (prove : Prover ε σ) (decay : Float32)
    (goal : Leaf) (rule : Rule) (depth : Nat) :
    unifyAt? prove decay p goal rule depth =
      (rule.candidates.filterMap (matchConclusion? goal)).findSomeM?
        (attemptMatch prove decay goal rule depth) := by
  have hoffers : offers p goal rule = rule.candidates.filterMap (matchConclusion? goal) := by
    unfold offers
    apply List.filter_eq_self.mpr
    intro b _
    simp [hp.skips]
  unfold unifyAt? unify?
  rw [hoffers]
  rfl

/-- The candidates that a goal is held against: none, if it lacks an operator or arguments. -/
def contenders (goal : Leaf) (rule : Rule) : List Leaf :=
  if goal.op = "" ∨ goal.args = [] then [] else rule.candidates

/-- **Matching is exact.**  Whatever state a prover is in, a goal that has an operator and arguments
is tried by a rule by the one run in which the prover is asked, one level deeper, for the candidates
that an assignment of their holes makes the goal, with that assignment, in order up to the first
one that it accepts.  For any other goal it is asked nothing. -/
theorem unifyAt?_consults {p : Pruning} (hp : p.IsOff) (prove : Prover ε σ) (decay : Float32)
    (goal : Leaf) (rule : Rule) (depth : Nat) (s : σ) (asked : List Question)
    (out : EStateM.Result ε σ (Option Unification)) :
    (unifyAt? (recorded prove) decay p goal rule depth (s, []) = logged asked out ∧
        unifyAt? prove decay p goal rule depth s = out) ↔
      Consults prove decay goal rule depth (contenders goal rule) s asked out := by
  have hrun : ∀ asked out, Consults prove decay goal rule depth (contenders goal rule) s asked out →
      unifyAt? (recorded prove) decay p goal rule depth (s, []) = logged asked out ∧
        unifyAt? prove decay p goal rule depth s = out := by
    intro asked out h
    rw [unifyAt?_eq hp, unifyAt?_eq hp]
    by_cases hguard : goal.op = "" ∨ goal.args = []
    · have hnone : rule.candidates.filterMap (matchConclusion? goal) = [] := by
        apply List.filterMap_eq_nil_iff.mpr
        intro c _
        unfold matchConclusion?
        rcases hguard with hop | hargs
        · simp [hop]
        · simp [hargs]
      rw [contenders, if_pos hguard] at h
      cases h
      rw [hnone]
      exact ⟨rfl, rfl⟩
    · rw [contenders, if_neg hguard] at h
      rw [not_or] at hguard
      exact h.eq_findSomeM? hguard.1 hguard.2 []
  constructor
  · rintro ⟨hlogged, hplain⟩
    obtain ⟨asked', out', h⟩ :=
      exists_consults prove decay goal rule depth (contenders goal rule) s
    obtain ⟨hlogged', -⟩ := hrun asked' out' h
    obtain ⟨rfl, rfl⟩ := logged_inj (hlogged.symm.trans hlogged')
    exact h
  · exact hrun asked out

/-- A goal with a hole and a name that stands twice. -/
def sharedTaste : Leaf := ⟨"shares", [.ident "Bob", .hole "d", .literal "Bob"]⟩

/-- A rule with four conclusions: a constant is not the goal's, a hole that stands twice has one
value, the holes differ, and one that is not come to. -/
def tastes : Rule where
  name := "tastes"
  conclusions := [
    ⟨"shares", [.hole "x", .hole "y", .ident "Ann"]⟩,
    ⟨"shares", [.hole "x", .hole "y", .hole "x"]⟩,
    ⟨"shares", [.hole "a", .hole "b", .hole "c"]⟩,
    ⟨"shares", [.hole "u", .ident "?d", .hole "u"]⟩]

/-- A prover that refuses the first thing it is asked and accepts everything else. -/
def reluctant : Prover Empty Nat := fun _ b _ n =>
  .ok (if n = 0 then none else some ⟨b, 1.0, []⟩) (n + 1)

theorem unifyAt?_consults_reluctant :
    Pruning.IsOff {} ∧ contenders sharedTaste tastes = tastes.candidates ∧
      Consults reluctant 0.5 sharedTaste tastes 3 (contenders sharedTaste tastes) 0
        [⟨tastes, ⟨[("x", "Bob"), ("y", "?d")]⟩, 4⟩,
          ⟨tastes, ⟨[("a", "Bob"), ("b", "?d"), ("c", "Bob")]⟩, 4⟩]
        (.ok (some (conclude 0.5 sharedTaste tastes ⟨[("a", "Bob"), ("b", "?d"), ("c", "Bob")]⟩
          ⟨⟨[("a", "Bob"), ("b", "?d"), ("c", "Bob")]⟩, 1.0, []⟩)) 2) := by
  have hoff : Pruning.IsOff {} := rfl
  exact ⟨hoff, rfl, (unifyAt?_consults hoff reluctant 0.5 sharedTaste tastes 3 0 _ _).mp ⟨rfl, rfl⟩⟩

/-- A goal without arguments, and a rule with this very conclusion. -/
def raining : Leaf := ⟨"raining", []⟩

def storm : Rule where
  name := "storm"
  condition := some (.leaf ⟨"clouds", [.hole "x"]⟩)
  conclusion := some (.leaf raining)
  premises := [⟨"clouds", [.hole "x"]⟩]
  conclusions := [raining]
  conditionHoles := ["x"]

/-- A prover that accepts everything. -/
def willing : Prover Empty Unit := fun _ b _ s => .ok (some ⟨b, 1.0, []⟩) s

/-- **A goal without arguments is not offered to a prover**, though it is what a rule concludes. -/
theorem unasked_without_arguments :
    ¬ ∀ asked out,
      unifyAt? (recorded willing) 0.5 {} raining storm 0 ((), []) = logged asked out →
        Consults willing 0.5 raining storm 0 storm.candidates () asked out := by
  intro h
  have hrun : Consults willing 0.5 raining storm 0 [raining] () [] (.ok none ()) := h _ _ rfl
  have hmatch : Matches raining raining ⟨[]⟩ := ⟨id, rfl, rfl⟩
  cases hrun with
  | passed unmatched _ => exact unmatched _ hmatch

end Proof

end KnowledgeBase
