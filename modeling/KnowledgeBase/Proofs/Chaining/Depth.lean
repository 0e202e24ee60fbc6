import KnowledgeBase.Proofs.Chaining.Coverage
import KnowledgeBase.Proofs.Chaining.Derivation
import KnowledgeBase.Proofs.Chaining.Ending

/-!
# More levels prove no less

A goal that is proved with some levels left is proved with more, as long as no negation on the way
held only because the search for its inside was cut short.

* `Theory.Firm`: a negation that was decided in full;
* `findsAgain_negate`: such a negation holds again with more levels left;
* `provable_deeper`: every proved goal is proved again;
* `proves_deeper`: the same of the depth that is configured, and `lost_at_depth_three`, where a
  negation is decided by a search that was cut short.
-/

namespace KnowledgeBase.Proof

namespace Theory

open Search

variable (t : Theory)

/-- A negation holds because its inside has no solution, not because the search for one was cut
short. -/
def Firm : Task → Prop
  | .condition room pending (.negate f) s =>
    (t.solve (t.proveLeaf room pending) f s).value = .ok [] →
      (t.solve (t.proveLeaf room pending) f s).limited = false
  | _ => True

variable {t} {prove : Leaf → Search (Option Certificate)}

/-! ### More levels left -/

section

variable {room room' : Nat}

theorem findsAgain_negate (hle : room ≤ room') (pending : List String) (f : Formula) :
    FindsAgain t t t.Firm room room' pending (.negate f) := by
  intro s s' h hfirm hcap sols sols' hs hs'
  have hlim := hfirm.here
  unfold solve at hs hs'
  split at hs
  · rename_i hclosed
    rw [if_pos hclosed] at hs'
    obtain ⟨inner, hinner, hs⟩ := bind_eq_ok.mp hs
    obtain ⟨inner', hinner', hs'⟩ := bind_eq_ok.mp hs'
    cases inner with
    | cons _ _ =>
      cases hs
      exact covers_nil _
    | nil =>
      -- the inside was searched in full, so it has no solution with more levels either
      obtain ⟨-, halike⟩ :=
        settles_solve likeness_bindings (fun g => settles_proveLeaf likeness_bindings hle pending g)
          f h (hlim hinner)
      rw [hinner, hinner'] at halike
      cases halike with
      | ok hnil =>
        cases hnil
        cases hs
        cases hs'
        exact covers_of_forall₂ (.cons h .nil)
  · cases hs
    exact covers_nil _

/-- **A goal that is proved with some levels left is proved with more, if every negation on the way
was firm and no alternatives are dropped.** -/
theorem provable_deeper (hle : room ≤ room') (pending : List String) :
    ProvesAgain t t t.Firm room room' pending :=
  provesAgain (.refl t) (fun _ _ pending f hle => findsAgain_negate hle pending f) hle pending

end

/-! ### The configured depth -/

/-- The same theory with another depth. -/
def atDepth (t : Theory) (d : UInt64) : Theory :=
  { t with config := { t.config with maxProofDepth := d } }

section

variable {d : UInt64}

theorem solveLeaf_atDepth (l : Leaf) (s : Solution) :
    (t.atDepth d).solveLeaf prove l s = t.solveLeaf prove l s := rfl

mutual

theorem solve_atDepth : (f : Formula) → (s : Solution) →
    (t.atDepth d).solve prove f s = t.solve prove f s
  | .leaf l, s => by
    unfold solve
    exact solveLeaf_atDepth l s
  | .all ps, s => by
    unfold solve
    exact solveAll_atDepth ps [s]
  | .any ps, s => by
    unfold solve
    exact solveAny_atDepth ps s []
  | .negate f, s => by
    unfold solve
    rw [solve_atDepth f s]
    rfl
  | .implies _ _, s | .reference _, s => by
    unfold solve
    rfl

theorem solveAll_atDepth : (fs : List Formula) → (ps : List Solution) →
    (t.atDepth d).solveAll prove fs ps = t.solveAll prove fs ps
  | [], ps => by
    unfold solveAll
    rfl
  | f :: fs, ps => by
    unfold solveAll
    rw [funext (solve_atDepth f)]
    simp only [solveAll_atDepth fs]

theorem solveAny_atDepth : (fs : List Formula) → (s : Solution) → (found : List Solution) →
    (t.atDepth d).solveAny prove fs s found = t.solveAny prove fs s found
  | [], s, found => by
    unfold solveAny
    rfl
  | f :: fs, s, found => by
    unfold solveAny
    simp only [solve_atDepth f, solveAny_atDepth fs]

end

theorem solveCondition_atDepth (room : Nat) (r : Rule) (b : Bindings) :
    (t.atDepth d).solveCondition prove room r b = t.solveCondition prove room r b := by
  unfold solveCondition
  simp only [solve_atDepth]

/-- The depth that is configured is not looked at while a goal is proved. -/
theorem proveLeaf_atDepth (room : Nat) (pending : List String) (goal : Leaf) :
    (t.atDepth d).proveLeaf room pending goal = t.proveLeaf room pending goal := by
  induction room generalizing pending goal with
  | zero => rfl
  | succ room ih =>
    unfold proveLeaf
    rw [funext fun g => ih (goal.text :: pending) g]
    have hcond : (t.atDepth d).solveCondition (t.proveLeaf room (goal.text :: pending)) room =
        t.solveCondition (t.proveLeaf room (goal.text :: pending)) room := by
      funext r b
      exact solveCondition_atDepth room r b
    rw [hcond]
    rfl

theorem attempt_atDepth (g : Leaf) :
    (t.atDepth d).attempt (.leaf g) = t.proveLeaf d.toNat [] g := by
  unfold attempt
  exact proveLeaf_atDepth _ _ _

end

/-- A goal that is proved at one depth is proved at another one, if the search there ends and proves
goals again. -/
theorem proves_of_provesAgain {P : Task → Prop} (hs : t.store.Answers) {goal : Formula}
    {d d' : UInt64} (hagain : ProvesAgain t t P d.toNat d'.toNat [])
    (hP : ∀ g, goal = .leaf g → t.Throughout P (.goal d.toNat [] g))
    (hcap : ∀ g, goal = .leaf g → t.Throughout t.Uncapped (.goal d'.toNat [] g))
    (h : (t.atDepth d).proves goal = true) : (t.atDepth d').proves goal = true := by
  obtain ⟨g, rfl⟩ := exists_leaf_of_proves h
  obtain ⟨c, hc⟩ := proves_iff.mp h
  rw [attempt_atDepth] at hc
  obtain ⟨r, hr⟩ := ends_proveLeaf hs d'.toNat [] g
  have hsome := hagain g c r (hP g rfl) (hcap g rfl) hc hr
  obtain ⟨c', rfl⟩ := Option.isSome_iff_exists.mp hsome
  exact proves_iff.mpr ⟨c', by rw [attempt_atDepth]; exact hr⟩

/-- **A goal that is proved at one depth is proved at every greater one, if no negation that was met
held only because its search was cut short, and no alternatives are dropped.** -/
theorem proves_deeper (hs : t.store.Answers) {goal : Formula} {d d' : UInt64} (hle : d ≤ d')
    (hfirm : ∀ g, goal = .leaf g → t.Throughout t.Firm (.goal d.toNat [] g))
    (hcap : ∀ g, goal = .leaf g → t.Throughout t.Uncapped (.goal d'.toNat [] g))
    (h : (t.atDepth d).proves goal = true) : (t.atDepth d').proves goal = true :=
  proves_of_provesAgain hs (provable_deeper (UInt64.le_iff_toNat_le.mp hle) []) hfirm hcap h

/-! ### Rules with negated conditions -/

/-- What a negation negates. -/
def negated? : Formula → Option Formula
  | .negate f => some f
  | _ => none

/-- A goal whose rules all have a negated condition hands on these conditions and nothing else. -/
theorem throughout_of_negated {P : Task → Prop} {room : Nat} {pending : List String} {g : Leaf}
    (hgoal : P (.goal (room + 1) pending g))
    (h : ∀ e ∈ t.attempts g, ∃ f, e.1.condition.bind negated? = some f ∧
      P (.condition room (g.text :: pending) (.negate f) ⟨e.2, 1.0, []⟩)) :
    t.Throughout P (.goal (room + 1) pending g) := by
  refine throughout_goal hgoal fun e he c hcond => ?_
  obtain ⟨f, hf, hP⟩ := h e he
  rw [hcond, Option.bind_some] at hf
  cases c with
  | negate f' =>
    cases hf
    exact throughout_iff.mpr ⟨hP, nofun⟩
  | leaf _ | all _ | any _ | implies _ _ | reference _ => cases hf

/-- A negation gives one solution at most. -/
theorem uncapped_negate (room : Nat) (pending : List String) (f : Formula) (s : Solution) :
    t.Uncapped (.condition room pending (.negate f) s) := by
  intro sols h
  unfold solve at h
  split at h
  · obtain ⟨inner, -, h⟩ := bind_eq_ok.mp h
    split at h
    · cases h
      exact lt_maxSolutions (Nat.le_refl _)
    · cases h
      exact lt_maxSolutions (Nat.zero_le _)
  · cases h
    exact lt_maxSolutions (Nat.zero_le _)

/-- `p` holds unless `q` does, and `q` follows from `s`. -/
def unlessRules : RuleBook :=
  ((RuleBook.extract {} [
    ⟨"r1", some (.implies (.negate (.leaf ⟨"q", [.hole "x", .hole "y"]⟩))
      (.leaf ⟨"p", [.hole "x", .hole "y"]⟩))⟩,
    ⟨"r2", some (.implies (.leaf ⟨"s", [.hole "x", .hole "y"]⟩)
      (.leaf ⟨"q", [.hole "x", .hole "y"]⟩))⟩]).toOption.getD ({}, [])).1

/-- The rules in the closed world of a store. -/
def unlessOver (s : Store) : Theory :=
  { store := s, rules := unlessRules.rules, config := { closedWorld := true } }

def goalP : Leaf := ⟨"p", [.ident "a", .ident "b"]⟩

theorem uncapped_goalP (s : Store) (room : Nat) :
    (unlessOver s).Throughout (unlessOver s).Uncapped (.goal (room + 1) [] goalP) := by
  refine throughout_of_negated trivial fun e he => ?_
  have hneg : (((unlessOver s).attempts goalP).all fun e =>
      (e.1.condition.bind negated?).isSome) = true := by
    show (((unlessOver {dimensions := 2}).attempts goalP).all fun e =>
      (e.1.condition.bind negated?).isSome) = true
    decide +kernel
  obtain ⟨f, hf⟩ := Option.isSome_iff_exists.mp (List.all_eq_true.mp hneg e he)
  exact ⟨f, hf, uncapped_negate _ _ _ _⟩

/-- Nothing says `s`, so the search for `q` ends before the depth limit. -/
theorem proves_deeper_without_facts :
    ((unlessOver { dimensions := 2 }).atDepth 3).proves (.leaf goalP) = true ∧
      ((unlessOver { dimensions := 2 }).atDepth 7).proves (.leaf goalP) = true := by
  have hs : ({ dimensions := 2 } : Store).Answers :=
    (Store.coherent_of_empty rfl).answers
  have hproves : ((unlessOver { dimensions := 2 }).atDepth 3).proves (.leaf goalP) = true := by
    decide +kernel
  have hneg : ((unlessOver { dimensions := 2 }).attempts goalP).all (fun e =>
      (e.1.condition.bind negated?).any fun f => !((unlessOver { dimensions := 2 }).solve
        ((unlessOver { dimensions := 2 }).proveLeaf 2 [goalP.text]) f ⟨e.2, 1.0, []⟩).limited) =
      true := by decide +kernel
  refine ⟨hproves, proves_deeper hs (by decide) ?_ ?_ hproves⟩
  · rintro g hg
    cases hg
    show (unlessOver _).Throughout _ (.goal (2 + 1) [] goalP)
    refine throughout_of_negated trivial fun e he => ?_
    obtain ⟨f, hf, hlim⟩ := (Option.any_eq_true _ _).mp (List.all_eq_true.mp hneg e he)
    exact ⟨f, hf, fun _ => by simpa using hlim⟩
  · rintro g hg
    cases hg
    exact uncapped_goalP _ 6

/-- A store that says `s`, from which `q` follows. -/
def saidS : Store :=
  ({ dimensions := 2 } : Store).after (.add ⟨"a", "s", "b"⟩ Existence.certain (.record []) 5)

theorem reached_saidS : Store.Reached Store.Unwrapped saidS := by
  unfold saidS
  exact .step _ (.make (n := 2) rfl) (by decide +kernel)

/-- **At depth two a negation holds only because its search is cut short**: one level more, and the
goal is lost.  The rules are not recursive, and no alternatives are dropped. -/
theorem lost_at_depth_three :
    unlessRules.Reached ∧ Store.Reached Store.Unwrapped saidS ∧
      (∀ r ∈ unlessRules.rules, ∀ l ∈ r.premises, ∀ c ∈ r.conclusions, l.op ≠ "p" ∧ c.op ≠ "s" ∧
        (c.op = "q" → l.op = "s")) ∧
      (unlessOver saidS).Throughout (unlessOver saidS).Uncapped (.goal 3 [] goalP) ∧
      ((unlessOver saidS).atDepth 2).proves (.leaf goalP) = true ∧
      ((unlessOver saidS).atDepth 3).proves (.leaf goalP) = false := by
  refine ⟨?_, reached_saidS, ?_, uncapped_goalP saidS 2, ?_, ?_⟩
  · exact .extract (.empty none) (Outcome.eq_ok_of_isOk (by decide +kernel))
  · decide +kernel
  · decide +kernel
  · decide +kernel

end Theory

end KnowledgeBase.Proof
