import KnowledgeBase.Proofs.Bindings
import KnowledgeBase.Proofs.Level.Estimate

/-!
# Estimates of premises

The premises of a rule are estimated by the written words of their instances.  A hole without a
value counts for nothing and a value that is bound later only adds words, however many it is cut
into, so the estimate grows with the bindings.  Only the last level is in the way, since the numbers
start again from below after it.

* `namesIn_instanceText_subset`: an instance loses no word when more is bound;
* `premiseLevel_mono`: the estimate grows, by induction on the condition;
* `premises_grow_iff`: it does so for all rules exactly as long as no name is at the last level.
-/

namespace KnowledgeBase

/-- The names of the holes have no blanks. -/
def Formula.UnblankHoles (f : Formula) : Prop :=
  ∀ g ∈ f.leaves, ∀ n, .hole n ∈ g.args → Text.Unblank n

/-- The names of the holes in the condition have no blanks. -/
def Rule.UnblankHoles (r : Rule) : Prop := ∀ f, r.condition = some f → f.UnblankHoles

namespace Levels

variable {l : Levels} {b b' : Bindings}

/-! ### Instances -/

theorem namesIn_instanceText (g : Leaf) (b : Bindings) (hop : g.op ≠ "") :
    namesIn (g.instanceText b) =
      namesIn g.op ++ g.args.flatMap fun a => namesIn (Leaf.instanceOf b a) := by
  unfold namesIn
  rw [Text.words_instanceText g b hop, List.filter_append, List.filter_flatMap]

/-- An argument loses no name when more is bound. -/
theorem namesIn_instanceOf_subset (h : b.Extends b') {a : Term}
    (ha : ∀ n, a = .hole n → Text.Unblank n) :
    namesIn (Leaf.instanceOf b a) ⊆ namesIn (Leaf.instanceOf b' a) := by
  cases a with
  | ident n | literal n => exact List.Subset.refl _
  | hole n =>
    show namesIn ((b.get? n).getD ("?" ++ n)) ⊆ namesIn ((b'.get? n).getD ("?" ++ n))
    cases hv : b.get? n with
    | none =>
      rw [Option.getD_none, namesIn_variable (ha n rfl)]
      exact List.nil_subset _
    | some v =>
      rw [h n v hv]
      exact List.Subset.refl _

theorem namesIn_instanceText_subset (h : b.Extends b') (g : Leaf)
    (hg : ∀ n, .hole n ∈ g.args → Text.Unblank n) :
    namesIn (g.instanceText b) ⊆ namesIn (g.instanceText b') := by
  by_cases hop : g.op = ""
  · have hempty : ∀ b, g.instanceText b = "" := by
      intro b
      unfold Leaf.instanceText
      simp [hop]
    rw [hempty, hempty]
    exact List.Subset.refl _
  · rw [namesIn_instanceText g b hop, namesIn_instanceText g b' hop]
    intro w hw
    rcases List.mem_append.mp hw with hw | hw
    · exact List.mem_append_left _ hw
    · obtain ⟨a, ha, hw⟩ := List.mem_flatMap.mp hw
      apply List.mem_append_right
      refine List.mem_flatMap.mpr ⟨a, ha, namesIn_instanceOf_subset h ?_ hw⟩
      rintro n rfl
      exact hg n ha

/-! ### Premises -/

/-- More names make for a higher level, none of them being at the last one. -/
theorem goalLevel_mono (hl : l.InRange) {s t : String} (hsub : namesIn s ⊆ namesIn t)
    (hlast : ∀ w ∈ namesIn t, l.conceptLevel w ≠ 2147483647) : l.goalLevel s ≤ l.goalLevel t := by
  have hle : l.highestOf (namesIn s) ≤ l.highestOf (namesIn t) := highestOf_mono hsub
  have hlow : 0 ≤ l.highestOf (namesIn s) := highestOf_nonneg
  have hhigh : l.highestOf (namesIn t) ≤ 2147483646 := by
    apply highestOf_le_iff.mpr
    refine ⟨by omega, ?_⟩
    intro w hw
    have hbelow := hlast w hw
    have hrange := (hl w).2
    omega
  have hs : above (l.highestOf (namesIn s)) = l.highestOf (namesIn s) + 1 :=
    above_eq (by omega) (by omega)
  have ht : above (l.highestOf (namesIn t)) = l.highestOf (namesIn t) + 1 :=
    above_eq (by omega) (by omega)
  rw [goalLevel_eq, goalLevel_eq, hs, ht]
  by_cases hnil : namesIn t = []
  · have hnil' : namesIn s = [] := List.subset_nil.mp (hnil ▸ hsub)
    simp [hnil, hnil']
  · rw [if_neg hnil]
    split <;> omega

mutual

/-- The estimate of a condition grows with the bindings, by induction on the condition. -/
theorem premiseLevel_mono (hl : l.InRange)
    (hlast : ∀ w, namesIn w = [w] → l.conceptLevel w ≠ 2147483647) (h : b.Extends b') :
    (f : Formula) → f.UnblankHoles → l.premiseLevel b f ≤ l.premiseLevel b' f
  | .leaf g, hf => by
    unfold premiseLevel
    apply goalLevel_mono hl
    · apply namesIn_instanceText_subset h
      exact hf g (List.mem_singleton_self g)
    · intro w hw
      exact hlast w (namesIn_of_mem hw)
  | .negate f, hf => by
    unfold premiseLevel
    exact premiseLevel_mono hl hlast h f hf
  | .all fs, hf | .any fs, hf => by
    unfold premiseLevel
    exact premiseLevelOf_mono hl hlast h fs hf
  | .implies _ _, _ | .reference _, _ => by
    unfold premiseLevel
    exact Int.le_refl 0

theorem premiseLevelOf_mono (hl : l.InRange)
    (hlast : ∀ w, namesIn w = [w] → l.conceptLevel w ≠ 2147483647) (h : b.Extends b') :
    (fs : List Formula) → (∀ g ∈ Formula.leavesOf fs, ∀ n, .hole n ∈ g.args → Text.Unblank n) →
      l.premiseLevelOf b fs ≤ l.premiseLevelOf b' fs
  | [], _ => Int.le_refl 0
  | f :: fs, hfs => by
    have hf : l.premiseLevel b f ≤ l.premiseLevel b' f := by
      apply premiseLevel_mono hl hlast h f
      intro g hg
      exact hfs g (List.mem_append_left _ hg)
    have hrest : l.premiseLevelOf b fs ≤ l.premiseLevelOf b' fs := by
      apply premiseLevelOf_mono hl hlast h fs
      intro g hg
      exact hfs g (List.mem_append_right _ hg)
    unfold premiseLevelOf
    omega

end

/-- A rule is skipped as long as its premises are estimated as high. -/
theorem skips_of_le {p : Proof.Pruning} {r : Rule} {goal : Leaf}
    (h : p.premiseLevel r b ≤ p.premiseLevel r b') (hskips : p.skips goal r b = true) :
    p.skips goal r b' = true := by
  unfold Proof.Pruning.skips at hskips ⊢
  cases hgoal : p.goalLevel? goal with
  | none => simp [hgoal] at hskips
  | some level =>
    simp only [hgoal, Bool.and_eq_true, decide_eq_true_eq] at hskips ⊢
    exact ⟨hskips.1, by omega⟩

/-- A condition that counts nothing but what its one hole is bound to. -/
theorem premiseLevel_mark {w : String} (hw : namesIn w = [w])
    (hlast : l.conceptLevel w = 2147483647) (hl : l.InRange) :
    l.premiseLevel ⟨[]⟩ (.leaf ⟨"?", [.hole "x"]⟩) = 0 ∧
      l.premiseLevel ⟨[("x", w)]⟩ (.leaf ⟨"?", [.hole "x"]⟩) = -2147483648 := by
  have hnames : ∀ b, namesIn ((⟨"?", [.hole "x"]⟩ : Leaf).instanceText b) =
      namesIn (Leaf.instanceOf b (.hole "x")) := by
    intro b
    rw [namesIn_instanceText _ b (by decide), show namesIn "?" = [] from rfl]
    simp
  have hfree : namesIn (Leaf.instanceOf ⟨[]⟩ (.hole "x")) = [] := rfl
  have hbound : namesIn (Leaf.instanceOf ⟨[("x", w)]⟩ (.hole "x")) = [w] := hw
  have hhigh : l.highestOf [w] = 2147483647 := by
    have hle : l.conceptLevel w ≤ l.highestOf [w] := le_highestOf (List.mem_singleton_self w)
    have hrange : l.highestOf [w] ≤ 2147483647 := hl.highestOf_le
    omega
  unfold premiseLevel
  rw [goalLevel_eq, goalLevel_eq, hnames, hnames, hfree, hbound, hhigh]
  exact ⟨rfl, rfl⟩

/-- **Estimates grow with the bindings exactly as long as no name is at the last level.**  After
every history of levels without such a name, and after no other, what is bound besides never lowers
the estimate of a rule's premises, so that a rule which is skipped stays skipped. -/
theorem premises_grow_iff (cs : List Change) :
    (∀ (p : Proof.Pruning) (r : Rule) (b b' : Bindings), p.levels = some (ofChanges cs) →
        r.UnblankHoles → b.Extends b' → p.premiseLevel r b ≤ p.premiseLevel r b' ∧
          ∀ goal, p.skips goal r b = true → p.skips goal r b' = true) ↔
      ∀ w, namesIn w = [w] → (ofChanges cs).conceptLevel w ≠ 2147483647 := by
  have hl := inRange_ofChanges cs
  constructor
  · intro h w hw hlast
    obtain ⟨hfree, hbound⟩ := premiseLevel_mark hw hlast hl
    have hholes : Rule.UnblankHoles { condition := some (.leaf ⟨"?", [.hole "x"]⟩) } := by
      intro f hf g hg n hn
      cases hf
      rw [List.mem_singleton.mp hg, List.mem_singleton] at hn
      cases hn
      decide
    have hextends : Bindings.Extends ⟨[]⟩ ⟨[("x", w)]⟩ := by
      intro n v hv
      cases hv
    have hgrow : (ofChanges cs).premiseLevel ⟨[]⟩ (.leaf ⟨"?", [.hole "x"]⟩) ≤
        (ofChanges cs).premiseLevel ⟨[("x", w)]⟩ (.leaf ⟨"?", [.hole "x"]⟩) :=
      (h { levels := some (ofChanges cs) } _ _ _ rfl hholes hextends).1
    omega
  · intro hlast p r b b' hp hholes hextends
    have hgrow : p.premiseLevel r b ≤ p.premiseLevel r b' := by
      unfold Proof.Pruning.premiseLevel
      rw [hp]
      cases hcondition : r.condition with
      | none => exact Int.le_refl 0
      | some f => exact premiseLevel_mono hl hlast hextends f (hholes f hcondition)
    exact ⟨hgrow, fun goal => skips_of_le hgrow⟩

/-- A concept at the last level. -/
def topLevels : List Change := [.register "top" 2147483647]

/-- What is a dog is a pet. -/
def petRule : Rule where
  name := "pets"
  condition := some (.leaf ⟨"isA", [.hole "x", .ident "Dog"]⟩)
  conclusion := some (.leaf ⟨"pet", [.hole "x"]⟩)
  premises := [⟨"isA", [.hole "x", .ident "Dog"]⟩]
  conclusions := [⟨"pet", [.hole "x"]⟩]
  conditionHoles := ["x"]
  conclusionHoles := ["x"]

/-- **The estimate falls** from the second level to the lowest there is when a hole is bound to a
concept at the last one. -/
theorem estimate_falls_at_last :
    petRule.UnblankHoles ∧ Bindings.Extends ⟨[]⟩ ⟨[("x", "top")]⟩ ∧
      ({ levels := some (ofChanges topLevels) } : Proof.Pruning).premiseLevel petRule ⟨[]⟩ = 1 ∧
      ({ levels := some (ofChanges topLevels) } : Proof.Pruning).premiseLevel petRule
        ⟨[("x", "top")]⟩ = -2147483648 := by
  refine ⟨?_, ?_, by decide +kernel, by decide +kernel⟩
  · intro f hf g hg n hn
    cases hf
    rw [List.mem_singleton.mp hg] at hn
    simp at hn
    rw [hn]
    decide
  · intro n v hv
    cases hv

end Levels

end KnowledgeBase
