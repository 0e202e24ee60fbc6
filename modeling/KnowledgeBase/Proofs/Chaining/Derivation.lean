import KnowledgeBase.Proof.Theory
import KnowledgeBase.Proofs.Bindings
import KnowledgeBase.Proofs.Outcome
import KnowledgeBase.Rule.Book
import Mathlib.Logic.Basic

/-!
# What follows from facts and rules

The least set of atoms that holds the facts and is closed under the rules, against which backward
chaining is measured.  Negations, implications and references never hold here: the world is open.

* `Formula.Holds D σ`: a condition holds in a set of atoms under an assignment of its holes;
* `Closed`, `Derivable`, `closed_derivable`: the closed sets, and the least one;
* `matchTerms?_sound`: what a match says about the terms.
-/

namespace KnowledgeBase

/-- An operator applied to texts. -/
structure Atom where
  op : String
  args : List String
  deriving Repr, DecidableEq

/-- What a stored fact states. -/
def Fact.atom (f : Fact) : Atom := ⟨f.relation, [f.subject, f.object]⟩

/-- The text of a term under an assignment of the holes. -/
def Term.under (σ : String → String) : Term → String
  | .hole n => σ n
  | t => t.name

/-- The atom of a leaf under an assignment of its holes. -/
def Leaf.under (l : Leaf) (σ : String → String) : Atom := ⟨l.op, l.args.map (Term.under σ)⟩

namespace Formula

mutual

/-- A condition holds in a set of atoms under an assignment. -/
def Holds (D : Atom → Prop) (σ : String → String) : Formula → Prop
  | leaf l => D (l.under σ)
  | all ps => HoldsAll D σ ps
  | any ps => HoldsAny D σ ps
  | negate _ | implies .. | reference _ => False

def HoldsAll (D : Atom → Prop) (σ : String → String) : List Formula → Prop
  | [] => True
  | f :: fs => Holds D σ f ∧ HoldsAll D σ fs

def HoldsAny (D : Atom → Prop) (σ : String → String) : List Formula → Prop
  | [] => False
  | f :: fs => Holds D σ f ∨ HoldsAny D σ fs

end

variable {D D' : Atom → Prop} {σ : String → String}

theorem holdsAll_iff {fs : List Formula} : HoldsAll D σ fs ↔ ∀ f ∈ fs, f.Holds D σ := by
  induction fs with
  | nil => simp [HoldsAll]
  | cons f fs ih => simp [HoldsAll, ih]

theorem holdsAny_iff {fs : List Formula} : HoldsAny D σ fs ↔ ∃ f ∈ fs, f.Holds D σ := by
  induction fs with
  | nil => simp [HoldsAny]
  | cons f fs ih => simp [HoldsAny, ih]

mutual

/-- Whether a condition holds depends on the instances of its leaves only, and more holds where more
of them do. -/
theorem Holds.mono : (f : Formula) → (∀ l ∈ f.leaves, D (l.under σ) → D' (l.under σ)) →
    f.Holds D σ → f.Holds D' σ
  | leaf l, hD, h => by
    unfold Holds at h ⊢
    exact hD l (by simp [leaves]) h
  | all ps, hD, h => by
    unfold leaves at hD
    unfold Holds at h ⊢
    exact HoldsAll.mono ps hD h
  | any ps, hD, h => by
    unfold leaves at hD
    unfold Holds at h ⊢
    exact HoldsAny.mono ps hD h
  | negate _, _, h | implies _ _, _, h | reference _, _, h => by
    unfold Holds at h
    exact h.elim

theorem HoldsAll.mono : (fs : List Formula) →
    (∀ l ∈ leavesOf fs, D (l.under σ) → D' (l.under σ)) → HoldsAll D σ fs → HoldsAll D' σ fs
  | [], _, _ => by
    unfold HoldsAll
    trivial
  | f :: fs, hD, h => by
    unfold leavesOf at hD
    rw [List.forall_mem_append] at hD
    unfold HoldsAll at h ⊢
    exact ⟨Holds.mono f hD.1 h.1, HoldsAll.mono fs hD.2 h.2⟩

theorem HoldsAny.mono : (fs : List Formula) →
    (∀ l ∈ leavesOf fs, D (l.under σ) → D' (l.under σ)) → HoldsAny D σ fs → HoldsAny D' σ fs
  | [], _, h => by
    unfold HoldsAny at h
    exact h.elim
  | f :: fs, hD, h => by
    unfold leavesOf at hD
    rw [List.forall_mem_append] at hD
    unfold HoldsAny at h ⊢
    exact h.imp (Holds.mono f hD.1) (HoldsAny.mono fs hD.2)

end

end Formula

/-! ### The least closed set -/

/-- A set holds the facts that are possible at least, and whatever a rule concludes from it. -/
structure Closed (facts : List Fact) (rules : List Rule) (D : Atom → Prop) : Prop where
  fact : ∀ f ∈ facts, Existence.possible ≤ f.existence → D f.atom
  rule : ∀ r ∈ rules, ∀ condition, r.condition = some condition → ∀ c ∈ r.conclusions,
    ∀ σ, condition.Holds D σ → D (c.under σ)

/-- An atom follows if every closed set holds it. -/
def Derivable (facts : List Fact) (rules : List Rule) (a : Atom) : Prop :=
  ∀ D, Closed facts rules D → D a

variable {facts : List Fact} {rules : List Rule}

/-- What follows is itself a closed set, so it is the least one. -/
theorem closed_derivable : Closed facts rules (Derivable facts rules) where
  fact := fun f hf hlevel _ hD => hD.fact f hf hlevel
  rule := fun r hr condition hcond c hc σ hholds _ hD =>
    hD.rule r hr condition hcond c hc σ (hholds.mono condition fun _ _ ha => ha _ hD)

/-! ### Rules of a book -/

namespace RuleBook

/-- The books that loading leads to. -/
inductive Reached : RuleBook → Prop
  | empty (algebra : Option Algebra) : Reached { algebra }
  | extract {b b' : RuleBook} {batch : List Statement} {added : List Rule} :
      Reached b → b.extract batch = .ok (b', added) → Reached b'
  | addRule {b b' : RuleBook} {name : String} {condition conclusion : Option Formula} :
      Reached b → b.addRule name condition conclusion = .ok b' → Reached b'
  | clear {b : RuleBook} : Reached b → Reached b.clear

end RuleBook

/-- The rule has a condition, and its conclusions are those of a formula. -/
def Rule.Whole (r : Rule) : Prop :=
  ∃ c d, r.condition = some c ∧ r.conclusion = some d ∧ r.conclusions = d.positiveLeaves

/-- Only conclusions are matched. -/
theorem Rule.Whole.candidates_eq {r : Rule} (h : r.Whole) : r.candidates = r.conclusions := by
  obtain ⟨c, d, -, hd, hcs⟩ := h
  unfold candidates
  split
  · rename_i hnil
    split
    · rename_i l hl
      rw [hd, Option.some.injEq] at hl
      subst hl
      rw [hcs] at hnil
      simp [Formula.positiveLeaves] at hnil
    · exact (List.isEmpty_iff.mp hnil).symm
  · rfl

theorem Rule.whole_ofImplication {algebra : Option Algebra} {name : String} {c d : Formula}
    {r : Rule} (h : Rule.ofImplication algebra name c d = .ok r) : r.Whole := by
  obtain ⟨vector, -, h⟩ := Outcome.bind_eq_ok.mp h
  cases h
  exact ⟨c, d, rfl, rfl, rfl⟩

namespace RuleBook

variable {b b' : RuleBook}

/-- What holds of the rule of every implication of a batch holds of all that is collected. -/
theorem forall_collect {table : NameTable} {batch : List Statement} {added rs : List Rule}
    {P : Rule → Prop}
    (hP : ∀ s ∈ batch, ∀ f c d r, s.formula = some f → table.resolve f = .ok (.implies c d) →
      Rule.ofImplication b.algebra s.name c d = .ok r → P r)
    (hadded : ∀ r ∈ added, P r) (h : b.collect table batch added = .ok rs) : ∀ r ∈ rs, P r := by
  induction batch generalizing added with
  | nil =>
    cases h
    exact hadded
  | cons s batch ih =>
    obtain ⟨hfirst, hrest⟩ := List.forall_mem_cons.mp hP
    obtain ⟨name, formula⟩ := s
    cases formula with
    | none => exact ih hrest hadded h
    | some f =>
      obtain ⟨g, hg, h⟩ := Outcome.bind_eq_ok.mp h
      split at h
      · rename_i c d
        obtain ⟨r, hr, h⟩ := Outcome.bind_eq_ok.mp h
        split at h
        · exact ih hrest hadded h
        · refine ih hrest (fun r' hr' => ?_) h
          rcases List.mem_append.mp hr' with hr' | hr'
          · exact hadded r' hr'
          · rw [List.mem_singleton.mp hr']
            exact hfirst f c d r rfl hg hr
      · exact ih hrest hadded h

theorem forall_extract {batch : List Statement} {added : List Rule} {P : Rule → Prop}
    (hP : ∀ (table : NameTable) name f c d r, table.resolve f = .ok (.implies c d) →
      Rule.ofImplication b.algebra name c d = .ok r → P r)
    (hb : ∀ r ∈ b.rules, P r) (h : b.extract batch = .ok (b', added)) : ∀ r ∈ b'.rules, P r := by
  obtain ⟨table, -, h⟩ := Outcome.bind_eq_ok.mp h
  obtain ⟨rs, hrs, h⟩ := Outcome.bind_eq_ok.mp h
  cases h
  intro r hr
  rcases List.mem_append.mp hr with hr | hr
  · exact hb r hr
  · exact forall_collect (fun s _ f c d r _ => hP table s.name f c d r) (by simp) hrs r hr

/-- What holds of the rule of every implication holds of all rules of a book. -/
theorem Reached.forall_rules (h : b.Reached) {P : Rule → Prop}
    (hP : ∀ algebra (table : NameTable) name f c d r, table.resolve f = .ok (.implies c d) →
      Rule.ofImplication algebra name c d = .ok r → P r) : ∀ r ∈ b.rules, P r := by
  induction h with
  | empty algebra => simp
  | extract _ hb ih => exact forall_extract (hP _) ih hb
  | addRule _ hb ih =>
    obtain ⟨c, -, hb⟩ := Outcome.bind_eq_ok.mp hb
    obtain ⟨d, -, hb⟩ := Outcome.bind_eq_ok.mp hb
    obtain ⟨⟨b'', added⟩, hext, hb⟩ := Outcome.bind_eq_ok.mp hb
    cases hb
    exact forall_extract (hP _) ih hext
  | clear _ _ => simp [RuleBook.clear]

/-- Every rule of a book is whole. -/
theorem Reached.whole (h : b.Reached) : ∀ r ∈ b.rules, r.Whole :=
  h.forall_rules fun _ _ _ _ _ _ _ _ hr => Rule.whole_ofImplication hr

end RuleBook

namespace Proof

variable {σ : String → String}

theorem matchTerms?_fixed {t : Term} {ts : List Term} {a : String} {as : List String}
    {b : Bindings} (ht : t.isHole = false) :
    matchTerms? (t :: ts) (a :: as) b = if t.name = a then matchTerms? ts as b else none := by
  cases t with
  | hole n => cases ht
  | ident n | literal n => rfl

/-- Terms that match texts are the texts under every assignment that agrees with the match. -/
theorem matchTerms?_sound {ts : List Term} {as : List String} {b b' : Bindings}
    (h : matchTerms? ts as b = some b') :
    b.Extends b' ∧ ∀ σ, Bindings.Agrees σ b' → ts.map (Term.under σ) = as := by
  induction ts generalizing as b with
  | nil =>
    cases as with
    | nil =>
      cases h
      exact ⟨.refl _, fun _ _ => rfl⟩
    | cons a as => cases h
  | cons t ts ih =>
    cases as with
    | nil => cases t <;> cases h
    | cons a as =>
      cases t with
      | hole n =>
        obtain ⟨b₁, hb₁, h⟩ := Option.bind_eq_some_iff.mp h
        obtain ⟨hext, hget⟩ := Bindings.bind?_eq_some hb₁
        obtain ⟨hext', hts⟩ := ih h
        refine ⟨hext.trans hext', fun σ hσ => ?_⟩
        rw [List.map_cons, hts σ hσ]
        exact congrArg (· :: as) (hσ n a (hext' n a hget))
      | ident n | literal n =>
        rw [matchTerms?_fixed rfl] at h
        split at h
        · rename_i heq
          obtain ⟨hext, hts⟩ := ih h
          refine ⟨hext, fun σ hσ => ?_⟩
          rw [List.map_cons, hts σ hσ]
          exact congrArg (· :: as) heq
        · cases h

/-- A conclusion that matches a goal is the goal, holes of the goal standing for their names. -/
theorem matchConclusion?_sound {goal c : Leaf} {b : Bindings}
    (h : matchConclusion? goal c = some b) (hσ : Bindings.Agrees σ b) :
    c.under σ = ⟨goal.op, goalTexts goal⟩ := by
  unfold matchConclusion? at h
  split at h
  · cases h
  · rename_i hop
    simp only [Bool.or_eq_true, bne_iff_ne, ne_eq, not_or, not_not] at hop
    unfold Leaf.under
    rw [(matchTerms?_sound h).2 σ hσ, hop.2]

/-- The texts of a goal without holes are its names. -/
theorem goalTexts_eq {g : Leaf} (h : ∀ a ∈ g.args, a.isHole = false) :
    goalTexts g = g.args.map Term.name := by
  refine List.map_congr_left fun a ha => ?_
  have hhole := h a ha
  cases a with
  | hole n => cases hhole
  | ident n | literal n => rfl

/-- In a leaf without free holes, every hole has a value. -/
theorem get?_of_isBound {l : Leaf} {b : Bindings} (hl : l.isBound b = true) {n : String}
    (hn : .hole n ∈ l.args) : ∃ v, b.get? n = some v := by
  have hmem : n ∈ l.holes := List.mem_map.mpr ⟨.hole n, List.mem_filter.mpr ⟨hn, rfl⟩, rfl⟩
  exact Option.isSome_iff_exists.mp (List.all_eq_true.mp hl n hmem)

/-- A leaf without free holes is, once its values are put in, the goal of its atom. -/
theorem substitute_under {l : Leaf} {b : Bindings} (hl : l.isBound b = true)
    (hσ : Bindings.Agrees σ b) :
    l.under σ = ⟨(l.substitute b).op, goalTexts (l.substitute b)⟩ := by
  unfold Leaf.under goalTexts Leaf.substitute
  rw [List.map_map]
  congr 1
  refine List.map_congr_left fun a ha => ?_
  cases a with
  | ident n => rfl
  | literal n => rfl
  | hole n =>
    obtain ⟨v, hv⟩ := get?_of_isBound hl ha
    show σ n = Leaf.instanceOf .empty (((b.get? n).map Leaf.ofValue).getD (.hole n))
    rw [hv, hσ n v hv]
    show v = Leaf.instanceOf .empty (Leaf.ofValue v)
    unfold Leaf.ofValue
    split <;> rfl

/-- A leaf without free holes has no holes once its values are put in. -/
theorem isHole_substitute {l : Leaf} {b : Bindings} (hl : l.isBound b = true) :
    ∀ a ∈ (l.substitute b).args, a.isHole = false := by
  intro a ha
  obtain ⟨t, ht, rfl⟩ := List.mem_map.mp ha
  cases t with
  | ident n | literal n => rfl
  | hole n =>
    obtain ⟨v, hv⟩ := get?_of_isBound hl ht
    show (((b.get? n).map Leaf.ofValue).getD (.hole n)).isHole = false
    rw [hv]
    show (Leaf.ofValue v).isHole = false
    unfold Leaf.ofValue
    split <;> rfl

/-! ### Proved goals -/

namespace Theory

/-- The search for a goal ends, and it is proved. -/
def proves (t : Theory) (goal : Formula) : Bool :=
  match (t.prove goal).value with
  | .ok r => r.isValid
  | .error _ => false

theorem proves_iff {t : Theory} {goal : Formula} :
    t.proves goal = true ↔ ∃ c, (t.attempt goal).value = .ok (some c) := by
  unfold proves prove
  dsimp only
  cases h : (t.attempt goal).value with
  | error e => simp [Except.map]
  | ok c =>
    cases c with
    | none => simp [Except.map, Result.isValid]
    | some c => simp [Except.map, Result.isValid]

/-- Only leaves are proved. -/
theorem exists_leaf_of_proves {t : Theory} {goal : Formula} (h : t.proves goal = true) :
    ∃ g, goal = .leaf g := by
  obtain ⟨c, hc⟩ := proves_iff.mp h
  cases goal with
  | leaf g => exact ⟨g, rfl⟩
  | all _ | any _ | negate _ | implies _ _ | reference _ =>
    unfold attempt at hc
    dsimp only at hc
    split at hc <;> cases hc

end Theory

end Proof

end KnowledgeBase
