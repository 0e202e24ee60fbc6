import KnowledgeBase.Proofs.Chaining.Ground
import KnowledgeBase.Proofs.Chaining.Soundness
import Mathlib.Data.List.MinMax
import Mathlib.Order.Nat

/-!
# Backward chaining is complete for ground goals

In the ground fragment a goal is proved exactly if it has a derivation that is lower than the depth
limit.  A goal in work is not proved by way of itself, and no proof is lost by that: in a derivation
of least height no atom is used to derive itself.

* `Derivation`: derivations by facts and rules, with their heights; `Derivation.step` and
  `within_succ` take one apart and put one together;
* `Clear`: no goal in work has a derivation as low as the one that is looked for, the invariant
  that keeps the search clear of its own goals;
* `judges_proveLeaf`: by induction on the levels left;
* `Store.Exact`: a triple is found exactly if a stored fact states it;
* `completeOver_iff`: the exact stores are those over which proofs are complete, and every store
  reached without a wrap of the counter is one of them.
-/

namespace KnowledgeBase

/-! ### Derivations -/

/-- An atom has a derivation of a height.  Facts have height zero, and a rule adds one to the
greatest height of what it uses. -/
inductive Derivation (facts : List Fact) (rules : List Rule) : Atom → Nat → Prop
  | fact {f : Fact} : f ∈ facts → Existence.possible ≤ f.existence →
      Derivation facts rules f.atom 0
  | rule {r : Rule} {condition : Formula} {c : Leaf} {σ : String → String} (used : List Atom)
      (height : Atom → Nat) : r ∈ rules → r.condition = some condition → c ∈ r.conclusions →
      condition.Holds (· ∈ used) σ → (∀ a ∈ used, Derivation facts rules a (height a)) →
      Derivation facts rules (c.under σ) (1 + (used.map height).foldr max 0)

/-- A condition that holds in a set of atoms uses finitely many of them. -/
theorem Formula.exists_used {D : Atom → Prop} {σ : String → String} (f : Formula)
    (h : f.Holds D σ) : ∃ used : List Atom, (∀ a ∈ used, D a) ∧ f.Holds (· ∈ used) σ := by
  classical
  refine ⟨(f.leaves.map (Leaf.under · σ)).filter fun a => decide (D a), ?_, ?_⟩
  · intro a ha
    exact of_decide_eq_true (List.mem_filter.mp ha).2
  · refine h.mono f fun l hl hD => ?_
    exact List.mem_filter.mpr ⟨List.mem_map_of_mem hl, decide_eq_true hD⟩

/-- A rule concludes an atom from a set of atoms. -/
def Concludes (rules : List Rule) (D : Atom → Prop) (a : Atom) : Prop :=
  ∃ r ∈ rules, ∃ condition, r.condition = some condition ∧ ∃ c ∈ r.conclusions, ∃ σ,
    c.under σ = a ∧ condition.Holds D σ

/-- An atom has a derivation of height less than `n`. -/
def Within (facts : List Fact) (rules : List Rule) (n : Nat) (a : Atom) : Prop :=
  ∃ h < n, Derivation facts rules a h

section

variable {facts : List Fact} {rules : List Rule} {a : Atom} {n : Nat}

theorem Concludes.mono {D D' : Atom → Prop} (hD : ∀ a, D a → D' a) (h : Concludes rules D a) :
    Concludes rules D' a := by
  obtain ⟨r, hr, condition, hcond, c, hc, σ, hgoal, hholds⟩ := h
  exact ⟨r, hr, condition, hcond, c, hc, σ, hgoal, hholds.mono condition fun _ _ => hD _⟩

/-- The last step of a derivation: a fact, or a rule and atoms with lower derivations. -/
theorem Derivation.step (h : Derivation facts rules a n) :
    (∃ f ∈ facts, Existence.possible ≤ f.existence ∧ f.atom = a) ∨
      n ≠ 0 ∧ Concludes rules (Within facts rules n) a := by
  cases h with
  | @fact f hf hlevel => exact .inl ⟨f, hf, hlevel, rfl⟩
  | @rule r condition c σ used height hr hcond hc hholds hused =>
    refine .inr ⟨by omega, r, hr, condition, hcond, c, hc, σ, rfl, ?_⟩
    refine hholds.mono condition fun l _ hl => ?_
    have hle : height (l.under σ) ≤ (used.map height).foldr max 0 :=
      List.le_max_of_le' 0 (List.mem_map_of_mem hl) le_rfl
    exact ⟨height (l.under σ), by omega, hused _ hl⟩

/-- A step by a rule from derivations of height less than `n`. -/
theorem within_succ (hn : n ≠ 0) (h : Concludes rules (Within facts rules n) a) :
    Within facts rules (n + 1) a := by
  obtain ⟨r, hr, condition, hcond, c, hc, σ, rfl, hholds⟩ := h
  obtain ⟨used, hused, hholds'⟩ := condition.exists_used hholds
  choose! height hlt hder using hused
  have hmax : (used.map height).foldr max ⊥ ≤ n - 1 := by
    refine List.max_le_of_forall_le _ _ fun k hk => ?_
    obtain ⟨a, ha, rfl⟩ := List.mem_map.mp hk
    have hka := hlt a ha
    omega
  have hheight : 1 + (used.map height).foldr max 0 < n + 1 := by
    change (used.map height).foldr max 0 ≤ n - 1 at hmax
    omega
  exact ⟨_, hheight, .rule used height hr hcond hc hholds' hder⟩

/-- No derivation has a height less than zero, and only facts have one less than one. -/
theorem within_one : Within facts rules 1 a ↔
    ∃ f ∈ facts, Existence.possible ≤ f.existence ∧ f.atom = a := by
  constructor
  · rintro ⟨h, hh, hder⟩
    cases hder with
    | @fact f hf hlevel => exact ⟨f, hf, hlevel, rfl⟩
    | rule => omega
  · rintro ⟨f, hf, hlevel, rfl⟩
    exact ⟨0, by omega, .fact hf hlevel⟩

end

/-- A fact states an atom of two arguments by its triple. -/
theorem Fact.atom_eq_iff {f : Fact} {x r y : String} :
    f.atom = ⟨r, [x, y]⟩ ↔ f.triple = ⟨x, r, y⟩ := by
  unfold Fact.atom Fact.subject Fact.relation Fact.object
  cases f.triple
  simp
  tauto

/-! ### Exact look-ups -/

namespace Store

/-- A triple with a relation, all of whose texts are plain. -/
structure PlainTriple (t : Triple) : Prop where
  relation_ne : t.relation ≠ ""
  subject : Text.Plain t.subject
  relation : Text.Plain t.relation
  object : Text.Plain t.object

/-- Look-ups of plain triples are answered, and something possible is found exactly if a stored fact
of that triple is possible. -/
def Exact (s : Store) : Prop :=
  ∀ t, PlainTriple t → ∃ b, s.bestFact t.subject t.relation (some t.object) = .ok b ∧
    (b.any (fun f => decide (Existence.possible ≤ f.existence)) = true ↔
      ∃ f ∈ s.allFacts, f.triple = t ∧ Existence.possible ≤ f.existence)

theorem Coherent.exact {s : Store} (h : Coherent s) : s.Exact := by
  intro t ht
  exact h.bestFact_any (.inr ⟨ht.subject.clean, ht.relation.clean, ht.object.clean⟩) _

end Store

namespace Proof

open Bindings Search

namespace Theory

variable {t : Theory}

/-- An atom has a derivation of this height from the facts and rules of a theory. -/
abbrev Derives (t : Theory) : Atom → Nat → Prop := Derivation t.store.allFacts t.rules

/-! ### Goals that facts state -/

/-- A goal without holes is stated exactly if it has two arguments and the look-up of its triple
finds something possible. -/
theorem statedBy?_of_best {g : Leaf} (hg : ∀ a ∈ g.args, a.isHole = false)
    (hbest : ∀ x y, g.args = [x, y] → ∃ b,
      t.store.bestFact x.name g.op (some y.name) = .ok b ∧
      (b.any (fun f => decide (Existence.possible ≤ f.existence)) = true ↔
        ∃ f ∈ t.store.allFacts, f.triple = ⟨x.name, g.op, y.name⟩ ∧
          Existence.possible ≤ f.existence)) :
    ∃ b, t.statedBy? g = .ok b ∧ (b.isSome = true ↔
      ∃ f ∈ t.store.allFacts, Existence.possible ≤ f.existence ∧ f.atom = g.atom) := by
  unfold statedBy?
  split
  · rename_i x y hargs
    have hx := hg x (by simp [hargs])
    have hy := hg y (by simp [hargs])
    obtain ⟨b, hb, hiff⟩ := hbest x y hargs
    rw [if_neg (by simp [hx, hy]), hb]
    refine ⟨b.filter fun f => decide (Existence.possible ≤ f.existence), rfl, ?_⟩
    have hatom : ∀ f : Fact, f.atom = g.atom ↔ f.triple = ⟨x.name, g.op, y.name⟩ := by
      intro f
      unfold Leaf.atom
      rw [hargs]
      exact Fact.atom_eq_iff
    rw [Option.isSome_filter, hiff]
    simp only [hatom, and_comm]
  · rename_i hargs
    refine ⟨none, rfl, ?_⟩
    constructor
    · simp
    · rintro ⟨f, -, -, hatom⟩
      -- a fact has two arguments
      have hnames : [f.subject, f.object] = g.args.map Term.name := congrArg Atom.args hatom
      obtain ⟨x, y, hxy⟩ : ∃ x y, g.args = [x, y] := by
        have hlen := congrArg List.length hnames
        rw [List.length_map] at hlen
        exact List.length_eq_two.mp hlen.symm
      exact (hargs x y hxy).elim

/-- The facts settle a ground goal at once. -/
theorem statedBy?_exact (hs : t.store.Exact) {g : Leaf} (hg : g.Ground) :
    ∃ b, t.statedBy? g = .ok b ∧ (b.isSome = true ↔
      ∃ f ∈ t.store.allFacts, Existence.possible ≤ f.existence ∧ f.atom = g.atom) := by
  refine statedBy?_of_best hg.not_hole fun x y hargs => ?_
  have hx := hg.args x (by simp [hargs])
  have hy := hg.args y (by simp [hargs])
  exact hs ⟨x.name, g.op, y.name⟩ ⟨hg.plain.op_ne, hx.2, hg.plain.op, hy.2⟩

/-- A goal that no rule is tried for is proved by the facts alone. -/
theorem proveLeaf_of_untried {room : Nat} {pending : List String} {g : Leaf} {o : Option Fact}
    (hfresh : g.text ∉ pending) (huntried : t.attempts g = []) (ho : t.statedBy? g = .ok o) :
    (t.proveLeaf (room + 1) pending g).value = .ok (o.map t.certifyFact) := by
  unfold proveLeaf
  rw [if_neg (by simpa using hfresh), bind_of_ok (ofExcept_eq_ok.mpr ho)]
  cases o with
  | some f => rfl
  | none =>
    have hnone : ∀ e ∈ t.attempts g, (t.answer room pending g e).value = .ok none := by
      simp [huntried]
    exact bind_eq_ok.mpr ⟨none, workingOn_eq_ok.mpr (rules_eq_none.mpr hnone), rfl⟩

/-! ### Goals that rules prove -/

/-- Every goal in work has only derivations of height above `h`. -/
def Clear (t : Theory) (pending : List String) (h : Nat) : Prop :=
  ∀ g : Leaf, g.Ground → g.text ∈ pending → ∀ h', t.Derives g.atom h' → h < h'

/-- An atom has a derivation of height less than `n`, as low as which no goal in work has one. -/
def WithinReach (t : Theory) (n : Nat) (pending : List String) (a : Atom) : Prop :=
  ∃ h < n, t.Derives a h ∧ t.Clear pending h

/-- **A goal within reach that no fact states is concluded from atoms that are within reach once the
goal itself is in work**: a derivation of least height does not come back to its own atom. -/
theorem WithinReach.step {n : Nat} {pending : List String} {g : Leaf} (hg : g.Ground)
    (h : t.WithinReach (n + 1) pending g.atom)
    (hnofact : ¬ ∃ f ∈ t.store.allFacts, Existence.possible ≤ f.existence ∧ f.atom = g.atom) :
    n ≠ 0 ∧ Concludes t.rules (t.WithinReach n (g.text :: pending)) g.atom := by
  classical
  obtain ⟨h, hh, hder, hclear⟩ := h
  have hex : ∃ h, t.Derives g.atom h := ⟨h, hder⟩
  have hleast : ∀ h', t.Derives g.atom h' → Nat.find hex ≤ h' :=
    fun h' hder' => Nat.find_min' hex hder'
  have hle : Nat.find hex ≤ h := hleast h hder
  rcases (Nat.find_spec hex).step with hfact | ⟨hpos, hconcl⟩
  · exact (hnofact hfact).elim
  · refine ⟨by omega, hconcl.mono ?_⟩
    rintro a ⟨k, hk, hderk⟩
    -- what is used lies below the least height of the goal, and that below all goals in work
    refine ⟨k, by omega, hderk, ?_⟩
    intro g' hg' hmem h' hder'
    rcases List.mem_cons.mp hmem with heq | hmem
    · have hgg : g' = g := hg'.text_injective hg heq
      subst hgg
      have hlow := hleast h' hder'
      omega
    · have hlow := hclear g' hg' hmem h' hder'
      omega

/-- A rule of the fragment is offered each goal that is an instance of a conclusion. -/
theorem exists_attempt (hstrict : t.config.strictLevelPruning = false)
    (hrules : ∀ r ∈ t.rules, r.Whole) {r : Rule} (hr : r ∈ t.rules) {c g : Leaf}
    (hc : c ∈ r.conclusions) (hg : g.Ground) {σ : String → String} (h : c.under σ = g.atom) :
    ∃ b, (r, b) ∈ t.attempts g ∧ matchConclusion? g c = some b ∧ Agrees σ b := by
  obtain ⟨b, hb, hσ⟩ := exists_matchConclusion? hg h
  refine ⟨b, ?_, hb, hσ⟩
  have hskips : t.pruning.skips g r b = false := by
    unfold Pruning.skips pruning
    simp [hstrict]
  have hoffer : b ∈ offers t.pruning g r := by
    refine List.mem_filter.mpr ⟨List.mem_filterMap.mpr ⟨c, ?_, hb⟩, by simp [hskips]⟩
    rw [(hrules r hr).candidates_eq]
    exact hc
  exact List.mem_flatMap.mpr ⟨r, hr, List.mem_map.mpr ⟨b, hoffer, rfl⟩⟩

/-- The attempts at a goal are by conclusions that match it. -/
theorem match_of_mem_attempts (hrules : ∀ r ∈ t.rules, r.Whole) {g : Leaf} {e : Rule × Bindings}
    (he : e ∈ t.attempts g) :
    e.1 ∈ t.rules ∧ ∃ c ∈ e.1.conclusions, matchConclusion? g c = some e.2 := by
  obtain ⟨r, hr, he⟩ := List.mem_flatMap.mp he
  obtain ⟨b, hb, rfl⟩ := List.mem_map.mp he
  obtain ⟨c, hc, hmatch⟩ := List.mem_filterMap.mp (List.mem_of_mem_filter hb)
  rw [(hrules r hr).candidates_eq] at hc
  exact ⟨hr, c, hc, hmatch⟩

variable {prove : Leaf → Search (Option Certificate)} {P Q : Atom → Prop}

/-- An attempt succeeds if the condition of the rule holds where goals must be proved, and only if
it holds where they may be. -/
theorem solveCondition_exact {room : Nat} (hroom : room ≠ 0)
    (hprove : ∀ g : Leaf, g.Ground → Judges (P g.atom) (Q g.atom) (prove g)) {r : Rule}
    (hr : r.Ground) {condition : Formula} (hcond : r.condition = some condition) {g c : Leaf}
    (hg : g.Ground) (hc : c ∈ r.conclusions) {b : Bindings} (hb : matchConclusion? g c = some b)
    {σ : String → String} (hσ : Agrees σ b) :
    ∃ s, (t.solveCondition prove room r b).value = .ok s ∧
      (condition.Holds P σ → s.isSome = true) ∧ (s.isSome = true → condition.Holds Q σ) := by
  obtain ⟨hholes, hplain⟩ := matchConclusion?_binds hg hb
  obtain ⟨hpos, hleaves⟩ := hr condition hcond
  have hready : ∀ l ∈ condition.leaves, Ready prove P Q σ b l := by
    intro l hl
    obtain ⟨hlplain, hlholes⟩ := hleaves l hl
    have hbound : l.isBound b = true := by
      refine List.all_eq_true.mpr fun n hn => ?_
      exact hholes n (hlholes c hc n hn)
    have hjudges := hprove _ (ground_substitute hlplain hbound hplain)
    rw [atom_substitute hbound hσ] at hjudges
    exact ⟨hbound, hjudges⟩
  obtain ⟨sols, hsols, -, hcomplete, hsound⟩ := solves_solve (t := t) condition hpos hready
    ⟨b, 1.0, []⟩ rfl
  refine ⟨sols.head?, ?_, ?_, ?_⟩
  · unfold solveCondition
    rw [hcond]
    dsimp only
    rw [if_neg hroom]
    exact bind_eq_ok.mpr ⟨sols, hsols, rfl⟩
  · intro hholds
    exact List.isSome_head?.mpr (hcomplete hholds)
  · intro hsome
    exact hsound (List.isSome_head?.mp hsome)

/-- The rules prove a goal exactly if an attempt at it succeeds, no attempt being broken off. -/
theorem rules_isSome_iff {decay : Float32} {p : Pruning} {g : Leaf} {rules : List Rule}
    {solveFor : Rule → Bindings → Search (Option Solution)}
    (hends : ∀ e ∈ rules.flatMap fun r => (offers p g r).map (r, ·), (solveFor e.1 e.2).Ends) :
    ∃ u, (rules.findSomeM? (unify? solveFor decay p g)).value = .ok u ∧
      (u.isSome = true ↔ ∃ e ∈ rules.flatMap fun r => (offers p g r).map (r, ·), ∃ s,
        (solveFor e.1 e.2).value = .ok (some s)) := by
  have hrules : (rules.findSomeM? (unify? solveFor decay p g)).Ends := by
    refine Ends.findSomeM? fun r hr => Ends.findSomeM? fun b hb => ?_
    have he : (r, b) ∈ rules.flatMap fun r => (offers p g r).map (r, ·) :=
      List.mem_flatMap.mpr ⟨r, hr, List.mem_map.mpr ⟨b, hb, rfl⟩⟩
    exact Ends.bind (hends (r, b) he) fun s => ends_pure _
  obtain ⟨u, hu⟩ := hrules
  refine ⟨u, hu, ?_⟩
  cases u with
  | none =>
    have hnone := rules_eq_none.mp hu
    constructor
    · simp
    · rintro ⟨e, he, s, hs⟩
      rw [hnone e he] at hs
      cases hs
  | some u =>
    obtain ⟨before, r, b, after, s, hsplit, -, hs⟩ := rules_eq_some hu
    have he : (r, b) ∈ rules.flatMap fun r => (offers p g r).map (r, ·) := by
      rw [hsplit]
      exact List.mem_append_right _ List.mem_cons_self
    exact ⟨fun _ => ⟨(r, b), he, s, hs⟩, fun _ => rfl⟩

/-- Every attempt at a goal ends, and if it succeeds, a rule concludes the goal from what may be
proved. -/
theorem attempt_sound (hrules : ∀ r ∈ t.rules, r.Whole ∧ r.Ground) (room : Nat) {g : Leaf}
    (hg : g.Ground) (hprove : ∀ g : Leaf, g.Ground → Judges (P g.atom) (Q g.atom) (prove g))
    {e : Rule × Bindings} (he : e ∈ t.attempts g) :
    ∃ s, (t.solveCondition prove room e.1 e.2).value = .ok s ∧
      (s.isSome = true → room ≠ 0 ∧ Concludes t.rules Q g.atom) := by
  obtain ⟨hr, c, hc, hmatch⟩ := match_of_mem_attempts (fun r hr => (hrules r hr).1) he
  obtain ⟨condition, -, hcond, -⟩ := (hrules e.1 hr).1
  by_cases hroom : room = 0
  · refine ⟨none, ?_, by simp⟩
    unfold solveCondition
    rw [hcond]
    dsimp only
    rw [if_pos hroom]
    rfl
  · obtain ⟨σ, hσ⟩ := exists_agrees e.2
    obtain ⟨s, hs, -, hsound⟩ :=
      solveCondition_exact hroom hprove (hrules e.1 hr).2 hcond hg hc hmatch hσ
    have hgoal : c.under σ = g.atom := by
      rw [matchConclusion?_sound hmatch hσ, hg.goalTexts_eq]
      rfl
    refine ⟨s, hs, fun hsome => ⟨hroom, ?_⟩⟩
    exact ⟨e.1, hr, condition, hcond, c, hc, σ, hgoal, hsound hsome⟩

/-- If a rule concludes a goal from what must be proved, an attempt succeeds. -/
theorem attempt_complete (hstrict : t.config.strictLevelPruning = false)
    (hrules : ∀ r ∈ t.rules, r.Whole ∧ r.Ground) {room : Nat} (hroom : room ≠ 0) {g : Leaf}
    (hg : g.Ground) (hprove : ∀ g : Leaf, g.Ground → Judges (P g.atom) (Q g.atom) (prove g))
    (h : Concludes t.rules P g.atom) :
    ∃ e ∈ t.attempts g, ∃ s, (t.solveCondition prove room e.1 e.2).value = .ok (some s) := by
  obtain ⟨r, hr, condition, hcond, c, hc, σ, hgoal, hholds⟩ := h
  obtain ⟨b, he, hmatch, hσ⟩ := exists_attempt hstrict (fun r hr => (hrules r hr).1) hr hc hg hgoal
  obtain ⟨s, hs, hcomplete, -⟩ :=
    solveCondition_exact hroom hprove (hrules r hr).2 hcond hg hc hmatch hσ
  obtain ⟨s', rfl⟩ := Option.isSome_iff_exists.mp (hcomplete hholds)
  exact ⟨(r, b), he, s', hs⟩

/-- **A ground goal is proved if it is within reach, and only if it has a derivation lower than the
levels left.** -/
theorem judges_proveLeaf (hs : t.store.Exact) (hstrict : t.config.strictLevelPruning = false)
    (hrules : ∀ r ∈ t.rules, r.Whole ∧ r.Ground) (room : Nat) (pending : List String) {g : Leaf}
    (hg : g.Ground) :
    Judges (t.WithinReach room pending g.atom) (Within t.store.allFacts t.rules room g.atom)
      (t.proveLeaf room pending g) := by
  induction room generalizing pending g with
  | zero =>
    refine ⟨none, rfl, ?_, by simp⟩
    rintro ⟨h, hh, -⟩
    omega
  | succ room ih =>
    unfold proveLeaf
    split
    · rename_i hpending
      -- a goal in work is not within reach, as it would have to lie below itself
      refine ⟨none, rfl, ?_, by simp⟩
      rintro ⟨h, -, hder, hclear⟩
      have hlt := hclear g hg (by simpa using hpending) h hder
      omega
    · obtain ⟨stated, hstated, hfact⟩ := statedBy?_exact hs hg
      rw [bind_of_ok (ofExcept_eq_ok.mpr hstated)]
      cases stated with
      | some f =>
        obtain ⟨f', hf', hlevel, hatom⟩ := hfact.mp rfl
        refine ⟨_, rfl, fun _ => rfl, fun _ => ?_⟩
        rw [← hatom]
        exact ⟨0, by omega, .fact hf' hlevel⟩
      | none =>
        have hgoals := fun (g' : Leaf) (hg' : g'.Ground) => ih (g.text :: pending) hg'
        have hattempts := fun (e : Rule × Bindings) (he : e ∈ t.attempts g) =>
          attempt_sound hrules room hg hgoals he
        obtain ⟨u, hu, hiff⟩ := rules_isSome_iff fun e he =>
          (hattempts e he).imp fun _ hs => hs.1
        refine ⟨u.map certifyRule, ?_, ?_, ?_⟩
        · exact bind_eq_ok.mpr ⟨u, workingOn_eq_ok.mpr hu, rfl⟩
        · intro h
          have hnofact : ¬ ∃ f ∈ t.store.allFacts, Existence.possible ≤ f.existence ∧
              f.atom = g.atom := by simpa using hfact
          obtain ⟨hroom, hconcl⟩ := h.step hg hnofact
          rw [Option.isSome_map]
          exact hiff.mpr (attempt_complete hstrict hrules hroom hg hgoals hconcl)
        · intro h
          rw [Option.isSome_map] at h
          obtain ⟨e, he, s, hs⟩ := hiff.mp h
          obtain ⟨s', hs', hsound⟩ := hattempts e he
          rw [hs] at hs'
          cases hs'
          obtain ⟨hroom, hconcl⟩ := hsound rfl
          exact within_succ hroom hconcl

/-- From nothing in work, what is within reach is what has a derivation. -/
theorem proves_ground_iff (hs : t.store.Exact) (hstrict : t.config.strictLevelPruning = false)
    (hrules : ∀ r ∈ t.rules, r.Whole ∧ r.Ground) {g : Leaf} (hg : g.Ground) :
    t.proves (.leaf g) = true ↔ ∃ h < t.maxDepth, t.Derives g.atom h := by
  obtain ⟨c, hc, hcomplete, hsound⟩ := judges_proveLeaf hs hstrict hrules t.maxDepth [] hg
  rw [proves_iff]
  constructor
  · rintro ⟨c', hc'⟩
    unfold attempt at hc'
    rw [hc] at hc'
    cases hc'
    exact hsound rfl
  · rintro ⟨h, hh, hder⟩
    have hreach : t.WithinReach t.maxDepth [] g.atom := by
      refine ⟨h, hh, hder, ?_⟩
      intro g' _ hmem
      cases hmem
    obtain ⟨c', rfl⟩ := Option.isSome_iff_exists.mp (hcomplete hreach)
    exact ⟨c', hc⟩

end Theory

/-! ### Complete stores -/

/-- Over a store, ground goals are proved from rules of the fragment exactly if they have a
derivation lower than the depth limit. -/
def CompleteOver (s : Store) : Prop :=
  ∀ (t : Theory) (book : RuleBook) (goal : Leaf), t.store = s → book.Reached →
    t.rules = book.rules → (∀ r ∈ book.rules, r.Ground) → t.config.strictLevelPruning = false →
    goal.Ground → (t.proves (.leaf goal) = true ↔
      ∃ h < t.maxDepth, Derivation s.allFacts book.rules goal.atom h)

theorem completeOver_of_exact {s : Store} (h : s.Exact) : CompleteOver s := by
  intro t book goal hstore hbook hrules hground hstrict hgoal
  subst hstore
  rw [← hrules] at hground ⊢
  refine Theory.proves_ground_iff h hstrict (fun r hr => ⟨?_, hground r hr⟩) hgoal
  exact hbook.whole r (hrules ▸ hr)

/-- The goal of a triple. -/
def goalOf (t : Triple) : Leaf := ⟨t.relation, [.ident t.subject, .ident t.object]⟩

theorem ground_goalOf {t : Triple} (h : Store.PlainTriple t) : (goalOf t).Ground := by
  refine ⟨⟨h.relation_ne, by simp [goalOf], h.relation, ?_⟩, by simp [goalOf, Term.isHole]⟩
  simp [goalOf, Term.name, h.subject, h.object]

/-- The search for the goal of a triple looks the triple up, unless the goal is in work. -/
theorem exists_bestFact_of_ends (th : Theory) {room : Nat} {pending : List String} {t : Triple}
    (hfresh : (goalOf t).text ∉ pending) (h : (th.proveLeaf (room + 1) pending (goalOf t)).Ends) :
    ∃ b, th.store.bestFact t.subject t.relation (some t.object) = .ok b := by
  obtain ⟨c, hc⟩ := h
  unfold Theory.proveLeaf at hc
  rw [if_neg (by simpa using hfresh)] at hc
  obtain ⟨stated, hstated, -⟩ := bind_eq_ok.mp hc
  obtain ⟨b, hb, -⟩ := Outcome.bind_eq_ok.mp (ofExcept_eq_ok.mp hstated)
  exact ⟨b, hb⟩

/-- The search for the goal of a triple comes to what the look-up finds, if no rule is tried. -/
theorem proveLeaf_goalOf {th : Theory} {t : Triple} {b : Option Fact} (room : Nat)
    (huntried : th.attempts (goalOf t) = [])
    (hb : th.store.bestFact t.subject t.relation (some t.object) = .ok b) :
    (th.proveLeaf (room + 1) [] (goalOf t)).value = .ok
      ((b.filter fun f => decide (Existence.possible ≤ f.existence)).map th.certifyFact) := by
  have hstated : th.statedBy? (goalOf t) =
      .ok (b.filter fun f => decide (Existence.possible ≤ f.existence)) := by
    show (th.store.bestFact t.subject t.relation (some t.object) >>= fun f =>
      pure (f.filter fun f => decide (Existence.possible ≤ f.existence))) = _
    rw [hb]
    rfl
  exact Theory.proveLeaf_of_untried (by simp) huntried hstated

/-- A goal that always holds, by the condition `surely`. -/
def sure : Leaf := ⟨"sure", [.ident "thing"]⟩

theorem ground_sure : sure.Ground := by decide

/-- A condition that holds in any case, but looks a goal up first. -/
def surely (g : Leaf) : Formula := .any [.leaf g, .all []]

/-- If `sure` is proved by the rule alone, its condition was solved. -/
theorem ends_of_proves_sure {th : Theory} {g : Leaf} {r : Rule} {room : Nat} (hg : g.Ground)
    (hrules : th.rules = [r]) (hcond : r.condition = some (surely g)) {c : Certificate}
    (hc : (th.proveLeaf (room + 1) [] sure).value = .ok (some c)) :
    (th.proveLeaf room [sure.text] g).Ends := by
  unfold Theory.proveLeaf at hc
  rw [if_neg (by simp)] at hc
  obtain ⟨stated, hstated, hc⟩ := bind_eq_ok.mp hc
  -- the goal has one argument, so no fact states it
  have hnone : stated = none := (Except.ok.inj (ofExcept_eq_ok.mp hstated)).symm
  subst hnone
  obtain ⟨u, hu, hc⟩ := bind_eq_ok.mp hc
  cases u with
  | none => cases hc
  | some u =>
    obtain ⟨before, r', after, hsplit, -, hunify⟩ :=
      findSomeM?_eq_ok_some.mp (workingOn_eq_ok.mp hu)
    have hr' : r' ∈ [r] := by
      rw [← hrules, hsplit]
      simp
    rw [List.mem_singleton.mp hr'] at hunify
    obtain ⟨-, -, b, s, -, hs⟩ := Theory.unify?_eq_ok hunify
    obtain ⟨f, sols, hf, hsols, -⟩ := Theory.solveCondition_eq_ok hs
    rw [hcond] at hf
    cases hf
    unfold surely Theory.solve Theory.solveAny at hsols
    obtain ⟨sols', hsols', -⟩ := bind_eq_ok.mp hsols
    unfold Theory.solve Theory.solveLeaf at hsols'
    rw [if_pos (hg.isBound b), hg.substitute_eq b] at hsols'
    obtain ⟨c', hc', -⟩ := bind_eq_ok.mp hsols'
    exact ⟨c', hc'⟩

/-- A look-up that breaks off takes a proof with it that goes on without it. -/
theorem exists_bestFact {s : Store} (h : CompleteOver s) {t : Triple} (ht : Store.PlainTriple t) :
    ∃ b, s.bestFact t.subject t.relation (some t.object) = .ok b := by
  obtain ⟨r, hbook, hcond, hconcl⟩ : ∃ r : Rule,
      RuleBook.addRule {} "" (some (surely (goalOf t))) (some (.leaf sure)) =
        .ok { rules := [r] } ∧
      r.condition = some (surely (goalOf t)) ∧ r.conclusions = [sure] :=
    ⟨_, rfl, rfl, rfl⟩
  let th : Theory := { store := s, rules := [r], config := { maxProofDepth := 2 } }
  have hground : ∀ r' ∈ [r], r'.Ground := by
    intro r' hr'
    rw [List.mem_singleton.mp hr', Rule.Ground, hcond]
    rintro f hf
    cases hf
    refine ⟨rfl, fun l hl => ?_⟩
    have hgoal : l = goalOf t := by simpa [surely, Formula.leaves, Formula.leavesOf] using hl
    subst hgoal
    refine ⟨(ground_goalOf ht).plain, fun c _ n hn => ?_⟩
    cases hn
  have hproves : th.proves (.leaf sure) = true := by
    refine (h th _ sure rfl (.addRule (.empty none) hbook) rfl hground rfl ground_sure).mpr ?_
    have hwithin : Within s.allFacts [r] (1 + 1) sure.atom := by
      refine within_succ (by omega) ⟨r, by simp, _, hcond, sure, by simp [hconcl], id, rfl, ?_⟩
      simp [surely, Formula.Holds, Formula.HoldsAny, Formula.HoldsAll]
    exact hwithin
  obtain ⟨c, hc⟩ := Theory.proves_iff.mp hproves
  change (th.proveLeaf (1 + 1) [] sure).value = _ at hc
  have hother : (goalOf t).text ≠ sure.text := by
    intro htext
    have hgoal := (ground_goalOf ht).text_injective ground_sure htext
    simp [goalOf, sure] at hgoal
  have hends : (th.proveLeaf (0 + 1) [sure.text] (goalOf t)).Ends :=
    ends_of_proves_sure (ground_goalOf ht) rfl hcond hc
  exact exists_bestFact_of_ends th (by simpa using hother) hends

/-- **If proofs are complete over a store, it is exact.** -/
theorem exact_of_completeOver {s : Store} (h : CompleteOver s) : s.Exact := by
  intro t ht
  obtain ⟨b, hb⟩ := exists_bestFact h ht
  refine ⟨b, hb, ?_⟩
  -- without rules, the first level is for the look-up only
  let th : Theory := { store := s, config := { maxProofDepth := 1 } }
  have hproves : th.proves (.leaf (goalOf t)) = true ↔ Within s.allFacts [] 1 (goalOf t).atom :=
    h th {} (goalOf t) rfl (.empty none) rfl (by simp) rfl (ground_goalOf ht)
  have hattempt : th.proves (.leaf (goalOf t)) = true ↔
      (b.filter fun f => decide (Existence.possible ≤ f.existence)).isSome = true := by
    rw [Theory.proves_iff]
    show (∃ c, (th.proveLeaf (0 + 1) [] (goalOf t)).value = .ok (some c)) ↔ _
    rw [proveLeaf_goalOf 0 rfl hb]
    cases b.filter fun f => decide (Existence.possible ≤ f.existence) with
    | none => simp
    | some f => simp
  rw [← Option.isSome_filter, ← hattempt, hproves, within_one]
  refine exists_congr fun f => and_congr_right fun _ => ?_
  rw [and_comm]
  exact and_congr_left fun _ => Fact.atom_eq_iff

/-- **Proofs of ground goals are complete over the exact stores and no others, and with that over
every store that is reached without a wrap of the counter.** -/
theorem completeOver_iff (s : Store) :
    (CompleteOver s ↔ s.Exact) ∧ (Store.Reached Store.Unwrapped s → CompleteOver s) := by
  refine ⟨⟨exact_of_completeOver, completeOver_of_exact⟩, fun hs => ?_⟩
  exact completeOver_of_exact (Store.coherent_of_reached hs).exact

/-- Kinship goes both ways, and starts with parents. -/
def kinship : RuleBook :=
  ((RuleBook.extract {} [
    ⟨"swapped", some (.implies (.leaf ⟨"kin", [.hole "y", .hole "x"]⟩)
      (.leaf ⟨"kin", [.hole "x", .hole "y"]⟩))⟩,
    ⟨"parent", some (.implies (.leaf ⟨"parent", [.hole "x", .hole "y"]⟩)
      (.leaf ⟨"kin", [.hole "x", .hole "y"]⟩))⟩]).toOption.getD ({}, [])).1

/-- That Ann is kin to Tom takes two steps, of which the first rule alone would go in circles. -/
theorem completeOver_iff_kinship :
    let goal := goalOf ⟨"Ann", "kin", "Tom"⟩
    let t : Theory := { store := parents, rules := kinship.rules }
    Store.Reached Store.Unwrapped parents ∧ kinship.Reached ∧
      (∀ r ∈ kinship.rules, r.Ground) ∧ goal.Ground ∧
      (t.atDepth 3).proves (.leaf goal) = true ∧
      (∃ h < 3, Derivation parents.allFacts kinship.rules goal.atom h) ∧
      ¬ ∃ h < 2, Derivation parents.allFacts kinship.rules goal.atom h := by
  intro goal t
  have hs : Store.Reached Store.Unwrapped parents := by
    unfold parents
    refine .step _ (.step _ (.make (n := 2) rfl) ?_) ?_
    all_goals decide +kernel
  have hbook : kinship.Reached :=
    .extract (.empty none) (Outcome.eq_ok_of_isOk (by decide +kernel))
  have hrules : ∀ r ∈ kinship.rules, r.Ground := by decide +kernel
  have hgoal : goal.Ground := by decide +kernel
  have hcomplete := (completeOver_iff parents).2 hs
  have hthree : (t.atDepth 3).proves (.leaf goal) = true := by decide +kernel
  have htwo : (t.atDepth 2).proves (.leaf goal) = false := by decide +kernel
  refine ⟨hs, hbook, hrules, hgoal, hthree, ?_, ?_⟩
  · exact (hcomplete (t.atDepth 3) kinship goal rfl hbook rfl hrules rfl hgoal).mp hthree
  · intro hlow
    have hproves :=
      (hcomplete (t.atDepth 2) kinship goal rfl hbook rfl hrules rfl hgoal).mpr hlow
    rw [htwo] at hproves
    cases hproves

/-- After a wrap, a goal is proved that has no derivation of any height: the look-up of its triple
gives the fact whose id the triple was given. -/
theorem underived_after_wrap :
    let goal := goalOf ⟨"x", "p", "y"⟩
    Store.Reached (fun _ => True) wrapped ∧ goal.Ground ∧
      Theory.proves { store := wrapped } (.leaf goal) = true ∧
      (¬ ∃ h, Derivation wrapped.allFacts [] goal.atom h) ∧ ¬ CompleteOver wrapped := by
  intro goal
  have hs : Store.Reached (fun _ => True) wrapped := by
    unfold wrapped
    exact .step _ (.step _ (.make (n := 2) rfl) trivial) trivial
  have hgoal : goal.Ground := by decide +kernel
  have hproves : Theory.proves { store := wrapped } (.leaf goal) = true := by
    rw [wrapped_eq]
    decide +kernel
  have hnone : ¬ ∃ h, Derivation wrapped.allFacts [] goal.atom h := by
    rintro ⟨h, hder⟩
    rcases hder.step with ⟨f, hf, -, hatom⟩ | ⟨-, r, hr, -⟩
    · have hall : ∀ f ∈ wrapped.allFacts, f.atom.op = "q" := by
        rw [wrapped_eq]
        decide +kernel
      have hop : f.atom.op = "p" := congrArg Atom.op hatom
      rw [hall f hf] at hop
      exact absurd hop (by decide)
    · cases hr
  refine ⟨hs, hgoal, hproves, hnone, fun hcomplete => ?_⟩
  obtain ⟨h, -, hder⟩ :=
    (hcomplete { store := wrapped } {} goal rfl (.empty none) rfl (by simp) rfl hgoal).mp
      hproves
  exact hnone ⟨h, hder⟩

end Proof

end KnowledgeBase
