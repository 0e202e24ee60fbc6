import KnowledgeBase.Proofs.Inference.Trails

/-!
# Defaults and their exceptions

A default rule goes by memberships twice: the subject is of the typical type, and it is of the type
of an exception.  Both are followed equally far, by one fact or by a chain within the horizon, and by
a chain only where memberships are transitive.  An exception that is further away does not count.

* `Inference.Member`, `Inference.Excepted`: memberships and exceptions as far as they are followed;
* `Inference.Governs`: the first default rule that applies to a goal;
* `Inference.byDefault_decides`: the answer by default;
* `Inference.exception_out_of_reach`: an exception beyond the horizon, and a type beyond one fact
  where memberships are not transitive;
* `Inference.member_iff_connects`: a horizon that leaves nothing out.
-/

namespace KnowledgeBase.Inference

open Chain

variable {i : Inference} {facts : List Fact} {goal : Triple} {term type exception : String}
  {d : DefaultRule}

/-! ### Memberships -/

theorem isDecisive_iff_certain {a : Answer} (h : a.truth = .certain ∨ a.truth = .unknown) :
    a.isDecisive = true ↔ a.truth = .certain := by
  rcases h with h | h <;> simp [Answer.isDecisive, h, Truth.isDecisive]

/-- A stated goal is connected by one fact. -/
theorem direct_certain_iff_connects :
    (direct facts goal).truth = .certain ↔ ∃ path, Connects facts goal path ∧ path.length = 1 := by
  rw [direct_certain_iff]
  simp only [Saturation.states_iff]
  constructor
  · rintro ⟨f, hf, hrel, hsubject, hobject⟩
    exact ⟨[f], ⟨List.cons_ne_nil _ _, by simp [hf, hrel], hsubject, hobject⟩, rfl⟩
  · rintro ⟨path, hpath, hlen⟩
    obtain ⟨f, rfl⟩ := List.length_eq_one_iff.mp hlen
    obtain ⟨hf, hrel⟩ := hpath.leads.stated f List.mem_cons_self
    obtain ⟨hsubject, hobject⟩ := hpath.leads.joined
    exact ⟨f, hf, hrel, hsubject, hobject⟩

/-- A term is of a type: by one stated membership, or by a chain of them within the horizon, if
memberships are registered as transitive. -/
def Member (i : Inference) (facts : List Fact) (term type : String) : Prop :=
  ∃ path, Connects facts ⟨term, Relation.isA, type⟩ path ∧
    (path.length = 1 ∨
      i.relations.isTransitive Relation.isA = true ∧ path.length ≤ i.horizon)

theorem isA_iff : i.isA facts term type = true ↔ i.Member facts term type := by
  -- neither method has an answer that is decisive without being certain
  have hdecisive : ∀ m : Method, m ≠ .byDefault →
      ((i.run facts ⟨term, Relation.isA, type⟩ i.horizon m).isDecisive = true ↔
        (i.run facts ⟨term, Relation.isA, type⟩ i.horizon m).truth = .certain) :=
    fun m hm => isDecisive_iff_certain (run_truth_eq_or hm)
  have hdirect := hdecisive .direct (by decide)
  have htransitive := hdecisive .transitive (by decide)
  rw [run, direct_certain_iff_connects] at hdirect
  rw [run, transitive_certain_iff_connects] at htransitive
  unfold isA Member
  rw [Bool.or_eq_true, hdirect, htransitive]
  constructor
  · rintro (⟨path, hpath, hone⟩ | ⟨htrans, path, hpath, hlen⟩)
    · exact ⟨path, hpath, .inl hone⟩
    · exact ⟨path, hpath, .inr ⟨htrans, hlen⟩⟩
  · rintro ⟨path, hpath, hone | ⟨htrans, hlen⟩⟩
    · exact .inl ⟨path, hpath, hone⟩
    · exact .inr ⟨htrans, path, hpath, hlen⟩

/-- **A horizon of as many edges as there are facts leaves no membership out**, however long the
chain to it is. -/
theorem member_iff_connects (h : i.relations.isTransitive Relation.isA = true)
    (hhorizon : facts.length ≤ i.horizon) :
    i.Member facts term type ↔ ∃ path, Connects facts ⟨term, Relation.isA, type⟩ path := by
  constructor
  · rintro ⟨path, hpath, -⟩
    exact ⟨path, hpath⟩
  · rintro ⟨path, hpath⟩
    obtain ⟨short, hshort, hlen⟩ := hpath.exists_short
    exact ⟨short, hshort, .inr ⟨h, hlen.trans hhorizon⟩⟩

/-- A term is an exception, up to spelling, or is of the type of one. -/
def Excepted (i : Inference) (facts : List Fact) (term exception : String) : Prop :=
  Text.fold term = Text.fold exception ∨ i.Member facts term exception

theorem isException_iff :
    i.isException facts term exception = true ↔ i.Excepted facts term exception := by
  unfold isException Excepted
  rw [Bool.or_eq_true, Text.same_iff, isA_iff]

/-! ### The rule for a goal -/

/-- A default rule speaks of the property and the value of a goal, and the subject is of its typical
type. -/
structure Applies (i : Inference) (facts : List Fact) (goal : Triple) (d : DefaultRule) : Prop where
  property : d.property = goal.relation
  value : Text.fold d.value = Text.fold goal.object
  member : i.Member facts goal.subject d.typicalType

/-- A default rule is the first one that applies to a goal. -/
structure Governs (i : Inference) (facts : List Fact) (goal : Triple) (d : DefaultRule) :
    Prop where
  applies : i.Applies facts goal d
  first : ∃ before after, i.relations.defaults = before ++ d :: after ∧
    ∀ e ∈ before, ¬ i.Applies facts goal e

/-- The rule that an answer by default goes by. -/
def ruleFor? (i : Inference) (facts : List Fact) (goal : Triple) : Option DefaultRule :=
  i.relations.defaults.find? fun d =>
    d.property == goal.relation && Text.same d.value goal.object
      && i.isA facts goal.subject d.typicalType

theorem applies_iff : (d.property == goal.relation && Text.same d.value goal.object
      && i.isA facts goal.subject d.typicalType) = true ↔ i.Applies facts goal d := by
  rw [Bool.and_eq_true, Bool.and_eq_true, beq_iff_eq, Text.same_iff, isA_iff]
  exact ⟨fun ⟨⟨hp, hv⟩, hm⟩ => ⟨hp, hv, hm⟩, fun h => ⟨⟨h.property, h.value⟩, h.member⟩⟩

theorem ruleFor?_eq_some_iff : i.ruleFor? facts goal = some d ↔ i.Governs facts goal d := by
  unfold ruleFor?
  rw [List.find?_eq_some_iff_append, applies_iff]
  simp only [Bool.not_eq_true', ← Bool.not_eq_true, applies_iff]
  exact ⟨fun ⟨happlies, hfirst⟩ => ⟨happlies, hfirst⟩, fun h => ⟨h.applies, h.first⟩⟩

theorem ruleFor?_eq_none_iff :
    i.ruleFor? facts goal = none ↔ ∀ d ∈ i.relations.defaults, ¬ i.Applies facts goal d := by
  unfold ruleFor?
  rw [List.find?_eq_none]
  simp only [applies_iff]

/-! ### The answer -/

theorem truth_of_no_rule (h : i.ruleFor? facts goal = none) :
    (i.byDefault facts goal).truth = .unknown := by
  unfold ruleFor? at h
  unfold byDefault
  dsimp only
  rw [h]
  rfl

/-- With a rule, the answer is decided by its exceptions. -/
theorem truth_of_rule (h : i.ruleFor? facts goal = some d) :
    ((∃ e ∈ d.exceptions, i.Excepted facts goal.subject e) ∧
      (i.byDefault facts goal).truth = .refuted ∧
      (i.byDefault facts goal).reason = "exception_applies") ∨
    ((∀ e ∈ d.exceptions, ¬ i.Excepted facts goal.subject e) ∧
      (i.byDefault facts goal).truth = .byDefault) := by
  unfold ruleFor? at h
  unfold byDefault
  dsimp only
  rw [h]
  dsimp only
  cases hfind : d.exceptions.find? (i.isException facts goal.subject) with
  | some e =>
    have he := List.find?_some hfind
    exact .inl ⟨⟨e, List.mem_of_find?_eq_some hfind, isException_iff.mp he⟩, rfl, rfl⟩
  | none =>
    refine .inr ⟨fun e he hexcepted => ?_, rfl⟩
    exact List.find?_eq_none.mp hfind e he (isException_iff.mpr hexcepted)

/-- **The first rule that applies decides**: the goal is refuted if the subject is one of its
exceptions, as far as memberships are followed, and holds by default otherwise.  Without such a rule
it stays open. -/
theorem byDefault_decides :
    ((i.byDefault facts goal).truth = .refuted ∧
        (i.byDefault facts goal).reason = "exception_applies" ↔
      ∃ d, i.Governs facts goal d ∧ ∃ e ∈ d.exceptions, i.Excepted facts goal.subject e) ∧
    ((i.byDefault facts goal).truth = .byDefault ↔
      ∃ d, i.Governs facts goal d ∧ ∀ e ∈ d.exceptions, ¬ i.Excepted facts goal.subject e) ∧
    ((i.byDefault facts goal).truth = .unknown ↔
      ∀ d ∈ i.relations.defaults, ¬ i.Applies facts goal d) := by
  simp only [← ruleFor?_eq_some_iff, ← ruleFor?_eq_none_iff]
  cases hrule : i.ruleFor? facts goal with
  | none => simp [truth_of_no_rule hrule]
  | some d =>
    rcases truth_of_rule hrule with ⟨hexcepted, htruth, hreason⟩ | ⟨hnone, htruth⟩
    · have hnot : ¬ ∀ e ∈ d.exceptions, ¬ i.Excepted facts goal.subject e := by
        obtain ⟨e, he, hexc⟩ := hexcepted
        exact fun hall => hall e he hexc
      simp [htruth, hreason, hexcepted, hnot]
    · have hnot : ¬ ∃ e ∈ d.exceptions, i.Excepted facts goal.subject e := by
        rintro ⟨e, he, hexc⟩
        exact hnone e he hexc
      simpa [htruth, hnot] using hnone

/-! ### Out of reach -/

/-- Birds fly, except penguins. -/
def birdsFly : DefaultRule := ⟨"birds_fly", "Bird", "CAN", "fly", ["Penguin"]⟩

def flying (r : Relations) : Inference := { relations := { r with defaults := [birdsFly] } }

/-- Ten ranks of penguins, between Pingu and all penguins. -/
def ranks : List String := ["R1", "R2", "R3", "R4", "R5", "R6", "R7", "R8", "R9", "R10"]

/-- Pingu is a bird, and one rank after the other up to a penguin. -/
def rankedFacts : List Fact :=
  { triple := ⟨"Pingu", "IS_A", "Bird"⟩ } ::
    ("Pingu" :: ranks).zipWith (fun a b => { triple := ⟨a, "IS_A", b⟩ }) (ranks ++ ["Penguin"])

/-- Tweety is a bird by way of canaries. -/
def canaryFacts : List Fact :=
  [{ triple := ⟨"Tweety", "IS_A", "Canary"⟩ }, { triple := ⟨"Canary", "IS_A", "Bird"⟩ }]

/-- **An exception is missed beyond the horizon**: Pingu is a penguin at eleven edges, where ten are
followed, and flies by default.  **A type is missed behind one fact** where memberships are not
registered as transitive: nothing is said of Tweety, who is a bird at two edges. -/
theorem exception_out_of_reach :
    ((flying .standard).Governs rankedFacts ⟨"Pingu", "CAN", "fly"⟩ birdsFly ∧
      "Penguin" ∈ birdsFly.exceptions ∧
      (∃ path, Connects rankedFacts ⟨"Pingu", Relation.isA, "Penguin"⟩ path ∧
        path.length = 11) ∧
      ((flying .standard).byDefault rankedFacts ⟨"Pingu", "CAN", "fly"⟩).truth = .byDefault) ∧
    (flying .bare).relations.defaults = [birdsFly] ∧
      (∃ path, Connects canaryFacts ⟨"Tweety", Relation.isA, birdsFly.typicalType⟩ path ∧
        path.length = 2 ∧ path.length ≤ (flying .bare).horizon) ∧
      ((flying .bare).byDefault canaryFacts ⟨"Tweety", "CAN", "fly"⟩).truth = .unknown := by
  have hranked : ∀ f ∈ rankedFacts, f.relation = Relation.isA := by decide +kernel
  have hcanary : ∀ f ∈ canaryFacts, f.relation = Relation.isA := by decide +kernel
  have hladder : Connects rankedFacts ⟨"Pingu", Relation.isA, "Penguin"⟩ rankedFacts.tail :=
    ⟨by decide +kernel, fun f hf => ⟨List.mem_of_mem_tail hf, hranked f (List.mem_of_mem_tail hf)⟩,
      by decide +kernel⟩
  have hway : Connects canaryFacts ⟨"Tweety", Relation.isA, birdsFly.typicalType⟩ canaryFacts :=
    ⟨by decide +kernel, fun f hf => ⟨hf, hcanary f hf⟩, by decide +kernel⟩
  exact ⟨⟨ruleFor?_eq_some_iff.mp (by decide +kernel), by decide, ⟨_, hladder, by decide +kernel⟩,
    by decide +kernel⟩, rfl, ⟨_, hway, rfl, by decide +kernel⟩, by decide +kernel⟩

end KnowledgeBase.Inference
