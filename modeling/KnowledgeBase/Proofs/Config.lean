import KnowledgeBase.Config
import KnowledgeBase.Proofs.Json
import KnowledgeBase.Proofs.Outcome
import KnowledgeBase.Proofs.Precision
import KnowledgeBase.Proofs.Value

/-!
# Configurations read and written

A configuration is what the settings of a value are one by one, up to the checks that follow.

* `Config.ofValue_eq_ok`: the configuration that is read from a value;
* `Config.ofValue_report`: what is written is read back;
* `Config.sizes_faceValue_iff`: a size is its integer modulo `2 ^ 64`, so that a negative one is
  another number;
* `Config.acceptsSize_negative`: which negative sizes pass the checks.
-/

namespace KnowledgeBase

/-! ### One setting -/

namespace Value

variable {α : Type} {v w : Value} {read : Value → Option α} {name : String} {a d : α}

theorem setting_of_field (hw : v.field? name = some w) (ha : read w = some a) :
    v.setting read name d = .ok a := by
  unfold setting
  rw [hw]
  dsimp only
  rw [ha]

theorem read_of_setting (h : v.setting read name d = .ok a) (hw : v.field? name = some w) :
    read w = some a := by
  unfold setting at h
  rw [hw] at h
  dsimp only at h
  split at h
  · rename_i ha
    cases h
    exact ha
  · cases h

/-- A negative integer that fits is not zero as a word. -/
theorem ofInt_ne_zero {n : ℤ} (hlow : -2 ^ 63 ≤ n) (hneg : n < 0) : UInt64.ofInt n ≠ 0 := by
  intro hzero
  have hmod := toNat_ofInt n
  rw [hzero, UInt64.toNat_zero] at hmod
  omega

/-- The number of bits of a word divides `2 ^ 64`. -/
theorem ofInt_mod_eq_zero {n : ℤ} : UInt64.ofInt n % 64 = 0 ↔ 64 ∣ n := by
  have hmod := toNat_ofInt n
  have hbits : (64 : UInt64).toNat = 64 := rfl
  rw [← UInt64.toNat_inj, UInt64.toNat_mod, UInt64.toNat_zero, hbits]
  omega

theorem word?_ofNat (w : UInt64) : word? (.ofNat w.toNat) = some w :=
  congrArg some (ofInt_toNat w)

theorem single?_single (x : Float32) : single? (.single x) = some x :=
  congrArg some (Precision.narrow_widen x)

end Value

/-! ### Thresholds -/

namespace Thresholds

variable {t u : Thresholds} {v : Value}

/-- The thresholds by the names of their settings. -/
def parts : List (String × (Thresholds → Float32)) := [
  ("confidence_decay", confidenceDecay),
  ("direct_match", directMatch),
  ("condition_confidence", conditionConfidence),
  ("default_confidence", defaultConfidence),
  ("transitive_decay", transitiveDecay),
  ("composition_confidence", compositionConfidence),
  ("inheritance_confidence", inheritanceConfidence),
  ("analogy_discount", analogyDiscount),
  ("abduction_score", abductionScore)]

theorem forall_parts {P : String × (Thresholds → Float32) → Prop} : (∀ p ∈ parts, P p) ↔
    P ("confidence_decay", confidenceDecay) ∧ P ("direct_match", directMatch) ∧
      P ("condition_confidence", conditionConfidence) ∧
      P ("default_confidence", defaultConfidence) ∧ P ("transitive_decay", transitiveDecay) ∧
      P ("composition_confidence", compositionConfidence) ∧
      P ("inheritance_confidence", inheritanceConfidence) ∧
      P ("analogy_discount", analogyDiscount) ∧ P ("abduction_score", abductionScore) := by
  simp [parts]

theorem override_of_parts (hv : v.isRecord = true)
    (h : ∀ p ∈ parts, v.setting Value.single? p.1 (p.2 t) = .ok (p.2 u)) :
    t.override v = .ok u := by
  obtain ⟨h1, h2, h3, h4, h5, h6, h7, h8, h9⟩ := forall_parts.mp h
  unfold override
  simp only [hv, h1, h2, h3, h4, h5, h6, h7, h8, h9]
  rfl

/-- Thresholds that are written replace all others. -/
theorem override_report (t u : Thresholds) : t.override u.report = .ok u := by
  refine override_of_parts rfl ?_
  have hfields : ∀ p ∈ parts, u.report.field? p.1 = some (.single (p.2 u)) :=
    forall_parts.mpr ⟨rfl, rfl, rfl, rfl, rfl, rfl, rfl, rfl, rfl⟩
  exact fun p hp => Value.setting_of_field (hfields p hp) (Value.single?_single _)

end Thresholds

namespace Config

variable {v : Value} {c : Config}

/-- The sizes by the names of their settings. -/
def sizes : List (String × (Config → UInt64)) := [
  ("geometry", geometry),
  ("dimensions", dimensions),
  ("fractal_max_size", fractalMaxSize),
  ("recursion_horizon", recursionHorizon),
  ("max_proof_depth", maxProofDepth),
  ("forward_chain_iterations", forwardChainIterations)]

/-- The flags by the names of their settings. -/
def flags : List (String × (Config → Bool)) := [
  ("closed_world", closedWorld),
  ("use_level_optimization", useLevelOptimization),
  ("strict_level_pruning", strictLevelPruning)]

theorem forall_sizes {P : String × (Config → UInt64) → Prop} : (∀ p ∈ sizes, P p) ↔
    P ("geometry", geometry) ∧ P ("dimensions", dimensions) ∧
      P ("fractal_max_size", fractalMaxSize) ∧ P ("recursion_horizon", recursionHorizon) ∧
      P ("max_proof_depth", maxProofDepth) ∧
      P ("forward_chain_iterations", forwardChainIterations) := by
  simp [sizes]

theorem forall_flags {P : String × (Config → Bool) → Prop} : (∀ p ∈ flags, P p) ↔
    P ("closed_world", closedWorld) ∧ P ("use_level_optimization", useLevelOptimization) ∧
      P ("strict_level_pruning", strictLevelPruning) := by
  simp [flags]

/-- The thresholds that a value asks for, under a strategy. -/
def thresholdsOf (v : Value) (s : Strategy) : Except Fault Thresholds :=
  match v.field? "thresholds" with
  | none => .ok (.ofStrategy s)
  | some t => (Thresholds.ofStrategy s).override t

/-- Every setting of a value is what a configuration has. -/
structure ReadFrom (v : Value) (c : Config) : Prop where
  isRecord : v.isRecord = true
  strategy : v.setting Value.text? "strategy" Strategy.dense.name = .ok c.strategy.name
  sizes : ∀ p ∈ sizes, v.setting Value.word? p.1 (p.2 {}) = .ok (p.2 c)
  flags : ∀ p ∈ flags, v.setting Value.bool? p.1 (p.2 {}) = .ok (p.2 c)
  orthogonal : v.setting Value.single? "orthogonal_threshold" ({} : Config).orthogonalThreshold =
    .ok c.orthogonalThreshold
  thresholds : thresholdsOf v c.strategy = .ok c.thresholds

theorem ofName?_name (s : Strategy) : Strategy.ofName? s.name = some s := by
  cases s <;> rfl

theorem name_of_ofName? {name : String} {s : Strategy} (h : Strategy.ofName? name = some s) :
    name = s.name := by
  unfold Strategy.ofName? at h
  split at h
  · rename_i hname
    cases h
    exact hname
  · split at h
    · rename_i hname
      cases h
      exact hname
    · cases h

/-- The last checks of a configuration, whose strategy was asked for by name. -/
def checked (name : String) (c : Config) : Except Fault Config := do
  if (Strategy.ofName? name).isNone then refuse (.unknownStrategy name)
  match c.fault? with
  | some why => refuse why
  | none => return c

theorem checked_eq_ok {name : String} {c' : Config} :
    checked name c = .ok c' ↔ (∃ s, Strategy.ofName? name = some s) ∧ c.fault? = none ∧ c = c' := by
  unfold checked
  cases hname : Strategy.ofName? name with
  | none => simp [refuse, bind, Except.bind]
  | some s =>
    cases hfault : c.fault? with
    | some why => simp [refuse]
    | none => simp [pure, Except.pure]

theorem ofValue_eq (h : v.isRecord = true) : ofValue v = (do
    let name ← v.setting Value.text? "strategy" Strategy.dense.name
    let strategy := (Strategy.ofName? name).getD .dense
    let c : Config := {
      strategy
      geometry := ← v.setting Value.word? "geometry" 2048
      dimensions := ← v.setting Value.word? "dimensions" 64
      fractalMaxSize := ← v.setting Value.word? "fractal_max_size" 500
      recursionHorizon := ← v.setting Value.word? "recursion_horizon" 10
      maxProofDepth := ← v.setting Value.word? "max_proof_depth" 12
      forwardChainIterations := ← v.setting Value.word? "forward_chain_iterations" 100
      closedWorld := ← v.setting Value.bool? "closed_world" false
      useLevelOptimization := ← v.setting Value.bool? "use_level_optimization" false
      strictLevelPruning := ← v.setting Value.bool? "strict_level_pruning" false
      orthogonalThreshold := ← v.setting Value.single? "orthogonal_threshold" 0.55
      thresholds := ← thresholdsOf v strategy }
    checked name c) := by
  unfold ofValue thresholdsOf
  rw [if_pos h]
  cases v.field? "thresholds" <;> rfl

theorem ofValue_eq_ok : ofValue v = .ok c ↔ ReadFrom v c ∧ c.fault? = none := by
  constructor
  · intro h
    have hrecord : v.isRecord = true := by
      by_contra hnot
      unfold ofValue at h
      rw [if_neg hnot] at h
      cases h
    rw [ofValue_eq hrecord] at h
    obtain ⟨name, hname, h⟩ := Outcome.bind_eq_ok.mp h
    obtain ⟨_, h1, h⟩ := Outcome.bind_eq_ok.mp h
    obtain ⟨_, h2, h⟩ := Outcome.bind_eq_ok.mp h
    obtain ⟨_, h3, h⟩ := Outcome.bind_eq_ok.mp h
    obtain ⟨_, h4, h⟩ := Outcome.bind_eq_ok.mp h
    obtain ⟨_, h5, h⟩ := Outcome.bind_eq_ok.mp h
    obtain ⟨_, h6, h⟩ := Outcome.bind_eq_ok.mp h
    obtain ⟨_, h7, h⟩ := Outcome.bind_eq_ok.mp h
    obtain ⟨_, h8, h⟩ := Outcome.bind_eq_ok.mp h
    obtain ⟨_, h9, h⟩ := Outcome.bind_eq_ok.mp h
    obtain ⟨_, horthogonal, h⟩ := Outcome.bind_eq_ok.mp h
    obtain ⟨_, hthresholds, h⟩ := Outcome.bind_eq_ok.mp h
    obtain ⟨⟨s, hs⟩, hfault, rfl⟩ := checked_eq_ok.mp h
    refine ⟨⟨hrecord, ?_, ?_, ?_, horthogonal, hthresholds⟩, hfault⟩
    · rw [hname, hs, name_of_ofName? hs]
      rfl
    · exact forall_sizes.mpr ⟨h1, h2, h3, h4, h5, h6⟩
    · exact forall_flags.mpr ⟨h7, h8, h9⟩
  · rintro ⟨h, hfault⟩
    obtain ⟨h1, h2, h3, h4, h5, h6⟩ := forall_sizes.mp h.sizes
    obtain ⟨h7, h8, h9⟩ := forall_flags.mp h.flags
    rw [ofValue_eq h.isRecord]
    refine Outcome.bind_eq_ok.mpr ⟨_, h.strategy, ?_⟩
    simp only [ofName?_name, Option.getD_some]
    refine Outcome.bind_eq_ok.mpr ⟨_, h1, Outcome.bind_eq_ok.mpr ⟨_, h2, ?_⟩⟩
    refine Outcome.bind_eq_ok.mpr ⟨_, h3, Outcome.bind_eq_ok.mpr ⟨_, h4, ?_⟩⟩
    refine Outcome.bind_eq_ok.mpr ⟨_, h5, Outcome.bind_eq_ok.mpr ⟨_, h6, ?_⟩⟩
    refine Outcome.bind_eq_ok.mpr ⟨_, h7, Outcome.bind_eq_ok.mpr ⟨_, h8, ?_⟩⟩
    refine Outcome.bind_eq_ok.mpr ⟨_, h9, Outcome.bind_eq_ok.mpr ⟨_, h.orthogonal, ?_⟩⟩
    refine Outcome.bind_eq_ok.mpr ⟨_, h.thresholds, ?_⟩
    exact checked_eq_ok.mpr ⟨⟨_, ofName?_name _⟩, hfault, rfl⟩

/-! ### There and back -/

theorem readFrom_report (c : Config) : ReadFrom c.report c where
  isRecord := rfl
  strategy := Value.setting_of_field rfl rfl
  sizes := by
    have hfields : ∀ p ∈ sizes, c.report.field? p.1 = some (.ofNat (p.2 c).toNat) :=
      forall_sizes.mpr ⟨rfl, rfl, rfl, rfl, rfl, rfl⟩
    exact fun p hp => Value.setting_of_field (hfields p hp) (Value.word?_ofNat _)
  flags := by
    have hfields : ∀ p ∈ flags, c.report.field? p.1 = some (.bool (p.2 c)) :=
      forall_flags.mpr ⟨rfl, rfl, rfl⟩
    exact fun p hp => Value.setting_of_field (hfields p hp) rfl
  orthogonal := Value.setting_of_field rfl (Value.single?_single _)
  thresholds := Thresholds.override_report _ _

/-- **A configuration that was read is written as a value that is read as the same one.** -/
theorem ofValue_report (h : ofValue v = .ok c) : ofValue c.report = .ok c :=
  ofValue_eq_ok.mpr ⟨readFrom_report c, (ofValue_eq_ok.mp h).2⟩

/-- Sparse vectors, with one threshold of their own. -/
theorem ofValue_report_fractal :
    let v : Value := .record [("dimensions", .integer 4096), ("strategy", .text "fractal-semantic"),
      ("thresholds", .record [("direct_match", .real 0.75)])]
    let c : Config := {
      dimensions := 4096
      strategy := .fractal
      thresholds := { Thresholds.ofStrategy .fractal with directMatch := 0.75 } }
    ofValue v = .ok c ∧ ofValue c.report = .ok c := by
  intro v c
  have hread : ofValue v = .ok c := Outcome.eq_ok_of_toOption (by decide +kernel)
  exact ⟨hread, ofValue_report hread⟩

/-! ### Sizes -/

/-- Every size that is written as an integer is that integer. -/
def FaceValue (v : Value) (c : Config) : Prop :=
  ∀ p ∈ sizes, ∀ n, v.field? p.1 = some (.integer n) → ((p.2 c).toNat : ℤ) = n

theorem ReadFrom.size_eq {p : String × (Config → UInt64)} {n : ℤ} (h : ReadFrom v c)
    (hp : p ∈ Config.sizes) (hn : v.field? p.1 = some (.integer n)) : p.2 c = UInt64.ofInt n := by
  have hread : Value.word? (.integer n) = some (p.2 c) :=
    Value.read_of_setting (h.sizes p hp) hn
  exact (Option.some.inj hread).symm

/-- **Sizes are integers modulo `2 ^ 64`**, so that they are what was written exactly if none of
them was negative. -/
theorem sizes_faceValue_iff (hv : v.Bounded) (h : ofValue v = .ok c) :
    (∀ p ∈ sizes, ∀ n, v.field? p.1 = some (.integer n) → ((p.2 c).toNat : ℤ) = n % 2 ^ 64) ∧
      (FaceValue v c ↔ ∀ p ∈ sizes, ∀ n, v.field? p.1 = some (.integer n) → 0 ≤ n) := by
  have hmod : ∀ p ∈ sizes, ∀ n, v.field? p.1 = some (.integer n) →
      ((p.2 c).toNat : ℤ) = n % 2 ^ 64 := by
    intro p hp n hn
    rw [(ofValue_eq_ok.mp h).1.size_eq hp hn, Value.toNat_ofInt]
  refine ⟨hmod, forall₂_congr fun p hp => forall₂_congr fun n hn => ?_⟩
  obtain ⟨hlow, hhigh⟩ := Value.bounded_integer.mp (hv.field? hn)
  rw [hmod p hp n hn]
  omega

/-- The largest integer of 64 bits without a sign. -/
theorem sizes_faceValue_largest :
    let v : Value := .record [("recursion_horizon", .integer 18446744073709551615)]
    let c : Config := { recursionHorizon := 18446744073709551615 }
    v.Bounded ∧ ofValue v = .ok c ∧ FaceValue v c := by
  intro v c
  have hv : v.Bounded := .record (by simp [Value.bounded_integer])
  have hread : ofValue v = .ok c := Outcome.eq_ok_of_toOption (by decide +kernel)
  refine ⟨hv, hread, (sizes_faceValue_iff hv hread).2.mpr ?_⟩
  refine forall_sizes.mpr ⟨?_, ?_, ?_, ?_, ?_, ?_⟩ <;> rintro n ⟨⟩
  decide

/-- One negative size is accepted, and is the largest word. -/
theorem negative_dimensions :
    let v : Value := .record [("dimensions", .integer (-1))]
    let c : Config := { dimensions := 18446744073709551615 }
    v.Bounded ∧ ofValue v = .ok c ∧ ¬ FaceValue v c := by
  intro v c
  have hv : v.Bounded := .record (by simp [Value.bounded_integer])
  have hread : ofValue v = .ok c := Outcome.eq_ok_of_toOption (by decide +kernel)
  refine ⟨hv, hread, fun hface => ?_⟩
  exact absurd (hface ("dimensions", dimensions) (by simp [sizes]) (-1) rfl) (by decide)

/-- What the last checks leave. -/
theorem fault?_eq_none : c.fault? = none ↔
    (c.geometry ≠ 0 ∧ c.geometry % 64 = 0) ∧ c.dimensions ≠ 0 ∧ c.fractalMaxSize ≠ 0 ∧
      ¬ (c.orthogonalThreshold ≤ 0.5 ∨ 1.0 ≤ c.orthogonalThreshold) := by
  unfold fault?
  split_ifs <;> simp <;> tauto

/-- Some configuration with a size of this name and value is accepted. -/
def AcceptsSize (name : String) (n : ℤ) : Prop :=
  ∃ v c, v.Bounded ∧ ofValue v = .ok c ∧ v.field? name = some (.integer n)

theorem acceptsSize_of_fault {name : String} {n : ℤ} (hn : (Value.integer n).Bounded)
    (h : ReadFrom (.record [(name, .integer n)]) c) (hfault : c.fault? = none) :
    AcceptsSize name n :=
  ⟨_, c, .record (by simpa using hn), ofValue_eq_ok.mpr ⟨h, hfault⟩, by simp [Value.field?]⟩

/-- **A negative size is accepted in every setting, but as a geometry only if it is a multiple of
the bits of a word.** -/
theorem acceptsSize_negative {n : ℤ} (hlow : -2 ^ 63 ≤ n) (hneg : n < 0) :
    ∀ p ∈ sizes, (AcceptsSize p.1 n ↔ (p.1 = "geometry" → 64 ∣ n)) := by
  have hn : (Value.integer n).Bounded := Value.bounded_integer.mpr ⟨hlow, by omega⟩
  have hpos := Value.ofInt_ne_zero hlow hneg
  have hfault : ({} : Config).fault? = none := by decide +kernel
  obtain ⟨hgeometry, hdimensions, hfractal, hband⟩ := fault?_eq_none.mp hfault
  refine fun p hp => ⟨?_, ?_⟩
  · rintro ⟨v, c, -, h, hfield⟩ hname
    obtain ⟨hread, hfault⟩ := ofValue_eq_ok.mp h
    have hsize : c.geometry = UInt64.ofInt n :=
      hread.size_eq (p := ("geometry", geometry)) List.mem_cons_self (hname ▸ hfield)
    exact Value.ofInt_mod_eq_zero.mp (hsize ▸ (fault?_eq_none.mp hfault).1.2)
  · -- the setting alone, in an otherwise empty record
    revert p
    refine forall_sizes.mpr ⟨
      fun hwords => acceptsSize_of_fault (c := { geometry := .ofInt n }) hn ?_
        (fault?_eq_none.mpr
          ⟨⟨hpos, Value.ofInt_mod_eq_zero.mpr (hwords rfl)⟩, hdimensions, hfractal, hband⟩),
      fun _ => acceptsSize_of_fault (c := { dimensions := .ofInt n }) hn ?_
        (fault?_eq_none.mpr ⟨hgeometry, hpos, hfractal, hband⟩),
      fun _ => acceptsSize_of_fault (c := { fractalMaxSize := .ofInt n }) hn ?_
        (fault?_eq_none.mpr ⟨hgeometry, hdimensions, hpos, hband⟩),
      fun _ => acceptsSize_of_fault (c := { recursionHorizon := .ofInt n }) hn ?_ hfault,
      fun _ => acceptsSize_of_fault (c := { maxProofDepth := .ofInt n }) hn ?_ hfault,
      fun _ => acceptsSize_of_fault (c := { forwardChainIterations := .ofInt n }) hn ?_ hfault⟩
    all_goals exact ⟨rfl, rfl, forall_sizes.mpr ⟨rfl, rfl, rfl, rfl, rfl, rfl⟩,
      forall_flags.mpr ⟨rfl, rfl, rfl⟩, rfl, rfl⟩

end Config

end KnowledgeBase
