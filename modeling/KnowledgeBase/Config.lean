import KnowledgeBase.Fault
import KnowledgeBase.Value

/-!
# Configuration

The settings of an engine, how they are read from a structured value, and how they are written
back.  Sizes are 64-bit words; an integer outside their range is taken modulo `2 ^ 64`.
-/

namespace KnowledgeBase

/-! ### Vector algebras -/

/-- The two hypervector algebras. -/
inductive Strategy where
  | dense
  | fractal
  deriving Repr, DecidableEq, Inhabited

namespace Strategy

def name : Strategy → String
  | dense => "dense-binary"
  | fractal => "fractal-semantic"

def ofName? (s : String) : Option Strategy :=
  if s = dense.name then some dense
  else if s = fractal.name then some fractal
  else none

end Strategy

/-! ### Thresholds -/

/-- Confidences of the kinds of conclusion. -/
structure Thresholds where
  /-- per step of unification -/
  confidenceDecay : Float32 := 0.95
  /-- a fact found verbatim -/
  directMatch : Float32 := 0.95
  /-- negation as failure -/
  conditionConfidence : Float32 := 0.9
  /-- conclusions of default rules -/
  defaultConfidence : Float32 := 0.8
  /-- per transitive edge -/
  transitiveDecay : Float32 := 0.95
  /-- a composition rule that fires -/
  compositionConfidence : Float32 := 0.9
  /-- a property inherited from a type -/
  inheritanceConfidence : Float32 := 0.95
  /-- an accepted analogy -/
  analogyDiscount : Float32 := 0.7
  /-- the combined score that an abductive guess needs -/
  abductionScore : Float32 := 0.7
  deriving Repr, DecidableEq, Inhabited

/-- Sparse vectors recover bound components less faithfully than dense ones. -/
def Thresholds.ofStrategy : Strategy → Thresholds
  | .dense => {}
  | .fractal =>
    { confidenceDecay := 0.9, directMatch := 0.9, analogyDiscount := 0.6, abductionScore := 0.5 }

/-! ### Settings -/

structure Config where
  /-- bits of a dense vector -/
  geometry : UInt64 := 2048
  /-- components of a concept vector -/
  dimensions : UInt64 := 64
  strategy : Strategy := .dense
  /-- exponents of a sparse vector -/
  fractalMaxSize : UInt64 := 500
  /-- depth of transitive and composition search -/
  recursionHorizon : UInt64 := 10
  /-- depth of backward chaining -/
  maxProofDepth : UInt64 := 12
  /-- cap on saturation -/
  forwardChainIterations : UInt64 := 100
  /-- a negation succeeds when its inside fails -/
  closedWorld : Bool := false
  useLevelOptimization : Bool := false
  strictLevelPruning : Bool := false
  orthogonalThreshold : Float32 := 0.55
  thresholds : Thresholds := {}
  deriving Repr, DecidableEq, Inhabited

namespace Value

/-! ### Reading settings -/

def text? : Value → Option String
  | text s => some s
  | _ => none

def bool? : Value → Option Bool
  | bool b => some b
  | _ => none

/-- A number as a word. -/
def word? : Value → Option UInt64
  | integer n => some (UInt64.ofInt n)
  | real x => some x.toUInt64
  | _ => none

/-- A number in single precision; a boolean counts as one or zero. -/
def single? : Value → Option Float32
  | bool b => some (if b then 1.0 else 0.0)
  | integer n => some (if n < 0 then -(-n).toNat.toUInt64.toFloat32 else n.toNat.toUInt64.toFloat32)
  | real x => some (Precision.narrow x)
  | _ => none

/-- The setting of this name, or what it is by default; a setting of the wrong type is refused. -/
def setting {α : Type} (v : Value) (read : Value → Option α) (name : String) (default : α) :
    Except Fault α :=
  match v.field? name with
  | none => .ok default
  | some w =>
    match read w with
    | some a => .ok a
    | none => refuse .configFieldType

end Value

namespace Thresholds

/-- Thresholds with those of a record put in. -/
def override (t : Thresholds) (v : Value) : Except Fault Thresholds := do
  unless v.isRecord do refuse .configFieldType
  let read := v.setting Value.single?
  return {
    confidenceDecay := ← read "confidence_decay" t.confidenceDecay
    directMatch := ← read "direct_match" t.directMatch
    conditionConfidence := ← read "condition_confidence" t.conditionConfidence
    defaultConfidence := ← read "default_confidence" t.defaultConfidence
    transitiveDecay := ← read "transitive_decay" t.transitiveDecay
    compositionConfidence := ← read "composition_confidence" t.compositionConfidence
    inheritanceConfidence := ← read "inheritance_confidence" t.inheritanceConfidence
    analogyDiscount := ← read "analogy_discount" t.analogyDiscount
    abductionScore := ← read "abduction_score" t.abductionScore }

def report (t : Thresholds) : Value :=
  .record [
    ("confidence_decay", .single t.confidenceDecay),
    ("direct_match", .single t.directMatch),
    ("condition_confidence", .single t.conditionConfidence),
    ("default_confidence", .single t.defaultConfidence),
    ("transitive_decay", .single t.transitiveDecay),
    ("composition_confidence", .single t.compositionConfidence),
    ("inheritance_confidence", .single t.inheritanceConfidence),
    ("analogy_discount", .single t.analogyDiscount),
    ("abduction_score", .single t.abductionScore)]

/-- The confidence of a chain, which decays with every edge. -/
def overEdges (t : Thresholds) (edges : Nat) : Float32 :=
  (Float.pow t.transitiveDecay.toFloat edges.toFloat).toFloat32

end Thresholds

namespace Config

/-- The first fault of the settings, if any. -/
def fault? (c : Config) : Option InputFault :=
  if c.geometry = 0 ∨ c.geometry % 64 ≠ 0 then some (.engineGeometry c.geometry.toNat)
  else if c.dimensions = 0 then some .noDimensions
  else if c.fractalMaxSize = 0 then some .noFractalSize
  else if c.orthogonalThreshold ≤ 0.5 ∨ 1.0 ≤ c.orthogonalThreshold then some .thresholdOutOfBand
  else none

/-- Reads a configuration.  Absent settings keep their defaults, and thresholds start from those of
the strategy; a wrong type is reported before an unknown strategy, and that before a bad value. -/
def ofValue (v : Value) : Except Fault Config := do
  unless v.isRecord do refuse .configNotAnObject
  let d : Config := {}
  let name ← v.setting Value.text? "strategy" d.strategy.name
  let strategy := (Strategy.ofName? name).getD .dense
  let size := v.setting Value.word?
  let flag := v.setting Value.bool?
  let start := Thresholds.ofStrategy strategy
  let c : Config := {
    strategy
    geometry := ← size "geometry" d.geometry
    dimensions := ← size "dimensions" d.dimensions
    fractalMaxSize := ← size "fractal_max_size" d.fractalMaxSize
    recursionHorizon := ← size "recursion_horizon" d.recursionHorizon
    maxProofDepth := ← size "max_proof_depth" d.maxProofDepth
    forwardChainIterations := ← size "forward_chain_iterations" d.forwardChainIterations
    closedWorld := ← flag "closed_world" d.closedWorld
    useLevelOptimization := ← flag "use_level_optimization" d.useLevelOptimization
    strictLevelPruning := ← flag "strict_level_pruning" d.strictLevelPruning
    orthogonalThreshold := ← v.setting Value.single? "orthogonal_threshold" d.orthogonalThreshold
    thresholds := ← match v.field? "thresholds" with
      | none => pure start
      | some t => start.override t }
  if (Strategy.ofName? name).isNone then refuse (.unknownStrategy name)
  match c.fault? with
  | some why => refuse why
  | none => return c

def report (c : Config) : Value :=
  let size (w : UInt64) : Value := .ofNat w.toNat
  .record [
    ("geometry", size c.geometry),
    ("dimensions", size c.dimensions),
    ("strategy", .text c.strategy.name),
    ("fractal_max_size", size c.fractalMaxSize),
    ("recursion_horizon", size c.recursionHorizon),
    ("max_proof_depth", size c.maxProofDepth),
    ("forward_chain_iterations", size c.forwardChainIterations),
    ("closed_world", .bool c.closedWorld),
    ("use_level_optimization", .bool c.useLevelOptimization),
    ("strict_level_pruning", .bool c.strictLevelPruning),
    ("orthogonal_threshold", .single c.orthogonalThreshold),
    ("thresholds", c.thresholds.report)]

end Config

end KnowledgeBase
