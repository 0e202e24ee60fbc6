import KnowledgeBase.Config
import KnowledgeBase.Hypervector.Sparse

/-!
# Vector algebras

One interface to dense and sparse vectors.  An algebra refuses the vectors of the other one.
-/

namespace KnowledgeBase

inductive Hypervector where
  | dense (v : Dense)
  | sparse (v : Sparse)
  deriving DecidableEq

def Hypervector.report : Hypervector → Value
  | dense v => v.report
  | sparse v => v.report

/-- A vocabulary entry with its similarity to a query. -/
structure Ranked where
  name : String
  similarity : Float32
  deriving Repr, DecidableEq

namespace Ranked

/-- The most similar entries of a vocabulary, earlier entries first among equals. -/
def top {α : Type} (similarity : α → Except Fault Float32) (vocabulary : List (String × α))
    (k : Nat) : Except Fault (List Ranked) := do
  let ranked ← vocabulary.mapM fun e => do return (⟨e.1, ← similarity e.2⟩ : Ranked)
  return (ranked.mergeSort fun a b => !decide (a.similarity < b.similarity)).take k

def report (r : Ranked) : Value :=
  .record [("name", .text r.name), ("similarity", .single r.similarity)]

end Ranked

/-- The distance that goes with a similarity. -/
def distanceOf (similarity : Float32) : Float32 := 1.0 - similarity

structure Algebra where
  strategy : Strategy
  /-- bits of a dense vector, or exponents of a sparse one -/
  size : Nat
  threshold : Float32 := 0.55

namespace Algebra

def make (strategy : Strategy) (size : Nat) (threshold : Float32) : Except Fault Algebra := do
  match strategy with
  | .dense => Dense.checkGeometry size
  | .fractal => if size = 0 then refuse .noSparseSize
  return ⟨strategy, size, threshold⟩

/-- The algebra of a name. -/
def ofName (name : String) (size : Nat) (threshold : Float32) : Except Fault Algebra :=
  match Strategy.ofName? name with
  | some s => make s size threshold
  | none => refuse (.unknownStrategy name)

/-- The algebra of a configuration. -/
def ofConfig (c : Config) : Except Fault Algebra :=
  let size := match c.strategy with
    | .dense => c.geometry
    | .fractal => c.fractalMaxSize
  make c.strategy size.toNat c.orthogonalThreshold

/-- Unbinding gives back the bound vector bit for bit. -/
def exactInverse (a : Algebra) : Bool := a.strategy == .dense

/-! ### Operands -/

def asDense : Hypervector → Except Fault Dense
  | .dense v => .ok v
  | .sparse _ => refuse .sparseForDense

def asSparse : Hypervector → Except Fault Sparse
  | .sparse v => .ok v
  | .dense _ => refuse .denseForSparse

/-! ### Operations -/

def zero (a : Algebra) : Except Fault Hypervector :=
  match a.strategy with
  | .dense => (Dense.zero a.size).map .dense
  | .fractal => .ok (.sparse (Sparse.zero a.size))

def random (a : Algebra) (seed : UInt64) : Except Fault Hypervector :=
  match a.strategy with
  | .dense => (Dense.random a.size seed).map .dense
  | .fractal => (Sparse.random a.size seed).map .sparse

def ofTerm (a : Algebra) (name : String) (theory : String) : Except Fault Hypervector :=
  match a.strategy with
  | .dense => (Dense.ofName a.size name theory).map .dense
  | .fractal => (Sparse.ofName a.size name theory).map .sparse

def bind (a : Algebra) (x y : Hypervector) : Except Fault Hypervector :=
  match a.strategy with
  | .dense => do return .dense (← (← asDense x).bind (← asDense y))
  | .fractal => do return .sparse (← (← asSparse x).bind (← asSparse y))

def bindAll (a : Algebra) (vs : List Hypervector) : Except Fault Hypervector :=
  match a.strategy with
  | .dense => do return .dense (← Dense.bindAll (← vs.mapM asDense))
  | .fractal => do return .sparse (← Sparse.bindAll (← vs.mapM asSparse))

def bundle (a : Algebra) (vs : List Hypervector) : Except Fault Hypervector :=
  match a.strategy with
  | .dense => do return .dense (← Dense.bundle (← vs.mapM asDense) none)
  | .fractal => do return .sparse (← Sparse.bundle (← vs.mapM asSparse))

def similarity (a : Algebra) (x y : Hypervector) : Except Fault Float32 :=
  match a.strategy with
  | .dense => do (← asDense x).similarity (← asDense y)
  | .fractal => do (← asSparse x).similarity (← asSparse y)

def isOrthogonal (a : Algebra) (x y : Hypervector) : Except Fault Bool :=
  match a.strategy with
  | .dense => do (← asDense x).isOrthogonal (← asDense y) a.threshold
  | .fractal => do (← asSparse x).isOrthogonal (← asSparse y) a.threshold

/-- The vector of a rule: its condition bound to its conclusion. -/
def ofRule (a : Algebra) (condition conclusion : String) : Except Fault Hypervector := do
  a.bind (← a.ofTerm condition "default") (← a.ofTerm conclusion "default")

end Algebra

end KnowledgeBase
