import KnowledgeBase.Fault
import KnowledgeBase.Hash
import KnowledgeBase.Hypervector.Dense
import Std.Data.TreeSet

/-!
# Sparse vectors

Sets of exponents, bounded in size.  A set that grows beyond the bound is sampled: the exponents
with the least hashes stay.  Binding combines exponents pairwise, bundling joins the sets, and
similarity is the Jaccard index.
-/

namespace KnowledgeBase

structure Sparse where
  maxSize : Nat
  exponents : List UInt64
  ascending : exponents.Pairwise (· < ·)
  deriving DecidableEq

namespace Sparse

/-! ### Sets of exponents -/

/-- A set of exponents, in ascending order. -/
def ofSet (maxSize : Nat) (es : Std.TreeSet UInt64) : Sparse where
  maxSize := maxSize
  exponents := es.toList
  ascending := es.ordered_toList.imp compareOfLessAndEq_eq_lt.1

def ofList (maxSize : Nat) (es : List UInt64) : Sparse := ofSet maxSize (.ofList es)

/-- Exponents are sampled by hash, and by value where hashes agree. -/
def hashOrder (a b : UInt64) : Bool :=
  Hash.splitMix a < Hash.splitMix b || (Hash.splitMix a == Hash.splitMix b && a ≤ b)

/-- The set of exponents, or its sample of the largest size that is allowed. -/
def sample (maxSize : Nat) (es : List UInt64) : Sparse :=
  let all := ofList maxSize es
  if all.exponents.length ≤ maxSize then all
  else ofList maxSize ((all.exponents.mergeSort hashOrder).take maxSize)

def size (v : Sparse) : Nat := v.exponents.length
def contains (v : Sparse) (e : UInt64) : Bool := v.exponents.contains e

/-! ### Construction -/

def zero (maxSize : Nat) : Sparse := ofList maxSize []

/-- Draws until there are `size` exponents. -/
def collect (size : Nat) : (draws : Nat) → Twister → Std.TreeSet UInt64 → Std.TreeSet UInt64
  | 0, _, es => es
  | draws + 1, t, es =>
    if size ≤ es.size then es
    else
      let (e, t) := t.next
      collect size draws t (es.insert e)

/-- The first exponents that a seed gives, as many as are allowed.  The generator all but never
repeats a word; twice as many draws as exponents are made at most, and once there are as many
exponents as are allowed further draws would change nothing. -/
def random (maxSize : Nat) (seed : UInt64) : Except Fault Sparse :=
  if maxSize = 0 then refuse .noSparseSize
  else .ok (ofSet maxSize (collect maxSize (2 * maxSize) (Twister.ofSeed seed) ∅))

def ofName (maxSize : Nat) (name theory : String) : Except Fault Sparse :=
  random maxSize (Dense.nameSeed name theory)

/-! ### Binding -/

/-- How many pairs of exponents are combined at most. -/
def bindCap : Nat := 50000

def checkSame (a b : Sparse) : Except Fault Unit :=
  if a.maxSize = b.maxSize then .ok () else .error (.geometry a.maxSize b.maxSize)

/-- The order of operands: by size, then by exponents. -/
def precedes (a b : Sparse) : Bool :=
  a.size < b.size || (a.size == b.size && decide (a.exponents < b.exponents))

/-- The first `cap` combined pairs, row by row. -/
def productsUpTo (b : List UInt64) : (cap : Nat) → List UInt64 → List UInt64
  | _, [] => []
  | cap, x :: xs =>
    let row := (b.take cap).map (x ^^^ ·)
    if cap ≤ row.length then row else row ++ productsUpTo b (cap - row.length) xs

/-- The combined pairs, up to the cap. -/
def products (a b : Sparse) : List UInt64 := productsUpTo b.exponents bindCap a.exponents

/-- Binding.  The operand that precedes comes first, so the cap cuts the same pairs either way. -/
def bind (a b : Sparse) : Except Fault Sparse := do
  a.checkSame b
  return sample a.maxSize (if b.precedes a then products b a else products a b)

def bindAll : List Sparse → Except Fault Sparse
  | [] => refuse .bindOfNothing
  | v :: vs => vs.foldlM bind v

/-! ### Bundling -/

def bundle (vs : List Sparse) : Except Fault Sparse :=
  match vs with
  | [] => refuse .bundleOfNothing
  | [v] => .ok v
  | v :: _ => do
    vs.forM v.checkSame
    return sample v.maxSize (vs.flatMap Sparse.exponents)

/-! ### Similarity -/

/-- How many exponents two vectors share. -/
def shared (a b : Sparse) : Nat :=
  let es : Std.TreeSet UInt64 := .ofList b.exponents
  a.exponents.countP es.contains

/-- The Jaccard index; two empty sets are alike. -/
def similarity (a b : Sparse) : Except Fault Float32 := do
  a.checkSame b
  if a.exponents.isEmpty && b.exponents.isEmpty then return 1.0
  let n := a.shared b
  return n.toFloat32 / (a.size + b.size - n).toFloat32

/-- Unrelated sets share almost nothing. -/
def isOrthogonal (a b : Sparse) (threshold : Float32) : Except Fault Bool := do
  return decide ((← a.similarity b) < 1.0 - threshold)

def report (v : Sparse) : Value :=
  .record [
    ("max_size", .ofNat v.maxSize),
    ("exponents", .texts (v.exponents.map Hash.hex))]

end Sparse

end KnowledgeBase
