import KnowledgeBase.Concept.Vector
import KnowledgeBase.Hypervector.Dense
import Std.Data.TreeSet

/-!
# Permutations of components

Each relation has a fixed shuffle of positions, seeded from its name.  The same table moves the
bits of dense vectors and the components of concept vectors.
-/

namespace KnowledgeBase

/-- The position that each component moves to, and the position that it comes from.  In a table of
up to `Permutation.maxSize` entries every position fits a 32-bit word. -/
structure Permutation where
  forward : Array Nat
  inverse : Array Nat
  deriving DecidableEq

namespace Permutation

/-- The largest size whose positions all fit 32-bit words. -/
def maxSize : Nat := UInt32.size

/-- Swaps positions from the last one down, each with one that a drawn word picks. -/
def shuffle : List UInt64 → (i : Nat) → Array Nat → Array Nat
  | [], _, table => table
  | w :: ws, i, table => shuffle ws (i - 1) (table.swapIfInBounds (i - 1) (w.toNat % i))

/-- The table that sends every entry of another one back to its index. -/
def invertTable (table : Array Nat) : Array Nat :=
  table.toList.zipIdx.foldl (fun acc (j, i) => acc.setIfInBounds j i) table

def ofSeed (size : Nat) (seed : UInt64) : Permutation :=
  let forward := shuffle (Twister.draw seed (size - 1)) size (Array.range size)
  ⟨forward, invertTable forward⟩

def ofRelation (relation : String) (size : Nat) : Permutation :=
  ofSeed size (Hash.djb2 ("permute:" ++ relation)).toUInt64

def size (p : Permutation) : Nat := p.forward.size

/-- Refuses operands of another size. -/
def check (p : Permutation) (n : Nat) : Except Fault Unit :=
  if n = p.size then .ok () else .error (.geometry p.size n)

/-! ### Moving components -/

/-- The vector whose `j`-th component is the one that the table names at `j`. -/
def pick (table : Array Nat) (v : ConceptVector) : ConceptVector :=
  let components := v.toArray
  table.toList.map fun i => components.getD i Component.zero

def apply (p : Permutation) (v : ConceptVector) : Except Fault ConceptVector := do
  p.check v.length
  return pick p.inverse v

def invert (p : Permutation) (v : ConceptVector) : Except Fault ConceptVector := do
  p.check v.length
  return pick p.forward v

/-! ### Moving bits -/

/-- The vector whose `j`-th bit is the one that the table names at `j`. -/
def pickBits (table : Array Nat) (v : Dense) : Dense :=
  Dense.ofBits v.geometry fun j => v.bit (table.getD j 0)

def applyBits (p : Permutation) (v : Dense) : Except Fault Dense := do
  p.check v.geometry
  return pickBits p.inverse v

def invertBits (p : Permutation) (v : Dense) : Except Fault Dense := do
  p.check v.geometry
  return pickBits p.forward v

end Permutation

/-! ### Relations that permute -/

/-- The relations that permute; every other one leaves its operand without an image. -/
structure Permuter where
  relations : Std.TreeSet String := ∅

namespace Permuter

def register (p : Permuter) (relation : String) : Permuter :=
  ⟨p.relations.insert relation⟩

def has (p : Permuter) (relation : String) : Bool := p.relations.contains relation

/-- The permutation of a relation for operands of a size. -/
def table? (p : Permuter) (relation : String) (size : Nat) : Option Permutation :=
  if p.has relation then some (Permutation.ofRelation relation size) else none

def permute (p : Permuter) (relation : String) (v : ConceptVector) :
    Except Fault (Option ConceptVector) :=
  (p.table? relation v.length).mapM (·.apply v)

def inversePermute (p : Permuter) (relation : String) (v : ConceptVector) :
    Except Fault (Option ConceptVector) :=
  (p.table? relation v.length).mapM (·.invert v)

def permuteBits (p : Permuter) (relation : String) (v : Dense) : Except Fault (Option Dense) :=
  (p.table? relation v.geometry).mapM (·.applyBits v)

def inversePermuteBits (p : Permuter) (relation : String) (v : Dense) :
    Except Fault (Option Dense) :=
  (p.table? relation v.geometry).mapM (·.invertBits v)

end Permuter

end KnowledgeBase
