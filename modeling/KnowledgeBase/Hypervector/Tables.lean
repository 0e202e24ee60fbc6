import KnowledgeBase.Hypervector.Permutation
import Std.Data.TreeMap

/-!
# Tables that are kept

Building the table of a relation takes a draw for every position, so a permuter builds each table
once, when it is first asked for, and keeps it under the relation and the size.
-/

namespace KnowledgeBase

/-- A permuter with the tables that it has built so far. -/
structure TabledPermuter where
  permuter : Permuter := {}
  /-- by relation and size -/
  tables : Std.TreeMap (String × Nat) Permutation lexOrd.compare := ∅

namespace TabledPermuter

def register (p : TabledPermuter) (relation : String) : TabledPermuter :=
  { p with permuter := p.permuter.register relation }

/-- The permutation of a relation for operands of a size: the one that is kept, or a new one that is
kept from now on. -/
def table? (p : TabledPermuter) (relation : String) (size : Nat) :
    TabledPermuter × Option Permutation :=
  if p.permuter.has relation then
    match p.tables[(relation, size)]? with
    | some t => (p, some t)
    | none =>
      let t := Permutation.ofRelation relation size
      ({ p with tables := p.tables.insert (relation, size) t }, some t)
  else (p, none)

/-- Moves an operand of a size by the table of a relation. -/
def move {α : Type} (p : TabledPermuter) (relation : String) (size : Nat)
    (f : Permutation → Except Fault α) : TabledPermuter × Except Fault (Option α) :=
  let (p, t) := p.table? relation size
  (p, t.mapM f)

def permute (p : TabledPermuter) (relation : String) (v : ConceptVector) :
    TabledPermuter × Except Fault (Option ConceptVector) :=
  p.move relation v.length (·.apply v)

def inversePermute (p : TabledPermuter) (relation : String) (v : ConceptVector) :
    TabledPermuter × Except Fault (Option ConceptVector) :=
  p.move relation v.length (·.invert v)

def permuteBits (p : TabledPermuter) (relation : String) (v : Dense) :
    TabledPermuter × Except Fault (Option Dense) :=
  p.move relation v.geometry (·.applyBits v)

def inversePermuteBits (p : TabledPermuter) (relation : String) (v : Dense) :
    TabledPermuter × Except Fault (Option Dense) :=
  p.move relation v.geometry (·.invertBits v)

end TabledPermuter

end KnowledgeBase
