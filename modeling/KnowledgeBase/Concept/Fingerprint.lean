import KnowledgeBase.Concept.Vector

/-!
# Fingerprints

A locality key of a point: the bits of its first eight components, interleaved plane by plane from
the most significant one, and Gray coded.
-/

namespace KnowledgeBase.Fingerprint

/-- How many components a fingerprint covers. -/
def covered : Nat := 8

/-- A component moved to the range of a byte; a missing one counts as zero. -/
def coordinate (v : ConceptVector) (i : Nat) : Nat :=
  ((v.getD i Component.zero).val + 128).toNat

/-- The bits of eight bytes, least significant first: bit `8 * p + 7 - i` is bit `p` of byte `i`. -/
def planes (byte : Nat → Nat) : List Bool :=
  (List.range 64).map fun k => (byte (7 - k % 8)).testBit (k / 8)

def interleave (byte : Nat → Nat) : UInt64 :=
  UInt64.ofNat (BitVec.ofBoolListLE (planes byte)).toNat

/-- Neighbouring numbers differ in one bit of their codes. -/
def gray (n : UInt64) : UInt64 :=
  n ^^^ (n >>> 1)

end Fingerprint

/-- The fingerprint of a point. -/
def ConceptVector.fingerprint (v : ConceptVector) : UInt64 :=
  Fingerprint.gray (Fingerprint.interleave (Fingerprint.coordinate v))

end KnowledgeBase
