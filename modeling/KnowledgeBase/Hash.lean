/-!
# Hashes

Deterministic hashes of the UTF-8 bytes of a text, the finaliser that orders exponents, and the
written form of a word.
-/

namespace KnowledgeBase.Hash

/-- The UTF-8 bytes of a text. -/
def bytes (s : String) : List UInt8 :=
  s.toUTF8.toList

/-- Multiply by 33, then fold the byte in; seeds vectors that are derived from a name. -/
def djb2 (s : String) : UInt32 :=
  (bytes s).foldl (fun h c => ((h <<< 5) + h) ^^^ c.toUInt32) 5381

/-- FNV-1a over 64 bits; identifies a rule by its text. -/
def fnv1a (s : String) : UInt64 :=
  (bytes s).foldl (fun h c => (h ^^^ c.toUInt64) * 0x100000001b3) 0xcbf29ce484222325

/-- The SplitMix64 finaliser; orders exponents for sampling. -/
def splitMix (x : UInt64) : UInt64 :=
  let z := x + 0x9e3779b97f4a7c15
  let z := (z ^^^ (z >>> 30)) * 0xbf58476d1ce4e5b9
  let z := (z ^^^ (z >>> 27)) * 0x94d049bb133111eb
  z ^^^ (z >>> 31)

/-! ### Written words -/

/-- The lower-case hexadecimal digit of a number below sixteen. -/
def hexDigit (n : Nat) : Char :=
  if n < 10 then Char.ofNat (48 + n) else Char.ofNat (87 + n)

/-- The number below sixteen that a hexadecimal digit of either case stands for. -/
def hexValue (c : Char) : Nat :=
  if c.isDigit then c.toNat - 48 else if 97 ≤ c.toNat then c.toNat - 87 else c.toNat - 55

/-- The sixteen hexadecimal digits of a word, most significant first. -/
def hex (w : UInt64) : String :=
  String.ofList ((List.range 16).map fun i => hexDigit (w.toNat >>> (4 * (15 - i)) % 16))

end KnowledgeBase.Hash
