/-!
# The 64-bit Mersenne twister

The generator behind every seeded vector and permutation; a seed fixes its whole output.
-/

namespace KnowledgeBase

structure Twister where
  /-- the words of the state -/
  words : Array UInt64
  /-- how many of them were drawn since the last twist -/
  used : Nat

namespace Twister

def size : Nat := 312
def offset : Nat := 156

/-! ### Seeding -/

/-- The state words from the `i`-th on, after the word `last`. -/
def fill : (remaining i : Nat) → (last : UInt64) → Array UInt64 → Array UInt64
  | 0, _, _, words => words
  | remaining + 1, i, last, words =>
    let w := (6364136223846793005 : UInt64) * (last ^^^ (last >>> 62)) + UInt64.ofNat i
    fill remaining (i + 1) w (words.push w)

def ofSeed (seed : UInt64) : Twister :=
  ⟨fill (size - 1) 1 seed #[seed], size⟩

/-! ### Drawing -/

/-- Renews the `i`-th word from its neighbour and the word half the state away. -/
def renew (words : Array UInt64) (i : Nat) : Array UInt64 :=
  let upper := words.getD i 0 &&& 0xffffffff80000000
  let lower := words.getD ((i + 1) % size) 0 &&& 0x7fffffff
  let x := upper ||| lower
  let mixed := (x >>> 1) ^^^ (if x &&& 1 = 0 then 0 else 0xb5026f5aa96619e9)
  words.setIfInBounds i (words.getD ((i + offset) % size) 0 ^^^ mixed)

/-- Renews every word in turn. -/
def twist (words : Array UInt64) : Array UInt64 :=
  (List.range size).foldl renew words

def temper (y : UInt64) : UInt64 :=
  let y := y ^^^ ((y >>> 29) &&& 0x5555555555555555)
  let y := y ^^^ ((y <<< 17) &&& 0x71d67fffeda60000)
  let y := y ^^^ ((y <<< 37) &&& 0xfff7eee000000000)
  y ^^^ (y >>> 43)

def next (t : Twister) : UInt64 × Twister :=
  let t := if t.used < size then t else ⟨twist t.words, 0⟩
  (temper (t.words.getD t.used 0), { t with used := t.used + 1 })

/-- The next words of the output, the earliest last. -/
def drawAux : Nat → Twister → List UInt64 → List UInt64
  | 0, _, drawn => drawn
  | n + 1, t, drawn =>
    let (w, t) := t.next
    drawAux n t (w :: drawn)

/-- The first `n` words that a seed gives. -/
def draw (seed : UInt64) (n : Nat) : List UInt64 :=
  (drawAux n (ofSeed seed) []).reverse

end Twister

end KnowledgeBase
