import KnowledgeBase.Fault
import KnowledgeBase.Hash
import KnowledgeBase.Hypervector.Twister
import KnowledgeBase.Hypervector.Word
import KnowledgeBase.Value

/-!
# Dense vectors

Bit vectors of a fixed geometry.  Binding is exclusive or, bundling a majority per bit, and
similarity falls with the Hamming distance.
-/

namespace KnowledgeBase

structure Dense where
  /-- the number of bits -/
  geometry : Nat
  /-- the bits, the lowest ones in the first word -/
  words : Array UInt64
  size_words : words.size = geometry / Word.size
  deriving DecidableEq

namespace Dense

/-! ### Bits -/

def bit (v : Dense) (i : Nat) : Bool :=
  Word.bit (v.words.getD (i / Word.size) 0) (i % Word.size)

/-- The vector whose `k`-th word is given. -/
def ofWords (geometry : Nat) (f : Nat → UInt64) : Dense :=
  ⟨geometry, Array.ofFn fun k : Fin (geometry / Word.size) => f k, Array.size_ofFn⟩

/-- The vector with these bits. -/
def ofBits (geometry : Nat) (f : Nat → Bool) : Dense :=
  ofWords geometry fun k => Word.ofBits fun i => f (Word.size * k + i)

def popcount (v : Dense) : Nat := v.words.foldl (fun n w => n + Word.count w) 0

/-- Sets or clears one bit. -/
def setBit (v : Dense) (i : Nat) (on : Bool) : Dense where
  geometry := v.geometry
  words := v.words.modify (i / Word.size) fun w => Word.setBit w (i % Word.size) on
  size_words := by simpa using v.size_words

/-- Sets or clears some bits. -/
def setBits (v : Dense) (positions : List Nat) (on : Bool) : Dense :=
  positions.foldl (fun v i => v.setBit i on) v

/-! ### Construction -/

/-- A geometry is a positive multiple of the word size. -/
def checkGeometry (geometry : Nat) : Except Fault Unit :=
  if geometry = 0 ∨ geometry % Word.size ≠ 0 then refuse (.denseGeometry geometry) else .ok ()

def blank (geometry : Nat) : Dense := ofWords geometry fun _ => 0

def zero (geometry : Nat) : Except Fault Dense := do
  checkGeometry geometry
  return blank geometry

/-- The words that a seed gives, as many as a geometry asks for. -/
def drawWords (geometry : Nat) (seed : UInt64) : Array UInt64 :=
  (Twister.draw seed (geometry / Word.size)).toArray

/-- The vector of the words that a seed gives. -/
def random (geometry : Nat) (seed : UInt64) : Except Fault Dense := do
  checkGeometry geometry
  let drawn := drawWords geometry seed
  return ofWords geometry fun k => drawn.getD k 0

/-- A word of the stamp of a name: eight of its bytes, which are repeated without end. -/
def stampWord (bytes : List UInt8) (w : Nat) : UInt64 :=
  let bytes := if bytes.isEmpty then [0] else bytes
  (List.range 8).foldl
    (fun word b => word ||| (bytes.getD ((8 * w + b) % bytes.length) 0).toUInt64 <<< UInt64.ofNat (8 * b)) 0

/-- The seed of a name within a theory. -/
def nameSeed (name theory : String) : UInt64 :=
  (Hash.djb2 (theory ++ ":" ++ name)).toUInt64

/-- The vector of a name: a stamp of four words, repeated and varied by the words of the name's
seed. -/
def ofName (geometry : Nat) (name theory : String) : Except Fault Dense := do
  checkGeometry geometry
  let bytes := Hash.bytes name
  let stamp := (List.range 4).map (stampWord bytes)
  let drawn := drawWords geometry (nameSeed name theory)
  return ofWords geometry fun k => drawn.getD k 0 ^^^ stamp.getD (k % 4) 0

/-! ### Binding -/

/-- Both vectors have one geometry. -/
def checkSame (a b : Dense) : Except Fault Unit :=
  if a.geometry = b.geometry then .ok () else .error (.geometry a.geometry b.geometry)

/-- Exclusive or of vectors of one geometry. -/
def xor (a b : Dense) (h : a.geometry = b.geometry) : Dense where
  geometry := a.geometry
  words := Array.zipWith (· ^^^ ·) a.words b.words
  size_words := by rw [Array.size_zipWith, a.size_words, b.size_words, h, Nat.min_self]

/-- Binding; it undoes itself, so it serves for unbinding as well. -/
def bind (a b : Dense) : Except Fault Dense :=
  if h : a.geometry = b.geometry then .ok (a.xor b h) else .error (.geometry a.geometry b.geometry)

def bindAll : List Dense → Except Fault Dense
  | [] => refuse .bindOfNothing
  | v :: vs => vs.foldlM bind v

/-! ### Bundling -/

/-- How many of the vectors have a bit, counted in 32 bits. -/
def tally (vs : List Dense) (i : Nat) : UInt32 :=
  vs.foldl (fun n v => if v.bit i then n + 1 else n) 0

/-- The majority at one bit; a tie takes the tie-breaker's bit, or one without any. -/
def majority (vs : List Dense) (tie : Option Dense) (i : Nat) : Bool :=
  let twice := 2 * (tally vs i).toNat
  if vs.length < twice then true
  else if twice = vs.length then (tie.map (·.bit i)).getD true
  else false

def bundle (vs : List Dense) (tie : Option Dense) : Except Fault Dense :=
  match vs with
  | [] => refuse .bundleOfNothing
  | [v] => .ok v
  | v :: _ => do
    vs.forM v.checkSame
    tie.forM v.checkSame
    return ofBits v.geometry (majority vs tie)

/-! ### Similarity -/

def hamming (a b : Dense) : Except Fault Nat := do
  return (← a.bind b).popcount

/-- Between zero and one, and one for equal vectors only. -/
def similarity (a b : Dense) : Except Fault Float32 := do
  return 1.0 - (← a.hamming b).toFloat32 / a.geometry.toFloat32

/-- Unrelated vectors agree on about half of their bits. -/
def isOrthogonal (a b : Dense) (threshold : Float32) : Except Fault Bool := do
  let s ← a.similarity b
  return decide (s < threshold) && decide (1.0 - threshold < s)

/-- The words as hexadecimal text, the lowest one first. -/
def report (v : Dense) : Value :=
  .record [
    ("geometry", .ofNat v.geometry),
    ("words", .text (String.join (v.words.toList.map Hash.hex)))]

end Dense

end KnowledgeBase
