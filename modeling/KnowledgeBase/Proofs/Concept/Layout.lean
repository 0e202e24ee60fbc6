import KnowledgeBase.Proofs.Concept.Extent
import KnowledgeBase.Proofs.Steps
import Mathlib.Algebra.BigOperators.Fin
import Mathlib.Data.List.GetD

/-!
# Diamonds in bytes

A diamond keeps its bounds in bytes, and centre, radius, relevance mask and fingerprint beside them.
These are written when it is begun from a point, and again by another way whenever it is widened.

* `Layout`: a diamond as it is kept, and the steps that begin and widen it;
* `Layout.of`: the layout of a diamond;
* `ofVector_bytes`, `carries_update`: both ways of writing it agree with the diamond, and a diamond
  that is not widened is left as it is;
* `Layout.Derived`: what everything beside the bounds has to be;
* `diamond_of_seen`: the diamond of what was seen.
-/

namespace KnowledgeBase

/-! ### Bytes -/

namespace Component

def byte (c : Component) : Int8 := Int8.ofInt c.val

variable {c c' : Component}

@[simp] theorem toInt_byte (c : Component) : c.byte.toInt = c.val :=
  Int8.toInt_ofInt_of_le (by have := c.low; omega) (by have := c.high; omega)

theorem byte_inj : c.byte = c'.byte ↔ c = c' := by
  rw [← Int8.toInt_inj, toInt_byte, toInt_byte]
  exact ⟨Component.eq_of_val, congrArg val⟩

theorem byte_lt_byte : c.byte < c'.byte ↔ c.val < c'.val := by
  rw [Int8.lt_iff_toInt_lt, toInt_byte, toInt_byte]

theorem byte_bne_zero (c : Component) : (c.byte != 0) = (c.val != 0) := by
  have h : c.byte = 0 ↔ c.val = 0 := by
    rw [← Int8.toInt_inj, toInt_byte]
    rfl
  rw [Bool.eq_iff_iff, bne_iff_ne, bne_iff_ne, ne_eq, ne_eq, h]

end Component

/-- A point in bytes. -/
def ConceptVector.bytes (v : ConceptVector) : List Int8 := v.map Component.byte

theorem ConceptVector.getD_bytes (v : ConceptVector) (i : Nat) :
    v.bytes.getD i 0 = (v.getD i .zero).byte := by
  simp only [bytes, List.getD_eq_getElem?_getD, List.getElem?_map]
  cases v[i]? <;> rfl

/-! ### Layouts -/

/-- A diamond as it is kept. -/
structure Layout where
  lows : List Int8
  highs : List Int8
  center : List Int8
  radius : Int
  mask : Mask
  fingerprint : UInt64
  deriving DecidableEq

namespace Layout

/-- The fingerprint of bytes, each moved up in a machine word and cut down to a byte again. -/
def key (v : List Int8) : UInt64 :=
  Fingerprint.gray <| Fingerprint.interleave fun i =>
    (((v.getD i 0).toInt32 + 128).toInt % 256).toNat

/-- Begins a diamond with a point. -/
def ofVector (v : List Int8) : Layout where
  lows := v
  highs := v
  center := v
  radius := 0
  mask := v.map (· != 0)
  fingerprint := key v

def check (k : Layout) (v : List Int8) : Except Fault Unit :=
  if v.length ≠ k.center.length then .error (.geometry k.center.length v.length) else .ok ()

/-- Moves the bounds out to a point, and nothing else. -/
def stretch (k : Layout) (v : List Int8) : Layout :=
  { k with
    lows := List.zipWith (fun lo c => if c < lo then c else lo) k.lows v
    highs := List.zipWith (fun hi c => if hi < c then c else hi) k.highs v }

/-- The midpoint of two bytes, in a machine word. -/
def middle (lo hi : Int8) : Int32 := lo.toInt32 + (hi.toInt32 - lo.toInt32) / 2

/-- Writes what follows from the bounds. -/
def recompute (k : Layout) : Layout :=
  let center := List.zipWith (fun lo hi => (middle lo hi).toInt8) k.lows k.highs
  { k with
    center
    radius := (List.zipWith (fun lo hi => (hi.toInt32 - lo.toInt32).toInt) k.lows k.highs).sum
    mask := List.zipWith (fun lo hi => hi != lo || middle lo hi != 0) k.lows k.highs
    fingerprint := key center }

def stretchAll : List (List Int8) → Steps Layout Unit
  | [] => return
  | v :: vs => do
    modify (·.stretch v)
    stretchAll vs

/-- Widens a diamond by points, all of which are checked first. -/
def update (vs : List (List Int8)) : Steps Layout Unit := do
  Steps.ask fun k => vs.forM k.check
  stretchAll vs
  modify recompute

/-- The layout of a diamond. -/
def of (d : Diamond) : Layout where
  lows := d.lows.bytes
  highs := d.highs.bytes
  center := d.center.bytes
  radius := d.radius
  mask := d.mask
  fingerprint := d.fingerprint

variable {d d' : Diamond} {s : Side} {v : ConceptVector} {vs : List ConceptVector} {k : Layout}

/-! ### What follows from the bounds -/

/-- Numbers of the size at hand do not overflow. -/
theorem bmod_word {n : Int} (hlow : -1024 ≤ n) (hhigh : n ≤ 1024) : n.bmod (2 ^ 32) = n :=
  Int.bmod_eq_of_le (by omega) (by omega)

theorem toInt_width (s : Side) : (s.hi.byte.toInt32 - s.lo.byte.toInt32).toInt = s.width := by
  have hlo := s.lo.low
  have hlo' := s.lo.high
  have hhi := s.hi.low
  have hhi' := s.hi.high
  rw [Int32.toInt_sub, Int8.toInt_toInt32, Int8.toInt_toInt32, Component.toInt_byte,
    Component.toInt_byte]
  exact bmod_word (by omega) (by omega)

/-- The midpoint is rounded down. -/
theorem toInt_middle (s : Side) : (middle s.lo.byte s.hi.byte).toInt = s.center.val := by
  have hordered := s.ordered
  have hlo := s.lo.low
  have hlo' := s.lo.high
  have hhi' := s.hi.high
  have htwo : (2 : Int32).toInt = 2 := rfl
  -- a division is cut short toward zero, but a width is not negative
  have hhalf : s.width.tdiv 2 = s.width / 2 :=
    Int.tdiv_eq_ediv_of_nonneg (by unfold Side.width; omega)
  unfold middle
  rw [Int32.toInt_add, Int32.toInt_div, toInt_width, Int8.toInt_toInt32, Component.toInt_byte, htwo,
    hhalf, bmod_word (n := s.width / 2) (by unfold Side.width; omega) (by unfold Side.width; omega)]
  exact bmod_word (by unfold Side.width; omega) (by unfold Side.width; omega)

theorem toInt8_middle (s : Side) : (middle s.lo.byte s.hi.byte).toInt8 = s.center.byte := by
  have hlow := s.center.low
  have hhigh := s.center.high
  rw [← Int8.toInt_inj, Int32.toInt_toInt8, toInt_middle, Component.toInt_byte]
  exact Int.bmod_eq_of_le (by omega) (by omega)

theorem relevant_bytes (s : Side) :
    (s.hi.byte != s.lo.byte || middle s.lo.byte s.hi.byte != 0) = s.relevant := by
  have hbound : s.hi.byte = s.lo.byte ↔ s.lo.val = s.hi.val := by
    rw [← Int8.toInt_inj, Component.toInt_byte, Component.toInt_byte, eq_comm]
  have hcenter : middle s.lo.byte s.hi.byte = 0 ↔ s.center.val = 0 := by
    rw [← Int32.toInt_inj, toInt_middle]
    rfl
  unfold Side.relevant
  rw [Bool.eq_iff_iff, Bool.or_eq_true, Bool.or_eq_true, bne_iff_ne, bne_iff_ne, bne_iff_ne,
    bne_iff_ne, ne_eq, ne_eq, ne_eq, ne_eq, hbound, hcenter]

theorem key_bytes (v : ConceptVector) : key v.bytes = v.fingerprint := by
  have hbyte : ∀ c : Component,
      ((c.byte.toInt32 + 128).toInt % 256).toNat = (c.val + 128).toNat := by
    intro c
    have hlow := c.low
    have hhigh := c.high
    have hmove : (128 : Int32).toInt = 128 := rfl
    rw [Int32.toInt_add, Int8.toInt_toInt32, Component.toInt_byte, hmove,
      bmod_word (by omega) (by omega), Int.emod_eq_of_lt (by omega) (by omega)]
  unfold key ConceptVector.fingerprint
  congr 2
  funext i
  rw [v.getD_bytes, hbyte]
  rfl

/-- Rewriting all fields from the bounds gives the layout of the diamond. -/
theorem recompute_eq (hlows : k.lows = d.lows.bytes) (hhighs : k.highs = d.highs.bytes) :
    k.recompute = of d := by
  have hsides : ∀ {α : Type} (f : Int8 → Int8 → α),
      List.zipWith f k.lows k.highs = d.sides.map fun s => f s.lo.byte s.hi.byte := by
    intro α f
    rw [hlows, hhighs]
    simp only [ConceptVector.bytes, Diamond.lows, Diamond.highs, List.map_map, List.zipWith_map,
      List.zipWith_self, Function.comp_def]
  have hcenter : List.zipWith (fun lo hi => (middle lo hi).toInt8) k.lows k.highs =
      d.center.bytes := by
    simp only [hsides, toInt8_middle, ConceptVector.bytes, Diamond.center, List.map_map,
      Function.comp_def]
  have hradius : (List.zipWith (fun lo hi => (hi.toInt32 - lo.toInt32).toInt) k.lows k.highs).sum =
      d.radius := by
    simp only [hsides, toInt_width]
    rfl
  have hmask : List.zipWith (fun lo hi => hi != lo || middle lo hi != 0) k.lows k.highs =
      d.mask := by
    simp only [hsides, relevant_bytes, Diamond.mask]
  unfold recompute of
  dsimp only
  rw [hcenter, hradius, hmask, hlows, hhighs, key_bytes]
  rfl

/-- Beginning a diamond writes all fields as rewriting them would. -/
theorem ofVector_bytes (v : ConceptVector) : ofVector v.bytes = of (Diamond.ofVector v) := by
  have hcenter : ∀ c : Component, (Side.ofPoint c).center = c := by
    intro c
    refine Component.eq_of_val ?_
    simp [Side.center, Side.width, Side.ofPoint]
  have hpoint : ∀ f : Side → Component, (∀ c, f (.ofPoint c) = c) →
      (Diamond.ofVector v).sides.map f = v := by
    intro f hf
    simp [Diamond.ofVector, Function.comp_def, hf]
  have hradius : (Diamond.ofVector v).radius = 0 := by
    refine Diamond.total_eq_zero (List.forall_mem_map.mpr (List.forall_mem_map.mpr fun c _ => ?_))
    simp [Side.width, Side.ofPoint]
  have hmask : v.bytes.map (· != 0) = (Diamond.ofVector v).mask := by
    simp only [ConceptVector.bytes, Diamond.mask, Diamond.ofVector, List.map_map, Function.comp_def,
      Component.byte_bne_zero, Side.relevant, hcenter]
    simp [Side.ofPoint]
  have hfingerprint : key v.bytes = (Diamond.ofVector v).fingerprint := by
    rw [key_bytes, Diamond.fingerprint, Diamond.center, hpoint _ hcenter]
  unfold ofVector of
  rw [hmask, hfingerprint, hradius, Diamond.lows, Diamond.highs, Diamond.center,
    hpoint _ fun _ => rfl, hpoint _ fun _ => rfl, hpoint _ hcenter]

/-! ### Widening -/

theorem check_of (d : Diamond) (v : ConceptVector) : (of d).check v.bytes = d.check v := by
  have hlength : (of d).center.length = d.dimensions := by
    simp [of, ConceptVector.bytes, Diamond.center, Diamond.dimensions]
  have hpoint : v.bytes.length = v.length := List.length_map _
  unfold check Diamond.check
  rw [hlength, hpoint, ite_not]

/-- Moving a bound of every side in bytes is covering a point, if it is so for each side. -/
theorem zipWith_bytes {move : Int8 → Int8 → Int8} {bound : Side → Component}
    (h : ∀ s c, move (bound s).byte c.byte = (bound (s.cover c)).byte) (d : Diamond)
    (v : ConceptVector) : List.zipWith move (ConceptVector.bytes (d.sides.map bound)) v.bytes =
      ConceptVector.bytes ((d.cover v).sides.map bound) := by
  simp only [Diamond.cover, ConceptVector.bytes, List.zipWith_map, List.map_zipWith, List.map_map,
    Function.comp_apply, h]

/-- Stretching moves the bounds as covering a point does. -/
theorem lows_stretch (hlows : k.lows = d.lows.bytes) (v : ConceptVector) :
    (k.stretch v.bytes).lows = (d.cover v).lows.bytes := by
  unfold stretch
  rw [hlows]
  refine zipWith_bytes (fun s c => ?_) d v
  simp only [Side.cover, Component.byte_lt_byte]
  split <;> rfl

theorem highs_stretch (hhighs : k.highs = d.highs.bytes) (v : ConceptVector) :
    (k.stretch v.bytes).highs = (d.cover v).highs.bytes := by
  unfold stretch
  rw [hhighs]
  refine zipWith_bytes (fun s c => ?_) d v
  simp only [Side.cover, Component.byte_lt_byte]
  split <;> rfl

/-- Points stretch the bounds one after another. -/
theorem stretchAll_eq (hlows : k.lows = d.lows.bytes) (hhighs : k.highs = d.highs.bytes)
    (vs : List ConceptVector) : ∃ k', stretchAll (vs.map ConceptVector.bytes) k = .ok () k' ∧
      k'.lows = (vs.foldl Diamond.cover d).lows.bytes ∧
      k'.highs = (vs.foldl Diamond.cover d).highs.bytes := by
  induction vs generalizing k d with
  | nil => exact ⟨k, rfl, hlows, hhighs⟩
  | cons v vs ih => exact ih (lows_stretch hlows v) (highs_stretch hhighs v)

/-- **Widening writes all fields anew, or nothing**: it does to the layout what it does to the
diamond. -/
theorem carries_update (d : Diamond) (vs : List ConceptVector) :
    Steps.Carries Eq (update (vs.map ConceptVector.bytes)) (of d)
      ((d.update vs).map fun d' => (of d', ())) := by
  have hchecks : (vs.map ConceptVector.bytes).forM (of d).check = vs.forM d.check := by
    rw [List.forM_eq_forM, List.forM_eq_forM, List.forM_map]
    simp only [check_of]
  cases hcheck : vs.forM d.check with
  | error why =>
    rw [show d.update vs = .error why from Outcome.bind_eq_error.mpr (.inl hcheck)]
    have hask : Steps.ask (fun k : Layout => (vs.map ConceptVector.bytes).forM k.check) (of d) =
        .error why (of d) := Steps.ask_of_error (hchecks.trans hcheck)
    exact Steps.carries_of_error (Steps.bind_of_error hask) rfl
  | ok _ =>
    rw [show d.update vs = .ok (vs.foldl Diamond.cover d) from
      Outcome.bind_eq_ok.mpr ⟨_, hcheck, rfl⟩]
    obtain ⟨k', hstretch, hlows, hhighs⟩ := stretchAll_eq (k := of d) rfl rfl vs
    have hask : Steps.ask (fun k : Layout => (vs.map ConceptVector.bytes).forM k.check) (of d) =
        .ok () (of d) := Steps.ask_of_ok (hchecks.trans hcheck)
    refine Steps.carries_of_ok ((Steps.bind_of_ok hask).trans ?_) rfl
    refine (Steps.bind_of_ok hstretch).trans ?_
    show EStateM.Result.ok () k'.recompute = _
    rw [recompute_eq hlows hhighs]

/-! ### Ways to make a layout -/

/-- A diamond that is widened in place. -/
def updated (k : Layout) (vs : List ConceptVector) : Except Fault Layout :=
  match update (vs.map ConceptVector.bytes) k with
  | .ok _ k' => .ok k'
  | .error why _ => .error why

theorem updated_of (d : Diamond) (vs : List ConceptVector) :
    (of d).updated vs = (d.update vs).map of := by
  have h := (carries_update d vs).traces
  unfold updated
  cases hd : d.update vs with
  | error why =>
    rw [hd] at h
    rw [Steps.eq_error_of_answer h.answer]
    rfl
  | ok d' =>
    rw [hd] at h
    rw [Steps.eq_ok_of_answer h.answer, ← h.left]
    rfl

def begin : Beginning → Except Fault Layout
  | .vector v => .ok (ofVector v.bytes)
  | .examples v vs => (ofVector v.bytes).updated (v :: vs)

def grow (k : Layout) : Growth → Except Fault Layout
  | .update vs => k.updated vs
  | .expand v => k.updated [v]

/-- What is kept of a diamond that is made. -/
def make (m : Making) : Except Fault Layout := do
  m.growths.foldlM grow (← begin m.beginning)

theorem begin_eq (b : Beginning) : begin b = b.make.map of := by
  cases b with
  | vector v => exact congrArg Except.ok (ofVector_bytes v)
  | examples v vs =>
    show (ofVector v.bytes).updated (v :: vs) = _
    rw [ofVector_bytes]
    exact updated_of _ _

theorem grow_of (d : Diamond) (g : Growth) : grow (of d) g = (g.grow d).map of := by
  cases g with
  | update vs => exact updated_of d vs
  | expand v => exact updated_of d [v]

theorem foldlM_grow_of (d : Diamond) (gs : List Growth) :
    gs.foldlM grow (of d) = (gs.foldlM Growth.grow d).map of := by
  induction gs generalizing d with
  | nil => rfl
  | cons g gs ih =>
    rw [List.foldlM_cons, List.foldlM_cons, grow_of]
    cases g.grow d with
    | error why => rfl
    | ok d' => exact ih d'

/-- A diamond is kept as it is made. -/
theorem make_eq (m : Making) : make m = m.make.map of := by
  unfold make Making.make
  rw [begin_eq]
  cases m.beginning.make with
  | error why => rfl
  | ok d => exact foldlM_grow_of d m.growths

/-! ### What the fields are -/

/-- The numbers along a component. -/
def lo (k : Layout) (i : Nat) : Int := (k.lows.getD i 0).toInt
def hi (k : Layout) (i : Nat) : Int := (k.highs.getD i 0).toInt
def mid (k : Layout) (i : Nat) : Int := (k.center.getD i 0).toInt

/-- The fields beside the bounds are what they should be. -/
structure Derived (k : Layout) (n : Nat) : Prop where
  sizes : k.lows.length = n ∧ k.highs.length = n ∧ k.center.length = n ∧ k.mask.length = n
  midpoint : ∀ i < n, k.mid i = (k.lo i + k.hi i) / 2
  between : ∀ i < n, k.lo i ≤ k.mid i ∧ k.mid i ≤ k.hi i
  radius : k.radius = ∑ i ∈ Finset.range n, (k.hi i - k.lo i)
  mask : ∀ i < n, k.mask.getD i false = true ↔ k.lo i ≠ k.hi i ∨ k.mid i ≠ 0
  fingerprint : k.fingerprint = key k.center

theorem total_eq_sum (xs : List Int) :
    Diamond.total xs = ∑ i ∈ Finset.range xs.length, xs.getD i 0 := by
  rw [Finset.sum_range]
  simp only [List.getD_eq_getElem _ _ (Fin.isLt _)]
  exact (Fin.sum_univ_getElem xs).symm

theorem derived_of (d : Diamond) : (of d).Derived d.dimensions := by
  have hlo : ∀ i (h : i < d.sides.length), (of d).lo i = d.sides[i].lo.val := by
    intro i h
    simp [lo, of, ConceptVector.bytes, Diamond.lows, h]
  have hhi : ∀ i (h : i < d.sides.length), (of d).hi i = d.sides[i].hi.val := by
    intro i h
    simp [hi, of, ConceptVector.bytes, Diamond.highs, h]
  have hmid : ∀ i (h : i < d.sides.length), (of d).mid i = d.sides[i].center.val := by
    intro i h
    simp [mid, of, ConceptVector.bytes, Diamond.center, h]
  have hcenter : ∀ s : Side, s.center.val = s.lo.val + (s.hi.val - s.lo.val) / 2 := fun _ => rfl
  refine ⟨?_, fun i h => ?_, fun i h => ?_, ?_, fun i h => ?_, ?_⟩
  · simp [of, ConceptVector.bytes, Diamond.lows, Diamond.highs, Diamond.center, Diamond.mask,
      Diamond.dimensions]
  · rw [hlo i h, hhi i h, hmid i h, hcenter]
    omega
  · have hordered := d.sides[i].ordered
    rw [hlo i h, hhi i h, hmid i h, hcenter]
    omega
  · refine (total_eq_sum _).trans ?_
    rw [List.length_map]
    refine Finset.sum_congr rfl fun i hi' => ?_
    have h := Finset.mem_range.mp hi'
    rw [hlo i h, hhi i h, List.getD_eq_getElem _ _ (by rwa [List.length_map]), List.getElem_map]
    rfl
  · have hmask : (of d).mask.getD i false = d.sides[i].relevant := by
      have hlength : i < (d.sides.map Side.relevant).length := by rwa [List.length_map]
      exact (List.getD_eq_getElem _ _ hlength).trans (List.getElem_map ..)
    rw [hmask, hlo i h, hhi i h, hmid i h, Side.relevant, Bool.or_eq_true, bne_iff_ne, bne_iff_ne]
  · exact (key_bytes d.center).symm

end Layout

/-! ### What was seen makes the diamond -/

/-- **A diamond is told by the set of points it has seen.**  However points of one space are
ordered, repeated and shared out among the ways to begin and widen a diamond, it is made, kept as it
is, and the same.  Its bounds are the extremes of the points, all other fields follow from them, and
every point that it has seen is at distance zero under every mask.  If a point of another space is
among those to widen it with, they are refused and nothing is written. -/
theorem diamond_of_seen {n : Nat} {m : Making} (h : ∀ v ∈ m.seen, v.length = n) :
    ∃ d, m.make = .ok d ∧ Layout.make m = .ok (.of d) ∧ d.Spans n {v | v ∈ m.seen} ∧
      (Layout.of d).Derived n ∧
      (∀ v ∈ m.seen, ∀ mask, d.maskedDistance v mask = .ok 0) ∧
      (∀ m' : Making, (∀ v, v ∈ m'.seen ↔ v ∈ m.seen) →
        m'.make = .ok d ∧ Layout.make m' = .ok (.of d)) ∧
      ∀ vs : List ConceptVector,
        ((∃ v ∈ vs, v.length ≠ n) →
          ∃ v ∈ vs, v.length ≠ n ∧ d.update vs = .error (.geometry n v.length)) ∧
        Steps.Carries Eq (Layout.update (vs.map ConceptVector.bytes)) (.of d)
          ((d.update vs).map fun d' => (.of d', ())) := by
  obtain ⟨d, hmake, hspans⟩ := spans_make h
  refine ⟨d, hmake, ?_, hspans, hspans.size ▸ Layout.derived_of d, fun v hv mask => ?_,
    fun m' hsame => ?_, fun vs => ⟨fun hother => ?_, Layout.carries_update d vs⟩⟩
  · rw [Layout.make_eq, hmake]
    rfl
  · exact (hspans.covers hv (h v hv)).maskedDistance mask
  · obtain ⟨d', hmake', hspans'⟩ := spans_make (m := m') fun v hv => h v ((hsame v).mp hv)
    have hset : {v | v ∈ m'.seen} = {v | v ∈ m.seen} := Set.ext hsame
    rw [hset] at hspans'
    cases hspans.unique hspans'
    rw [Layout.make_eq, hmake']
    exact ⟨rfl, rfl⟩
  · obtain ⟨v, hv, hlen⟩ := hother
    cases hfind : vs.find? (·.length != d.dimensions) with
    | none =>
      have hnone := List.find?_eq_none.mp hfind v hv
      rw [hspans.size] at hnone
      simp [hlen] at hnone
    | some w =>
      have hw := List.find?_some hfind
      rw [hspans.size, bne_iff_ne] at hw
      refine ⟨w, List.mem_of_find?_eq_some hfind, hw, ?_⟩
      rw [Diamond.update_eq, hfind, hspans.size]

/-- Points on both sides of zero, some of them seen again. -/
def acrossZero : Making :=
  ⟨.examples (.ofInts [-3, 127, 0]) [.ofInts [2, -127, 0]],
    [.expand (.ofInts [-3, 127, 0]), .update [.ofInts [-8, 5, 0], .ofInts [2, -127, 0]],
      .update []]⟩

theorem diamond_of_seen_acrossZero :
    ∃ d, acrossZero.make = .ok d ∧ d.Spans 3 {v | v ∈ acrossZero.seen} ∧
      Layout.make acrossZero = .ok ⟨[-8, -127, 0], [2, 127, 0], [-3, 0, 0], 264,
        [true, true, false], d.fingerprint⟩ := by
  obtain ⟨d, hmake, hlayout, hspans, -⟩ :=
    diamond_of_seen (n := 3) (m := acrossZero) (by decide)
  have hmade : acrossZero.make = .ok ⟨[⟨.saturate (-8), .saturate 2, by decide⟩,
      ⟨.saturate (-127), .saturate 127, by decide⟩, .ofPoint .zero]⟩ := rfl
  refine ⟨d, hmake, hspans, hlayout.trans ?_⟩
  rw [hmade] at hmake
  cases hmake
  rfl

end KnowledgeBase
