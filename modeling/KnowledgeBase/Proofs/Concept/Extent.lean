import KnowledgeBase.Concept.Diamond
import KnowledgeBase.Proofs.Outcome
import Mathlib.Data.List.Forall2
import Mathlib.Order.Bounds.Basic

/-!
# What a diamond has seen

A diamond is told by the set of points that it was made from and widened with.  The order of points,
how often each is seen, and whether by itself or along with others, make no difference.

* `Diamond.Covers`: a point lies in a diamond, at distance zero under every mask;
* `Diamond.Spans`: a diamond has the extremes of a set of points for its bounds, which makes it the
  only one of the set;
* `update_eq`: points widen a diamond if they are all of its space, and are refused otherwise;
* `Making`, `spans_make`: the ways to make a diamond, and that it spans what it has seen.
-/

namespace KnowledgeBase

/-! ### Sides -/

theorem Component.eq_of_val {c c' : Component} (h : c.val = c'.val) : c = c' := by
  cases c
  cases c'
  cases h
  rfl

namespace Side

/-- A component lies between the bounds. -/
def Holds (s : Side) (c : Component) : Prop := s.lo.val ≤ c.val ∧ c.val ≤ s.hi.val

variable {s s' : Side} {c : Component}

theorem eq_of_bounds (hlo : s.lo.val = s'.lo.val) (hhi : s.hi.val = s'.hi.val) : s = s' := by
  have h := Component.eq_of_val hlo
  have h' := Component.eq_of_val hhi
  cases s
  cases s'
  cases h
  cases h'
  rfl

@[simp] theorem lo_cover (s : Side) (c : Component) :
    (s.cover c).lo.val = min s.lo.val c.val := by
  unfold cover
  dsimp only
  split <;> omega

@[simp] theorem hi_cover (s : Side) (c : Component) :
    (s.cover c).hi.val = max s.hi.val c.val := by
  unfold cover
  dsimp only
  split <;> omega

theorem holds_ofPoint (c : Component) : (ofPoint c).Holds c := ⟨Int.le_refl _, Int.le_refl _⟩

theorem holds_cover (s : Side) (c : Component) : (s.cover c).Holds c := by
  simp [Holds]

theorem Holds.cover (h : s.Holds c) (c' : Component) : (s.cover c').Holds c := by
  obtain ⟨hlo, hhi⟩ := h
  simp only [Holds, lo_cover, hi_cover]
  omega

theorem Holds.outside_eq_zero (h : s.Holds c) : s.outside c = 0 := by
  obtain ⟨hlo, hhi⟩ := h
  unfold outside
  rw [if_neg (by omega), if_neg (by omega)]

end Side

namespace Diamond

variable {d d' : Diamond} {v w : ConceptVector} {vs : List ConceptVector} {n : Nat}

/-! ### Numbers of components -/

@[simp] theorem dimensions_ofVector (v : ConceptVector) : (ofVector v).dimensions = v.length :=
  List.length_map _

@[simp] theorem dimensions_origin (n : Nat) : (origin n).dimensions = n := by
  simp [origin, ConceptVector.zero]

theorem dimensions_cover (h : v.length = d.dimensions) :
    (d.cover v).dimensions = d.dimensions := by
  show (List.zipWith Side.cover d.sides v).length = d.dimensions
  rw [List.length_zipWith, h]
  exact Nat.min_self _

theorem check_of_eq (h : v.length = d.dimensions) : d.check v = .ok () := if_pos h

theorem check_of_ne (h : v.length ≠ d.dimensions) :
    d.check v = .error (.geometry d.dimensions v.length) := if_neg h

/-- Points widen a diamond if they are all of its space; otherwise the first one that is not is
refused. -/
theorem update_eq (d : Diamond) (vs : List ConceptVector) :
    d.update vs = match vs.find? (·.length != d.dimensions) with
      | some v => .error (.geometry d.dimensions v.length)
      | none => .ok (vs.foldl cover d) := by
  have hforM : ∀ vs : List ConceptVector, vs.forM d.check =
      match vs.find? (·.length != d.dimensions) with
      | some v => .error (.geometry d.dimensions v.length)
      | none => .ok () := by
    intro vs
    induction vs with
    | nil => rfl
    | cons v vs ih =>
      rw [List.forM_eq_forM, List.forM_cons, List.find?_cons]
      by_cases h : v.length = d.dimensions
      · rw [check_of_eq h, bne_eq_false_iff_eq.mpr h, ← ih]
        rfl
      · rw [check_of_ne h, bne_iff_ne.mpr h]
        rfl
  unfold update
  rw [hforM]
  split <;> rfl

theorem update_of_forall (h : ∀ v ∈ vs, v.length = d.dimensions) :
    d.update vs = .ok (vs.foldl cover d) := by
  have hnone : vs.find? (·.length != d.dimensions) = none := by simpa using h
  rw [update_eq, hnone]

theorem expand_of_eq (h : v.length = d.dimensions) : d.expand v = .ok (d.cover v) :=
  update_of_forall (List.forall_mem_singleton.mpr h)

/-- Only a point of its space widens a diamond. -/
theorem length_of_expand (h : d.expand v = .ok d') : v.length = d.dimensions := by
  by_contra hlen
  have hsome : [v].find? (·.length != d.dimensions) = some v := by simp [hlen]
  rw [expand, update_eq, hsome] at h
  cases h

/-- A diamond that is widened keeps its number of components. -/
theorem dimensions_expand (h : d.expand v = .ok d') : d'.dimensions = d.dimensions := by
  have hlen := length_of_expand h
  rw [expand_of_eq hlen] at h
  cases h
  exact dimensions_cover hlen

/-! ### Points in a diamond -/

/-- A point lies in a diamond. -/
def Covers (d : Diamond) (v : ConceptVector) : Prop := List.Forall₂ Side.Holds d.sides v

theorem Covers.length_eq (h : d.Covers v) : v.length = d.dimensions :=
  (List.Forall₂.length_eq h).symm

theorem covers_ofVector (v : ConceptVector) : (ofVector v).Covers v := by
  unfold Covers ofVector
  rw [List.forall₂_map_left_iff]
  exact List.forall₂_same.mpr fun c _ => Side.holds_ofPoint c

theorem covers_cover (h : v.length = d.dimensions) : (d.cover v).Covers v := by
  refine List.forall₂_iff_get.mpr ⟨(dimensions_cover h).trans h.symm, fun i h₁ h₂ => ?_⟩
  simp only [cover, List.get_eq_getElem, List.getElem_zipWith]
  exact Side.holds_cover _ _

/-- A point stays in a diamond that is widened. -/
theorem Covers.cover (h : d.Covers w) (hv : v.length = d.dimensions) : (d.cover v).Covers w := by
  obtain ⟨hlen, hall⟩ := List.forall₂_iff_get.mp h
  refine List.forall₂_iff_get.mpr ⟨(dimensions_cover hv).trans hlen, fun i h₁ h₂ => ?_⟩
  simp only [Diamond.cover, List.get_eq_getElem, List.getElem_zipWith]
  exact (hall i (hlen ▸ h₂) h₂).cover _

theorem total_eq_zero {xs : List Int} (h : ∀ x ∈ xs, x = 0) : total xs = 0 := by
  induction xs with
  | nil => rfl
  | cons x xs ih =>
    obtain ⟨hx, hxs⟩ := List.forall_mem_cons.mp h
    show x + total xs = 0
    rw [hx, ih hxs]
    rfl

/-- No component of a point in a diamond lies outside. -/
theorem Covers.gaps_eq_zero (h : d.Covers v) : ∀ g ∈ d.gaps v, g.2 = 0 := by
  intro g hg
  obtain ⟨⟨⟨s, c⟩, i⟩, hmem, rfl⟩ := List.mem_map.mp hg
  have hzip : (s, c) ∈ d.sides.zip v := List.fst_mem_of_mem_zipIdx hmem
  exact ((List.forall₂_iff_zip.mp h).2 hzip).outside_eq_zero

theorem Covers.maskedDistance (h : d.Covers v) (m : Option Mask) :
    d.maskedDistance v m = .ok 0 := by
  unfold Diamond.maskedDistance
  rw [check_of_eq h.length_eq]
  refine congrArg Except.ok (total_eq_zero ?_)
  rw [List.forall_mem_map]
  exact fun g hg => h.gaps_eq_zero g (List.mem_filter.mp hg).1

end Diamond

/-! ### Bounds -/

/-- A coordinate of a point. -/
def ConceptVector.coord (v : ConceptVector) (i : Nat) : Int := (v.getD i .zero).val

theorem ConceptVector.coord_eq {v : ConceptVector} {i : Nat} (h : i < v.length) :
    v.coord i = v[i].val := by
  simp [coord, h]

namespace Diamond

variable {d d' : Diamond} {v w : ConceptVector} {vs : List ConceptVector} {n i : Nat}
  {S : Set ConceptVector}

theorem coord_lows (h : i < d.sides.length) : d.lows.coord i = d.sides[i].lo.val := by
  simp [ConceptVector.coord, lows, h]

theorem coord_highs (h : i < d.sides.length) : d.highs.coord i = d.sides[i].hi.val := by
  simp [ConceptVector.coord, highs, h]

/-- The bounds along each component are the extremes of a set of points. -/
structure Spans (d : Diamond) (n : Nat) (S : Set ConceptVector) : Prop where
  size : d.dimensions = n
  low : ∀ i < n, IsLeast ((·.coord i) '' S) (d.lows.coord i)
  high : ∀ i < n, IsGreatest ((·.coord i) '' S) (d.highs.coord i)

/-- A set of points has one diamond. -/
theorem Spans.unique (h : d.Spans n S) (h' : d'.Spans n S) : d = d' := by
  obtain ⟨sides⟩ := d
  obtain ⟨sides'⟩ := d'
  have hsides : sides = sides' := by
    refine List.ext_getElem (h.size.trans h'.size.symm) fun i h₁ h₂ => ?_
    have hi : i < n := lt_of_lt_of_eq h₁ h.size
    refine Side.eq_of_bounds ?_ ?_
    · rw [← coord_lows h₁, ← coord_lows h₂]
      exact (h.low i hi).unique (h'.low i hi)
    · rw [← coord_highs h₁, ← coord_highs h₂]
      exact (h.high i hi).unique (h'.high i hi)
  rw [hsides]

theorem Spans.covers (h : d.Spans n S) (hv : v ∈ S) (hlen : v.length = n) : d.Covers v := by
  refine List.forall₂_iff_get.mpr ⟨h.size.trans hlen.symm, fun i h₁ h₂ => ?_⟩
  have hi : i < n := lt_of_lt_of_eq h₂ hlen
  have hmem : v.coord i ∈ (·.coord i) '' S := ⟨v, hv, rfl⟩
  have hlo := (h.low i hi).2 hmem
  have hhi := (h.high i hi).2 hmem
  rw [coord_lows h₁, ConceptVector.coord_eq h₂] at hlo
  rw [coord_highs h₁, ConceptVector.coord_eq h₂] at hhi
  exact ⟨hlo, hhi⟩

theorem spans_ofVector (h : v.length = n) : (ofVector v).Spans n {v} := by
  have hlows : (ofVector v).lows = v := (List.map_map ..).trans (List.map_id v)
  have hhighs : (ofVector v).highs = v := (List.map_map ..).trans (List.map_id v)
  refine ⟨(dimensions_ofVector v).trans h, fun i _ => ?_, fun i _ => ?_⟩
  · rw [hlows, Set.image_singleton]
    exact isLeast_singleton
  · rw [hhighs, Set.image_singleton]
    exact isGreatest_singleton

theorem sides_cover {h : i < (d.cover v).sides.length} (h₁ : i < d.sides.length)
    (h₂ : i < v.length) : (d.cover v).sides[i] = d.sides[i].cover v[i] := by
  simp [Diamond.cover]

/-- A point that is covered joins the set. -/
theorem Spans.cover (h : d.Spans n S) (hv : v.length = n) : (d.cover v).Spans n (insert v S) := by
  have hsize : (d.cover v).dimensions = n :=
    (dimensions_cover (hv.trans h.size.symm)).trans h.size
  refine ⟨hsize, fun i hi => ?_, fun i hi => ?_⟩
  all_goals
    have h₁ : i < d.sides.length := lt_of_lt_of_eq hi h.size.symm
    have h₂ : i < v.length := lt_of_lt_of_eq hi hv.symm
    have h₃ : i < (d.cover v).sides.length := lt_of_lt_of_eq hi hsize.symm
  · rw [Set.image_insert_eq, coord_lows h₃, sides_cover h₁ h₂, Side.lo_cover, ← coord_lows h₁,
      ← ConceptVector.coord_eq h₂, min_comm]
    exact (h.low i hi).insert _
  · rw [Set.image_insert_eq, coord_highs h₃, sides_cover h₁ h₂, Side.hi_cover, ← coord_highs h₁,
      ← ConceptVector.coord_eq h₂, max_comm]
    exact (h.high i hi).insert _

theorem Spans.foldl_cover (h : d.Spans n S) (hvs : ∀ v ∈ vs, v.length = n) :
    (vs.foldl Diamond.cover d).Spans n (S ∪ {v | v ∈ vs}) := by
  induction vs generalizing d S with
  | nil => simpa using h
  | cons v vs ih =>
    obtain ⟨hv, hvs⟩ := List.forall_mem_cons.mp hvs
    have hset : S ∪ {w | w ∈ v :: vs} = insert v S ∪ {w | w ∈ vs} := by
      ext w
      simp only [Set.mem_union, Set.mem_ofPred_eq, List.mem_cons, Set.mem_insert_iff]
      tauto
    rw [hset]
    exact ih (h.cover hv) hvs

/-- Points of its space widen a diamond to span them too. -/
theorem Spans.update (h : d.Spans n S) (hvs : ∀ v ∈ vs, v.length = n) :
    ∃ d', d.update vs = .ok d' ∧ d'.Spans n (S ∪ {v | v ∈ vs}) := by
  have hd : ∀ v ∈ vs, v.length = d.dimensions := by
    rw [h.size]
    exact hvs
  exact ⟨_, update_of_forall hd, h.foldl_cover hvs⟩

end Diamond

/-! ### Ways to make a diamond -/

/-- How a diamond is begun. -/
inductive Beginning where
  | vector (v : ConceptVector)
  | examples (v : ConceptVector) (vs : List ConceptVector)

/-- How a diamond is widened. -/
inductive Growth where
  | update (vs : List ConceptVector)
  | expand (v : ConceptVector)

/-- A way to make a diamond: it is begun, and widened any number of times. -/
structure Making where
  beginning : Beginning
  growths : List Growth

/-- The points that a diamond is begun from. -/
def Beginning.seen : Beginning → List ConceptVector
  | vector v => [v]
  | examples v vs => v :: vs

def Beginning.make : Beginning → Except Fault Diamond
  | vector v => .ok (.ofVector v)
  | examples v vs => Diamond.ofExamples (v :: vs)

/-- The points that a diamond is widened with. -/
def Growth.seen : Growth → List ConceptVector
  | update vs => vs
  | expand v => [v]

def Growth.grow (d : Diamond) : Growth → Except Fault Diamond
  | update vs => d.update vs
  | expand v => d.expand v

namespace Making

/-- All that a diamond has seen, in order. -/
def seen (m : Making) : List ConceptVector := m.beginning.seen ++ m.growths.flatMap Growth.seen

def make (m : Making) : Except Fault Diamond := do
  m.growths.foldlM Growth.grow (← m.beginning.make)

end Making

variable {n : Nat} {S : Set ConceptVector} {d : Diamond}

theorem spans_begin {b : Beginning} (h : ∀ v ∈ b.seen, v.length = n) :
    ∃ d, b.make = .ok d ∧ d.Spans n {v | v ∈ b.seen} := by
  cases b with
  | vector v =>
    have hset : {w | w ∈ (Beginning.vector v).seen} = {v} := by
      ext w
      simp [Beginning.seen]
    rw [hset]
    exact ⟨_, rfl, Diamond.spans_ofVector (h v List.mem_cons_self)⟩
  | examples v vs =>
    -- the first example is seen twice
    have hset : {w | w ∈ (Beginning.examples v vs).seen} = {v} ∪ {w | w ∈ v :: vs} :=
      (Set.union_eq_self_of_subset_left (by simp [Beginning.seen])).symm
    rw [hset]
    exact (Diamond.spans_ofVector (h v List.mem_cons_self)).update h

theorem Diamond.Spans.grow (hd : d.Spans n S) {g : Growth} (h : ∀ v ∈ g.seen, v.length = n) :
    ∃ d', g.grow d = .ok d' ∧ d'.Spans n (S ∪ {v | v ∈ g.seen}) := by
  cases g with
  | update vs => exact hd.update h
  | expand v => exact hd.update h

theorem Diamond.Spans.growAll (hd : d.Spans n S) {gs : List Growth}
    (h : ∀ v ∈ gs.flatMap Growth.seen, v.length = n) :
    ∃ d', gs.foldlM Growth.grow d = .ok d' ∧ d'.Spans n (S ∪ {v | v ∈ gs.flatMap Growth.seen}) := by
  induction gs generalizing d S with
  | nil => exact ⟨d, rfl, by simpa using hd⟩
  | cons g gs ih =>
    rw [List.flatMap_cons] at h ⊢
    obtain ⟨hg, hgs⟩ := List.forall_mem_append.mp h
    obtain ⟨d', hd', hspans⟩ := hd.grow hg
    obtain ⟨d'', hd'', hspans'⟩ := ih hspans hgs
    have hset : S ∪ {v | v ∈ g.seen ++ gs.flatMap Growth.seen} =
        S ∪ {v | v ∈ g.seen} ∪ {v | v ∈ gs.flatMap Growth.seen} := by
      rw [Set.union_assoc]
      congr 1
      ext v
      simp only [Set.mem_ofPred_eq, List.mem_append, Set.mem_union]
    refine ⟨d'', ?_, hset ▸ hspans'⟩
    rw [List.foldlM_cons, hd']
    exact hd''

/-- A diamond spans what it has seen, however it was made. -/
theorem spans_make {m : Making} (h : ∀ v ∈ m.seen, v.length = n) :
    ∃ d, m.make = .ok d ∧ d.Spans n {v | v ∈ m.seen} := by
  obtain ⟨hbegin, hgrow⟩ := List.forall_mem_append.mp h
  obtain ⟨d, hd, hspans⟩ := spans_begin hbegin
  obtain ⟨d', hd', hspans'⟩ := hspans.growAll hgrow
  have hset : {v | v ∈ m.seen} =
      {v | v ∈ m.beginning.seen} ∪ {v | v ∈ m.growths.flatMap Growth.seen} := by
    ext v
    exact List.mem_append
  exact ⟨d', Outcome.bind_eq_ok.mpr ⟨d, hd, hd'⟩, hset ▸ hspans'⟩

end KnowledgeBase
