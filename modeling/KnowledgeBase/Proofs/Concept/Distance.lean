import KnowledgeBase.Proofs.Concept.Extent
import KnowledgeBase.Reasoning.Neighbor
import Mathlib.Algebra.Order.BigOperators.Group.List
import Mathlib.Algebra.Ring.Int.Defs

/-!
# Distances to a box

The distance from a point to a box is the least one to a point inside, and is bounded from below by
the distance to the centre less what the box reaches from there.

* `Diamond.distanceUnder`: the distance over the components that a mask counts;
* `Diamond.boxDistance`: the one over all of them, which is the least to a point that the box
  contains (`isLeast_boxDistance`);
* `distanceUnder_eq_boxDistance`: a mask that leaves nothing out makes no difference;
* `lowerBound_le`: the bound, which is by components (`Side.natAbs_sub_center_le`).
-/

namespace KnowledgeBase

/-! ### Along one component -/

namespace Side

variable {s : Side} {c : Component}

theorem outside_nonneg (s : Side) (c : Component) : 0 ≤ s.outside c := by
  unfold outside
  split
  · omega
  · split <;> omega

theorem lo_le_center (s : Side) : s.lo.val ≤ s.center.val := by
  have hordered := s.ordered
  simp only [center, width]
  omega

theorem center_le_hi (s : Side) : s.center.val ≤ s.hi.val := by
  have hordered := s.ordered
  simp only [center, width]
  omega

/-- From the midpoint a component is no farther than the side reaches, and what it lies outside. -/
theorem natAbs_sub_center_le (s : Side) (c : Component) :
    ((c.val - s.center.val).natAbs : Int) ≤ s.outside c + s.reach := by
  have hlo := s.lo_le_center
  have hhi := s.center_le_hi
  unfold outside reach
  split
  · omega
  · split <;> omega

theorem reach_nonneg (s : Side) : 0 ≤ s.reach := by
  have hlo := s.lo_le_center
  unfold reach
  omega

/-- The component between the bounds that is nearest to another one. -/
def clamp (s : Side) (c : Component) : Component :=
  if c.val < s.lo.val then s.lo else if s.hi.val < c.val then s.hi else c

theorem holds_clamp (s : Side) (c : Component) : s.Holds (s.clamp c) := by
  have hordered := s.ordered
  unfold Holds clamp
  split
  · exact ⟨Int.le_refl _, hordered⟩
  · split
    · exact ⟨hordered, Int.le_refl _⟩
    · constructor <;> omega

theorem natAbs_sub_clamp (s : Side) (c : Component) :
    ((c.val - (s.clamp c).val).natAbs : Int) = s.outside c := by
  unfold clamp outside
  split
  · omega
  · split <;> omega

theorem Holds.outside_le {c' : Component} (h : s.Holds c') (c : Component) :
    s.outside c ≤ ((c.val - c'.val).natAbs : Int) := by
  obtain ⟨hlo, hhi⟩ := h
  unfold outside
  split
  · omega
  · split <;> omega

end Side

/-! ### Masks -/

/-- A mask that leaves nothing out counts every component. -/
theorem Mask.counts_of_coversAll {m : Mask} (h : m.coversAll = true) (i : Nat) :
    m.counts i = true := by
  unfold Mask.coversAll at h
  unfold Mask.counts
  rw [Bool.or_eq_true] at h ⊢
  refine h.imp_right fun hall => ?_
  rw [List.getD_eq_getElem?_getD]
  cases hi : m[i]? with
  | none => rfl
  | some b => exact List.all_eq_true.mp hall b (List.mem_of_getElem? hi)

/-! ### Over several components -/

/-- The sum of the distances along each component. -/
def ConceptVector.distance (v w : ConceptVector) : Int :=
  Diamond.total (List.zipWith (fun c c' => ((c.val - c'.val).natAbs : Int)) v w)

namespace Diamond

variable {d : Diamond} {v w : ConceptVector}

theorem total_cons (x : Int) (xs : List Int) : total (x :: xs) = x + total xs := rfl

theorem total_eq_sum (xs : List Int) : total xs = xs.sum := rfl

theorem total_perm {xs ys : List Int} (h : xs.Perm ys) : total xs = total ys := by
  rw [total_eq_sum, total_eq_sum]
  exact h.sum_eq

/-- The distance over the components that a mask counts. -/
def distanceUnder (d : Diamond) (v : ConceptVector) (m : Mask) : Int :=
  total (((d.gaps v).filter fun g => m.counts g.1).map Prod.snd)

theorem maskedDistance_of_eq (h : v.length = d.dimensions) (m : Option Mask) :
    d.maskedDistance v m = .ok (d.distanceUnder v (m.getD d.mask)) := by
  unfold maskedDistance
  rw [check_of_eq h]
  rfl

/-- The distance over all components. -/
def boxDistance (d : Diamond) (v : ConceptVector) : Int :=
  total (List.zipWith Side.outside d.sides v)

theorem map_snd_gaps (d : Diamond) (v : ConceptVector) :
    (d.gaps v).map Prod.snd = List.zipWith Side.outside d.sides v := by
  have hfst : ((d.gaps v).map Prod.snd) =
      ((d.sides.zip v).zipIdx.map Prod.fst).map fun p => p.1.outside p.2 := by
    unfold gaps
    rw [List.map_map, List.map_map]
    rfl
  rw [hfst, List.zipIdx_map_fst, List.map_zip_eq_zipWith]
  rfl

theorem distanceUnder_eq_boxDistance {m : Mask} (h : m.coversAll = true) :
    d.distanceUnder v m = d.boxDistance v := by
  have hall : ((d.gaps v).filter fun g => m.counts g.1) = d.gaps v :=
    List.filter_eq_self.mpr fun g _ => m.counts_of_coversAll h g.1
  unfold distanceUnder boxDistance
  rw [hall, map_snd_gaps]

theorem boxDistance_cons (s : Side) (sides : List Side) (c : Component) (v : ConceptVector) :
    boxDistance ⟨s :: sides⟩ (c :: v) = s.outside c + boxDistance ⟨sides⟩ v := rfl

theorem boxDistance_nonneg (d : Diamond) (v : ConceptVector) : 0 ≤ d.boxDistance v := by
  obtain ⟨sides⟩ := d
  induction sides generalizing v with
  | nil => exact Int.le_refl 0
  | cons s sides ih =>
    cases v with
    | nil => exact Int.le_refl 0
    | cons c v =>
      rw [boxDistance_cons]
      exact Int.add_nonneg (s.outside_nonneg c) (ih v)

/-- No point inside is nearer than the box. -/
theorem Covers.boxDistance_le (h : d.Covers w) (v : ConceptVector) :
    v.length = d.dimensions → d.boxDistance v ≤ v.distance w := by
  obtain ⟨sides⟩ := d
  unfold Covers at h
  dsimp only at h
  induction h generalizing v with
  | nil =>
    intro hlen
    cases List.length_eq_zero_iff.mp hlen
    exact Int.le_refl 0
  | @cons s c' sides w hs _ ih =>
    intro hlen
    cases v with
    | nil => cases hlen
    | cons c v =>
      have hfirst := hs.outside_le c
      have hrest := ih v (Nat.succ.inj hlen)
      rw [boxDistance_cons]
      exact Int.add_le_add hfirst hrest

/-- Some point inside is as near as the box. -/
theorem exists_covers_distance (h : v.length = d.dimensions) :
    ∃ w, d.Covers w ∧ v.distance w = d.boxDistance v := by
  obtain ⟨sides⟩ := d
  induction sides generalizing v with
  | nil =>
    cases List.length_eq_zero_iff.mp h
    exact ⟨[], .nil, rfl⟩
  | cons s sides ih =>
    cases v with
    | nil => cases h
    | cons c v =>
      obtain ⟨w, hcovers, hdistance⟩ := ih (Nat.succ.inj h)
      refine ⟨s.clamp c :: w, .cons (s.holds_clamp c) hcovers, ?_⟩
      rw [boxDistance_cons, ← hdistance, ← s.natAbs_sub_clamp c]
      rfl

/-- The distance to a box is the least one to a point inside. -/
theorem isLeast_boxDistance (h : v.length = d.dimensions) :
    IsLeast (v.distance '' {w | d.Covers w}) (d.boxDistance v) := by
  refine ⟨exists_covers_distance h, ?_⟩
  rintro _ ⟨w, hcovers, rfl⟩
  exact Covers.boxDistance_le hcovers v h

/-- The centre is no farther than the box, and what that reaches. -/
theorem total_center_le (d : Diamond) (v : ConceptVector) :
    total (List.zipWith (fun (s : Side) c => ((c.val - s.center.val).natAbs : Int)) d.sides v) ≤
      d.boxDistance v + total (d.sides.map Side.reach) := by
  obtain ⟨sides⟩ := d
  have hreach : ∀ sides : List Side, 0 ≤ total (sides.map Side.reach) := fun sides =>
    List.sum_nonneg (List.forall_mem_map.mpr fun s _ => s.reach_nonneg)
  induction sides generalizing v with
  | nil => exact Int.le_refl 0
  | cons s sides ih =>
    cases v with
    | nil => exact Int.add_nonneg (Int.le_refl 0) (hreach _)
    | cons c v =>
      have hfirst := s.natAbs_sub_center_le c
      have hrest := ih v
      rw [boxDistance_cons, List.zipWith_cons_cons, total_cons, List.map_cons, total_cons]
      dsimp only at hrest
      omega

/-- The bound from below on the distance to a box. -/
def lowerBound (d : Diamond) (v : ConceptVector) : Int :=
  max 0 (total (List.zipWith
    (fun (s : Side) c => ((c.val - s.center.val).natAbs : Int)) d.sides v) -
      total (d.sides.map Side.reach))

theorem distanceLowerBound_of_eq (h : v.length = d.dimensions) :
    d.distanceLowerBound v = .ok (d.lowerBound v) := by
  unfold distanceLowerBound centerDistance
  rw [check_of_eq h]
  rfl

theorem lowerBound_le (d : Diamond) (v : ConceptVector) : d.lowerBound v ≤ d.boxDistance v := by
  have hcenter := d.total_center_le v
  have hnonneg := d.boxDistance_nonneg v
  unfold lowerBound
  omega

end Diamond

end KnowledgeBase
