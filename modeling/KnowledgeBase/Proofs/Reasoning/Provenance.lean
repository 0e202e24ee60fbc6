import KnowledgeBase.Proofs.Concept.Distance
import KnowledgeBase.Proofs.Store.Observation

/-!
# What makes up a distance

A verdict reports the components that push a point out of an extent, the farthest first.  Under a
given mask these are the components that the distance counts.  Without one the distance leaves out
what the extent's own mask leaves out, and the report does not.

* `Diamond.outliers`: the components outside that a mask counts, which make up the distance under
  that mask (`maskedDistance_eq`);
* `perm_filter_strays`: what is ranked for the report has them among it;
* `Placement.Accounts`: a report is of counted components, and is complete if they are few;
* `accounts_answer_iff`: exactly when it is.
-/

namespace KnowledgeBase

/-- A list of which `p` takes no more than `n` elements, the first `n` among them. -/
theorem filter_eq_take {α : Type} {p : α → Bool} {l : List α} {n : Nat}
    (htaken : ∀ a ∈ l.take n, p a = true) (hfew : (l.filter p).length ≤ n) :
    l.filter p = l.take n := by
  have hsplit : l.filter p = l.take n ++ (l.drop n).filter p := by
    rw [← List.filter_eq_self.mpr htaken, ← List.filter_append, List.take_append_drop]
  have hrest : (l.drop n).filter p = [] := by
    rw [hsplit, List.length_append, List.length_take] at hfew
    rcases Nat.le_total l.length n with hshort | hlong
    · rw [List.drop_of_length_le hshort, List.filter_nil]
    · rw [Nat.min_eq_left hlong] at hfew
      exact List.length_eq_zero_iff.mp (by omega)
  rw [hsplit, hrest, List.append_nil]

namespace Diamond

variable {d : Diamond} {v : ConceptVector}

/-! ### Components outside -/

/-- All components of a point, each with how far it lies outside. -/
def components (d : Diamond) (v : ConceptVector) : List Contribution :=
  ((d.sides.zip v).zipIdx).map fun ((s, c), i) => ⟨i, s.outside c, c, s⟩

/-- The components outside that a mask counts. -/
def outliers (d : Diamond) (v : ConceptVector) (m : Mask) : List Contribution :=
  (d.components v).filter fun c => m.counts c.dimension && decide (0 < c.excess)

/-- The components outside that a given mask counts; without one these are all. -/
def strays (d : Diamond) (v : ConceptVector) (m : Option Mask) : List Contribution :=
  (d.components v).filter fun c => m.all (·.counts c.dimension) && decide (0 < c.excess)

/-- The strays, the farthest first. -/
def ranked (d : Diamond) (v : ConceptVector) (m : Option Mask) : List Contribution :=
  (d.strays v m).mergeSort fun a b => decide (b.excess ≤ a.excess)

theorem contributions_eq (m : Option Mask) :
    d.contributions v m = (d.ranked v m).take Contribution.maxReported := rfl

theorem excess_nonneg {c : Contribution} (h : c ∈ d.components v) : 0 ≤ c.excess := by
  obtain ⟨p, -, rfl⟩ := List.mem_map.mp h
  exact Side.outside_nonneg _ _

theorem excess_pos {c : Contribution} {m : Mask} (h : c ∈ d.outliers v m) : 0 < c.excess := by
  have hc := (List.mem_filter.mp h).2
  rw [Bool.and_eq_true, decide_eq_true_eq] at hc
  exact hc.2

theorem gaps_eq (d : Diamond) (v : ConceptVector) :
    d.gaps v = (d.components v).map fun c => (c.dimension, c.excess) := by
  unfold gaps components
  rw [List.map_map]
  rfl

/-- What does not lie outside adds nothing. -/
theorem total_filter_pos {cs : List Contribution} (h : ∀ c ∈ cs, 0 ≤ c.excess)
    (p : Contribution → Bool) :
    total ((cs.filter fun c => p c && decide (0 < c.excess)).map Contribution.excess) =
      total ((cs.filter p).map Contribution.excess) := by
  induction cs with
  | nil => rfl
  | cons c cs ih =>
    obtain ⟨hc, hcs⟩ := List.forall_mem_cons.mp h
    have ih := ih hcs
    rw [List.filter_cons, List.filter_cons]
    cases hp : p c with
    | false => simpa using ih
    | true =>
      by_cases hpos : 0 < c.excess
      · simpa [hpos, total] using ih
      · have hzero : c.excess = 0 := by omega
        simpa [hzero, total] using ih

/-- A distance is made up of the outliers of the mask that it is taken under. -/
theorem maskedDistance_eq (h : v.length = d.dimensions) (m : Option Mask) :
    d.maskedDistance v m =
      .ok (total ((d.outliers v (m.getD d.mask)).map Contribution.excess)) := by
  have hcounted : ((d.gaps v).filter fun g => (m.getD d.mask).counts g.1).map Prod.snd =
      ((d.components v).filter fun c => (m.getD d.mask).counts c.dimension).map
        Contribution.excess := by
    rw [gaps_eq, List.filter_map, List.map_map]
    rfl
  rw [maskedDistance_of_eq h]
  unfold distanceUnder outliers
  rw [total_filter_pos (fun c => excess_nonneg), ← hcounted]

/-- Of the strays the outliers are those that the mask of the distance counts. -/
theorem perm_filter_strays (d : Diamond) (v : ConceptVector) (m : Option Mask) :
    ((d.ranked v m).filter fun c => (m.getD d.mask).counts c.dimension).Perm
      (d.outliers v (m.getD d.mask)) := by
  have hstrays : ((d.strays v m).filter fun c => (m.getD d.mask).counts c.dimension) =
      d.outliers v (m.getD d.mask) := by
    unfold strays outliers
    rw [List.filter_filter]
    refine List.filter_congr fun c _ => ?_
    cases m with
    | none => rfl
    | some m => simp
  rw [← hstrays]
  exact (List.mergeSort_perm _ _).filter _

/-- A given mask has no other strays. -/
theorem counts_of_mem_contributions {m : Mask} {c : Contribution}
    (h : c ∈ d.contributions v (some m)) : m.counts c.dimension = true := by
  have hstray : c ∈ d.strays v (some m) :=
    (List.mergeSort_perm _ _).mem_iff.mp (List.mem_of_mem_take (contributions_eq _ ▸ h))
  have hc := (List.mem_filter.mp hstray).2
  rw [Bool.and_eq_true] at hc
  exact hc.1

/-- A point of the same space is placed. -/
theorem place_eq (h : v.length = d.dimensions) (m : Option Mask) :
    d.place v m = .ok ⟨Band.ofDistance
      (total ((d.outliers v (m.getD d.mask)).map Contribution.excess)) d.radius,
      d.contributions v m⟩ := by
  unfold place band
  rw [maskedDistance_eq h]
  rfl

/-- The distance and the report of a placement. -/
theorem of_place {m : Option Mask} {p : Placement} (h : v.length = d.dimensions)
    (hp : d.place v m = .ok p) :
    p.band.distance = total ((d.outliers v (m.getD d.mask)).map Contribution.excess) ∧
      p.contributions = d.contributions v m := by
  rw [place_eq h] at hp
  cases hp
  exact ⟨Band.distance_ofDistance _ _, rfl⟩

end Diamond

/-! ### Accounts -/

/-- A placement accounts for its distance: every contribution is of a component that the distance
counted as outside, the contributions sum to the distance if no more of these are there than are
reported, and a distance of zero has none. -/
structure Placement.Accounts (p : Placement) (d : Diamond) (v : ConceptVector)
    (m : Option Mask) : Prop where
  counted : ∀ c ∈ p.contributions, c ∈ d.outliers v (m.getD d.mask)
  complete : (d.outliers v (m.getD d.mask)).length ≤ Contribution.maxReported →
    Diamond.total (p.contributions.map Contribution.excess) = p.band.distance
  inside : p.band.distance = 0 → p.contributions = []

namespace Diamond

variable {d : Diamond} {v : ConceptVector} {m : Option Mask} {p : Placement}

/-- Where nothing adds up to anything, nothing lies outside. -/
theorem outliers_eq_nil {m : Mask}
    (h : total ((d.outliers v m).map Contribution.excess) = 0) : d.outliers v m = [] := by
  have hpos : ∀ c ∈ d.outliers v m, 0 < c.excess := fun c => excess_pos
  cases hout : d.outliers v m with
  | nil => rfl
  | cons c cs =>
    rw [hout] at h hpos
    obtain ⟨hc, hcs⟩ := List.forall_mem_cons.mp hpos
    have hrest : 0 ≤ (cs.map Contribution.excess).sum :=
      List.sum_nonneg (List.forall_mem_map.mpr fun c hc => (hcs c hc).le)
    rw [List.map_cons, total_eq_sum, List.sum_cons] at h
    omega

/-- A placement accounts for its distance exactly if all that it reports was counted. -/
theorem accounts_iff (h : v.length = d.dimensions) (hp : d.place v m = .ok p) :
    p.Accounts d v m ↔ ∀ c ∈ p.contributions, (m.getD d.mask).counts c.dimension = true := by
  obtain ⟨hdistance, hreport⟩ := of_place h hp
  have hperm := d.perm_filter_strays v m
  constructor
  · intro haccounts c hc
    have hout := (List.mem_filter.mp (haccounts.counted c hc)).2
    rw [Bool.and_eq_true] at hout
    exact hout.1
  · intro hall
    rw [hreport, contributions_eq] at hall
    have hcounted : ∀ c ∈ p.contributions, c ∈ d.outliers v (m.getD d.mask) := by
      intro c hc
      rw [hreport] at hc
      exact hperm.mem_iff.mp (List.mem_filter.mpr ⟨List.mem_of_mem_take hc, hall c hc⟩)
    refine ⟨hcounted, fun hfew => ?_, fun hzero => ?_⟩
    · -- the counted ones are all reported: no other one takes a place
      rw [filter_eq_take hall (hperm.length_eq.trans_le hfew), ← contributions_eq] at hperm
      rw [hdistance, hreport]
      exact total_perm (hperm.map _)
    · have hnone := outliers_eq_nil (hdistance.symm.trans hzero)
      exact List.eq_nil_iff_forall_not_mem.mpr fun c hc =>
        List.not_mem_nil (hnone ▸ hcounted c hc)

end Diamond

namespace Store

variable {s : Store} {l : String} {v : ConceptVector} {d : Diamond} {ds : List Diamond}
  {ok : Store → Prop}

/-- The extents of a concept have the dimensions of the store. -/
theorem Integral.dimensions_extent (h : Integral s) (hl : s.extents? l = some ds) :
    ∀ d ∈ ds, d.dimensions = s.dimensions := by
  obtain ⟨c, hc, rfl⟩ := Option.map_eq_some_iff.mp hl
  exact (h.fits hc).sized

/-- **An answer accounts for its distance as long as it reports nothing that the extent's own mask
leaves out.**  In every store that commands lead to, a question about a concept and a point of the
store's space is answered, with a distance that is made up of the outliers of the mask.  Given a
mask, however short, long or clear, the answer accounts for the distance.  Without one it does
exactly if the extent's own mask, under which the distance is taken, counts all that is reported. -/
theorem accounts_answer_iff (h : Reached ok s) (hl : s.extents? l = some (d :: ds))
    (hv : v.length = s.dimensions) (m : Option Mask) (now : Millis) :
    ∃ p, (s.answer v l m now).2 = .ok ⟨l, some p, now⟩ ∧
      p.band.distance =
        Diamond.total ((d.outliers v (m.getD d.mask)).map Contribution.excess) ∧
      (p.Accounts d v m ↔
        (m = none → ∀ c ∈ p.contributions, d.mask.counts c.dimension = true)) := by
  have hi := integral_of_reached h
  have hlen : v.length = d.dimensions :=
    hv.trans (hi.dimensions_extent hl d List.mem_cons_self).symm
  obtain ⟨p, hplace⟩ : ∃ p, d.place v m = .ok p := ⟨_, Diamond.place_eq hlen m⟩
  obtain ⟨hdistance, hreport⟩ := Diamond.of_place hlen hplace
  refine ⟨p, ?_, hdistance, ?_⟩
  · rw [hi.answer_eq hl, hplace]
    rfl
  · rw [Diamond.accounts_iff hlen hplace]
    cases m with
    | none => exact ⟨fun hall _ => hall, fun hall => hall rfl⟩
    | some m =>
      rw [hreport]
      exact ⟨fun _ hnone => (nomatch hnone), fun _ c hc => Diamond.counts_of_mem_contributions hc⟩

/-- A concept that was seen once, on an axis. -/
def flat : Store :=
  ((({ dimensions := 2 } : Store).observe "rex" (.ofInts [5, 0]) 4).toOption).getD
    { dimensions := 2 }

theorem reached_flat : Reached (fun _ => True) flat := by
  have hs : ({ dimensions := 2 } : Store).observe "rex" (.ofInts [5, 0]) 4 = .ok flat :=
    Outcome.eq_ok_of_isOk (by decide +kernel)
  have hafter : ({ dimensions := 2 } : Store).after (.observe "rex" (.ofInts [5, 0]) 4) = flat := by
    unfold Store.after
    dsimp only
    rw [hs]
    rfl
  exact hafter ▸ .step _ (.make (n := 2) rfl) trivial

/-- A mask that is too short, under which the second component is counted. -/
theorem accounts_answer_iff_flat : Reached (fun _ => True) flat ∧
    flat.extents? "rex" = some [.ofVector (.ofInts [5, 0])] ∧
    ∃ p, (flat.answer (.ofInts [5, 3]) "rex" (some [true]) 5).2 = .ok ⟨"rex", some p, 5⟩ ∧
      p.band.distance = 3 ∧
      p.Accounts (.ofVector (.ofInts [5, 0])) (.ofInts [5, 3]) (some [true]) := by
  have hl : flat.extents? "rex" = some [.ofVector (.ofInts [5, 0])] := by decide +kernel
  obtain ⟨p, hanswer, hdistance, haccounts⟩ :=
    accounts_answer_iff reached_flat hl (v := .ofInts [5, 3]) rfl (some [true]) 5
  exact ⟨reached_flat, hl, p, hanswer, hdistance.trans (by decide +kernel),
    haccounts.mpr fun hnone => nomatch hnone⟩

/-- Without a mask the extent's own one leaves the second component out.  The point is at distance
zero, for certain, and yet that component is reported to contribute. -/
theorem unaccounted_answer : Reached (fun _ => True) flat ∧
    flat.extents? "rex" = some [.ofVector (.ofInts [5, 0])] ∧
    ∃ p, (flat.answer (.ofInts [5, 3]) "rex" none 5).2 = .ok ⟨"rex", some p, 5⟩ ∧
      p.band.truth = .certain ∧ p.band.distance = 0 ∧
      p.contributions.map (fun c => (c.dimension, c.excess)) = [(1, 3)] ∧
      ¬ p.Accounts (.ofVector (.ofInts [5, 0])) (.ofInts [5, 3]) none := by
  have hl : flat.extents? "rex" = some [.ofVector (.ofInts [5, 0])] := by decide +kernel
  have hanswer := (integral_of_reached reached_flat).answer_eq hl (.ofInts [5, 3]) none 5
  rw [Diamond.place_eq rfl] at hanswer
  have hreport : ((Diamond.ofVector (.ofInts [5, 0])).contributions (.ofInts [5, 3]) none).map
      (fun c => (c.dimension, c.excess)) = [(1, 3)] := by
    decide +kernel
  refine ⟨reached_flat, hl, _, hanswer, by decide +kernel, by decide +kernel, hreport, ?_⟩
  intro haccounts
  have hnone := haccounts.inside (by decide +kernel)
  dsimp only at hnone
  rw [hnone] at hreport
  cases hreport

end Store

end KnowledgeBase
