import KnowledgeBase.Proofs.Concept.Distance
import KnowledgeBase.Proofs.Store.Integrity

/-!
# A limit only shortens a ranking

A ranking within a limit passes over diamonds of which the centre is too far for the limit, before
their distance is taken, and takes the nearest one of those that remain.  The same concepts come
out, by the same diamonds and in the same order, as when all are ranked and those within the limit
are kept.

* `isTooFar_of_eq`, `not_within_of_tooFar`: what is passed over lies beyond the limit;
* `nearest_filter`: the nearest within a limit is the nearest, if that is within it;
* `representative_eq`, `mergeSort_filter`: so the limit may come after the choice of a diamond, and
  after the ranking;
* `nearest_within`: both together.
-/

namespace KnowledgeBase

/-- A sort that leaves no choice may come before what is left out. -/
theorem mergeSort_filter {α : Type} {le : α → α → Bool} (trans : ∀ a b c, le a b → le b c → le a c)
    (total : ∀ a b, le a b || le b a) {l : List α}
    (anti : ∀ a ∈ l, ∀ b ∈ l, le a b → le b a → a = b) (p : α → Bool) :
    (l.filter p).mergeSort le = (l.mergeSort le).filter p := by
  have hperm : ((l.filter p).mergeSort le).Perm ((l.mergeSort le).filter p) :=
    (List.mergeSort_perm _ _).trans ((List.mergeSort_perm l le).filter p).symm
  have hmem : ∀ a ∈ (l.filter p).mergeSort le, a ∈ l := fun a ha =>
    (List.mem_filter.mp (List.mem_mergeSort.mp ha)).1
  have hanti : ∀ a b, a ∈ (l.filter p).mergeSort le → b ∈ (l.mergeSort le).filter p →
      le a b = true → le b a = true → a = b :=
    fun a b ha hb => anti a (hmem a ha) b (hmem b (hperm.mem_iff.mpr hb))
  exact hperm.eq_of_pairwise hanti (List.pairwise_mergeSort trans total _)
    ((List.pairwise_mergeSort trans total l).filter p)

namespace Neighbor

/-! ### The nearest one -/

/-- The nearest is the first one, unless a later one is nearer. -/
theorem nearest_cons (n : Neighbor) (ns : List Neighbor) :
    nearest (n :: ns) = some ((nearest ns).elim n fun b =>
      if b.distance < n.distance then b else n) := by
  have hfold : ∀ (ns : List Neighbor) (n : Neighbor),
      ns.foldl (fun best m => if m.distance < best.distance then m else best) n =
        (nearest ns).elim n fun b => if b.distance < n.distance then b else n := by
    intro ns
    induction ns with
    | nil => exact fun _ => rfl
    | cons m ns ih =>
      intro n
      rw [List.foldl_cons, ih, nearest, ih]
      cases nearest ns with
      | none => rfl
      | some b =>
        dsimp only [Option.elim]
        split_ifs <;> first | rfl | omega
  rw [← hfold]
  rfl

theorem mem_of_nearest {n : Neighbor} {ns : List Neighbor} (h : nearest ns = some n) :
    n ∈ ns := by
  induction ns generalizing n with
  | nil => cases h
  | cons a ns ih =>
    rw [nearest_cons, Option.some_inj] at h
    cases hrest : nearest ns with
    | none =>
      rw [hrest] at h
      exact h ▸ List.mem_cons_self
    | some b =>
      rw [hrest] at h
      dsimp only [Option.elim] at h
      split_ifs at h with hlt
      · exact List.mem_cons_of_mem _ (ih (hrest.trans (congrArg some h)))
      · exact h ▸ List.mem_cons_self

/-- Nothing is nearer than the nearest. -/
theorem nearest_filter (m : Int) (ns : List Neighbor) :
    nearest (ns.filter fun n => decide (n.distance ≤ m)) =
      (nearest ns).filter fun n => decide (n.distance ≤ m) := by
  induction ns with
  | nil => rfl
  | cons n ns ih =>
    rw [List.filter_cons, nearest_cons]
    by_cases hn : n.distance ≤ m
    · rw [if_pos (decide_eq_true hn), nearest_cons, ih]
      cases nearest ns with
      | none => simp [Option.filter, hn]
      | some b =>
        by_cases hb : b.distance ≤ m
        · simp only [Option.filter, hb, decide_true, if_true, Option.elim]
          split_ifs <;> simp_all
        · have hlt : ¬ b.distance < n.distance := by omega
          simp [Option.filter, hb, hn, hlt]
    · rw [if_neg (by simpa using hn), ih]
      cases nearest ns with
      | none => simp [Option.filter, hn]
      | some b =>
        dsimp only [Option.elim]
        split_ifs with hlt
        · rfl
        · have hb : ¬ b.distance ≤ m := by omega
          simp [Option.filter, hb, hn]

/-! ### The order -/

theorem precedes_iff {a b : Neighbor} :
    a.precedes b = true ↔
      a.distance < b.distance ∨ a.distance = b.distance ∧ a.label ≤ b.label := by
  unfold precedes
  split
  · simp_all
  · simp_all

theorem precedes_trans (a b c : Neighbor) (hab : a.precedes b = true)
    (hbc : b.precedes c = true) : a.precedes c = true := by
  rw [precedes_iff] at *
  rcases hab with hab | ⟨hab, hl⟩
  · rcases hbc with hbc | ⟨hbc, -⟩
    · exact .inl (hab.trans hbc)
    · exact .inl (hbc ▸ hab)
  · rcases hbc with hbc | ⟨hbc, hl'⟩
    · exact .inl (hab ▸ hbc)
    · exact .inr ⟨hab.trans hbc, String.le_trans hl hl'⟩

theorem precedes_total (a b : Neighbor) : (a.precedes b || b.precedes a) = true := by
  rw [Bool.or_eq_true, precedes_iff, precedes_iff]
  rcases lt_trichotomy a.distance b.distance with h | h | h
  · exact .inl (.inl h)
  · exact (String.le_total a.label b.label).imp (fun hl => .inr ⟨h, hl⟩) fun hl => .inr ⟨h.symm, hl⟩
  · exact .inr (.inl h)

/-- Only neighbours of one label may stand in either order. -/
theorem label_eq_of_precedes {a b : Neighbor} (hab : a.precedes b = true)
    (hba : b.precedes a = true) : a.label = b.label := by
  rw [precedes_iff] at hab hba
  rcases hab with hab | ⟨hab, hl⟩
  · rcases hba with hba | ⟨hba, -⟩ <;> omega
  · rcases hba with hba | ⟨-, hl'⟩
    · omega
    · exact String.le_antisymm hl hl'

end Neighbor

namespace Store

variable {s : Store} {c : Concept} {d : Diamond} {v : ConceptVector} {ok : Store → Prop}

/-! ### Within a limit -/

/-- The bound of a diamond that leaves no component out is beyond the limit. -/
def tooFar (d : Diamond) (v : ConceptVector) (limit : Option Int) : Bool :=
  limit.any fun m => d.mask.coversAll && decide (m < d.lowerBound v)

theorem isTooFar_of_eq (h : v.length = d.dimensions) (limit : Option Int) :
    isTooFar d v limit = .ok (tooFar d v limit) := by
  unfold isTooFar tooFar
  cases limit with
  | none => rfl
  | some m =>
    rw [Option.any_some]
    dsimp only
    cases d.mask.coversAll with
    | false => rfl
    | true =>
      unfold Diamond.mayContain
      rw [if_pos rfl, Diamond.distanceLowerBound_of_eq h, Bool.true_and]
      refine congrArg Except.ok ?_
      rw [← decide_not]
      exact decide_eq_decide.mpr Int.not_le

/-- A neighbour is within a limit, if there is one. -/
def within (limit : Option Int) (n : Neighbor) : Bool :=
  limit.all fun m => decide (n.distance ≤ m)

/-- A diamond of a concept as a neighbour. -/
def entry (label : String) (v : ConceptVector) (p : Diamond × Nat) : Neighbor :=
  ⟨label, p.1, p.2, p.1.distanceUnder v p.1.mask⟩

/-- What is passed over is not within the limit. -/
theorem not_within_of_tooFar {label : String} {p : Diamond × Nat} {limit : Option Int}
    (h : tooFar p.1 v limit = true) : within limit (entry label v p) = false := by
  cases limit with
  | none => cases h
  | some m =>
    rw [tooFar, Option.any_some, Bool.and_eq_true, decide_eq_true_eq] at h
    have hbox : (entry label v p).distance = p.1.boxDistance v :=
      Diamond.distanceUnder_eq_boxDistance h.1
    have hbound := p.1.lowerBound_le v
    rw [within, Option.all_some, decide_eq_false_iff_not]
    omega

/-- The nearest diamond of a concept. -/
def foremost (v : ConceptVector) (c : Concept) : Option Neighbor :=
  Neighbor.nearest (c.diamonds.zipIdx.map (entry c.label v))

/-- A concept is represented by its nearest diamond, if that is within the limit. -/
theorem representative_eq (h : ∀ d ∈ c.diamonds, v.length = d.dimensions) (limit : Option Int) :
    representative c v limit = .ok ((foremost v c).filter (within limit)) := by
  have hdim : ∀ p ∈ c.diamonds.zipIdx, v.length = p.1.dimensions := fun p hp =>
    h p.1 (List.fst_mem_of_mem_zipIdx hp)
  have hnear : (c.diamonds.zipIdx.filterM fun p => do return !(← isTooFar p.1 v limit)) =
      .ok (c.diamonds.zipIdx.filter fun p => !tooFar p.1 v limit) := by
    refine Outcome.filterM_of_forall fun p hp => ?_
    rw [isTooFar_of_eq (hdim p hp)]
    rfl
  have hfound : ((c.diamonds.zipIdx.filter fun p => !tooFar p.1 v limit).mapM fun p => do
      return (⟨c.label, p.1, p.2, ← p.1.maskedDistance v none⟩ : Neighbor)) =
      .ok ((c.diamonds.zipIdx.filter fun p => !tooFar p.1 v limit).map (entry c.label v)) := by
    refine Outcome.mapM_of_forall fun p hp => ?_
    rw [Diamond.maskedDistance_of_eq (hdim p (List.mem_filter.mp hp).1)]
    rfl
  have hpassed : ((c.diamonds.zipIdx.filter fun p => !tooFar p.1 v limit).map
      (entry c.label v)).filter (within limit) =
      (c.diamonds.zipIdx.map (entry c.label v)).filter (within limit) := by
    -- what is passed over would not be kept in the end
    rw [List.filter_map, List.filter_map, List.filter_filter]
    refine congrArg _ (List.filter_congr fun p _ => ?_)
    cases hfar : tooFar p.1 v limit with
    | false => exact Bool.and_true _
    | true => exact (Bool.and_false _).trans (not_within_of_tooFar hfar).symm
  refine Outcome.bind_eq_ok.mpr ⟨_, hnear, Outcome.bind_eq_ok.mpr ⟨_, hfound, ?_⟩⟩
  refine congrArg Except.ok ?_
  show Neighbor.nearest (List.filter (within limit) _) = _
  rw [hpassed]
  cases limit with
  | none =>
    have hall : within none = fun _ => true := rfl
    rw [hall, List.filter_true]
    show foremost v c = _
    cases foremost v c <;> rfl
  | some m => exact Neighbor.nearest_filter m _

/-! ### Rankings -/

/-- Every concept of a store by its nearest diamond, the nearest concept first. -/
def ranking (s : Store) (v : ConceptVector) : List Neighbor :=
  (s.concepts.values.filterMap (foremost v)).mergeSort Neighbor.precedes

theorem of_foremost {n : Neighbor} (h : foremost v c = some n) : n.label = c.label := by
  have hmem : n ∈ c.diamonds.zipIdx.map (entry c.label v) := Neighbor.mem_of_nearest h
  obtain ⟨p, -, rfl⟩ := List.mem_map.mp hmem
  rfl

theorem mem_concepts {c : Concept} : c ∈ s.concepts.values ↔ ∃ l, s.concept? l = some c := by
  unfold concept?
  rw [values_eq_map_toList, List.mem_map]
  constructor
  · rintro ⟨⟨l, c⟩, hc, rfl⟩
    exact ⟨l, Std.TreeMap.mem_toList_iff_getElem?_eq_some.mp hc⟩
  · rintro ⟨l, hl⟩
    exact ⟨(l, c), Std.TreeMap.mem_toList_iff_getElem?_eq_some.mpr hl, rfl⟩

theorem length_concepts (s : Store) : s.concepts.values.length = s.concepts.size := by
  rw [values_eq_map_toList, List.length_map, Std.TreeMap.length_toList]

/-- A label has one concept. -/
theorem Integral.concept_unique (h : Integral s) {c c' : Concept} (hc : c ∈ s.concepts.values)
    (hc' : c' ∈ s.concepts.values) (hl : c.label = c'.label) : c = c' := by
  obtain ⟨l, hc⟩ := mem_concepts.mp hc
  obtain ⟨l', hc'⟩ := mem_concepts.mp hc'
  have hll : l = l' := (h.fits hc).own_label.symm.trans (hl.trans (h.fits hc').own_label)
  rw [hll, hc'] at hc
  exact (Option.some.inj hc).symm

/-- Of the concepts that are ranked no two stand in either order. -/
theorem Integral.precedes_antisymm (h : Integral s) :
    ∀ a ∈ s.concepts.values.filterMap (foremost v), ∀ b ∈ s.concepts.values.filterMap (foremost v),
      a.precedes b = true → b.precedes a = true → a = b := by
  intro a ha b hb hab hba
  obtain ⟨c, hc, ha⟩ := List.mem_filterMap.mp ha
  obtain ⟨c', hc', hb⟩ := List.mem_filterMap.mp hb
  have hl : c.label = c'.label := by
    rw [← of_foremost ha, ← of_foremost hb]
    exact Neighbor.label_eq_of_precedes hab hba
  rw [h.concept_unique hc hc' hl, hb] at ha
  exact (Option.some.inj ha).symm

/-- The limit may come after the ranking. -/
theorem Integral.nearest_eq (h : Integral s) (hv : v.length = s.dimensions) (k : Nat)
    (limit : Option Int) :
    s.nearest v k limit = .ok (((s.ranking v).filter (within limit)).take k) := by
  have hfound : (s.concepts.values.filterMapM fun c => representative c v limit) =
      .ok ((s.concepts.values.filterMap (foremost v)).filter (within limit)) := by
    rw [List.filter_filterMap]
    refine Outcome.filterMapM_of_forall fun c hc => representative_eq (fun d hd => ?_) limit
    obtain ⟨l, hl⟩ := mem_concepts.mp hc
    exact hv.trans ((h.fits hl).sized d hd).symm
  have hsort := mergeSort_filter Neighbor.precedes_trans Neighbor.precedes_total
    (h.precedes_antisymm (v := v)) (within limit)
  refine Outcome.bind_eq_ok.mpr ⟨(), if_pos hv, Outcome.bind_eq_ok.mpr ⟨_, hfound, ?_⟩⟩
  exact congrArg (fun ns : List Neighbor => Except.ok (ns.take k)) hsort

theorem length_ranking_le (s : Store) (v : ConceptVector) :
    (s.ranking v).length ≤ s.concepts.size := by
  rw [ranking, List.length_mergeSort, ← s.length_concepts]
  exact List.length_filterMap_le _ _

/-- Without a limit all concepts are ranked. -/
theorem Integral.nearest_all (h : Integral s) (hv : v.length = s.dimensions) :
    s.nearest v s.concepts.size none = .ok (s.ranking v) := by
  have hall : (s.ranking v).filter (within none) = s.ranking v := List.filter_true _
  rw [h.nearest_eq hv, hall, List.take_of_length_le (s.length_ranking_le v)]

/-- **The bound that passes over diamonds never changes a ranking.**  In every store that commands
lead to, and for every point of its space, all concepts can be ranked without a limit.  For all `k`
and `m` the ranking of `k` concepts within `m` has the first `k` of those neighbours, each by the
same diamond, of which the distance is at most `m`.  The bound never exceeds the distance to the box
over all components, which is the least one to a point inside. -/
theorem nearest_within (h : Reached ok s) (hv : v.length = s.dimensions) :
    (∃ all, s.nearest v s.concepts.size none = .ok all ∧
      ∀ (k : Nat) (m : Int), s.nearest v k (some m) =
        .ok ((all.filter fun n => decide (n.distance ≤ m)).take k)) ∧
    ∀ l c, s.concept? l = some c → ∀ d ∈ c.diamonds,
      ∃ b, d.distanceLowerBound v = .ok b ∧ b ≤ d.boxDistance v ∧
        IsLeast (v.distance '' {w | d.Covers w}) (d.boxDistance v) := by
  have hi := integral_of_reached h
  refine ⟨⟨s.ranking v, hi.nearest_all hv, fun k m => hi.nearest_eq hv k (some m)⟩,
    fun l c hc d hd => ?_⟩
  have hlen : v.length = d.dimensions := hv.trans ((hi.fits hc).sized d hd).symm
  exact ⟨_, Diamond.distanceLowerBound_of_eq hlen, d.lowerBound_le v,
    Diamond.isLeast_boxDistance hlen⟩

/-- A concept on an axis, one with two diamonds, of which the second is nearer to the point below,
and one far away. -/
def spread : Store :=
  let s : Store := { dimensions := 2 }
  let s := s.after (.observe "rex" (ConceptVector.ofInts [5, 0]) 4)
  let s := s.after (.upsert "rob" [.ofVector (.ofInts [9, 1]), .ofVector (.ofInts [1, 1])] 5)
  let s := s.after (.observe "rob" (ConceptVector.ofInts [12, 4]) 6)
  s.after (.observe "tom" (ConceptVector.ofInts [90, 90]) 7)

theorem nearest_within_spread : Reached (fun _ => True) spread ∧
    ∃ all, spread.nearest (.ofInts [3, 7]) spread.concepts.size none = .ok all ∧
      all.map (fun n => (n.label, n.index, n.distance)) =
        [("rex", 0, 2), ("rob", 1, 8), ("tom", 0, 170)] ∧
      spread.nearest (.ofInts [3, 7]) 5 (some 8) =
        .ok ((all.filter fun n => decide (n.distance ≤ 8)).take 5) := by
  have hs : Reached (fun _ => True) spread := by
    unfold spread
    refine .step _ (.step _ (.step _ (.step _ (.make (n := 2) rfl) ?_) ?_) ?_) ?_
    all_goals trivial
  obtain ⟨⟨all, hall, hwithin⟩, -⟩ := nearest_within hs (v := .ofInts [3, 7]) (by decide +kernel)
  refine ⟨hs, all, hall, ?_, hwithin 5 8⟩
  have hranking : spread.ranking (.ofInts [3, 7]) =
      spread.concepts.values.filterMap (foremost (.ofInts [3, 7])) :=
    List.mergeSort_of_pairwise (by decide +kernel)
  have hvalue := (integral_of_reached hs).nearest_all (v := .ofInts [3, 7]) (by decide +kernel)
  rw [hvalue, hranking] at hall
  cases hall
  decide +kernel

end Store

end KnowledgeBase
