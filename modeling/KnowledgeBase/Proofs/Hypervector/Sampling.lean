import KnowledgeBase.Proofs.Hypervector.Sparse
import KnowledgeBase.Proofs.Outcome
import Mathlib.Data.Prod.Lex

/-!
# Mergeable samples

Of a set with more exponents than are allowed, those stay that come first in the order of sampling.
An exponent stays if and only if fewer than the bound come before it.  So one that is not sampled
from a part is not sampled from the whole, and the sample of the whole is the same whether it has
been left out before or not.

* `rank`, `kept`, `toFinset_sample`: the sample of a set, by the number of exponents before each;
* `kept_eq_of_subset`, `kept_union`: leaving out what is not sampled changes no sample;
* `Within`, `bundle_eq`: a bundle is the sample of the union;
* `bundle_mergeable`: bundles may be taken in any grouping, any order and any number of times.
-/

namespace KnowledgeBase.Sparse

open Finset

variable {a b v x y : Sparse} {d e : UInt64} {s t : Finset UInt64} {es fs : List UInt64} {m : ℕ}
  {vs ws xs ys : List Sparse}

/-! ### The order of sampling -/

/-- Where an exponent stands in the order of sampling. -/
def place (e : UInt64) : ℕ ×ₗ ℕ := toLex ((Hash.splitMix e).toNat, e.toNat)

theorem place_injective : Function.Injective place := by
  intro d e h
  have hpair : ((Hash.splitMix d).toNat, d.toNat) = ((Hash.splitMix e).toNat, e.toNat) :=
    toLex_inj.mp h
  exact UInt64.toNat_inj.mp (congrArg Prod.snd hpair)

theorem hashOrder_iff : hashOrder d e = true ↔ place d ≤ place e := by
  unfold hashOrder place
  rw [Prod.Lex.toLex_le_toLex, Bool.or_eq_true, Bool.and_eq_true, decide_eq_true_iff,
    decide_eq_true_iff, beq_iff_eq, UInt64.lt_iff_toNat_lt, UInt64.le_iff_toNat_le,
    ← UInt64.toNat_inj]

/-- How many exponents of a set come before another one. -/
def rank (s : Finset UInt64) (e : UInt64) : ℕ := #{x ∈ s | place x < place e}

theorem rank_mono (h : s ⊆ t) : rank s e ≤ rank t e :=
  card_le_card (filter_subset_filter _ h)

/-- An exponent does not come before itself. -/
theorem rank_lt_card (he : e ∈ s) : rank s e < #s := by
  apply card_lt_card
  apply filter_ssubset.mpr
  exact ⟨e, he, lt_irrefl _⟩

/-- The first exponents of a sorted list are those with few others before them. -/
theorem mem_take_iff (hsorted : es.Pairwise fun d e => place d < place e) :
    e ∈ es.take m ↔ e ∈ es ∧ rank es.toFinset e < m := by
  induction es generalizing m with
  | nil => simp
  | cons d es ih =>
    rw [List.pairwise_cons] at hsorted
    obtain ⟨hfirst, hrest⟩ := hsorted
    have hrank : rank (insert d es.toFinset) d = 0 := by
      rw [rank, card_eq_zero, filter_eq_empty_iff]
      intro x hx
      rcases mem_insert.mp hx with rfl | hx
      · exact lt_irrefl _
      · exact (hfirst x (List.mem_toFinset.mp hx)).asymm
    have hlater (he : e ∈ es) : rank (insert d es.toFinset) e = rank es.toFinset e + 1 := by
      have hnew : d ∉ es.toFinset := fun hd => lt_irrefl _ (hfirst d (List.mem_toFinset.mp hd))
      rw [rank, filter_insert, if_pos (hfirst e he), card_insert_of_notMem, rank]
      exact fun hd => hnew (mem_filter.mp hd).1
    rw [List.toFinset_cons]
    cases m with
    | zero => simp
    | succ m =>
      rw [List.take_succ_cons, List.mem_cons, List.mem_cons, ih hrest]
      constructor
      · rintro (rfl | ⟨he, hlt⟩)
        · exact ⟨.inl rfl, by omega⟩
        · exact ⟨.inr he, by rw [hlater he]; omega⟩
      · rintro ⟨rfl | he, hlt⟩
        · exact .inl rfl
        · rw [hlater he] at hlt
          exact .inr ⟨he, by omega⟩

/-! ### Samples as sets -/

/-- The exponents of a set with fewer than `m` others before them. -/
def kept (m : ℕ) (s : Finset UInt64) : Finset UInt64 := {e ∈ s | rank s e < m}

theorem kept_of_card_le (h : #s ≤ m) : kept m s = s := by
  apply filter_true_of_mem
  intro e he
  exact (rank_lt_card he).trans_le h

/-- The exponents of a vector in the order of sampling. -/
theorem sorted_exponents (v : Sparse) :
    (v.exponents.mergeSort hashOrder).Pairwise fun d e => place d < place e := by
  have hsorted : (v.exponents.mergeSort hashOrder).Pairwise fun d e => hashOrder d e = true := by
    apply List.pairwise_mergeSort
    · intro c d e hcd hde
      exact hashOrder_iff.mpr ((hashOrder_iff.mp hcd).trans (hashOrder_iff.mp hde))
    · intro d e
      rw [Bool.or_eq_true, hashOrder_iff, hashOrder_iff]
      exact le_total _ _
  have hnodup : (v.exponents.mergeSort hashOrder).Nodup :=
    (List.mergeSort_perm _ _).nodup_iff.mpr v.nodup
  apply hsorted.imp₂ _ hnodup
  intro d e hle hne
  exact lt_of_le_of_ne (hashOrder_iff.mp hle) (place_injective.ne hne)

/-- Either nothing is left out, or the first exponents in the order of sampling are taken. -/
theorem sample_eq : sample m es = ofList m
    (if #(es.toFinset) ≤ m then es else ((ofList m es).exponents.mergeSort hashOrder).take m) := by
  rw [← size_ofList m es, apply_ite (ofList m)]
  rfl

theorem toFinset_sorted :
    ((ofList m es).exponents.mergeSort hashOrder).toFinset = es.toFinset := by
  rw [List.toFinset_eq_of_perm _ _ (List.mergeSort_perm _ _)]
  exact toFinset_ofList m es

theorem toFinset_sample : (sample m es).toFinset = kept m es.toFinset := by
  rw [sample_eq, toFinset_ofList]
  split
  case isTrue hfits => rw [kept_of_card_le hfits]
  case isFalse =>
    ext e
    rw [List.mem_toFinset, mem_take_iff (sorted_exponents _), toFinset_sorted,
      ← List.mem_toFinset, toFinset_sorted, kept, mem_filter]

theorem size_sample : (sample m es).size = min m #(es.toFinset) := by
  rw [sample_eq, ← card_toFinset, toFinset_ofList]
  split
  case isTrue hfits => rw [min_eq_right hfits]
  case isFalse =>
    have hnodup := (sorted_exponents (ofList m es)).imp fun h => ne_of_apply_ne place h.ne
    rw [List.toFinset_card_of_nodup (hnodup.sublist (List.take_sublist _ _)), List.length_take,
      ← toFinset_sorted (m := m), List.toFinset_card_of_nodup hnodup]

theorem card_kept : #(kept m s) = min m #s := by
  rw [← toList_toFinset s, ← toFinset_sample, card_toFinset, size_sample]

/-! ### Leaving out -/

/-- What is sampled from the whole is sampled from every part that it is in. -/
theorem mem_kept_of_subset (h : s ⊆ t) (he : e ∈ s) (hkept : e ∈ kept m t) : e ∈ kept m s :=
  mem_filter.mpr ⟨he, (rank_mono h).trans_lt (mem_filter.mp hkept).2⟩

/-- **What is not sampled may be left out.** -/
theorem kept_eq_of_subset (hkept : kept m t ⊆ s) (h : s ⊆ t) : kept m s = kept m t := by
  apply subset_antisymm
  · intro e he
    obtain ⟨hes, hfew⟩ := mem_filter.mp he
    apply mem_filter.mpr ⟨h hes, ?_⟩
    by_contra hmany
    -- the first `m` exponents before `e` are sampled from `t`, so none of them has been left out
    let before : Finset UInt64 := {x ∈ t | place x < place e}
    have hfirst : kept m before ⊆ {x ∈ s | place x < place e} := by
      intro x hx
      obtain ⟨hbefore, hrank⟩ := mem_filter.mp hx
      obtain ⟨hxt, hxe⟩ := mem_filter.mp hbefore
      have hsame : rank t x ≤ rank before x := by
        apply card_le_card
        intro w hw
        obtain ⟨hwt, hwx⟩ := mem_filter.mp hw
        exact mem_filter.mpr ⟨mem_filter.mpr ⟨hwt, hwx.trans hxe⟩, hwx⟩
      have hsampled : x ∈ kept m t := mem_filter.mpr ⟨hxt, hsame.trans_lt hrank⟩
      exact mem_filter.mpr ⟨hkept hsampled, hxe⟩
    have hall : m ≤ #(before) := not_lt.mp hmany
    have hcount : #(kept m before) ≤ rank s e := card_le_card hfirst
    rw [card_kept, min_eq_left hall] at hcount
    omega
  · intro e he
    exact mem_kept_of_subset h (hkept he) he

theorem kept_union : kept m (kept m s ∪ kept m t) = kept m (s ∪ t) := by
  apply kept_eq_of_subset
  · intro e he
    rcases mem_union.mp (mem_filter.mp he).1 with hs | ht
    · exact mem_union_left _ (mem_kept_of_subset subset_union_left hs he)
    · exact mem_union_right _ (mem_kept_of_subset subset_union_right ht he)
  · exact union_subset_union (filter_subset _ _) (filter_subset _ _)

/-! ### Bundles -/

/-- A vector of bound `m` with at most as many exponents. -/
structure Within (m : ℕ) (v : Sparse) : Prop where
  maxSize : v.maxSize = m
  size : v.size ≤ m

instance : Decidable (Within m v) :=
  decidable_of_iff (v.maxSize = m ∧ v.size ≤ m) ⟨fun ⟨hm, hs⟩ => ⟨hm, hs⟩, fun h => ⟨h.1, h.2⟩⟩

/-- The exponents and their bound are all that there is to a vector. -/
theorem eq_of_toFinset (hbound : a.maxSize = b.maxSize) (h : a.toFinset = b.toFinset) : a = b := by
  obtain ⟨ma, as, ha⟩ := a
  obtain ⟨mb, bs, hb⟩ := b
  have hmem (e : UInt64) : e ∈ as ↔ e ∈ bs := by
    simpa [toFinset] using congrArg (e ∈ ·) h
  cases hbound
  cases ha.eq_of_mem_iff hb hmem
  rfl

theorem maxSize_sample : (sample m es).maxSize = m := by
  rw [sample_eq]
  rfl

theorem within_sample : Within m (sample m es) := by
  refine ⟨maxSize_sample, ?_⟩
  rw [size_sample]
  exact min_le_left _ _

theorem sample_congr (h : kept m es.toFinset = kept m fs.toFinset) : sample m es = sample m fs := by
  apply eq_of_toFinset
  · rw [maxSize_sample, maxSize_sample]
  · rw [toFinset_sample, toFinset_sample, h]

theorem Within.sample_exponents (h : Within m v) : sample m v.exponents = v := by
  have hfits : #(v.exponents.toFinset) ≤ m := by
    rw [← toFinset, card_toFinset]
    exact h.size
  apply eq_of_toFinset
  · rw [maxSize_sample, h.maxSize]
  · rw [toFinset_sample, kept_of_card_le hfits, toFinset]

/-- The exponents of several vectors. -/
def allExponents (vs : List Sparse) : Finset UInt64 := (vs.flatMap exponents).toFinset

theorem mem_allExponents : e ∈ allExponents vs ↔ ∃ v ∈ vs, e ∈ v.exponents := by
  rw [allExponents, List.mem_toFinset, List.mem_flatMap]

theorem allExponents_append : allExponents (vs ++ ws) = allExponents vs ∪ allExponents ws := by
  rw [allExponents, List.flatMap_append, List.toFinset_append, allExponents, allExponents]

theorem allExponents_pair : allExponents [a, b] = a.toFinset ∪ b.toFinset := by
  simp [allExponents, toFinset]

/-- The samples of two sets have the sample of their union. -/
theorem kept_samples (m : ℕ) (es fs : List UInt64) :
    kept m (allExponents [sample m es, sample m fs]) = kept m (es.toFinset ∪ fs.toFinset) := by
  rw [allExponents_pair, toFinset_sample, toFinset_sample, kept_union]

/-- **A bundle is the sample of the union**, also that of a single vector. -/
theorem bundle_eq (hne : vs ≠ []) (h : ∀ v ∈ vs, Within m v) :
    bundle vs = .ok (sample m (vs.flatMap exponents)) := by
  match vs with
  | [] => contradiction
  | [v] =>
    rw [List.flatMap_singleton, (h v (by simp)).sample_exponents]
    rfl
  | v :: w :: vs =>
    have hsame : ∀ u ∈ v :: w :: vs, v.checkSame u = .ok () := by
      intro u hu
      exact checkSame_of_eq ((h v List.mem_cons_self).maxSize.trans (h u hu).maxSize.symm)
    have hchecked : (v :: w :: vs).forM v.checkSame = .ok () := Outcome.forM_of_forall hsame
    have hbundle : bundle (v :: w :: vs) = do
        (v :: w :: vs).forM v.checkSame
        return sample v.maxSize ((v :: w :: vs).flatMap exponents) := rfl
    rw [hbundle, hchecked, (h v List.mem_cons_self).maxSize]
    rfl

/-- Vectors whose unions have one sample have one bundle. -/
theorem bundle_congr (hvs : vs ≠ []) (hws : ws ≠ []) (hv : ∀ v ∈ vs, Within m v)
    (hw : ∀ w ∈ ws, Within m w) (h : kept m (allExponents vs) = kept m (allExponents ws)) :
    bundle vs = bundle ws := by
  rw [bundle_eq hvs hv, bundle_eq hws hw, sample_congr h]

/-- Only which vectors there are matters to a bundle. -/
theorem bundle_congr_mem (hws : ws ≠ []) (hw : ∀ w ∈ ws, Within m w) (h : ∀ v, v ∈ vs ↔ v ∈ ws) :
    bundle vs = bundle ws := by
  have hunion : allExponents vs = allExponents ws := by
    ext e
    simp only [mem_allExponents, h]
  have hvs : vs ≠ [] := by
    obtain ⟨w, hmem⟩ := List.exists_mem_of_ne_nil ws hws
    exact List.ne_nil_of_mem ((h w).mpr hmem)
  apply bundle_congr hvs hws (fun v hv => hw v ((h v).mp hv)) hw
  rw [hunion]

/-- The bundle of two bundles is that of all their vectors. -/
theorem bundle_bundles (xs ys : List Sparse) (hxs : xs ≠ []) (hys : ys ≠ [])
    (hx : ∀ v ∈ xs, Within m v) (hy : ∀ v ∈ ys, Within m v) :
    ∃ x y z, bundle xs = .ok x ∧ bundle ys = .ok y ∧ bundle [x, y] = .ok z ∧
      bundle (xs ++ ys) = .ok z := by
  have hxy : ∀ v ∈ xs ++ ys, Within m v := by
    intro v hv
    exact (List.mem_append.mp hv).elim (hx v) (hy v)
  have hpair : ∀ v ∈ [sample m (xs.flatMap exponents), sample m (ys.flatMap exponents)],
      Within m v := by
    simp [within_sample]
  have hmerge := kept_samples m (xs.flatMap exponents) (ys.flatMap exponents)
  rw [← allExponents, ← allExponents, ← allExponents_append] at hmerge
  refine ⟨_, _, _, bundle_eq hxs hx, bundle_eq hys hy, ?_, bundle_eq (by simp [hxs]) hxy⟩
  rw [bundle_congr (List.cons_ne_nil _ _) (by simp [hxs]) hpair hxy hmerge]
  exact bundle_eq (by simp [hxs]) hxy

/-- Bundling two vectors of bound `m` is a join: associative, commutative and idempotent. -/
structure Joins (m : ℕ) : Prop where
  assoc : ∀ a b c, Within m a → Within m b → Within m c → ∃ ab bc abc,
    bundle [a, b] = .ok ab ∧ bundle [b, c] = .ok bc ∧
      bundle [ab, c] = .ok abc ∧ bundle [a, bc] = .ok abc
  comm : ∀ a b, Within m a → Within m b → ∃ ab, bundle [a, b] = .ok ab ∧ bundle [b, a] = .ok ab
  idem : ∀ a, Within m a → bundle [a, a] = .ok a

theorem joins (m : ℕ) : Joins m := by
  constructor
  case assoc =>
    intro a b c ha hb hc
    obtain ⟨ab, c', abc, hab, hc', habc, hall⟩ :=
      bundle_bundles (m := m) [a, b] [c] (by simp) (by simp) (by simp [ha, hb]) (by simp [hc])
    obtain ⟨a', bc, abc', ha', hbc, habc', hall'⟩ :=
      bundle_bundles (m := m) [a] [b, c] (by simp) (by simp) (by simp [ha]) (by simp [hb, hc])
    cases hc'
    cases ha'
    have heq : abc = abc' := Except.ok.inj (hall.symm.trans hall')
    exact ⟨ab, bc, abc, hab, hbc, habc, heq ▸ habc'⟩
  case comm =>
    intro a b ha hb
    have hw : ∀ v ∈ [a, b], Within m v := by simp [ha, hb]
    have hab : bundle [a, b] = _ := bundle_eq (List.cons_ne_nil _ _) hw
    have hba : bundle [b, a] = bundle [a, b] :=
      bundle_congr_mem (List.cons_ne_nil _ _) hw (by simp [or_comm])
    exact ⟨_, hab, hba.trans hab⟩
  case idem =>
    intro a ha
    exact bundle_congr_mem (List.cons_ne_nil a []) (by simpa using ha) (by simp)

/-- **Bundling is a mergeable sample.**  Two groups of vectors may be bundled apart and then
together, order and repetitions do not matter, and so bundling is a join, whatever is discarded on
the way. -/
theorem bundle_mergeable (hxs : xs ≠ []) (hys : ys ≠ []) (h : ∀ v ∈ xs ++ ys, Within m v) :
    (∃ x y z, bundle xs = .ok x ∧ bundle ys = .ok y ∧ bundle [x, y] = .ok z ∧
      bundle (xs ++ ys) = .ok z) ∧
    (∀ zs, (∀ v, v ∈ zs ↔ v ∈ xs) → bundle zs = bundle xs) ∧ Joins m := by
  have hx : ∀ v ∈ xs, Within m v := fun v hv => h v (List.mem_append_left _ hv)
  have hy : ∀ v ∈ ys, Within m v := fun v hv => h v (List.mem_append_right _ hv)
  refine ⟨?_, ?_, joins m⟩
  · exact bundle_bundles xs ys hxs hys hx hy
  · intro zs hzs
    exact bundle_congr_mem hxs hx hzs

/-- Three vectors of two exponents at most, which have five between them. -/
theorem bundle_mergeable_overfull :
    (∀ v ∈ [ofList 2 [1, 2], ofList 2 [3]] ++ [ofList 2 [4, 5]], Within 2 v) ∧
      #(allExponents ([ofList 2 [1, 2], ofList 2 [3]] ++ [ofList 2 [4, 5]])) = 5 ∧
      (∃ x y z, bundle [ofList 2 [1, 2], ofList 2 [3]] = .ok x ∧
        bundle [ofList 2 [4, 5]] = .ok y ∧ bundle [x, y] = .ok z ∧
        bundle [ofList 2 [1, 2], ofList 2 [3], ofList 2 [4, 5]] = .ok z) ∧
      bundle [ofList 2 [3], ofList 2 [1, 2], ofList 2 [3]] =
        bundle [ofList 2 [1, 2], ofList 2 [3]] ∧
      Joins 2 := by
  have hwithin : ∀ v ∈ [ofList 2 [1, 2], ofList 2 [3]] ++ [ofList 2 [4, 5]], Within 2 v := by
    decide +kernel
  obtain ⟨hmerge, hsame, hjoins⟩ :=
    bundle_mergeable (List.cons_ne_nil _ _) (List.cons_ne_nil _ _) hwithin
  refine ⟨hwithin, by decide +kernel, hmerge, ?_, hjoins⟩
  apply hsame
  intro v
  constructor
  · simp only [List.mem_cons, List.not_mem_nil, or_false]
    tauto
  · simp only [List.mem_cons, List.not_mem_nil, or_false]
    tauto

end KnowledgeBase.Sparse
