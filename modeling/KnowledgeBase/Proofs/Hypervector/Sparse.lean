import KnowledgeBase.Hypervector.Sparse
import Mathlib.Algebra.Order.Field.Rat
import Mathlib.Data.Finset.NAry
import Mathlib.Data.Sym.Card
import Mathlib.Tactic.Linarith
import Std.Data.TreeSet.Lemmas

/-!
# Binding twice

Where there is room for all combined exponents nothing is discarded, and binding is the set of all
pairwise combinations.  A vector is unbound by binding it once more with the same vector.  That
combines every exponent with the differences of the other vector, so what was bound comes back, and
with it as many others, at most, for each pair of exponents in the other vector.

* `toFinset`, `toFinset_ofList`: vectors as finite sets;
* `bind_eq`: binding is the sample of what is combined;
* `bind_of_fits`, `bind_bind_of_fits`: binding once and twice with nothing discarded;
* `card_differences_le`: how many differences a set has;
* `exponents_return`: nothing is lost where nothing is discarded;
* `jaccard`, `similarity_eq`: the fraction that the similarity rounds;
* `survives_iff`: how much is left of a vector, by the number of differences;
* `survives_floor_iff`: fourteen exponents are the most that keep one part in a hundred;
* `floor_missed`: fifteen that do not.
-/

namespace KnowledgeBase.Sparse

open Finset

variable {a b : Sparse} {e : UInt64} {es xs ys : List UInt64} {m n : ℕ}

/-! ### Sets of exponents -/

/-- The exponents as a finite set. -/
def toFinset (v : Sparse) : Finset UInt64 := v.exponents.toFinset

theorem nodup (v : Sparse) : v.exponents.Nodup := by
  apply v.ascending.imp
  intro x y hlt
  exact UInt64.ne_of_lt hlt

theorem card_toFinset (v : Sparse) : #v.toFinset = v.size :=
  List.toFinset_card_of_nodup v.nodup

theorem toFinset_ofList (m : ℕ) (es : List UInt64) : (ofList m es).toFinset = es.toFinset := by
  ext e
  unfold toFinset ofList ofSet
  rw [List.mem_toFinset, List.mem_toFinset, Std.TreeSet.mem_toList, Std.TreeSet.mem_ofList,
    List.contains_iff_mem]

theorem size_ofList (m : ℕ) (es : List UInt64) : (ofList m es).size = #(es.toFinset) := by
  rw [← card_toFinset, toFinset_ofList]

theorem size_singleton (m : ℕ) (e : UInt64) : (ofList m [e]).size = 1 := by
  rw [size_ofList, List.toFinset_cons, List.toFinset_nil, insert_empty_eq, card_singleton]

/-- A set that is small enough is no sample. -/
theorem sample_of_le (h : #(es.toFinset) ≤ m) : sample m es = ofList m es := by
  unfold sample
  exact if_pos ((size_ofList m es).trans_le h)

/-! ### Combined exponents -/

/-- All pairs are combined if they are no more than the cap, by induction on the rows. -/
theorem productsUpTo_eq {cap : ℕ} (h : xs.length * ys.length ≤ cap) :
    productsUpTo ys cap xs = xs.flatMap fun x => ys.map (x ^^^ ·) := by
  induction xs generalizing cap with
  | nil => simp [productsUpTo]
  | cons x xs ih =>
    rw [List.length_cons, Nat.succ_mul] at h
    have hrow : ys.take cap = ys := List.take_of_length_le (by omega)
    rw [productsUpTo, hrow, List.length_map, List.flatMap_cons]
    split
    · -- the first row takes up all that is allowed, so there is nothing in the others
      have hrest : xs.length * ys.length = 0 := by omega
      have hnil : xs.flatMap (fun x => ys.map (x ^^^ ·)) = [] := by
        rcases Nat.mul_eq_zero.mp hrest with hxs | hys
        · simp [List.length_eq_zero_iff.mp hxs]
        · simp [List.length_eq_zero_iff.mp hys]
      rw [hnil, List.append_nil]
    · rw [ih (by omega)]

theorem toFinset_products (h : a.size * b.size ≤ bindCap) :
    (products a b).toFinset = image₂ (· ^^^ ·) a.toFinset b.toFinset := by
  ext e
  unfold products toFinset
  rw [productsUpTo_eq h]
  simp [mem_image₂]

/-- The pairs that are combined, the operand that precedes coming first. -/
def combined (a b : Sparse) : List UInt64 :=
  if b.precedes a then products b a else products a b

theorem toFinset_combined (h : a.size * b.size ≤ bindCap) :
    (combined a b).toFinset = image₂ (· ^^^ ·) a.toFinset b.toFinset := by
  unfold combined
  split
  · rw [toFinset_products (by rwa [Nat.mul_comm]), image₂_comm UInt64.xor_comm]
  · exact toFinset_products h

theorem checkSame_of_eq (h : a.maxSize = b.maxSize) : a.checkSame b = .ok () := if_pos h

theorem bind_eq (h : a.maxSize = b.maxSize) : a.bind b = .ok (sample a.maxSize (combined a b)) := by
  unfold bind
  rw [checkSame_of_eq h]
  rfl

/-- **Binding is the set of all combinations**, if these are few enough. -/
theorem bind_of_fits (hsame : a.maxSize = b.maxSize) (hcap : a.size * b.size ≤ bindCap)
    (hfits : a.size * b.size ≤ a.maxSize) :
    ∃ c, a.bind b = .ok c ∧ c.maxSize = a.maxSize ∧
      c.toFinset = image₂ (· ^^^ ·) a.toFinset b.toFinset := by
  have hcard : #((combined a b).toFinset) ≤ a.maxSize := by
    have hle := card_image₂_le (· ^^^ ·) a.toFinset b.toFinset
    rw [card_toFinset, card_toFinset] at hle
    rw [toFinset_combined hcap]
    exact hle.trans hfits
  refine ⟨ofList a.maxSize (combined a b), ?_, rfl, ?_⟩
  · rw [bind_eq hsame, sample_of_le hcard]
  · rw [toFinset_ofList, toFinset_combined hcap]

/-- The combinations of exponents of one vector. -/
def differences (s : Finset UInt64) : Finset UInt64 := image₂ (· ^^^ ·) s s

/-- Every exponent of the one combined with every difference of the other. -/
def returned (a b : Sparse) : Finset UInt64 :=
  image₂ (· ^^^ ·) a.toFinset (differences b.toFinset)

/-- Binding twice with one vector combines every exponent with the differences of the vector. -/
theorem bind_bind_of_fits (hsame : a.maxSize = b.maxSize) (hb : 0 < b.size)
    (hfits : a.size * b.size * b.size ≤ a.maxSize) (hcap : a.maxSize ≤ bindCap) :
    ∃ c d, a.bind b = .ok c ∧ c.bind b = .ok d ∧ d.maxSize = a.maxSize ∧
      d.toFinset = a.returned b := by
  have honce : a.size * b.size ≤ a.size * b.size * b.size := Nat.le_mul_of_pos_right _ hb
  obtain ⟨c, hc, hcmax, hcset⟩ := bind_of_fits hsame (by omega) (by omega)
  have hcsize : c.size ≤ a.size * b.size := by
    rw [← card_toFinset, ← card_toFinset, ← card_toFinset, hcset]
    exact card_image₂_le _ _ _
  have htwice : c.size * b.size ≤ a.size * b.size * b.size := Nat.mul_le_mul_right _ hcsize
  obtain ⟨d, hd, hdmax, hdset⟩ :=
    bind_of_fits (a := c) (b := b) (by omega) (by omega) (by omega)
  refine ⟨c, d, hc, hd, by omega, ?_⟩
  rw [hdset, hcset]
  exact image₂_assoc UInt64.xor_assoc

/-- The difference of an unordered pair. -/
def difference : Sym2 UInt64 → UInt64 := Sym2.lift ⟨(· ^^^ ·), UInt64.xor_comm⟩

/-- A set has one difference for each pair of its members at most, and zero. -/
theorem card_differences_le (s : Finset UInt64) : #(differences s) ≤ 1 + (#s).choose 2 := by
  have hpairs : #(s.offDiag.image Sym2.mk.uncurry) = (#s).choose 2 := Sym2.card_image_offDiag s
  have hsubset :
      differences s ⊆ insert 0 ((s.offDiag.image Sym2.mk.uncurry).image difference) := by
    intro e he
    obtain ⟨x, hx, y, hy, rfl⟩ := mem_image₂.mp he
    by_cases hxy : x = y
    · subst hxy
      simp
    · apply mem_insert_of_mem
      apply mem_image.mpr
      refine ⟨s(x, y), ?_, rfl⟩
      exact mem_image.mpr ⟨(x, y), mem_offDiag.mpr ⟨hx, hy, hxy⟩, rfl⟩
  have hle := card_le_card hsubset
  have hinsert := card_insert_le 0 ((s.offDiag.image Sym2.mk.uncurry).image difference)
  have himage := card_image_le (s := s.offDiag.image Sym2.mk.uncurry) (f := difference)
  omega

/-- Everything comes back, as zero is a difference. -/
theorem subset_returned (hb : 0 < b.size) : a.toFinset ⊆ a.returned b := by
  rw [← card_toFinset] at hb
  obtain ⟨y, hy⟩ := card_pos.mp hb
  intro x hx
  apply mem_image₂.mpr
  exact ⟨x, hx, y ^^^ y, mem_image₂_of_mem hy hy, by simp⟩

theorem card_returned_le : #(a.returned b) ≤ a.size * (1 + b.size.choose 2) := by
  calc #(a.returned b)
      ≤ #a.toFinset * #(differences b.toFinset) := card_image₂_le _ _ _
    _ ≤ #a.toFinset * (1 + (#b.toFinset).choose 2) :=
        Nat.mul_le_mul_left _ (card_differences_le _)
    _ = a.size * (1 + b.size.choose 2) := by rw [card_toFinset, card_toFinset]

/-- **Nothing is lost where nothing is discarded.**  With room for the exponents of the first vector
and every pair of exponents of the second, all exponents of the first are there again once it has
been bound and unbound. -/
theorem exponents_return (ha : a.maxSize = m) (hb : b.maxSize = m) (hcap : m ≤ bindCap)
    (hne : b.exponents ≠ []) (hfits : a.size * b.size * b.size ≤ m) :
    ∃ c d, a.bind b = .ok c ∧ c.bind b = .ok d ∧ ∀ e ∈ a.exponents, e ∈ d.exponents := by
  have hpos : 0 < b.size := List.length_pos_iff.mpr hne
  obtain ⟨c, d, hc, hd, -, hset⟩ :=
    bind_bind_of_fits (ha.trans hb.symm) hpos (hfits.trans ha.ge) (ha.trans_le hcap)
  refine ⟨c, d, hc, hd, ?_⟩
  intro e he
  have hreturned : e ∈ a.returned b := subset_returned hpos (List.mem_toFinset.mpr he)
  rw [← hset] at hreturned
  exact List.mem_toFinset.mp hreturned

/-- Four exponents, bound and unbound with three, in no more room than they need. -/
theorem exponents_return_exactly :
    36 ≤ bindCap ∧ (ofList 36 [100, 200, 300]).exponents ≠ [] ∧
      (ofList 36 [1, 2, 3, 4]).size * (ofList 36 [100, 200, 300]).size *
        (ofList 36 [100, 200, 300]).size = 36 ∧
      ∃ c d, (ofList 36 [1, 2, 3, 4]).bind (ofList 36 [100, 200, 300]) = .ok c ∧
        c.bind (ofList 36 [100, 200, 300]) = .ok d ∧
        ∀ e ∈ (ofList 36 [1, 2, 3, 4]).exponents, e ∈ d.exponents := by
  have hne : (ofList 36 [100, 200, 300]).exponents ≠ [] := by decide +kernel
  have hsize : (ofList 36 [1, 2, 3, 4]).size * (ofList 36 [100, 200, 300]).size *
      (ofList 36 [100, 200, 300]).size = 36 := by
    decide +kernel
  exact ⟨by decide, hne, hsize, exponents_return rfl rfl (by decide) hne hsize.le⟩

/-! ### Similarity -/

/-- The Jaccard index as an exact fraction. -/
def jaccard (a b : Sparse) : ℚ := a.shared b / (a.size + b.size - a.shared b : ℕ)

theorem shared_eq : a.shared b = #(a.toFinset ∩ b.toFinset) := by
  have hfilter : a.toFinset ∩ b.toFinset =
      (a.exponents.filter (Std.TreeSet.ofList b.exponents).contains).toFinset := by
    ext e
    simp [toFinset, Std.TreeSet.contains_ofList]
  rw [hfilter, List.toFinset_card_of_nodup (a.nodup.filter _), ← List.countP_eq_length_filter]
  rfl

/-- The similarity is the Jaccard index, its terms rounded and divided in single precision. -/
theorem similarity_eq (hsame : a.maxSize = b.maxSize) (hb : b.exponents ≠ []) :
    a.similarity b =
      .ok ((a.shared b).toFloat32 / (a.size + b.size - a.shared b).toFloat32) := by
  unfold similarity
  rw [checkSame_of_eq hsame]
  simp [hb]

theorem jaccard_of_subset (h : b.toFinset ⊆ a.toFinset) : a.jaccard b = b.size / a.size := by
  have hshared : a.shared b = b.size := by
    rw [shared_eq, inter_eq_right.mpr h, card_toFinset]
  unfold jaccard
  rw [hshared, Nat.add_sub_cancel]

/-! ### What is left -/

/-- Vectors for which nothing is discarded: `n` exponents in the second, and room for the
exponents of the first with every pair of them. -/
structure Small (m n : ℕ) (a b : Sparse) : Prop where
  left : a.maxSize = m
  right : b.maxSize = m
  nonempty : a.exponents ≠ []
  size : b.size = n
  fits : a.size * n * n ≤ m

instance : Decidable (Small m n a b) :=
  decidable_of_iff
    (a.maxSize = m ∧ b.maxSize = m ∧ a.exponents ≠ [] ∧ b.size = n ∧ a.size * n * n ≤ m)
    ⟨fun ⟨hl, hr, hne, hs, hf⟩ => ⟨hl, hr, hne, hs, hf⟩,
      fun h => ⟨h.left, h.right, h.nonempty, h.size, h.fits⟩⟩

/-- Bound with `b` and unbound, `a` is found again with a Jaccard index of `floor` at least.  The
index is the fraction whose terms the similarity rounds. -/
def Survives (floor : ℚ) (a b : Sparse) : Prop :=
  ∃ c d, a.bind b = .ok c ∧ c.bind b = .ok d ∧
    d.similarity a = .ok ((d.shared a).toFloat32 / (d.size + a.size - d.shared a).toFloat32) ∧
    floor ≤ d.jaccard a

/-- What is left of a vector is its share of what comes back. -/
theorem survives_iff (hn : 0 < n) (hcap : m ≤ bindCap) (h : Small m n a b) (floor : ℚ) :
    Survives floor a b ↔ floor ≤ a.size / #(a.returned b) := by
  obtain ⟨hleft, hright, hne, rfl, hfits⟩ := h
  obtain ⟨c, d, hc, hd, hdmax, hdset⟩ :=
    bind_bind_of_fits (hleft.trans hright.symm) hn (by omega) (by omega)
  have hindex : d.jaccard a = a.size / #(a.returned b) := by
    have hsubset : a.toFinset ⊆ d.toFinset := by
      rw [hdset]
      exact subset_returned hn
    rw [jaccard_of_subset hsubset, ← card_toFinset d, hdset]
  constructor
  · rintro ⟨c', d', hc', hd', -, hfloor⟩
    rw [hc] at hc'
    cases hc'
    rw [hd] at hd'
    cases hd'
    rwa [hindex] at hfloor
  · intro hfloor
    refine ⟨c, d, hc, hd, similarity_eq hdmax hne, ?_⟩
    rwa [hindex]

/-- Any floor is kept that is one in the number of differences `n` exponents can have, or less. -/
theorem survives_of_pairs (hn : 0 < n) (hcap : m ≤ bindCap) (h : Small m n a b) {floor : ℚ}
    (hfloor : floor * (1 + n.choose 2) ≤ 1) : Survives floor a b := by
  rw [survives_iff hn hcap h]
  obtain ⟨-, -, hne, rfl, -⟩ := h
  have hsize : 0 < a.size := List.length_pos_of_ne_nil hne
  have hreturned : 0 < #(a.returned b) := by
    rw [← card_toFinset] at hsize
    exact hsize.trans_le (card_le_card (subset_returned hn))
  have hcard : (#(a.returned b) : ℚ) ≤ a.size * (1 + b.size.choose 2) := by
    exact_mod_cast card_returned_le
  rw [le_div_iff₀ (by exact_mod_cast hreturned)]
  rcases le_total floor 0 with hneg | hpos
  · exact (mul_nonpos_of_nonpos_of_nonneg hneg (Nat.cast_nonneg _)).trans (Nat.cast_nonneg _)
  · calc floor * #(a.returned b)
        ≤ floor * (a.size * (1 + b.size.choose 2)) := mul_le_mul_of_nonneg_left hcard hpos
      _ = a.size * (floor * (1 + b.size.choose 2)) := mul_left_comm _ _ _
      _ ≤ a.size := mul_le_of_le_one_right (Nat.cast_nonneg _) hfloor

/-- The first fifteen powers of two, all of whose differences differ. -/
def powers : List UInt64 := (List.range 15).map fun i => 1 <<< UInt64.ofNat i

theorem card_differences_powers : #(differences powers.toFinset) = 106 := by
  decide +kernel

/-- The powers of two can be filled up to any number of exponents from fifteen to the number of
bytes. -/
theorem exists_powers_subset (hlow : 15 ≤ n) (hhigh : n ≤ 256) :
    ∃ s : Finset UInt64, powers.toFinset ⊆ s ∧ #s = n := by
  have hinjective : Set.InjOn UInt64.ofNat (range 256) := by
    intro i hi j hj hij
    have hi' : i < 256 := by simpa using hi
    have hj' : j < 256 := by simpa using hj
    have hmod := congrArg UInt64.toNat hij
    rw [UInt64.toNat_ofNat', UInt64.toNat_ofNat'] at hmod
    omega
  have hbytes : #((range 256).image UInt64.ofNat) = 256 := by
    rw [card_image_of_injOn hinjective, card_range]
  have hpowers : #(powers.toFinset) = 15 := by decide +kernel
  have hleft : powers.toFinset ⊆ powers.toFinset ∪ (range 256).image UInt64.ofNat :=
    subset_union_left
  have hright : 256 ≤ #(powers.toFinset ∪ (range 256).image UInt64.ofNat) := by
    apply hbytes.ge.trans
    exact card_le_card subset_union_right
  obtain ⟨s, hsubset, -, hcard⟩ :=
    exists_subsuperset_card_eq hleft (hpowers.trans_le hlow) (hhigh.trans hright)
  exact ⟨s, hsubset, hcard⟩

/-- A single exponent, bound and unbound with all of the powers of two, is found among a hundred
and six at least. -/
theorem not_survives_of_powers (hn : 0 < n) (hcap : m ≤ bindCap)
    (h : Small m n (ofList m [0]) b) (hpowers : powers.toFinset ⊆ b.toFinset) :
    ¬ Survives (1 / 100) (ofList m [0]) b := by
  have hzero : (ofList m [0]).toFinset = {0} := toFinset_ofList m [0]
  have hreturned : 106 ≤ #((ofList m [0]).returned b) := by
    unfold returned
    rw [hzero, image₂_singleton_left, ← card_differences_powers]
    simp only [UInt64.zero_xor, image_id']
    exact card_le_card (image₂_subset hpowers hpowers)
  rw [survives_iff hn hcap h, size_singleton, not_le]
  have hcast : (106 : ℚ) ≤ #((ofList m [0]).returned b) := by exact_mod_cast hreturned
  rw [div_lt_div_iff₀ (by linarith) (by norm_num)]
  push_cast
  linarith

/-- **Bound and unbound with `n` exponents, a vector is one part at least in `1 + n.choose 2` of what
comes back.  One part in a hundred is kept of every vector, whatever the exponents, if and only if
they are fourteen at most.** -/
theorem survives_floor_iff (hn : 0 < n) (hm : n * n ≤ m) (hcap : m ≤ bindCap) :
    (∀ a b, Small m n a b → Survives (1 / (1 + n.choose 2)) a b) ∧
      ((∀ a b, Small m n a b → Survives (1 / 100) a b) ↔ n ≤ 14) := by
  have hpairs : (0 : ℚ) < 1 + n.choose 2 := by positivity
  refine ⟨?_, ?_, ?_⟩
  · intro a b h
    apply survives_of_pairs hn hcap h
    rw [one_div_mul_cancel hpairs.ne']
  · intro hall
    by_contra hlarge
    have hsquare : n * n ≤ 50000 := hm.trans hcap
    have hhigh : n ≤ 256 := by nlinarith
    obtain ⟨s, hsubset, hcard⟩ := exists_powers_subset (by omega) hhigh
    have hset : (ofList m s.toList).toFinset = s := by
      rw [toFinset_ofList, toList_toFinset]
    have hsmall : Small m n (ofList m [0]) (ofList m s.toList) := by
      refine ⟨rfl, rfl, ?_, ?_, ?_⟩
      · exact List.ne_nil_of_length_pos (size_singleton m 0).ge
      · rw [← card_toFinset, hset, hcard]
      · rw [size_singleton, Nat.one_mul]
        exact hm
    apply not_survives_of_powers hn hcap hsmall
    · rwa [hset]
    · exact hall _ _ hsmall
  · intro hfew a b h
    apply survives_of_pairs hn hcap h
    have hchoose : n.choose 2 ≤ 91 := Nat.choose_le_choose 2 hfew
    have hcast : (n.choose 2 : ℚ) ≤ 91 := by exact_mod_cast hchoose
    linarith

/-- Four exponents, bound and unbound with three. -/
theorem survives_floor_iff_three :
    0 < 3 ∧ 3 * 3 ≤ 500 ∧ 500 ≤ bindCap ∧
      Small 500 3 (ofList 500 [1, 2, 3, 4]) (ofList 500 [100, 200, 300]) ∧
      Survives (1 / (1 + Nat.choose 3 2)) (ofList 500 [1, 2, 3, 4]) (ofList 500 [100, 200, 300]) ∧
      Survives (1 / 100) (ofList 500 [1, 2, 3, 4]) (ofList 500 [100, 200, 300]) := by
  have hsmall : Small 500 3 (ofList 500 [1, 2, 3, 4]) (ofList 500 [100, 200, 300]) := by
    decide +kernel
  obtain ⟨hpairs, hfloor⟩ :=
    survives_floor_iff (m := 500) (n := 3) (by decide) (by decide) (by decide)
  refine ⟨by decide, by decide, by decide, hsmall, ?_, ?_⟩
  · exact hpairs _ _ hsmall
  · exact hfloor.mpr (by decide) _ _ hsmall

/-- A single exponent and fifteen powers of two: nothing is discarded, and one part in a hundred
and six is left. -/
theorem floor_missed :
    225 ≤ bindCap ∧ Small 225 15 (ofList 225 [0]) (ofList 225 powers) ∧
      Survives (1 / 106) (ofList 225 [0]) (ofList 225 powers) ∧
      ¬ Survives (1 / 100) (ofList 225 [0]) (ofList 225 powers) := by
  have hsmall : Small 225 15 (ofList 225 [0]) (ofList 225 powers) := by
    decide +kernel
  refine ⟨by decide, hsmall, ?_, ?_⟩
  · apply survives_of_pairs (by decide) (by decide) hsmall
    norm_num [Nat.choose_two_right]
  · apply not_survives_of_powers (by decide) (by decide) hsmall
    rw [toFinset_ofList]

end KnowledgeBase.Sparse
