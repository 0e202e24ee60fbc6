import KnowledgeBase.Store.Versions
import KnowledgeBase.Store.Index
import Mathlib.Data.List.Sort
import Mathlib.Tactic.Lemma
import Std.Data.TreeMap.Lemmas

/-!
# Buckets of an index

What `push` and `drop` do to the buckets of an index, and `Files`: an index files the ids of known
facts under a key, each bucket in a fixed order.

* `Files.push`, `Files.drop`: a fact that comes in or goes is filed or taken out again;
* `Files.congr`: a change of facts that leaves their keys alone leaves the files in order;
* `Versions.sorted_pairwise`: sorted versions stand in strict order of rank, and
  `Versions.sort_known` says when a sort does not break off.
-/

namespace KnowledgeBase

/-! ### Single buckets -/

namespace Index

variable (idx : Index) (k k' : String) (id : FactId)

@[simp] theorem bucket_empty : bucket ∅ k = [] := by simp [bucket]

theorem bucket_insert (ids : List FactId) :
    bucket (idx.insert k ids) k' = if k = k' then ids else idx.bucket k' := by
  unfold bucket
  rw [Std.TreeMap.getD_insert]
  simp only [Std.compare_eq_iff_eq]

theorem bucket_push :
    (idx.push k id).bucket k' = if k = k' then idx.bucket k ++ [id] else idx.bucket k' :=
  bucket_insert idx k k' _

theorem bucket_drop :
    (idx.drop k id).bucket k' =
      if k = k' then (idx.bucket k).filter (· != id) else idx.bucket k' := by
  simp only [drop]
  by_cases hnil : (idx.bucket k).filter (· != id) = []
  · rw [if_pos (List.isEmpty_iff.mpr hnil), hnil]
    unfold bucket
    rw [Std.TreeMap.getD_erase]
    simp only [Std.compare_eq_iff_eq]
  · rw [if_neg (by simpa using hnil)]
    exact bucket_insert idx k k' _

end Index

/-! ### Indexes that file facts -/

/-- An index files the ids of the facts that `look` knows under the key of each, with every bucket
in the order `r`. -/
structure Files (look : FactId → Option Fact) (key : Fact → String)
    (r : FactId → FactId → Prop) (idx : Index) : Prop where
  sorted : ∀ k, (idx.bucket k).Pairwise r
  mem_iff : ∀ k id, id ∈ idx.bucket k ↔ ∃ f, look id = some f ∧ key f = k

namespace Files

variable {look look' : FactId → Option Fact} {key : Fact → String}
  {r : FactId → FactId → Prop} {idx : Index} {f : Fact} {id : FactId}

theorem empty : Files (fun _ => none) key r ∅ :=
  ⟨fun k => by simp, fun k id => by simp⟩

theorem congr (h : Files look key r idx) (hk : ∀ i, (look' i).map key = (look i).map key) :
    Files look' key r idx := by
  refine ⟨h.sorted, fun k i => ?_⟩
  rw [h.mem_iff]
  have hi := hk i
  constructor
  · rintro ⟨f, hf, rfl⟩
    rw [hf] at hi
    exact Option.map_eq_some_iff.mp hi
  · rintro ⟨f, hf, rfl⟩
    rw [hf] at hi
    exact Option.map_eq_some_iff.mp hi.symm

/-- The members of the bucket that a new fact is filed in. -/
theorem mem_append (h : Files look key r idx) (hid : look id = none)
    (hl : ∀ i, look' i = if i = id then some f else look i) (i : FactId) :
    i ∈ idx.bucket (key f) ++ [id] ↔ ∃ g, look' i = some g ∧ key g = key f := by
  rw [List.mem_append, List.mem_singleton, h.mem_iff, hl]
  by_cases hi : i = id
  · subst hi
    simp [hid]
  · simp [hi]

/-- A new fact leaves the buckets of other keys alone. -/
theorem mem_other (h : Files look key r idx) (hid : look id = none)
    (hl : ∀ i, look' i = if i = id then some f else look i) {k : String} (hk : key f ≠ k)
    (i : FactId) : i ∈ idx.bucket k ↔ ∃ g, look' i = some g ∧ key g = k := by
  rw [h.mem_iff, hl]
  by_cases hi : i = id
  · subst hi
    simp [hid, hk]
  · simp [hi]

theorem push (h : Files look key r idx) (hid : look id = none)
    (hl : ∀ i, look' i = if i = id then some f else look i)
    (hlast : ∀ i, (look i).isSome → r i id) : Files look' key r (idx.push (key f) id) := by
  refine ⟨fun k => ?_, fun k i => ?_⟩
  · rw [Index.bucket_push]
    split
    · rename_i hk
      refine List.pairwise_append.mpr ⟨h.sorted _, List.pairwise_singleton _ _, ?_⟩
      intro i hi j hj
      obtain ⟨g, hg, -⟩ := (h.mem_iff _ _).mp hi
      rw [List.mem_singleton.mp hj]
      exact hlast i (by simp [hg])
    · exact h.sorted k
  · rw [Index.bucket_push]
    split
    · rename_i hk
      subst hk
      exact h.mem_append hid hl i
    · rename_i hk
      exact h.mem_other hid hl hk i

theorem drop (h : Files look key r idx) (hf : look id = some f)
    (hl : ∀ i, look' i = if i = id then none else look i) :
    Files look' key r (idx.drop (key f) id) := by
  refine ⟨fun k => ?_, fun k i => ?_⟩
  · rw [Index.bucket_drop]
    split
    · exact (h.sorted _).filter _
    · exact h.sorted k
  · rw [Index.bucket_drop, hl]
    by_cases hi : i = id
    · subst hi
      have hother : key f ≠ k → i ∉ idx.bucket k := by
        intro hk hmem
        obtain ⟨g, hg, rfl⟩ := (h.mem_iff _ _).mp hmem
        rw [hf] at hg
        exact hk (by rw [Option.some.inj hg])
      by_cases hk : key f = k
      · simp [hk]
      · simp [hk, hother hk]
    · rw [if_neg hi]
      split
      · rename_i hk
        subst hk
        rw [List.mem_filter, h.mem_iff]
        simp [hi]
      · exact h.mem_iff k i

end Files

/-! ### Versions in order of rank -/

namespace Versions

/-- The strict order of the versions of a triple. -/
def Ranks (level? : FactId → Option Existence) (a b : FactId) : Prop :=
  level level? b < level level? a ∨ level level? a = level level? b ∧ a < b

instance (level? : FactId → Option Existence) (a b : FactId) : Decidable (Ranks level? a b) :=
  inferInstanceAs (Decidable (_ ∨ _))

variable {level? level?' : FactId → Option Existence} {a b c : FactId} {ids : List FactId}

theorem order_iff : order (level level?) a b = true ↔ Ranks level? a b ∨ a = b := by
  unfold order Ranks
  split
  · rename_i h
    rw [decide_eq_true_eq, UInt64.le_iff_lt_or_eq, h]
    simp
  · rename_i h
    rw [decide_eq_true_eq]
    constructor
    · exact fun hlt => Or.inl (Or.inl hlt)
    · rintro ((hlt | ⟨heq, -⟩) | rfl)
      · exact hlt
      · exact absurd heq h
      · exact absurd rfl h

theorem Ranks.irrefl (a : FactId) : ¬ Ranks level? a a := by
  rintro (h | ⟨-, h⟩)
  · exact lt_irrefl _ h
  · exact UInt64.lt_irrefl a h

theorem Ranks.trans (hab : Ranks level? a b) (hbc : Ranks level? b c) : Ranks level? a c := by
  rcases hab with hab | ⟨hab, h1⟩ <;> rcases hbc with hbc | ⟨hbc, h2⟩
  · exact Or.inl (lt_trans hbc hab)
  · exact Or.inl (hbc ▸ hab)
  · exact Or.inl (hab ▸ hbc)
  · exact Or.inr ⟨hab.trans hbc, UInt64.lt_trans h1 h2⟩

/-- Versions stand in one order of rank only. -/
theorem eq_of_ranks {ids' : List FactId} (h : ids.Pairwise (Ranks level?))
    (h' : ids'.Pairwise (Ranks level?)) (hmem : ∀ i, i ∈ ids ↔ i ∈ ids') : ids = ids' := by
  have hirrefl : Std.Irrefl (Ranks level?) := ⟨Ranks.irrefl⟩
  have hantisymm : Std.Antisymm (Ranks level?) :=
    ⟨fun a b hab hba => absurd (hab.trans hba) (Ranks.irrefl a)⟩
  exact h.eq_of_mem_iff h' hmem

theorem order_total (a b : FactId) :
    (order (level level?) a b || order (level level?) b a) = true := by
  unfold order
  by_cases h : level level? a = level level? b
  · simp [h, UInt64.le_total]
  · simp only [h, Ne.symm h, if_false, Bool.or_eq_true, decide_eq_true_eq]
    exact (lt_or_gt_of_ne h).symm

theorem order_trans (a b c : FactId) (hab : order (level level?) a b = true)
    (hbc : order (level level?) b c = true) : order (level level?) a c = true := by
  rw [order_iff] at *
  rcases hab with hab | rfl
  · rcases hbc with hbc | rfl
    · exact Or.inl (hab.trans hbc)
    · exact Or.inl hab
  · exact hbc

theorem mem_sorted : a ∈ sorted level? ids ↔ a ∈ ids := List.mem_mergeSort

/-- Different versions, sorted, stand in strict order of rank. -/
theorem sorted_pairwise (h : ids.Nodup) : (sorted level? ids).Pairwise (Ranks level?) := by
  have hs : (sorted level? ids).Pairwise (fun x y => order (level level?) x y = true) :=
    List.pairwise_mergeSort order_trans order_total ids
  have hn : (sorted level? ids).Nodup := (List.mergeSort_perm ids _).nodup_iff.mpr h
  refine (hs.and hn).imp fun {x y} hxy => ?_
  rcases order_iff.mp hxy.1 with hr | he
  · exact hr
  · exact absurd he hxy.2

theorem sort_known (h : ∀ i ∈ ids, (level? i).isSome) :
    sort level? ids = (sorted level? ids, true) := by
  unfold sort
  rw [if_pos]
  simp only [Bool.or_eq_true, List.all_eq_true]
  exact Or.inr h

/-- A sort of different versions that are all known is the one order of their ranks. -/
theorem sort_eq_of_ranks (ids' : List FactId) (hknown : ids.all (known level?) = true)
    (hperm : ids.Perm ids') (hnodup : ids.Nodup) (h : ids'.Pairwise (Ranks level?)) :
    sort level? ids = (ids', true) := by
  rw [sort_known (List.all_eq_true.mp hknown), eq_of_ranks (sorted_pairwise hnodup) h]
  exact fun i => mem_sorted.trans hperm.mem_iff

/-- Rank only depends on the levels of the two versions. -/
theorem Ranks.congr (ha : level? a = level?' a) (hb : level? b = level?' b)
    (h : Ranks level? a b) : Ranks level?' a b := by
  unfold Ranks level at *
  rwa [ha, hb] at h

end Versions

end KnowledgeBase
