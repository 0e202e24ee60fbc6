import KnowledgeBase.Value
import Mathlib.Algebra.Ring.Int.Defs
import Mathlib.Data.List.Basic

/-!
# Fields of a record

What a record answers after fields have been set in it or taken out of it, and the words that
integers are read as.

* `Value.lookup_foldl_setField`: fields set in turn count before those that were there;
* `Value.filter_foldl_setField`: a filter that drops the fields set does not see them;
* `Value.lookup_filter_names`: fields that are taken out by name;
* `Value.toNat_ofInt`: a word is its integer modulo `2 ^ 64`.
-/

namespace KnowledgeBase.Value

variable {name : String} {v : Value} {fields : List (String × Value)}

theorem lookup_cons_if (k j : String) (w : Value) :
    ((j, w) :: fields).lookup k = if k = j then some w else fields.lookup k := by
  rw [List.lookup_cons]
  by_cases hk : k = j
  · simp [hk]
  · simp [hk, beq_eq_false_iff_ne.mpr hk]

theorem lookup_setField (k : String) :
    (setField name v fields).lookup k = if k = name then some v else fields.lookup k := by
  induction fields with
  | nil => exact lookup_cons_if k name v
  | cons p rest ih =>
    obtain ⟨j, w⟩ := p
    unfold setField
    by_cases hj : j = name
    · subst hj
      rw [if_pos rfl, lookup_cons_if, lookup_cons_if]
      by_cases hk : k = j
      · simp only [if_pos hk]
      · simp only [if_neg hk]
    · rw [if_neg hj]
      split
      · rw [lookup_cons_if]
      · rw [lookup_cons_if, ih, lookup_cons_if]
        by_cases hk : k = j
        · rw [if_pos hk, if_pos hk, if_neg (hk ▸ hj)]
        · simp only [if_neg hk]

theorem filter_setField {p : String × Value → Bool} (hp : ∀ w, p (name, w) = false) :
    (setField name v fields).filter p = fields.filter p := by
  induction fields with
  | nil => simp [setField, hp]
  | cons q rest ih =>
    obtain ⟨j, w⟩ := q
    unfold setField
    by_cases hj : j = name
    · subst hj
      simp [hp]
    · rw [if_neg hj]
      split
      · simp [hp]
      · simp [List.filter_cons, ih]

/-- Fields set in turn count before those that were there. -/
theorem lookup_foldl_setField {ps : List (String × Value)} (hps : (ps.map Prod.fst).Nodup)
    (k : String) :
    (ps.foldl (fun r p => setField p.1 p.2 r) fields).lookup k =
      (ps.lookup k).or (fields.lookup k) := by
  induction ps generalizing fields with
  | nil => rfl
  | cons p ps ih =>
    obtain ⟨j, w⟩ := p
    rw [List.map_cons, List.nodup_cons] at hps
    rw [List.foldl_cons, ih hps.2, lookup_setField, lookup_cons_if]
    by_cases hk : k = j
    · have hnone : ps.lookup k = none := by
        rw [List.lookup_eq_none_iff]
        intro q hq
        have hne : k ≠ q.1 := fun he => hps.1 (List.mem_map.mpr ⟨q, hq, he ▸ hk⟩)
        simpa using hne
      rw [hnone, if_pos hk, if_pos hk]
      rfl
    · rw [if_neg hk, if_neg hk]

theorem filter_foldl_setField {p : String × Value → Bool} {ps : List (String × Value)}
    (hp : ∀ q ∈ ps, ∀ w, p (q.1, w) = false) :
    (ps.foldl (fun r q => setField q.1 q.2 r) fields).filter p = fields.filter p := by
  induction ps generalizing fields with
  | nil => rfl
  | cons q ps ih =>
    rw [List.foldl_cons, ih fun r hr => hp r (List.mem_cons_of_mem _ hr),
      filter_setField (hp q List.mem_cons_self)]

theorem lookup_filter_names (names : List String) (k : String) :
    (fields.filter fun p => !names.contains p.1).lookup k =
      if k ∈ names then none else fields.lookup k := by
  induction fields with
  | nil => exact (ite_self none).symm
  | cons p rest ih =>
    obtain ⟨j, w⟩ := p
    by_cases hj : j ∈ names
    · rw [List.filter_cons_of_neg (by simpa using hj), ih, lookup_cons_if]
      by_cases hk : k ∈ names
      · rw [if_pos hk, if_pos hk]
      · have hne : k ≠ j := fun he => hk (he ▸ hj)
        rw [if_neg hk, if_neg hk, if_neg hne]
    · rw [List.filter_cons_of_pos (by simpa using hj), lookup_cons_if, lookup_cons_if, ih]
      by_cases hk : k = j
      · rw [if_pos hk, if_pos hk, if_neg (hk ▸ hj)]
      · rw [if_neg hk, if_neg hk]

/-! ### Integers as words -/

theorem toNat_ofInt (n : ℤ) : ((UInt64.ofInt n).toNat : ℤ) = n % 2 ^ 64 := by
  unfold UInt64.ofInt
  rw [UInt64.toNat_ofNat']
  omega

theorem ofInt_toNat (w : UInt64) : UInt64.ofInt w.toNat = w := by
  have hlt := w.toNat_lt
  have hmod := toNat_ofInt w.toNat
  refine UInt64.toNat_inj.mp ?_
  omega

end KnowledgeBase.Value
