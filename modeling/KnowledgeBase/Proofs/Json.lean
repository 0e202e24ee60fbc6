import KnowledgeBase.Json.Reader
import Mathlib.Algebra.Ring.Int.Defs

/-!
# Values that JSON text writes

An integer that is read fits 64 bits, with or without a sign; a larger one is read as a real.

* `Value.Bounded`: every integer inside a value fits;
* `Json.bounded_of_read?`: so it is in every value that is read.
-/

namespace KnowledgeBase

namespace Value

/-- Every integer inside a value fits 64 bits, with or without a sign. -/
inductive Bounded : Value → Prop
  | null : Bounded .null
  | bool (b : Bool) : Bounded (.bool b)
  | integer {n : ℤ} : -2 ^ 63 ≤ n → n < 2 ^ 64 → Bounded (.integer n)
  | real (x : Float) : Bounded (.real x)
  | text (s : String) : Bounded (.text s)
  | list {items : List Value} : (∀ v ∈ items, Bounded v) → Bounded (.list items)
  | record {fields : List (String × Value)} : (∀ p ∈ fields, Bounded p.2) →
      Bounded (.record fields)

variable {v w : Value} {n : ℤ} {name : String} {fields : List (String × Value)}

theorem bounded_integer : Bounded (.integer n) ↔ -2 ^ 63 ≤ n ∧ n < 2 ^ 64 := by
  constructor
  · rintro ⟨⟩
    exact ⟨by assumption, by assumption⟩
  · rintro ⟨hlow, hhigh⟩
    exact .integer hlow hhigh

theorem Bounded.field? (h : v.Bounded) (hw : v.field? name = some w) : w.Bounded := by
  cases h with
  | record hfields =>
    obtain ⟨before, behind, rfl, -⟩ := List.lookup_eq_some_iff.mp hw
    exact hfields (name, w) (List.mem_append_right before List.mem_cons_self)
  | null | bool | integer | real | text | list => cases hw

theorem bounded_setField (hv : v.Bounded) (hfields : ∀ p ∈ fields, p.2.Bounded) :
    ∀ p ∈ setField name v fields, p.2.Bounded := by
  induction fields with
  | nil => simpa [setField] using hv
  | cons p rest ih =>
    obtain ⟨hp, hrest⟩ := List.forall_mem_cons.mp hfields
    unfold setField
    split
    · exact List.forall_mem_cons.mpr ⟨hv, hrest⟩
    · split
      · exact List.forall_mem_cons.mpr ⟨hv, hfields⟩
      · exact List.forall_mem_cons.mpr ⟨hp, ih hrest⟩

theorem bounded_ofFields (hfields : ∀ p ∈ fields, p.2.Bounded) : (ofFields fields).Bounded := by
  refine .record ?_
  have hset : ∀ acc : List (String × Value), (∀ p ∈ acc, p.2.Bounded) →
      ∀ p ∈ fields.foldl (fun acc f => setField f.1 f.2 acc) acc, p.2.Bounded := by
    induction fields with
    | nil => exact fun _ hacc => hacc
    | cons p rest ih =>
      obtain ⟨hp, hrest⟩ := List.forall_mem_cons.mp hfields
      exact fun acc hacc => ih hrest _ (bounded_setField hp hacc)
  exact hset [] (by simp)

end Value

namespace Json

open Value (Bounded)

/-! ### Numbers -/

theorem bounded_whole (negative : Bool) (n : ℕ) : (whole negative n).Bounded := by
  unfold whole
  split
  · split
    · exact .integer (by omega) (by omega)
    · exact .real _
  · split
    · exact .integer (by omega) (by omega)
    · exact .real _

theorem bounded_magnitude (negative : Bool) (cs : List Char) : (magnitude negative cs).Bounded := by
  unfold magnitude
  dsimp only
  split
  · exact bounded_whole _ _
  · exact .real _
  · exact .real _

theorem bounded_number {cs rest : List Char} {v : Value} (h : number cs = some (v, rest)) :
    v.Bounded := by
  unfold number at h
  dsimp only at h
  split at h
  · cases h
  · cases h
    exact bounded_magnitude _ _
  · cases h
    exact bounded_magnitude _ _

/-! ### Values -/

/-- What is read with some fuel is bounded: a value, a list and a record, as long as what they
already hold is. -/
structure ReadsBounded (fuel : ℕ) : Prop where
  value : ∀ {cs rest v}, value fuel cs = some (v, rest) → v.Bounded
  elements : ∀ {cs rest read v}, (∀ w ∈ read, Bounded w) →
    elements fuel cs read = some (v, rest) → v.Bounded
  members : ∀ {cs rest read v}, (∀ p ∈ read, Bounded p.2) →
    members fuel cs read = some (v, rest) → v.Bounded

theorem readsBounded_succ {fuel : ℕ} (ih : ReadsBounded fuel) : ReadsBounded (fuel + 1) where
  value {cs rest v} h := by
    unfold Json.value at h
    split at h
    · obtain ⟨p, -, h⟩ := Option.map_eq_some_iff.mp h
      cases h
      exact .text _
    · split at h
      · cases h
        exact .list (by simp)
      · exact ih.elements (by simp) h
    · split at h
      · cases h
        exact .record (by simp)
      · exact ih.members (by simp) h
    · cases h
      exact .bool _
    · cases h
      exact .bool _
    · cases h
      exact .null
    · exact bounded_number h
  elements {cs rest read v} hread h := by
    unfold Json.elements at h
    obtain ⟨⟨w, cs⟩, hw, h⟩ := Option.bind_eq_some_iff.mp h
    have hmore : ∀ u ∈ w :: read, Bounded u := List.forall_mem_cons.mpr ⟨ih.value hw, hread⟩
    dsimp only at h
    split at h
    · exact ih.elements hmore h
    · cases h
      exact .list fun u hu => hmore u (List.mem_reverse.mp hu)
    · cases h
  members {cs rest read v} hread h := by
    unfold Json.members at h
    split at h
    · obtain ⟨⟨name, cs⟩, -, h⟩ := Option.bind_eq_some_iff.mp h
      dsimp only at h
      split at h
      · obtain ⟨⟨w, cs⟩, hw, h⟩ := Option.bind_eq_some_iff.mp h
        have hmore : ∀ p ∈ (name, w) :: read, Bounded p.2 :=
          List.forall_mem_cons.mpr ⟨ih.value hw, hread⟩
        dsimp only at h
        split at h
        · exact ih.members hmore h
        · cases h
          exact Value.bounded_ofFields fun p hp => hmore p (List.mem_reverse.mp hp)
        · cases h
      · cases h
    · cases h

theorem readsBounded (fuel : ℕ) : ReadsBounded fuel := by
  induction fuel with
  | zero => exact ⟨by simp [value], by simp [elements], by simp [members]⟩
  | succ fuel ih => exact readsBounded_succ ih

/-- **Every integer that is read fits 64 bits.** -/
theorem bounded_of_read? {s : String} {v : Value} (h : read? s = some v) : v.Bounded := by
  unfold read? at h
  split at h
  · rename_i w rest hw
    split at h
    · cases h
      exact (readsBounded _).value hw
    · cases h
  · cases h

end Json

end KnowledgeBase
