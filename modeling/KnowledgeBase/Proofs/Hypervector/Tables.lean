import KnowledgeBase.Hypervector.Tables
import KnowledgeBase.Proofs.Hypervector.Permutation
import KnowledgeBase.Proofs.Outcome
import Std.Data.TreeSet.Lemmas
import Std.Data.TreeMap.Lemmas

/-!
# What a permuter keeps

A table that is kept is the one that would be built, so a permuter moves back what it moved,
whatever tables it kept then and since.

* `Call`, `afterAll`: histories of calls;
* `Sound`, `sound_afterAll`: tables that are kept;
* `has_afterAll`: relations that are registered;
* `Returns`, `permutations_invertible`: what is moved and moved back.
-/

namespace KnowledgeBase

namespace TabledPermuter

open Permutation

/-! ### Histories of calls -/

/-- A call of a permuter. -/
inductive Call where
  | register (relation : String)
  | permute (relation : String) (v : ConceptVector)
  | inversePermute (relation : String) (v : ConceptVector)
  | permuteBits (relation : String) (v : Dense)
  | inversePermuteBits (relation : String) (v : Dense)

/-- The permuter that a call leaves behind. -/
def after (p : TabledPermuter) : Call → TabledPermuter
  | .register relation => p.register relation
  | .permute relation v => (p.permute relation v).1
  | .inversePermute relation v => (p.inversePermute relation v).1
  | .permuteBits relation v => (p.permuteBits relation v).1
  | .inversePermuteBits relation v => (p.inversePermuteBits relation v).1

/-- The permuter that calls leave behind, from a new one on. -/
def afterAll (calls : List Call) : TabledPermuter := calls.foldl after {}

variable {p : TabledPermuter} {relation : String} {calls : List Call} {n : ℕ}

/-- Every table that is kept is the one of its relation and size. -/
def Sound (p : TabledPermuter) : Prop :=
  ∀ relation n t, p.tables[(relation, n)]? = some t → t = ofRelation relation n

/-- Looking a table up gives the one that would be built. -/
theorem Sound.snd_table? (h : p.Sound) (relation : String) (n : ℕ) :
    (p.table? relation n).2 = p.permuter.table? relation n := by
  unfold table? Permuter.table?
  split
  · split
    · rename_i t ht
      exact congrArg some (h relation n t ht)
    · rfl
  · rfl

theorem permuter_table? (p : TabledPermuter) (relation : String) (n : ℕ) :
    (p.table? relation n).1.permuter = p.permuter := by
  unfold table?
  split
  · split <;> rfl
  · rfl

theorem Sound.table? (h : p.Sound) (relation : String) (n : ℕ) : (p.table? relation n).1.Sound := by
  unfold TabledPermuter.table?
  split
  · split
    · exact h
    · intro r m t ht
      rw [Std.TreeMap.getElem?_insert] at ht
      split at ht
      · rename_i heq
        cases Std.LawfulEqCmp.eq_of_compare heq
        exact (Option.some.inj ht).symm
      · exact h r m t ht
  · exact h

theorem sound_empty : ({} : TabledPermuter).Sound := by
  intro relation n t ht
  simp at ht

/-- A call leaves a permuter behind as registering a relation or looking a table up does. -/
theorem after_cases (p : TabledPermuter) (c : Call) :
    (∃ relation, c = .register relation ∧ p.after c = p.register relation) ∨
      (∀ relation, c ≠ .register relation) ∧ ∃ relation n, p.after c = (p.table? relation n).1 := by
  cases c with
  | register relation => exact .inl ⟨relation, rfl, rfl⟩
  | permute relation v => exact .inr ⟨by simp, relation, v.length, rfl⟩
  | inversePermute relation v => exact .inr ⟨by simp, relation, v.length, rfl⟩
  | permuteBits relation v => exact .inr ⟨by simp, relation, v.geometry, rfl⟩
  | inversePermuteBits relation v => exact .inr ⟨by simp, relation, v.geometry, rfl⟩

theorem Sound.after (h : p.Sound) (c : Call) : (p.after c).Sound := by
  obtain ⟨relation, -, hafter⟩ | ⟨-, relation, n, hafter⟩ := after_cases p c
  · rw [hafter]
    exact h
  · rw [hafter]
    exact h.table? relation n

/-- **Whatever was asked before, what is kept is what would be built.** -/
theorem sound_afterAll (calls : List Call) : (afterAll calls).Sound := by
  have hfold (p : TabledPermuter) (h : p.Sound) : (calls.foldl TabledPermuter.after p).Sound := by
    induction calls generalizing p with
    | nil => exact h
    | cons c calls ih => exact ih _ (h.after c)
  exact hfold _ sound_empty

theorem has_after (c : Call) : (p.after c).permuter.has relation = true ↔
    c = .register relation ∨ p.permuter.has relation = true := by
  obtain ⟨r, rfl, hafter⟩ | ⟨hother, r, n, hafter⟩ := after_cases p c
  · rw [hafter]
    show (p.permuter.relations.insert r).contains relation = true ↔
      _ ∨ p.permuter.relations.contains relation = true
    simp [Std.TreeSet.contains_insert]
  · rw [hafter, permuter_table?]
    simp [hother relation]

/-- The relations of a permuter are those that were registered. -/
theorem has_afterAll :
    (afterAll calls).permuter.has relation = true ↔ .register relation ∈ calls := by
  have hfold (p : TabledPermuter) :
      (calls.foldl TabledPermuter.after p).permuter.has relation = true ↔
        .register relation ∈ calls ∨ p.permuter.has relation = true := by
    induction calls generalizing p with
    | nil => simp
    | cons c calls ih =>
      rw [List.foldl_cons, ih, has_after, List.mem_cons, @eq_comm _ c]
      tauto
  have hnone : ({} : TabledPermuter).permuter.has relation = false := rfl
  rw [afterAll, hfold, hnone]
  simp

theorem snd_move {α : Type} (h : .register relation ∈ calls) (n : ℕ)
    (f : Permutation → Except Fault α) :
    ((afterAll calls).move relation n f).2 = (f (ofRelation relation n)).map some := by
  have htable : ((afterAll calls).table? relation n).2 = some (ofRelation relation n) := by
    rw [(sound_afterAll calls).snd_table?, Permuter.table?, if_pos (has_afterAll.mpr h)]
  show ((afterAll calls).table? relation n).2.mapM f = _
  rw [htable, Option.mapM_some]
  rfl

/-! ### Vectors that are moved back -/

/-- What moves vectors forth and back along the permutation of a relation, whatever was asked before
and in between. -/
structure Returns (before between : List Call) (relation : String) : Prop where
  components : ∀ v : ConceptVector, ∃ w,
    ((afterAll before).permute relation v).2 = .ok (some w) ∧
      ((afterAll (before ++ .permute relation v :: between)).inversePermute relation w).2 =
        .ok (some v)
  bits : ∀ v : Dense, Word.size ∣ v.geometry → ∃ w,
    ((afterAll before).permuteBits relation v).2 = .ok (some w) ∧
      ((afterAll (before ++ .permuteBits relation v :: between)).inversePermuteBits relation w).2 =
        .ok (some v)

theorem returns (h : .register relation ∈ calls) (between : List Call) :
    Returns calls between relation where
  components := fun v => by
    obtain ⟨e, he⟩ := Permutation.tabulates_ofRelation relation v.length
    have hlater : Call.register relation ∈ calls ++ .permute relation v :: between :=
      List.mem_append_left _ h
    refine ⟨pick (tableOf e.symm) v, ?_, ?_⟩
    · show ((afterAll calls).move relation v.length (·.apply v)).2 = _
      rw [snd_move h, he.apply_eq rfl]
      rfl
    · show ((afterAll _).move relation (pick (tableOf e.symm) v).length _).2 = _
      rw [length_pick, snd_move hlater, he.invert_eq (length_pick _ _), pick_pick e rfl]
      rfl
  bits := fun v hv => by
    obtain ⟨e, he⟩ := Permutation.tabulates_ofRelation relation v.geometry
    have hlater : Call.register relation ∈ calls ++ .permuteBits relation v :: between :=
      List.mem_append_left _ h
    refine ⟨pickBits (tableOf e.symm) v, ?_, ?_⟩
    · show ((afterAll calls).move relation v.geometry (·.applyBits v)).2 = _
      rw [snd_move h, he.applyBits_eq rfl]
      rfl
    · show ((afterAll _).move relation (pickBits (tableOf e.symm) v).geometry _).2 = _
      rw [geometry_pickBits, snd_move hlater, he.invertBits_eq (geometry_pickBits _ _),
        pickBits_pickBits e hv rfl]
      rfl

/-- **Permutations of relations are invertible isometries.**  Whatever the words of a seed are, its
tables are those of a permutation of the positions and of its inverse; what they move they move
back, bits in whole words without a change of counts, distances and bindings.  A permuter moves back
what it moved along any relation that was registered, whatever tables it kept then and since. -/
theorem permutations_invertible :
    (∀ n seed, ∃ e : Equiv.Perm (Fin n), (ofSeed n seed).Tabulates e ∧
      (ofSeed n seed).ActsOnComponents n ∧ (Word.size ∣ n → (ofSeed n seed).ActsOnBits n)) ∧
    ∀ before between relation, .register relation ∈ before → Returns before between relation := by
  constructor
  · intro n seed
    obtain ⟨e, he⟩ := Permutation.tabulates_ofSeed n seed
    exact ⟨e, he, he.actsOnComponents, he.actsOnBits⟩
  · intro before between relation h
    exact returns h between

/-- A table of three components is kept before bits of a word are moved, and other bits of the same
size are moved in between. -/
theorem permutations_invertible_causes :
    Word.size ∣ 64 ∧ (ofSeed 64 7).ActsOnBits 64 ∧
      Call.register "CAUSES" ∈ [.register "CAUSES", .permute "CAUSES" (ConceptVector.zero 3)] ∧
        Returns [.register "CAUSES", .permute "CAUSES" (ConceptVector.zero 3)]
          [.permuteBits "CAUSES" (Dense.blank 64)] "CAUSES" := by
  have hword : Word.size ∣ 64 := dvd_rfl
  obtain ⟨_, _, _, hbits⟩ := permutations_invertible.1 64 7
  exact ⟨hword, hbits hword, List.mem_cons_self,
    permutations_invertible.2 _ _ _ List.mem_cons_self⟩

end TabledPermuter

end KnowledgeBase
