import KnowledgeBase.Hypervector.Dense
import Mathlib.Algebra.BigOperators.Intervals

/-!
# Vectors as bits

A dense vector is its geometry and its bits.  What is built from bits has them, binding combines
bits one by one, and the Hamming distance counts those that differ.

* `Word.eq_of_bits`, `Word.count_eq`: words as bits;
* `word`, `word_ofBits`, `word_xor`: vectors as words, zero beyond the last one;
* `width`, `bit_ofBits`, `bit_xor`, `eq_of_bits`, `eq_of_forall_bit`: vectors as bits;
* `bit_setBit`, `bit_setBits`: bits that are set;
* `popcount_eq`, `hamming_eq`: bits counted over the words.
-/

open Finset

namespace KnowledgeBase.Word

variable {v w : UInt64} {i : ℕ}

theorem bit_xor (hi : i < size) : bit (v ^^^ w) i = (bit v i ^^ bit w i) := by
  simp [bit_eq_testBit hi]

theorem bit_zero (hi : i < size) : bit 0 i = false := by
  simp [bit_eq_testBit hi]

theorem bit_setBit {j : ℕ} (hi : i < size) (hj : j < size) :
    bit (setBit w j true) i = (bit w i || decide (i = j)) := by
  rw [setBit, if_pos rfl, bit_or hi, bit_unit hi hj]
  simp only [@eq_comm _ i]

theorem testBit_of_size_le (h : size ≤ i) : w.toNat.testBit i = false :=
  Nat.testBit_lt_two_pow (w.toNat_lt.trans_le (Nat.pow_le_pow_right (by decide) h))

theorem eq_of_bits (h : ∀ i < size, bit v i = bit w i) : v = w := by
  apply UInt64.toNat_inj.mp
  apply Nat.eq_of_testBit_eq
  intro i
  by_cases hi : i < size
  · rw [← bit_eq_testBit hi, ← bit_eq_testBit hi, h i hi]
  · rw [testBit_of_size_le (not_lt.mp hi), testBit_of_size_le (not_lt.mp hi)]

theorem count_eq (w : UInt64) : count w = ∑ i ∈ range size, (bit w i).toNat := by
  unfold count
  generalize size = n
  induction n with
  | zero => rfl
  | succ n ih =>
    rw [List.range_succ, List.countP_append, sum_range_succ, ih]
    cases hbit : bit w n <;> simp [hbit]

end KnowledgeBase.Word

namespace KnowledgeBase.Dense

variable {a b v : Dense} {f f' : ℕ → Bool} {g i k n : ℕ}

/-! ### Words of vectors -/

/-- A word of a vector, zero beyond the last one. -/
def word (v : Dense) (k : ℕ) : UInt64 := v.words.getD k 0

theorem bit_eq : v.bit i = Word.bit (v.word (i / Word.size)) (i % Word.size) := rfl

theorem word_eq (hk : k < v.words.size) : v.word k = v.words[k] := by
  rw [word, Array.getD_eq_getD_getElem?, Array.getElem?_eq_getElem hk, Option.getD_some]

theorem word_of_le (hk : v.words.size ≤ k) : v.word k = 0 := by
  rw [word, Array.getD_eq_getD_getElem?, Array.getElem?_eq_none hk, Option.getD_none]

theorem geometry_ofBits (g : ℕ) (f : ℕ → Bool) : (ofBits g f).geometry = g := rfl

theorem word_ofBits (hk : k < g / Word.size) :
    (ofBits g f).word k = Word.ofBits fun i => f (Word.size * k + i) := by
  rw [word, Array.getD_eq_getD_getElem?, ofBits, ofWords, Array.getElem?_ofFn, dif_pos hk,
    Option.getD_some]

theorem word_xor (h : a.geometry = b.geometry) : (a.xor b h).word k = a.word k ^^^ b.word k := by
  have hsize : a.words.size = b.words.size := by rw [a.size_words, b.size_words, h]
  have hxor : (a.xor b h).words = Array.zipWith (· ^^^ ·) a.words b.words := rfl
  by_cases hk : k < a.words.size
  · have hkb : k < b.words.size := hsize ▸ hk
    rw [word_eq hk, word_eq hkb, word, hxor, Array.getD_eq_getD_getElem?, Array.getElem?_zipWith,
      Array.getElem?_eq_getElem hk, Array.getElem?_eq_getElem hkb]
    rfl
  · have hka : a.words.size ≤ k := not_lt.mp hk
    have hkb : b.words.size ≤ k := hsize ▸ hka
    rw [word_of_le hka, word_of_le hkb, word_of_le]
    · rfl
    · rw [hxor, Array.size_zipWith]
      exact (min_le_left _ _).trans hka

/-! ### Bits of vectors -/

/-- How many bits the words of a geometry hold. -/
def width (geometry : ℕ) : ℕ := Word.size * (geometry / Word.size)

theorem bit_word (hi : i < Word.size) : v.bit (Word.size * k + i) = Word.bit (v.word k) i := by
  have hpos : 0 < Word.size := by decide
  rw [bit_eq, Nat.mul_add_div hpos, Nat.div_eq_of_lt hi, Nat.add_zero, Nat.mul_add_mod,
    Nat.mod_eq_of_lt hi]

theorem width_of_dvd (h : Word.size ∣ g) : width g = g := Nat.mul_div_cancel' h

theorem lt_width (h : Word.size ∣ g) (i : Fin g) : (i : ℕ) < width g := by
  rw [width_of_dvd h]
  exact i.isLt

theorem bit_ofBits (f : ℕ → Bool) (hi : i < width g) : (ofBits g f).bit i = f i := by
  have hk : i / Word.size < g / Word.size := Nat.div_lt_of_lt_mul hi
  rw [bit_eq, word_ofBits hk, Word.bit_ofBits _ (Nat.mod_lt _ (by decide)), Nat.div_add_mod]

theorem bit_blank : (blank g).bit i = false := by
  have hword : (blank g).word (i / Word.size) = 0 := by
    rw [word, Array.getD_eq_getD_getElem?, blank, ofWords, Array.getElem?_ofFn]
    split <;> rfl
  rw [bit_eq, hword]
  exact Word.bit_zero (Nat.mod_lt _ (by decide))

theorem bit_xor (h : a.geometry = b.geometry) : (a.xor b h).bit i = (a.bit i ^^ b.bit i) := by
  rw [bit_eq, word_xor, Word.bit_xor (Nat.mod_lt _ (by decide)), bit_eq, bit_eq]

/-- **A vector is its geometry and its bits.** -/
theorem eq_of_bits (hg : a.geometry = b.geometry) (h : ∀ i < width a.geometry, a.bit i = b.bit i) :
    a = b := by
  have hwords : a.words = b.words := by
    apply Array.ext
    · rw [a.size_words, b.size_words, hg]
    · intro k hka hkb
      rw [← word_eq hka, ← word_eq hkb]
      apply Word.eq_of_bits
      intro i hi
      rw [← bit_word hi, ← bit_word hi]
      apply h
      rw [a.size_words] at hka
      calc Word.size * k + i < Word.size * (k + 1) := by rw [Nat.mul_succ]; omega
        _ ≤ width a.geometry := Nat.mul_le_mul_left _ hka
  obtain ⟨_, _, _⟩ := a
  obtain ⟨_, _, _⟩ := b
  cases hg
  cases hwords
  rfl

/-- Vectors of whole words are equal if they have the same bits. -/
theorem eq_of_forall_bit (hg : Word.size ∣ g) (ha : a.geometry = g) (hb : b.geometry = g)
    (h : ∀ i : Fin g, a.bit i = b.bit i) : a = b := by
  apply eq_of_bits (ha.trans hb.symm)
  intro i hi
  rw [ha, width_of_dvd hg] at hi
  exact h ⟨i, hi⟩

theorem ofBits_congr (h : ∀ i < width g, f i = f' i) : ofBits g f = ofBits g f' := by
  apply eq_of_bits
  · rw [geometry_ofBits, geometry_ofBits]
  · intro i hi
    rw [geometry_ofBits] at hi
    rw [bit_ofBits f hi, bit_ofBits f' hi]
    exact h i hi

/-- A vector is built from its own bits. -/
theorem eq_ofBits (h : v.geometry = g) : v = ofBits g v.bit := by
  apply eq_of_bits (h.trans (geometry_ofBits g _).symm)
  intro i hi
  rw [bit_ofBits _ (h ▸ hi)]

/-! ### Setting bits -/

theorem bit_setBit {j : ℕ} (hj : j < width v.geometry) :
    (v.setBit j true).bit i = (v.bit i || decide (i = j)) := by
  have hpos : 0 < Word.size := by decide
  have hword : j / Word.size < v.words.size := by
    rw [v.size_words]
    exact Nat.div_lt_of_lt_mul hj
  have hset : (v.setBit j true).word (i / Word.size) =
      if i / Word.size = j / Word.size then
        Word.setBit (v.word (i / Word.size)) (j % Word.size) true
      else v.word (i / Word.size) := by
    show (v.words.modify (j / Word.size) _).getD (i / Word.size) 0 = _
    rw [Array.getD_eq_getD_getElem?, Array.getElem?_modify]
    simp only [@eq_comm _ (j / Word.size)]
    split
    case isTrue heq =>
      rw [heq, word_eq hword, Array.getElem?_eq_getElem hword]
      rfl
    case isFalse =>
      rw [word, Array.getD_eq_getD_getElem?]
  -- the same bit is one of the same word at the same place
  have hsame : i = j ↔ i / Word.size = j / Word.size ∧ i % Word.size = j % Word.size := by
    constructor
    · rintro rfl
      exact ⟨rfl, rfl⟩
    · rintro ⟨hdiv, hmod⟩
      rw [← Nat.div_add_mod i Word.size, ← Nat.div_add_mod j Word.size, hdiv, hmod]
  rw [bit_eq, hset, bit_eq]
  by_cases hdiv : i / Word.size = j / Word.size
  · rw [if_pos hdiv, Word.bit_setBit (Nat.mod_lt _ hpos) (Nat.mod_lt _ hpos)]
    simp [hsame, hdiv]
  · rw [if_neg hdiv]
    simp [hsame, hdiv]

theorem geometry_setBits (positions : List ℕ) (on : Bool) :
    (v.setBits positions on).geometry = v.geometry := by
  induction positions generalizing v with
  | nil => rfl
  | cons j js ih => exact ih

theorem bit_setBits {positions : List ℕ} (h : ∀ j ∈ positions, j < width v.geometry) :
    (v.setBits positions true).bit i = (v.bit i || decide (i ∈ positions)) := by
  induction positions generalizing v with
  | nil => simp [setBits]
  | cons j js ih =>
    obtain ⟨hj, hjs⟩ := List.forall_mem_cons.mp h
    have hset : ((v.setBit j true).setBits js true).bit i =
        ((v.setBit j true).bit i || decide (i ∈ js)) := ih hjs
    show ((v.setBit j true).setBits js true).bit i = _
    rw [hset, bit_setBit hj, Bool.or_assoc]
    simp only [List.mem_cons, Bool.decide_or]

/-! ### Counting bits -/

/-- The bits of some words, counted word by word or all in a row. -/
theorem sum_words (F : ℕ → ℕ) (n : ℕ) :
    ∑ k ∈ range n, ∑ i ∈ range Word.size, F (Word.size * k + i) =
      ∑ i ∈ range (Word.size * n), F i := by
  induction n with
  | zero => rw [Nat.mul_zero, range_zero, sum_empty, sum_empty]
  | succ n ih => rw [sum_range_succ, ih, Nat.mul_succ, sum_range_add]

theorem foldl_count (ws : List UInt64) (n : ℕ) :
    ws.foldl (fun n w => n + Word.count w) n =
      n + ∑ k ∈ range ws.length, Word.count (ws.getD k 0) := by
  induction ws generalizing n with
  | nil => rfl
  | cons w ws ih =>
    rw [List.foldl_cons, ih, List.length_cons, sum_range_succ', Nat.add_assoc, List.getD_cons_zero,
      Nat.add_comm (Word.count w)]
    rfl

theorem popcount_eq (v : Dense) :
    v.popcount = ∑ i ∈ range (width v.geometry), (v.bit i).toNat := by
  have hword (k : ℕ) : v.words.toList.getD k 0 = v.word k := by
    rw [word, Array.getD_eq_getD_getElem?, List.getD_eq_getElem?_getD, Array.getElem?_toList]
  rw [popcount, ← Array.foldl_toList, foldl_count, Nat.zero_add, Array.length_toList, v.size_words,
    width, ← sum_words]
  apply sum_congr rfl
  intro k _
  rw [hword, Word.count_eq]
  apply sum_congr rfl
  intro i hi
  rw [bit_word (mem_range.mp hi)]

/-- **The Hamming distance is the number of bits that differ.** -/
theorem hamming_eq (h : a.geometry = b.geometry) :
    a.hamming b = .ok (∑ i ∈ range (width a.geometry), (a.bit i ^^ b.bit i).toNat) := by
  have hdistance : a.hamming b = .ok (a.xor b h).popcount := by
    rw [hamming, bind, dif_pos h]
    rfl
  rw [hdistance, popcount_eq]
  simp only [bit_xor]
  rfl

end KnowledgeBase.Dense
