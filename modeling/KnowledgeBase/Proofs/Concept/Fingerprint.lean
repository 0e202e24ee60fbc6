import KnowledgeBase.Proofs.Concept.Layout
import KnowledgeBase.Proofs.Hypervector.Bits
import Mathlib.NumberTheory.Padics.PadicVal.Basic

/-!
# What a fingerprint tells

Eight bytes are interleaved bit by bit and the word is Gray coded.  Every bit keeps a place of its
own, and the code is undone from the highest bit down, so a fingerprint tells the components that it
covers.

* `bit_interleave`: the place of every bit;
* `weave`, `weave_eq`: the bits set in turn, each moved to its place in a word;
* `gray_xor`, `gray_injective`: the code as a linear map, which is one to one;
* `changes_iff_dvd`, `exists_unique_change`: counting on changes one bit of the code;
* `fingerprint_faithful`: all of it.
-/

namespace KnowledgeBase.Fingerprint

/-! ### Gray codes -/

section gray

variable {m n : UInt64} {i k : ℕ}

theorem toNat_gray (n : UInt64) : (gray n).toNat = n.toNat ^^^ n.toNat >>> 1 := by
  unfold gray
  rw [UInt64.toNat_xor, UInt64.toNat_shiftRight]
  rfl

theorem testBit_gray (n : UInt64) (i : ℕ) :
    (gray n).toNat.testBit i = (n.toNat.testBit i ^^ n.toNat.testBit (i + 1)) := by
  rw [toNat_gray, Nat.testBit_xor, Nat.testBit_shiftRight, Nat.add_comm 1 i]

/-- The code of a sum of bits is the sum of the codes. -/
theorem gray_xor (m n : UInt64) : gray m ^^^ gray n = gray (m ^^^ n) := by
  unfold gray
  rw [UInt64.shiftRight_xor]
  ac_rfl

/-- Halving leaves no number as it is but zero. -/
theorem gray_eq_zero_iff : gray n = 0 ↔ n = 0 := by
  constructor
  · intro h
    have hhalf : n.toNat = n.toNat >>> 1 := congrArg UInt64.toNat (UInt64.xor_eq_zero_iff.mp h)
    rw [Nat.shiftRight_eq_div_pow] at hhalf
    rw [← UInt64.toNat_inj]
    show n.toNat = 0
    omega
  · rintro rfl
    rfl

/-- As the code is linear and only zero has the code zero, no two words have one code. -/
theorem gray_injective : Function.Injective gray := by
  intro m n h
  have hzero : gray (m ^^^ n) = 0 := by rw [← gray_xor, h, UInt64.xor_self]
  exact UInt64.xor_eq_zero_iff.mp (gray_eq_zero_iff.mp hzero)

/-- Counting on changes a bit exactly if all lower ones are carried over. -/
theorem changes_iff_dvd (n i : ℕ) : (n.testBit i ^^ (n + 1).testBit i) = true ↔ 2 ^ i ∣ n + 1 := by
  rw [Nat.testBit_eq_decide_div_mod_eq, Nat.testBit_eq_decide_div_mod_eq, Nat.succ_div]
  split_ifs with h
  · have hparity : n / 2 ^ i % 2 = 0 ∨ n / 2 ^ i % 2 = 1 := Nat.mod_two_eq_zero_or_one _
    simp only [h, iff_true]
    rcases hparity with hparity | hparity
    · simp [hparity, Nat.add_mod]
    · simp [hparity, Nat.add_mod]
  · simp [h]

theorem bit_gray (hk : k < Word.size) :
    Word.bit (gray n) k = (n.toNat.testBit k ^^ n.toNat.testBit (k + 1)) := by
  rw [Word.bit_eq_testBit hk, testBit_gray]

/-- Bits of a word and the next one, also if the next one is zero. -/
theorem testBit_succ_word (hi : i < Word.size) :
    (n + 1).toNat.testBit i = (n.toNat + 1).testBit i := by
  have hword : i < 64 := hi
  rw [UInt64.toNat_add, UInt64.toNat_one, Nat.testBit_mod_two_pow, decide_eq_true hword,
    Bool.true_and]

/-- The lowest bits of a word change when it is counted on, up to the first that is not carried. -/
theorem changes_word_iff :
    (n.toNat.testBit i ^^ (n + 1).toNat.testBit i) = true ↔
      i < Word.size ∧ i ≤ padicValNat 2 (n.toNat + 1) := by
  by_cases hi : i < Word.size
  · rw [testBit_succ_word hi, changes_iff_dvd, padicValNat_dvd_iff_le (Nat.succ_ne_zero _)]
    exact (and_iff_right hi).symm
  · rw [Word.testBit_of_size_le (not_lt.mp hi), Word.testBit_of_size_le (not_lt.mp hi)]
    simp [hi]

/-- One bit of the code changes: the last one up to which the word changes. -/
theorem bit_gray_ne_iff (hk : k < Word.size) :
    Word.bit (gray n) k ≠ Word.bit (gray (n + 1)) k ↔
      k = min (padicValNat 2 (n.toNat + 1)) (Word.size - 1) := by
  have hlower := changes_word_iff (n := n) (i := k)
  have hupper := changes_word_iff (n := n) (i := k + 1)
  have hne : Word.bit (gray n) k ≠ Word.bit (gray (n + 1)) k ↔
      ¬((n.toNat.testBit k ^^ (n + 1).toNat.testBit k) = true ↔
        (n.toNat.testBit (k + 1) ^^ (n + 1).toNat.testBit (k + 1)) = true) := by
    rw [bit_gray hk, bit_gray hk]
    cases n.toNat.testBit k <;> cases n.toNat.testBit (k + 1) <;>
      cases (n + 1).toNat.testBit k <;> cases (n + 1).toNat.testBit (k + 1) <;> decide
  rw [hne, hlower, hupper]
  omega

/-- Counting on changes one bit of the code, also from the last word to the first. -/
theorem exists_unique_change (n : UInt64) :
    ∃! k, k < Word.size ∧ Word.bit (gray n) k ≠ Word.bit (gray (n + 1)) k := by
  have hpos : 0 < Word.size := by decide
  have hlt : min (padicValNat 2 (n.toNat + 1)) (Word.size - 1) < Word.size := by omega
  refine ⟨_, ⟨hlt, (bit_gray_ne_iff hlt).mpr rfl⟩, ?_⟩
  rintro k ⟨hk, hne⟩
  exact (bit_gray_ne_iff hk).mp hne

end gray

/-! ### Interleaved bytes -/

section interleaving

variable {α : Type} {byte : ℕ → ℕ} {bytes : Fin covered → UInt8} {i k p : ℕ}

/-- Bit `p` of byte `i`, moved to its place. -/
def moved (b : UInt8) (p i : ℕ) : UInt64 :=
  ((b >>> UInt8.ofNat p) &&& 1).toUInt64 <<< UInt64.ofNat (8 * p + (7 - i))

/-- The bits of eight bytes are set in turn, plane by plane from the most significant one. -/
def weave (bytes : Fin covered → UInt8) : UInt64 :=
  (List.finRange 8).foldl (fun word (plane : Fin 8) =>
    (List.finRange covered).foldl (fun word i => word ||| moved (bytes i) (7 - plane) i) word) 0

theorem bit_interleave (byte : ℕ → ℕ) (hk : k < Word.size) :
    Word.bit (interleave byte) k = (byte (7 - k % 8)).testBit (k / 8) := by
  have hplanes : (planes byte).length = 64 := by simp [planes]
  have hword : (interleave byte).toNat = (BitVec.ofBoolListLE (planes byte)).toNat :=
    UInt64.toNat_ofNat_of_lt' ((BitVec.isLt _).trans_eq (congrArg (2 ^ ·) hplanes))
  have hk' : k < 64 := hk
  rw [Word.bit_eq_testBit hk, hword, BitVec.testBit_toNat, BitVec.getLsbD_ofBoolListLE]
  simp [planes, List.getD_eq_getElem?_getD, hk']

/-- A loop that sets bits sets those that one of its steps sets. -/
theorem bit_foldl {step : UInt64 → α → UInt64} {p : α → Bool}
    (h : ∀ w a, Word.bit (step w a) k = (Word.bit w k || p a)) (l : List α) (w : UInt64) :
    Word.bit (l.foldl step w) k = (Word.bit w k || l.any p) := by
  induction l generalizing w with
  | nil => simp
  | cons a l ih => rw [List.foldl_cons, ih, h, List.any_cons, Bool.or_assoc]

theorem bit_moved (b : UInt8) (i : ℕ) (hp : p < 8) (hk : k < Word.size) :
    Word.bit (moved b p i) k = (decide (8 * p + (7 - i) = k) && b.toNat.testBit p) := by
  have hk' : k < 64 := hk
  have hplace : 8 * p + (7 - i) < 64 := by omega
  have hshift : (UInt8.ofNat p).toNat = p := UInt8.toNat_ofNat_of_lt' (hp.trans (by decide))
  have hbit : ((b >>> UInt8.ofNat p) &&& 1).toUInt64.toNat = (b.toNat.testBit p).toNat := by
    rw [UInt8.toNat_toUInt64, UInt8.toNat_and, UInt8.toNat_shiftRight, hshift, UInt8.toNat_one,
      Nat.mod_eq_of_lt hp, Nat.and_one_is_mod, Nat.shiftRight_eq_div_pow, Nat.toNat_testBit]
  rw [Word.bit_eq_testBit hk, moved, UInt64.toNat_shiftLeft, Word.toNat_index hplace,
    Nat.mod_eq_of_lt hplace, hbit, Nat.testBit_mod_two_pow, decide_eq_true hk', Bool.true_and]
  cases b.toNat.testBit p with
  | false => simp
  | true => rw [Bool.toNat_true, Nat.one_shiftLeft, Nat.testBit_two_pow, Bool.and_true]

/-- A place tells the byte and the bit of it that is moved there. -/
theorem place_inj {q : ℕ} {i j : Fin covered} :
    8 * p + (7 - i.val) = 8 * q + (7 - j.val) ↔ p = q ∧ i = j := by
  have hi : i.val < 8 := i.isLt
  have hj : j.val < 8 := j.isLt
  rw [Fin.ext_iff]
  omega

/-- Every bit is found at its place. -/
theorem bit_weave (bytes : Fin covered → UInt8) (i : Fin covered) (hp : p < 8) :
    Word.bit (weave bytes) (8 * p + (7 - i)) = (bytes i).toNat.testBit p := by
  have hplace : 8 * p + (7 - i.val) < Word.size := by unfold Word.size; omega
  have hstep : ∀ (plane : Fin 8) (w : UInt64) (j : Fin covered),
      Word.bit (w ||| moved (bytes j) (7 - plane) j) (8 * p + (7 - i)) =
        (Word.bit w (8 * p + (7 - i)) ||
          (decide (7 - plane.val = p ∧ j = i) && (bytes j).toNat.testBit (7 - plane))) := by
    intro plane w j
    have hplane : 7 - plane.val < 8 := by omega
    rw [Word.bit_or hplace, bit_moved _ _ hplane hplace, decide_eq_decide.mpr place_inj]
  unfold weave
  rw [bit_foldl (fun w plane => bit_foldl (hstep plane) _ w), Word.bit_zero hplace, Bool.false_or,
    Bool.eq_iff_iff]
  simp only [List.any_eq_true, Bool.and_eq_true, decide_eq_true_eq]
  constructor
  · rintro ⟨plane, -, j, -, ⟨hplane, rfl⟩, hbit⟩
    rwa [hplane] at hbit
  · intro hbit
    have hplane : 7 - (7 - p) = p := by omega
    exact ⟨⟨7 - p, by omega⟩, List.mem_finRange _, i, List.mem_finRange _, ⟨hplane, rfl⟩,
      by rwa [hplane]⟩

/-- Setting the bits one by one is listing them. -/
theorem weave_eq (h : ∀ i : Fin covered, byte i = (bytes i).toNat) :
    weave bytes = interleave byte := by
  refine Word.eq_of_bits fun k hk => ?_
  have hplane : k / 8 < 8 := Nat.div_lt_of_lt_mul hk
  have hi : 7 - k % 8 < covered := by unfold covered; omega
  have hplace : 8 * (k / 8) + (7 - (7 - k % 8)) = k := by omega
  have hbit := bit_weave bytes ⟨7 - k % 8, hi⟩ hplane
  rw [hplace] at hbit
  rw [hbit, bit_interleave byte hk, ← h ⟨7 - k % 8, hi⟩]

theorem weave_injective : Function.Injective weave := by
  intro bytes bytes' h
  funext i
  rw [← UInt8.toNat_inj]
  refine Nat.eq_of_testBit_eq fun p => ?_
  by_cases hp : p < 8
  · rw [← bit_weave bytes i hp, ← bit_weave bytes' i hp, h]
  · have hbyte : 2 ^ 8 ≤ 2 ^ p := Nat.pow_le_pow_right (by decide) (not_lt.mp hp)
    rw [Nat.testBit_lt_two_pow ((bytes i).toNat_lt.trans_le hbyte),
      Nat.testBit_lt_two_pow ((bytes' i).toNat_lt.trans_le hbyte)]

end interleaving

end Fingerprint

/-! ### Fingerprints of points -/

namespace Layout

open Fingerprint

variable {u v : List Int8}

/-- The bytes that a fingerprint covers, moved up to be unsigned; a missing one counts as zero. -/
def coordinates (v : List Int8) (i : Fin covered) : UInt8 :=
  UInt8.ofInt ((v.getD i 0).toInt32 + 128).toInt

theorem toNat_coordinates (v : List Int8) (i : Fin covered) :
    (coordinates v i).toNat = (((v.getD i 0).toInt32 + 128).toInt % 256).toNat :=
  UInt8.toNat_ofNat_of_lt' (by unfold UInt8.size; omega)

theorem toInt_coordinates (v : List Int8) (i : Fin covered) :
    ((coordinates v i).toNat : Int) = (v.getD i 0).toInt + 128 := by
  have hlow := (v.getD i 0).le_toInt
  have hhigh := (v.getD i 0).toInt_lt
  have hmove : (128 : Int32).toInt = 128 := rfl
  rw [toNat_coordinates, Int32.toInt_add, Int8.toInt_toInt32, hmove,
    bmod_word (by omega) (by omega)]
  omega

theorem key_eq (v : List Int8) : key v = gray (weave (coordinates v)) :=
  congrArg gray (weave_eq fun i => (toNat_coordinates v i).symm).symm

theorem coordinates_inj :
    coordinates u = coordinates v ↔ ∀ i < covered, u.getD i 0 = v.getD i 0 := by
  have hbyte : ∀ i, coordinates u i = coordinates v i ↔ u.getD i 0 = v.getD i 0 := by
    intro i
    have hu := toInt_coordinates u i
    have hv := toInt_coordinates v i
    rw [← UInt8.toNat_inj, ← Int8.toInt_inj]
    omega
  rw [funext_iff, Fin.forall_iff]
  exact forall₂_congr fun i hi => hbyte ⟨i, hi⟩

theorem key_inj : key u = key v ↔ ∀ i < covered, u.getD i 0 = v.getD i 0 := by
  rw [key_eq, key_eq, gray_injective.eq_iff, weave_injective.eq_iff, coordinates_inj]

end Layout

/-- **A fingerprint tells the components that it covers**, and nothing else: those of two points, of
however many components each, are the same exactly if the first eight components are, a missing one
counting as zero.  No bit is lost when bytes are interleaved or when a word is Gray coded, and
counting on changes exactly one bit of the code. -/
theorem fingerprint_faithful :
    (∀ u v : ConceptVector, u.fingerprint = v.fingerprint ↔
      ∀ i < Fingerprint.covered, u.getD i .zero = v.getD i .zero) ∧
    (∀ u v : List Int8, Layout.key u = Layout.key v ↔
      ∀ i < Fingerprint.covered, u.getD i 0 = v.getD i 0) ∧
    (∀ v : List Int8, Layout.key v =
      Fingerprint.gray (Fingerprint.weave (Layout.coordinates v))) ∧
    Function.Injective Fingerprint.weave ∧ Function.Injective Fingerprint.gray ∧
    ∀ n : UInt64, ∃! k, k < Word.size ∧
      Word.bit (Fingerprint.gray n) k ≠ Word.bit (Fingerprint.gray (n + 1)) k := by
  refine ⟨fun u v => ?_, fun u v => Layout.key_inj, Layout.key_eq, Fingerprint.weave_injective,
    Fingerprint.gray_injective, Fingerprint.exists_unique_change⟩
  rw [← Layout.key_bytes, ← Layout.key_bytes, Layout.key_inj]
  simp only [ConceptVector.getD_bytes, Component.byte_inj]

end KnowledgeBase
