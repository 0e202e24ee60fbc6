import Mathlib

/-!
# Floats that are not negative

A float that came about from a natural number, or as the product of such a one and a positive
number, has no minus sign and is not an undefined one.  Zero is at most as large.

* `Unsigned`: zero, finite or infinite, without a minus sign;
* `unsigned_pack`, `Unsigned.mul`, `unsigned_ofNat`: unsigned floats stay so when they are packed,
  multiplied and rounded;
* `notNegative_ofInt`, `NotNegative.mul`, `NotNegative.zero_le`: the same of packed ones;
* `rank`, `Unsigned.lt_iff`: unsigned floats are ordered by what they are made of, which leaves none
  of them out.
-/

namespace KnowledgeBase

open Float.Model (Format UnpackedFloat)
open Float.Model.UnpackedFloat

/-- A float is a number or infinity, and has no minus sign. -/
def Unsigned : UnpackedFloat → Prop
  | .infinity s | .zero s | .finite s _ _ _ => s = .positive
  | .notANumber => False

/-- A float is a positive number. -/
def Positive : UnpackedFloat → Bool
  | .finite .positive _ _ _ => true
  | _ => false

variable {spec : Format} {f g : UnpackedFloat}

/-! ### Packing -/

/-- Bits stand for an unsigned float if the sign bit is clear, and they do not stand for an
undefined one. -/
theorem unsigned_unpack {b : BitVec spec.numBits} (hsign : unpackSign b = 0#1)
    (hdefined : unpackExponent b = -1#_ → unpackMantissa b = 0#_) : Unsigned (unpack spec b) := by
  have hpositive : Sign.ofBitVec (unpackSign b) = .positive := if_pos hsign
  unfold unpack
  dsimp only
  split
  · rename_i he
    rw [if_pos (hdefined he)]
    exact hpositive
  · split
    · split
      · exact hpositive
      · exact hpositive
    · exact hpositive

theorem unsigned_packComponents {e : BitVec spec.exponentBits}
    {m : BitVec spec.mantissaBitsWithoutImplicit} (h : e = -1#_ → m = 0#_) :
    Unsigned (unpack spec (packComponents spec .positive e m)) := by
  refine unsigned_unpack (unpackSign_packComponents _ _ _) ?_
  rw [unpackExponent_packComponents, unpackMantissa_packComponents]
  exact h

theorem unsigned_pack (h : Unsigned f) : Unsigned (unpack spec (pack spec f)) := by
  have hbits := spec.he
  cases f with
  | notANumber => cases h
  | infinity s =>
    cases h
    exact unsigned_packComponents fun _ => rfl
  | zero s =>
    cases h
    exact unsigned_packComponents fun _ => rfl
  | finite s m e hm =>
    cases h
    unfold pack
    dsimp only
    split
    · exact unsigned_packComponents fun _ => rfl
    · rename_i hlarge
      split
      · -- the exponent of a number is not the one that is kept for infinity
        refine unsigned_packComponents fun he => absurd (congrArg BitVec.toNat he) ?_
        rw [BitVec.neg_one_eq_allOnes, BitVec.toNat_allOnes, BitVec.toNat_ofNat,
          Nat.mod_eq_of_lt (by omega)]
        omega
      · refine unsigned_packComponents fun he => absurd (congrArg BitVec.toNat he) ?_
        rw [BitVec.neg_one_eq_allOnes, BitVec.toNat_allOnes, BitVec.toNat_ofNat, Nat.zero_mod]
        have hpow : 2 ≤ 2 ^ spec.exponentBits := Nat.le_self_pow (by omega) 2
        omega

/-! ### Rounding -/

theorem unsigned_roundWithAccuracy (m : Nat) (e : Int) (a : Accuracy) :
    Unsigned (roundWithAccuracy spec .positive m e a) := by
  unfold roundWithAccuracy
  dsimp only
  split
  · rfl
  · rfl

theorem Unsigned.mul (hf : Unsigned f) (hg : Positive g = true) :
    Unsigned (UnpackedFloat.mul spec f g) := by
  cases g with
  | notANumber | infinity | zero => cases hg
  | finite s m e hm =>
    cases s with
    | negative => cases hg
    | positive =>
      cases f with
      | notANumber => cases hf
      | infinity s | zero s =>
        cases hf
        rfl
      | finite s m e hm =>
        cases hf
        exact unsigned_roundWithAccuracy _ _ _

theorem unsigned_ofNat (n : Nat) : Unsigned (UnpackedFloat.ofNat spec n) := by
  unfold UnpackedFloat.ofNat UnpackedFloat.ofInt UnpackedFloat.normalize
  split
  · rename_i hneg
    rw [Int.compare_eq_lt] at hneg
    omega
  · rfl
  · exact unsigned_roundWithAccuracy _ _ _

/-! ### Packed floats -/

/-- A float is zero, a positive number or infinity. -/
def NotNegative (x : Float) : Prop := Unsigned x.toModel.unpack

variable {x y : Float}

theorem NotNegative.mul (hx : NotNegative x) (hy : Positive y.toModel.unpack = true) :
    NotNegative (x * y) :=
  unsigned_pack (Unsigned.mul hx hy)

/-- A number keeps its sign when it is rounded. -/
theorem unsigned_ofScientific (n : Nat) : Unsigned (UnpackedFloat.ofScientific spec n 0) := by
  unfold UnpackedFloat.ofScientific
  split
  · rfl
  · split
    · rfl
    · split
      · rfl
      · rw [if_pos (Int.le_refl 0)]
        exact Unsigned.mul rfl rfl

theorem notNegative_ofInt {n : Int} (h : 0 ≤ n) : NotNegative (Float.ofInt n) := by
  have hone : Positive (Float.ofBits 0x3FF0000000000000).toModel.unpack = true := by decide +kernel
  obtain ⟨n, rfl⟩ := Int.eq_ofNat_of_zero_le h
  show NotNegative (Float.ofScientific n false 0)
  unfold Float.ofScientific
  split
  · exact NotNegative.mul (unsigned_pack (unsigned_ofNat _)) hone
  · exact unsigned_pack (unsigned_ofScientific n)

/-- Zero is at most as large. -/
theorem NotNegative.zero_le (hx : NotNegative x) : Float.ofInt 0 ≤ x := by
  have hzero : (Float.ofInt 0).toModel.unpack = .zero .positive := rfl
  have hle : UnpackedFloat.le (.zero .positive) x.toModel.unpack = true := by
    unfold NotNegative at hx
    cases hunpack : x.toModel.unpack with
    | notANumber =>
      rw [hunpack] at hx
      cases hx
    | infinity s | zero s | finite s m e hm =>
      rw [hunpack] at hx
      cases hx
      rfl
  rw [← hzero] at hle
  exact decide_eq_true hle

/-! ### The order -/

/-- The place of an unsigned float in the order: zero first, infinity last, and numbers by exponent
and mantissa. -/
def rank : UnpackedFloat → ℕ ×ₗ ℤ ×ₗ ℕ
  | .finite _ m e _ => toLex (1, toLex (e, m))
  | .infinity _ => toLex (2, toLex (0, 0))
  | .zero _ | .notANumber => toLex (0, toLex (0, 0))

theorem then_eq_lt_iff {m m' : ℕ} {e e' : ℤ} :
    (compare e e').then (compare m m') = .lt ↔ e < e' ∨ e = e' ∧ m < m' := by
  rw [Ordering.then_eq_lt, compare_lt_iff_lt, compare_eq_iff_eq, compare_lt_iff_lt]

theorem Unsigned.lt_iff (hf : Unsigned f) (hg : Unsigned g) :
    UnpackedFloat.lt f g = true ↔ rank f < rank g := by
  cases f with
  | notANumber => cases hf
  | infinity s | zero s | finite s m e hm =>
    cases hf
    cases g with
    | notANumber => cases hg
    | infinity s' | zero s' | finite s' m' e' hm' =>
      cases hg
      simp [UnpackedFloat.lt, UnpackedFloat.compare, rank, Prod.Lex.toLex_lt_toLex, then_eq_lt_iff]

/-- What is larger than zero is unsigned. -/
theorem unsigned_of_zero_lt (h : UnpackedFloat.lt (.zero .positive) f = true) : Unsigned f := by
  cases f with
  | notANumber => cases h
  | zero s => cases h
  | infinity s | finite s m e hm =>
    cases s with
    | negative => cases h
    | positive => rfl

/-! ### Single precision -/

theorem single_lt_iff {x y : Float32} :
    x < y ↔ UnpackedFloat.lt x.toModel.unpack y.toModel.unpack = true := by
  show Float32.lt x y = true ↔ _
  unfold Float32.lt
  exact decide_eq_true_iff

theorem unpack_single_zero : (0.0 : Float32).toModel.unpack = .zero .positive := by
  rfl

/-- The larger one of zero and a single-precision number is unsigned. -/
theorem unsigned_single_max (x : Float32) :
    Unsigned (if 0.0 < x then x else 0.0).toModel.unpack := by
  split
  · rename_i hx
    rw [single_lt_iff, unpack_single_zero] at hx
    exact unsigned_of_zero_lt hx
  · rw [unpack_single_zero]
    rfl

end KnowledgeBase
