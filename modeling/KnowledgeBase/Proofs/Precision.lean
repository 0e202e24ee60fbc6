import KnowledgeBase.Precision
import Mathlib

/-!
# Single precision within double precision

Double precision holds every number of single precision, with zeros behind its mantissa, and rounds
it back to itself.

* `Held`: a mantissa and an exponent as a format keeps them;
* `unpack_eq_finite`, `Held.unpack_pack`, `pack_unpack`: packed floats and what they hold;
* `Held.round_long`, `Held.round_short`: rounding does no more than to move zeros;
* `narrow_widen`: there and back.
-/

namespace KnowledgeBase.Precision

open Float.Model (Format UnpackedFloat totalExponent)
open Float.Model.UnpackedFloat

variable {spec : Format} {s : Sign} {m : ℕ} {e : ℤ} {b : BitVec spec.numBits}

/-! ### Numbers that a format holds -/

/-- A format holds the number `m * 2 ^ e` with just this mantissa and exponent. -/
structure Held (spec : Format) (m : ℕ) (e : ℤ) : Prop where
  pos : 0 < m
  short : m < 2 ^ spec.mantissaBits
  least : spec.minExponent ≤ e
  greatest : e ≤ spec.exponentBias - spec.mantissaBitsWithoutImplicit
  normal : 2 ^ spec.mantissaBitsWithoutImplicit ≤ m ∨ e = spec.minExponent

theorem Held.ne_zero (h : Held spec m e) : m ≠ 0 := Nat.ne_zero_of_lt h.pos

theorem two_pow_exponentBits (spec : Format) :
    2 ^ spec.exponentBits = 2 * spec.exponentBias + 2 := by
  have hpos : 0 < 2 ^ (spec.exponentBits - 1) := Nat.two_pow_pos _
  have hdouble : 2 ^ spec.exponentBits = 2 ^ (spec.exponentBits - 1) * 2 := by
    rw [← Nat.pow_succ, Nat.succ_eq_add_one, Nat.sub_add_cancel spec.he]
  unfold Format.exponentBias
  omega

theorem minExponent_eq (spec : Format) :
    spec.minExponent = 1 - (spec.exponentBias : ℤ) - spec.mantissaBitsWithoutImplicit := by
  have hpos : 0 < 2 ^ (spec.exponentBits - 1) := Nat.two_pow_pos _
  have hcast : ((2 ^ (spec.exponentBits - 1) : ℕ) : ℤ) = 2 ^ (spec.exponentBits - 1) := by
    push_cast
    rfl
  unfold Format.minExponent Format.exponentBias Format.mantissaBits
  omega

theorem Held.targetExponent (h : Held spec m e) :
    spec.targetExponent (totalExponent m e) = e := by
  have hlog : m.log2 < spec.mantissaBits := (Nat.log2_lt h.ne_zero).mpr h.short
  have hleast := h.least
  unfold Format.targetExponent totalExponent
  unfold Format.mantissaBits at hlog ⊢
  rcases h.normal with hnormal | he
  · have hge : spec.mantissaBitsWithoutImplicit ≤ m.log2 := (Nat.le_log2 h.ne_zero).mpr hnormal
    omega
  · omega

/-! ### Packing -/

theorem ofBitVec_toBitVec (s : Sign) : Sign.ofBitVec s.toBitVec = s := by
  cases s <;> rfl

theorem toBitVec_ofBitVec (b : BitVec 1) : (Sign.ofBitVec b).toBitVec = b := by
  rcases BitVec.eq_zero_or_eq_one b with rfl | rfl <;> rfl

/-- The three parts of a packed float make it up. -/
theorem packComponents_unpack (b : BitVec spec.numBits) :
    packComponents spec (Sign.ofBitVec (unpackSign b)) (unpackExponent b) (unpackMantissa b) =
      b := by
  have hm := spec.hm
  have he := spec.he
  unfold packComponents
  rw [toBitVec_ofBitVec]
  refine BitVec.eq_of_getLsbD_eq fun i hi => ?_
  simp only [BitVec.getLsbD_append, unpackMantissa, unpackExponent, unpackSign, BitVec.getLsbD_cast,
    BitVec.getLsbD_extractLsb]
  split
  · rw [decide_eq_true (by omega), Bool.true_and, Nat.zero_add]
  · split
    · rw [decide_eq_true (by omega), Bool.true_and, Nat.add_sub_cancel' (by omega)]
    · rw [decide_eq_true (by omega), Bool.true_and, Nat.sub_sub, Nat.add_sub_cancel' (by omega)]

/-- With the implicit bit put before it. -/
theorem toNat_implicit {n : ℕ} (v : BitVec n) : (1#1 ++ v).toNat = 2 ^ n + v.toNat := by
  rw [BitVec.toNat_append, ← Nat.shiftLeft_add_eq_or_of_lt v.isLt, Nat.shiftLeft_eq]
  simp

/-- What a packed float holds if it is a number: its parts, the implicit bit put before the mantissa
unless the exponent is zero. -/
theorem unpack_eq_finite {h : 0 < m} (hb : unpack spec b = .finite s m e h) :
    s = Sign.ofBitVec (unpackSign b) ∧
      (unpackExponent b = 0#_ ∧ m = (unpackMantissa b).toNat ∧ e = spec.minExponent ∨
        0 < (unpackExponent b).toNat ∧ (unpackExponent b).toNat + 1 < 2 ^ spec.exponentBits ∧
          m = 2 ^ spec.mantissaBitsWithoutImplicit + (unpackMantissa b).toNat ∧
          e = (unpackExponent b).toNat -
            (spec.exponentBias + spec.mantissaBitsWithoutImplicit : ℤ)) := by
  unfold unpack at hb
  dsimp only at hb
  split at hb
  · split at hb <;> cases hb
  · rename_i hinf
    split at hb
    · rename_i hzero
      split at hb
      · cases hb
      · -- subnormal
        cases hb
        refine ⟨rfl, .inl ⟨hzero, rfl, ?_⟩⟩
        rw [hzero, minExponent_eq, BitVec.toNat_ofNat, Nat.zero_mod]
        omega
    · -- normal
      rename_i hzero
      cases hb
      refine ⟨rfl, .inr ⟨?_, ?_, toNat_implicit _, rfl⟩⟩
      · exact Nat.pos_of_ne_zero fun h0 => hzero (BitVec.eq_of_toNat_eq h0)
      · have htop : (unpackExponent b).toNat ≠ 2 ^ spec.exponentBits - 1 := by
          intro htop
          refine hinf (BitVec.eq_of_toNat_eq ?_)
          rw [htop, BitVec.neg_one_eq_allOnes, BitVec.toNat_allOnes]
        have hlt := (unpackExponent b).isLt
        omega

theorem held_of_unpack {h : 0 < m} (hbias : 0 < spec.exponentBias)
    (hb : unpack spec b = .finite s m e h) : Held spec m e := by
  have hlt := (unpackMantissa b).isLt
  have hdouble : 2 ^ spec.mantissaBits = 2 * 2 ^ spec.mantissaBitsWithoutImplicit := by
    rw [Format.mantissaBits, Nat.pow_add]
  have hmin := minExponent_eq spec
  have hbits := two_pow_exponentBits spec
  obtain ⟨-, ⟨-, hm, he⟩ | ⟨hpos, htop, hm, he⟩⟩ := unpack_eq_finite hb
  · refine ⟨h, ?_, ?_, ?_, .inr he⟩ <;> omega
  · refine ⟨h, ?_, ?_, ?_, .inl ?_⟩ <;> omega

/-- The exponent of a held number is neither the one of infinity nor that of zero. -/
theorem Held.biased (h : Held spec m e) :
    0 < (e + spec.exponentBias + spec.mantissaBitsWithoutImplicit).toNat ∧
      (e + spec.exponentBias + spec.mantissaBitsWithoutImplicit).toNat + 1 <
        2 ^ spec.exponentBits := by
  have hleast := h.least
  have hgreatest := h.greatest
  rw [minExponent_eq] at hleast
  rw [two_pow_exponentBits]
  omega

theorem Held.pack_normal (h : Held spec m e) (hn : 2 ^ spec.mantissaBitsWithoutImplicit ≤ m) :
    pack spec (.finite s m e h.pos) = packComponents spec s
      (.ofNat _ (e + spec.exponentBias + spec.mantissaBitsWithoutImplicit).toNat) (.ofNat _ m) := by
  have hlog : m.log2 + 1 = spec.mantissaBits := by
    have hlt : m.log2 < spec.mantissaBits := (Nat.log2_lt h.ne_zero).mpr h.short
    have hge : spec.mantissaBitsWithoutImplicit ≤ m.log2 := (Nat.le_log2 h.ne_zero).mpr hn
    unfold Format.mantissaBits at hlt ⊢
    omega
  unfold pack
  dsimp only
  rw [if_neg (Nat.not_le.mpr h.biased.2), if_pos hlog]

theorem Held.pack_subnormal (h : Held spec m e) (hn : m < 2 ^ spec.mantissaBitsWithoutImplicit) :
    pack spec (.finite s m e h.pos) = packComponents spec s 0#_ (.ofNat _ m) := by
  have hlog : m.log2 + 1 ≠ spec.mantissaBits := by
    have hlt : m.log2 < spec.mantissaBitsWithoutImplicit := (Nat.log2_lt h.ne_zero).mpr hn
    unfold Format.mantissaBits
    omega
  unfold pack
  dsimp only
  rw [if_neg (Nat.not_le.mpr h.biased.2), if_neg hlog]

theorem zero_ne_neg_one (spec : Format) : 0#(spec.exponentBits) ≠ -1#_ := by
  intro h
  have hnat := congrArg BitVec.toNat h
  rw [BitVec.neg_one_eq_allOnes, BitVec.toNat_allOnes, BitVec.toNat_ofNat, Nat.zero_mod] at hnat
  have hbits := two_pow_exponentBits spec
  omega

/-- A held number is unpacked as it was packed. -/
theorem Held.unpack_pack (h : Held spec m e) :
    unpack spec (pack spec (.finite s m e h.pos)) = .finite s m e h.pos := by
  obtain ⟨hpos, htop⟩ := h.biased
  have hshort := h.short
  have hdouble : 2 ^ spec.mantissaBits = 2 * 2 ^ spec.mantissaBitsWithoutImplicit := by
    rw [Format.mantissaBits, Nat.pow_add]
  by_cases hn : 2 ^ spec.mantissaBitsWithoutImplicit ≤ m
  · have hexp : (BitVec.ofNat spec.exponentBits
        (e + spec.exponentBias + spec.mantissaBitsWithoutImplicit).toNat).toNat =
          (e + spec.exponentBias + spec.mantissaBitsWithoutImplicit).toNat := by
      rw [BitVec.toNat_ofNat, Nat.mod_eq_of_lt (by omega)]
    have hman : (1#1 ++ BitVec.ofNat spec.mantissaBitsWithoutImplicit m).toNat = m := by
      rw [toNat_implicit, BitVec.toNat_ofNat, Nat.mod_eq_sub_mod hn, Nat.mod_eq_of_lt (by omega)]
      omega
    have hinf : BitVec.ofNat spec.exponentBits
        (e + spec.exponentBias + spec.mantissaBitsWithoutImplicit).toNat ≠ -1#_ := by
      intro heq
      have hnat := congrArg BitVec.toNat heq
      rw [hexp, BitVec.neg_one_eq_allOnes, BitVec.toNat_allOnes] at hnat
      omega
    have hzero : BitVec.ofNat spec.exponentBits
        (e + spec.exponentBias + spec.mantissaBitsWithoutImplicit).toNat ≠ 0#_ := by
      intro heq
      have hnat := congrArg BitVec.toNat heq
      rw [hexp, BitVec.toNat_ofNat, Nat.zero_mod] at hnat
      omega
    rw [h.pack_normal hn]
    unfold unpack
    simp only [unpackMantissa_packComponents, unpackExponent_packComponents,
      unpackSign_packComponents, ofBitVec_toBitVec, if_neg hinf, if_neg hzero, hexp, hman]
    congr 1
    omega
  · have hsub : m < 2 ^ spec.mantissaBitsWithoutImplicit := Nat.not_le.mp hn
    have he := h.normal.resolve_left hn
    have hman : (BitVec.ofNat spec.mantissaBitsWithoutImplicit m).toNat = m := by
      rw [BitVec.toNat_ofNat, Nat.mod_eq_of_lt hsub]
    have hzero : BitVec.ofNat spec.mantissaBitsWithoutImplicit m ≠ 0#_ := by
      intro heq
      have hnat := congrArg BitVec.toNat heq
      rw [hman, BitVec.toNat_ofNat, Nat.zero_mod] at hnat
      exact h.ne_zero hnat
    rw [h.pack_subnormal hsub]
    unfold unpack
    simp only [unpackMantissa_packComponents, unpackExponent_packComponents,
      unpackSign_packComponents, ofBitVec_toBitVec, if_neg (zero_ne_neg_one spec), if_pos, hzero,
      dif_neg, not_false_eq_true, hman]
    congr 1
    rw [he, minExponent_eq, BitVec.toNat_ofNat, Nat.zero_mod]
    omega

/-- A packed float is packed as it was unpacked. -/
theorem pack_unpack (hbias : 0 < spec.exponentBias) (hb : spec.Valid b) :
    pack spec (unpack spec b) = b := by
  cases hu : unpack spec b with
  | finite s m e h =>
    have hheld := held_of_unpack hbias hu
    have hlt := (unpackMantissa b).isLt
    obtain ⟨rfl, ⟨hexp, rfl, -⟩ | ⟨-, -, rfl, rfl⟩⟩ := unpack_eq_finite hu
    · rw [hheld.pack_subnormal hlt, BitVec.ofNat_toNat, BitVec.setWidth_eq, ← hexp]
      exact packComponents_unpack b
    · have hexp : ((unpackExponent b).toNat -
          (spec.exponentBias + spec.mantissaBitsWithoutImplicit : ℤ) + spec.exponentBias +
            spec.mantissaBitsWithoutImplicit).toNat = (unpackExponent b).toNat := by omega
      have hman : BitVec.ofNat spec.mantissaBitsWithoutImplicit
          (2 ^ spec.mantissaBitsWithoutImplicit + (unpackMantissa b).toNat) = unpackMantissa b := by
        refine BitVec.eq_of_toNat_eq ?_
        rw [BitVec.toNat_ofNat, Nat.add_mod_left, Nat.mod_eq_of_lt hlt]
      rw [hheld.pack_normal (Nat.le_add_right _ _), hexp, hman, BitVec.ofNat_toNat,
        BitVec.setWidth_eq]
      exact packComponents_unpack b
  | notANumber =>
    unfold unpack at hu
    dsimp only at hu
    split_ifs at hu with hinf hman
    exact (hb.eq_packedNaN hinf hman).symm
  | infinity s =>
    unfold unpack at hu
    dsimp only at hu
    split_ifs at hu with hinf hman
    cases hu
    conv_rhs => rw [← packComponents_unpack b, hinf, hman]
    rfl
  | zero s =>
    unfold unpack at hu
    dsimp only at hu
    split_ifs at hu
    rename_i hexp hman
    cases hu
    conv_rhs => rw [← packComponents_unpack b, hexp, hman]
    rfl

/-! ### Rounding -/

theorem shiftRight_exact (m k : ℕ) :
    ExtendedMantissa.ofMantissaAndAccuracy (m * 2 ^ k) .exact >>> k =
      ExtendedMantissa.ofMantissaAndAccuracy m .exact := by
  show k.repeat ExtendedMantissa.shiftRightOne _ = _
  induction k generalizing m with
  | zero => rw [Nat.pow_zero, Nat.mul_one, Nat.repeat]
  | succ k ih =>
    rw [Nat.repeat, Nat.pow_succ', ← Nat.mul_assoc, ih]
    simp [ExtendedMantissa.shiftRightOne, ExtendedMantissa.ofMantissaAndAccuracy]

theorem totalExponent_scaled (h : 0 < m) (k : ℕ) :
    totalExponent (m * 2 ^ k) (e - k) = totalExponent m e := by
  have hlog : (m * 2 ^ k).log2 = m.log2 + k := by
    refine (Nat.log2_eq_iff (Nat.ne_zero_of_lt (Nat.mul_pos h (Nat.two_pow_pos k)))).mpr ⟨?_, ?_⟩
    · rw [Nat.pow_add]
      exact Nat.mul_le_mul_right _ (Nat.log2_self_le (Nat.ne_zero_of_lt h))
    · rw [Nat.add_right_comm, Nat.pow_add]
      exact Nat.mul_lt_mul_of_pos_right Nat.lt_log2_self (Nat.two_pow_pos k)
  unfold totalExponent
  rw [hlog]
  omega

theorem Held.shift_scaled (h : Held spec m e) (k : ℕ) :
    shiftToTargetExponent spec (m * 2 ^ k) (e - k) .exact =
      (ExtendedMantissa.ofMantissaAndAccuracy m .exact, e) := by
  have hshift : (e - (e - (k : ℤ))).toNat = k := by omega
  unfold shiftToTargetExponent shiftToExponent
  simp only [totalExponent_scaled h.pos, h.targetExponent, hshift, shiftRight_exact,
    Int.sub_add_cancel]

/-- A held number is what all its multiples by powers of two are rounded to. -/
theorem Held.roundWithAccuracy_scaled (h : Held spec m e) (k : ℕ) :
    roundWithAccuracy spec s (m * 2 ^ k) (e - k) .exact = .finite s m e h.pos := by
  have hagain : shiftToTargetExponent spec m e .exact =
      (ExtendedMantissa.ofMantissaAndAccuracy m .exact, e) := by
    simpa using h.shift_scaled 0
  have hrounded : (ExtendedMantissa.ofMantissaAndAccuracy m .exact).roundedMantissa = m := rfl
  unfold roundWithAccuracy
  simp only [h.shift_scaled k, hrounded, hagain]
  exact dif_neg h.ne_zero

/-- A number whose mantissa is too long by zeros. -/
theorem Held.round_long (h : Held spec m e) (k : ℕ) :
    UnpackedFloat.round spec s (m * 2 ^ k) (e - k) = .finite s m e h.pos := by
  have hshift : (e - k - e).toNat = 0 := by omega
  unfold UnpackedFloat.round decreaseExponent
  simp only [totalExponent_scaled h.pos, h.targetExponent, hshift, Nat.shiftLeft_zero, Nat.cast_zero,
    Int.sub_zero]
  exact h.roundWithAccuracy_scaled k

/-- A number whose mantissa is too short. -/
theorem Held.round_short {k : ℕ} (hm : 0 < m) (h : Held spec (m * 2 ^ k) (e - k)) :
    UnpackedFloat.round spec s m e = .finite s (m * 2 ^ k) (e - k) h.pos := by
  have htarget := h.targetExponent
  rw [totalExponent_scaled hm] at htarget
  have hshift : (e - (e - (k : ℤ))).toNat = k := by omega
  unfold UnpackedFloat.round decreaseExponent
  simp only [htarget, hshift, Nat.shiftLeft_eq]
  simpa using h.roundWithAccuracy_scaled 0

/-! ### There and back -/

/-- What single precision holds is held in double precision with a longer mantissa. -/
theorem Held.widened (h : Held .binary32 m e) :
    ∃ k : ℕ, Held .binary64 (m * 2 ^ k) (e - k) := by
  have hlog : m.log2 < 24 := (Nat.log2_lt h.ne_zero).mpr h.short
  have hleast : -149 ≤ e := h.least
  have hgreatest : e ≤ 104 := h.greatest
  have hlow : 2 ^ m.log2 ≤ m := Nat.log2_self_le h.ne_zero
  have hhigh : m < 2 ^ (m.log2 + 1) := Nat.lt_log2_self
  refine ⟨52 - m.log2, Nat.mul_pos h.pos (Nat.two_pow_pos _), ?_, ?_, ?_, .inl ?_⟩
  · show m * 2 ^ (52 - m.log2) < 2 ^ 53
    calc m * 2 ^ (52 - m.log2) < 2 ^ (m.log2 + 1) * 2 ^ (52 - m.log2) :=
          Nat.mul_lt_mul_of_pos_right hhigh (Nat.two_pow_pos _)
      _ = 2 ^ 53 := by
          rw [← Nat.pow_add]
          congr 1
          omega
  · show (-1074 : ℤ) ≤ e - (52 - m.log2 : ℕ)
    omega
  · show e - (52 - m.log2 : ℕ) ≤ (971 : ℤ)
    omega
  · show 2 ^ 52 ≤ m * 2 ^ (52 - m.log2)
    calc 2 ^ 52 = 2 ^ m.log2 * 2 ^ (52 - m.log2) := by
          rw [← Nat.pow_add]
          congr 1
          omega
      _ ≤ m * 2 ^ (52 - m.log2) := Nat.mul_le_mul_right _ hlow

/-- What single precision holds can be packed in double precision, and is the same when it is
rounded back. -/
theorem unpack_pack_fit (b : BitVec Format.binary32.numBits) :
    unpack .binary64 (pack .binary64 (fit .binary64 (unpack .binary32 b))) =
        fit .binary64 (unpack .binary32 b) ∧
      fit .binary32 (fit .binary64 (unpack .binary32 b)) = unpack .binary32 b := by
  cases hu : unpack .binary32 b with
  | finite s m e h =>
    have hheld := held_of_unpack (by decide) hu
    obtain ⟨k, hwide⟩ := hheld.widened
    simp only [fit, hwide.round_short h, hwide.unpack_pack, hheld.round_long k, and_self]
  | notANumber => exact ⟨rfl, rfl⟩
  | infinity s => cases s <;> exact ⟨rfl, rfl⟩
  | zero s => cases s <;> exact ⟨rfl, rfl⟩

/-- **A number of single precision is itself after it has been through double precision.** -/
theorem narrow_widen (x : Float32) : narrow (widen x) = x := by
  obtain ⟨hwide, hback⟩ := unpack_pack_fit x.toModel.toBits.toBitVec
  have hbits : pack .binary32 (unpack .binary32 x.toModel.toBits.toBitVec) =
      x.toModel.toBits.toBitVec := pack_unpack (by decide) x.toModel.valid
  unfold narrow widen Float.Model.pack Float.Model.unpack Float32.Model.pack Float32.Model.unpack
  simp only [hwide, hback, hbits]

end KnowledgeBase.Precision
