/-!
# Words

The bits of a 64-bit word: reading and setting one, counting them, and the word with given bits.
-/

namespace KnowledgeBase.Word

/-- The number of bits of a word. -/
def size : Nat := 64

def bit (w : UInt64) (i : Nat) : Bool := (w >>> UInt64.ofNat i) &&& 1 == 1

/-- The word with one bit. -/
def unit (i : Nat) : UInt64 := 1 <<< UInt64.ofNat i

def setBit (w : UInt64) (i : Nat) (on : Bool) : UInt64 :=
  if on then w ||| unit i else w &&& ~~~unit i

/-- The number of bits that are set. -/
def count (w : UInt64) : Nat := (List.range size).countP (bit w)

/-- The word whose first `n` bits are given. -/
def ofBitsBelow (f : Nat → Bool) : Nat → UInt64
  | 0 => 0
  | n + 1 => ofBitsBelow f n ||| (if f n then unit n else 0)

/-- The word with these bits. -/
def ofBits (f : Nat → Bool) : UInt64 := ofBitsBelow f size

/-! ### Reading back -/

/-- An index of a bit is a word of its own value. -/
theorem toNat_index {i : Nat} (hi : i < size) : (UInt64.ofNat i).toNat = i :=
  UInt64.toNat_ofNat_of_lt' (Nat.lt_trans hi (by decide))

theorem bit_eq_testBit {w : UInt64} {i : Nat} (hi : i < size) : bit w i = w.toNat.testBit i := by
  have h : ((w >>> UInt64.ofNat i) &&& 1).toNat = w.toNat / 2 ^ i % 2 := by
    rw [UInt64.toNat_and, UInt64.toNat_shiftRight, toNat_index hi,
      Nat.mod_eq_of_lt (show i < 64 from hi), UInt64.toNat_one, Nat.and_one_is_mod, Nat.shiftRight_eq_div_pow]
  rw [bit, Bool.eq_iff_iff, beq_iff_eq, ← UInt64.toNat_inj, h, Nat.testBit_eq_decide_div_mod_eq,
    decide_eq_true_iff, UInt64.toNat_one]

theorem toNat_unit {i : Nat} (hi : i < size) : (unit i).toNat = 1 <<< i := by
  have h : 2 ^ i < 2 ^ 64 := Nat.pow_lt_pow_right (by decide) hi
  rw [unit, UInt64.toNat_shiftLeft, toNat_index hi,
    Nat.mod_eq_of_lt (show i < 64 from hi), UInt64.toNat_one, Nat.one_shiftLeft,
    Nat.mod_eq_of_lt h]

theorem bit_or {v w : UInt64} {i : Nat} (hi : i < size) : bit (v ||| w) i = (bit v i || bit w i) := by
  simp [bit_eq_testBit hi]

theorem bit_unit {i j : Nat} (hi : i < size) (hj : j < size) :
    bit (unit j) i = decide (j = i) := by
  rw [bit_eq_testBit hi, toNat_unit hj, Nat.one_shiftLeft, Nat.testBit_two_pow]

theorem bit_ofBitsBelow (f : Nat → Bool) {n i : Nat} (hn : n ≤ size) (hi : i < size) :
    bit (ofBitsBelow f n) i = (decide (i < n) && f i) := by
  induction n with
  | zero => simp [ofBitsBelow, bit_eq_testBit hi]
  | succ n ih =>
    have hn' : n < size := by omega
    rw [ofBitsBelow, bit_or hi, ih (by omega)]
    by_cases h : n = i
    · subst h; cases hf : f n <;> simp [bit_unit hi hn', bit_eq_testBit hi]
    · have h' : i < n + 1 ↔ i < n := by omega
      by_cases hf : f n <;> simp [hf, h, h', bit_unit hi hn', bit_eq_testBit hi]

theorem bit_ofBits (f : Nat → Bool) {i : Nat} (hi : i < size) : bit (ofBits f) i = f i := by
  simp [ofBits, bit_ofBitsBelow f (Nat.le_refl _) hi, hi]

end KnowledgeBase.Word
