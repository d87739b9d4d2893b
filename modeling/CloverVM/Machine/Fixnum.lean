import Mathlib

/-!
# Fixnums: small integers in the upper bits of a machine word

A tagged word keeps a small integer in its upper `w - k` bits and leaves the
lower `k` bits for a tag, zero for an integer.  Arithmetic is then done on
the tagged words themselves: sums, differences and bitwise combinations of
two words are the words of the results, a product needs one untagged factor,
and the machine's signed overflow flag reports exactly that the result has
left the fixnum range.

Nothing here depends on a particular word width or tag width.
-/

namespace CloverVM.Machine.Fixnum

variable {w k : Nat}

/-- The integer fits in the word beside `k` tag bits. -/
def Fits (w k : Nat) (a : Int) : Prop :=
  -2 ^ (w - 1) ≤ a * 2 ^ k ∧ a * 2 ^ k < 2 ^ (w - 1)

instance (w k : Nat) (a : Int) : Decidable (Fits w k a) :=
  inferInstanceAs (Decidable (_ ∧ _))

/-- The tagged word of an integer: shifted past the tag bits, modulo the
word. -/
def encode (w k : Nat) (a : Int) : BitVec w := BitVec.ofInt w a <<< k

/-- The mask of the tag bits. -/
def tagMask (w k : Nat) : BitVec w := BitVec.ofNat w (2 ^ k - 1)

theorem ofInt_two_pow (w k : Nat) :
    BitVec.ofInt w (2 ^ k) = BitVec.twoPow w k := by
  have hCast : ((2 : Int) ^ k) = ((2 ^ k : Nat) : Int) := by push_cast; rfl
  rw [hCast, BitVec.ofInt_natCast]
  apply BitVec.eq_of_toNat_eq
  rw [BitVec.toNat_ofNat, BitVec.toNat_twoPow]

theorem encode_eq_ofInt (a : Int) :
    encode w k a = BitVec.ofInt w (a * 2 ^ k) := by
  rw [encode, BitVec.shiftLeft_eq_mul_twoPow, BitVec.ofInt_mul,
    ofInt_two_pow]

/-- The signed value of a tagged word is the scaled integer. -/
theorem toInt_encode (hw : 0 < w) {a : Int} (h : Fits w k a) :
    (encode w k a).toInt = a * 2 ^ k := by
  rw [encode_eq_ofInt]
  exact BitVec.toInt_ofInt_eq_self hw h.1 h.2

/-- Dropping the tag bits recovers a fixnum. -/
theorem decode_encode (hw : 0 < w) {a : Int} (h : Fits w k a) :
    ((encode w k a).sshiftRight k).toInt = a := by
  rw [BitVec.toInt_sshiftRight, toInt_encode hw h,
    Int.shiftRight_eq_div_pow]
  exact Int.mul_ediv_cancel a (by positivity)

/-- The bits of a word built from an integer are the integer's two's
complement bits. -/
theorem getLsbD_ofInt (a : Int) (i : Nat) :
    (BitVec.ofInt w a).getLsbD i = (decide (i < w) && a.testBit i) := by
  cases a with
  | ofNat n =>
      rw [Int.ofNat_eq_natCast, BitVec.ofInt_natCast, BitVec.getLsbD_ofNat]
      rfl
  | negSucc n =>
      rw [BitVec.ofInt_negSucc_eq_not_ofNat, BitVec.getLsbD_not,
        BitVec.getLsbD_ofNat]
      by_cases hi : i < w
      · simp [hi, Int.testBit]
      · simp [hi]

theorem getLsbD_encode (a : Int) (i : Nat) :
    (encode w k a).getLsbD i =
      (decide (i < w) && (decide (k ≤ i) && a.testBit (i - k))) := by
  rw [encode, BitVec.getLsbD_shiftLeft, getLsbD_ofInt]
  by_cases hi : i < w
  · have hSub : i - k < w := by omega
    by_cases hk : i < k
    · simp [hi, hk]
    · have hkn : k ≤ i := Nat.le_of_not_lt hk
      simp [hi, hkn, hSub]
  · simp [hi]

theorem getLsbD_tagMask (i : Nat) :
    (tagMask w k).getLsbD i = (decide (i < w) && decide (i < k)) := by
  rw [tagMask, BitVec.getLsbD_ofNat, Nat.testBit_two_pow_sub_one]

/-- A tagged word has a zero tag. -/
theorem encode_and_tagMask (a : Int) :
    encode w k a &&& tagMask w k = 0#w := by
  apply BitVec.eq_of_getLsbD_eq
  intro i hi
  rw [BitVec.getLsbD_and, getLsbD_encode, getLsbD_tagMask]
  by_cases hk : i < k
  · have hkn : ¬ k ≤ i := by omega
    simp [hkn]
  · simp [hk]

theorem or_and_tagMask (a b : Int) :
    (encode w k a ||| encode w k b) &&& tagMask w k = 0#w := by
  have hDistrib : (encode w k a ||| encode w k b) &&& tagMask w k =
      (encode w k a &&& tagMask w k) ||| (encode w k b &&& tagMask w k) := by
    apply BitVec.eq_of_getLsbD_eq
    intro i hi
    simp only [BitVec.getLsbD_and, BitVec.getLsbD_or]
    exact Bool.and_or_distrib_right _ _ _
  rw [hDistrib, encode_and_tagMask, encode_and_tagMask]
  simp

/-! ## Bitwise operations -/

theorem and_encode (a b : Int) :
    encode w k a &&& encode w k b = encode w k (Int.land a b) := by
  apply BitVec.eq_of_getLsbD_eq
  intro i hi
  simp only [BitVec.getLsbD_and, getLsbD_encode, Int.testBit_land, hi]
  by_cases hk : k ≤ i
  · simp [hk]
  · simp [hk]

theorem or_encode (a b : Int) :
    encode w k a ||| encode w k b = encode w k (Int.lor a b) := by
  apply BitVec.eq_of_getLsbD_eq
  intro i hi
  simp only [BitVec.getLsbD_or, getLsbD_encode, Int.testBit_lor, hi]
  by_cases hk : k ≤ i
  · simp [hk]
  · simp [hk]

theorem xor_encode (a b : Int) :
    encode w k a ^^^ encode w k b = encode w k (Int.xor a b) := by
  apply BitVec.eq_of_getLsbD_eq
  intro i hi
  simp only [BitVec.getLsbD_xor, getLsbD_encode, Int.testBit_lxor, hi]
  by_cases hk : k ≤ i
  · simp [hk]
  · simp [hk]

/-- A bitwise operation on two's complement integers stays within their
bits. -/
theorem bitwise_mem_range (f : Bool → Bool → Bool) {a b : Int} {n : Nat}
    (ha : -2 ^ n ≤ a ∧ a < 2 ^ n) (hb : -2 ^ n ≤ b ∧ b < 2 ^ n) :
    -2 ^ n ≤ Int.bitwise f a b ∧ Int.bitwise f a b < 2 ^ n := by
  have hCast : ((2 : Int) ^ n) = ((2 ^ n : Nat) : Int) := by push_cast; rfl
  have hNat : ∀ (g : Bool → Bool → Bool) (x y : Nat), x < 2 ^ n →
      y < 2 ^ n → -2 ^ n ≤ Int.natBitwise g x y ∧
        Int.natBitwise g x y < 2 ^ n := by
    intro g x y hx hy
    have hPos := Nat.bitwise_lt_two_pow (f := g) hx hy
    have hNeg := Nat.bitwise_lt_two_pow (f := fun p q => !g p q) hx hy
    rw [Int.natBitwise, hCast]
    cases g false false with
    | false =>
        simp only [cond_false]
        omega
    | true =>
        simp only [cond_true, Int.negSucc_eq]
        omega
  rw [hCast] at ha hb
  cases a with
  | ofNat x =>
      cases b with
      | ofNat y => exact hNat f x y (by grind) (by grind)
      | negSucc y => exact hNat (fun p q => f p !q) x y (by grind) (by grind)
  | negSucc x =>
      cases b with
      | ofNat y => exact hNat (fun p q => f (!p) q) x y (by grind) (by grind)
      | negSucc y =>
          exact hNat (fun p q => f (!p) !q) x y (by grind) (by grind)

/-- Complementing a tagged word also complements its tag, which the mask
clears again. -/
theorem not_encode (a : Int) :
    ~~~(encode w k a) &&& ~~~(tagMask w k) = encode w k (Int.lnot a) := by
  apply BitVec.eq_of_getLsbD_eq
  intro i hi
  simp only [BitVec.getLsbD_and, BitVec.getLsbD_not, getLsbD_encode,
    getLsbD_tagMask, Int.testBit_lnot, hi]
  by_cases hk : k ≤ i
  · have hkn : ¬ i < k := by omega
    simp [hk, hkn]
  · have hkn : i < k := by omega
    simp [hk, hkn]

/-- Past its payload a fixnum repeats its sign bit. -/
theorem testBit_of_fits {a : Int} (h : Fits w k a) {j : Nat}
    (hj : w - 1 ≤ j + k) : a.testBit j = decide (a < 0) := by
  have hPow : (2 : Int) ^ (w - 1) ≤ 2 ^ j * 2 ^ k := by
    rw [← pow_add]
    exact pow_le_pow_right₀ (by norm_num) hj
  have hk : (0 : Int) < 2 ^ k := by positivity
  obtain ⟨hLow, hHigh⟩ := h
  have hUpper : a < 2 ^ j :=
    lt_of_mul_lt_mul_right (lt_of_lt_of_le hHigh hPow) hk.le
  have hLower : -2 ^ j ≤ a := by
    refine le_of_mul_le_mul_right ?_ hk
    calc -2 ^ j * 2 ^ k = -(2 ^ j * 2 ^ k) := by ring
      _ ≤ -2 ^ (w - 1) := neg_le_neg hPow
      _ ≤ a * 2 ^ k := hLow
  cases a with
  | ofNat n =>
      have hn : n < 2 ^ j := by
        have hCast : ((n : Nat) : Int) < ((2 ^ j : Nat) : Int) := by
          push_cast
          exact hUpper
        exact_mod_cast hCast
      show n.testBit j = _
      rw [Nat.testBit_lt_two_pow hn]
      simp
  | negSucc n =>
      have hn : n < 2 ^ j := by
        have hCast : ((n : Nat) : Int) < ((2 ^ j : Nat) : Int) := by
          push_cast
          rw [Int.negSucc_eq] at hLower
          linarith
        exact_mod_cast hCast
      show (!n.testBit j) = _
      rw [Nat.testBit_lt_two_pow hn]
      simp [Int.negSucc_lt_zero]

theorem testBit_shiftRight (a : Int) (s j : Nat) :
    (a >>> s).testBit j = a.testBit (s + j) := by
  cases a with
  | ofNat n =>
      show (n >>> s).testBit j = n.testBit (s + j)
      rw [Nat.testBit_shiftRight]
  | negSucc n =>
      show (!(n >>> s).testBit j) = !n.testBit (s + j)
      rw [Nat.testBit_shiftRight]

/-- The sign bit of a tagged word is the sign of the integer. -/
theorem msb_encode (hw : 0 < w) {a : Int} (h : Fits w k a) :
    (encode w k a).msb = decide (a < 0) := by
  have hk : (0 : Int) < 2 ^ k := by positivity
  rw [BitVec.msb_eq_toInt, toInt_encode hw h]
  by_cases hNeg : a < 0
  · simp [hNeg, mul_neg_of_neg_of_pos hNeg hk]
  · have hNonneg : 0 ≤ a * 2 ^ k := mul_nonneg (not_lt.mp hNeg) hk.le
    simp [hNeg, not_lt.mpr hNonneg]

/-- Shifting a tagged word right brings payload bits into the tag; clearing
them leaves the shifted integer. -/
theorem sshiftRight_encode (hw : 0 < w) {a : Int} (h : Fits w k a) (s : Nat) :
    (encode w k a).sshiftRight s &&& ~~~(tagMask w k) =
      encode w k (a >>> s) := by
  apply BitVec.eq_of_getLsbD_eq
  intro i hi
  rw [BitVec.getLsbD_and, BitVec.getLsbD_not, BitVec.getLsbD_sshiftRight,
    getLsbD_encode, getLsbD_encode, getLsbD_tagMask, testBit_shiftRight,
    msb_encode hw h]
  by_cases hk : k ≤ i
  · have hkn : ¬ i < k := by omega
    have hShift : s + i - k = s + (i - k) := by omega
    by_cases hIn : s + i < w
    · have hks : k ≤ s + i := by omega
      simp [hi, hk, hkn, hIn, hks, hShift]
    · -- the vacated bits are copies of the sign
      have hSign := testBit_of_fits h (j := s + (i - k)) (by omega)
      simp [hi, hk, hkn, hIn, hSign]
  · have hkn : i < k := by omega
    simp [hi, hk, hkn]

/-- Shifting a tagged word left shifts the integer. -/
theorem encode_shiftLeft (a : Int) (s : Nat) :
    encode w k a <<< s = encode w k (a * 2 ^ s) := by
  rw [encode_eq_ofInt, encode_eq_ofInt, BitVec.shiftLeft_eq_mul_twoPow,
    ← ofInt_two_pow, ← BitVec.ofInt_mul]
  congr 1
  ring

theorem add_encode (a b : Int) :
    encode w k a + encode w k b = encode w k (a + b) := by
  rw [encode_eq_ofInt, encode_eq_ofInt, encode_eq_ofInt, ← BitVec.ofInt_add]
  congr 1
  ring

theorem neg_encode (a : Int) : -encode w k a = encode w k (-a) := by
  rw [encode_eq_ofInt, encode_eq_ofInt, ← BitVec.ofInt_neg]
  congr 1
  ring

theorem sub_encode (a b : Int) :
    encode w k a - encode w k b = encode w k (a - b) := by
  rw [BitVec.sub_eq_add_neg, neg_encode, add_encode, Int.sub_eq_add_neg]

theorem mul_encode (a b : Int) :
    encode w k a * BitVec.ofInt w b = encode w k (a * b) := by
  rw [encode_eq_ofInt, encode_eq_ofInt, ← BitVec.ofInt_mul]
  congr 1
  ring

/-- A signed overflow test of a scaled result is the range check. -/
private theorem overflow_eq_not_fits (x : Int) :
    (decide (x * 2 ^ k ≥ 2 ^ (w - 1)) || decide (x * 2 ^ k < -2 ^ (w - 1))) =
      !decide (Fits w k x) := by
  by_cases hLow : -2 ^ (w - 1) ≤ x * 2 ^ k
  · by_cases hHigh : x * 2 ^ k < 2 ^ (w - 1)
    · simp [Fits, hLow, hHigh]
    · simp [Fits, hHigh, not_lt.mp hHigh]
  · simp [Fits, hLow, not_le.mp hLow]

/-- Signed addition of two tagged words overflows exactly when the sum is no
fixnum. -/
theorem saddOverflow_encode (hw : 0 < w) {a b : Int} (ha : Fits w k a)
    (hb : Fits w k b) :
    BitVec.saddOverflow (encode w k a) (encode w k b) =
      !decide (Fits w k (a + b)) := by
  rw [BitVec.saddOverflow, toInt_encode hw ha, toInt_encode hw hb,
    ← Int.add_mul, overflow_eq_not_fits]

theorem ssubOverflow_encode (hw : 0 < w) {a b : Int} (ha : Fits w k a)
    (hb : Fits w k b) :
    BitVec.ssubOverflow (encode w k a) (encode w k b) =
      !decide (Fits w k (a - b)) := by
  rw [BitVec.ssubOverflow, toInt_encode hw ha, toInt_encode hw hb,
    ← Int.sub_mul, overflow_eq_not_fits]

/-- A tagged word times an untagged one overflows exactly when the product is
no fixnum. -/
theorem smulOverflow_encode (hw : 0 < w) {a b : Int} (ha : Fits w k a)
    (hb : (BitVec.ofInt w b).toInt = b) :
    BitVec.smulOverflow (encode w k a) (BitVec.ofInt w b) =
      !decide (Fits w k (a * b)) := by
  rw [BitVec.smulOverflow, toInt_encode hw ha, hb,
    show a * 2 ^ k * b = a * b * 2 ^ k by ring, overflow_eq_not_fits]

/-! ## Redundant sign bits -/

/-- A word has more than `n` leading zeros when it is below
`2 ^ (w - 1 - n)`. -/
theorem lt_clz_iff (x : BitVec w) {n : Nat} (hn : n < w) :
    n < x.clz.toNat ↔ x.toNat < 2 ^ (w - 1 - n) := by
  constructor
  · intro hClz
    have hBelow := BitVec.toNat_lt_two_pow_sub_clz (x := x)
    have hExp : w - x.clz.toNat ≤ w - 1 - n := by omega
    exact lt_of_lt_of_le hBelow (Nat.pow_le_pow_right (by norm_num) hExp)
  · intro hBelow
    by_contra hClz
    have hw : 0 < w := by omega
    have hNe : x ≠ 0#w := by
      intro hZero
      have hEq := BitVec.clz_eq_iff_eq_zero.mpr hZero
      have hNat : x.clz.toNat = w := by
        rw [hEq, BitVec.natCast_eq_ofNat, BitVec.toNat_ofNat]
        exact Nat.mod_eq_of_lt Nat.lt_two_pow_self
      omega
    have hAbove := BitVec.two_pow_sub_clz_le_toNat_of_ne_zero hw hNe
    have hExp : w - 1 - n ≤ w - 1 - x.clz.toNat := by omega
    have hPow : 2 ^ (w - 1 - n) ≤ 2 ^ (w - 1 - x.clz.toNat) :=
      Nat.pow_le_pow_right (by norm_num) hExp
    omega

/-- The word's value, or its complement when it is negative: the bits that
differ from the sign. -/
def signMagnitude (x : BitVec w) : BitVec w := if x.toInt < 0 then ~~~x else x

theorem toNat_signMagnitude_lt_iff (x : BitVec w) (m : Nat) :
    (signMagnitude x).toNat < m ↔ -(m : Int) ≤ x.toInt ∧ x.toInt < m := by
  have hLt := x.isLt
  rw [signMagnitude]
  by_cases hNeg : x.toInt < 0
  · rw [if_pos hNeg, BitVec.toNat_not]
    rw [BitVec.toInt_eq_toNat_cond] at hNeg ⊢
    split at hNeg
    · omega
    · rename_i hMsb
      rw [if_neg hMsb]
      omega
  · rw [if_neg hNeg]
    rw [BitVec.toInt_eq_toNat_cond] at hNeg ⊢
    split at hNeg
    · rename_i hMsb
      rw [if_pos hMsb]
      omega
    · omega

/-- A nonzero word can be shifted left by `n` without losing a value bit
exactly when it repeats its sign more than `n` times. -/
theorem lt_clz_signMagnitude_iff (x : BitVec w) (hx : x.toInt ≠ 0) (n : Nat) :
    n < (signMagnitude x).clz.toNat ↔
      -2 ^ (w - 1) ≤ x.toInt * 2 ^ n ∧ x.toInt * 2 ^ n < 2 ^ (w - 1) := by
  by_cases hn : n < w
  · rw [lt_clz_iff _ hn, toNat_signMagnitude_lt_iff]
    have hSplit : (2 : Int) ^ (w - 1) = 2 ^ (w - 1 - n) * 2 ^ n := by
      rw [← pow_add]
      congr 1
      omega
    have hPos : (0 : Int) < 2 ^ n := by positivity
    push_cast
    rw [hSplit, ← neg_mul, mul_le_mul_iff_left₀ hPos, mul_lt_mul_iff_left₀ hPos]
  · have hClz : (signMagnitude x).clz.toNat ≤ w := by
      have hLe := BitVec.clz_le (x := signMagnitude x)
      rw [BitVec.le_def, BitVec.natCast_eq_ofNat, BitVec.toNat_ofNat,
        Nat.mod_eq_of_lt Nat.lt_two_pow_self] at hLe
      exact hLe
    have hPow : (2 : Int) ^ (w - 1) ≤ 2 ^ n :=
      pow_le_pow_right₀ (by norm_num) (by omega)
    have hPos : (0 : Int) < 2 ^ (w - 1) := by positivity
    constructor
    · omega
    · rintro ⟨hLow, hHigh⟩
      exfalso
      rcases lt_or_gt_of_ne hx with hNeg | hNonneg
      · have hMul : x.toInt * 2 ^ n ≤ -1 * 2 ^ n :=
          mul_le_mul_of_nonneg_right (by omega) (by positivity)
        have hw : n ≠ w - 1 := by
          rintro rfl
          have hZero : w = 0 := by omega
          subst hZero
          simp [BitVec.of_length_zero] at hx
        have hStrict : (2 : Int) ^ (w - 1) < 2 ^ n :=
          pow_lt_pow_right₀ (by norm_num) (by omega)
        linarith
      · have hMul : 1 * 2 ^ n ≤ x.toInt * 2 ^ n :=
          mul_le_mul_of_nonneg_right (by omega) (by positivity)
        linarith

end CloverVM.Machine.Fixnum
