import CloverVM.BuiltinTypes.BigIntView

/-!
# Exact integer arithmetic

Addition, subtraction, multiplication, negation and inversion over views.
Each loop keeps an equation between the number written so far, what it
carries on and the numbers read so far; its last value is the specification
of the function around it.
-/

namespace CloverVM.BuiltinTypes.BigInt

open CloverVM.Machine CloverVM.Machine.Digits CloverVM.ObjectModel

theorem toNat_toDigit {n : Nat} (h : n < 2 ^ 32) : (toDigit n).toNat = n := by
  rw [toDigit, BitVec.toNat_ofNat, Nat.mod_eq_of_lt h]

/-- The digit stored and the carry passed on make up the number. -/
theorem toDigit_add_carry (n : Nat) :
    (toDigit n).toNat + 2 ^ 32 * (n >>> kDigitBits) = n :=
  toNat_ofNat_add_shiftRight n

theorem shiftRight_lt {n m : Nat} (h : n < 2 ^ 32 * m) :
    n >>> kDigitBits < m := by
  rw [kDigitBits, Nat.shiftRight_eq_div_pow]
  exact Nat.div_lt_of_lt_mul h

/-- The digits that a loop has written, with its last carry as one more digit
where there is one: trimmed when the number reaches the weight of the loop's
top place. -/
theorem trimmed_with_carry {digits : List Digit} {carry n : Nat}
    (hCarry : carry < 2 ^ 32)
    (hValue : value digits + (2 ^ 32) ^ digits.length * carry = n)
    (hTop : digits ≠ [] → (2 ^ 32) ^ (digits.length - 1) ≤ n) :
    Trimmed (if carry ≠ 0 then digits ++ [toDigit carry] else digits) ∧
      value (if carry ≠ 0 then digits ++ [toDigit carry] else digits) = n := by
  by_cases hOut : carry = 0
  · rw [if_neg (not_not.mpr hOut)]
    rw [hOut, Nat.mul_zero, Nat.add_zero] at hValue
    refine ⟨?_, hValue⟩
    by_cases hNil : digits = []
    · rw [hNil]
      exact trimmed_nil
    · exact trimmed_of_pow_le_value (hValue ▸ hTop hNil)
  · rw [if_pos hOut]
    have hDigit := toNat_toDigit hCarry
    refine ⟨(trimmed_append_singleton _).mpr fun hZero => ?_, ?_⟩
    · rw [hZero] at hDigit
      exact hOut hDigit.symm
    · rw [value_append, value_cons, value_nil, hDigit, Nat.mul_zero,
        Nat.add_zero, hValue]

/-! ## Addition of magnitudes -/

/-- Ripple carry: the digits written and the last carry make up the sum. -/
theorem absAddLoop_spec (count : Nat) :
    ∀ (left right : List Digit) (carry : Nat), left.length ≤ count →
      right.length ≤ count → carry ≤ 1 →
      ∃ digits carryOut,
        absAddLoop count left right carry = some (digits, carryOut) ∧
          carryOut ≤ 1 ∧ digits.length = count ∧
          value digits + (2 ^ 32) ^ count * carryOut =
            value left + value right + carry := by
  induction count with
  | zero =>
      intro left right carry hl hr hCarry
      have hLeft := List.length_eq_zero_iff.mp (Nat.le_zero.mp hl)
      have hRight := List.length_eq_zero_iff.mp (Nat.le_zero.mp hr)
      subst hLeft hRight
      exact ⟨[], carry, rfl, hCarry, rfl, by simp⟩
  | succ count ih =>
      intro left right carry hl hr hCarry
      have hLeft := value_headD_tail left
      have hRight := value_headD_tail right
      have hld := (left.headD 0).isLt
      have hrd := (right.headD 0).isLt
      generalize hSum : (left.headD 0).toNat + (right.headD 0).toNat + carry
        = sum
      have hSplit := toDigit_add_carry sum
      have hNext : sum >>> kDigitBits < 2 := shiftRight_lt (by omega)
      obtain ⟨digits, carryOut, hRun, hOut, hLength, hValue⟩ :=
        ih left.tail right.tail (sum >>> kDigitBits)
          (by rw [List.length_tail]; omega)
          (by rw [List.length_tail]; omega) (by omega)
      refine ⟨toDigit sum :: digits, carryOut, ?_, hOut, by simp [hLength], ?_⟩
      · rw [absAddLoop, hSum, doubleDigit_eq_some (by omega)]
        exact bind_of_eq_some hRun _
      · rw [value_cons, base_pow_succ_mul]
        omega

/-- Views with the longer length `count` have no more digits than that. -/
theorem bigintAbsAddInto_spec {capacity : Nat} {left right : ConstBigIntView}
    (hl : Normalized left) (hr : Normalized right)
    (hCapacity : max left.nDigits right.nDigits + 1 ≤ capacity) :
    ∃ dest, bigintAbsAddInto capacity left right = some dest ∧
      Denotes dest ((left.magnitude + right.magnitude : Nat) : Int) := by
  obtain ⟨digits, carry, hRun, hCarry, hLength, hValue⟩ :=
    absAddLoop_spec (max left.nDigits right.nDigits) left.digits right.digits
      0 (Nat.le_max_left _ _) (Nat.le_max_right _ _) (by decide)
  rw [Nat.add_zero] at hValue
  unfold bigintAbsAddInto
  rw [check_normalized hl, check_normalized hr, check_bind hCapacity]
  generalize hDigits : (if carry ≠ 0 then digits ++ [toDigit carry] else
    digits) = written
  have hWritten : Trimmed written ∧
      value written = left.magnitude + right.magnitude := by
    rw [← hDigits]
    rw [← hLength] at hValue
    refine trimmed_with_carry (by omega) hValue fun hNil => ?_
    -- the longer summand already reaches the weight of the top place
    rw [hLength]
    unfold ConstBigIntView.magnitude
    rcases Nat.le_total right.nDigits left.nDigits with hMax | hMax
    · rw [Nat.max_eq_left hMax] at hLength ⊢
      have hne : left.digits ≠ [] := by
        rintro hEmpty
        rw [ConstBigIntView.nDigits, hEmpty] at hLength
        exact hNil (List.length_eq_zero_iff.mp hLength)
      exact (pow_le_value hl.trimmed hne).trans (Nat.le_add_right _ _)
    · rw [Nat.max_eq_right hMax] at hLength ⊢
      have hne : right.digits ≠ [] := by
        rintro hEmpty
        rw [ConstBigIntView.nDigits, hEmpty] at hLength
        exact hNil (List.length_eq_zero_iff.mp hLength)
      exact (pow_le_value hr.trimmed hne).trans (Nat.le_add_left _ _)
  have hDest := denotes_unsignedView hWritten.1
  rw [hWritten.2] at hDest
  refine ⟨unsignedView written, (bind_of_eq_some hRun _).trans ?_, hDest⟩
  change (check (isNormalizedBigintView (unsignedView (if carry ≠ 0 then
    digits ++ [toDigit carry] else digits)) = true) >>= _) = _
  rw [hDigits]
  exact check_normalized hDest.normalized _

/-! ## Subtraction of magnitudes -/

/-- Ripple borrow: the digits written make up the difference, with the last
borrow one place above them. -/
theorem absSubLoop_spec (left : List Digit) :
    ∀ (right : List Digit) (borrow : Nat), right.length ≤ left.length →
      borrow ≤ 1 →
      ∃ digits borrowOut,
        absSubLoop left right borrow = some (digits, borrowOut) ∧
          borrowOut ≤ 1 ∧ digits.length = left.length ∧
          value digits + value right + borrow =
            value left + (2 ^ 32) ^ left.length * borrowOut := by
  induction left with
  | nil =>
      intro right borrow hr hBorrow
      have hRight := List.length_eq_zero_iff.mp (Nat.le_zero.mp hr)
      subst hRight
      exact ⟨[], borrow, rfl, hBorrow, rfl, by simp⟩
  | cons l left ih =>
      intro right borrow hr hBorrow
      have hRight := value_headD_tail right
      have hld := l.isLt
      have hrd := (right.headD 0).isLt
      have hTail : right.tail.length ≤ left.length := by
        rw [List.length_tail]
        rw [List.length_cons] at hr
        omega
      generalize hSub : (right.headD 0).toNat + borrow = subtrahend
      by_cases hLt : l.toNat < subtrahend
      · obtain ⟨digits, borrowOut, hRun, hOut, hLength, hValue⟩ :=
          ih right.tail 1 hTail (le_refl 1)
        have hDigit : (toDigit (kDigitBase + l.toNat - subtrahend)).toNat =
            kDigitBase + l.toNat - subtrahend :=
          toNat_toDigit (by unfold kDigitBase; omega)
        refine ⟨toDigit (kDigitBase + l.toNat - subtrahend) :: digits,
          borrowOut, ?_, hOut, by simp [hLength], ?_⟩
        · rw [absSubLoop, hSub, doubleDigit_eq_some (by omega)]
          change (if l.toNat < subtrahend then _ else _) = _
          rw [if_pos hLt, doubleDigit_eq_some (by unfold kDigitBase; omega)]
          refine (check_bind (by unfold kDigitBase; omega) _).trans ?_
          exact bind_of_eq_some hRun _
        · rw [value_cons, value_cons, hDigit, List.length_cons,
            base_pow_succ_mul]
          unfold kDigitBase
          omega
      · obtain ⟨digits, borrowOut, hRun, hOut, hLength, hValue⟩ :=
          ih right.tail 0 hTail (Nat.zero_le 1)
        have hDigit : (toDigit (l.toNat - subtrahend)).toNat =
            l.toNat - subtrahend := toNat_toDigit (by omega)
        refine ⟨toDigit (l.toNat - subtrahend) :: digits, borrowOut, ?_, hOut,
          by simp [hLength], ?_⟩
        · rw [absSubLoop, hSub, doubleDigit_eq_some (by omega)]
          change (if l.toNat < subtrahend then _ else _) = _
          rw [if_neg hLt]
          exact bind_of_eq_some hRun _
        · rw [value_cons, value_cons, hDigit, List.length_cons,
            base_pow_succ_mul]
          omega

/-- No borrow is left when the smaller number is taken from the greater. -/
theorem absSubLoop_of_le {left right : List Digit}
    (hLength : right.length ≤ left.length) (hLe : value right ≤ value left) :
    ∃ digits, absSubLoop left right 0 = some (digits, 0) ∧
      digits.length = left.length ∧
      value digits = value left - value right := by
  obtain ⟨digits, borrow, hRun, hBorrow, hDigits, hValue⟩ :=
    absSubLoop_spec left right 0 hLength (Nat.zero_le 1)
  have hSmall := value_lt digits
  have hZero : borrow = 0 := by
    by_contra hne
    have hOne : borrow = 1 := by omega
    rw [hOne, Nat.mul_one] at hValue
    rw [hDigits] at hSmall
    omega
  subst hZero
  exact ⟨digits, hRun, hDigits, by omega⟩

theorem Normalized.length_le_of_magnitude_le {left right : ConstBigIntView}
    (hr : Normalized right) (hLe : right.magnitude ≤ left.magnitude) :
    right.nDigits ≤ left.nDigits :=
  length_le_of_value_lt hr.trimmed (lt_of_le_of_lt hLe (value_lt left.digits))

/-- The greater integer has no fewer digits. -/
theorem Denotes.nDigits_mono {left right : ConstBigIntView} {a b : Int}
    (hl : Denotes left a) (hr : Denotes right b) (h : a.natAbs ≤ b.natAbs) :
    left.nDigits ≤ right.nDigits := by
  refine hl.normalized.length_le_of_magnitude_le ?_
  rw [hl.magnitude, hr.magnitude]
  exact h

theorem bigintAbsSubInto_spec {capacity : Nat} {left right : ConstBigIntView}
    (hl : Normalized left) (hr : Normalized right)
    (hLe : right.magnitude ≤ left.magnitude)
    (hCapacity : left.nDigits ≤ capacity) :
    ∃ dest, bigintAbsSubInto capacity left right = some dest ∧
      Denotes dest ((left.magnitude - right.magnitude : Nat) : Int) := by
  have hOrder : ((left.magnitude : Int) - (right.magnitude : Int)).sign ≥ 0 :=
    Int.sign_nonneg_iff.mpr (by omega)
  obtain ⟨digits, hRun, -, hValue⟩ :=
    absSubLoop_of_le (hr.length_le_of_magnitude_le hLe) hLe
  have hSign : value digits = 0 ∨ (unsignedView digits).signum = -1 ∨
      (unsignedView digits).signum = 1 := by
    by_cases hNil : digits = []
    · exact Or.inl (by rw [hNil, value_nil])
    · exact Or.inr (Or.inr (if_neg (by simpa using hNil)))
  obtain ⟨dest, hDest, -, hDenotes⟩ := normalizeBigintView_spec _ _ hSign
  refine ⟨dest, ?_, ?_⟩
  · unfold bigintAbsSubInto
    rw [check_normalized hl, check_normalized hr,
      compareBigintAbs_eq_sign hl hr]
    refine (check_bind hOrder _).trans ?_
    refine (check_bind hCapacity _).trans ?_
    refine (bind_of_eq_some hRun _).trans ?_
    exact (check_bind (p := (0 : Nat) = 0) rfl _).trans hDest
  · have hSigned : (unsignedView digits).signum * (value digits : Int) =
        (left.magnitude - right.magnitude : Nat) := by
      have hMagnitude : value digits = left.magnitude - right.magnitude := hValue
      rw [← hMagnitude]
      by_cases hNil : digits = []
      · rw [hNil]
        rfl
      · rw [unsignedView, if_neg (by simpa using hNil), one_mul]
    rw [← hSigned]
    exact hDenotes

/-! ## Addition and subtraction -/

theorem copyBigintView_eq {capacity : Nat} {src : ConstBigIntView}
    (h : Normalized src) (hCapacity : src.nDigits ≤ capacity) :
    copyBigintView capacity src = some src := by
  unfold copyBigintView
  rw [check_normalized h, check_bind hCapacity]

/-- The sign cases of addition. -/
theorem bigintAddBranches_spec {capacity : Nat} {left right : ConstBigIntView}
    {m n : Int} (hl : Denotes left m) (hr : Denotes right n)
    (hCapacity : max left.nDigits right.nDigits + 1 ≤ capacity) :
    ∃ dest, bigintAddBranches capacity left right = some dest ∧
      Denotes dest (m + n) := by
  have hLeft : left.nDigits ≤ capacity := by omega
  have hRight : right.nDigits ≤ capacity := by omega
  unfold bigintAddBranches
  by_cases hm : m = 0
  · have hZero := hl.signum_eq_zero_iff.mpr hm
    subst hm
    refine ⟨right, ?_, by rwa [zero_add]⟩
    rw [if_pos hZero, copyBigintView_eq hr.normalized hRight]
  have hmSign : ¬ left.signum = 0 := mt hl.signum_eq_zero_iff.mp hm
  by_cases hn : n = 0
  · have hZero := hr.signum_eq_zero_iff.mpr hn
    subst hn
    refine ⟨left, ?_, by rwa [add_zero]⟩
    rw [if_neg hmSign, if_pos hZero, copyBigintView_eq hl.normalized hLeft]
  have hnSign : ¬ right.signum = 0 := mt hr.signum_eq_zero_iff.mp hn
  have hmUnit : left.signum = -1 ∨ left.signum = 1 := by
    rcases Int.sign_trichotomy m with h | h | h <;>
      simp_all [hl.signum]
  have hnUnit : right.signum = -1 ∨ right.signum = 1 := by
    rcases Int.sign_trichotomy n with h | h | h <;>
      simp_all [hr.signum]
  have hmAbs := Int.sign_mul_natAbs m
  have hnAbs := Int.sign_mul_natAbs n
  by_cases hSame : left.signum = right.signum
  · obtain ⟨sum, hSum, hDenotes⟩ :=
      bigintAbsAddInto_spec hl.normalized hr.normalized hCapacity
    rw [hl.magnitude, hr.magnitude] at hDenotes
    refine ⟨{ sum with signum := left.signum }, ?_, ?_⟩
    · rw [if_neg hmSign, if_neg hnSign, if_pos hSame]
      exact bind_of_eq_some hSum _
    · have hSigned := hDenotes.withSignum (by omega) hmUnit
      have hValue : left.signum * ((m.natAbs + n.natAbs : Nat) : Int) =
          m + n := by
        have hSigns : m.sign = n.sign := by rw [← hl.signum, hSame, hr.signum]
        rw [Int.natCast_add, Int.mul_add, hl.signum, hmAbs, hSigns, hnAbs]
      rwa [hValue] at hSigned
  · have hOpposite : n.sign = -m.sign := by
      rw [← hl.signum, ← hr.signum]
      omega
    have hCompare := compareBigintAbs_eq_sign hl.normalized hr.normalized
    rw [hl.magnitude, hr.magnitude] at hCompare
    rcases Nat.lt_trichotomy m.natAbs n.natAbs with hLt | hEq | hGt
    · obtain ⟨difference, hSub, hDenotes⟩ :=
        bigintAbsSubInto_spec hr.normalized hl.normalized
          (by rw [hl.magnitude, hr.magnitude]; omega) hRight
      rw [hl.magnitude, hr.magnitude] at hDenotes
      rw [Int.sign_eq_neg_one_of_neg (by omega)] at hCompare
      refine ⟨{ difference with signum := right.signum }, ?_, ?_⟩
      · rw [if_neg hmSign, if_neg hnSign, if_neg hSame]
        refine (bind_of_eq_some hCompare _).trans ?_
        exact bind_of_eq_some hSub _
      · have hSigned := hDenotes.withSignum (by omega) hnUnit
        have hValue : right.signum * ((n.natAbs - m.natAbs : Nat) : Int) =
            m + n := by
          rw [Int.natCast_sub hLt.le, Int.mul_sub, hr.signum, hnAbs,
            hOpposite, Int.neg_mul, hmAbs]
          omega
        rwa [hValue] at hSigned
    · refine ⟨⟨0, []⟩, ?_, ?_⟩
      · rw [if_neg hmSign, if_neg hnSign, if_neg hSame]
        rw [hEq, Int.sub_self, Int.sign_zero] at hCompare
        exact bind_of_eq_some hCompare _
      · have hValue : m + n = 0 := by
          rw [← hmAbs, ← hnAbs, hOpposite, hEq]
          ring
        rw [hValue]
        exact denotes_zero
    · obtain ⟨difference, hSub, hDenotes⟩ :=
        bigintAbsSubInto_spec hl.normalized hr.normalized
          (by rw [hl.magnitude, hr.magnitude]; omega) hLeft
      rw [hl.magnitude, hr.magnitude] at hDenotes
      rw [Int.sign_eq_one_of_pos (by omega)] at hCompare
      refine ⟨{ difference with signum := left.signum }, ?_, ?_⟩
      · rw [if_neg hmSign, if_neg hnSign, if_neg hSame]
        refine (bind_of_eq_some hCompare _).trans ?_
        exact bind_of_eq_some hSub _
      · have hSigned := hDenotes.withSignum (by omega) hmUnit
        have hValue : left.signum * ((m.natAbs - n.natAbs : Nat) : Int) =
            m + n := by
          have hBack : m.sign = -n.sign := by omega
          rw [Int.natCast_sub hGt.le, Int.mul_sub, hl.signum, hmAbs,
            hBack, Int.neg_mul, hnAbs]
          omega
        rwa [hValue] at hSigned

theorem bigintAddInto_spec (capacity : Nat) {left right : ConstBigIntView}
    {m n : Int} (hl : Denotes left m) (hr : Denotes right n)
    (hCapacity : max left.nDigits right.nDigits + 1 ≤ capacity) :
    ∃ dest, bigintAddInto capacity left right = some dest ∧
      Denotes dest (m + n) := by
  obtain ⟨dest, hRun, hDest⟩ := bigintAddBranches_spec hl hr hCapacity
  unfold bigintAddInto
  rw [check_normalized hl.normalized, check_normalized hr.normalized, hRun]
  exact ⟨dest, check_normalized hDest.normalized _, hDest⟩

theorem bigintAdd_yields {left right : ConstBigIntView} {m n : Int}
    (hl : Denotes left m) (hr : Denotes right n) :
    Yields (bigintAdd left right) (m + n) := by
  obtain ⟨dest, hRun, hDest⟩ := bigintAddInto_spec _ hl hr (le_refl _)
  unfold bigintAdd
  rw [hRun]
  exact finalizeBigint_yields hDest

theorem bigintSubInto_spec (capacity : Nat) {left right : ConstBigIntView}
    {m n : Int} (hl : Denotes left m) (hr : Denotes right n)
    (hCapacity : max left.nDigits right.nDigits + 1 ≤ capacity) :
    ∃ dest, bigintSubInto capacity left right = some dest ∧
      Denotes dest (m - n) := by
  obtain ⟨dest, hRun, hDest⟩ :=
    bigintAddInto_spec capacity hl hr.negated hCapacity
  rw [← sub_eq_add_neg] at hDest
  refine ⟨dest, ?_, hDest⟩
  unfold bigintSubInto
  rw [check_normalized hr.normalized]
  exact hRun

theorem bigintSub_yields {left right : ConstBigIntView} {m n : Int}
    (hl : Denotes left m) (hr : Denotes right n) :
    Yields (bigintSub left right) (m - n) := by
  obtain ⟨dest, hRun, hDest⟩ := bigintSubInto_spec _ hl hr (le_refl _)
  unfold bigintSub
  rw [hRun]
  exact finalizeBigint_yields hDest

theorem bigintNegate_yields {view : ConstBigIntView} {n : Int}
    (h : Denotes view n) : Yields (bigintNegate view) (-n) := by
  unfold bigintNegate
  rw [check_normalized h.normalized]
  exact finalizeBigint_yields h.negated

theorem bigintInvert_yields {view : ConstBigIntView} {n : Int}
    (h : Denotes view n) : Yields (bigintInvert view) (-n - 1) := by
  obtain ⟨dest, hRun, hDest⟩ := bigintAddInto_spec
    (max view.nDigits 1 + 1) h denotes_one (le_refl _)
  have hValue : -n - 1 = -(n + 1) := by ring
  unfold bigintInvert
  rw [check_normalized h.normalized, hValue]
  simp only [hRun]
  refine finalizeBigint_yields (?_ : Denotes (if dest.nDigits ≠ 0 then
    dest.negated else dest) (-(n + 1)))
  by_cases hEmpty : dest.nDigits = 0
  · have hZero := hDest.digits_eq_nil_iff.mp (List.length_eq_zero_iff.mp hEmpty)
    rw [if_neg (not_not.mpr hEmpty)]
    rw [hZero] at hDest ⊢
    exact hDest
  · rw [if_pos hEmpty]
    exact hDest.negated

/-! ## Multiplication -/

/-- One row: the buffer gains the digit times `right`, and the place behind
the row, zero before it, holds the last carry. -/
theorem mulRow_spec (leftDigit : Digit) (right : List Digit) :
    ∀ (low rest : List Digit) (carry : Nat), low.length = right.length →
      carry < 2 ^ 32 →
      ∃ high top, high.length = right.length ∧
        mulRow leftDigit right (low ++ 0 :: rest) carry =
          some (high ++ top :: rest) ∧
        value (high ++ [top]) =
          value low + leftDigit.toNat * value right + carry := by
  induction right with
  | nil =>
      intro low rest carry hLow hCarry
      have hNil := List.length_eq_zero_iff.mp hLow
      subst hNil
      refine ⟨[], toDigit carry, rfl, rfl, ?_⟩
      simp [toNat_toDigit hCarry]
  | cons r right ih =>
      intro low rest carry hLow hCarry
      cases low with
      | nil => simp at hLow
      | cons d low =>
          generalize hProduct : leftDigit.toNat * r.toNat + d.toNat + carry =
            product
          have hBound : product < 2 ^ 32 * 2 ^ 32 := by
            have hMul : leftDigit.toNat * r.toNat ≤
                (2 ^ 32 - 1) * (2 ^ 32 - 1) :=
              Nat.mul_le_mul (Nat.le_pred_of_lt leftDigit.isLt)
                (Nat.le_pred_of_lt r.isLt)
            have hd := d.isLt
            omega
          have hSplit := toDigit_add_carry product
          obtain ⟨high, top, hLength, hRun, hValue⟩ :=
            ih low rest (product >>> kDigitBits) (Nat.succ.inj hLow)
              (shiftRight_lt hBound)
          refine ⟨toDigit product :: high, top, by simp [hLength], ?_, ?_⟩
          · rw [List.cons_append, mulRow, hProduct,
              doubleDigit_eq_some (by omega)]
            exact bind_of_eq_some hRun _
          · rw [List.cons_append, value_cons, value_cons, value_cons, hValue,
              Nat.mul_add, Nat.mul_add, Nat.mul_add]
            have hCross : leftDigit.toNat * (2 ^ 32 * value right) =
                2 ^ 32 * (leftDigit.toNat * value right) := by ring
            omega

/-- The schoolbook product, added to what the buffer holds. -/
theorem mulLoop_spec (right left : List Digit) :
    ∀ low : List Digit, low.length = right.length →
      ∃ dest,
        mulLoop right left (low ++ List.replicate left.length 0) =
          some dest ∧
        value dest = value low + value left * value right := by
  induction left with
  | nil =>
      intro low _
      exact ⟨low, by simp [mulLoop], by simp⟩
  | cons l left ih =>
      intro low hLow
      obtain ⟨high, top, hLength, hRun, hValue⟩ :=
        mulRow_spec l right low (List.replicate left.length 0) 0 hLow
          (by decide)
      obtain ⟨d, rest, hHead⟩ : ∃ d rest, high ++ [top] = d :: rest := by
        cases high with
        | nil => exact ⟨top, [], rfl⟩
        | cons d high => exact ⟨d, high ++ [top], rfl⟩
      have hRest : rest.length = right.length := by
        have hBoth := congrArg List.length hHead
        simp only [List.length_append, List.length_cons, List.length_nil]
          at hBoth
        omega
      have hBuffer : high ++ top :: List.replicate left.length 0 =
          d :: (rest ++ List.replicate left.length 0) := by
        rw [← List.cons_append, ← hHead, List.append_assoc]
        rfl
      obtain ⟨dest, hTail, hDest⟩ := ih rest hRest
      rw [hHead, value_cons, Nat.add_zero] at hValue
      refine ⟨d :: dest, ?_, ?_⟩
      · rw [List.length_cons, List.replicate_succ, mulLoop, hRun, hBuffer]
        exact bind_of_eq_some hTail _
      · rw [value_cons, hDest, value_cons, Nat.mul_add, Nat.add_mul,
          Nat.mul_assoc]
        omega

theorem bigintMulInto_spec {capacity : Nat} {left right : ConstBigIntView}
    {m n : Int} (hl : Denotes left m) (hr : Denotes right n)
    (hCapacity : left.nDigits + right.nDigits ≤ capacity) :
    ∃ dest, bigintMulInto capacity left right = some dest ∧
      Denotes dest (m * n) := by
  unfold bigintMulInto
  rw [check_normalized hl.normalized, check_normalized hr.normalized]
  by_cases hZero : left.signum = 0 ∨ right.signum = 0
  · have hProduct : m * n = 0 := by
      rcases hZero with hLeft | hRight
      · rw [hl.signum_eq_zero_iff.mp hLeft, Int.zero_mul]
      · rw [hr.signum_eq_zero_iff.mp hRight, Int.mul_zero]
    rw [hProduct]
    exact ⟨⟨0, []⟩, if_pos hZero, denotes_zero⟩
  · obtain ⟨digits, hRun, hValue⟩ := mulLoop_spec right.digits left.digits
      (List.replicate right.nDigits 0) List.length_replicate
    rw [List.replicate_append_replicate, Nat.add_comm] at hRun
    rw [value_replicate_zero, Nat.zero_add] at hValue
    have hSign : value digits = 0 ∨ left.signum * right.signum = -1 ∨
        left.signum * right.signum = 1 := by
      rw [not_or] at hZero
      refine Or.inr ?_
      rcases hl.normalized.signum with ⟨-, h⟩ | ⟨-, hLeft⟩
      · exact absurd h hZero.1
      rcases hr.normalized.signum with ⟨-, h⟩ | ⟨-, hRight⟩
      · exact absurd h hZero.2
      rcases hLeft with hLeft | hLeft <;> rcases hRight with hRight | hRight <;>
        simp [hLeft, hRight]
    obtain ⟨dest, hDest, -, hDenotes⟩ := normalizeBigintView_spec _ _ hSign
    have hProduct : left.signum * right.signum * (value digits : Int) =
        m * n := by
      have hLeft : left.signum * (value left.digits : Int) = m := hl.toInt
      have hRight : right.signum * (value right.digits : Int) = n := hr.toInt
      rw [hValue, ← hLeft, ← hRight]
      push_cast
      ring
    rw [hProduct] at hDenotes
    refine ⟨dest, (if_neg hZero).trans ?_, hDenotes⟩
    refine (check_bind hCapacity _).trans ?_
    exact (bind_of_eq_some hRun _).trans hDest

theorem bigintMul_yields {left right : ConstBigIntView} {m n : Int}
    (hl : Denotes left m) (hr : Denotes right n) :
    Yields (bigintMul left right) (m * n) := by
  obtain ⟨dest, hRun, hDest⟩ := bigintMulInto_spec hl hr (le_refl _)
  refine (?_ : Yields (_ >>= finalizeBigint) _)
  rw [hRun]
  exact finalizeBigint_yields hDest

/-- Over canonical values the five operations are exact and canonical, and
normalized views are ordered as the integers they denote. -/
theorem bigint_arithmetic_exact {a b : IntValue} (ha : a.Canonical)
    (hb : b.Canonical) :
    (∃ left right, exactIntValueBigintView a = some left ∧
      exactIntValueBigintView b = some right ∧
      Yields (bigintAdd left right) (a.toInt + b.toInt) ∧
      Yields (bigintSub left right) (a.toInt - b.toInt) ∧
      Yields (bigintMul left right) (a.toInt * b.toInt) ∧
      Yields (bigintNegate left) (-a.toInt) ∧
      Yields (bigintInvert left) (-a.toInt - 1)) ∧
    ∀ left right : ConstBigIntView, Normalized left → Normalized right →
      compareBigint left right = some (left.toInt - right.toInt).sign := by
  obtain ⟨left, hLeft, hl⟩ := ha.view
  obtain ⟨right, hRight, hr⟩ := hb.view
  refine ⟨⟨left, right, hLeft, hRight, bigintAdd_yields hl hr,
    bigintSub_yields hl hr, bigintMul_yields hl hr, bigintNegate_yields hl,
    bigintInvert_yields hl⟩, ?_⟩
  intro left right hl hr
  exact compareBigint_eq_sign (denotes_self hl) (denotes_self hr)

/-- The greatest SMI and the object one above it. -/
theorem bigint_arithmetic_exact_at_smi_max :
    (IntValue.smi (Value.ofInt (2 ^ 58 - 1))).Canonical ∧
      (IntValue.bigInt ⟨1, [0, 2 ^ 26]⟩).Canonical ∧
      ∃ left right,
        exactIntValueBigintView (.smi (Value.ofInt (2 ^ 58 - 1))) =
          some left ∧
        exactIntValueBigintView (.bigInt ⟨1, [0, 2 ^ 26]⟩) = some right ∧
        Yields (bigintSub left right)
          ((IntValue.smi (Value.ofInt (2 ^ 58 - 1))).toInt -
            (IntValue.bigInt ⟨1, [0, 2 ^ 26]⟩).toInt) := by
  have ha : (IntValue.smi (Value.ofInt (2 ^ 58 - 1))).Canonical :=
    isSmi_ofInt _
  have hb : (IntValue.bigInt ⟨1, [0, 2 ^ 26]⟩).Canonical :=
    ⟨(isNormalizedBigintView_iff _).mp (by decide), by decide⟩
  obtain ⟨⟨left, right, hLeft, hRight, -, hSub, -⟩, -⟩ :=
    bigint_arithmetic_exact ha hb
  exact ⟨ha, hb, left, right, hLeft, hRight, hSub⟩

end CloverVM.BuiltinTypes.BigInt
