import CloverVM.BuiltinTypes.BigInt

/-!
# Normalized views and canonical integers

The code keeps every view normalized: the top digit is not zero, and the sign
is zero exactly for the empty string of digits.  `Denotes view n` says that a
normalized view holds the integer `n`, and is what the specification of each
operation yields.  A canonical `int` value is an SMI word where the integer
fits one, else a normalized object that does not.
-/

namespace CloverVM.BuiltinTypes.BigInt

open CloverVM.Machine CloverVM.Machine.Digits CloverVM.ObjectModel

/-- The top digit is not zero, and no digits go with sign zero. -/
structure Normalized (view : ConstBigIntView) : Prop where
  trimmed : Trimmed view.digits
  signum : view.digits = [] ∧ view.signum = 0 ∨
    view.digits ≠ [] ∧ (view.signum = -1 ∨ view.signum = 1)

/-- The normalized view holds the integer. -/
structure Denotes (view : ConstBigIntView) (n : Int) : Prop where
  normalized : Normalized view
  toInt : view.toInt = n

theorem isNormalizedBigintView_iff (view : ConstBigIntView) :
    isNormalizedBigintView view = true ↔ Normalized view := by
  obtain ⟨signum, digits⟩ := view
  unfold isNormalizedBigintView ConstBigIntView.nDigits
  by_cases hNil : digits = []
  · subst hNil
    simp only [List.length_nil, if_true, beq_iff_eq]
    constructor
    · intro hZero
      exact ⟨trimmed_nil, Or.inl ⟨rfl, hZero⟩⟩
    · rintro ⟨-, ⟨-, hZero⟩ | ⟨hne, -⟩⟩
      · exact hZero
      · exact absurd rfl hne
  · rw [if_neg (by simpa using hNil)]
    split
    · rename_i hSign
      simp only [Bool.and_eq_true, bne_iff_ne] at hSign
      refine ⟨nofun, ?_⟩
      rintro ⟨-, ⟨hEmpty, -⟩ | ⟨-, hNeg | hPos⟩⟩
      · exact absurd hEmpty hNil
      · exact absurd hNeg hSign.1
      · exact absurd hPos hSign.2
    · rename_i hSign
      have hUnit : signum = -1 ∨ signum = 1 := by
        by_contra hOther
        simp only [not_or] at hOther
        exact hSign (by simpa using hOther)
      rw [bne_iff_ne]
      exact ⟨fun hTop => ⟨hTop, Or.inr ⟨hNil, hUnit⟩⟩,
        fun hNormal => hNormal.trimmed⟩

/-- A check of a normalized view does nothing. -/
theorem check_normalized {α : Type} {view : ConstBigIntView}
    (h : Normalized view) (f : Unit → Option α) :
    (check (isNormalizedBigintView view = true) >>= f) = f () :=
  check_bind ((isNormalizedBigintView_iff view).mpr h) f

theorem doubleDigit_eq_some {n : Nat} (h : n < 2 ^ 64) :
    doubleDigit n = some n := by
  unfold doubleDigit
  exact check_bind h _

/-! ## The integer of a view -/

theorem Normalized.signum_eq_zero_iff {view : ConstBigIntView}
    (h : Normalized view) : view.signum = 0 ↔ view.digits = [] := by
  rcases h.signum with ⟨hNil, hZero⟩ | ⟨hne, hNeg | hPos⟩
  · simp [hNil, hZero]
  · simp [hne, hNeg]
  · simp [hne, hPos]

theorem Normalized.magnitude_pos {view : ConstBigIntView}
    (h : Normalized view) (hne : view.digits ≠ []) : 0 < view.magnitude :=
  value_pos h.trimmed hne

/-- The sign of a normalized view is the sign of its integer. -/
theorem Normalized.signum_eq_sign {view : ConstBigIntView}
    (h : Normalized view) : view.signum = view.toInt.sign := by
  unfold ConstBigIntView.toInt
  rcases h.signum with ⟨-, hZero⟩ | ⟨hne, hNeg | hPos⟩
  · simp [hZero]
  · have hMagnitude := h.magnitude_pos hne
    rw [hNeg, Int.sign_mul, Int.sign_natCast_of_ne_zero hMagnitude.ne']
    rfl
  · have hMagnitude := h.magnitude_pos hne
    rw [hPos, Int.sign_mul, Int.sign_natCast_of_ne_zero hMagnitude.ne']
    rfl

/-- The magnitude of a normalized view is the absolute value. -/
theorem Normalized.magnitude_eq_natAbs {view : ConstBigIntView}
    (h : Normalized view) : view.magnitude = view.toInt.natAbs := by
  unfold ConstBigIntView.toInt
  rcases h.signum with ⟨hNil, hZero⟩ | ⟨-, hNeg | hPos⟩
  · simp [ConstBigIntView.magnitude, hNil, hZero]
  · simp [hNeg]
  · simp [hPos]

theorem denotes_self {view : ConstBigIntView} (h : Normalized view) :
    Denotes view view.toInt := ⟨h, rfl⟩

theorem denotes_zero : Denotes ⟨0, []⟩ 0 :=
  ⟨⟨trimmed_nil, Or.inl ⟨rfl, rfl⟩⟩, rfl⟩

theorem denotes_one : Denotes oneView 1 := by
  refine ⟨(isNormalizedBigintView_iff oneView).mp (by decide), ?_⟩
  simp [oneView, ConstBigIntView.toInt, ConstBigIntView.magnitude]

/-- Trimmed digits under a sign. -/
theorem denotes_of_trimmed {signum : Int} {digits : List Digit}
    (hTrimmed : Trimmed digits) (hne : digits ≠ [])
    (hSign : signum = -1 ∨ signum = 1) :
    Denotes ⟨signum, digits⟩ (signum * value digits) :=
  ⟨⟨hTrimmed, Or.inr ⟨hne, hSign⟩⟩, rfl⟩

theorem denotes_unsignedView {digits : List Digit}
    (hTrimmed : Trimmed digits) :
    Denotes (unsignedView digits) (value digits) := by
  by_cases hNil : digits = []
  · subst hNil
    exact denotes_zero
  · have hLength : ¬ digits.length = 0 := by simpa using hNil
    have hPlus := denotes_of_trimmed hTrimmed hNil (Or.inr rfl)
    rw [one_mul] at hPlus
    rw [unsignedView, if_neg hLength]
    exact hPlus

theorem Denotes.signum {view : ConstBigIntView} {n : Int}
    (h : Denotes view n) : view.signum = n.sign := by
  rw [h.normalized.signum_eq_sign, h.toInt]

theorem Denotes.magnitude {view : ConstBigIntView} {n : Int}
    (h : Denotes view n) : view.magnitude = n.natAbs := by
  rw [h.normalized.magnitude_eq_natAbs, h.toInt]

theorem Denotes.signum_eq_zero_iff {view : ConstBigIntView} {n : Int}
    (h : Denotes view n) : view.signum = 0 ↔ n = 0 := by
  rw [h.signum]
  exact Int.sign_eq_zero_iff_zero

theorem Denotes.digits_eq_nil_iff {view : ConstBigIntView} {n : Int}
    (h : Denotes view n) : view.digits = [] ↔ n = 0 := by
  rw [← h.normalized.signum_eq_zero_iff, h.signum_eq_zero_iff]

theorem Denotes.negated {view : ConstBigIntView} {n : Int}
    (h : Denotes view n) : Denotes view.negated (-n) := by
  refine ⟨⟨h.normalized.trimmed, ?_⟩, ?_⟩
  · rcases h.normalized.signum with ⟨hNil, hZero⟩ | ⟨hne, hNeg | hPos⟩
    · exact Or.inl ⟨hNil, by simp [ConstBigIntView.negated, hZero]⟩
    · exact Or.inr ⟨hne, Or.inr (by simp [ConstBigIntView.negated, hNeg])⟩
    · exact Or.inr ⟨hne, Or.inl (by simp [ConstBigIntView.negated, hPos])⟩
  · rw [← h.toInt]
    simp only [ConstBigIntView.toInt, ConstBigIntView.negated,
      ConstBigIntView.magnitude]
    ring

/-- A magnitude put under a sign. -/
theorem Denotes.withSignum {view : ConstBigIntView} {n : Nat}
    (h : Denotes view n) (hPos : 0 < n) {signum : Int}
    (hSign : signum = -1 ∨ signum = 1) :
    Denotes { view with signum := signum } (signum * n) := by
  have hne : view.digits ≠ [] := by
    intro hNil
    have hZero := h.digits_eq_nil_iff.mp hNil
    omega
  have hValue : value view.digits = n := by
    have hMagnitude := h.magnitude
    rwa [Int.natAbs_natCast] at hMagnitude
  rw [← hValue]
  exact denotes_of_trimmed h.normalized.trimmed hne hSign

/-- Normalized views of one integer are the same. -/
theorem Denotes.eq {left right : ConstBigIntView} {n : Int}
    (hl : Denotes left n) (hr : Denotes right n) : left = right := by
  have hDigits : left.digits = right.digits :=
    eq_of_value_eq hl.normalized.trimmed hr.normalized.trimmed
      (hl.magnitude.trans hr.magnitude.symm)
  have hSignum : left.signum = right.signum := by rw [hl.signum, hr.signum]
  cases left
  cases right
  simp_all

theorem normalizeBigintView_spec (signum : Int) (digits : List Digit)
    (hSign : value digits = 0 ∨ signum = -1 ∨ signum = 1) :
    ∃ view, normalizeBigintView ⟨signum, digits⟩ = some view ∧
      view.digits = trim digits ∧
      Denotes view (signum * value digits) := by
  unfold normalizeBigintView
  have hTrimmed := trimmed_trim digits
  have hValue := value_trim digits
  by_cases hNil : trim digits = []
  · have hZero : value digits = 0 := by rw [← hValue, hNil, value_nil]
    refine ⟨⟨0, []⟩, ?_, hNil.symm, ?_⟩
    · simp [hNil]
    · rw [hZero, Int.natCast_zero, Int.mul_zero]
      exact denotes_zero
  · have hne : ¬ value digits = 0 := by
      rw [← hValue]
      exact (value_pos hTrimmed hNil).ne'
    have hUnit : signum = -1 ∨ signum = 1 := hSign.resolve_left hne
    refine ⟨⟨signum, trim digits⟩, ?_, rfl, ?_⟩
    · simp only [List.length_eq_zero_iff, if_neg hNil]
      exact check_bind hUnit _
    · rw [← hValue]
      exact denotes_of_trimmed hTrimmed hNil hUnit

/-! ## Comparison -/

/-- The loop over strings of one length compares their numbers. -/
theorem compareDigits_eq_sign {left right : List Digit}
    (hLength : left.length = right.length) :
    compareDigits left right =
      ((value left : Int) - (value right : Int)).sign := by
  induction left generalizing right with
  | nil =>
      have hNil := List.length_eq_zero_iff.mp hLength.symm
      subst hNil
      rfl
  | cons l left ih =>
      cases right with
      | nil => simp at hLength
      | cons r right =>
          have hHigher := ih (Nat.succ.inj hLength)
          have hl := l.isLt
          have hr := r.isLt
          simp only [compareDigits, value_cons, hHigher]
          rcases Nat.lt_trichotomy (value left) (value right)
            with hLt | hEq | hGt
          · have hHigh : ((value left : Int) - (value right : Int)).sign = -1 :=
              Int.sign_eq_neg_one_of_neg (by omega)
            rw [hHigh, if_pos (by decide)]
            exact (Int.sign_eq_neg_one_of_neg (by push_cast; omega)).symm
          · rw [hEq, Int.sub_self, Int.sign_zero, if_neg (by decide)]
            by_cases hDigit : l = r
            · subst hDigit
              simp
            · rw [if_pos hDigit]
              have hNat : l.toNat ≠ r.toNat := mt BitVec.eq_of_toNat_eq hDigit
              by_cases hBelow : l < r
              · have hBelowNat : l.toNat < r.toNat := hBelow
                rw [if_pos hBelow]
                exact (Int.sign_eq_neg_one_of_neg (by push_cast; omega)).symm
              · have hBelowNat : ¬ l.toNat < r.toNat := hBelow
                rw [if_neg hBelow]
                exact (Int.sign_eq_one_of_pos (by push_cast; omega)).symm
          · have hHigh : ((value left : Int) - (value right : Int)).sign = 1 :=
              Int.sign_eq_one_of_pos (by omega)
            rw [hHigh, if_pos (by decide)]
            exact (Int.sign_eq_one_of_pos (by push_cast; omega)).symm

theorem compareBigintAbs_eq_sign {left right : ConstBigIntView}
    (hl : Normalized left) (hr : Normalized right) :
    compareBigintAbs left right =
      some ((left.magnitude : Int) - (right.magnitude : Int)).sign := by
  unfold compareBigintAbs
  rw [check_normalized hl, check_normalized hr]
  unfold ConstBigIntView.nDigits ConstBigIntView.magnitude
  split
  · rename_i hne
    congr 1
    split
    · rename_i hLt
      have hBelow := value_lt_value_of_length_lt hLt hr.trimmed
      exact (Int.sign_eq_neg_one_of_neg (by omega)).symm
    · rename_i hLt
      have hAbove : value right.digits < value left.digits :=
        value_lt_value_of_length_lt (by omega) hl.trimmed
      exact (Int.sign_eq_one_of_pos (by omega)).symm
  · rename_i hEq
    rw [compareDigits_eq_sign (not_not.mp hEq)]

/-- The order of two signs is the order of their integers. -/
theorem lt_of_sign_lt {m n : Int} (h : m.sign < n.sign) : m < n := by
  by_contra hNot
  rcases Int.sign_trichotomy n with hn | hn | hn
  · have hPos := Int.pos_of_sign_eq_one hn
    rw [hn, Int.sign_eq_one_of_pos (by omega)] at h
    omega
  · have hZero := Int.eq_zero_of_sign_eq_zero hn
    rw [hn, Int.sign_neg_iff] at h
    omega
  · rcases Int.sign_trichotomy m with hm | hm | hm <;> omega

/-- Views compare as the integers they denote. -/
theorem compareBigint_eq_sign {left right : ConstBigIntView} {m n : Int}
    (hl : Denotes left m) (hr : Denotes right n) :
    compareBigint left right = some (m - n).sign := by
  unfold compareBigint
  rw [check_normalized hl.normalized, check_normalized hr.normalized,
    compareBigintAbs_eq_sign hl.normalized hr.normalized, hl.signum,
    hr.signum, hl.magnitude, hr.magnitude]
  by_cases hSigns : m.sign = n.sign
  · rw [if_neg (not_not.mpr hSigns)]
    rcases Int.sign_trichotomy m with hm | hm | hm
    · have hmPos := Int.pos_of_sign_eq_one hm
      have hnPos := Int.pos_of_sign_eq_one (hSigns.symm.trans hm)
      have hAbs : ((m.natAbs : Int) - (n.natAbs : Int)) = m - n := by omega
      rw [hm, if_neg (by decide), hAbs]
      rfl
    · have hmZero := Int.eq_zero_of_sign_eq_zero hm
      have hnZero := Int.eq_zero_of_sign_eq_zero (hSigns.symm.trans hm)
      rw [hmZero, hnZero]
      rfl
    · have hmNeg := Int.neg_of_sign_eq_neg_one hm
      have hnNeg := Int.neg_of_sign_eq_neg_one (hSigns.symm.trans hm)
      have hAbs : ((m.natAbs : Int) - (n.natAbs : Int)) = -(m - n) := by omega
      rw [hm, if_neg (by decide), hAbs, Int.sign_neg]
      exact congrArg some (Int.neg_neg _)
  · rw [if_pos hSigns]
    congr 1
    split
    · rename_i hLt
      have hBelow := lt_of_sign_lt hLt
      exact (Int.sign_eq_neg_one_of_neg (by omega)).symm
    · rename_i hLt
      have hAbove : n < m := lt_of_sign_lt (by omega)
      exact (Int.sign_eq_one_of_pos (by omega)).symm

/-! ## Small integers -/

/-- Up to two digits fit a double digit. -/
theorem magnitudeToDoubleDigitUnchecked_eq {view : ConstBigIntView}
    (h : view.nDigits ≤ 2) :
    magnitudeToDoubleDigitUnchecked view = some view.magnitude := by
  obtain ⟨signum, digits⟩ := view
  unfold magnitudeToDoubleDigitUnchecked
  rw [check_bind h, Nat.or_comm]
  simp only [ConstBigIntView.nDigits] at h ⊢
  have hLow := (digits.getD 0 0).isLt
  unfold kDigitBits
  rw [← Nat.shiftLeft_add_eq_or_of_lt hLow, Nat.shiftLeft_eq]
  simp only [ConstBigIntView.magnitude]
  match digits, h with
  | [], _ => rfl
  | [d0], _ => simp
  | [d0, d1], _ =>
      simp only [List.getD_cons_zero, List.getD_cons_succ, value_cons,
        value_nil]
      congr 1
      omega

theorem smiMagnitude_eq_natAbs (decoded : Int) :
    smiMagnitude decoded = decoded.natAbs := by
  unfold smiMagnitude
  split <;> omega

/-- Two digits hold a magnitude of 64 bits. -/
theorem value_double (n : Nat) (h : n < 2 ^ 64) :
    value [toDigit n, toDigit (n >>> kDigitBits)] = n := by
  have hLow := toNat_ofNat_add_shiftRight (w := 32) n
  have hHigh : (toDigit (n >>> kDigitBits)).toNat = n >>> 32 := by
    rw [toDigit, BitVec.toNat_ofNat, kDigitBits, Nat.shiftRight_eq_div_pow]
    exact Nat.mod_eq_of_lt (by omega)
  rw [value_cons, value_cons, value_nil, hHigh, toDigit]
  omega

theorem smiBigintView_spec {a : Int} (h : SmiRange a) :
    ∃ view, smiBigintView a = some view ∧ Denotes view a := by
  obtain ⟨hMin, hMax⟩ := h
  have hWide : smiMagnitude a < 2 ^ 64 := by
    rw [smiMagnitude_eq_natAbs]
    simp only [valueSmiMin, valueSmiMax] at hMin hMax
    omega
  have hSign : (if a < 0 then (-1 : Int) else if 0 < a then 1 else 0) =
      a.sign := by
    rcases Int.lt_trichotomy a 0 with hNeg | hZero | hPos
    · rw [if_pos hNeg, Int.sign_eq_neg_one_of_neg hNeg]
    · rw [hZero]
      rfl
    · rw [if_neg (by omega), if_pos hPos, Int.sign_eq_one_of_pos hPos]
  have hValue := value_double (smiMagnitude a) hWide
  unfold smiBigintView
  rw [check_bind hMin, check_bind hMax, doubleDigit_eq_some hWide]
  refine ⟨_, rfl, ?_⟩
  simp only [hSign]
  rw [smiMagnitude_eq_natAbs] at hValue ⊢
  generalize toDigit a.natAbs = d0 at hValue ⊢
  generalize toDigit (a.natAbs >>> kDigitBits) = d1 at hValue ⊢
  -- the digits are the magnitude without its zero digits at the top
  have hDigits : ∀ ds : List Digit, Trimmed ds → value ds = a.natAbs →
      Denotes ⟨a.sign, ds⟩ a := by
    intro ds hTrimmed hAbs
    refine ⟨⟨hTrimmed, ?_⟩, ?_⟩
    · by_cases hNil : ds = []
      · subst hNil
        exact Or.inl ⟨rfl, Int.sign_eq_zero_iff_zero.mpr
          (Int.natAbs_eq_zero.mp hAbs.symm)⟩
      · have hPos := value_pos hTrimmed hNil
        refine Or.inr ⟨hNil, ?_⟩
        rcases Int.sign_trichotomy a with hOne | hNone | hMinus
        · exact Or.inr hOne
        · have hZero := Int.eq_zero_of_sign_eq_zero hNone
          omega
        · exact Or.inl hMinus
    · simp only [ConstBigIntView.toInt, ConstBigIntView.magnitude, hAbs]
      exact Int.sign_mul_natAbs a
  split
  · rename_i hTop
    exact hDigits _ ((trimmed_append_singleton [d0]).mpr hTop) hValue
  · rename_i hTop
    rw [not_not.mp hTop] at hValue
    split
    · rename_i hLow
      refine hDigits _ ((trimmed_append_singleton []).mpr hLow) ?_
      simpa using hValue
    · rename_i hLow
      rw [not_not.mp hLow] at hValue
      exact hDigits _ trimmed_nil (by simpa using hValue)

/-- Exactly the integers in the SMI range become SMIs. -/
theorem normalizedBigintViewToSmiIfFits_eq {view : ConstBigIntView} {n : Int}
    (h : Denotes view n) :
    normalizedBigintViewToSmiIfFits view =
      some (if SmiRange n then some (Value.ofInt n) else none) := by
  have hSignum : view.signum = 0 ∨ view.signum = -1 ∨ view.signum = 1 := by
    rcases h.normalized.signum with ⟨-, hZero⟩ | ⟨-, hUnit⟩
    · exact Or.inl hZero
    · exact Or.inr hUnit
  unfold normalizedBigintViewToSmiIfFits
  rw [check_normalized h.normalized, check_bind hSignum]
  by_cases hZero : view.signum = 0
  · have hn := h.signum_eq_zero_iff.mp hZero
    subst hn
    rw [if_pos hZero, if_pos (by decide)]
  rw [if_neg hZero]
  by_cases hLong : view.nDigits > 2
  · have hBig : 2 ^ 64 ≤ n.natAbs := by
      have hne : view.digits ≠ [] := by
        rintro hNil
        rw [ConstBigIntView.nDigits, hNil] at hLong
        exact absurd hLong (by decide)
      have hPow := pow_le_value h.normalized.trimmed hne
      rw [← h.magnitude]
      calc 2 ^ 64 = (2 ^ 32) ^ 2 := by norm_num
        _ ≤ (2 ^ 32) ^ (view.digits.length - 1) :=
            Nat.pow_le_pow_right (by decide)
              (by unfold ConstBigIntView.nDigits at hLong; omega)
        _ ≤ view.magnitude := hPow
    have hOut : ¬ SmiRange n := by
      rintro ⟨hMin, hMax⟩
      simp only [valueSmiMin, valueSmiMax] at hMin hMax
      omega
    rw [if_pos hLong, if_neg hOut]
  rw [if_neg hLong, magnitudeToDoubleDigitUnchecked_eq (by omega),
    h.magnitude, h.signum]
  have hne : n ≠ 0 := mt h.signum_eq_zero_iff.mpr hZero
  have hMin : (-(valueSmiMin + 1)).toNat + 1 = 2 ^ 58 := by decide
  have hMax : valueSmiMax.toNat = 2 ^ 58 - 1 := by decide
  have hFits : SmiRange n ↔ -2 ^ 58 ≤ n ∧ n ≤ 2 ^ 58 - 1 := Iff.rfl
  change (if n.sign > 0 then _ else _) = _
  rw [hMin, hMax]
  rcases Int.lt_or_gt_of_ne hne with hNeg | hPos
  · have hAbs : -(n.natAbs : Int) = n := by omega
    rw [if_neg (by rw [Int.sign_eq_neg_one_of_neg hNeg]; decide), hAbs]
    by_cases hBig : n.natAbs > 2 ^ 58
    · rw [if_pos hBig, if_neg (by rw [hFits]; omega)]
    · rw [if_neg hBig, if_pos (by rw [hFits]; omega)]
  · have hAbs : (n.natAbs : Int) = n := by omega
    rw [if_pos (by rw [Int.sign_eq_one_of_pos hPos]; decide), hAbs]
    by_cases hBig : n.natAbs > 2 ^ 58 - 1
    · rw [if_pos hBig, if_neg (by rw [hFits]; omega)]
    · rw [if_neg hBig, if_pos (by rw [hFits]; omega)]

namespace IntValue

/-- The integer of an `int` value. -/
def toInt : IntValue → Int
  | smi value => value.smi
  | bigInt object => object.toInt

/-- An SMI where the integer fits one, else a normalized object. -/
def Canonical : IntValue → Prop
  | smi value => value.isSmi = true
  | bigInt object => Normalized object ∧ ¬ SmiRange object.toInt

/-- A canonical value is an SMI exactly when its integer fits one. -/
theorem Canonical.isSmi_iff {v : IntValue} (h : v.Canonical) :
    (∃ value, v = smi value) ↔ SmiRange v.toInt := by
  cases v with
  | smi value => exact ⟨fun _ => smiRange_smi value, fun _ => ⟨value, rfl⟩⟩
  | bigInt object => exact ⟨nofun, fun hFits => absurd hFits h.2⟩

/-- Canonical values of one integer are identical. -/
theorem eq_of_toInt_eq {v w : IntValue} (hv : v.Canonical)
    (hw : w.Canonical) (h : v.toInt = w.toInt) : v = w := by
  cases v with
  | smi value =>
      obtain ⟨other, rfl⟩ := hw.isSmi_iff.mpr (h ▸ smiRange_smi value)
      have hWord := congrArg Value.ofInt h
      rw [toInt, toInt, ofInt_smi hv, ofInt_smi hw] at hWord
      rw [hWord]
  | bigInt object =>
      cases w with
      | smi other =>
          have hFits := smiRange_smi other
          exact absurd (hv.isSmi_iff.mpr (h.symm ▸ hFits)) nofun
      | bigInt other =>
          have hEq : object = other := Denotes.eq ⟨hv.1, h⟩ ⟨hw.1, rfl⟩
          rw [hEq]

theorem Canonical.view {v : IntValue} (h : v.Canonical) :
    ∃ view, exactIntValueBigintView v = some view ∧ Denotes view v.toInt := by
  cases v with
  | smi value => exact smiBigintView_spec (smiRange_smi value)
  | bigInt object => exact ⟨object, rfl, denotes_self h.1⟩

end IntValue

/-- The outcome is the canonical value of the integer. -/
def Yields (outcome : Option IntValue) (n : Int) : Prop :=
  ∃ v, outcome = some v ∧ v.Canonical ∧ v.toInt = n

/-- The final step yields the canonical value of the view's integer. -/
theorem finalizeBigint_yields {view : ConstBigIntView} {n : Int}
    (h : Denotes view n) : Yields (finalizeBigint view) n := by
  unfold finalizeBigint
  rw [check_normalized h.normalized, normalizedBigintViewToSmiIfFits_eq h]
  by_cases hFits : SmiRange n
  · rw [if_pos hFits]
    exact ⟨.smi (Value.ofInt n), rfl, isSmi_ofInt n, smi_ofInt hFits⟩
  · rw [if_neg hFits]
    refine ⟨.bigInt view, rfl, ⟨h.normalized, ?_⟩, h.toInt⟩
    rwa [h.toInt]

end CloverVM.BuiltinTypes.BigInt
