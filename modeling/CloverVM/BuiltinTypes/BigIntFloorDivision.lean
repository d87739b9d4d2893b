import CloverVM.BuiltinTypes.BigIntLongDivision

/-!
# Floor division and modulo

The signs of floor division over the division of magnitudes.  When the signs
of the operands differ and the magnitudes leave a remainder, the quotient is
one more in magnitude and the remainder is taken from the divisor; each is
adjusted in a buffer of its own.
-/

namespace CloverVM.BuiltinTypes.BigInt

open CloverVM.Machine CloverVM.Machine.Digits CloverVM.Runtime

/-- The outcome is the canonical value of the integer, and no exception. -/
def YieldsOk (outcome : Option (Except BuiltinException IntValue))
    (n : Int) : Prop :=
  ∃ v, outcome = some (.ok v) ∧ v.Canonical ∧ v.toInt = n

theorem yieldsOk_of_yields {outcome : Option IntValue} {n : Int}
    (h : Yields outcome n) :
    YieldsOk (do
      let value ← outcome
      some (.ok value)) n := by
  obtain ⟨v, hRun, hCanonical, hv⟩ := h
  exact ⟨v, bind_of_eq_some hRun _, hCanonical, hv⟩

/-! ## Magnitudes under a sign -/

theorem absBigintView_spec {view : ConstBigIntView} {n : Int}
    (h : Denotes view n) :
    ∃ abs, absBigintView view = some abs ∧ abs.nDigits = view.nDigits ∧
      Denotes abs (n.natAbs : Nat) := by
  have hAbs := denotes_unsignedView h.normalized.trimmed
  have hValue : value view.digits = n.natAbs := h.magnitude
  rw [hValue] at hAbs
  exact ⟨unsignedView view.digits, check_normalized h.normalized _, rfl, hAbs⟩

/-- A magnitude under a sign, left alone when it is zero. -/
theorem denotes_signed {view : ConstBigIntView} {n : Nat}
    (h : Denotes view n) {sign : Int}
    (hSign : 0 < n → sign = -1 ∨ sign = 1) :
    Denotes (if view.nDigits ≠ 0 then { view with signum := sign } else view)
      (sign * n) := by
  by_cases hEmpty : view.nDigits = 0
  · have hNil := List.length_eq_zero_iff.mp hEmpty
    have hZero := h.digits_eq_nil_iff.mp hNil
    rw [if_neg (not_not.mpr hEmpty), hZero, Int.mul_zero]
    rwa [hZero] at h
  · have hPos : 0 < n := by
      refine Nat.pos_of_ne_zero fun hZero => hEmpty ?_
      refine List.length_eq_zero_iff.mpr (h.digits_eq_nil_iff.mpr ?_)
      rw [hZero]
      rfl
    rw [if_pos hEmpty]
    exact h.withSignum hPos (hSign hPos)

/-- The quotient of two magnitudes rounded down under the sign. -/
def flooredQuotient (sign : Int) (quotient remainder : Nat) : Nat :=
  if remainder ≠ 0 ∧ sign < 0 then quotient + 1 else quotient

theorem adjustQuotient_spec {capacity q r : Nat} {sign : Int}
    {quotient remainder : ConstBigIntView} (hq : Denotes quotient q)
    (hr : Denotes remainder r) (hSign : 0 < q ∨ 0 < r → sign = -1 ∨ sign = 1)
    (hCapacity : 0 < r → max quotient.nDigits 1 + 1 ≤ capacity) :
    ∃ result, adjustQuotient capacity sign quotient remainder = some result ∧
      Denotes result (sign * flooredQuotient sign q r) := by
  have hZero : remainder.signum = 0 ↔ r = 0 := by
    rw [hr.signum_eq_zero_iff]
    exact Int.natCast_eq_zero
  obtain ⟨magnitude, hRun, hMagnitude⟩ : ∃ magnitude,
      (if remainder.signum ≠ 0 ∧ sign < 0 then
        bigintAbsAddInto capacity quotient oneView
      else some quotient) = some magnitude ∧
      Denotes magnitude (flooredQuotient sign q r : Nat) := by
    unfold flooredQuotient
    by_cases hAdjust : r ≠ 0 ∧ sign < 0
    · obtain ⟨sum, hSum, hDenotes⟩ := bigintAbsAddInto_spec hq.normalized
        denotes_one.normalized (hCapacity (Nat.pos_of_ne_zero hAdjust.1))
      rw [hq.magnitude, denotes_one.magnitude] at hDenotes
      refine ⟨sum, ?_, ?_⟩
      · rw [if_pos ⟨mt hZero.mp hAdjust.1, hAdjust.2⟩]
        exact hSum
      · rw [if_pos hAdjust]
        exact hDenotes
    · refine ⟨quotient, ?_, ?_⟩
      · rw [if_neg]
        rintro ⟨hNonzero, hNegative⟩
        exact hAdjust ⟨mt hZero.mpr hNonzero, hNegative⟩
      · rw [if_neg hAdjust]
        exact hq
  refine ⟨_, bind_of_eq_some hRun _, denotes_signed hMagnitude ?_⟩
  intro hPos
  refine hSign ?_
  unfold flooredQuotient at hPos
  split at hPos
  · rename_i hAdjust
    exact Or.inr (Nat.pos_of_ne_zero hAdjust.1)
  · exact Or.inl hPos

/-- The remainder of two magnitudes on the side of the divisor. -/
def flooredRemainder (sameSign : Prop) [Decidable sameSign]
    (divisor remainder : Nat) : Nat :=
  if remainder ≠ 0 ∧ ¬ sameSign then divisor - remainder else remainder

theorem adjustRemainder_spec {capacity d r : Nat} {n : Int}
    (left : ConstBigIntView) {right rightAbs remainder : ConstBigIntView}
    (hn : Denotes right n) (hne : n ≠ 0) (hd : Denotes rightAbs d)
    (hr : Denotes remainder r) (hLe : r ≤ d)
    (hCapacity : rightAbs.nDigits ≤ capacity) :
    ∃ result, adjustRemainder capacity left right rightAbs remainder =
        some result ∧
      Denotes result (n.sign *
        flooredRemainder (left.signum = right.signum) d r) := by
  have hZero : remainder.signum = 0 ↔ r = 0 := by
    rw [hr.signum_eq_zero_iff]
    exact Int.natCast_eq_zero
  obtain ⟨magnitude, hRun, hMagnitude⟩ : ∃ magnitude,
      (if remainder.signum ≠ 0 ∧ left.signum ≠ right.signum then
        bigintAbsSubInto capacity rightAbs remainder
      else some remainder) = some magnitude ∧
      Denotes magnitude
        (flooredRemainder (left.signum = right.signum) d r : Nat) := by
    unfold flooredRemainder
    by_cases hAdjust : r ≠ 0 ∧ ¬ left.signum = right.signum
    · obtain ⟨difference, hSub, hDenotes⟩ :=
        bigintAbsSubInto_spec hd.normalized hr.normalized
          (by rw [hd.magnitude, hr.magnitude]; omega) hCapacity
      rw [hd.magnitude, hr.magnitude] at hDenotes
      refine ⟨difference, ?_, ?_⟩
      · rw [if_pos ⟨mt hZero.mp hAdjust.1, hAdjust.2⟩]
        exact hSub
      · rw [if_pos hAdjust]
        exact hDenotes
    · refine ⟨remainder, ?_, ?_⟩
      · rw [if_neg]
        rintro ⟨hNonzero, hSigns⟩
        exact hAdjust ⟨mt hZero.mpr hNonzero, hSigns⟩
      · rw [if_neg hAdjust]
        exact hr
  have hUnit : n.sign = -1 ∨ n.sign = 1 := by
    rcases Int.sign_trichotomy n with h | h | h
    · exact Or.inr h
    · exact absurd (Int.eq_zero_of_sign_eq_zero h) hne
    · exact Or.inl h
  have hSigned := denotes_signed hMagnitude fun _ => hUnit
  rw [← hn.signum] at hSigned ⊢
  exact ⟨_, bind_of_eq_some hRun _, hSigned⟩

/-- What floor division promises of its quotient and remainder. -/
structure FloorDivision (a b q r : Int) : Prop where
  division : a = q * b + r
  of_pos : 0 < b → 0 ≤ r ∧ r < b
  of_neg : b < 0 → b < r ∧ r ≤ 0

/-- Equal signs: the magnitudes divide as they are. -/
theorem floorDivision_of_same_sign {d q r : Nat} {t : Int}
    (ht : t = 1 ∨ t = -1) (hr : r < d) :
    FloorDivision (t * (d * q + r : Nat)) (t * d) (t * t * q) (t * r) := by
  have hSquare : t * t = 1 := by
    rcases ht with rfl | rfl <;> rfl
  refine ⟨?_, ?_, ?_⟩
  · rw [hSquare]
    push_cast
    ring
  · intro hPos
    rcases ht with rfl | rfl <;> omega
  · intro hNeg
    rcases ht with rfl | rfl <;> omega

/-- Opposite signs and no remainder: nothing is adjusted. -/
theorem floorDivision_of_exact {d q : Nat} {s t : Int}
    (ht : t = 1 ∨ t = -1) :
    FloorDivision (s * (d * q + 0 : Nat)) (t * d) (s * t * q)
      (t * (0 : Nat)) := by
  have hSquare : t * t = 1 := by
    rcases ht with rfl | rfl <;> rfl
  refine ⟨?_, ?_, ?_⟩
  · push_cast
    calc s * (d * q + 0) = t * t * (s * (d * q)) := by rw [hSquare]; ring
      _ = s * t * q * (t * d) + t * 0 := by ring
  · intro hPos
    simpa using hPos
  · intro hNeg
    simpa using hNeg

/-- Opposite signs and a remainder: both are adjusted. -/
theorem floorDivision_of_opposite_sign {d q r : Nat} {t : Int}
    (ht : t = 1 ∨ t = -1) (hr : r < d) (hPos : 0 < r) :
    FloorDivision (-t * (d * q + r : Nat)) (t * d) (-t * t * (q + 1 : Nat))
      (t * (d - r : Nat)) := by
  have hSquare : t * t = 1 := by
    rcases ht with rfl | rfl <;> rfl
  refine ⟨?_, ?_, ?_⟩
  · push_cast [hr.le]
    calc -t * (d * q + r) = -(t * (d * q + r)) := by ring
      _ = -(t * t) * ((q + 1) * (t * d)) + t * (d - r) := by
          rw [hSquare]
          ring
      _ = -t * t * (q + 1) * (t * d) + t * (d - r) := by ring
  · intro hPositive
    rcases ht with rfl | rfl <;> omega
  · intro hNegative
    rcases ht with rfl | rfl <;> omega

/-- The signs put back onto the division of the magnitudes. -/
theorem floorDivision_of_signs {a b : Int} (hb : b ≠ 0) :
    FloorDivision a b
      (a.sign * b.sign * flooredQuotient (a.sign * b.sign)
        (a.natAbs / b.natAbs) (a.natAbs % b.natAbs))
      (b.sign * flooredRemainder (a.sign = b.sign) b.natAbs
        (a.natAbs % b.natAbs)) := by
  have hbPos : 0 < b.natAbs := Int.natAbs_pos.mpr hb
  have hSmall := Nat.mod_lt a.natAbs hbPos
  have hDivision := Nat.div_add_mod a.natAbs b.natAbs
  have haAbs := Int.sign_mul_natAbs a
  have hbAbs := Int.sign_mul_natAbs b
  have hbSign : b.sign = 1 ∨ b.sign = -1 := by
    rcases Int.sign_trichotomy b with h | h | h
    · exact Or.inl h
    · exact absurd (Int.eq_zero_of_sign_eq_zero h) hb
    · exact Or.inr h
  have haSign : a.sign = b.sign ∨ a.sign = -b.sign ∨ a.natAbs = 0 := by
    rcases Int.sign_trichotomy a with h | h | h
    · rcases hbSign with h' | h' <;> omega
    · rw [Int.eq_zero_of_sign_eq_zero h]
      exact Or.inr (Or.inr rfl)
    · rcases hbSign with h' | h' <;> omega
  rw [← hDivision] at haAbs
  generalize a.natAbs / b.natAbs = q at *
  generalize a.natAbs % b.natAbs = r at *
  generalize b.natAbs = d at *
  generalize a.sign = s at *
  generalize b.sign = t at *
  rw [← haAbs, ← hbAbs]
  unfold flooredQuotient flooredRemainder
  by_cases hSame : s = t
  · subst hSame
    have hProduct : ¬ s * s < 0 := by
      rcases hbSign with rfl | rfl <;> decide
    rw [if_neg (fun h => hProduct h.2), if_neg (fun h => h.2 rfl)]
    exact floorDivision_of_same_sign hbSign hSmall
  · by_cases hExact : r = 0
    · subst hExact
      rw [if_neg (fun h => h.1 rfl), if_neg (fun h => h.1 rfl)]
      exact floorDivision_of_exact hbSign
    · have hOpposite : s = -t := by
        rcases haSign with h | h | h
        · exact absurd h hSame
        · exact h
        · omega
      subst hOpposite
      have hProduct : -t * t < 0 := by
        rcases hbSign with rfl | rfl <;> decide
      rw [if_pos ⟨hExact, hProduct⟩, if_pos ⟨hExact, hSame⟩]
      exact floorDivision_of_opposite_sign hbSign hSmall
        (Nat.pos_of_ne_zero hExact)

/-- The buffers hold what the division of two views leaves in them. -/
structure DivmodCapacities.Suffice (capacities : DivmodCapacities)
    (left right : ConstBigIntView) : Prop where
  quotient : left.nDigits ≤ capacities.quotient
  remainder : max left.nDigits 1 ≤ capacities.remainder
  adjustedQuotient : left.nDigits + 1 ≤ capacities.adjustedQuotient
  adjustedRemainder : right.nDigits ≤ capacities.adjustedRemainder

/-- Quotient and remainder of two integers, in any buffers that suffice. -/
theorem bigintFloorDivmodViewsInto_spec {capacities : DivmodCapacities}
    {left right : ConstBigIntView} {a b : Int}
    (hSuffice : capacities.Suffice left right) (hl : Denotes left a)
    (hr : Denotes right b) (hb : b ≠ 0) :
    ∃ quotient remainder q r,
      bigintFloorDivmodViewsInto capacities left right =
        some (quotient, remainder) ∧
      Denotes quotient q ∧ Denotes remainder r ∧ FloorDivision a b q r := by
  obtain ⟨leftAbs, hLeftRun, hLeftDigits, hLeftAbs⟩ := absBigintView_spec hl
  obtain ⟨rightAbs, hRightRun, hRightDigits, hRightAbs⟩ :=
    absBigintView_spec hr
  have hbPos : 0 < b.natAbs := Int.natAbs_pos.mpr hb
  obtain ⟨quotient, remainder, hRun, hQuotient, hRemainder⟩ :=
    bigintAbsDivmodInto_spec capacities.quotient capacities.remainder hLeftAbs
      hRightAbs hbPos (by rw [hLeftDigits]; exact hSuffice.quotient)
      (by rw [hLeftDigits]; exact hSuffice.remainder)
  -- only a dividend that is not zero leaves something to sign or to adjust
  have hNonzero : 0 < a.natAbs / b.natAbs ∨ 0 < a.natAbs % b.natAbs →
      0 < a.natAbs := by
    intro hSome
    refine Nat.pos_of_ne_zero fun hZero => ?_
    rw [hZero, Nat.zero_div, Nat.zero_mod] at hSome
    omega
  have hSign : 0 < a.natAbs / b.natAbs ∨ 0 < a.natAbs % b.natAbs →
      a.sign * b.sign = -1 ∨ a.sign * b.sign = 1 := by
    intro hSome
    have ha : a ≠ 0 := Int.natAbs_pos.mp (hNonzero hSome)
    rcases Int.lt_or_gt_of_ne ha with haSign | haSign <;>
      rcases Int.lt_or_gt_of_ne hb with hbSign | hbSign
    · simp [Int.sign_eq_neg_one_of_neg, haSign, hbSign]
    · simp [Int.sign_eq_neg_one_of_neg haSign, Int.sign_eq_one_of_pos hbSign]
    · simp [Int.sign_eq_one_of_pos haSign, Int.sign_eq_neg_one_of_neg hbSign]
    · simp [Int.sign_eq_one_of_pos, haSign, hbSign]
  have hCapacity : 0 < a.natAbs % b.natAbs →
      max quotient.nDigits 1 + 1 ≤ capacities.adjustedQuotient := by
    intro hSome
    have hAdjusted := hSuffice.adjustedQuotient
    have hLeft := hLeftAbs.nDigits_pos (hNonzero (Or.inr hSome))
    have hQuotientDigits : quotient.nDigits ≤ leftAbs.nDigits :=
      hQuotient.nDigits_le
        (lt_of_le_of_lt (Nat.div_le_self _ _) hLeftAbs.lt_pow)
    omega
  obtain ⟨q, hqRun, hq⟩ := adjustQuotient_spec hQuotient hRemainder hSign
    hCapacity
  obtain ⟨r, hrRun, hr'⟩ := adjustRemainder_spec left hr hb hRightAbs
    hRemainder (Nat.mod_lt _ hbPos).le
    (hRightDigits.le.trans hSuffice.adjustedRemainder)
  refine ⟨q, r, _, _, ?_, hq, hr', ?_⟩
  · have hNormal : right.signum ≠ 0 := mt hr.signum_eq_zero_iff.mp hb
    unfold bigintFloorDivmodViewsInto
    rw [check_normalized hl.normalized, check_normalized hr.normalized,
      check_bind hNormal]
    refine (bind_of_eq_some hLeftRun _).trans ?_
    refine (bind_of_eq_some hRightRun _).trans ?_
    refine (bind_of_eq_some hRun _).trans ?_
    rw [hl.signum, hr.signum] at *
    refine (bind_of_eq_some hqRun _).trans ?_
    exact bind_of_eq_some hrRun _
  · rw [hl.signum, hr.signum]
    exact floorDivision_of_signs hb

/-- Quotient and remainder of two integers. -/
theorem bigintFloorDivmodViews_spec {left right : ConstBigIntView} {a b : Int}
    (hl : Denotes left a) (hr : Denotes right b) (hb : b ≠ 0) :
    ∃ quotient remainder q r, bigintFloorDivmodViews left right =
        some (quotient, remainder) ∧
      Denotes quotient q ∧ Denotes remainder r ∧ FloorDivision a b q r :=
  @bigintFloorDivmodViewsInto_spec
    ⟨left.nDigits, max left.nDigits 1, left.nDigits + 1, right.nDigits⟩
    left right a b ⟨le_rfl, le_rfl, le_rfl, le_rfl⟩ hl hr hb

/-- The remainder that floor division promises. -/
theorem FloorDivision.remainder_eq {a b q r : Int} (h : FloorDivision a b q r)
    (hb : b ≠ 0) : r = a.fmod b := by
  have hFmod : r.fmod b = a.fmod b := by
    rw [h.division, Int.add_comm, Int.add_mul_fmod_self_right]
  rcases Int.lt_or_gt_of_ne hb with hNeg | hPos
  · obtain ⟨hLow, hHigh⟩ := h.of_neg hNeg
    have hNegated : (-r).fmod (-b) = -r :=
      Int.fmod_eq_of_lt (by omega) (by omega)
    rw [Int.neg_fmod_neg] at hNegated
    omega
  · obtain ⟨hLow, hHigh⟩ := h.of_pos hPos
    rw [← hFmod, Int.fmod_eq_of_lt hLow hHigh]

/-- Division by zero raises; any other division returns the canonical
quotient and remainder. -/
theorem bigint_floor_division {left right : ConstBigIntView}
    (hl : Normalized left) (hr : Normalized right) :
    (right.toInt = 0 →
      bigintFloorDiv left right = some (.error zeroDivisionError) ∧
      bigintMod left right = some (.error zeroDivisionError)) ∧
    (right.toInt ≠ 0 → ∃ q r : IntValue,
      bigintFloorDiv left right = some (.ok q) ∧
      bigintMod left right = some (.ok r) ∧
      q.Canonical ∧ r.Canonical ∧
      left.toInt = q.toInt * right.toInt + r.toInt ∧
      (0 < right.toInt → 0 ≤ r.toInt ∧ r.toInt < right.toInt) ∧
      (right.toInt < 0 → right.toInt < r.toInt ∧ r.toInt ≤ 0)) := by
  have hRight := denotes_self hr
  unfold bigintFloorDiv bigintMod
  constructor
  · intro hZero
    have hSign := hRight.signum_eq_zero_iff.mpr hZero
    exact ⟨if_pos hSign, if_pos hSign⟩
  · intro hne
    have hSign : ¬ right.signum = 0 := mt hRight.signum_eq_zero_iff.mp hne
    obtain ⟨quotient, remainder, q, r, hRun, hQuotient, hRemainder, hFloor⟩ :=
      bigintFloorDivmodViews_spec (denotes_self hl) hRight hne
    obtain ⟨qValue, hqRun, hqCanonical, hq⟩ := finalizeBigint_yields hQuotient
    obtain ⟨rValue, hrRun, hrCanonical, hr⟩ := finalizeBigint_yields hRemainder
    refine ⟨qValue, rValue, ?_, ?_, hqCanonical, hrCanonical, ?_, ?_, ?_⟩
    · rw [if_neg hSign]
      refine (bind_of_eq_some hRun _).trans ?_
      exact bind_of_eq_some hqRun _
    · rw [if_neg hSign]
      refine (bind_of_eq_some hRun _).trans ?_
      exact bind_of_eq_some hrRun _
    · rw [hq, hr]
      exact hFloor.division
    · rw [hr]
      exact hFloor.of_pos
    · rw [hr]
      exact hFloor.of_neg

/-- A dividend of three digits and a divisor of two, of opposite signs. -/
theorem bigint_floor_division_at_long_operands :
    ∃ q r : IntValue,
      bigintFloorDiv ⟨-1, [7, 0, 1]⟩ ⟨1, [5, 3]⟩ = some (.ok q) ∧
      bigintMod ⟨-1, [7, 0, 1]⟩ ⟨1, [5, 3]⟩ = some (.ok r) ∧
      0 ≤ r.toInt := by
  have hl : Normalized ⟨-1, [7, 0, 1]⟩ :=
    (isNormalizedBigintView_iff _).mp (by decide)
  have hr : Normalized ⟨1, [5, 3]⟩ :=
    (isNormalizedBigintView_iff _).mp (by decide)
  have hPos : (0 : Int) < (ConstBigIntView.mk 1 [5, 3]).toInt := by decide
  obtain ⟨q, r, hq, hrem, -, -, -, hBounds, -⟩ :=
    (bigint_floor_division hl hr).2 hPos.ne'
  exact ⟨q, r, hq, hrem, (hBounds hPos).1⟩

end CloverVM.BuiltinTypes.BigInt
