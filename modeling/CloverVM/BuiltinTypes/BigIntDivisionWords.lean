import CloverVM.BuiltinTypes.BigIntLongDivision
import CloverVM.Machine.BoundedLoop

/-!
# A division round in machine words

The three loops of a division round that compute in 64-bit words: the one
that corrects the estimate, the one that multiplies the divisor by it, and
the one that subtracts the product.  The words wrap and nothing is checked.
Each loop computes what the checked one computes, since no product or sum in
it reaches `2 ^ 64` and no difference falls below zero.
-/

namespace CloverVM.BuiltinTypes.BigInt

open CloverVM.Machine CloverVM.Machine.Digits CloverVM.Machine.QuotientDigit

/-- `double_digit_t`. -/
abbrev DoubleDigit := BitVec 64

/-- `double_digit_t(d)`. -/
def widen (d : Digit) : DoubleDigit := d.setWidth 64

/-- `static_cast<digit_t>(x)`. -/
def lowDigit (x : DoubleDigit) : Digit := x.setWidth 32

/-- `kDigitBase` as a word. -/
def doubleBase : DoubleDigit := 1 <<< 32

@[simp] theorem toNat_widen (d : Digit) : (widen d).toNat = d.toNat := by
  have hDigit := d.isLt
  rw [widen, BitVec.toNat_setWidth, Nat.mod_eq_of_lt (by omega)]

@[simp] theorem toNat_doubleBase : doubleBase.toNat = 2 ^ 32 := rfl

theorem lowDigit_eq (x : DoubleDigit) : lowDigit x = toDigit x.toNat := by
  refine BitVec.eq_of_toNat_eq ?_
  rw [lowDigit, toDigit, BitVec.toNat_setWidth, BitVec.toNat_ofNat]

/-! ## Correcting the estimate -/

/-- The digits that a round makes its estimate from. -/
structure EstimateDigits where
  divisorHigh : Digit
  divisorNext : Digit
  next : Digit
deriving DecidableEq, Repr

/-- The variables of the loop, and whether it was broken off. -/
structure Correction where
  qHat : DoubleDigit
  rHat : DoubleDigit
  stopped : Bool
deriving DecidableEq, Repr

namespace Correction

variable (digits : EstimateDigits) (c : Correction)

/-- The condition of the loop. -/
def tooBig : Bool :=
  c.qHat == doubleBase ||
    decide (c.qHat * widen digits.divisorNext >
      doubleBase * c.rHat + widen digits.next)

def done : Bool := c.stopped || !c.tooBig digits

/-- The body of the loop. -/
def lower : Correction :=
  let rHat := c.rHat + widen digits.divisorHigh
  ⟨c.qHat - 1, rHat, decide (rHat ≥ doubleBase)⟩

/-- At most so many turns of the loop. -/
def run (turns : Nat) : Option Correction :=
  repeatTurns (done digits) (fun c => some (c.lower digits)) turns c

/-- Nothing wraps in the test and in the turn it lets through. -/
structure Exact : Prop where
  product : (c.qHat * widen digits.divisorNext).toNat =
    c.qHat.toNat * digits.divisorNext.toNat
  sum : (doubleBase * c.rHat + widen digits.next).toNat =
    2 ^ 32 * c.rHat.toNat + digits.next.toNat
  decrement : c.tooBig digits = true →
    (c.qHat - 1).toNat + 1 = c.qHat.toNat
  increment : (c.rHat + widen digits.divisorHigh).toNat =
    c.rHat.toNat + digits.divisorHigh.toNat

end Correction

/-- The invariant of the loop: estimate and remainder split the leading pair,
and the estimate is not below the digit of the quotient. -/
structure Estimates (digits : EstimateDigits) (pair quotient : Nat)
    (c : Correction) : Prop where
  split : c.qHat.toNat * digits.divisorHigh.toNat + c.rHat.toNat = pair
  quotient_le : quotient ≤ c.qHat.toNat
  qHat_le : c.qHat.toNat ≤ 2 ^ 32 + 1
  rHat_lt : c.rHat.toNat < 2 ^ 33
  stopped_iff : c.stopped = true ↔ 2 ^ 32 ≤ c.rHat.toNat

namespace Estimates

variable {digits : EstimateDigits} {pair quotient : Nat} {c : Correction}

theorem rHat_lt_of_running (h : Estimates digits pair quotient c)
    (hRunning : c.stopped = false) : c.rHat.toNat < 2 ^ 32 := by
  by_contra hNot
  have hStopped := h.stopped_iff.mpr (by omega)
  rw [hRunning] at hStopped
  cases hStopped

/-- The bounds of the product and of the sum hold with nothing to spare. -/
theorem toNat_product (h : Estimates digits pair quotient c) :
    (c.qHat * widen digits.divisorNext).toNat =
      c.qHat.toNat * digits.divisorNext.toNat := by
  have hDigit := digits.divisorNext.isLt
  have hProduct : c.qHat.toNat * digits.divisorNext.toNat ≤
      (2 ^ 32 + 1) * (2 ^ 32 - 1) := Nat.mul_le_mul h.qHat_le (by omega)
  rw [BitVec.toNat_mul_of_lt (by rw [toNat_widen]; omega), toNat_widen]

theorem toNat_sum (h : Estimates digits pair quotient c)
    (hRunning : c.stopped = false) :
    (doubleBase * c.rHat + widen digits.next).toNat =
      2 ^ 32 * c.rHat.toNat + digits.next.toNat := by
  have hRemainder := h.rHat_lt_of_running hRunning
  have hDigit := digits.next.isLt
  have hScaled : (doubleBase * c.rHat).toNat = 2 ^ 32 * c.rHat.toNat := by
    rw [BitVec.toNat_mul_of_lt (by rw [toNat_doubleBase]; omega),
      toNat_doubleBase]
  rw [BitVec.toNat_add_of_lt (by rw [hScaled, toNat_widen]; omega), hScaled,
    toNat_widen]

theorem toNat_raised (h : Estimates digits pair quotient c) :
    (c.rHat + widen digits.divisorHigh).toNat =
      c.rHat.toNat + digits.divisorHigh.toNat := by
  have hRemainder := h.rHat_lt
  have hDigit := digits.divisorHigh.isLt
  rw [BitVec.toNat_add_of_lt (by rw [toNat_widen]; omega), toNat_widen]

/-- The test in words is the test in integers. -/
theorem tooBig_iff (h : Estimates digits pair quotient c)
    (hRunning : c.stopped = false) :
    c.tooBig digits = true ↔ c.qHat.toNat = 2 ^ 32 ∨
      2 ^ 32 * c.rHat.toNat + digits.next.toNat <
        c.qHat.toNat * digits.divisorNext.toNat := by
  rw [Correction.tooBig, Bool.or_eq_true, beq_iff_eq, decide_eq_true_eq,
    gt_iff_lt, BitVec.lt_def, h.toNat_product, h.toNat_sum hRunning,
    BitVec.toNat_eq, toNat_doubleBase]

theorem qHat_pos_of_tooBig (h : Estimates digits pair quotient c)
    (hRunning : c.stopped = false) (hTest : c.tooBig digits = true) :
    0 < c.qHat.toNat := by
  by_contra hNot
  have hZero : c.qHat.toNat = 0 := by omega
  have hCases := (h.tooBig_iff hRunning).mp hTest
  rw [hZero, Nat.zero_mul] at hCases
  omega

theorem toNat_lowered (h : Estimates digits pair quotient c)
    (hRunning : c.stopped = false) (hTest : c.tooBig digits = true) :
    (c.qHat - 1).toNat + 1 = c.qHat.toNat := by
  have hPos := h.qHat_pos_of_tooBig hRunning hTest
  have hOne : (1 : DoubleDigit) ≤ c.qHat := BitVec.le_def.mpr hPos
  rw [BitVec.toNat_sub_of_le hOne]
  exact Nat.sub_add_cancel hPos

theorem exact (h : Estimates digits pair quotient c)
    (hRunning : c.stopped = false) : c.Exact digits where
  product := h.toNat_product
  sum := h.toNat_sum hRunning
  decrement := h.toNat_lowered hRunning
  increment := h.toNat_raised

end Estimates

section Checked

variable {divisorHigh divisorNext next qHat rHat : Nat}

theorem correctEstimate_of_passes
    (hTest : estimateTooBig divisorNext next qHat rHat = some false) :
    correctEstimate divisorHigh divisorNext next qHat rHat = some qHat := by
  cases qHat with
  | zero =>
      rw [correctEstimate]
      exact bind_of_eq_some hTest _
  | succ qHat =>
      rw [correctEstimate]
      exact bind_of_eq_some hTest _

theorem correctEstimate_of_fails
    (hTest : estimateTooBig divisorNext next (qHat + 1) rHat = some true)
    (hSum : rHat + divisorHigh < 2 ^ 64) :
    correctEstimate divisorHigh divisorNext next (qHat + 1) rHat =
      if rHat + divisorHigh ≥ kDigitBase then some qHat
      else correctEstimate divisorHigh divisorNext next qHat
        (rHat + divisorHigh) := by
  rw [correctEstimate]
  refine (bind_of_eq_some hTest _).trans ?_
  exact bind_of_eq_some (doubleDigit_eq_some hSum) _

end Checked

/-- The checked test is the test in words. -/
theorem Estimates.estimateTooBig_eq_tooBig {digits : EstimateDigits}
    {pair quotient : Nat} {c : Correction}
    (h : Estimates digits pair quotient c) (hRunning : c.stopped = false) :
    estimateTooBig digits.divisorNext.toNat digits.next.toNat c.qHat.toNat
      c.rHat.toNat = some (c.tooBig digits) := by
  rw [estimateTooBig_eq h.qHat_le (h.rHat_lt_of_running hRunning)
    digits.divisorNext.isLt digits.next.isLt, Option.some.injEq,
    Bool.eq_iff_iff, decide_eq_true_eq, h.tooBig_iff hRunning]

/-! ## The end of the correction -/

/-- The turns that the loop can still take at most. -/
def Correction.turnsLeft (digits : EstimateDigits) (c : Correction) : Nat :=
  if c.stopped then 0
  else if c.rHat.toNat < digits.divisorHigh.toNat then 2
  else 1

theorem Correction.done_eq_false_iff {digits : EstimateDigits}
    {c : Correction} :
    c.done digits = false ↔ c.stopped = false ∧ c.tooBig digits = true := by
  rw [Correction.done, Bool.or_eq_false_iff, Bool.not_eq_false']

theorem Correction.tooBig_eq_false {digits : EstimateDigits}
    {c : Correction} (hRunning : c.stopped = false)
    (hDone : c.done digits = true) : c.tooBig digits = false := by
  rwa [Correction.done, hRunning, Bool.false_or, Bool.not_eq_true'] at hDone

/-- A loop that has ended stays where it is. -/
theorem Correction.run_of_done {digits : EstimateDigits} {c : Correction}
    (hDone : c.done digits = true) (turns : Nat) :
    c.run digits turns = some c := by
  cases turns with
  | zero => rfl
  | succ turns => rw [Correction.run, repeatTurns, if_pos hDone]

namespace Estimates

variable {digits : EstimateDigits} {c : Correction}
  {window d u0 u1 weight : Nat}

-- the digits are the leading ones of the window and of the divisor
variable (hLeading : Leading (2 ^ 32) window d u0 u1 digits.next.toNat
  digits.divisorHigh.toNat digits.divisorNext.toNat weight)

include hLeading

/-- A turn keeps the invariant. -/
theorem lower
    (h : Estimates digits (u0 * 2 ^ 32 + u1) (window / d) c)
    (hRunning : c.stopped = false) (hTest : c.tooBig digits = true) :
    Estimates digits (u0 * 2 ^ 32 + u1) (window / d) (c.lower digits) := by
  have hLowered := h.toNat_lowered hRunning hTest
  have hRaised := h.toNat_raised
  have hRemainder := h.rHat_lt_of_running hRunning
  have hDigit := digits.divisorHigh.isLt
  have hGreat : window / d < c.qHat.toNat := by
    rcases (h.tooBig_iff hRunning).mp hTest with hBase | hFails
    · rw [hBase]
      exact hLeading.quotient_lt_base
    · exact hLeading.quotient_lt_of_test h.split hFails
  have hSplit := h.split
  have hBound := h.qHat_le
  refine
    { split := ?_
      quotient_le := ?_
      qHat_le := ?_
      rHat_lt := ?_
      stopped_iff := ?_ }
  · change (c.qHat - 1).toNat * _ + (c.rHat + _).toNat = _
    rw [hRaised, ← hSplit, ← hLowered, Nat.add_mul]
    omega
  · change _ ≤ (c.qHat - 1).toNat
    omega
  · change (c.qHat - 1).toNat ≤ _
    omega
  · change (c.rHat + _).toNat < _
    omega
  · change decide (c.rHat + _ ≥ doubleBase) = true ↔ _ ≤ (c.rHat + _).toNat
    rw [decide_eq_true_eq, ge_iff_le, BitVec.le_def, toNat_doubleBase]

/-- A turn brings the end of the loop nearer: after the second one the
remainder reaches the base, since the top bit of the divisor is set. -/
theorem turnsLeft_lower
    (h : Estimates digits (u0 * 2 ^ 32 + u1) (window / d) c)
    (hRunning : c.stopped = false) (hTest : c.tooBig digits = true) :
    (c.lower digits).turnsLeft digits < c.turnsLeft digits := by
  have hNext := h.lower hLeading hRunning hTest
  have hHalf := hLeading.half
  have hRaised : (c.lower digits).rHat.toNat =
      c.rHat.toNat + digits.divisorHigh.toNat := h.toNat_raised
  unfold Correction.turnsLeft
  rw [hRunning, hRaised]
  cases hStopped : (c.lower digits).stopped with
  | true =>
      rw [if_pos rfl, if_neg Bool.false_ne_true]
      split <;> omega
  | false =>
      have hSmall := hNext.rHat_lt_of_running hStopped
      rw [hRaised] at hSmall
      rw [if_neg Bool.false_ne_true, if_neg Bool.false_ne_true,
        if_neg (by omega), if_pos (by omega)]
      decide

/-- At most two turns end the loop. -/
theorem ends
    (h : Estimates digits (u0 * 2 ^ 32 + u1) (window / d) c) :
    ∃ last, c.run digits 2 = some last ∧
      Estimates digits (u0 * 2 ^ 32 + u1) (window / d) last ∧
      last.done digits = true := by
  have hTurn : ∀ state : Correction,
      Estimates digits (u0 * 2 ^ 32 + u1) (window / d) state →
      state.done digits = false →
      ∃ next, some (state.lower digits) = some next ∧
        Estimates digits (u0 * 2 ^ 32 + u1) (window / d) next ∧
        next.turnsLeft digits < state.turnsLeft digits := by
    intro state hState hBusy
    obtain ⟨hRunning, hTest⟩ := Correction.done_eq_false_iff.mp hBusy
    exact ⟨_, rfl, hState.lower hLeading hRunning hTest,
      hState.turnsLeft_lower hLeading hRunning hTest⟩
  refine repeatTurns_ends hTurn 2 c h ?_
  unfold Correction.turnsLeft
  split
  · exact Nat.zero_le 2
  · split <;> omega

/-- Whatever number of turns was taken, nothing wraps in the next one. -/
theorem exact_of_run
    (h : Estimates digits (u0 * 2 ^ 32 + u1) (window / d) c) {turns : Nat}
    {last : Correction} (hRun : c.run digits turns = some last)
    (hRunning : last.stopped = false) : last.Exact digits := by
  have hLast : Estimates digits (u0 * 2 ^ 32 + u1) (window / d) last := by
    refine repeatTurns_keeps ?_ turns c last h hRun
    intro state next hState hBusy hTurn
    obtain ⟨hOpen, hTest⟩ := Correction.done_eq_false_iff.mp hBusy
    cases hTurn
    exact hState.lower hLeading hOpen hTest
  exact hLast.exact hRunning

/-- The estimate at the end is a digit, and at most one above the digit of
the quotient. -/
theorem digit_of_done
    (h : Estimates digits (u0 * 2 ^ 32 + u1) (window / d) c)
    (hDone : c.done digits = true) :
    c.qHat.toNat < 2 ^ 32 ∧ c.qHat.toNat ≤ window / d + 1 := by
  cases hStopped : c.stopped with
  | true =>
      have hReached := h.stopped_iff.mp hStopped
      have hDigit := hLeading.lt_base_of_base_le_remainder h.split hReached
      exact ⟨hDigit, hLeading.le_quotient_succ_of_passes h.split hDigit
        (hLeading.passes_of_base_le_remainder hDigit hReached)⟩
  | false =>
      have hPasses : ¬ c.tooBig digits = true := by
        rw [Correction.tooBig_eq_false hStopped hDone]
        exact Bool.false_ne_true
      rw [h.tooBig_iff hStopped, not_or, Nat.not_lt] at hPasses
      have hDigit := hLeading.lt_base_of_passes h.split hPasses.1 hPasses.2
      exact ⟨hDigit,
        hLeading.le_quotient_succ_of_passes h.split hDigit hPasses.2⟩

/-- The checked loop computes the estimate that is left at the end. -/
theorem correctEstimate_eq
    (turns : Nat) :
    ∀ {c last : Correction},
      Estimates digits (u0 * 2 ^ 32 + u1) (window / d) c →
      c.stopped = false → c.run digits turns = some last →
      last.done digits = true →
      correctEstimate digits.divisorHigh.toNat digits.divisorNext.toNat
        digits.next.toNat c.qHat.toNat c.rHat.toNat =
          some last.qHat.toNat := by
  induction turns with
  | zero =>
      intro c last h hRunning hRun hDone
      cases hRun
      refine correctEstimate_of_passes ?_
      rw [h.estimateTooBig_eq_tooBig hRunning,
        Correction.tooBig_eq_false hRunning hDone]
  | succ turns ih =>
      intro c last h hRunning hRun hDone
      have hWord := h.estimateTooBig_eq_tooBig hRunning
      cases hTest : c.tooBig digits with
      | false =>
          rw [hTest] at hWord
          have hNow : c.done digits = true := by
            rw [Correction.done, hTest, Bool.not_false, Bool.or_true]
          rw [Correction.run_of_done hNow] at hRun
          cases hRun
          exact correctEstimate_of_passes hWord
      | true =>
          rw [hTest] at hWord
          have hBusy := Correction.done_eq_false_iff.mpr ⟨hRunning, hTest⟩
          have hNext := h.lower hLeading hRunning hTest
          have hRest : (c.lower digits).run digits turns = some last := by
            rw [Correction.run, repeatTurns, if_neg (by simp [hBusy])] at hRun
            exact hRun
          rw [← h.toNat_lowered hRunning hTest] at hWord ⊢
          have hRaised := h.toNat_raised
          have hRemainder := h.rHat_lt_of_running hRunning
          have hDigit := digits.divisorHigh.isLt
          rw [correctEstimate_of_fails hWord (by omega), ← hRaised]
          cases hStopped : (c.lower digits).stopped with
          | true =>
              have hEnd : (c.lower digits).done digits = true := by
                rw [Correction.done, hStopped, Bool.true_or]
              rw [Correction.run_of_done hEnd] at hRest
              cases hRest
              exact if_pos (hNext.stopped_iff.mp hStopped)
          | false =>
              have hSmall := hNext.rHat_lt_of_running hStopped
              refine (if_neg (Nat.not_le.mpr hSmall)).trans ?_
              exact ih hNext hStopped hRest hDone

end Estimates

/-- The loop of the multiplication: the digits and the last carry. -/
def mulDigitWords (right : Digit) : List Digit → DoubleDigit →
    List Digit × DoubleDigit
  | [], carry => ([], carry)
  | l :: left, carry =>
      let product := widen l * widen right + carry
      let (digits, carryOut) :=
        mulDigitWords right left (product >>> kDigitBits)
      (lowDigit product :: digits, carryOut)

/-- The carry that reaches the digit at a place. -/
def carryAt (left : List Digit) (right : Digit) (i : Nat) : DoubleDigit :=
  (mulDigitWords right (left.take i) 0).2

/-- The loop computes what the checked one does, and its sum wraps at no
place. -/
structure MultipliesExactly (left : List Digit) (right : Digit) : Prop where
  agrees : mulDigitLoop right left 0 =
    some ((mulDigitWords right left 0).1, (mulDigitWords right left 0).2.toNat)
  product : ∀ i < left.length,
    (widen (left.getD i 0) * widen right + carryAt left right i).toNat =
      (left.getD i 0).toNat * right.toNat + (carryAt left right i).toNat

theorem toNat_product_add_carry (l right : Digit) {carry : DoubleDigit}
    (hCarry : carry.toNat < 2 ^ 32) :
    (widen l * widen right + carry).toNat =
      l.toNat * right.toNat + carry.toNat := by
  have hBound : l.toNat * right.toNat ≤ (2 ^ 32 - 1) * (2 ^ 32 - 1) :=
    Nat.mul_le_mul (Nat.le_pred_of_lt l.isLt) (Nat.le_pred_of_lt right.isLt)
  have hProduct : (widen l * widen right).toNat = l.toNat * right.toNat := by
    rw [BitVec.toNat_mul_of_lt (by rw [toNat_widen, toNat_widen]; omega),
      toNat_widen, toNat_widen]
  rw [BitVec.toNat_add_of_lt (by rw [hProduct]; omega), hProduct]

/-- From a carry that is a digit, the words agree with the checked loop. -/
theorem mulDigitWords_spec (right : Digit) (left : List Digit) :
    ∀ carry : DoubleDigit, carry.toNat < 2 ^ 32 →
      (mulDigitWords right left carry).2.toNat < 2 ^ 32 ∧
        mulDigitLoop right left carry.toNat =
          some ((mulDigitWords right left carry).1,
            (mulDigitWords right left carry).2.toNat) := by
  induction left with
  | nil => exact fun carry hCarry => ⟨hCarry, rfl⟩
  | cons l left ih =>
      intro carry hCarry
      have hProduct := toNat_product_add_carry l right hCarry
      have hBound := (widen l * widen right + carry).isLt
      have hShift : ((widen l * widen right + carry) >>> kDigitBits).toNat =
          (l.toNat * right.toNat + carry.toNat) >>> kDigitBits := by
        rw [BitVec.toNat_ushiftRight, hProduct]
      have hNext : ((widen l * widen right + carry) >>> kDigitBits).toNat <
          2 ^ 32 := by
        rw [BitVec.toNat_ushiftRight]
        exact shiftRight_lt hBound
      obtain ⟨hOut, hRun⟩ := ih _ hNext
      refine ⟨hOut, ?_⟩
      rw [hProduct] at hBound
      rw [hShift] at hRun
      rw [mulDigitLoop, doubleDigit_eq_some hBound]
      refine (bind_of_eq_some hRun _).trans ?_
      rw [← hProduct, ← lowDigit_eq]
      rfl

theorem multipliesExactly (left : List Digit) (right : Digit) :
    MultipliesExactly left right where
  agrees := (mulDigitWords_spec right left 0 (by decide)).2
  product i _ := toNat_product_add_carry _ _
    (mulDigitWords_spec right (left.take i) 0 (by decide)).1

/-! ## Subtracting in place -/

/-- The loop of the subtraction: the digits and the last borrow. -/
def absSubWords : List Digit → List Digit → DoubleDigit →
    List Digit × DoubleDigit
  | [], _, borrow => ([], borrow)
  | l :: left, right, borrow =>
      let subtrahend := widen (right.headD 0) + borrow
      if widen l < subtrahend then
        let (digits, borrowOut) := absSubWords left right.tail 1
        (lowDigit (doubleBase + widen l - subtrahend) :: digits, borrowOut)
      else
        let (digits, borrowOut) := absSubWords left right.tail 0
        (lowDigit (widen l - subtrahend) :: digits, borrowOut)

/-- The borrow that reaches the digit at a place. -/
def borrowAt (left right : List Digit) (i : Nat) : DoubleDigit :=
  (absSubWords (left.take i) right 0).2

/-- What is taken from the digit at a place. -/
def subtrahendAt (left right : List Digit) (i : Nat) : DoubleDigit :=
  widen (right.getD i 0) + borrowAt left right i

/-- The loop computes what the checked one does, and no sum and no difference
of it wraps at any place. -/
structure SubtractsExactly (left right : List Digit) : Prop where
  agrees : absSubLoop left right 0 =
    some ((absSubWords left right 0).1, (absSubWords left right 0).2.toNat)
  borrow : ∀ i < left.length, (borrowAt left right i).toNat ≤ 1
  subtrahend : ∀ i < left.length, (subtrahendAt left right i).toNat =
    (right.getD i 0).toNat + (borrowAt left right i).toNat
  borrowing : ∀ i < left.length,
    widen (left.getD i 0) < subtrahendAt left right i →
      (doubleBase + widen (left.getD i 0) - subtrahendAt left right i).toNat +
          (subtrahendAt left right i).toNat =
        2 ^ 32 + (left.getD i 0).toNat
  direct : ∀ i < left.length,
    ¬ widen (left.getD i 0) < subtrahendAt left right i →
      (widen (left.getD i 0) - subtrahendAt left right i).toNat +
          (subtrahendAt left right i).toNat = (left.getD i 0).toNat

theorem toNat_add_borrow (r : Digit) {borrow : DoubleDigit}
    (hBorrow : borrow.toNat ≤ 1) :
    (widen r + borrow).toNat = r.toNat + borrow.toNat := by
  have hDigit := r.isLt
  rw [BitVec.toNat_add_of_lt (by rw [toNat_widen]; omega), toNat_widen]

theorem toNat_base_add (l : Digit) :
    (doubleBase + widen l).toNat = 2 ^ 32 + l.toNat := by
  have hDigit := l.isLt
  rw [BitVec.toNat_add_of_lt (by rw [toNat_doubleBase, toNat_widen]; omega),
    toNat_doubleBase, toNat_widen]

/-- With a base borrowed the subtrahend can be taken off. -/
theorem toNat_borrowing (l : Digit) {subtrahend : DoubleDigit}
    (hSubtrahend : subtrahend.toNat ≤ 2 ^ 32) :
    (doubleBase + widen l - subtrahend).toNat =
      2 ^ 32 + l.toNat - subtrahend.toNat := by
  have hLe : subtrahend ≤ doubleBase + widen l := by
    rw [BitVec.le_def, toNat_base_add]
    omega
  rw [BitVec.toNat_sub_of_le hLe, toNat_base_add]

theorem toNat_direct {l : Digit} {subtrahend : DoubleDigit}
    (hNotLess : ¬ widen l < subtrahend) :
    (widen l - subtrahend).toNat = l.toNat - subtrahend.toNat := by
  rw [BitVec.toNat_sub_of_le (BitVec.not_lt.mp hNotLess), toNat_widen]

/-- From a borrow of one at most, the words agree with the checked loop. -/
theorem absSubWords_spec (left : List Digit) :
    ∀ (right : List Digit) (borrow : DoubleDigit), borrow.toNat ≤ 1 →
      (absSubWords left right borrow).2.toNat ≤ 1 ∧
        absSubLoop left right borrow.toNat =
          some ((absSubWords left right borrow).1,
            (absSubWords left right borrow).2.toNat) := by
  induction left with
  | nil => exact fun right borrow hBorrow => ⟨hBorrow, rfl⟩
  | cons l left ih =>
      intro right borrow hBorrow
      have hSubtrahend := toNat_add_borrow (right.headD 0) hBorrow
      have hDigit := (right.headD 0).isLt
      have hLess : widen l < widen (right.headD 0) + borrow ↔
          l.toNat < (right.headD 0).toNat + borrow.toNat := by
        rw [BitVec.lt_def, hSubtrahend, toNat_widen]
      rw [absSubLoop, doubleDigit_eq_some (by omega), absSubWords]
      by_cases hBorrows : widen l < widen (right.headD 0) + borrow
      · have hBound : (widen (right.headD 0) + borrow).toNat ≤ 2 ^ 32 := by
          omega
        have hWord := lowDigit_eq
          (doubleBase + widen l - (widen (right.headD 0) + borrow))
        rw [toNat_borrowing l hBound, hSubtrahend] at hWord
        obtain ⟨hOut, hRun⟩ := ih right.tail 1 (le_refl 1)
        rw [if_pos hBorrows]
        refine ⟨hOut, ?_⟩
        change (if l.toNat < _ then _ else _) = _
        rw [if_pos (hLess.mp hBorrows),
          doubleDigit_eq_some (by unfold kDigitBase; omega)]
        refine (check_bind (by unfold kDigitBase; omega) _).trans ?_
        refine (bind_of_eq_some hRun _).trans ?_
        rw [hWord]
        rfl
      · have hWord := lowDigit_eq
          (widen l - (widen (right.headD 0) + borrow))
        rw [toNat_direct hBorrows, hSubtrahend] at hWord
        obtain ⟨hOut, hRun⟩ := ih right.tail 0 (Nat.zero_le 1)
        rw [if_neg hBorrows]
        refine ⟨hOut, ?_⟩
        change (if l.toNat < _ then _ else _) = _
        rw [if_neg (mt hLess.mpr hBorrows)]
        refine (bind_of_eq_some hRun _).trans ?_
        rw [hWord]

theorem subtractsExactly (left right : List Digit) :
    SubtractsExactly left right := by
  have hBorrow : ∀ i, (borrowAt left right i).toNat ≤ 1 := fun i =>
    (absSubWords_spec (left.take i) right 0 (by decide)).1
  have hSubtrahend : ∀ i, (subtrahendAt left right i).toNat =
      (right.getD i 0).toNat + (borrowAt left right i).toNat := fun i =>
    toNat_add_borrow (right.getD i 0) (hBorrow i)
  have hBound : ∀ i, (subtrahendAt left right i).toNat ≤ 2 ^ 32 := by
    intro i
    have hDigit := (right.getD i 0).isLt
    have hOne := hBorrow i
    have hSum := hSubtrahend i
    omega
  refine
    { agrees := (absSubWords_spec left right 0 (by decide)).2
      borrow := fun i _ => hBorrow i
      subtrahend := fun i _ => hSubtrahend i
      borrowing := ?_
      direct := ?_ }
  · intro i _ _
    have hTaken := hBound i
    rw [toNat_borrowing _ hTaken]
    omega
  · intro i _ hNotLess
    have hTaken := BitVec.le_def.mp (BitVec.not_lt.mp hNotLess)
    rw [toNat_widen] at hTaken
    rw [toNat_direct hNotLess]
    omega

/-- The last borrow is zero when the smaller number is taken from the
greater. -/
theorem absSubWords_of_le {left right : List Digit}
    (hLength : right.length ≤ left.length) (hLe : value right ≤ value left) :
    borrowAt left right left.length = 0 := by
  obtain ⟨digits, hRun, -⟩ := absSubLoop_of_le hLength hLe
  have hWords := (absSubWords_spec left right 0 (by decide)).2
  change absSubLoop left right 0 = _ at hWords
  rw [hRun, Option.some.injEq, Prod.mk.injEq] at hWords
  rw [borrowAt, List.take_length]
  exact BitVec.eq_of_toNat_eq hWords.2.symm

end CloverVM.BuiltinTypes.BigInt
