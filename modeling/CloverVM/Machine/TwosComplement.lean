import CloverVM.Machine.Digits
import Mathlib.Data.Int.Bitwise

/-!
# Two's complement over strings of machine digits

A string of `w`-bit digits under a sign bit stands for an infinite string of
bits: the bits of the digits, the least significant first, and the sign bit
at every place above them.  With the sign bit set the integer is the number
of the digits less the weight of the place above.
-/

namespace CloverVM.Machine.Digits

variable {w : Nat}

/-- The bit at a place of the infinite string. -/
def signedBit (negative : Bool) : List (BitVec w) → Nat → Bool
  | [], _ => negative
  | d :: ds, i => if i < w then d.getLsbD i else signedBit negative ds (i - w)

/-- The integer of the infinite string. -/
def signedValue (negative : Bool) (ds : List (BitVec w)) : Int :=
  value ds - if negative then ((2 ^ w) ^ ds.length : Nat) else 0

theorem signedValue_false (ds : List (BitVec w)) :
    signedValue false ds = value ds := by
  simp [signedValue]

theorem signedValue_true (ds : List (BitVec w)) :
    signedValue true ds = value ds - ((2 ^ w) ^ ds.length : Nat) := rfl

theorem signedValue_cons (negative : Bool) (d : BitVec w)
    (ds : List (BitVec w)) :
    signedValue negative (d :: ds) =
      d.toNat + 2 ^ w * signedValue negative ds := by
  cases negative
  · rw [signedValue_false, signedValue_false, value_cons]
    push_cast
    ring
  · rw [signedValue_true, signedValue_true, value_cons, List.length_cons]
    push_cast
    ring

/-- The bits of a number whose low digit is given. -/
theorem testBit_digit_add (d : BitVec w) (n : Int) (i : Nat) :
    ((d.toNat : Int) + 2 ^ w * n).testBit i =
      if i < w then d.getLsbD i else n.testBit (i - w) := by
  have hDigit := d.isLt
  cases n with
  | ofNat n =>
      have hNat : (d.toNat : Int) + 2 ^ w * Int.ofNat n =
          ((2 ^ w * n + d.toNat : Nat) : Int) := by
        push_cast
        rw [Int.ofNat_eq_natCast]
        ring
      rw [hNat]
      exact Nat.testBit_two_pow_mul_add n hDigit i
  | negSucc n =>
      -- the complement of the digit is the low digit of the number that
      -- the negative one is the complement of
      have hLow : 2 ^ w - (d.toNat + 1) < 2 ^ w := by omega
      have hNat : (d.toNat : Int) + 2 ^ w * Int.negSucc n =
          Int.negSucc (2 ^ w * n + (2 ^ w - (d.toNat + 1))) := by
        have hSub : ((2 ^ w - (d.toNat + 1) : Nat) : Int) =
            2 ^ w - (d.toNat + 1) := by
          rw [Nat.cast_sub hDigit]
          push_cast
          rfl
        rw [Int.negSucc_eq, Int.negSucc_eq, Nat.cast_add, hSub]
        push_cast
        ring
      rw [hNat]
      change (!(Nat.testBit _ _)) = _
      rw [Nat.testBit_two_pow_mul_add n hLow]
      by_cases hPlace : i < w
      · rw [if_pos hPlace, if_pos hPlace,
          Nat.testBit_two_pow_sub_succ hDigit, decide_eq_true hPlace]
        simp [BitVec.testBit_toNat]
      · rw [if_neg hPlace, if_neg hPlace]
        rfl

/-- The bits of the integer are the bits of the string. -/
theorem testBit_signedValue (negative : Bool) (ds : List (BitVec w)) :
    ∀ i, (signedValue negative ds).testBit i = signedBit negative ds i := by
  induction ds with
  | nil =>
      intro i
      cases negative
      · simp [signedValue, signedBit, Int.testBit]
      · have hMinusOne : signedValue true ([] : List (BitVec w)) =
            Int.negSucc 0 := rfl
        rw [hMinusOne]
        simp [signedBit, Int.testBit]
  | cons d ds ih =>
      intro i
      rw [signedValue_cons, testBit_digit_add, ih, signedBit]

theorem signedBit_false (ds : List (BitVec w)) :
    ∀ i, signedBit false ds i = (ds.getD (i / w) 0).getLsbD (i % w) := by
  induction ds with
  | nil =>
      intro i
      simp [signedBit]
  | cons d ds ih =>
      intro i
      rw [signedBit]
      by_cases hPlace : i < w
      · rw [if_pos hPlace, Nat.div_eq_of_lt hPlace, Nat.mod_eq_of_lt hPlace,
          List.getD_cons_zero]
      · rcases Nat.eq_zero_or_pos w with hEmpty | hPos
        · subst hEmpty
          simp [ih, BitVec.of_length_zero]
        · rw [if_neg hPlace, ih, Nat.div_eq_sub_div hPos (Nat.not_lt.mp hPlace),
            List.getD_cons_succ, Nat.mod_eq_sub_mod (Nat.not_lt.mp hPlace)]

/-- A bit of a number is a bit of one of its digits. -/
theorem testBit_value (ds : List (BitVec w)) (i : Nat) :
    (value ds).testBit i = (ds.getD (i / w) 0).getLsbD (i % w) := by
  have hBits := testBit_signedValue false ds i
  rw [signedValue_false, signedBit_false] at hBits
  exact hBits

/-! ## Operations by the bit -/

/-- The operation on two digits, and the one on a digit and the sign of a
string that has no digit there, do the same on every bit. -/
structure Pointwise (bit : Bool → Bool → Bool)
    (apply : BitVec w → BitVec w → BitVec w)
    (tail : BitVec w → Bool → BitVec w) : Prop where
  apply_bit : ∀ l r i, i < w →
    (apply l r).getLsbD i = bit (l.getLsbD i) (r.getLsbD i)
  tail_bit : ∀ d negative i, i < w →
    (tail d negative).getLsbD i = bit (d.getLsbD i) negative

/-- The operation over the digits of the longer string. -/
def extendWith (apply : BitVec w → BitVec w → BitVec w)
    (tail : BitVec w → Bool → BitVec w) (negative : Bool) :
    List (BitVec w) → List (BitVec w) → List (BitVec w)
  | l :: left, r :: right => apply l r :: extendWith apply tail negative left right
  | left, [] => left.map (tail · negative)
  | [], _ :: _ => []

section Pointwise

variable {bit : Bool → Bool → Bool} {apply : BitVec w → BitVec w → BitVec w}
  {tail : BitVec w → Bool → BitVec w}

/-- Above the shorter string every bit meets its sign. -/
theorem Pointwise.signedBit_map_tail (h : Pointwise bit apply tail)
    (leftNegative rightNegative : Bool) (left : List (BitVec w)) :
    ∀ i, signedBit (bit leftNegative rightNegative)
        (left.map (tail · rightNegative)) i =
      bit (signedBit leftNegative left i) rightNegative := by
  induction left with
  | nil =>
      intro i
      rfl
  | cons l left ih =>
      intro i
      simp only [List.map_cons, signedBit]
      by_cases hPlace : i < w
      · rw [if_pos hPlace, if_pos hPlace, h.tail_bit l rightNegative i hPlace]
      · rw [if_neg hPlace, if_neg hPlace, ih]

/-- The operation works bit by bit, the signs included. -/
theorem Pointwise.signedBit_extendWith (h : Pointwise bit apply tail)
    (leftNegative rightNegative : Bool) (left : List (BitVec w)) :
    ∀ right : List (BitVec w), right.length ≤ left.length → ∀ i,
      signedBit (bit leftNegative rightNegative)
          (extendWith apply tail rightNegative left right) i =
        bit (signedBit leftNegative left i)
          (signedBit rightNegative right i) := by
  induction left with
  | nil =>
      intro right hLength i
      have hNil : right = [] := List.length_eq_zero_iff.mp (by simpa using hLength)
      subst hNil
      rfl
  | cons l left ih =>
      intro right hLength i
      cases right with
      | nil =>
          have hTail := h.signedBit_map_tail leftNegative rightNegative
            (l :: left) i
          simpa only [extendWith, signedBit] using hTail
      | cons r right =>
          have hShorter : right.length ≤ left.length := by simpa using hLength
          simp only [extendWith, signedBit]
          by_cases hPlace : i < w
          · rw [if_pos hPlace, if_pos hPlace, if_pos hPlace,
              h.apply_bit l r i hPlace]
          · rw [if_neg hPlace, if_neg hPlace, if_neg hPlace,
              ih right hShorter]

/-- The integer of the outcome has the operation's bits. -/
theorem Pointwise.testBit_extendWith (h : Pointwise bit apply tail)
    (leftNegative rightNegative : Bool) {left right : List (BitVec w)}
    (hLength : right.length ≤ left.length) (i : Nat) :
    (signedValue (bit leftNegative rightNegative)
        (extendWith apply tail rightNegative left right)).testBit i =
      bit ((signedValue leftNegative left).testBit i)
        ((signedValue rightNegative right).testBit i) := by
  rw [testBit_signedValue, testBit_signedValue, testBit_signedValue]
  exact h.signedBit_extendWith leftNegative rightNegative left right hLength i

end Pointwise

end CloverVM.Machine.Digits
