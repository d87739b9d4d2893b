import CloverVM.Machine.Assertion

/-!
# Square and multiply

The two loops that raise to a power by the bits of the exponent, the lowest
first.  `powLoop` counts through the bits of an exponent of any length;
`powWhile` shifts the exponent down until nothing is left.  Neither squares
after the top bit.  The multiplications may fail, and a loop then fails as a
whole.

The elements stand for those of a monoid by a relation, which the
multiplications keep.
-/

namespace CloverVM.Machine.SquareAndMultiply

variable {α : Type}

/-- The rounds from a bit on; `power` is squared in all but the last round of
the `bits`. -/
def powLoop (multiply : α → α → Option α) (square : α → Option α)
    (bit : Nat → Bool) (bits : Nat) : Nat → Nat → α → α → Option α
  | 0, _, result, _ => some result
  | rounds + 1, bitIdx, result, power => do
      let result ← (if bit bitIdx then multiply result power
        else some result)
      let power ← (if bitIdx + 1 < bits then square power else some power)
      powLoop multiply square bit bits rounds (bitIdx + 1) result power

/-- The rounds while bits of the exponent remain. -/
def powWhile (multiply : α → α → Option α) (square : α → Option α)
    (remaining : Nat) (result power : α) : Option α :=
  if remaining = 0 then some result
  else do
    let result ← (if remaining &&& 1 ≠ 0 then multiply result power
      else some result)
    let power ← (if remaining >>> 1 ≠ 0 then square power else some power)
    powWhile multiply square (remaining >>> 1) result power
termination_by remaining
decreasing_by
  rw [Nat.shiftRight_eq_div_pow]
  omega

section Power

variable {M : Type} [Monoid M] {R : α → M → Prop}
  {multiply : α → α → Option α} {square : α → Option α}

/-- The power by the exponent's lowest bit and the bits above. -/
theorem mul_pow_bit (a p : M) (e : Nat) :
    a * p ^ e = (if e % 2 = 1 then a * p else a) * (p * p) ^ (e / 2) := by
  have hSplit := Nat.mod_add_div e 2
  have hSquare : (p * p) ^ (e / 2) = p ^ (2 * (e / 2)) := by
    rw [← pow_two, ← pow_mul]
  split
  · rename_i hOdd
    rw [hOdd] at hSplit
    rw [hSquare, mul_assoc, ← pow_succ', Nat.add_comm, hSplit]
  · rename_i hEven
    have hZero : e % 2 = 0 := by omega
    rw [hZero, Nat.zero_add] at hSplit
    rw [hSquare, hSplit]

/-- Every multiplication of two elements goes through and keeps the
relation. -/
structure Multiplies (R : α → M → Prop) (multiply : α → α → Option α)
    (square : α → Option α) : Prop where
  multiply : ∀ {x y a b}, R x a → R y b →
    ∃ z, multiply x y = some z ∧ R z (a * b)
  square : ∀ {x a}, R x a → ∃ z, square x = some z ∧ R z (a * a)

/-- The invariant is that the result times the power of what is left of the
exponent stays the same. -/
theorem powLoop_spec (h : Multiplies R multiply square) {bit : Nat → Bool}
    {bits e : Nat} (hBit : ∀ i, bit i = e.testBit i) (hBits : e < 2 ^ bits)
    (rounds : Nat) :
    ∀ (bitIdx : Nat) (result power : α) (a p : M), bitIdx + rounds = bits →
      R result a → R power p →
      ∃ out, powLoop multiply square bit bits rounds bitIdx result power =
          some out ∧
        R out (a * p ^ (e / 2 ^ bitIdx)) := by
  induction rounds with
  | zero =>
      intro bitIdx result power a p hCount hResult _
      have hNone : e / 2 ^ bitIdx = 0 := by
        rw [Nat.add_zero] at hCount
        rw [hCount]
        exact Nat.div_eq_of_lt hBits
      refine ⟨result, rfl, ?_⟩
      rw [hNone, pow_zero, mul_one]
      exact hResult
  | succ rounds ih =>
      intro bitIdx result power a p hCount hResult hPower
      have hCurrent : bit bitIdx = decide (e / 2 ^ bitIdx % 2 = 1) := by
        rw [hBit, Nat.testBit_eq_decide_div_mod_eq]
      have hRest : e / 2 ^ (bitIdx + 1) = e / 2 ^ bitIdx / 2 := by
        rw [Nat.pow_succ, Nat.div_div_eq_div_mul]
      obtain ⟨result', hResultRun, hResult'⟩ : ∃ result',
          (if bit bitIdx then multiply result power else some result) =
            some result' ∧
          R result' (if e / 2 ^ bitIdx % 2 = 1 then a * p else a) := by
        by_cases hOdd : e / 2 ^ bitIdx % 2 = 1
        · obtain ⟨z, hRun, hz⟩ := h.multiply hResult hPower
          refine ⟨z, (if_pos ?_).trans hRun, ?_⟩
          · rw [hCurrent, decide_eq_true hOdd]
          · rwa [if_pos hOdd]
        · refine ⟨result, if_neg ?_, ?_⟩
          · rw [hCurrent, decide_eq_false hOdd]
            nofun
          · rwa [if_neg hOdd]
      rw [mul_pow_bit]
      by_cases hLast : bitIdx + 1 < bits
      · obtain ⟨power', hPowerRun, hPower'⟩ := h.square hPower
        obtain ⟨out, hRun, hOut⟩ := ih (bitIdx + 1) result' power' _ _
          (by omega) hResult' hPower'
        refine ⟨out, ?_, ?_⟩
        · rw [powLoop, hResultRun, if_pos hLast, hPowerRun]
          exact hRun
        · rwa [← hRest]
      · -- after the top bit nothing of the exponent is left
        obtain ⟨out, hRun, hOut⟩ := ih (bitIdx + 1) result' power _ _
          (by omega) hResult' hPower
        have hNone : e / 2 ^ (bitIdx + 1) = 0 := by
          have hTop : bitIdx + 1 = bits := by omega
          rw [hTop]
          exact Nat.div_eq_of_lt hBits
        refine ⟨out, ?_, ?_⟩
        · rw [powLoop, hResultRun, if_neg hLast]
          exact hRun
        · rw [hNone, pow_zero] at hOut
          rw [← hRest, hNone, pow_zero]
          exact hOut

/-- A multiplication that goes through keeps the relation. -/
structure MayMultiply (R : α → M → Prop) (multiply : α → α → Option α)
    (square : α → Option α) : Prop where
  multiply : ∀ {x y z a b}, multiply x y = some z → R x a → R y b →
    R z (a * b)
  square : ∀ {x z a}, square x = some z → R x a → R z (a * a)

theorem powWhile_spec (h : MayMultiply R multiply square) (remaining : Nat) :
    ∀ {result power out : α} {a p : M}, R result a → R power p →
      powWhile multiply square remaining result power = some out →
      R out (a * p ^ remaining) := by
  induction remaining using Nat.strong_induction_on with
  | _ remaining ih =>
      intro result power out a p hResult hPower hRun
      rw [powWhile] at hRun
      by_cases hNone : remaining = 0
      · rw [if_pos hNone, Option.some.injEq] at hRun
        rw [hNone, pow_zero, mul_one, ← hRun]
        exact hResult
      · rw [if_neg hNone] at hRun
        obtain ⟨result', hResultRun, hRun⟩ := exists_of_bind hRun
        obtain ⟨power', hPowerRun, hRun⟩ := exists_of_bind hRun
        have hHalf : remaining >>> 1 = remaining / 2 :=
          Nat.shiftRight_eq_div_pow remaining 1
        rw [Nat.and_one_is_mod] at hResultRun
        rw [hHalf] at hPowerRun hRun
        have hResult' : R result' (if remaining % 2 = 1 then a * p else a) := by
          by_cases hOdd : remaining % 2 = 1
          · rw [if_pos (by omega)] at hResultRun
            rw [if_pos hOdd]
            exact h.multiply hResultRun hResult hPower
          · rw [if_neg (by omega), Option.some.injEq] at hResultRun
            rw [if_neg hOdd, ← hResultRun]
            exact hResult
        rw [mul_pow_bit]
        by_cases hRest : remaining / 2 = 0
        · rw [hRest, powWhile, if_pos rfl, Option.some.injEq] at hRun
          rw [hRest, pow_zero, mul_one, ← hRun]
          exact hResult'
        · rw [if_pos hRest] at hPowerRun
          exact ih (remaining / 2) (by omega) hResult'
            (h.square hPowerRun hPower) hRun

end Power

end CloverVM.Machine.SquareAndMultiply
