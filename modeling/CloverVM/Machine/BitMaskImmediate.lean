import Mathlib.Data.Nat.Bitwise
import Mathlib.Tactic.IntervalCases

/-!
# Bit-mask immediates of a 64-bit ARM machine

The logical instructions take their constant as three fields, `N`, `immr` and
`imms`.  The fields name an element of two to 64 bits, a run of ones in it and
a rotation; the constant is as many copies of the element as fill a register.
-/

namespace CloverVM.Machine.BitMaskImmediate

/-- Copies of a rotated run of ones, in elements of `size` bits. -/
def bitMask (size ones rotation : Nat) : BitVec 64 :=
  (((BitVec.ofNat size (2 ^ ones - 1)).rotateRight rotation).replicate
    (64 / size)).setWidth 64

/-- The constant that the 13 bits of `N`, `immr` and `imms` stand for.  The
highest bit of `N` and the complement of `imms` says how long an element is;
a run that fills the element has no encoding. -/
def decodeBitMasks (code : Nat) : Option (BitVec 64) :=
  let n := code / 2 ^ 12 % 2
  let immr := code / 2 ^ 6 % 2 ^ 6
  let imms := code % 2 ^ 6
  let len := Nat.log2 (n * 2 ^ 6 + (2 ^ 6 - 1 - imms))
  let s := imms % 2 ^ len
  let r := immr % 2 ^ len
  if len < 1 then none
  else if s = 2 ^ len - 1 then none
  else some (bitMask (2 ^ len) (s + 1) r)

theorem getLsbD_ones {size ones i : Nat} (h : ones ≤ size) :
    (BitVec.ofNat size (2 ^ ones - 1)).getLsbD i = decide (i < ones) := by
  rw [BitVec.getLsbD_ofNat, Nat.testBit_two_pow_sub_one]
  by_cases hi : i < ones
  · simp [hi, hi.trans_le h]
  · simp [hi]

/-- A rotated run of ones. -/
theorem getLsbD_rotateRight_ones {size ones rotation i : Nat}
    (hOnes : ones ≤ size) (hRotation : rotation < size) (hi : i < size) :
    ((BitVec.ofNat size (2 ^ ones - 1)).rotateRight rotation).getLsbD i =
      decide ((i + rotation) % size < ones) := by
  rw [BitVec.getLsbD_rotateRight_of_lt hRotation]
  by_cases hLow : i < size - rotation
  · rw [decide_eq_true hLow, cond_true, getLsbD_ones hOnes,
      Nat.add_comm rotation i, Nat.mod_eq_of_lt (by omega)]
  · rw [decide_eq_false hLow, cond_false, getLsbD_ones hOnes,
      Nat.mod_eq_sub_mod (by omega), Nat.mod_eq_of_lt (by omega),
      decide_eq_true hi, Bool.true_and]
    rw [show i - (size - rotation) = i + rotation - size by omega]

/-- The bits of the constant. -/
theorem getLsbD_bitMask {size ones rotation i : Nat} (hSize : size ∣ 64)
    (hOnes : ones ≤ size) (hRotation : rotation < size) (hi : i < 64) :
    (bitMask size ones rotation).getLsbD i =
      decide ((i + rotation) % size < ones) := by
  have hPos : 0 < size := by omega
  have hBits : i < size * (64 / size) := by
    rwa [Nat.mul_div_cancel' hSize]
  rw [bitMask, BitVec.getLsbD_setWidth, BitVec.getLsbD_replicate,
    decide_eq_true hi, decide_eq_true hBits, Bool.true_and, Bool.true_and,
    getLsbD_rotateRight_ones hOnes hRotation (Nat.mod_lt _ hPos),
    Nat.mod_add_mod]

/-! ## The fields -/

/-- The element, the run and the rotation that a constant is made of. -/
structure Element where
  /-- An element has `2 ^ len` bits. -/
  len : Nat
  ones : Nat
  rotation : Nat
  len_pos : 0 < len
  len_le : len ≤ 6
  ones_pos : 0 < ones
  ones_lt : ones < 2 ^ len
  rotation_lt : rotation < 2 ^ len

namespace Element

def mask (element : Element) : BitVec 64 :=
  bitMask (2 ^ element.len) element.ones element.rotation

/-- The fields that name it: an element of 64 bits has `N` set, and the high
bits of `imms` count the others down. -/
def fields (element : Element) : Nat :=
  (if element.len = 6 then 1 else 0) * 2 ^ 12 + element.rotation * 2 ^ 6 +
    ((2 ^ 7 - 2 * 2 ^ element.len) % 2 ^ 6 + (element.ones - 1))

theorem getLsbD_mask (element : Element) {i : Nat} (hi : i < 64) :
    element.mask.getLsbD i =
      decide ((i + element.rotation) % 2 ^ element.len < element.ones) :=
  getLsbD_bitMask (pow_dvd_pow 2 element.len_le) element.ones_lt.le
    element.rotation_lt hi

end Element

/-- The fields of an element, one by one. -/
theorem fields_spec (element : Element) :
    ∃ n imms, element.fields =
        n * 2 ^ 12 + element.rotation * 2 ^ 6 + imms ∧
      n < 2 ∧ imms < 2 ^ 6 ∧
      n * 2 ^ 6 + (2 ^ 6 - 1 - imms) = 2 * 2 ^ element.len - element.ones ∧
      imms % 2 ^ element.len = element.ones - 1 := by
  obtain ⟨len, ones, rotation, hPos, hLe, hOnes, hOnesLess, hRotation⟩ :=
    element
  obtain ⟨n, high, hN, hHighEq, hn, hHigh, hFull, hRest⟩ : ∃ n high,
      (if len = 6 then 1 else 0) = n ∧
      (2 ^ 7 - 2 * 2 ^ len) % 2 ^ 6 = high ∧
      n < 2 ∧ high + 2 ^ len ≤ 2 ^ 6 ∧
      n * 2 ^ 6 + 2 ^ 6 = high + 2 * 2 ^ len ∧ high % 2 ^ len = 0 := by
    interval_cases len <;>
      exact ⟨_, _, rfl, rfl, by decide, by decide, by decide, by decide⟩
  have hOnesSize : ones < 2 ^ len := hOnesLess
  refine ⟨n, high + (ones - 1), ?_, hn, by omega, ?_, ?_⟩
  · rw [Element.fields]
    simp only [hN, hHighEq]
  · show n * 2 ^ 6 + (2 ^ 6 - 1 - (high + (ones - 1))) = 2 * 2 ^ len - ones
    omega
  · show (high + (ones - 1)) % 2 ^ len = ones - 1
    rw [Nat.add_mod, hRest, Nat.zero_add, Nat.mod_mod,
      Nat.mod_eq_of_lt (by omega)]

theorem Element.fields_lt (element : Element) : element.fields < 2 ^ 13 := by
  obtain ⟨n, imms, hFields, hn, hImms, -, -⟩ := fields_spec element
  have hRotation : element.rotation < 2 ^ 6 :=
    element.rotation_lt.trans_le
      (Nat.pow_le_pow_right (by decide) element.len_le)
  omega

/-- What an element has as its fields stands for the element. -/
theorem decodeBitMasks_fields (element : Element) :
    decodeBitMasks element.fields = some element.mask := by
  obtain ⟨n, imms, hFields, hn, hImms, hLen, hRest⟩ := fields_spec element
  have hSmall : 2 ^ element.len ≤ 2 ^ 6 :=
    Nat.pow_le_pow_right (by decide) element.len_le
  have hPos := element.len_pos
  have hOnes := element.ones_pos
  have hOnesLess := element.ones_lt
  have hRotation := element.rotation_lt
  have hN : element.fields / 2 ^ 12 % 2 = n := by omega
  have hImmr : element.fields / 2 ^ 6 % 2 ^ 6 = element.rotation := by omega
  have hImmsEq : element.fields % 2 ^ 6 = imms := by omega
  have hLog : Nat.log2 (2 * 2 ^ element.len - element.ones) =
      element.len := by
    rw [Nat.log2_eq_iff (by omega), Nat.pow_succ]
    omega
  simp only [decodeBitMasks, hN, hImmr, hImmsEq, hLen, hLog, hRest]
  rw [if_neg (by omega), if_neg (by omega), Nat.sub_add_cancel hOnes,
    Nat.mod_eq_of_lt hRotation]
  rfl

/-- The constants that have an encoding are those that are made of an
element. -/
theorem decodeBitMasks_eq_some_iff (immediate : BitVec 64) :
    (∃ code, code < 2 ^ 13 ∧ decodeBitMasks code = some immediate) ↔
      ∃ element : Element, element.mask = immediate := by
  constructor
  · rintro ⟨code, -, hCode⟩
    unfold decodeBitMasks at hCode
    dsimp only at hCode
    generalize hLen : Nat.log2 _ = len at hCode
    split_ifs at hCode with hShort hFull
    have hPow : 0 < 2 ^ len := Nat.two_pow_pos len
    have hLe : len ≤ 6 := by
      rw [← hLen, ← Nat.lt_succ_iff]
      refine (Nat.log2_lt (fun hZero => ?_)).mpr (by omega)
      rw [hZero, Nat.log2_zero] at hLen
      exact hShort (hLen ▸ Nat.zero_lt_one)
    have hRun : code % 2 ^ 6 % 2 ^ len < 2 ^ len := Nat.mod_lt _ hPow
    exact ⟨⟨len, _, _, Nat.not_lt.mp hShort, hLe, Nat.succ_pos _, by omega,
      Nat.mod_lt _ hPow⟩, Option.some.inj hCode⟩
  · rintro ⟨element, rfl⟩
    exact ⟨element.fields, element.fields_lt, decodeBitMasks_fields element⟩

end CloverVM.Machine.BitMaskImmediate
