import CloverVM.Jit.AArch64Relaxation
import CloverVM.Machine.BitMaskImmediate

/-!
# Immediates that read back

The encoders of `jit/aarch64_assembler.h` that put a number into the fields of
an instruction: signed immediates of a scaled displacement, the bit masks of
the logical instructions, the addresses of loads and stores, and the moves
that load a constant a halfword at a time.
-/

namespace CloverVM.Jit

open CloverVM.Machine CloverVM.Machine.BranchCode
open CloverVM.Machine.BitMaskImmediate

def decodeSignedScaledImmediate (immediate : Word32)
    (immediateBits scaleShift : Nat) : Option Int := do
  check (immediateBits ≠ 0)
  check (immediate < (1 : Word32) <<< immediateBits)
  let value : Int :=
    if immediate &&& (1 : Word32) <<< (immediateBits - 1) ≠ 0 then
      (immediate.toNat : Int) - 2 ^ immediateBits
    else immediate.toNat
  return value * 2 ^ scaleShift

/-- The element once for each place it has in 64 bits. -/
def replicateElement (elementSize : Nat) (element : BitVec 64) : BitVec 64 :=
  (List.range (64 / elementSize)).foldl
    (fun replicated copy => replicated ||| element <<< (copy * elementSize)) 0

def elementMask (elementSize : Nat) : BitVec 64 :=
  if elementSize = 64 then BitVec.allOnes 64
  else (1 : BitVec 64) <<< elementSize - 1

def rotatedOnes (elementSize oneBits rotation : Nat) : BitVec 64 :=
  let ones := (1 : BitVec 64) <<< oneBits - 1
  if rotation = 0 then ones
  else (ones >>> rotation ||| ones <<< (elementSize - rotation)) &&&
    elementMask elementSize

def logicalEncoding (elementSize oneBits rotation : Nat) : BitVec 16 :=
  let n : BitVec 16 := if elementSize = 64 then 1 else 0
  let imms : BitVec 32 :=
    (-(BitVec.ofNat 32 elementSize * 2) ||| BitVec.ofNat 32 (oneBits - 1)) &&&
      0x3f
  n <<< 12 ||| BitVec.ofNat 16 rotation <<< 6 ||| imms.setWidth 16

/-- The loops over the runs of ones and over the rotations. -/
def tryElementSize (immediate : BitVec 64) (elementSize : Nat) :
    Option (BitVec 16) :=
  let element := immediate &&& elementMask elementSize
  if replicateElement elementSize element ≠ immediate then none
  else
    (List.range' 1 (elementSize - 1)).findSome? fun oneBits =>
      (List.range elementSize).findSome? fun rotation =>
        if rotatedOnes elementSize oneBits rotation ≠ element then none
        else some (logicalEncoding elementSize oneBits rotation)

def tryLogicalImmediate64 (immediate : BitVec 64) : Option (BitVec 16) :=
  if immediate = 0 ∨ immediate = BitVec.allOnes 64 then none
  else [2, 4, 8, 16, 32, 64].findSome? (tryElementSize immediate)

/-- The register with number 31 is the stack pointer here. -/
structure XRegisterOrSP where
  registerNumber : Nat
  lt : registerNumber < 32
deriving DecidableEq, Repr

def XRegisterOrSP.encoding (register : XRegisterOrSP) : Word32 :=
  BitVec.ofNat 32 register.registerNumber

inductive LoadStoreAddressMode where
  | unsignedScaled
  | signedUnscaled
deriving DecidableEq, Repr

structure LoadStoreAddressEncoding where
  mode : LoadStoreAddressMode
  bits : Word32
deriving DecidableEq, Repr

/-- The bound is computed in 32 bits. -/
def encodeLoadStoreAddress (base : XRegisterOrSP) (byteOffset : Int)
    (accessBytes : Nat) : Option LoadStoreAddressEncoding := do
  check (accessBytes ≠ 0)
  let maximumScaledByteOffset : Int := (4095 * accessBytes) % 2 ^ 32
  if byteOffset ≥ 0 ∧ byteOffset.tmod accessBytes = 0 ∧
      byteOffset ≤ maximumScaledByteOffset then
    let scaledOffset := BitVec.ofInt 32 (byteOffset.tdiv accessBytes)
    return ⟨.unsignedScaled, scaledOffset <<< 10 ||| base.encoding <<< 5⟩
  else do
    let immediate ← signedImmediate byteOffset 9 0
    return ⟨.signedUnscaled, immediate <<< 12 ||| base.encoding <<< 5⟩

/-- A halfword that is zero is left out; the first move clears the others. -/
def emitMovHalfwords (destination : XRegister) (immediate : BitVec 64) :
    List MoveWideHalfword → Bool → List Word32
  | [], true => []
  | [], false => [emitMoveWideImm16 .movz destination 0 .bits0]
  | halfword :: halfwords, emitted =>
      let part : BitVec 16 := (immediate >>> (16 * halfword.index)).setWidth 16
      if part = 0 then
        emitMovHalfwords destination immediate halfwords emitted
      else
        emitMoveWideImm16 (if emitted then .movk else .movz) destination part
            halfword ::
          emitMovHalfwords destination immediate halfwords true

def emitMov (destination : XRegister) (immediate : BitVec 64) : List Word32 :=
  emitMovHalfwords destination immediate [.bits0, .bits16, .bits32, .bits48]
    false

/-! ## Signed immediates -/

section Signed

variable {immediate : Word32} {bits scale : Nat} {displacement : Int}

/-- The test for the sign bit. -/
theorem and_shiftLeft_one_ne_zero {k : Nat} (hk : k < 32)
    (hLess : immediate.toNat < 2 ^ (k + 1)) :
    immediate &&& (1 : Word32) <<< k ≠ 0 ↔ ¬immediate.toNat < 2 ^ k := by
  have hPow : (2 : Nat) ^ k < 2 ^ 32 :=
    Nat.pow_lt_pow_right (by decide) hk
  have hShift : ((1 : Word32) <<< k).toNat = 2 ^ k := by
    rw [BitVec.toNat_shiftLeft, Nat.shiftLeft_eq]
    exact (Nat.mod_eq_of_lt (by simpa using hPow)).trans (Nat.one_mul _)
  have hAnd : (immediate &&& (1 : Word32) <<< k).toNat =
      (immediate.toNat / 2 ^ k) % 2 * 2 ^ k := by
    rw [BitVec.toNat_and, hShift, Nat.and_two_pow, Nat.toNat_testBit]
  have hQuotient : immediate.toNat / 2 ^ k < 2 := by
    rw [Nat.div_lt_iff_lt_mul (by positivity), ← Nat.pow_succ']
    exact hLess
  rw [Nat.mod_eq_of_lt hQuotient] at hAnd
  rw [ne_eq, ← BitVec.toNat_inj, hAnd, show (0 : Word32).toNat = 0 from rfl,
    Nat.mul_eq_zero, Nat.div_eq_zero_iff]
  have hne : (2 : Nat) ^ k ≠ 0 := by positivity
  simp only [hne, false_or, or_false]

/-- An immediate is read in two's complement. -/
theorem decodeSignedScaledImmediate_eq (hBits : 0 < bits) (hWord : bits < 32)
    (hLess : immediate.toNat < 2 ^ bits) :
    decodeSignedScaledImmediate immediate bits scale =
      some (signedField bits immediate.toNat * 2 ^ scale) := by
  have hPow : (2 : Nat) ^ bits < 2 ^ 32 :=
    Nat.pow_lt_pow_right (by decide) hWord
  have hShift : ((1 : Word32) <<< bits).toNat = 2 ^ bits := by
    rw [BitVec.toNat_shiftLeft, Nat.shiftLeft_eq]
    exact (Nat.mod_eq_of_lt (by simpa using hPow)).trans (Nat.one_mul _)
  have hBound : immediate < (1 : Word32) <<< bits := by
    rw [BitVec.lt_def, hShift]
    exact hLess
  have hTest := and_shiftLeft_one_ne_zero (k := bits - 1) (by omega)
    (by rwa [Nat.sub_add_cancel hBits])
  refine (check_bind (show bits ≠ 0 by omega) _).trans
    ((check_bind hBound _).trans ?_)
  rw [signedField]
  by_cases hLow : immediate.toNat < 2 ^ (bits - 1)
  · rw [if_neg fun h => hTest.mp h hLow, if_pos hLow]
    rfl
  · rw [if_pos (hTest.mpr hLow), if_neg hLow]
    rfl

/-- What fits is what an immediate can be read as. -/
theorem fitsSignedScaledDisplacement_iff_decodes (hBits : 0 < bits)
    (hWord : bits < 32) :
    fitsSignedScaledDisplacement displacement bits scale = true ↔
      ∃ immediate, decodeSignedScaledImmediate immediate bits scale =
        some displacement := by
  rw [fitsSignedScaledDisplacement_iff_units]
  have hFull : (2 : Int) ^ bits = 2 * 2 ^ (bits - 1) := by
    rw [← Int.pow_succ', Nat.sub_add_cancel hBits]
  have hPow : (2 : Nat) ^ bits ≤ 2 ^ 32 :=
    Nat.pow_le_pow_right (by decide) hWord.le
  have hPos : (0 : Int) < 2 ^ bits := by positivity
  constructor
  · rintro ⟨units, rfl, hLow, hHigh⟩
    have hUnits : (units % 2 ^ bits).toNat < 2 ^ bits := by
      rw [Int.toNat_lt (Int.emod_nonneg _ hPos.ne')]
      push_cast
      exact Int.emod_lt_of_pos _ hPos
    have hNumber : (BitVec.ofNat 32 (units % 2 ^ bits).toNat).toNat =
        (units % 2 ^ bits).toNat := by
      rw [BitVec.toNat_ofNat]
      exact Nat.mod_eq_of_lt (by omega)
    refine ⟨BitVec.ofNat 32 (units % 2 ^ bits).toNat, ?_⟩
    rw [decodeSignedScaledImmediate_eq hBits hWord (by rwa [hNumber]),
      hNumber, signedField_emod hBits hLow hHigh, Int.mul_comm]
  · rintro ⟨immediate, hDecode⟩
    have hLess : immediate.toNat < 2 ^ bits := by
      unfold decodeSignedScaledImmediate at hDecode
      obtain ⟨-, hDecode⟩ := check_bind_eq_some.mp hDecode
      obtain ⟨hLess, -⟩ := check_bind_eq_some.mp hDecode
      rw [BitVec.lt_def, BitVec.toNat_shiftLeft, Nat.shiftLeft_eq] at hLess
      refine hLess.trans_le ((Nat.mod_le _ _).trans ?_)
      exact Nat.le_of_eq (Nat.one_mul _)
    rw [decodeSignedScaledImmediate_eq hBits hWord hLess,
      Option.some.injEq] at hDecode
    refine ⟨signedField bits immediate.toNat,
      hDecode.symm.trans (Int.mul_comm _ _), ?_⟩
    have hHalf : (2 : Nat) ^ bits = 2 * 2 ^ (bits - 1) := by
      rw [← Nat.pow_succ', Nat.succ_eq_add_one, Nat.sub_add_cancel hBits]
    have hCast : ((2 ^ (bits - 1) : Nat) : Int) = 2 ^ (bits - 1) := by
      push_cast
      rfl
    unfold signedField
    split_ifs <;> omega

/-- A displacement that fits has an immediate, which reads back. -/
theorem signedImmediate_decodes (hBits : 0 < bits) (hWord : bits < 32)
    (hMin : -2 ^ 63 ≤ displacement) (hMax : displacement < 2 ^ 63)
    (h : fitsSignedScaledDisplacement displacement bits scale = true) :
    ∃ immediate, signedImmediate displacement bits scale = some immediate ∧
      immediate.toNat < 2 ^ bits ∧
      decodeSignedScaledImmediate immediate bits scale =
        some displacement := by
  obtain ⟨units, hEq, hLow, hHigh⟩ :=
    (fitsSignedScaledDisplacement_iff_units _ _ _).mp h
  obtain ⟨immediate, hRun, hValue⟩ := signedImmediate_units hWord.le hMin
    hMax hEq hLow hHigh
  have hPos : (0 : Int) < 2 ^ bits := by positivity
  have hLess : immediate.toNat < 2 ^ bits := by
    rw [hValue, Int.toNat_lt (Int.emod_nonneg _ hPos.ne')]
    push_cast
    exact Int.emod_lt_of_pos _ hPos
  refine ⟨immediate, hRun, hLess, ?_⟩
  rw [decodeSignedScaledImmediate_eq hBits hWord hLess, hValue,
    signedField_emod hBits hLow hHigh, hEq, Int.mul_comm]

end Signed

/-! ## Bit masks -/

section BitMasks

variable {elementSize oneBits rotation i : Nat}
variable {immediate value : BitVec 64}

theorem shiftLeft_one_sub_one {k : Nat} (hk : k < 64) :
    (1 : BitVec 64) <<< k - 1 = BitVec.ofNat 64 (2 ^ k - 1) := by
  have hPow : (2 : Nat) ^ k < 2 ^ 64 :=
    Nat.pow_lt_pow_right (by decide) hk
  have hPos : 0 < 2 ^ k := Nat.two_pow_pos k
  have hShift : ((1 : BitVec 64) <<< k).toNat = 2 ^ k := by
    rw [BitVec.toNat_shiftLeft, Nat.shiftLeft_eq]
    exact (Nat.mod_eq_of_lt (by simpa using hPow)).trans (Nat.one_mul _)
  refine BitVec.eq_of_toNat_eq ?_
  rw [BitVec.toNat_sub, hShift, BitVec.toNat_ofNat,
    show (1 : BitVec 64).toNat = 1 from rfl]
  omega

theorem getLsbD_shiftLeft_one_sub_one {k : Nat} (hk : k < 64) :
    ((1 : BitVec 64) <<< k - 1).getLsbD i = decide (i < k) := by
  rw [shiftLeft_one_sub_one hk]
  exact getLsbD_ones hk.le

theorem getLsbD_elementMask (hSize : elementSize ≤ 64) :
    (elementMask elementSize).getLsbD i = decide (i < elementSize) := by
  unfold elementMask
  split_ifs with hFull
  · rw [BitVec.getLsbD_allOnes, hFull]
  · exact getLsbD_shiftLeft_one_sub_one (by omega)

theorem getLsbD_rotatedOnes (hSize : elementSize ≤ 64)
    (hOnes : oneBits < elementSize) (hRotation : rotation < elementSize)
    (hi : i < 64) :
    (rotatedOnes elementSize oneBits rotation).getLsbD i =
      decide (i < elementSize ∧
        (i + rotation) % elementSize < oneBits) := by
  have hRun : ∀ j, ((1 : BitVec 64) <<< oneBits - 1).getLsbD j =
      decide (j < oneBits) :=
    fun j => getLsbD_shiftLeft_one_sub_one (by omega)
  unfold rotatedOnes
  dsimp only
  by_cases hZero : rotation = 0
  · rw [if_pos hZero, hRun, decide_eq_decide, hZero, Nat.add_zero]
    constructor
    · intro h
      rw [Nat.mod_eq_of_lt (h.trans hOnes)]
      exact ⟨h.trans hOnes, h⟩
    · rintro ⟨hElement, h⟩
      rwa [Nat.mod_eq_of_lt hElement] at h
  · rw [if_neg hZero, BitVec.getLsbD_and, BitVec.getLsbD_or,
      BitVec.getLsbD_ushiftRight, BitVec.getLsbD_shiftLeft, hRun, hRun,
      getLsbD_elementMask hSize]
    by_cases hElement : i < elementSize
    · by_cases hLow : i < elementSize - rotation
      · rw [Nat.mod_eq_of_lt (show i + rotation < elementSize by omega)]
        simp [hElement, hLow, Nat.add_comm]
      · rw [Nat.mod_eq_sub_mod (by omega), Nat.mod_eq_of_lt (by omega),
          show i - (elementSize - rotation) =
            i + rotation - elementSize by omega]
        simp only [hElement, hLow, hi, decide_true, decide_false,
          Bool.not_false, Bool.true_and, Bool.and_true, true_and]
        rw [decide_eq_false (by omega), Bool.false_or]
    · simp [hElement]

/-- The copies of an element, as far as they have been put in place. -/
theorem getLsbD_replicate_foldl (hElement : ∀ j, elementSize ≤ j →
      value.getLsbD j = false) (hi : i < 64) (copies : Nat) :
    ((List.range copies).foldl (fun replicated copy =>
        replicated ||| value <<< (copy * elementSize)) 0).getLsbD i =
      (decide (i < copies * elementSize) &&
        value.getLsbD (i % elementSize)) := by
  induction copies with
  | zero => simp
  | succ copies ih =>
      rw [List.range_succ, List.foldl_append, List.foldl_cons,
        List.foldl_nil, BitVec.getLsbD_or, ih, BitVec.getLsbD_shiftLeft,
        decide_eq_true hi, Bool.true_and, Nat.succ_mul]
      by_cases hBelow : i < copies * elementSize
      · simp [hBelow, Nat.lt_add_right elementSize hBelow]
      · rw [decide_eq_false hBelow, Bool.false_and, Bool.false_or,
          Bool.not_false, Bool.true_and]
        by_cases hIn : i < copies * elementSize + elementSize
        · have hRest : i % elementSize = i - copies * elementSize := by
            obtain ⟨rest, rfl⟩ :=
              Nat.exists_eq_add_of_le (Nat.not_lt.mp hBelow)
            rw [Nat.add_sub_cancel_left, Nat.mul_comm, Nat.mul_add_mod,
              Nat.mod_eq_of_lt (by omega)]
          rw [decide_eq_true hIn, Bool.true_and, hRest]
        · rw [decide_eq_false hIn, Bool.false_and]
          exact hElement _ (by omega)

theorem getLsbD_replicateElement (hSize : elementSize ∣ 64)
    (hElement : ∀ j, elementSize ≤ j → value.getLsbD j = false)
    (hi : i < 64) :
    (replicateElement elementSize value).getLsbD i =
      value.getLsbD (i % elementSize) := by
  rw [replicateElement, getLsbD_replicate_foldl hElement hi,
    Nat.div_mul_cancel hSize, decide_eq_true hi, Bool.true_and]

theorem getLsbD_and_elementMask (hSize : elementSize ≤ 64) (j : Nat) :
    (value &&& elementMask elementSize).getLsbD j =
      (decide (j < elementSize) && value.getLsbD j) := by
  rw [BitVec.getLsbD_and, getLsbD_elementMask hSize, Bool.and_comm]

/-- A mask is found where the element and the rotated run of ones agree. -/
theorem element_matches_iff (element : Element) :
    (replicateElement (2 ^ element.len)
        (immediate &&& elementMask (2 ^ element.len)) = immediate ∧
      rotatedOnes (2 ^ element.len) element.ones element.rotation =
        immediate &&& elementMask (2 ^ element.len)) ↔
      element.mask = immediate := by
  have hDvd : 2 ^ element.len ∣ 64 := pow_dvd_pow 2 element.len_le
  have hSize : 2 ^ element.len ≤ 64 := Nat.le_of_dvd (by decide) hDvd
  have hPos : 0 < 2 ^ element.len := Nat.two_pow_pos _
  have hOutside : ∀ j, 2 ^ element.len ≤ j →
      (immediate &&& elementMask (2 ^ element.len)).getLsbD j = false := by
    intro j hj
    rw [getLsbD_and_elementMask hSize, decide_eq_false (Nat.not_lt.mpr hj),
      Bool.false_and]
  constructor
  · rintro ⟨hReplicated, hRotated⟩
    refine BitVec.eq_of_getLsbD_eq fun i hi => ?_
    have hMod : i % 2 ^ element.len < 2 ^ element.len := Nat.mod_lt _ hPos
    rw [← hReplicated, getLsbD_replicateElement hDvd hOutside hi, ← hRotated,
      getLsbD_rotatedOnes hSize element.ones_lt element.rotation_lt
        (by omega), element.getLsbD_mask hi, Nat.mod_add_mod]
    simp only [hMod, true_and]
  · rintro rfl
    constructor
    · refine BitVec.eq_of_getLsbD_eq fun i hi => ?_
      have hMod : i % 2 ^ element.len < 2 ^ element.len := Nat.mod_lt _ hPos
      rw [getLsbD_replicateElement hDvd hOutside hi,
        getLsbD_and_elementMask hSize, decide_eq_true hMod, Bool.true_and,
        element.getLsbD_mask (by omega), element.getLsbD_mask hi,
        Nat.mod_add_mod]
    · refine BitVec.eq_of_getLsbD_eq fun i hi => ?_
      rw [getLsbD_rotatedOnes hSize element.ones_lt element.rotation_lt hi,
        getLsbD_and_elementMask hSize, element.getLsbD_mask hi,
        Bool.decide_and]

/-- The encoding is the one that the element has. -/
theorem logicalEncoding_eq (element : Element) :
    (logicalEncoding (2 ^ element.len) element.ones
      element.rotation).toNat = element.fields := by
  obtain ⟨len, ones, rotation, hPos, hLe, hOnes, hOnesLess, hRotation⟩ :=
    element
  have hImms : ∀ ones, ones < 2 ^ len → 0 < ones →
      ((-(BitVec.ofNat 32 (2 ^ len) * 2) ||| BitVec.ofNat 32 (ones - 1)) &&&
        0x3f).toNat = (2 ^ 7 - 2 * 2 ^ len) % 2 ^ 6 + (ones - 1) ∧
      (2 ^ 7 - 2 * 2 ^ len) % 2 ^ 6 + (ones - 1) < 2 ^ 6 := by
    clear hOnesLess hRotation
    interval_cases len <;> decide
  have hN : ((if 2 ^ len = 64 then 1 else 0 : BitVec 16) <<< 12).toNat =
      (if len = 6 then 1 else 0) * 2 ^ 12 := by
    clear hImms hOnesLess hRotation
    interval_cases len <;> rfl
  have hSmall : 2 ^ len ≤ 2 ^ 6 := Nat.pow_le_pow_right (by decide) hLe
  have hRotationSmall : rotation < 2 ^ 6 := hRotation.trans_le hSmall
  obtain ⟨hImmsEq, hImmsLess⟩ := hImms ones hOnesLess hOnes
  have hRotationEq : (BitVec.ofNat 16 rotation <<< 6).toNat =
      rotation * 2 ^ 6 := by
    rw [BitVec.toNat_shiftLeft, BitVec.toNat_ofNat, Nat.shiftLeft_eq]
    omega
  have hLow : (((-(BitVec.ofNat 32 (2 ^ len) * 2) |||
      BitVec.ofNat 32 (ones - 1)) &&& 0x3f).setWidth 16).toNat =
        (2 ^ 7 - 2 * 2 ^ len) % 2 ^ 6 + (ones - 1) := by
    rw [BitVec.toNat_setWidth, hImmsEq]
    omega
  have hHigh : ((if 2 ^ len = 64 then 1 else 0 : BitVec 16) <<< 12 |||
      BitVec.ofNat 16 rotation <<< 6).toNat =
        (if len = 6 then 1 else 0) * 2 ^ 12 + rotation * 2 ^ 6 := by
    rw [field_or (i := 12) (hN ▸ Nat.dvd_mul_left _ _) (by omega), hN,
      hRotationEq]
  rw [Element.fields, logicalEncoding]
  dsimp only
  rw [field_or (i := 6) (by omega) (by omega), hHigh, hLow]

/-- What is found in the elements of one size is made of an element. -/
theorem tryElementSize_sound {len : Nat} (hPos : 0 < len) (hLe : len ≤ 6)
    {code : BitVec 16}
    (h : tryElementSize immediate (2 ^ len) = some code) :
    ∃ element : Element, element.mask = immediate ∧
      code.toNat = element.fields := by
  unfold tryElementSize at h
  dsimp only at h
  split_ifs at h with hReplicated
  obtain ⟨oneBits, hOneBits, h⟩ := List.exists_of_findSome?_eq_some h
  obtain ⟨rotation, hRotation, h⟩ := List.exists_of_findSome?_eq_some h
  split_ifs at h with hRotated
  rw [List.mem_range'_1] at hOneBits
  rw [List.mem_range] at hRotation
  let element : Element := ⟨len, oneBits, rotation, hPos, hLe, hOneBits.1,
    by omega, hRotation⟩
  refine ⟨element, (element_matches_iff element).mp
    ⟨not_not.mp hReplicated, not_not.mp hRotated⟩, ?_⟩
  rw [← Option.some.inj h]
  exact logicalEncoding_eq element

/-- The constant that an element stands for is found among the elements of its
size. -/
theorem tryElementSize_complete (element : Element) :
    (tryElementSize element.mask (2 ^ element.len)).isSome = true := by
  obtain ⟨hReplicated, hRotated⟩ := (element_matches_iff element).mpr rfl
  have hOnes := element.ones_pos
  have hOnesLess := element.ones_lt
  unfold tryElementSize
  dsimp only
  rw [if_neg (not_not.mpr hReplicated), List.isSome_findSome?,
    List.any_eq_true]
  refine ⟨element.ones, List.mem_range'_1.mpr ⟨hOnes, by omega⟩, ?_⟩
  rw [List.isSome_findSome?, List.any_eq_true]
  refine ⟨element.rotation, List.mem_range.mpr element.rotation_lt, ?_⟩
  rw [if_neg (not_not.mpr hRotated)]
  rfl

/-- A rotated run of ones has a one and a zero. -/
theorem mask_ne (element : Element) :
    element.mask ≠ 0 ∧ element.mask ≠ BitVec.allOnes 64 := by
  obtain ⟨size, hSize⟩ : ∃ size, 2 ^ element.len = size := ⟨_, rfl⟩
  have hPos : 0 < size := hSize ▸ Nat.two_pow_pos _
  have hLe : size ≤ 64 :=
    hSize ▸ Nat.pow_le_pow_right (by decide) element.len_le
  have hRotation : element.rotation < size := hSize ▸ element.rotation_lt
  have hOnes := element.ones_pos
  have hOnesLess : element.ones < size := hSize ▸ element.ones_lt
  -- the bit that the rotation moves to an index of the run
  have hBit : ∀ index, index < size → element.mask.getLsbD
      ((index + (size - element.rotation)) % size) =
        decide (index < element.ones) := by
    intro index hIndex
    have hLess := Nat.mod_lt (index + (size - element.rotation)) hPos
    rw [element.getLsbD_mask (by omega), hSize, Nat.mod_add_mod,
      show index + (size - element.rotation) + element.rotation =
        index + size by omega, Nat.add_mod_right, Nat.mod_eq_of_lt hIndex]
  constructor
  · intro hZero
    have hOne := hBit 0 hPos
    rw [hZero, decide_eq_true hOnes] at hOne
    simp at hOne
  · intro hAll
    have hLast := hBit (size - 1) (by omega)
    have hLess := Nat.mod_lt (size - 1 + (size - element.rotation)) hPos
    rw [hAll, BitVec.getLsbD_allOnes,
      decide_eq_true (show _ < 64 by omega)] at hLast
    exact absurd (of_decide_eq_true hLast.symm) (by omega)

theorem exists_two_pow_of_mem {elementSize : Nat}
    (h : elementSize ∈ [2, 4, 8, 16, 32, 64]) :
    ∃ len, 0 < len ∧ len ≤ 6 ∧ elementSize = 2 ^ len := by
  simp only [List.mem_cons, List.not_mem_nil, or_false] at h
  rcases h with rfl | rfl | rfl | rfl | rfl | rfl
  · exact ⟨1, by decide, by decide, rfl⟩
  · exact ⟨2, by decide, by decide, rfl⟩
  · exact ⟨3, by decide, by decide, rfl⟩
  · exact ⟨4, by decide, by decide, rfl⟩
  · exact ⟨5, by decide, by decide, rfl⟩
  · exact ⟨6, by decide, by decide, rfl⟩

theorem mem_elementSizes {len : Nat} (hPos : 0 < len) (hLe : len ≤ 6) :
    2 ^ len ∈ [2, 4, 8, 16, 32, 64] := by
  interval_cases len <;> decide

/-- What is found stands for the constant. -/
theorem tryLogicalImmediate64_sound {code : BitVec 16}
    (h : tryLogicalImmediate64 immediate = some code) :
    code.toNat < 2 ^ 13 ∧ decodeBitMasks code.toNat = some immediate := by
  unfold tryLogicalImmediate64 at h
  split_ifs at h
  obtain ⟨elementSize, hMem, hFound⟩ := List.exists_of_findSome?_eq_some h
  obtain ⟨len, hPos, hLe, rfl⟩ := exists_two_pow_of_mem hMem
  obtain ⟨element, rfl, hCode⟩ := tryElementSize_sound hPos hLe hFound
  rw [hCode]
  exact ⟨element.fields_lt, decodeBitMasks_fields element⟩

/-- A mask is found exactly where there is one, and it stands for the
constant. -/
theorem tryLogicalImmediate64_spec (immediate : BitVec 64) :
    (∀ code, tryLogicalImmediate64 immediate = some code →
      code.toNat < 2 ^ 13 ∧ decodeBitMasks code.toNat = some immediate) ∧
    ((∃ code, tryLogicalImmediate64 immediate = some code) ↔
      ∃ code, code < 2 ^ 13 ∧ decodeBitMasks code = some immediate) := by
  refine ⟨fun code h => tryLogicalImmediate64_sound h, ?_, ?_⟩
  · rintro ⟨code, h⟩
    exact ⟨_, tryLogicalImmediate64_sound h⟩
  · intro h
    obtain ⟨element, rfl⟩ := (decodeBitMasks_eq_some_iff immediate).mp h
    obtain ⟨hZero, hAll⟩ := mask_ne element
    rw [tryLogicalImmediate64, if_neg (not_or.mpr ⟨hZero, hAll⟩),
      ← Option.isSome_iff_exists, List.isSome_findSome?, List.any_eq_true]
    exact ⟨_, mem_elementSizes element.len_pos element.len_le,
      tryElementSize_complete element⟩

end BitMasks

/-! ## Addresses of loads and stores -/

/-- The offset that the architecture reads from the field of a mode: a number
of accesses, or a signed number of bytes. -/
def LoadStoreAddressEncoding.offset (address : LoadStoreAddressEncoding)
    (accessBytes : Nat) : Int :=
  match address.mode with
  | .unsignedScaled => field address.bits 10 12 * accessBytes
  | .signedUnscaled => signedField 9 (field address.bits 12 9)

/-- The address has the base in its field, and nothing outside its fields. -/
structure LoadStoreAddressEncoding.Denotes
    (address : LoadStoreAddressEncoding) (base : XRegisterOrSP)
    (byteOffset : Int) (accessBytes : Nat) : Prop where
  base : field address.bits 5 5 = base.registerNumber
  offset : address.offset accessBytes = byteOffset
  low : field address.bits 0 5 = 0
  high : field address.bits 22 10 = 0
  middle : address.mode = .signedUnscaled → field address.bits 10 2 = 0

section LoadStore

variable {base : XRegisterOrSP} {byteOffset : Int} {accessBytes : Nat}

theorem XRegisterOrSP.toNat_encoding_shift (register : XRegisterOrSP) :
    (register.encoding <<< 5).toNat = register.registerNumber * 2 ^ 5 := by
  have hLess := register.lt
  rw [BitVec.toNat_shiftLeft, Nat.shiftLeft_eq, XRegisterOrSP.encoding,
    BitVec.toNat_ofNat]
  omega

theorem unsignedScaled_denotes {scaled : Nat} (hScaled : scaled < 2 ^ 12)
    (hOffset : byteOffset = scaled * accessBytes) :
    (⟨.unsignedScaled, BitVec.ofNat 32 scaled <<< 10 |||
      base.encoding <<< 5⟩ : LoadStoreAddressEncoding).Denotes base
        byteOffset accessBytes := by
  have hBase := base.lt
  have hShift : (BitVec.ofNat 32 scaled <<< 10).toNat = scaled * 2 ^ 10 := by
    rw [BitVec.toNat_shiftLeft, BitVec.toNat_ofNat, Nat.shiftLeft_eq]
    omega
  have hBits : (BitVec.ofNat 32 scaled <<< 10 |||
      base.encoding <<< 5).toNat =
        scaled * 2 ^ 10 + base.registerNumber * 2 ^ 5 := by
    rw [field_or (i := 10) (hShift ▸ Nat.dvd_mul_left _ _)
      (by rw [base.toNat_encoding_shift]; omega), hShift,
      base.toNat_encoding_shift]
  constructor
  · rw [field, hBits]
    omega
  · have hField : field (BitVec.ofNat 32 scaled <<< 10 |||
        base.encoding <<< 5) 10 12 = scaled := by
      rw [field, hBits]
      omega
    show (field _ 10 12 : Int) * accessBytes = byteOffset
    rw [hField, hOffset]
  · rw [field, hBits]
    omega
  · rw [field, hBits]
    omega
  · rintro ⟨⟩

theorem signedUnscaled_denotes {immediate : Word32}
    (hLess : immediate.toNat < 2 ^ 9)
    (hOffset : signedField 9 immediate.toNat = byteOffset) :
    (⟨.signedUnscaled, immediate <<< 12 ||| base.encoding <<< 5⟩ :
      LoadStoreAddressEncoding).Denotes base byteOffset accessBytes := by
  have hBase := base.lt
  have hShift : (immediate <<< 12).toNat = immediate.toNat * 2 ^ 12 := by
    rw [BitVec.toNat_shiftLeft, Nat.shiftLeft_eq]
    omega
  have hBits : (immediate <<< 12 ||| base.encoding <<< 5).toNat =
      immediate.toNat * 2 ^ 12 + base.registerNumber * 2 ^ 5 := by
    rw [field_or (i := 12) (hShift ▸ Nat.dvd_mul_left _ _)
      (by rw [base.toNat_encoding_shift]; omega), hShift,
      base.toNat_encoding_shift]
  constructor
  · rw [field, hBits]
    omega
  · have hField : field (immediate <<< 12 ||| base.encoding <<< 5) 12 9 =
        immediate.toNat := by
      rw [field, hBits]
      omega
    show signedField 9 (field _ 12 9) = byteOffset
    rw [hField, hOffset]
  · rw [field, hBits]
    omega
  · rw [field, hBits]
    omega
  · intro _
    rw [field, hBits]
    omega

theorem bounds_of_fits
    (h : fitsSignedScaledDisplacement byteOffset 9 0 = true) :
    -256 ≤ byteOffset ∧ byteOffset < 256 := by
  obtain ⟨units, hEq, hLow, hHigh⟩ :=
    (fitsSignedScaledDisplacement_iff_units _ _ _).mp h
  rw [Int.pow_zero, Int.one_mul] at hEq
  exact hEq ▸ ⟨hLow, hHigh⟩

/-- The address that is found denotes the offset. -/
theorem encodeLoadStoreAddress_sound {address : LoadStoreAddressEncoding}
    (h : encodeLoadStoreAddress base byteOffset accessBytes =
      some address) :
    address.Denotes base byteOffset accessBytes := by
  unfold encodeLoadStoreAddress at h
  obtain ⟨hAccess, h⟩ := check_bind_eq_some.mp h
  dsimp only at h
  split_ifs at h with hScaled
  · obtain ⟨hNonneg, hRest, hMaximum⟩ := hScaled
    obtain ⟨units, hUnits⟩ := Int.dvd_of_tmod_eq_zero hRest
    have hAccessPos : (0 : Int) < accessBytes := by omega
    have hUnitsNonneg : 0 ≤ units := by
      by_contra hNegative
      have hLess := Int.mul_neg_of_pos_of_neg hAccessPos
        (Int.not_le.mp hNegative)
      omega
    have hUnitsLe : units ≤ 4095 := by
      have hProduct : (accessBytes : Int) * units ≤ accessBytes * 4095 := by
        rw [← hUnits]
        omega
      exact Int.le_of_mul_le_mul_left hProduct hAccessPos
    obtain ⟨scaled, rfl⟩ := Int.eq_ofNat_of_zero_le hUnitsNonneg
    rw [hUnits, Int.mul_tdiv_cancel_left _ hAccessPos.ne',
      BitVec.ofInt_natCast] at h
    rw [← Option.some.inj h]
    exact unsignedScaled_denotes (by omega)
      (hUnits.trans (Int.mul_comm _ _))
  · obtain ⟨immediate, hImmediate, h⟩ := Option.bind_eq_some_iff.mp h
    have hFits := (check_bind_eq_some.mp hImmediate).1
    obtain ⟨hMin, hMax⟩ := bounds_of_fits hFits
    obtain ⟨immediate', hImmediate', hLess, hDecode⟩ :=
      signedImmediate_decodes (by decide) (by decide)
        (show -2 ^ 63 ≤ byteOffset by omega)
        (show byteOffset < 2 ^ 63 by omega) hFits
    obtain rfl := Option.some.inj (hImmediate'.symm.trans hImmediate)
    rw [decodeSignedScaledImmediate_eq (by decide) (by decide) hLess,
      Option.some.injEq, Int.pow_zero, Int.mul_one] at hDecode
    rw [← Option.some.inj h]
    exact signedUnscaled_denotes hLess hDecode

/-- An offset that an addressing mode can denote is not refused, for accesses
whose largest scaled offset is computed without overflow. -/
theorem encodeLoadStoreAddress_complete (hAccess : accessBytes ≠ 0)
    (hSmall : 4095 * accessBytes < 2 ^ 32)
    {address : LoadStoreAddressEncoding}
    (h : address.Denotes base byteOffset accessBytes) :
    ∃ address', encodeLoadStoreAddress base byteOffset accessBytes =
      some address' := by
  obtain ⟨⟨mode, bits⟩, hOffset⟩ : ∃ address : LoadStoreAddressEncoding,
    address.offset accessBytes = byteOffset := ⟨address, h.offset⟩
  have hMaximum : ((4095 * (accessBytes : Int)) % 2 ^ 32) =
      4095 * accessBytes := by
    rw [Int.emod_eq_of_lt (by omega) (by omega)]
  unfold encodeLoadStoreAddress
  rw [check_bind hAccess]
  dsimp only
  rw [hMaximum]
  split_ifs with hScaled
  · exact ⟨_, rfl⟩
  · cases mode with
    | unsignedScaled =>
        have hField : field bits 10 12 < 2 ^ 12 := Nat.mod_lt _ (by decide)
        have hEq : byteOffset = accessBytes * field bits 10 12 :=
          hOffset.symm.trans (Int.mul_comm _ _)
        refine absurd ⟨?_, ?_, ?_⟩ hScaled
        · rw [hEq]
          positivity
        · rw [hEq]
          exact Int.mul_tmod_right _ _
        · rw [hEq, Int.mul_comm]
          exact Int.mul_le_mul_of_nonneg_right (by omega) (by omega)
    | signedUnscaled =>
        have hField : field bits 12 9 < 2 ^ 9 := Nat.mod_lt _ (by decide)
        have hEq : signedField 9 (field bits 12 9) = byteOffset := hOffset
        have hRange : -256 ≤ byteOffset ∧ byteOffset < 256 := by
          unfold signedField at hEq
          split_ifs at hEq <;> omega
        have hFits : fitsSignedScaledDisplacement byteOffset 9 0 = true := by
          rw [fitsSignedScaledDisplacement_iff_units]
          exact ⟨byteOffset, by omega, hRange.1, hRange.2⟩
        obtain ⟨immediate, hRun, -, -⟩ := signedImmediate_decodes (by decide)
          (by decide) (show -2 ^ 63 ≤ byteOffset by omega)
          (show byteOffset < 2 ^ 63 by omega) hFits
        exact ⟨_, bind_of_eq_some hRun _⟩

end LoadStore

/-! ## Moves of a constant -/

section Mov

variable {destination : XRegister} {immediate : BitVec 64}

/-- The halfwords below `k` are in the register, or none of them is there
because all are zero. -/
def Loaded (destination : XRegister) (immediate : BitVec 64) (k : Nat)
    (emitted : Bool) (s : State) : Prop :=
  if emitted then
    (s.read destination.registerNumber).toNat =
      immediate.toNat % 2 ^ (16 * k)
  else immediate.toNat % 2 ^ (16 * k) = 0

/-- The words are moves that leave the constant in the register. -/
structure Loads (destination : XRegister) (immediate : BitVec 64)
    (words : List Word32) (s : State)
    (moves : List BranchCode.Instruction) : Prop where
  decodes : List.Forall₂ (fun word i => decode word = some i) words moves
  advances : ∀ i ∈ moves, ∀ s, (execute s i).pc = s.pc + 4
  value : (moves.foldl execute s).read destination.registerNumber = immediate
  others : ∀ r : Fin 31, r.val ≠ destination.registerNumber →
    (moves.foldl execute s).x r = s.x r
  flags : (moves.foldl execute s).flags = s.flags

/-- A move to the register, and nothing else. -/
structure WritesTo (destination : XRegister) (i : BranchCode.Instruction)
    (s : State) (value : BitVec 64) : Prop where
  advances : ∀ s, (execute s i).pc = s.pc + 4
  value : (execute s i).read destination.registerNumber = value
  others : ∀ r : Fin 31, r.val ≠ destination.registerNumber →
    (execute s i).x r = s.x r
  flags : (execute s i).flags = s.flags

theorem writesTo_movz (destination : XRegister) (hw imm : Nat) (s : State) :
    WritesTo destination (.movz destination.registerNumber hw imm) s
      (BitVec.ofNat 64 (imm * 2 ^ (16 * hw))) where
  advances s := by
    rw [execute, State.next, pc_goTo, pc_write]
  value := by
    rw [execute, State.next, goTo_write, read_write_self destination.lt]
  others r hne := by
    rw [execute, State.next, x_goTo, x_write_ne hne]
  flags := by
    rw [execute, State.next, flags_goTo, flags_write]

theorem writesTo_movk (destination : XRegister) (hw imm : Nat) (s : State) :
    WritesTo destination (.movk destination.registerNumber hw imm) s
      (replaceHalfword (s.read destination.registerNumber) hw imm) where
  advances s := by
    rw [execute, State.next, pc_goTo, pc_write]
  value := by
    rw [execute, State.next, goTo_write, read_write_self destination.lt]
  others r hne := by
    rw [execute, State.next, x_goTo, x_write_ne hne]
  flags := by
    rw [execute, State.next, flags_goTo, flags_write]

theorem Loads.cons {word : Word32} {words : List Word32} {s : State}
    {i : BranchCode.Instruction} {moves : List BranchCode.Instruction}
    {value : BitVec 64} (hDecode : decode word = some i)
    (hWrites : WritesTo destination i s value)
    (h : Loads destination immediate words (execute s i) moves) :
    Loads destination immediate (word :: words) s (i :: moves) where
  decodes := .cons hDecode h.decodes
  advances j hMem := by
    rcases List.mem_cons.mp hMem with rfl | hMem
    · exact hWrites.advances
    · exact h.advances j hMem
  value := h.value
  others r hne := (h.others r hne).trans (hWrites.others r hne)
  flags := h.flags.trans hWrites.flags

theorem loads_nil {s : State} (h : Loaded destination immediate 4 true s) :
    Loads destination immediate [] s [] where
  decodes := .nil
  advances i hMem := by cases hMem
  value := by
    refine BitVec.eq_of_toNat_eq ?_
    rw [List.foldl_nil]
    exact h.trans (Nat.mod_eq_of_lt immediate.isLt)
  others r _ := rfl
  flags := rfl

/-- The halfword at `k` goes in over those below. -/
theorem loaded_succ_true {k : Nat} {emitted : Bool} {s s' : State}
    (h : Loaded destination immediate k emitted s) (hk : k < 4)
    (hValue : s'.read destination.registerNumber =
      if emitted then replaceHalfword (s.read destination.registerNumber) k
        (immediate.toNat / 2 ^ (16 * k) % 2 ^ 16)
      else BitVec.ofNat 64
        (immediate.toNat / 2 ^ (16 * k) % 2 ^ 16 * 2 ^ (16 * k))) :
    Loaded destination immediate (k + 1) true s' := by
  have hSplit : immediate.toNat % 2 ^ (16 * (k + 1)) =
      immediate.toNat % 2 ^ (16 * k) +
        immediate.toNat / 2 ^ (16 * k) % 2 ^ 16 * 2 ^ (16 * k) := by
    rw [Nat.mul_succ, Nat.pow_add, Nat.mod_mul, Nat.mul_comm (2 ^ (16 * k))]
  have hBound : immediate.toNat % 2 ^ (16 * (k + 1)) < 2 ^ 64 :=
    (Nat.mod_lt _ (Nat.two_pow_pos _)).trans_le
      (Nat.pow_le_pow_right (by decide) (by omega))
  rw [Loaded, if_pos rfl, hValue]
  cases emitted with
  | false =>
      rw [Loaded, if_neg Bool.false_ne_true] at h
      rw [h, Nat.zero_add] at hSplit
      rw [if_neg Bool.false_ne_true, BitVec.toNat_ofNat, ← hSplit]
      exact Nat.mod_eq_of_lt hBound
  | true =>
      rw [Loaded, if_pos rfl] at h
      have hLow : immediate.toNat % 2 ^ (16 * k) < 2 ^ (16 * k) :=
        Nat.mod_lt _ (Nat.two_pow_pos _)
      have hHigh : immediate.toNat % 2 ^ (16 * k) / 2 ^ (16 * (k + 1)) = 0 :=
        Nat.div_eq_of_lt (hLow.trans_le
          (Nat.pow_le_pow_right (by decide) (by omega)))
      rw [if_pos rfl, replaceHalfword, h, BitVec.toNat_ofNat, hHigh,
        Nat.zero_mul, Nat.zero_add, Nat.mod_mod, Nat.add_comm, ← hSplit]
      exact Nat.mod_eq_of_lt hBound

/-- A halfword that is zero is there already. -/
theorem loaded_succ_of_zero {k : Nat} {emitted : Bool} {s : State}
    (h : Loaded destination immediate k emitted s)
    (hZero : immediate.toNat / 2 ^ (16 * k) % 2 ^ 16 = 0) :
    Loaded destination immediate (k + 1) emitted s := by
  have hSame : immediate.toNat % 2 ^ (16 * (k + 1)) =
      immediate.toNat % 2 ^ (16 * k) := by
    rw [Nat.mul_succ, Nat.pow_add, Nat.mod_mul, hZero, Nat.mul_zero,
      Nat.add_zero]
  rw [Loaded, hSame]
  exact h

/-- The moves from one halfword on, by those from the next on. -/
theorem emitMovHalfwords_step {k : Nat} (hk : k < 4)
    {halfword : MoveWideHalfword} (hIndex : halfword.index = k)
    {halfwords : List MoveWideHalfword}
    (ih : ∀ emitted s, Loaded destination immediate (k + 1) emitted s →
      ∃ moves, Loads destination immediate
        (emitMovHalfwords destination immediate halfwords emitted) s moves)
    (emitted : Bool) (s : State)
    (h : Loaded destination immediate k emitted s) :
    ∃ moves, Loads destination immediate
      (emitMovHalfwords destination immediate (halfword :: halfwords)
        emitted) s moves := by
  have hPart : ((immediate >>> (16 * halfword.index)).setWidth 16 :
      BitVec 16).toNat = immediate.toNat / 2 ^ (16 * k) % 2 ^ 16 := by
    rw [BitVec.toNat_setWidth, BitVec.toNat_ushiftRight,
      Nat.shiftRight_eq_div_pow, hIndex]
  rw [emitMovHalfwords]
  split_ifs with hZero hEmitted
  · rw [hZero] at hPart
    exact ih emitted s (loaded_succ_of_zero h hPart.symm)
  · subst hEmitted
    have hWrites := writesTo_movk destination k
      (immediate.toNat / 2 ^ (16 * k) % 2 ^ 16) s
    obtain ⟨moves, hMoves⟩ := ih true _ (loaded_succ_true h hk hWrites.value)
    refine ⟨_, hMoves.cons ?_ hWrites⟩
    rw [decode_movk, hPart, hIndex]
  · have hNone : emitted = false := by simpa using hEmitted
    subst hNone
    have hWrites := writesTo_movz destination k
      (immediate.toNat / 2 ^ (16 * k) % 2 ^ 16) s
    obtain ⟨moves, hMoves⟩ := ih true _ (loaded_succ_true h hk hWrites.value)
    refine ⟨_, hMoves.cons ?_ hWrites⟩
    rw [decode_movz, hPart, hIndex]

/-- The moves of a constant, one after the other. -/
theorem emitMov_loads (destination : XRegister) (immediate : BitVec 64)
    (s : State) :
    ∃ moves, Loads destination immediate (emitMov destination immediate) s
      moves := by
  have hEnd : ∀ emitted s, Loaded destination immediate 4 emitted s →
      ∃ moves, Loads destination immediate
        (emitMovHalfwords destination immediate [] emitted) s moves := by
    intro emitted s h
    cases emitted with
    | true => exact ⟨[], loads_nil h⟩
    | false =>
        rw [Loaded, if_neg Bool.false_ne_true,
          Nat.mod_eq_of_lt immediate.isLt] at h
        have hWrites := writesTo_movz destination 0 0 s
        have hLoaded : Loaded destination immediate 4 true
            (execute s (.movz destination.registerNumber 0 0)) := by
          rw [Loaded, if_pos rfl, hWrites.value,
            Nat.mod_eq_of_lt immediate.isLt, h]
          rfl
        have hDecode : decode (emitMoveWideImm16 .movz destination 0
            .bits0) = some (.movz destination.registerNumber 0 0) :=
          decode_movz destination 0 .bits0
        exact ⟨_, (loads_nil hLoaded).cons hDecode hWrites⟩
  have h48 : ∀ emitted s, Loaded destination immediate 3 emitted s →
      ∃ moves, Loads destination immediate
        (emitMovHalfwords destination immediate [.bits48] emitted) s moves :=
    emitMovHalfwords_step (k := 3) (by decide) rfl hEnd
  have h32 : ∀ emitted s, Loaded destination immediate 2 emitted s →
      ∃ moves, Loads destination immediate
        (emitMovHalfwords destination immediate [.bits32, .bits48] emitted) s
          moves :=
    emitMovHalfwords_step (k := 2) (by decide) rfl h48
  have h16 : ∀ emitted s, Loaded destination immediate 1 emitted s →
      ∃ moves, Loads destination immediate
        (emitMovHalfwords destination immediate [.bits16, .bits32, .bits48]
          emitted) s moves :=
    emitMovHalfwords_step (k := 1) (by decide) rfl h32
  have hStart : Loaded destination immediate 0 false s := by
    rw [Loaded, if_neg Bool.false_ne_true]
    exact Nat.mod_one _
  exact emitMovHalfwords_step (k := 0) (by decide) rfl h16 false s hStart

/-- A machine that runs the moves has the constant in the register, and goes
on behind them with all else as it was. -/
theorem emitMov_leaves (destination : XRegister) (immediate : BitVec 64)
    {memory : BitVec 64 → Byte} {s : State}
    (hMemory : Holds memory s.pc
      (codeBytes (emitMov destination immediate))) :
    ∃ s', run memory (emitMov destination immediate).length s = some s' ∧
      s'.read destination.registerNumber = immediate ∧
      s'.pc = s.pc +
        BitVec.ofNat 64 (4 * (emitMov destination immediate).length) ∧
      s'.flags = s.flags ∧
      ∀ r : Fin 31, r.val ≠ destination.registerNumber →
        s'.x r = s.x r := by
  obtain ⟨moves, hMoves⟩ := emitMov_loads destination immediate s
  have hRun := run_of_holds hMoves.decodes s hMemory
    fun i hMem => hMoves.advances i (List.dropLast_subset _ hMem)
  have hPc : ∀ (moves : List BranchCode.Instruction) (s : State),
      (∀ i ∈ moves, ∀ s, (execute s i).pc = s.pc + 4) →
        (moves.foldl execute s).pc =
          s.pc + BitVec.ofNat 64 (4 * moves.length) := by
    intro moves
    induction moves with
    | nil =>
        intro s _
        exact (BitVec.add_zero s.pc).symm
    | cons i moves ih =>
        intro s hAdvances
        rw [List.foldl_cons, ih _ fun j hMem =>
          hAdvances j (List.mem_cons_of_mem _ hMem),
          hAdvances i List.mem_cons_self, List.length_cons, BitVec.add_assoc,
          show 4 * (moves.length + 1) = 4 + 4 * moves.length by omega,
          BitVec.ofNat_add]
        rfl
  rw [hMoves.decodes.length_eq]
  exact ⟨_, hRun, hMoves.value, hPc moves s hMoves.advances, hMoves.flags,
    hMoves.others⟩

end Mov

/-- What the encoders put into an instruction reads back: a bit mask where the
architecture has one, the constant of a sequence of moves, the offset of an
address, and a signed immediate where the displacement can be represented. -/
theorem immediate_encoders :
    (∀ immediate : BitVec 64,
      (∀ code, tryLogicalImmediate64 immediate = some code →
        code.toNat < 2 ^ 13 ∧
          decodeBitMasks code.toNat = some immediate) ∧
      ((∃ code, tryLogicalImmediate64 immediate = some code) ↔
        ∃ code, code < 2 ^ 13 ∧ decodeBitMasks code = some immediate)) ∧
    (∀ (destination : XRegister) (immediate : BitVec 64)
      (memory : BitVec 64 → Byte) (s : State),
      Holds memory s.pc (codeBytes (emitMov destination immediate)) →
      ∃ s', run memory (emitMov destination immediate).length s = some s' ∧
        s'.read destination.registerNumber = immediate ∧
        s'.pc = s.pc +
          BitVec.ofNat 64 (4 * (emitMov destination immediate).length) ∧
        s'.flags = s.flags ∧
        ∀ r : Fin 31, r.val ≠ destination.registerNumber →
          s'.x r = s.x r) ∧
    (∀ (base : XRegisterOrSP) (byteOffset : Int) (accessBytes : Nat),
      (∀ address, encodeLoadStoreAddress base byteOffset accessBytes =
        some address → address.Denotes base byteOffset accessBytes) ∧
      (accessBytes ≠ 0 → 4095 * accessBytes < 2 ^ 32 →
        ((∃ address, encodeLoadStoreAddress base byteOffset accessBytes =
          some address) ↔
            ∃ address : LoadStoreAddressEncoding,
              address.Denotes base byteOffset accessBytes))) ∧
    (∀ (displacement : Int) (bits scale : Nat), 0 < bits → bits < 32 →
      -2 ^ 63 ≤ displacement → displacement < 2 ^ 63 →
      (fitsSignedScaledDisplacement displacement bits scale = true ↔
        ∃ immediate, decodeSignedScaledImmediate immediate bits scale =
          some displacement) ∧
      (fitsSignedScaledDisplacement displacement bits scale = true →
        ∃ immediate, signedImmediate displacement bits scale =
            some immediate ∧
          decodeSignedScaledImmediate immediate bits scale =
            some displacement)) := by
  refine ⟨tryLogicalImmediate64_spec, ?_, ?_, ?_⟩
  · intro destination immediate memory s hMemory
    exact emitMov_leaves destination immediate hMemory
  · intro base byteOffset accessBytes
    refine ⟨fun address h => encodeLoadStoreAddress_sound h, ?_⟩
    intro hAccess hSmall
    constructor
    · rintro ⟨address, h⟩
      exact ⟨address, encodeLoadStoreAddress_sound h⟩
    · rintro ⟨address, h⟩
      exact encodeLoadStoreAddress_complete hAccess hSmall h
  · intro displacement bits scale hBits hWord hMin hMax
    refine ⟨fitsSignedScaledDisplacement_iff_decodes hBits hWord, ?_⟩
    intro hFits
    obtain ⟨immediate, hRun, -, hDecode⟩ :=
      signedImmediate_decodes hBits hWord hMin hMax hFits
    exact ⟨immediate, hRun, hDecode⟩

/-- The mask of the low bits of each byte, and the displacement of a backward
branch. -/
theorem immediate_encoders_sample :
    (∃ code, tryLogicalImmediate64 0x0101010101010101#64 = some code) ∧
      ∃ immediate, signedImmediate (-8) 19 2 = some immediate ∧
        decodeSignedScaledImmediate immediate 19 2 = some (-8) := by
  obtain ⟨hMask, -, -, hSigned⟩ := immediate_encoders
  exact ⟨(hMask 0x0101010101010101#64).2.mpr
      ⟨0b0000000110000, by decide, by decide⟩,
    (hSigned (-8) 19 2 (by decide) (by decide) (by decide) (by decide)).2
      (by decide)⟩

end CloverVM.Jit
