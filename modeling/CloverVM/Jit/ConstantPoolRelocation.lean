import CloverVM.Jit.BranchEncoding
import CloverVM.Jit.ConstantPool

/-!
# Relocated instructions

What a relocation makes of an instruction that was emitted with an immediate
of zero: the bits outside the immediate stay, and the instruction that is
decoded reaches the address it is for.
-/

namespace CloverVM.Jit

open CloverVM.Machine CloverVM.Machine.BranchCode CloverVM.Machine.AddressCode

section Patches

variable {instruction mask part immediate : Word32} {i : Nat}

theorem getLsbD_patch_of_not (hi : i < 32) (hMask : mask.getLsbD i = false)
    (hPart : part.getLsbD i = false) :
    (instruction &&& ~~~mask ||| part).getLsbD i = instruction.getLsbD i := by
  rw [BitVec.getLsbD_or, BitVec.getLsbD_and, BitVec.getLsbD_not, hMask, hPart,
    decide_eq_true hi, Bool.not_false, Bool.and_true, Bool.and_true,
    Bool.or_false]

theorem getLsbD_patch (hMask : mask.getLsbD i = true) :
    (instruction &&& ~~~mask ||| part).getLsbD i = part.getLsbD i := by
  rw [BitVec.getLsbD_or, BitVec.getLsbD_and, BitVec.getLsbD_not, hMask,
    Bool.not_true, Bool.and_false, Bool.and_false, Bool.false_or]

/-- Outside the mask nothing is changed. -/
theorem patch_and_not (hPart : part &&& ~~~mask = 0) :
    (instruction &&& ~~~mask ||| part) &&& ~~~mask =
      instruction &&& ~~~mask := by
  refine BitVec.eq_of_getLsbD_eq fun j hj => ?_
  have hBit := congrArg (fun word => word.getLsbD j) hPart
  simp only [BitVec.getLsbD_and, BitVec.getLsbD_not] at hBit
  simp only [BitVec.getLsbD_and, BitVec.getLsbD_not, BitVec.getLsbD_or]
  cases hMask : mask.getLsbD j <;> cases hOld : part.getLsbD j <;>
    simp_all

theorem getLsbD_of_lt {length : Nat} (h : immediate.toNat < 2 ^ length)
    (hi : length ≤ i) : immediate.getLsbD i = false :=
  Nat.testBit_lt_two_pow (h.trans_le (Nat.pow_le_pow_right (by decide) hi))

/-- A field that is moved to its place. -/
theorem getLsbD_shifted {low length : Nat} (h : immediate.toNat < 2 ^ length)
    (hi : i < 32) :
    (immediate <<< low).getLsbD i =
      (decide (low ≤ i ∧ i < low + length) &&
        immediate.getLsbD (i - low)) := by
  rw [BitVec.getLsbD_shiftLeft, decide_eq_true hi, Bool.true_and]
  by_cases hLow : i < low
  · simp [hLow, Nat.not_le.mpr hLow]
  · by_cases hHigh : i < low + length
    · simp [hLow, Nat.not_lt.mp hLow, hHigh]
    · rw [getLsbD_of_lt h (by omega)]
      simp

end Patches

/-! ## The emitted instructions -/

namespace AArch64RelocationKind

/-- What is emitted for a register, to be relocated. -/
def emittedWord (kind : AArch64RelocationKind) (register : Nat) : Word32 :=
  match kind with
  | pcRelative19Scaled4 => (0x58000000 : Word32) ||| BitVec.ofNat 32 register
  | pcRelative21 => (0x10000000 : Word32) ||| BitVec.ofNat 32 register
  | pageRelative21 => (0x90000000 : Word32) ||| BitVec.ofNat 32 register
  | pageOffset12 =>
      (0x91000000 : Word32) ||| BitVec.ofNat 32 register <<< 5 |||
        BitVec.ofNat 32 register
  | pageOffset12Scaled8 =>
      (0xf9400000 : Word32) ||| BitVec.ofNat 32 register <<< 5 |||
        BitVec.ofNat 32 register

/-- The fields that no relocation touches, where they are read. -/
theorem field_emittedWord (register : Fin 31) :
    field (pcRelative19Scaled4.emittedWord register) 24 8 = 0b01011000 ∧
    field (pcRelative19Scaled4.emittedWord register) 0 5 = register ∧
    (field (pcRelative21.emittedWord register) 24 5 = 0b10000 ∧
      field (pcRelative21.emittedWord register) 31 1 = 0 ∧
      field (pcRelative21.emittedWord register) 0 5 = register) ∧
    (field (pageRelative21.emittedWord register) 24 5 = 0b10000 ∧
      field (pageRelative21.emittedWord register) 31 1 = 1 ∧
      field (pageRelative21.emittedWord register) 0 5 = register) ∧
    (field (pageOffset12.emittedWord register) 22 10 = 0b1001000100 ∧
      field (pageOffset12.emittedWord register) 5 5 = register ∧
      field (pageOffset12.emittedWord register) 0 5 = register) ∧
    (field (pageOffset12Scaled8.emittedWord register) 22 10 = 0b1111100101 ∧
      field (pageOffset12Scaled8.emittedWord register) 5 5 = register ∧
      field (pageOffset12Scaled8.emittedWord register) 0 5 = register) := by
  revert register
  decide

/-- The immediates are zero. -/
theorem emittedWord_and_mask (kind : AArch64RelocationKind)
    (register : Fin 31) :
    kind.emittedWord register &&& kind.immediateMask = 0 ∧
      (kind = pcRelative21 ∨ kind = pageRelative21 →
        encodedAddend (kind.emittedWord register) = 0) := by
  revert register
  cases kind <;> decide

theorem getLsbD_immediateMask (kind : AArch64RelocationKind) :
    ∀ i < 32, kind.immediateMask.getLsbD i = match kind with
      | pcRelative19Scaled4 => decide (5 ≤ i ∧ i < 24)
      | pcRelative21 | pageRelative21 =>
          decide (29 ≤ i ∧ i < 31 ∨ 5 ≤ i ∧ i < 24)
      | pageOffset12 | pageOffset12Scaled8 => decide (10 ≤ i ∧ i < 22) := by
  cases kind <;> decide

/-- A part that is inside the immediate leaves the other fields alone. -/
theorem field_outside {kind : AArch64RelocationKind} {instruction part : Word32}
    (hPart : part &&& ~~~kind.immediateMask = 0) {low length : Nat}
    (hOutside : ∀ i, low ≤ i → i < low + length →
      i < 32 ∧ kind.immediateMask.getLsbD i = false) :
    field (instruction &&& ~~~kind.immediateMask ||| part) low length =
      field instruction low length := by
  refine field_congr fun i hLow hHigh => ?_
  obtain ⟨hi, hMask⟩ := hOutside i hLow hHigh
  refine getLsbD_patch_of_not hi hMask ?_
  have hBit := congrArg (fun word => word.getLsbD i) hPart
  simp only [BitVec.getLsbD_and, BitVec.getLsbD_not, hMask,
    decide_eq_true hi, Bool.not_false, Bool.and_true] at hBit
  exact hBit.trans (BitVec.getLsbD_zero ..)

/-- A field in one piece, moved into the immediate of a kind. -/
theorem shifted_inside {kind : AArch64RelocationKind} {immediate : Word32}
    {low length : Nat} (hImmediate : immediate.toNat < 2 ^ length)
    (hMask : ∀ i < 32, kind.immediateMask.getLsbD i =
      decide (low ≤ i ∧ i < low + length)) :
    immediate <<< low &&& ~~~kind.immediateMask = 0 := by
  refine BitVec.eq_of_getLsbD_eq fun i hi => ?_
  rw [BitVec.getLsbD_and, BitVec.getLsbD_not, hMask i hi,
    getLsbD_shifted hImmediate hi]
  cases decide (low ≤ i ∧ i < low + length) <;> simp

theorem field_shifted {kind : AArch64RelocationKind}
    {instruction immediate : Word32} {low length : Nat}
    (hImmediate : immediate.toNat < 2 ^ length) (hWord : low + length ≤ 32)
    (hMask : ∀ i < 32, kind.immediateMask.getLsbD i =
      decide (low ≤ i ∧ i < low + length)) :
    field (instruction &&& ~~~kind.immediateMask ||| immediate <<< low) low
      length = immediate.toNat := by
  refine field_eq_of_shifted (fun i hi => ?_) hImmediate
  have hIn : low ≤ low + i ∧ low + i < low + length := by omega
  rw [getLsbD_patch (by rw [hMask _ (by omega)]; exact decide_eq_true hIn),
    getLsbD_shifted hImmediate (by omega), decide_eq_true hIn, Bool.true_and,
    Nat.add_sub_cancel_left]

section Split

variable {immediate instruction : Word32}

theorem toNat_and_three (immediate : Word32) :
    (immediate &&& 3).toNat = immediate.toNat % 2 ^ 2 := by
  rw [BitVec.toNat_and]
  exact Nat.and_two_pow_sub_one_eq_mod _ 2

theorem toNat_shiftRight_two (immediate : Word32) :
    (immediate >>> 2).toNat = immediate.toNat / 2 ^ 2 := by
  rw [BitVec.toNat_ushiftRight, Nat.shiftRight_eq_div_pow]

/-- The bits of an immediate that is split. -/
theorem getLsbD_splitImmediate (h : immediate.toNat < 2 ^ 21) {i : Nat}
    (hi : i < 32) :
    (splitImmediate immediate).getLsbD i =
      (decide (29 ≤ i ∧ i < 31) && (immediate &&& 3).getLsbD (i - 29) ||
        decide (5 ≤ i ∧ i < 24) && (immediate >>> 2).getLsbD (i - 5)) := by
  have hLow : (immediate &&& 3).toNat < 2 ^ 2 := by
    rw [toNat_and_three]
    exact Nat.mod_lt _ (by decide)
  have hHigh : (immediate >>> 2).toNat < 2 ^ 19 := by
    rw [toNat_shiftRight_two]
    omega
  rw [splitImmediate, BitVec.getLsbD_or, getLsbD_shifted hLow hi,
    getLsbD_shifted hHigh hi]

theorem split_inside {kind : AArch64RelocationKind}
    (hKind : kind = pcRelative21 ∨ kind = pageRelative21)
    (h : immediate.toNat < 2 ^ 21) :
    splitImmediate immediate &&& ~~~kind.immediateMask = 0 := by
  refine BitVec.eq_of_getLsbD_eq fun i hi => ?_
  rw [BitVec.getLsbD_and, BitVec.getLsbD_not, getLsbD_splitImmediate h hi,
    getLsbD_immediateMask kind i hi]
  rcases hKind with rfl | rfl <;>
    by_cases hHigh : 29 ≤ i ∧ i < 31 <;> by_cases hLow : 5 ≤ i ∧ i < 24 <;>
      simp [hHigh, hLow, hi]

/-- The two fields put together are the immediate. -/
theorem field_split {kind : AArch64RelocationKind}
    (hKind : kind = pcRelative21 ∨ kind = pageRelative21)
    (h : immediate.toNat < 2 ^ 21) :
    let word := instruction &&& ~~~kind.immediateMask |||
      splitImmediate immediate
    field word 5 19 * 4 + field word 29 2 = immediate.toNat := by
  intro word
  have hMask : ∀ i < 32, 29 ≤ i ∧ i < 31 ∨ 5 ≤ i ∧ i < 24 →
      kind.immediateMask.getLsbD i = true := by
    intro i hi hIn
    rw [getLsbD_immediateMask kind i hi]
    rcases hKind with rfl | rfl <;> exact decide_eq_true hIn
  have hHigh : field word 5 19 = (immediate >>> 2).toNat := by
    refine field_eq_of_shifted (fun i hi => ?_) ?_
    · rw [getLsbD_patch (hMask _ (by omega) (by omega)),
        getLsbD_splitImmediate h (by omega), decide_eq_false (by omega),
        decide_eq_true (by omega), Nat.add_sub_cancel_left]
      simp
    · rw [toNat_shiftRight_two]
      omega
  have hLow : field word 29 2 = (immediate &&& 3).toNat := by
    refine field_eq_of_shifted (fun i hi => ?_) ?_
    · rw [getLsbD_patch (hMask _ (by omega) (by omega)),
        getLsbD_splitImmediate h (by omega), decide_eq_true (by omega),
        decide_eq_false (by omega), Nat.add_sub_cancel_left]
      simp
    · rw [toNat_and_three]
      exact Nat.mod_lt _ (by decide)
  rw [hHigh, hLow, toNat_shiftRight_two, toNat_and_three]
  omega

end Split

/-! ## The five kinds -/

section Kinds

variable {pc target : MachineAddress} {displacement units : Int}
variable {register : Fin 31}

/-- What a relocation leaves of an instruction outside its immediate, and what
it makes of it. -/
def Relocates (kind : AArch64RelocationKind) (instruction : Word32)
    (pc target : MachineAddress) (decoded : AddressCode.Instruction) : Prop :=
  ∃ word, kind.apply instruction pc target = some word ∧
    AddressCode.decode word = some decoded ∧
    word &&& ~~~kind.immediateMask = instruction &&& ~~~kind.immediateMask

theorem decodeSignedScaledImmediate_zero (scale : Nat) {bits : Nat}
    (hBits : 0 < bits) (hWord : bits < 32) :
    decodeSignedScaledImmediate 0 bits scale = some 0 := by
  have hZero : (0 : Word32).toNat = 0 := rfl
  rw [decodeSignedScaledImmediate_eq hBits hWord
    (by rw [hZero]; positivity), hZero, signedField,
    if_pos (by positivity)]
  rw [Nat.cast_zero, Int.zero_mul]

/-- An immediate of a number of units, put in place. -/
theorem exists_signedImmediate {bits scale : Nat} (hBits : 0 < bits)
    (hWord : bits < 32) (hScale : bits + scale ≤ 64)
    (hEq : displacement = 2 ^ scale * units) (hLow : -2 ^ (bits - 1) ≤ units)
    (hHigh : units < 2 ^ (bits - 1)) :
    -2 ^ 63 ≤ displacement ∧ displacement < 2 ^ 63 ∧
    ∃ immediate, signedImmediate displacement bits scale = some immediate ∧
      immediate.toNat < 2 ^ bits ∧
      signedField bits immediate.toNat = units := by
  have hPow : (2 : Int) ^ scale * 2 ^ (bits - 1) ≤ 2 ^ 63 := by
    rw [← pow_add]
    exact pow_le_pow_right₀ (by decide) (by omega)
  have hPos : (0 : Int) < 2 ^ scale := by positivity
  have hMin : -2 ^ 63 ≤ displacement := by
    rw [hEq]
    have := mul_le_mul_of_nonneg_left hLow hPos.le
    linarith
  have hMax : displacement < 2 ^ 63 := by
    rw [hEq]
    have := mul_lt_mul_of_pos_left hHigh hPos
    linarith
  obtain ⟨immediate, hRun, hValue⟩ := signedImmediate_units hWord.le hMin hMax
    hEq hLow hHigh
  have hModulus : (0 : Int) < 2 ^ bits := by positivity
  refine ⟨hMin, hMax, immediate, hRun, ?_, ?_⟩
  · rw [hValue, Int.toNat_lt (Int.emod_nonneg _ hModulus.ne')]
    push_cast
    exact Int.emod_lt_of_pos _ hModulus
  · rw [hValue, signedField_emod hBits hLow hHigh]

theorem apply_pcRelative19Scaled4
    (hDistance : (target.bits.toNat : Int) - pc.bits.toNat = displacement)
    (hEq : displacement = 2 ^ 2 * units) (hLow : -2 ^ 18 ≤ units)
    (hHigh : units < 2 ^ 18) :
    pcRelative19Scaled4.Relocates (pcRelative19Scaled4.emittedWord register)
      pc target (.ldrLiteral register (units * 4)) := by
  obtain ⟨hMin, hMax, immediate, hRun, hLess, hValue⟩ :=
    @exists_signedImmediate _ _ 19 2 (by decide) (by decide) (by decide) hEq
      hLow hHigh
  have hAddress := displacementTo_eq hDistance (by omega) hMax
  have hMask := getLsbD_immediateMask pcRelative19Scaled4
  have hInside := @shifted_inside _ _ 5 _ hLess hMask
  obtain ⟨hTop, hRegister, -⟩ := field_emittedWord register
  refine ⟨_, ?_, ?_, patch_and_not hInside⟩
  · unfold apply
    dsimp only
    rw [(emittedWord_and_mask pcRelative19Scaled4 register).left,
      show (0 : Word32) >>> 5 = 0 from rfl,
      bind_of_eq_some (decodeSignedScaledImmediate_zero 2 (by decide)
        (by decide)), bind_of_eq_some hAddress, Int.zero_add,
      bind_of_eq_some (int64_eq_some ⟨hMin, hMax⟩), bind_of_eq_some hRun]
    rfl
  · have hOutside : ∀ low length, (low = 24 ∧ length = 8 ∨
        low = 0 ∧ length = 5) → ∀ i, low ≤ i → i < low + length →
          i < 32 ∧ pcRelative19Scaled4.immediateMask.getLsbD i = false := by
      intro low length hField i hi hEnd
      refine ⟨by omega, (hMask i (by omega)).trans (decide_eq_false ?_)⟩
      omega
    rw [AddressCode.decode,
      if_pos ((field_outside hInside (hOutside 24 8 (by decide))).trans hTop),
      field_outside hInside (hOutside 0 5 (by decide)), hRegister,
      field_shifted hLess (by decide) hMask, hValue]

/-- The two kinds with an immediate in two pieces differ in one bit. -/
theorem decode_split {kind : AArch64RelocationKind}
    (hKind : kind = pcRelative21 ∨ kind = pageRelative21) {immediate : Word32}
    (h : immediate.toNat < 2 ^ 21) :
    AddressCode.decode (kind.emittedWord register &&& ~~~kind.immediateMask |||
        splitImmediate immediate) =
      some (if kind = pcRelative21 then
          .adr register (signedField 21 immediate.toNat)
        else .adrp register (signedField 21 immediate.toNat)) := by
  have hInside := split_inside hKind h
  have hOutside : ∀ low length, (low = 24 ∧ length = 5 ∨
      low = 31 ∧ length = 1 ∨ low = 0 ∧ length = 5) → ∀ i, low ≤ i →
        i < low + length → i < 32 ∧ kind.immediateMask.getLsbD i = false := by
    intro low length hField i hi hEnd
    refine ⟨by omega, (getLsbD_immediateMask kind i (by omega)).trans ?_⟩
    rcases hKind with rfl | rfl <;> exact decide_eq_false (by omega)
  obtain ⟨-, -, ⟨hNear, hNearOp, hNearRegister⟩,
    ⟨hPage, hPageOp, hPageRegister⟩, -⟩ := field_emittedWord register
  have hValue := @field_split immediate (kind.emittedWord register) _ hKind h
  generalize hWord : kind.emittedWord register &&& ~~~kind.immediateMask |||
    splitImmediate immediate = word at hValue ⊢
  have hKept : ∀ low length, (low = 24 ∧ length = 5 ∨
      low = 31 ∧ length = 1 ∨ low = 0 ∧ length = 5) →
        field word low length = field (kind.emittedWord register) low length :=
    fun low length hField =>
      hWord ▸ field_outside hInside (hOutside low length hField)
  have hMiddle : field word 24 5 = 0b10000 := by
    rw [hKept 24 5 (by decide)]
    rcases hKind with rfl | rfl
    · exact hNear
    · exact hPage
  -- the literal load has other bits there
  have hLiteral : field word 24 8 ≠ 0b01011000 := by
    have hMod : field word 24 8 % 2 ^ 5 = field word 24 5 := by
      unfold field
      omega
    omega
  rw [AddressCode.decode, if_neg hLiteral, if_pos hMiddle,
    hKept 31 1 (by decide), hKept 0 5 (by decide)]
  dsimp only
  rw [hValue]
  rcases hKind with rfl | rfl
  · rw [hNearOp, hNearRegister, if_pos rfl, if_pos rfl]
  · rw [hPageOp, hPageRegister, if_neg (by decide), if_neg (by decide)]

theorem apply_pcRelative21
    (hDistance : (target.bits.toNat : Int) - pc.bits.toNat = displacement)
    (hLow : -2 ^ 20 ≤ displacement) (hHigh : displacement < 2 ^ 20) :
    pcRelative21.Relocates (pcRelative21.emittedWord register) pc target
      (.adr register displacement) := by
  obtain ⟨hMin, hMax, immediate, hRun, hLess, hValue⟩ :=
    @exists_signedImmediate _ displacement 21 0 (by decide) (by decide) (by decide)
      (show displacement = 2 ^ 0 * displacement by omega) hLow hHigh
  have hAddress := displacementTo_eq hDistance (by omega) hMax
  refine ⟨_, ?_, (decode_split (.inl rfl) hLess).trans ?_,
    patch_and_not (split_inside (.inl rfl) hLess)⟩
  · unfold apply
    dsimp only
    rw [(emittedWord_and_mask pcRelative21 register).right (.inl rfl),
      bind_of_eq_some (decodeSignedScaledImmediate_zero 0 (by decide)
        (by decide)), bind_of_eq_some hAddress, Int.zero_add,
      bind_of_eq_some (int64_eq_some ⟨hMin, hMax⟩), bind_of_eq_some hRun]
    rfl
  · rw [if_pos rfl, hValue]

/-- The distance of the pages of two addresses. -/
theorem alignedDisplacementTo_eq {pages : Nat}
    (hOrder : pc.bits.toNat ≤ target.bits.toNat)
    (hPages : target.bits.toNat / 2 ^ 12 - pc.bits.toNat / 2 ^ 12 = pages)
    (hSmall : pages < 2 ^ 51) :
    pc.alignedDisplacementTo target 12 =
      some ((pages * 2 ^ 12 : Nat) : Int) := by
  have hUnits : ∀ address : MachineAddress,
      (address.bits >>> 12).toNat = address.bits.toNat / 2 ^ 12 := by
    intro address
    rw [BitVec.toNat_ushiftRight, Nat.shiftRight_eq_div_pow]
  have hUp := Nat.div_le_div_right (c := 2 ^ 12) hOrder
  unfold MachineAddress.alignedDisplacementTo
  rw [check_bind (by decide)]
  dsimp only
  rw [hUnits, hUnits, if_pos hUp, hPages, check_bind (by omega), if_pos hUp]
  rfl

theorem offsetWithin_eq (target : MachineAddress) :
    target.offsetWithin 12 = some (target.bits.toNat % 2 ^ 12) := by
  unfold MachineAddress.offsetWithin
  rw [check_bind (by decide)]
  show some (target.bits &&& _).toNat = _
  rw [BitVec.toNat_and]
  exact congrArg some (Nat.and_two_pow_sub_one_eq_mod _ 12)

theorem apply_pageRelative21 {pages : Nat}
    (hOrder : pc.bits.toNat ≤ target.bits.toNat)
    (hPages : target.bits.toNat / 2 ^ 12 - pc.bits.toNat / 2 ^ 12 = pages)
    (hHigh : pages < 2 ^ 20) :
    pageRelative21.Relocates (pageRelative21.emittedWord register) pc target
      (.adrp register pages) := by
  obtain ⟨hMin, hMax, immediate, hRun, hLess, hValue⟩ :=
    @exists_signedImmediate (pages * 2 ^ 12 : Nat) pages 21 12 (by decide)
      (by decide)
      (by decide) (by push_cast; omega) (by omega) (by omega)
  have hAddress := alignedDisplacementTo_eq hOrder hPages (by omega)
  refine ⟨_, ?_, (decode_split (.inr rfl) hLess).trans ?_,
    patch_and_not (split_inside (.inr rfl) hLess)⟩
  · unfold apply
    dsimp only
    rw [(emittedWord_and_mask pageRelative21 register).right (.inr rfl),
      bind_of_eq_some (decodeSignedScaledImmediate_zero 12 (by decide)
        (by decide)), bind_of_eq_some hAddress, Int.zero_add,
      bind_of_eq_some (int64_eq_some ⟨hMin, hMax⟩), bind_of_eq_some hRun]
    rfl
  · rw [if_neg (by decide), hValue]

/-- The two kinds with an immediate of twelve bits. -/
theorem field_offset {kind : AArch64RelocationKind}
    (hKind : kind = pageOffset12 ∨ kind = pageOffset12Scaled8)
    {immediate : Word32} (h : immediate.toNat < 2 ^ 12) :
    let word := kind.emittedWord register &&& ~~~kind.immediateMask |||
      immediate <<< 10
    immediate <<< 10 &&& ~~~kind.immediateMask = 0 ∧
      field word 10 12 = immediate.toNat ∧
      field word 22 10 = field (kind.emittedWord register) 22 10 ∧
      field word 5 5 = field (kind.emittedWord register) 5 5 ∧
      field word 0 5 = field (kind.emittedWord register) 0 5 := by
  have hMask : ∀ i < 32, kind.immediateMask.getLsbD i =
      decide (10 ≤ i ∧ i < 10 + 12) := by
    intro i hi
    rw [getLsbD_immediateMask kind i hi]
    rcases hKind with rfl | rfl <;> rfl
  have hInside := shifted_inside h hMask
  have hOutside : ∀ low length, (low = 22 ∧ length = 10 ∨
      low = 5 ∧ length = 5 ∨ low = 0 ∧ length = 5) → ∀ i, low ≤ i →
        i < low + length → i < 32 ∧ kind.immediateMask.getLsbD i = false := by
    intro low length hField i hi hEnd
    refine ⟨by omega, (hMask i (by omega)).trans (decide_eq_false ?_)⟩
    omega
  exact ⟨hInside, field_shifted h (by decide) hMask,
    field_outside hInside (hOutside 22 10 (by decide)),
    field_outside hInside (hOutside 5 5 (by decide)),
    field_outside hInside (hOutside 0 5 (by decide))⟩

theorem apply_pageOffset12 (pc target : MachineAddress)
    (register : Fin 31) :
    pageOffset12.Relocates (pageOffset12.emittedWord register) pc target
      (.addImmediate register register (target.bits.toNat % 2 ^ 12)) := by
  have hLess : target.bits.toNat % 2 ^ 12 < 2 ^ 12 :=
    Nat.mod_lt _ (by decide)
  have hImmediate : (BitVec.ofNat 32 (target.bits.toNat % 2 ^ 12)).toNat =
      target.bits.toNat % 2 ^ 12 := by
    rw [BitVec.toNat_ofNat]
    omega
  obtain ⟨hInside, hValue, hTop, hBase, hRegister⟩ :=
    @field_offset register pageOffset12 (.inl rfl) _ (hImmediate ▸ hLess)
  obtain ⟨-, -, -, -, ⟨hOpcode, hSource, hDestination⟩, -⟩ :=
    field_emittedWord register
  refine ⟨_, ?_, ?_, patch_and_not hInside⟩
  · unfold apply
    dsimp only
    rw [(emittedWord_and_mask pageOffset12 register).left,
      bind_of_eq_some (offsetWithin_eq target),
      show ((0 : Word32) >>> 10).toNat = 0 from rfl, Nat.zero_add]
    exact check_bind hLess _
  · have hLiteral : ∀ word, field word 22 10 = 0b1001000100 →
        field word 24 8 ≠ 0b01011000 ∧ field word 24 5 ≠ 0b10000 := by
      intro word hWord
      unfold field at hWord ⊢
      omega
    obtain ⟨hFirst, hSecond⟩ := hLiteral _ (hTop.trans hOpcode)
    rw [AddressCode.decode, if_neg hFirst, if_neg hSecond, if_pos
      ⟨hTop.trans hOpcode, by rw [hRegister, hDestination]; exact register.2,
        by rw [hBase, hSource]; exact register.2⟩, hRegister, hDestination,
      hBase, hSource, hValue, hImmediate]

theorem apply_pageOffset12Scaled8 (pc : MachineAddress)
    (register : Fin 31) (hAligned : 8 ∣ target.bits.toNat) :
    pageOffset12Scaled8.Relocates (pageOffset12Scaled8.emittedWord register)
      pc target
      (.ldrUnsigned register register (target.bits.toNat % 2 ^ 12)) := by
  have hLess : target.bits.toNat % 2 ^ 12 / 8 < 2 ^ 12 := by omega
  have hImmediate : (BitVec.ofNat 32 (target.bits.toNat % 2 ^ 12 / 8)).toNat =
      target.bits.toNat % 2 ^ 12 / 8 := by
    rw [BitVec.toNat_ofNat]
    omega
  obtain ⟨hInside, hValue, hTop, hBase, hRegister⟩ :=
    @field_offset register pageOffset12Scaled8 (.inr rfl) _
      (hImmediate ▸ hLess)
  obtain ⟨-, -, -, -, -, hOpcode, hSource, hDestination⟩ :=
    field_emittedWord register
  refine ⟨_, ?_, ?_, patch_and_not hInside⟩
  · unfold apply
    dsimp only
    rw [(emittedWord_and_mask pageOffset12Scaled8 register).left,
      bind_of_eq_some (offsetWithin_eq target),
      show ((0 : Word32) >>> 10).toNat * 8 = 0 from rfl, Nat.zero_add]
    refine (check_bind (by omega) _).trans (check_bind ?_ _)
    rw [BitVec.lt_def, hImmediate]
    exact hLess
  · have hOthers : ∀ word, field word 22 10 = 0b1111100101 →
        field word 24 8 ≠ 0b01011000 ∧ field word 24 5 ≠ 0b10000 := by
      intro word hWord
      unfold field at hWord ⊢
      omega
    obtain ⟨hFirst, hSecond⟩ := hOthers _ (hTop.trans hOpcode)
    have hAdd : ¬field (pageOffset12Scaled8.emittedWord register &&&
        ~~~pageOffset12Scaled8.immediateMask |||
          BitVec.ofNat 32 (target.bits.toNat % 2 ^ 12 / 8) <<< 10) 22 10 =
        0b1001000100 := by
      rw [hTop, hOpcode]
      decide
    rw [AddressCode.decode, if_neg hFirst, if_neg hSecond,
      if_neg fun h => hAdd h.left, if_pos ⟨hTop.trans hOpcode,
        by rw [hBase, hSource]; exact register.2⟩, hRegister, hDestination,
      hBase, hSource, hValue, hImmediate]
    have hWhole : target.bits.toNat % 2 ^ 12 / 8 * 8 =
        target.bits.toNat % 2 ^ 12 := by omega
    rw [hWhole]

/-- A literal that is too far away is not encoded. -/
theorem apply_pcRelative19Scaled4_eq_none
    (hFar : pc.bits.toNat + 2 ^ 20 ≤ target.bits.toNat) :
    pcRelative19Scaled4.apply (pcRelative19Scaled4.emittedWord register) pc
      target = none := by
  unfold apply
  dsimp only
  rw [(emittedWord_and_mask pcRelative19Scaled4 register).left,
    show (0 : Word32) >>> 5 = 0 from rfl,
    bind_of_eq_some (decodeSignedScaledImmediate_zero 2 (by decide)
      (by decide))]
  by_cases hRange : target.bits.toNat - pc.bits.toNat < 2 ^ 63
  · rw [bind_of_eq_some (displacementTo_eq (d := (target.bits.toNat -
      pc.bits.toNat : Nat)) (by omega) (by omega) (by omega)), Int.zero_add,
      bind_of_eq_some (int64_eq_some ⟨by omega, by omega⟩)]
    refine bind_of_eq_none (check_bind_of_not ?_ _) _
    rw [fitsSignedScaledDisplacement_iff_units]
    rintro ⟨units, hEq, -, hHigh⟩
    norm_num at hEq hHigh
    omega
  · refine bind_of_eq_none ?_ _
    unfold MachineAddress.displacementTo
    rw [if_pos (by omega)]
    exact check_bind_of_not (by omega) _

theorem apply_pageRelative21_eq_none
    (hFar : pc.bits.toNat / 2 ^ 12 + 2 ^ 20 ≤ target.bits.toNat / 2 ^ 12) :
    pageRelative21.apply (pageRelative21.emittedWord register) pc target =
      none := by
  have hOrder : pc.bits.toNat ≤ target.bits.toNat := by omega
  unfold apply
  dsimp only
  rw [(emittedWord_and_mask pageRelative21 register).right (.inr rfl),
    bind_of_eq_some (decodeSignedScaledImmediate_zero 12 (by decide)
      (by decide))]
  obtain ⟨pages, hPages⟩ : ∃ pages,
      target.bits.toNat / 2 ^ 12 - pc.bits.toNat / 2 ^ 12 = pages := ⟨_, rfl⟩
  by_cases hRange : pages < 2 ^ 51
  · rw [bind_of_eq_some (alignedDisplacementTo_eq hOrder hPages hRange),
      Int.zero_add, bind_of_eq_some (int64_eq_some ⟨by omega, by omega⟩)]
    refine bind_of_eq_none (check_bind_of_not ?_ _) _
    rw [fitsSignedScaledDisplacement_iff_units]
    rintro ⟨units, hEq, -, hHigh⟩
    norm_num at hEq hHigh
    omega
  · refine bind_of_eq_none ?_ _
    have hUnits : ∀ address : MachineAddress,
        (address.bits >>> 12).toNat = address.bits.toNat / 2 ^ 12 := by
      intro address
      rw [BitVec.toNat_ushiftRight, Nat.shiftRight_eq_div_pow]
    unfold MachineAddress.alignedDisplacementTo
    rw [check_bind (by decide)]
    dsimp only
    rw [hUnits, hUnits, if_pos (Nat.div_le_div_right hOrder), hPages]
    exact check_bind_of_not (by omega) _

end Kinds

end AArch64RelocationKind

section Words

open MachineCodeEmitter

variable {bytes : List Byte} {offset : Nat} {word : Word32}

theorem loadWord_wordBytes (word : Word32) :
    loadWord (wordBytes word) 0 = some word := by
  refine congrArg some (BitVec.eq_of_toNat_eq ?_)
  simp only [toNat_append, BitVec.toNat_setWidth, BitVec.toNat_ushiftRight,
    Nat.shiftRight_eq_div_pow]
  have hWord := word.isLt
  omega

/-- A word depends on its own bytes only. -/
theorem loadWord_congr {bytes' : List Byte}
    (h : ∀ i, offset ≤ i → i < offset + 4 → bytes[i]? = bytes'[i]?) :
    loadWord bytes offset = loadWord bytes' offset := by
  unfold loadWord
  rw [h (offset + 3) (by omega) (by omega), h (offset + 2) (by omega)
    (by omega), h (offset + 1) (by omega) (by omega), h offset (by omega)
    (by omega)]

/-- A word that is stored, and what is beside it. -/
theorem store_word (word : Word32) (h : offset + 4 ≤ bytes.length) :
    ∃ stored, store bytes offset (wordBytes word) = some stored ∧
      loadWord stored offset = some word ∧
      ∀ i, i < offset ∨ offset + 4 ≤ i → stored[i]? = bytes[i]? := by
  have hTake : (bytes.take offset).length = offset := by
    rw [List.length_take]
    omega
  refine ⟨_, check_bind h _, ?_, ?_⟩
  · have hInside := @loadWord_inside (bytes.take offset) (wordBytes word)
      (bytes.drop (offset + 4)) 0 (by rw [length_wordBytes])
    rw [hTake, Nat.add_zero, loadWord_wordBytes] at hInside
    exact hInside
  · intro i hOutside
    show (Layout.writeAt bytes offset (wordBytes word))[i]? = bytes[i]?
    rw [Layout.writeAt, List.append_assoc]
    rcases hOutside with hBefore | hAfter
    · rw [List.getElem?_append_left (by omega), List.getElem?_take_of_lt
        hBefore]
    · rw [List.getElem?_append_right (by omega), hTake,
        List.getElem?_append_right (by rw [length_wordBytes]; omega),
        List.getElem?_drop, length_wordBytes,
        show offset + 4 + (i - offset - 4) = i by omega]

/-- The words of bytes that memory holds are fetched. -/
theorem fetch_of_loadWord {memory : BitVec 64 → Byte} {address : BitVec 64}
    (hHolds : Holds memory address bytes)
    (hLoad : loadWord bytes offset = some word) :
    fetch memory (address + BitVec.ofNat 64 offset) = word := by
  obtain ⟨b3, h3, hLoad⟩ := exists_of_bind hLoad
  obtain ⟨b2, h2, hLoad⟩ := exists_of_bind hLoad
  obtain ⟨b1, h1, hLoad⟩ := exists_of_bind hLoad
  obtain ⟨b0, h0, hLoad⟩ := exists_of_bind hLoad
  obtain rfl := Option.some.inj hLoad
  have hByte : ∀ (k : Nat) (byte : Byte), bytes[offset + k]? = some byte →
      memory (address + BitVec.ofNat 64 offset + BitVec.ofNat 64 k) =
        byte := by
    intro k byte hk
    obtain ⟨hBound, rfl⟩ := List.getElem?_eq_some_iff.mp hk
    rw [BitVec.add_assoc, ← BitVec.ofNat_add]
    exact hHolds (offset + k) hBound
  have hFirst := hByte 0 b0 h0
  rw [show _ + BitVec.ofNat 64 0 = _ from BitVec.add_zero _] at hFirst
  rw [fetch, hFirst, show memory (_ + 1) = b1 from hByte 1 b1 h1,
    show memory (_ + 2) = b2 from hByte 2 b2 h2,
    show memory (_ + 3) = b3 from hByte 3 b3 h3]

end Words

/-! ## The relocations of a fragment -/

section Fragments

open MachineCodeEmitter

variable {ρ : Type} {applyTo : ρ → Word32 → MachineAddress → Option Word32}
variable {codeAddress : MachineAddress} {start : Nat}

/-- The relocations of a fragment are for words that do not overlap. -/
def Spaced (entries : List (RelocationEntry ρ)) : Prop :=
  entries.Pairwise fun entry later => entry.offset + 4 ≤ later.offset

/-- What a relocation makes of the word that was emitted for it. -/
structure RelocatedWord (applyTo : ρ → Word32 → MachineAddress → Option Word32)
    (codeAddress : MachineAddress) (start : Nat) (bytes : List Byte)
    (entry : RelocationEntry ρ) (word relocated : Word32) : Prop where
  load : loadWord bytes entry.offset = some word
  apply : ∃ pc, codeAddress.offsetBy (start + entry.offset) = some pc ∧
    applyTo entry.relocation word pc = some relocated

/-- Each relocation sees the word that was emitted, and nothing else is
changed. -/
theorem foldlM_relocateEntry_spec {entries : List (RelocationEntry ρ)} :
    ∀ {bytes : List Byte}, Spaced entries →
      (∀ entry ∈ entries, ∃ word relocated, RelocatedWord applyTo codeAddress
        start bytes entry word relocated) →
      (∀ entry ∈ entries, entry.offset + 4 ≤ bytes.length) →
      ∃ result, entries.foldlM (relocateEntry applyTo codeAddress start)
          bytes = some result ∧
        (∀ entry ∈ entries, ∀ word relocated, RelocatedWord applyTo
          codeAddress start bytes entry word relocated →
            loadWord result entry.offset = some relocated) ∧
        ∀ i, (∀ entry ∈ entries, i < entry.offset ∨ entry.offset + 4 ≤ i) →
          result[i]? = bytes[i]? := by
  induction entries with
  | nil => exact fun _ _ _ => ⟨_, rfl, nofun, fun _ _ => rfl⟩
  | cons entry entries ih =>
      intro bytes hSpaced hApply hInside
      obtain ⟨hFirst, hRest⟩ := List.pairwise_cons.mp hSpaced
      obtain ⟨word, relocated, hLoad, pc, hPc, hRelocated⟩ :=
        hApply entry (List.mem_cons_self ..)
      obtain ⟨stored, hStore, hStored, hBeside⟩ := store_word relocated
        (hInside entry (List.mem_cons_self ..))
      have hStep : relocateEntry applyTo codeAddress start bytes entry =
          some stored :=
        (bind_of_eq_some hPc _).trans ((bind_of_eq_some hLoad _).trans
          ((bind_of_eq_some hRelocated _).trans hStore))
      have hLater : ∀ later ∈ entries, loadWord stored later.offset =
          loadWord bytes later.offset := by
        intro later hMem
        refine loadWord_congr fun i hi _ => hBeside i (.inr ?_)
        exact (hFirst later hMem).trans hi
      obtain ⟨result, hFold, hWords, hOthers⟩ := @ih stored hRest
        (fun later hMem => by
          obtain ⟨word, relocated, hWord⟩ :=
            hApply later (List.mem_cons_of_mem _ hMem)
          exact ⟨word, relocated, (hLater later hMem).trans hWord.load,
            hWord.apply⟩)
        (fun later hMem => by
          rw [length_store hStore]
          exact hInside later (List.mem_cons_of_mem _ hMem))
      refine ⟨result, ?_, ?_, ?_⟩
      · rw [List.foldlM_cons]
        exact (bind_of_eq_some hStep _).trans hFold
      · intro other hOther word' relocated' hWord
        rcases List.mem_cons.mp hOther with rfl | hMem
        · obtain ⟨pc', hPc', hApplied⟩ := hWord.apply
          obtain rfl := Option.some.inj (hLoad.symm.trans hWord.load)
          obtain rfl := Option.some.inj (hPc.symm.trans hPc')
          obtain rfl := Option.some.inj (hRelocated.symm.trans hApplied)
          refine (loadWord_congr fun i _ hi => hOthers i ?_).trans hStored
          exact fun later hMem => .inl (hi.trans_le (hFirst later hMem))
        · exact hWords other hMem word' relocated'
            ⟨(hLater other hMem).trans hWord.load, hWord.apply⟩
      · intro i hOutside
        rw [hOthers i fun later hMem => hOutside later
          (List.mem_cons_of_mem _ hMem)]
        exact hBeside i (hOutside entry (List.mem_cons_self ..))

end Fragments

end CloverVM.Jit
