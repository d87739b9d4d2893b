import CloverVM.Machine.Assertion
import CloverVM.Machine.SizeAlignment
import CloverVM.Machine.BranchCode

/-!
# Branches with a near and a far form

The relaxations of `jit/aarch64_assembler.cpp`: a branch, a call or a
conditional branch whose form is selected from a distance and encoded against
another one.  The near form is one instruction with the distance in an
immediate.  The far form of a branch or a call loads the whole address into a
scratch register; the far form of a conditional branch jumps over a branch
with a longer reach when the condition does not hold.

`Executes` says what a machine does that starts at the encoded branch.
-/

namespace CloverVM.Jit

open CloverVM.Machine CloverVM.Machine.BranchCode

structure MachineAddress where
  bits : BitVec 64
deriving DecidableEq, Repr

namespace MachineAddress

def offsetBy (address : MachineAddress) (bytes : Nat) :
    Option MachineAddress := do
  check (bytes ≤ sizeMax - address.bits.toNat)
  return ⟨address.bits + BitVec.ofNat 64 bytes⟩

def checkedPositiveDisplacement (magnitude : Nat) : Option Int := do
  check (magnitude ≤ 2 ^ 63 - 1)
  return magnitude

def displacementTo (source target : MachineAddress) : Option Int :=
  if target.bits.toNat ≥ source.bits.toNat then
    checkedPositiveDisplacement (target.bits.toNat - source.bits.toNat)
  else
    (checkedPositiveDisplacement (source.bits.toNat - target.bits.toNat)).map
      (fun displacement => -displacement)

end MachineAddress

def fitsSignedScaledDisplacement (displacement : Int)
    (immediateBits scaleShift : Nat) : Bool :=
  let scale : Int := 2 ^ scaleShift
  if displacement.tmod scale ≠ 0 then
    false
  else
    let scaled := displacement.tdiv scale
    let minimum : Int := -2 ^ (immediateBits - 1)
    let maximum : Int := 2 ^ (immediateBits - 1) - 1
    decide (scaled ≥ minimum ∧ scaled ≤ maximum)

def signedImmediate (displacement : Int) (immediateBits scaleShift : Nat) :
    Option Word32 := do
  check (fitsSignedScaledDisplacement displacement immediateBits scaleShift)
  let mask := BitVec.ofNat 64 (2 ^ immediateBits - 1)
  return ((BitVec.ofInt 64 displacement).sshiftRight scaleShift &&&
    mask).setWidth 32

/-! ## Instructions -/

/-- The general registers but the one that is the stack pointer or zero. -/
structure XRegister where
  registerNumber : Nat
  lt : registerNumber < 31
deriving DecidableEq, Repr

def XRegister.encoding (register : XRegister) : Word32 :=
  BitVec.ofNat 32 register.registerNumber

inductive AArch64Condition where
  | equal
  | notEqual
  | carrySet
  | carryClear
  | negative
  | positiveOrZero
  | overflow
  | noOverflow
  | unsignedHigher
  | unsignedLowerOrSame
  | signedGreaterOrEqual
  | signedLess
  | signedGreater
  | signedLessOrEqual
deriving DecidableEq, Repr

/-- The number of the enumerator. -/
def AArch64Condition.value : AArch64Condition → Nat
  | equal => 0
  | notEqual => 1
  | carrySet => 2
  | carryClear => 3
  | negative => 4
  | positiveOrZero => 5
  | overflow => 6
  | noOverflow => 7
  | unsignedHigher => 8
  | unsignedLowerOrSame => 9
  | signedGreaterOrEqual => 10
  | signedLess => 11
  | signedGreater => 12
  | signedLessOrEqual => 13

inductive MoveWideOp where
  | movn
  | movz
  | movk
deriving DecidableEq, Repr

def MoveWideOp.bits : MoveWideOp → Word32
  | movn => 0 <<< 29
  | movz => 2 <<< 29
  | movk => 3 <<< 29

inductive MoveWideHalfword where
  | bits0
  | bits16
  | bits32
  | bits48
deriving DecidableEq, Repr

def MoveWideHalfword.bits : MoveWideHalfword → Word32
  | bits0 => 0 <<< 21
  | bits16 => 1 <<< 21
  | bits32 => 2 <<< 21
  | bits48 => 3 <<< 21

/-- On a register of 64 bits. -/
def emitMoveWideImm16 (operation : MoveWideOp) (destination : XRegister)
    (immediate : BitVec 16) (halfword : MoveWideHalfword) : Word32 :=
  (0x12800000 : Word32) ||| (1 <<< 31) ||| operation.bits ||| halfword.bits |||
    (immediate.setWidth 32 <<< 5) ||| destination.encoding

/-- The displacement is narrowed to 32 bits on the way in. -/
def emitBConditionalImmediate (condition : Nat) (byteDisplacement : Int) :
    Option Word32 := do
  let immediate ←
    signedImmediate (BitVec.ofInt 32 byteDisplacement).toInt 19 2
  return (0x54000000 : Word32) ||| (immediate <<< 5) |||
    BitVec.ofNat 32 condition

def emitBImmediate26 (byteDisplacement : Int) : Option Word32 := do
  let immediate ← signedImmediate byteDisplacement 26 2
  return 0x14000000 ||| immediate

def emitBlImmediate26 (byteDisplacement : Int) : Option Word32 := do
  let immediate ← signedImmediate byteDisplacement 26 2
  return 0x94000000 ||| immediate

def emitBr (target : XRegister) : Word32 :=
  (0xd61f0000 : Word32) ||| (target.encoding <<< 5)

def emitBlr (target : XRegister) : Word32 :=
  (0xd63f0000 : Word32) ||| (target.encoding <<< 5)

/-! ## Relaxations -/

/-- A label, by its index. -/
structure Label where
  index : Nat
deriving DecidableEq, Repr

inductive CodeTarget where
  | label (label : Label)
  | machineAddress (address : MachineAddress)
deriving DecidableEq, Repr

/-- A relaxation as it is made, with the `kind_data` of its kind: the scratch
register or the condition. -/
inductive AArch64RelaxationKind where
  | unconditionalBranch (target : CodeTarget) (scratch : XRegister)
  | call (target : CodeTarget) (scratch : XRegister)
  | conditionalBranch (target : Label) (condition : AArch64Condition)
deriving DecidableEq, Repr

inductive AArch64RelaxationMode where
  | unselected
  | near
  | far
deriving DecidableEq, Repr

structure AArch64Relaxation where
  kind : AArch64RelaxationKind
  mode : AArch64RelaxationMode
deriving DecidableEq, Repr

namespace AArch64Relaxation

def maximumUnitSize : Nat := 128 * 1024 * 1024

def target (relaxation : AArch64Relaxation) : CodeTarget :=
  match relaxation.kind with
  | .unconditionalBranch target _ => target
  | .call target _ => target
  | .conditionalBranch target _ => .label target

def minSize (_ : AArch64Relaxation) : Nat := 4

def maxSize (relaxation : AArch64Relaxation) : Nat :=
  match relaxation.kind with
  | .unconditionalBranch _ _ => 20
  | .call _ _ => 20
  | .conditionalBranch _ _ => 8

/-- The form that is selected and its size. -/
def select (relaxation : AArch64Relaxation) (source target : MachineAddress) :
    Option (AArch64Relaxation × Nat) := do
  check (relaxation.mode = .unselected)
  let displacement ← source.displacementTo target
  match relaxation.kind with
  | .unconditionalBranch _ _ | .call _ _ =>
      if fitsSignedScaledDisplacement displacement 26 2 then
        return ({ relaxation with mode := .near }, 4)
      else
        return ({ relaxation with mode := .far }, 20)
  | .conditionalBranch _ _ =>
      if fitsSignedScaledDisplacement displacement 19 2 then
        return ({ relaxation with mode := .near }, 4)
      else do
        let inner ← (← source.offsetBy 4).displacementTo target
        check (fitsSignedScaledDisplacement inner 26 2)
        return ({ relaxation with mode := .far }, 8)

/-- The four moves that load the address into the scratch register. -/
def loadAddress (scratch : XRegister) (address : BitVec 64) : List Word32 :=
  [emitMoveWideImm16 .movz scratch (address.setWidth 16) .bits0,
    emitMoveWideImm16 .movk scratch ((address >>> 16).setWidth 16) .bits16,
    emitMoveWideImm16 .movk scratch ((address >>> 32).setWidth 16) .bits32,
    emitMoveWideImm16 .movk scratch ((address >>> 48).setWidth 16) .bits48]

/-- The words that go to the buffer, in the order they are written. -/
def encode (relaxation : AArch64Relaxation) (source target : MachineAddress) :
    Option (List Word32) := do
  check (relaxation.mode ≠ .unselected)
  let displacement ← source.displacementTo target
  match relaxation.mode, relaxation.kind with
  | .unselected, _ => none
  | .near, .unconditionalBranch _ _ =>
      return [← emitBImmediate26 displacement]
  | .near, .call _ _ =>
      return [← emitBlImmediate26 displacement]
  | .near, .conditionalBranch _ condition =>
      return [← emitBConditionalImmediate condition.value displacement]
  | .far, .conditionalBranch _ condition => do
      let inverse := condition.value ^^^ 1
      let skip ← emitBConditionalImmediate inverse 8
      let inner ← (← source.offsetBy 4).displacementTo target
      return [skip, ← emitBImmediate26 inner]
  | .far, .unconditionalBranch _ scratch =>
      return loadAddress scratch target.bits ++ [emitBr scratch]
  | .far, .call _ scratch =>
      return loadAddress scratch target.bits ++ [emitBlr scratch]

end AArch64Relaxation

/-- The displacement of addresses that are not half the space apart. -/
theorem displacementTo_eq {source target : MachineAddress} {d : Int}
    (h : (target.bits.toNat : Int) - source.bits.toNat = d)
    (hLow : -2 ^ 63 < d) (hHigh : d < 2 ^ 63) :
    source.displacementTo target = some d := by
  unfold MachineAddress.displacementTo
  unfold MachineAddress.checkedPositiveDisplacement
  split_ifs with hOrder
  · rw [check_bind (by omega)]
    show some ((target.bits.toNat - source.bits.toNat : Nat) : Int) = some d
    congr 1
    omega
  · rw [check_bind (by omega)]
    show some (-((source.bits.toNat - target.bits.toNat : Nat) : Int)) = some d
    congr 1
    omega

theorem offsetBy_eq {address : MachineAddress} {bytes : Nat}
    (h : address.bits.toNat + bytes < 2 ^ 64) :
    address.offsetBy bytes = some ⟨address.bits + BitVec.ofNat 64 bytes⟩ := by
  unfold MachineAddress.offsetBy
  have hRoom : bytes ≤ sizeMax - address.bits.toNat := by
    rw [sizeMax]
    omega
  rw [check_bind hRoom]
  rfl

theorem toNat_add_ofNat {bits : BitVec 64} {bytes : Nat}
    (h : bits.toNat + bytes < 2 ^ 64) :
    (bits + BitVec.ofNat 64 bytes).toNat = bits.toNat + bytes := by
  rw [BitVec.toNat_add, BitVec.toNat_ofNat]
  omega

/-! ## Immediates that fit -/

/-- A number of words that a signed immediate can hold. -/
def Fits (immediateBits : Nat) (displacement : Int) : Prop :=
  ∃ words : Int, displacement = 4 * words ∧
    -2 ^ (immediateBits - 1) ≤ words ∧ words < 2 ^ (immediateBits - 1)

/-- The displacements that fit are those of a number of units that the bits
can hold. -/
theorem fitsSignedScaledDisplacement_iff_units (displacement : Int)
    (immediateBits scaleShift : Nat) :
    fitsSignedScaledDisplacement displacement immediateBits scaleShift =
        true ↔
      ∃ units : Int, displacement = 2 ^ scaleShift * units ∧
        -2 ^ (immediateBits - 1) ≤ units ∧
          units < 2 ^ (immediateBits - 1) := by
  have hScale : (2 : Int) ^ scaleShift ≠ 0 := by positivity
  unfold fitsSignedScaledDisplacement
  dsimp only
  split_ifs with hRest
  · constructor
    · nofun
    · rintro ⟨units, rfl, -, -⟩
      exact absurd (Int.mul_tmod_right _ units) hRest
  · obtain ⟨units, rfl⟩ := Int.dvd_of_tmod_eq_zero (not_not.mp hRest)
    rw [Int.mul_tdiv_cancel_left _ hScale, decide_eq_true_eq]
    constructor
    · rintro ⟨hLow, hHigh⟩
      exact ⟨units, rfl, hLow, by omega⟩
    · rintro ⟨units', hSame, hLow, hHigh⟩
      obtain rfl : units = units' := Int.eq_of_mul_eq_mul_left hScale hSame
      exact ⟨hLow, by omega⟩

theorem fitsSignedScaledDisplacement_iff (displacement : Int)
    (immediateBits : Nat) :
    fitsSignedScaledDisplacement displacement immediateBits 2 = true ↔
      Fits immediateBits displacement :=
  fitsSignedScaledDisplacement_iff_units displacement immediateBits 2

section Immediates

variable {bits scale : Nat} {displacement words : Int}

/-- The bits of a number that fits in them. -/
theorem signedField_emod (hBits : 0 < bits)
    (hLow : -2 ^ (bits - 1) ≤ words) (hHigh : words < 2 ^ (bits - 1)) :
    signedField bits (words % 2 ^ bits).toNat = words := by
  have hPow : (2 : Int) ^ bits = 2 * 2 ^ (bits - 1) := by
    rw [← Int.pow_succ', Nat.sub_add_cancel hBits]
  have hHalf : (0 : Int) < 2 ^ (bits - 1) := by positivity
  have hNat : ((2 ^ (bits - 1) : Nat) : Int) = 2 ^ (bits - 1) := by
    push_cast
    rfl
  have hNatFull : ((2 ^ bits : Nat) : Int) = 2 ^ bits := by
    push_cast
    rfl
  unfold signedField
  rcases lt_or_ge words 0 with hNegative | hNonnegative
  · have hMod : words % 2 ^ bits = words + 2 ^ bits := by
      rw [← Int.add_emod_right]
      exact Int.emod_eq_of_lt (by omega) (by omega)
    rw [hMod, if_neg (by omega)]
    omega
  · have hMod : words % 2 ^ bits = words :=
      Int.emod_eq_of_lt hNonnegative (by omega)
    rw [hMod, if_pos (by omega)]
    omega

/-- An immediate that fits, as a number. -/
theorem signedImmediate_units (hWord : bits ≤ 32)
    (hMin : -2 ^ 63 ≤ displacement) (hMax : displacement < 2 ^ 63)
    (hEq : displacement = 2 ^ scale * words)
    (hLow : -2 ^ (bits - 1) ≤ words) (hHigh : words < 2 ^ (bits - 1)) :
    ∃ immediate, signedImmediate displacement bits scale = some immediate ∧
      immediate.toNat = (words % 2 ^ bits).toNat := by
  have hFits := (fitsSignedScaledDisplacement_iff_units displacement bits
    scale).mpr ⟨words, hEq, hLow, hHigh⟩
  have hScale : (2 : Int) ^ scale ≠ 0 := by positivity
  have hWords : displacement / 2 ^ scale = words := by
    rw [hEq, Int.mul_ediv_cancel_left _ hScale]
  have hShift : ((BitVec.ofInt 64 displacement).sshiftRight scale).toInt =
      words := by
    rw [BitVec.toInt_sshiftRight, BitVec.toInt_ofInt,
      Int.bmod_eq_of_le (by omega) (by omega), Int.shiftRight_eq_div_pow]
    exact_mod_cast hWords
  have hSmall : (2 : Nat) ^ bits ≤ 2 ^ 32 :=
    Nat.pow_le_pow_right (by decide) hWord
  have hPos : (0 : Int) < 2 ^ bits := by positivity
  have hMask : (BitVec.ofNat 64 (2 ^ bits - 1)).toNat = 2 ^ bits - 1 := by
    rw [BitVec.toNat_ofNat]
    exact Nat.mod_eq_of_lt (by omega)
  have hDvd : (2 : Int) ^ bits ∣ 2 ^ 64 := pow_dvd_pow 2 (by omega)
  have hValue : (((BitVec.ofInt 64 displacement).sshiftRight scale &&&
      BitVec.ofNat 64 (2 ^ bits - 1)).setWidth 32).toNat =
        (words % 2 ^ bits).toNat := by
    have hNat : ((BitVec.ofInt 64 displacement).sshiftRight scale).toNat =
        (words % 2 ^ 64).toNat := by
      have hRead := congrArg BitVec.toNat (BitVec.ofInt_toInt
        (x := (BitVec.ofInt 64 displacement).sshiftRight scale))
      rw [hShift, BitVec.toNat_ofInt] at hRead
      exact hRead.symm
    have hMod : (words % 2 ^ 64).toNat % 2 ^ bits =
        (words % 2 ^ bits).toNat := by
      zify
      rw [Int.toNat_of_nonneg (Int.emod_nonneg _ (by decide)),
        Int.toNat_of_nonneg (Int.emod_nonneg _ hPos.ne'),
        Int.emod_emod_of_dvd _ hDvd]
    have hLess : (words % 2 ^ 64).toNat % 2 ^ bits < 2 ^ bits :=
      Nat.mod_lt _ (by positivity)
    rw [BitVec.toNat_setWidth, BitVec.toNat_and, hMask, hNat,
      Nat.and_two_pow_sub_one_eq_mod, ← hMod]
    exact Nat.mod_eq_of_lt (by omega)
  exact ⟨_, (check_bind hFits _).trans rfl, hValue⟩

/-- An immediate that fits reads back. -/
theorem signedImmediate_spec (hBits : 0 < bits) (hWord : bits ≤ 32)
    (h : Fits bits displacement) :
    ∃ immediate, signedImmediate displacement bits 2 = some immediate ∧
      immediate.toNat < 2 ^ bits ∧
      signedField bits immediate.toNat * 4 = displacement := by
  obtain ⟨words, hEq, hLow, hHigh⟩ := h
  have hBound : (2 : Int) ^ (bits - 1) ≤ 2 ^ 31 :=
    pow_le_pow_right₀ (by decide) (by omega)
  have hPos : (0 : Int) < 2 ^ bits := by positivity
  obtain ⟨immediate, hRun, hValue⟩ := signedImmediate_units hWord
    (show -2 ^ 63 ≤ displacement by omega)
    (show displacement < 2 ^ 63 by omega)
    (show displacement = 2 ^ 2 * words from hEq) hLow hHigh
  refine ⟨immediate, hRun, ?_, ?_⟩
  · rw [hValue, Int.toNat_lt (Int.emod_nonneg _ hPos.ne')]
    push_cast
    exact Int.emod_lt_of_pos _ hPos
  · rw [hValue, signedField_emod hBits hLow hHigh]
    omega

end Immediates

/-! ## What the words decode to -/

theorem emitBImmediate26_spec {displacement : Int} (h : Fits 26 displacement) :
    ∃ word, emitBImmediate26 displacement = some word ∧
      decode word = some (.b displacement) := by
  obtain ⟨immediate, hImmediate, hLess, hRead⟩ :=
    signedImmediate_spec (by decide) (by decide) h
  have hWord : (0x14000000 ||| immediate).toNat =
      5 * 2 ^ 26 + immediate.toNat := field_or ⟨5, rfl⟩ hLess
  refine ⟨0x14000000 ||| immediate, bind_of_eq_some hImmediate _, ?_⟩
  have hLow : field (0x14000000 ||| immediate) 0 26 = immediate.toNat := by
    rw [field, hWord]
    omega
  rw [decode, hLow, hRead, if_pos]
  rw [field, hWord]
  omega

theorem emitBlImmediate26_spec {displacement : Int}
    (h : Fits 26 displacement) :
    ∃ word, emitBlImmediate26 displacement = some word ∧
      decode word = some (.bl displacement) := by
  obtain ⟨immediate, hImmediate, hLess, hRead⟩ :=
    signedImmediate_spec (by decide) (by decide) h
  have hWord : (0x94000000 ||| immediate).toNat =
      37 * 2 ^ 26 + immediate.toNat := field_or ⟨37, rfl⟩ hLess
  refine ⟨0x94000000 ||| immediate, bind_of_eq_some hImmediate _, ?_⟩
  have hLow : field (0x94000000 ||| immediate) 0 26 = immediate.toNat := by
    rw [field, hWord]
    omega
  have hHigh : field (0x94000000 ||| immediate) 26 6 = 37 := by
    rw [field, hWord]
    omega
  rw [decode, hLow, hRead, hHigh, if_neg (by decide), if_pos rfl]

/-- Displacements that fit are not changed by the narrowing. -/
theorem narrowed_eq {displacement : Int} (h : Fits 19 displacement) :
    (BitVec.ofInt 32 displacement).toInt = displacement := by
  obtain ⟨words, rfl, hLow, hHigh⟩ := h
  rw [BitVec.toInt_ofInt]
  exact Int.bmod_eq_of_le (by omega) (by omega)

theorem emitBConditionalImmediate_spec {displacement : Int} {condition : Nat}
    (hCondition : condition < 14) (h : Fits 19 displacement) :
    ∃ word, emitBConditionalImmediate condition displacement = some word ∧
      decode word = some (.bCond condition displacement) := by
  obtain ⟨immediate, hImmediate, hLess, hRead⟩ :=
    signedImmediate_spec (by decide) (by decide) h
  have hShifted : (immediate <<< 5).toNat = immediate.toNat * 2 ^ 5 := by
    rw [BitVec.toNat_shiftLeft, Nat.shiftLeft_eq]
    omega
  have hNumber : (BitVec.ofNat 32 condition).toNat = condition := by
    rw [BitVec.toNat_ofNat]
    omega
  have hFields : ((0x54000000 : Word32) ||| (immediate <<< 5)).toNat =
      84 * 2 ^ 24 + immediate.toNat * 2 ^ 5 := by
    rw [field_or (i := 24) ⟨84, rfl⟩ (by omega), hShifted]
    rfl
  obtain ⟨word, hEq⟩ : ∃ word, word = (0x54000000 : Word32) |||
    (immediate <<< 5) ||| BitVec.ofNat 32 condition := ⟨_, rfl⟩
  have hWord : word.toNat =
      84 * 2 ^ 24 + immediate.toNat * 2 ^ 5 + condition := by
    rw [hEq, field_or (i := 4) (by omega) (by omega), hFields, hNumber]
  refine ⟨word, ?_, ?_⟩
  · rw [emitBConditionalImmediate, narrowed_eq h, hEq]
    exact bind_of_eq_some hImmediate _
  · have hTop : field word 26 6 = 21 := by
      rw [field, hWord]
      omega
    have hHigh : field word 24 8 = 84 := by
      rw [field, hWord]
      omega
    have hClear : field word 4 1 = 0 := by
      rw [field, hWord]
      omega
    have hLow : field word 0 4 = condition := by
      rw [field, hWord]
      omega
    have hMiddle : field word 5 19 = immediate.toNat := by
      rw [field, hWord]
      omega
    rw [decode, hTop, hHigh, hClear, hLow, hMiddle, hRead,
      if_neg (by decide), if_neg (by decide), if_pos ⟨rfl, rfl⟩]

theorem XRegister.toNat_encoding (register : XRegister) :
    register.encoding.toNat = register.registerNumber := by
  have hLess := register.lt
  rw [XRegister.encoding, BitVec.toNat_ofNat]
  omega

theorem XRegister.toNat_encoding_shift (register : XRegister) :
    (register.encoding <<< 5).toNat = register.registerNumber * 2 ^ 5 := by
  have hLess := register.lt
  rw [BitVec.toNat_shiftLeft, Nat.shiftLeft_eq, register.toNat_encoding]
  omega

/-- The words of the branches through a register. -/
theorem decode_registerBranch {word : Word32} {top n : Nat} (hn : n < 2 ^ 5)
    (hTop : top / 2 ^ 13 = 0b110101100)
    (h : word.toNat = top * 2 ^ 10 + n * 2 ^ 5) :
    decode word =
      if top = 0b1101011000011111000000 then some (.br n)
      else if top = 0b1101011000111111000000 then some (.blr n)
      else none := by
  have h26 : field word 26 6 = 0b110101 := by
    rw [field, h]
    omega
  have h24 : field word 24 8 = 0b11010110 := by
    rw [field, h]
    omega
  have h23 : field word 23 9 = 0b110101100 := by
    rw [field, h]
    omega
  have h10 : field word 10 22 = top := by
    rw [field, h]
    omega
  have h0 : field word 0 5 = 0 := by
    rw [field, h]
    omega
  have h5 : field word 5 5 = n := by
    rw [field, h]
    omega
  rw [decode, h26, h24, h23, h10, h0, h5, if_neg (by decide),
    if_neg (by decide), if_neg (by simp), if_neg (by decide),
    if_neg (by decide)]
  simp only [and_true]

theorem decode_emitBr (register : XRegister) :
    decode (emitBr register) = some (.br register.registerNumber) := by
  have hLess := register.lt
  have hShift := register.toNat_encoding_shift
  have hWord : (emitBr register).toNat =
      0b1101011000011111000000 * 2 ^ 10 + register.registerNumber * 2 ^ 5 := by
    rw [emitBr, field_or (i := 16) ⟨0xd61f, rfl⟩ (by omega), hShift]
    rfl
  exact decode_registerBranch (by omega) (by decide) hWord

theorem decode_emitBlr (register : XRegister) :
    decode (emitBlr register) = some (.blr register.registerNumber) := by
  have hLess := register.lt
  have hShift := register.toNat_encoding_shift
  have hWord : (emitBlr register).toNat =
      0b1101011000111111000000 * 2 ^ 10 + register.registerNumber * 2 ^ 5 := by
    rw [emitBlr, field_or (i := 16) ⟨0xd63f, rfl⟩ (by omega), hShift]
    rfl
  exact decode_registerBranch (by omega) (by decide) hWord

/-- The number of the halfword that a wide move is for. -/
def MoveWideHalfword.index : MoveWideHalfword → Nat
  | bits0 => 0
  | bits16 => 1
  | bits32 => 2
  | bits48 => 3

theorem toNat_emitMoveWideImm16 (operation : MoveWideOp)
    (destination : XRegister) (immediate : BitVec 16)
    (halfword : MoveWideHalfword) :
    (emitMoveWideImm16 operation destination immediate halfword).toNat =
      ((0x12800000 : Word32) ||| (1 <<< 31) ||| operation.bits |||
        halfword.bits).toNat + immediate.toNat * 2 ^ 5 +
          destination.registerNumber := by
  have hLess := destination.lt
  have hNumber := destination.toNat_encoding
  have hImmediate := immediate.isLt
  have hShift : (immediate.setWidth 32 <<< 5).toNat =
      immediate.toNat * 2 ^ 5 := by
    rw [BitVec.toNat_shiftLeft, BitVec.toNat_setWidth, Nat.shiftLeft_eq]
    omega
  have hHigh : 2 ^ 21 ∣ ((0x12800000 : Word32) ||| (1 <<< 31) |||
      operation.bits ||| halfword.bits).toNat := by
    cases operation <;> cases halfword <;> decide
  have hFields := field_or hHigh
    (show (immediate.setWidth 32 <<< 5).toNat < 2 ^ 21 by omega)
  rw [emitMoveWideImm16, field_or (i := 5) (by omega) (by omega), hFields,
    hShift, hNumber]

/-- The words of the wide moves. -/
theorem decode_wideMove {word : Word32} {opcode hw immediate n : Nat}
    (hn : n < 2 ^ 5) (hImmediate : immediate < 2 ^ 16) (hHw : hw < 2 ^ 2)
    (hOpcode : opcode = 0b110100101 ∨ opcode = 0b111100101)
    (h : word.toNat =
      opcode * 2 ^ 23 + hw * 2 ^ 21 + immediate * 2 ^ 5 + n) :
    decode word =
      if opcode = 0b110100101 then some (.movz n hw immediate)
      else some (.movk n hw immediate) := by
  have h26 : field word 26 6 = opcode / 2 ^ 3 := by
    rw [field, h]
    omega
  have h24 : field word 24 8 = opcode / 2 ^ 1 := by
    rw [field, h]
    omega
  have h23 : field word 23 9 = opcode := by
    rw [field, h]
    omega
  have h21 : field word 21 2 = hw := by
    rw [field, h]
    omega
  have h5 : field word 5 16 = immediate := by
    rw [field, h]
    omega
  have h0 : field word 0 5 = n := by
    rw [field, h]
    omega
  rw [decode, h26, h24, h23, h21, h5, h0, if_neg (by omega),
    if_neg (by omega), if_neg (by omega)]
  rcases hOpcode with rfl | rfl
  · rfl
  · rfl

theorem decode_movz (destination : XRegister) (immediate : BitVec 16)
    (halfword : MoveWideHalfword) :
    decode (emitMoveWideImm16 .movz destination immediate halfword) =
      some (.movz destination.registerNumber halfword.index
        immediate.toNat) := by
  have hLess := destination.lt
  have hWord := toNat_emitMoveWideImm16 .movz destination immediate halfword
  have hFields : ((0x12800000 : Word32) ||| (1 <<< 31) |||
      MoveWideOp.movz.bits ||| halfword.bits).toNat =
        0b110100101 * 2 ^ 23 + halfword.index * 2 ^ 21 := by
    cases halfword <;> rfl
  rw [hFields] at hWord
  have hIndex : halfword.index < 2 ^ 2 := by cases halfword <;> decide
  exact decode_wideMove (by omega) immediate.isLt hIndex (Or.inl rfl) hWord

theorem decode_movk (destination : XRegister) (immediate : BitVec 16)
    (halfword : MoveWideHalfword) :
    decode (emitMoveWideImm16 .movk destination immediate halfword) =
      some (.movk destination.registerNumber halfword.index
        immediate.toNat) := by
  have hLess := destination.lt
  have hWord := toNat_emitMoveWideImm16 .movk destination immediate halfword
  have hFields : ((0x12800000 : Word32) ||| (1 <<< 31) |||
      MoveWideOp.movk.bits ||| halfword.bits).toNat =
        0b111100101 * 2 ^ 23 + halfword.index * 2 ^ 21 := by
    cases halfword <;> rfl
  rw [hFields] at hWord
  have hIndex : halfword.index < 2 ^ 2 := by cases halfword <;> decide
  exact decode_wideMove (by omega) immediate.isLt hIndex (Or.inr rfl) hWord

/-- The moves that load an address. -/
theorem loadAddress_decodes (scratch : XRegister) (address : BitVec 64) :
    List.Forall₂ (fun word i => decode word = some i)
      (AArch64Relaxation.loadAddress scratch address)
      (movWide scratch.registerNumber address) := by
  have hPart : ∀ k, ((address >>> k).setWidth 16).toNat =
      address.toNat / 2 ^ k % 2 ^ 16 := by
    intro k
    rw [BitVec.toNat_setWidth, BitVec.toNat_ushiftRight,
      Nat.shiftRight_eq_div_pow]
  have hFirst : (address.setWidth 16).toNat = address.toNat % 2 ^ 16 :=
    BitVec.toNat_setWidth ..
  refine .cons ?_ (.cons ?_ (.cons ?_ (.cons ?_ .nil)))
  · rw [decode_movz, hFirst]
    rfl
  · rw [decode_movk, hPart]
    rfl
  · rw [decode_movk, hPart]
    rfl
  · rw [decode_movk, hPart]
    rfl

/-! ## What the encoded branches do -/

/-- What a branch of this kind does to a machine: where it goes, and what it
leaves as it is. -/
def AArch64RelaxationKind.Executes (kind : AArch64RelaxationKind)
    (target next : BitVec 64) (s s' : State) : Prop :=
  s'.flags = s.flags ∧
    match kind with
    | .unconditionalBranch _ scratch =>
        s'.pc = target ∧
          ∀ r : Fin 31, r.val ≠ scratch.registerNumber → s'.x r = s.x r
    | .call _ scratch =>
        s'.pc = target ∧ s'.x 30 = next ∧
          ∀ r : Fin 31, r.val ≠ scratch.registerNumber → r.val ≠ 30 →
            s'.x r = s.x r
    | .conditionalBranch _ condition =>
        s'.pc = (if s.flags.holds condition.value then target else next) ∧
          s'.x = s.x

namespace AArch64Relaxation

/-- The size of the selected form. -/
def selectedSize (relaxation : AArch64Relaxation) : Nat :=
  match relaxation.mode, relaxation.kind with
  | .unselected, _ => 0
  | .near, _ => 4
  | .far, .conditionalBranch _ _ => 8
  | .far, _ => 20

/-- The selected form can be encoded for these addresses. -/
def Reaches (relaxation : AArch64Relaxation) (source target : MachineAddress) :
    Prop :=
  let displacement : Int := target.bits.toNat - source.bits.toNat
  match relaxation.mode, relaxation.kind with
  | .unselected, _ => False
  | .near, .conditionalBranch _ _ => Fits 19 displacement
  | .near, _ => Fits 26 displacement
  | .far, .conditionalBranch _ _ =>
      Fits 26 (displacement - 4) ∧ source.bits.toNat + 4 < 2 ^ 64
  | .far, _ => True

end AArch64Relaxation

section Execution

variable {memory : BitVec 64 → Byte} {s : State} {word : Word32}
variable {source target : MachineAddress}

/-- A displacement leads from one address to the other. -/
theorem add_ofInt_sub (a b : BitVec 64) :
    a + BitVec.ofInt 64 (b.toNat - a.toNat) = b := by
  refine BitVec.eq_of_toNat_eq ?_
  have ha := a.isLt
  have hb := b.isLt
  rw [BitVec.toNat_add, BitVec.toNat_ofInt]
  omega

theorem AArch64Condition.value_lt (condition : AArch64Condition) :
    condition.value < 14 := by
  cases condition <;> decide

/-- One instruction, executed where it is held. -/
theorem run_one {instruction : Instruction}
    (h : Holds memory s.pc (codeBytes [word]))
    (hDecode : decode word = some instruction) :
    run memory 1 s = some (execute s instruction) := by
  rw [codeBytes_cons, codeBytes_nil, List.append_nil] at h
  exact runWith_one (stepWith_of_fetch (fetch_of_holds h) hDecode)

/-- A branch over the next instruction and a branch behind it. -/
theorem run_skip {skip far : Word32} {condition : Nat} {displacement : Int}
    (h : Holds memory s.pc (codeBytes [skip, far]))
    (hSkip : decode skip = some (.bCond condition 8))
    (hFar : decode far = some (.b displacement)) :
    ∃ n, run memory n s = some (s.goTo
      (if s.flags.holds condition then s.pc + 8
        else s.pc + 4 + BitVec.ofInt 64 displacement)) := by
  rw [codeBytes_cons] at h
  have hFirst := @stepWith_of_fetch _ _ execute _ _ _ _
    (fetch_of_holds h.left) hSkip
  by_cases hHolds : s.flags.holds condition
  · refine ⟨1, (runWith_succ hFirst 0).trans ?_⟩
    rw [execute, if_pos hHolds, if_pos hHolds]
    rfl
  · refine ⟨2, (runWith_succ hFirst 1).trans ?_⟩
    rw [execute, if_neg hHolds, if_neg hHolds]
    exact run_one h.right hFar

/-- A wide address and a branch to it. -/
theorem run_wide {scratch : XRegister} {address : BitVec 64}
    {instruction : Instruction}
    (h : Holds memory s.pc
      (codeBytes (AArch64Relaxation.loadAddress scratch address ++ [word])))
    (hDecode : decode word = some instruction) :
    run memory 5 s = some (execute
      (s.next.next.next.next.write scratch.registerNumber address)
      instruction) := by
  have hAll := List.rel_append (loadAddress_decodes scratch address)
    (List.Forall₂.cons hDecode .nil)
  refine (run_of_holds hAll s h ?_).trans ?_
  · intro i hi s
    rw [List.dropLast_concat] at hi
    simp only [movWide, List.mem_cons, List.not_mem_nil, or_false] at hi
    rcases hi with rfl | rfl | rfl | rfl <;>
      simp only [execute, State.next, pc_goTo, pc_write]
  · rw [List.foldl_append, foldl_movWide scratch.lt]
    rfl

/-- The word of the near form, executed. -/
theorem encode_near (h : source.displacementTo target =
      some ((target.bits.toNat : Int) - source.bits.toNat))
    (kind : AArch64RelaxationKind)
    (hReaches : AArch64Relaxation.Reaches ⟨kind, .near⟩ source target) :
    ∃ word, AArch64Relaxation.encode ⟨kind, .near⟩ source target =
        some [word] ∧
      ∀ memory s, s.pc = source.bits → Holds memory s.pc (codeBytes [word]) →
        ∃ s', run memory 1 s = some s' ∧
          kind.Executes target.bits (source.bits + 4) s s' := by
  have hSelected : (AArch64RelaxationMode.near) ≠ .unselected := nofun
  have hGoes := add_ofInt_sub source.bits target.bits
  cases kind with
  | unconditionalBranch label scratch =>
      obtain ⟨word, hWord, hDecode⟩ := emitBImmediate26_spec hReaches
      refine ⟨word, ?_, fun memory s hPc hHolds => ⟨_, run_one hHolds hDecode,
        rfl, ?_, fun _ _ => rfl⟩⟩
      · rw [AArch64Relaxation.encode, check_bind hSelected,
          bind_of_eq_some h]
        exact bind_of_eq_some hWord _
      · rw [execute, pc_goTo, hPc, hGoes]
  | call label scratch =>
      obtain ⟨word, hWord, hDecode⟩ := emitBlImmediate26_spec hReaches
      refine ⟨word, ?_, fun memory s hPc hHolds => ⟨_, run_one hHolds hDecode,
        ?_, ?_, ?_, fun r _ hLink => ?_⟩⟩
      · rw [AArch64Relaxation.encode, check_bind hSelected,
          bind_of_eq_some h]
        exact bind_of_eq_some hWord _
      · rw [execute, flags_goTo, flags_write]
      · rw [execute, pc_goTo, hPc, hGoes]
      · rw [execute, x_goTo, ← hPc]
        exact x_write_self (by decide)
      · rw [execute, x_goTo, x_write_ne hLink]
  | conditionalBranch label condition =>
      obtain ⟨word, hWord, hDecode⟩ :=
        emitBConditionalImmediate_spec condition.value_lt hReaches
      refine ⟨word, ?_, fun memory s hPc hHolds => ⟨_, run_one hHolds hDecode,
        ?_, ?_, ?_⟩⟩
      · rw [AArch64Relaxation.encode, check_bind hSelected,
          bind_of_eq_some h]
        exact bind_of_eq_some hWord _
      · rw [execute]
        split <;> rfl
      · by_cases hHolds : s.flags.holds condition.value
        · rw [execute, if_pos hHolds, if_pos hHolds, pc_goTo, hPc, hGoes]
        · rw [execute, if_neg hHolds, if_neg hHolds, ← hPc]
          rfl
      · rw [execute]
        split <;> rfl

/-- The displacement from the second instruction. -/
theorem inner_displacement (hRoom : source.bits.toNat + 4 < 2 ^ 64)
    (hFits : Fits 26 ((target.bits.toNat : Int) - source.bits.toNat - 4)) :
    MachineAddress.displacementTo ⟨source.bits + BitVec.ofNat 64 4⟩ target =
      some ((target.bits.toNat : Int) - source.bits.toNat - 4) := by
  obtain ⟨words, hWords, hLow, hHigh⟩ := hFits
  refine displacementTo_eq ?_ (by omega) (by omega)
  rw [toNat_add_ofNat hRoom]
  omega

theorem add_inner_displacement (a b : BitVec 64) :
    a + 4 + BitVec.ofInt 64 ((b.toNat : Int) - a.toNat - 4) = b := by
  refine BitVec.eq_of_toNat_eq ?_
  have ha := a.isLt
  have hb := b.isLt
  rw [BitVec.toNat_add, BitVec.toNat_add, BitVec.toNat_ofInt,
    show (4 : BitVec 64).toNat = 4 from rfl]
  omega

/-- The words of the far form, executed. -/
theorem encode_far (h : source.displacementTo target =
      some ((target.bits.toNat : Int) - source.bits.toNat))
    (kind : AArch64RelaxationKind)
    (hReaches : AArch64Relaxation.Reaches ⟨kind, .far⟩ source target) :
    ∃ words, AArch64Relaxation.encode ⟨kind, .far⟩ source target =
        some words ∧
      4 * words.length = AArch64Relaxation.selectedSize ⟨kind, .far⟩ ∧
      ∀ memory s, s.pc = source.bits → Holds memory s.pc (codeBytes words) →
        ∃ n s', run memory n s = some s' ∧ kind.Executes target.bits
          (source.bits + BitVec.ofNat 64
            (AArch64Relaxation.selectedSize ⟨kind, .far⟩)) s s' := by
  have hSelected : (AArch64RelaxationMode.far) ≠ .unselected := nofun
  cases kind with
  | unconditionalBranch label scratch =>
      refine ⟨AArch64Relaxation.loadAddress scratch target.bits ++
        [emitBr scratch], ?_, rfl, fun memory s hPc hHolds =>
          ⟨5, _, run_wide hHolds (decode_emitBr scratch), ?_, ?_,
            fun r hr => ?_⟩⟩
      · rw [AArch64Relaxation.encode, check_bind hSelected,
          bind_of_eq_some h]
        rfl
      · rw [execute, flags_goTo, flags_write]
        rfl
      · rw [execute, pc_goTo, read_write_self scratch.lt]
      · rw [execute, x_goTo, x_write_ne hr]
        rfl
  | call label scratch =>
      refine ⟨AArch64Relaxation.loadAddress scratch target.bits ++
        [emitBlr scratch], ?_, rfl, fun memory s hPc hHolds =>
          ⟨5, _, run_wide hHolds (decode_emitBlr scratch), ?_, ?_, ?_,
            fun r hr hLink => ?_⟩⟩
      · rw [AArch64Relaxation.encode, check_bind hSelected,
          bind_of_eq_some h]
        rfl
      · rw [execute, flags_goTo, flags_write, flags_write]
        rfl
      · rw [execute, pc_goTo, read_write_self scratch.lt]
      · rw [execute, x_goTo, pc_write]
        refine (x_write_self (by decide)).trans ?_
        rw [← hPc]
        simp only [State.next, pc_goTo, BitVec.add_assoc]
        rfl
      · rw [execute, x_goTo, x_write_ne hLink, x_write_ne hr]
        rfl
  | conditionalBranch label condition =>
      obtain ⟨hFits, hRoom⟩ := hReaches
      obtain ⟨skip, hSkip, hSkipDecode⟩ :=
        emitBConditionalImmediate_spec
          (show condition.value ^^^ 1 < 14 by cases condition <;> decide)
          (show Fits 19 8 from ⟨2, rfl, by decide, by decide⟩)
      obtain ⟨far, hFar, hFarDecode⟩ := emitBImmediate26_spec hFits
      refine ⟨[skip, far], ?_, rfl, fun memory s hPc hHolds => ?_⟩
      · have hInner := inner_displacement hRoom hFits
        rw [AArch64Relaxation.encode, check_bind hSelected,
          bind_of_eq_some h]
        refine (bind_of_eq_some hSkip _).trans ?_
        refine (bind_of_eq_some (offsetBy_eq hRoom) _).trans ?_
        exact (bind_of_eq_some hInner _).trans (bind_of_eq_some hFar _)
      · obtain ⟨n, hRun⟩ := run_skip hHolds hSkipDecode hFarDecode
        refine ⟨n, _, hRun, rfl, ?_, rfl⟩
        rw [holds_xor_one s.flags condition.value_lt, hPc]
        cases s.flags.holds condition.value with
        | true => exact add_inner_displacement source.bits target.bits
        | false => rfl

/-- An encoded branch has the size of its form and goes where it is told
to. -/
theorem encode_executes (h : source.displacementTo target =
      some ((target.bits.toNat : Int) - source.bits.toNat))
    {relaxation : AArch64Relaxation}
    (hReaches : relaxation.Reaches source target) :
    ∃ words, relaxation.encode source target = some words ∧
      (codeBytes words).length = relaxation.selectedSize ∧
      ∀ memory s, s.pc = source.bits → Holds memory s.pc (codeBytes words) →
        ∃ n s', run memory n s = some s' ∧
          relaxation.kind.Executes target.bits
            (source.bits + BitVec.ofNat 64 relaxation.selectedSize) s s' := by
  obtain ⟨kind, mode⟩ := relaxation
  cases mode with
  | unselected => exact hReaches.elim
  | near =>
      obtain ⟨word, hEncode, hRun⟩ := encode_near h kind hReaches
      refine ⟨[word], hEncode, rfl, fun memory s hPc hHolds => ?_⟩
      exact ⟨1, hRun memory s hPc hHolds⟩
  | far =>
      obtain ⟨words, hEncode, hLength, hRun⟩ := encode_far h kind hReaches
      exact ⟨words, hEncode, (length_codeBytes words).trans hLength, hRun⟩

end Execution

end CloverVM.Jit
