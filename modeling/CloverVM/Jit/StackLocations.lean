import CloverVM.Bytecode.Frame
import CloverVM.Jit.ImmediateEncoders
import CloverVM.Jit.ParallelAssignment

/-!
# The stack locations of spilled values

`resolve_bundle_locations` of `jit/allocation_materializer.cpp` gives every
spill slot a place in the frame, below the locals and temporaries; the emitter
then loads and stores it relative to the frame pointer.  A place is reached by
a signed number of bytes, which the encoder refuses from 33 slots below the
frame pointer on: it stops the process there.
-/

namespace CloverVM.Jit

open CloverVM.Machine CloverVM.Machine.BranchCode
open CloverVM.Bytecode.Frame

/-- What the state order of a code object says of its locals and temporaries.
They follow the parameters and the header, and an operand of an instruction, a
signed byte, reaches each of them. -/
structure OrdinarySlots where
  nParameters : Nat
  nLocals : Nat
  nTemporaries : Nat
  fits : ∀ slot < nLocals + nTemporaries,
    encodeReg (roundUpToAbiAlignment nParameters)
      (roundUpToAbiAlignment nParameters + frameHeaderSize + slot) =
        -1 - (slot : Int)

namespace OrdinarySlots

/-- The offset of the last local or temporary. -/
def lowestFrameOffset (order : OrdinarySlots) : Int :=
  -((order.nLocals + order.nTemporaries : Nat) : Int)

/-- The places that the frame has for locals and temporaries. -/
def ordinaryExtent (order : OrdinarySlots) : Nat :=
  roundUpToAbiAlignment (order.nLocals + order.nTemporaries)

end OrdinarySlots

structure PhysicalRegister where
  registerClass : RegisterClass
  number : Nat
deriving DecidableEq, Repr

/-- Two stack locations are the same when their offsets are; what a location
is for is left out. -/
structure StackLocation where
  frameOffset : Int
deriving DecidableEq, Repr

inductive PhysicalLocation where
  | register (register : PhysicalRegister)
  | stack (stack : StackLocation)
deriving DecidableEq, Repr

inductive BundleLocation where
  | physical (location : PhysicalLocation)
  | spillSlot (slot : BitVec 32)
deriving DecidableEq, Repr

/-- Where the bundles of an allocation are. -/
structure RegisterAllocationResult where
  locations : List BundleLocation
  spillSlotCount : BitVec 32
  slots_lt : ∀ slot, .spillSlot slot ∈ locations → slot < spillSlotCount

inductive RegisterAllocationError where
  | insufficientTransferScratchRegisters
  | missingBytecodeStateOrder
deriving DecidableEq, Repr

/-- The sum is in 32 bits, and the sign is that of the cast to a signed
number. -/
def spillFrameOffset (ordinaryExtent : Nat) (slot : BitVec 32) : Int :=
  (-(BitVec.ofNat 32 ordinaryExtent + slot + 1)).toInt

def resolveBundleLocation (ordinaryExtent : Nat) :
    BundleLocation → PhysicalLocation
  | .physical location => location
  | .spillSlot slot => .stack ⟨spillFrameOffset ordinaryExtent slot⟩

/-- The frame is asked for only where something has been spilled. -/
def resolveBundleLocations (order : Option OrdinarySlots)
    (allocation : RegisterAllocationResult) :
    Except RegisterAllocationError (List PhysicalLocation) :=
  if allocation.spillSlotCount = 0 then
    .ok (allocation.locations.map (resolveBundleLocation 0))
  else
    match order with
    | none => .error .missingBytecodeStateOrder
    | some order =>
        .ok (allocation.locations.map
          (resolveBundleLocation order.ordinaryExtent))

inductive LoadStoreOp where
  | store
  | load
deriving DecidableEq, Repr

def LoadStoreOp.bits : LoadStoreOp → Word32
  | store => 0
  | load => 1 <<< 22

/-- A general register or a floating-point register, of 64 bits. -/
inductive LoadStoreValue where
  | general (register : XRegister)
  | simd (number : Fin 32)
deriving DecidableEq, Repr

def LoadStoreValue.encoding : LoadStoreValue → Word32
  | general register => register.encoding
  | simd number => BitVec.ofNat 32 number

def LoadStoreValue.instructionBase :
    LoadStoreValue → LoadStoreAddressMode → Word32
  | general _, .unsignedScaled => 0x39000000
  | general _, .signedUnscaled => 0x38000000
  | simd _, .unsignedScaled => 0x3d000000
  | simd _, .signedUnscaled => 0x3c000000

def emitLoadStore (operation : LoadStoreOp) (value : LoadStoreValue)
    (base : XRegisterOrSP) (byteOffset : Int) : Option Word32 := do
  let address ← encodeLoadStoreAddress base byteOffset 8
  return value.instructionBase address.mode ||| (3 : Word32) <<< 30 |||
    operation.bits ||| address.bits ||| value.encoding

def managedFramePointerRegister : XRegisterOrSP := ⟨21, by decide⟩

def stackByteOffset (stack : StackLocation) : Int := stack.frameOffset * 8

/-- The code of `LoadStack` and `StoreStack`, for each kind of value. -/
def emitStackAccess (operation : LoadStoreOp) (value : LoadStoreValue)
    (stack : StackLocation) : Option Word32 :=
  emitLoadStore operation value managedFramePointerRegister
    (stackByteOffset stack)

/-! ## The places of slots -/

/-- A signed byte reaches 128 places below the frame pointer. -/
theorem OrdinarySlots.slots_le (order : OrdinarySlots) :
    order.nLocals + order.nTemporaries ≤ 128 := by
  by_contra hMore
  have hFits := order.fits 128 (by omega)
  rw [encodeReg, frameHeaderSizeAboveFp, frameHeaderSize] at hFits
  generalize roundUpToAbiAlignment order.nParameters = padded at hFits
  rw [show ((padded : Int) - 1 + 4 - ((padded + 4 + 128 : Nat) : Int)) =
    -129 by omega] at hFits
  exact absurd hFits (by decide)

theorem OrdinarySlots.ordinaryExtent_bounds (order : OrdinarySlots) :
    order.nLocals + order.nTemporaries ≤ order.ordinaryExtent ∧
      order.ordinaryExtent ≤ order.nLocals + order.nTemporaries + 1 ∧
      order.ordinaryExtent ≤ 128 := by
  have hSlots := order.slots_le
  rw [ordinaryExtent, roundUpToAbiAlignment]
  omega

/-- The place of a slot, by the number of places from the frame pointer on. -/
theorem spillFrameOffset_eq {ordinaryExtent : Nat} {slot : BitVec 32} :
    spillFrameOffset ordinaryExtent slot =
      (-((ordinaryExtent + slot.toNat + 1 : Nat) : Int)).bmod (2 ^ 32) := by
  have hSum : BitVec.ofNat 32 ordinaryExtent + slot + 1 =
      BitVec.ofInt 32 (ordinaryExtent + slot.toNat + 1 : Nat) := by
    refine BitVec.eq_of_toNat_eq ?_
    rw [BitVec.ofInt_natCast, BitVec.toNat_add, BitVec.toNat_add,
      BitVec.toNat_ofNat, BitVec.toNat_ofNat,
      show (1 : BitVec 32).toNat = 1 from rfl]
    omega
  rw [spillFrameOffset, hSum, ← BitVec.ofInt_neg, BitVec.toInt_ofInt]

/-- Distinct slots have distinct places. -/
theorem spillFrameOffset_injective (ordinaryExtent : Nat)
    {slot slot' : BitVec 32} (h : spillFrameOffset ordinaryExtent slot =
      spillFrameOffset ordinaryExtent slot') : slot = slot' := by
  have hBits := BitVec.eq_of_toInt_eq h
  have hSum := BitVec.neg_inj.mp hBits
  exact (BitVec.add_right_inj _).mp ((BitVec.add_left_inj _).mp hSum)

/-- The places that an instruction can reach. -/
theorem emitStackAccess_isSome_iff (operation : LoadStoreOp)
    (value : LoadStoreValue) (stack : StackLocation) :
    (∃ word, emitStackAccess operation value stack = some word) ↔
      -32 ≤ stack.frameOffset ∧ stack.frameOffset ≤ 4095 := by
  have hEmit : (∃ word, emitStackAccess operation value stack = some word) ↔
      ∃ address, encodeLoadStoreAddress managedFramePointerRegister
        (stackByteOffset stack) 8 = some address := by
    constructor
    · rintro ⟨word, hWord⟩
      obtain ⟨address, hAddress, -⟩ := Option.bind_eq_some_iff.mp hWord
      exact ⟨address, hAddress⟩
    · rintro ⟨address, hAddress⟩
      exact ⟨_, bind_of_eq_some hAddress _⟩
  rw [hEmit, stackByteOffset]
  constructor
  · rintro ⟨⟨mode, bits⟩, hAddress⟩
    have hOffset := (encodeLoadStoreAddress_sound hAddress).offset
    cases mode with
    | unsignedScaled =>
        have hField : field bits 10 12 < 2 ^ 12 := Nat.mod_lt _ (by decide)
        have hEq : (field bits 10 12 : Int) * 8 = stack.frameOffset * 8 :=
          hOffset
        omega
    | signedUnscaled =>
        have hField : field bits 12 9 < 2 ^ 9 := Nat.mod_lt _ (by decide)
        have hEq : signedField 9 (field bits 12 9) = stack.frameOffset * 8 :=
          hOffset
        unfold signedField at hEq
        split_ifs at hEq <;> omega
  · rintro ⟨hLow, hHigh⟩
    by_cases hNegative : stack.frameOffset < 0
    · have hFits : fitsSignedScaledDisplacement (stack.frameOffset * 8) 9 0 =
          true := by
        rw [fitsSignedScaledDisplacement_iff_units]
        exact ⟨stack.frameOffset * 8, by omega, by omega, by omega⟩
      obtain ⟨immediate, -, hLess, hDecode⟩ := signedImmediate_decodes
        (by decide) (by decide)
        (show -2 ^ 63 ≤ stack.frameOffset * 8 by omega)
        (show stack.frameOffset * 8 < 2 ^ 63 by omega) hFits
      rw [decodeSignedScaledImmediate_eq (by decide) (by decide) hLess,
        Option.some.injEq, Int.pow_zero, Int.mul_one] at hDecode
      exact encodeLoadStoreAddress_complete (by decide) (by decide)
        (signedUnscaled_denotes hLess hDecode)
    · obtain ⟨scaled, hScaled⟩ :=
        Int.eq_ofNat_of_zero_le (Int.not_lt.mp hNegative)
      exact encodeLoadStoreAddress_complete (by decide) (by decide)
        (unsignedScaled_denotes (show scaled < 2 ^ 12 by omega)
          (by rw [hScaled]; rfl))

/-! ## Frames with spill slots -/

/-- A place below all locals and temporaries, which every load and store
reaches. -/
def SlotEncodable (order : OrdinarySlots) (stack : StackLocation) : Prop :=
  stack.frameOffset < order.lowestFrameOffset ∧
    ∀ operation value, ∃ word,
      emitStackAccess operation value stack = some word

/-- Every spilled bundle has such a place, and no two slots share one. -/
structure MaterializesSpillSlots (order : OrdinarySlots)
    (allocation : RegisterAllocationResult)
    (locations : List PhysicalLocation) : Prop where
  encodable : ∀ (bundle : Nat) (slot : BitVec 32),
    allocation.locations[bundle]? = some (.spillSlot slot) →
      ∃ stack, locations[bundle]? = some (.stack stack) ∧
        SlotEncodable order stack
  distinct : ∀ (bundle bundle' : Nat) (slot slot' : BitVec 32)
    (stack stack' : StackLocation),
    allocation.locations[bundle]? = some (.spillSlot slot) →
    allocation.locations[bundle']? = some (.spillSlot slot') →
    locations[bundle]? = some (.stack stack) →
    locations[bundle']? = some (.stack stack') → slot ≠ slot' →
      stack ≠ stack'

/-- A slot is fine up to the 32nd place below the frame pointer. -/
theorem slotEncodable_iff (order : OrdinarySlots) {slot : BitVec 32}
    (hSlot : slot.toNat + 1 < 2 ^ 32) :
    SlotEncodable order ⟨spillFrameOffset order.ordinaryExtent slot⟩ ↔
      order.ordinaryExtent + slot.toNat < 32 := by
  obtain ⟨hExtent, hExtentLe, hSmall⟩ := order.ordinaryExtent_bounds
  have hReach : (∀ operation value, ∃ word,
      emitStackAccess operation value
        ⟨spillFrameOffset order.ordinaryExtent slot⟩ = some word) ↔
      -32 ≤ spillFrameOffset order.ordinaryExtent slot ∧
        spillFrameOffset order.ordinaryExtent slot ≤ 4095 := by
    constructor
    · intro h
      exact (emitStackAccess_isSome_iff .load (.simd 0) _).mp
        (h .load (.simd 0))
    · intro h operation value
      exact (emitStackAccess_isSome_iff operation value _).mpr h
  rw [SlotEncodable, hReach, OrdinarySlots.lowestFrameOffset]
  obtain ⟨places, hPlaces⟩ : ∃ places,
      order.ordinaryExtent + slot.toNat + 1 = places := ⟨_, rfl⟩
  have hOffset : spillFrameOffset order.ordinaryExtent slot =
      (-(places : Int)).bmod (2 ^ 32) := by
    rw [spillFrameOffset_eq, hPlaces]
  dsimp only
  rw [hOffset]
  rcases Nat.lt_or_ge places (2 ^ 31) with hFew | hMany
  · rw [Int.bmod_eq_of_le (by omega) (by omega)]
    omega
  · -- the sum goes past the largest signed number
    rcases Nat.eq_or_lt_of_le hMany with rfl | hMore
    · rw [Int.bmod_eq_of_le (by decide) (by decide)]
      omega
    · rw [← Int.add_bmod_right, Int.bmod_eq_of_le (by omega) (by omega)]
      omega

theorem resolveBundleLocation_spillSlot {ordinaryExtent : Nat}
    {locations : List BundleLocation} {bundle : Nat} {slot : BitVec 32}
    (h : locations[bundle]? = some (.spillSlot slot)) :
    (locations.map (resolveBundleLocation ordinaryExtent))[bundle]? =
      some (.stack ⟨spillFrameOffset ordinaryExtent slot⟩) := by
  rw [List.getElem?_map, h]
  rfl

/-- The frame of any code object, and any allocation: the spill slots get
places of their own below the locals and temporaries that every load and
store reaches if and only if none of them is past the 32nd place. -/
theorem materializesSpillSlots_iff (order : OrdinarySlots)
    (allocation : RegisterAllocationResult) :
    (∃ locations, resolveBundleLocations (some order) allocation =
        .ok locations ∧
      MaterializesSpillSlots order allocation locations) ↔
      ∀ slot, .spillSlot slot ∈ allocation.locations →
        order.ordinaryExtent + slot.toNat < 32 := by
  have hSlots : ∀ slot, .spillSlot slot ∈ allocation.locations →
      slot.toNat + 1 < 2 ^ 32 := by
    intro slot hMem
    have hLess := BitVec.lt_def.mp (allocation.slots_lt slot hMem)
    have hCount := allocation.spillSlotCount.isLt
    omega
  by_cases hZero : allocation.spillSlotCount = 0
  · have hNone : ∀ slot, .spillSlot slot ∉ allocation.locations := by
      intro slot hMem
      have hLess := BitVec.lt_def.mp (allocation.slots_lt slot hMem)
      rw [hZero] at hLess
      exact absurd hLess (Nat.not_lt_zero _)
    refine ⟨fun _ slot hMem => absurd hMem (hNone slot), fun _ =>
      ⟨_, if_pos hZero, ?_, ?_⟩⟩
    · intro bundle slot h
      exact absurd (List.mem_of_getElem? h) (hNone slot)
    · intro bundle bundle' slot slot' stack stack' h
      exact absurd (List.mem_of_getElem? h) (hNone slot)
  · have hResolve : resolveBundleLocations (some order) allocation =
        .ok (allocation.locations.map
          (resolveBundleLocation order.ordinaryExtent)) := if_neg hZero
    constructor
    · rintro ⟨locations, hLocations, hEach⟩ slot hMem
      rw [hResolve] at hLocations
      cases hLocations
      obtain ⟨bundle, hBundle⟩ := List.mem_iff_getElem?.mp hMem
      obtain ⟨stack, hStack, hEncodable⟩ := hEach.encodable bundle slot
        hBundle
      rw [resolveBundleLocation_spillSlot hBundle] at hStack
      cases hStack
      exact (slotEncodable_iff order (hSlots slot hMem)).mp hEncodable
    · intro hAll
      refine ⟨_, hResolve, ?_, ?_⟩
      · intro bundle slot hBundle
        have hMem := List.mem_of_getElem? hBundle
        exact ⟨_, resolveBundleLocation_spillSlot hBundle,
          (slotEncodable_iff order (hSlots slot hMem)).mpr
            (hAll slot hMem)⟩
      · intro bundle bundle' slot slot' stack stack' hBundle hBundle' hStack
          hStack' hne hSame
        rw [resolveBundleLocation_spillSlot hBundle] at hStack
        rw [resolveBundleLocation_spillSlot hBundle'] at hStack'
        cases hStack
        cases hStack'
        exact hne (spillFrameOffset_injective _
          (congrArg StackLocation.frameOffset hSame))

def thirtyTwoLocals : OrdinarySlots :=
  { nParameters := 0, nLocals := 32, nTemporaries := 0, fits := by decide }

def oneSpilledBundle : RegisterAllocationResult :=
  { locations := [.spillSlot 0], spillSlotCount := 1
    slots_lt := by
      intro slot hMem
      rw [List.mem_singleton, BundleLocation.spillSlot.injEq] at hMem
      rw [hMem]
      decide }

/-- The slot is 33 places below the frame pointer, where a load stops the
process. -/
theorem thirtyTwoLocals_not_materialized :
    ¬∃ locations, resolveBundleLocations (some thirtyTwoLocals)
        oneSpilledBundle = .ok locations ∧
      MaterializesSpillSlots thirtyTwoLocals oneSpilledBundle locations := by
  rintro ⟨locations, hLocations, hEach⟩
  have hOffset : resolveBundleLocations (some thirtyTwoLocals)
      oneSpilledBundle = .ok [.stack ⟨-33⟩] := by rfl
  rw [hOffset] at hLocations
  cases hLocations
  obtain ⟨stack, hStack, -, hReach⟩ := hEach.encodable 0 0 rfl
  cases hStack
  obtain ⟨word, hWord⟩ := hReach .load (.simd 0)
  have hNone : emitStackAccess .load (.simd 0) ⟨-33⟩ = none := by decide
  rw [hNone] at hWord
  cases hWord

end CloverVM.Jit
