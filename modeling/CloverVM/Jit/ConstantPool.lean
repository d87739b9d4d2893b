import CloverVM.Jit.CodeCache
import CloverVM.Jit.MachineCodeEmitter
import CloverVM.Jit.StackLocations
import CloverVM.Machine.AddressCode

/-!
# Constant pools

The constant pool of `jit/machine_code_emitter.h`, the relocations of
`jit/aarch64_assembler.cpp` that refer to it, and the macros of the assembler
that load from it.  A unit has its values, each of them once, before its other
data.  The code is emitted with immediates of zero; when the code cache has
given the code and the pool their addresses, the relocations put the distances
into the immediates.

In the near mode one instruction reaches the entry; in the far mode it takes
two, one for the page and one for the place in the page.
-/

namespace CloverVM.Jit

open CloverVM.Machine CloverVM.Machine.BranchCode CloverVM.Machine.Layout

namespace MachineAddress

/-- The displacement between the units of `2 ^ alignmentShift` bytes that the
addresses are in. -/
def alignedDisplacementTo (source target : MachineAddress)
    (alignmentShift : Nat) : Option Int := do
  check (alignmentShift < 64)
  let sourceUnits := (source.bits >>> alignmentShift).toNat
  let targetUnits := (target.bits >>> alignmentShift).toNat
  let magnitudeUnits :=
    if sourceUnits ≤ targetUnits then targetUnits - sourceUnits
    else sourceUnits - targetUnits
  check (magnitudeUnits ≤ (2 ^ 63 - 1) / 2 ^ alignmentShift)
  let magnitude : Int := (magnitudeUnits * 2 ^ alignmentShift : Nat)
  return if sourceUnits ≤ targetUnits then magnitude else -magnitude

def offsetWithin (address : MachineAddress) (alignmentShift : Nat) :
    Option Nat := do
  check (alignmentShift < 64)
  let mask := (1 : BitVec 64) <<< alignmentShift - 1
  return (address.bits &&& mask).toNat

end MachineAddress

/-! ## Relocations -/

inductive Area where
  | taggedValues
  | untaggedData
deriving DecidableEq, Repr

structure ConstantPoolEntry where
  area : Area
  byteOffset : Nat
deriving DecidableEq, Repr

inductive AArch64RelocationKind where
  | pcRelative19Scaled4
  | pcRelative21
  | pageRelative21
  | pageOffset12
  | pageOffset12Scaled8
deriving DecidableEq, Repr

structure AArch64Relocation where
  target : ConstantPoolEntry
  kind : AArch64RelocationKind
deriving DecidableEq, Repr

namespace AArch64RelocationKind

/-- The bits of an instruction that a relocation replaces. -/
def immediateMask : AArch64RelocationKind → Word32
  | pcRelative19Scaled4 => (0x7ffff : Word32) <<< 5
  | pcRelative21 | pageRelative21 =>
      (3 : Word32) <<< 29 ||| (0x7ffff : Word32) <<< 5
  | pageOffset12 | pageOffset12Scaled8 => (0xfff : Word32) <<< 10

/-- The immediate that is split over the word. -/
def encodedAddend (instruction : Word32) : Word32 :=
  instruction >>> 29 &&& 3 ||| (instruction >>> 5 &&& 0x7ffff) <<< 2

def splitImmediate (immediate : Word32) : Word32 :=
  (immediate &&& 3) <<< 29 ||| (immediate >>> 2) <<< 5

/-- `AArch64Relocation::apply`, on the instruction that is stored at the
place it writes to.  The parts of a page are added as unsigned words. -/
def apply (kind : AArch64RelocationKind) (instruction : Word32)
    (instructionPc target : MachineAddress) : Option Word32 := do
  let rest := instruction &&& ~~~kind.immediateMask
  match kind with
  | pcRelative19Scaled4 => do
      let addend ← decodeSignedScaledImmediate
        ((instruction &&& kind.immediateMask) >>> 5) 19 2
      let displacement ← int64 (addend +
        (← instructionPc.displacementTo target))
      return rest ||| (← signedImmediate displacement 19 2) <<< 5
  | pcRelative21 => do
      let addend ← decodeSignedScaledImmediate (encodedAddend instruction) 21 0
      let displacement ← int64 (addend +
        (← instructionPc.displacementTo target))
      return rest ||| splitImmediate (← signedImmediate displacement 21 0)
  | pageRelative21 => do
      let addend ← decodeSignedScaledImmediate (encodedAddend instruction) 21
        12
      let pageDisplacement ← int64 (addend +
        (← instructionPc.alignedDisplacementTo target 12))
      return rest |||
        splitImmediate (← signedImmediate pageDisplacement 21 12)
  | pageOffset12 => do
      let addend := ((instruction &&& kind.immediateMask) >>> 10).toNat
      let byteOffset := addend + (← target.offsetWithin 12)
      check (byteOffset < 2 ^ 12)
      return rest ||| BitVec.ofNat 32 byteOffset <<< 10
  | pageOffset12Scaled8 => do
      let addend := ((instruction &&& kind.immediateMask) >>> 10).toNat * 8
      let byteOffset := addend + (← target.offsetWithin 12)
      check (byteOffset % 8 = 0)
      let scaledOffset := BitVec.ofNat 32 (byteOffset / 8)
      check (scaledOffset < 1 <<< 12)
      return rest ||| scaledOffset <<< 10

end AArch64RelocationKind

/-! ## Emitters with a pool -/

/-- `MachineCodeEmitter` with its constant pool: the part of the class that
collects code is `emitter`. -/
structure PooledEmitter where
  emitter : MachineCodeEmitter AArch64Relocation
  values : List (BitVec 64)
  valueIndicesByRawValue : List (BitVec 64 × Nat)
  untaggedData : List Byte
  maximumPoolSpan : Nat
deriving Repr

def alignSize (value alignment : Nat) : Option Nat := do
  check (hasSingleBit alignment)
  let mask := alignment - 1
  check (value ≤ sizeMax - mask)
  return roundUp value alignment

namespace PooledEmitter

/-- A value is a pointer if one of the two pointer tags is set. -/
def isPtr (value : BitVec 64) : Bool := value &&& (0x10 ||| 0x08) != 0

def make (maximumPoolSpan : Nat) : Option PooledEmitter := do
  check (maximumPoolSpan ≠ 0)
  check (maximumPoolSpan ≤ AArch64Relaxation.maximumUnitSize)
  return {
    emitter := MachineCodeEmitter.make AArch64Relocation
    values := []
    valueIndicesByRawValue := []
    untaggedData := []
    maximumPoolSpan }

def addValueToConstantPool (pooled : PooledEmitter) (value : BitVec 64) :
    Option (ConstantPoolEntry × PooledEmitter) := do
  check (pooled.emitter.finalizationAttempted = false)
  match pooled.valueIndicesByRawValue.lookup value with
  | some index => return (⟨.taggedValues, index * 8⟩, pooled)
  | none =>
      check (pooled.values.length ≤ sizeMax / 8)
      let index := pooled.values.length
      return (⟨.taggedValues, index * 8⟩, { pooled with
        values := pooled.values ++ [value]
        valueIndicesByRawValue :=
          (value, index) :: pooled.valueIndicesByRawValue })

def addHeapObjectToConstantPool (pooled : PooledEmitter)
    (object : BitVec 64) : Option (ConstantPoolEntry × PooledEmitter) := do
  check (object ≠ 0)
  check (isPtr object)
  pooled.addValueToConstantPool object

/-- The bytes up to the next multiple of eight are zero. -/
def addDataToConstantPool (pooled : PooledEmitter) (data : List Byte) :
    Option (ConstantPoolEntry × PooledEmitter) := do
  check (pooled.emitter.finalizationAttempted = false)
  check (data ≠ [])
  let offset ← alignSize pooled.untaggedData.length 8
  let resized := pooled.untaggedData ++
    List.replicate (offset - pooled.untaggedData.length) 0
  return (⟨.untaggedData, offset⟩,
    { pooled with untaggedData := resized ++ data })

def resolveRelocationTarget (pooled : PooledEmitter)
    (target : ConstantPoolEntry) (poolAddress : MachineAddress) :
    Option MachineAddress := do
  let taggedSize := pooled.values.length * 8
  match target.area with
  | .taggedValues => do
      check (target.byteOffset < taggedSize)
      check (target.byteOffset % 8 = 0)
      poolAddress.offsetBy target.byteOffset
  | .untaggedData => do
      check (target.byteOffset < pooled.untaggedData.length)
      poolAddress.offsetBy (← addSizes taggedSize target.byteOffset)

/-- What a relocation makes of the instruction at an address. -/
def applyTo (pooled : PooledEmitter) (poolAddress : MachineAddress)
    (relocation : AArch64Relocation) (instruction : Word32)
    (instructionPc : MachineAddress) : Option Word32 := do
  let target ← pooled.resolveRelocationTarget relocation.target poolAddress
  relocation.kind.apply instruction instructionPc target

/-- The loop that stores the values. -/
def storeValues (memory : List Byte) :
    Nat → List (BitVec 64) → Option (List Byte)
  | _, [] => some memory
  | index, value :: values => do
      let stored ← MachineCodeEmitter.store memory (index * 8)
        (AddressCode.longBytes value)
      storeValues stored (index + 1) values

/-- The part of `encode` that fills the pool, which is at `poolAddress`. -/
def encodePool (pooled : PooledEmitter) (poolAddress : Nat)
    (poolBytes : List Byte) : Option (List Byte) := do
  let taggedSize := pooled.values.length * 8
  check (poolBytes.length =
    (← addSizes taggedSize pooled.untaggedData.length))
  check (poolAddress % 8 = 0)
  let stored ← storeValues poolBytes 0 pooled.values
  if pooled.untaggedData ≠ [] then
    MachineCodeEmitter.store stored taggedSize pooled.untaggedData
  else
    return stored

end PooledEmitter

def CodeCache.fitsWithinSpan (cache : CodeCache) (pessimisticCodeSize
    constantPoolSize constantPoolAlignment maximumSpan : Nat) :
    Option Bool := do
  let minimumSize ← cache.minimumSlabSize pessimisticCodeSize
    constantPoolSize constantPoolAlignment
  return decide (constantPoolSize = 0 ∨ minimumSize ≤ maximumSpan)

/-- The address of the code that is proposed. -/
def CodeAllocationProposal.codeAddress (proposal : CodeAllocationProposal)
    (cache : CodeCache) : Option MachineAddress := do
  let slab ← cache.slabs[proposal.slab]?
  let address ← slab.platformSlab.addressAt proposal.codeOffset
  return ⟨BitVec.ofNat 64 address⟩

/-- What a unit comes to: its allocation, its fragments where they have been
placed, and the bytes of its code and of its pool. -/
structure FinishedUnit where
  allocation : CodeAllocation
  fragments : List (Fragment AArch64Relocation)
  code : List Byte
  pool : List Byte

namespace PooledEmitter

def taggedSize (pooled : PooledEmitter) : Nat := pooled.values.length * 8

/-- `finalize`.  The spans that the cache hands out have the bytes `memory`
to begin with; the system maps a new slab at `mapped` and grants the commit or
not. -/
def finalize (pooled : PooledEmitter) (cache : CodeCache)
    (mapped : Option Nat) (committed : Bool) (memory : Nat → List Byte) :
    Option (CodeCache × Except JitCodeError FinishedUnit) := do
  check (pooled.emitter.finalizationAttempted = false)
  let (fragments, pessimisticSize) ←
    pooled.emitter.calculatePessimisticLayout
  check (pessimisticSize ≠ 0)
  check (pessimisticSize ≤ AArch64Relaxation.maximumUnitSize)
  check (pooled.values.length ≤ sizeMax / 8)
  let constantPoolSize ← addSizes pooled.taggedSize pooled.untaggedData.length
  if (← cache.fitsWithinSpan pessimisticSize constantPoolSize 8
      pooled.maximumPoolSpan) = false then
    return (cache, .error .poolOutOfRange)
  match ← cache.propose mapped pessimisticSize constantPoolSize 8 with
  | (cache, .error e) => return (cache, .error e)
  | (cache, .ok proposal) => do
      let codeAddress ← proposal.codeAddress cache
      let (fragments, finalSize) ← MachineCodeEmitter.selectRelaxations
        fragments pooled.emitter.labelBindings codeAddress
      match ← cache.commit proposal finalSize committed with
      | (cache, .error e) => return (cache, .error e)
      | (cache, .ok allocation) => do
          let poolAddress : MachineAddress :=
            ⟨BitVec.ofNat 64 allocation.constantPoolAddress⟩
          let code ← MachineCodeEmitter.encode (pooled.applyTo poolAddress)
            ⟨BitVec.ofNat 64 allocation.code.executeAddress⟩ fragments
            pooled.emitter.labelBindings (memory allocation.writableCode.size)
          let pool ← pooled.encodePool allocation.constantPool.data
            (memory allocation.constantPool.size)
          return (cache, .ok { allocation, fragments, code, pool })

end PooledEmitter

/-! ## The assembler -/

def emitLdrLiteralImmediate19 (destination : XRegister)
    (byteDisplacement : Int) : Option Word32 := do
  let immediate ← signedImmediate byteDisplacement 19 2
  return (0x58000000 : Word32) ||| immediate <<< 5 ||| destination.encoding

def emitAdrImmediate21 (destination : XRegister) (byteDisplacement : Int) :
    Option Word32 := do
  let immediate ← signedImmediate byteDisplacement 21 0
  let immediateLow := immediate &&& 3
  let immediateHigh := immediate >>> 2
  return (0x10000000 : Word32) ||| immediateLow <<< 29 |||
    immediateHigh <<< 5 ||| destination.encoding

def emitAdrpPageImmediate21 (destination : XRegister)
    (pageDisplacement : Int) : Option Word32 := do
  check (pageDisplacement.tmod 4096 = 0)
  let immediate ← signedImmediate pageDisplacement 21 12
  let immediateLow := immediate &&& 3
  let immediateHigh := immediate >>> 2
  return (0x90000000 : Word32) ||| immediateLow <<< 29 |||
    immediateHigh <<< 5 ||| destination.encoding

/-- On a register of 64 bits, with the base no stack pointer. -/
def emitLoadStoreUnsignedOffset (operation : LoadStoreOp)
    (value base : XRegister) (byteOffset : Nat) : Option Word32 := do
  check (byteOffset % 8 = 0)
  let scaledOffset := BitVec.ofNat 32 (byteOffset / 8)
  check (scaledOffset < 1 <<< 12)
  return (0x39000000 : Word32) ||| (3 : Word32) <<< 30 ||| operation.bits |||
    scaledOffset <<< 10 ||| base.encoding <<< 5 ||| value.encoding

/-- The addition on registers of 64 bits, with the immediate not shifted. -/
def emitAddImm12 (destination source : XRegister) (immediate : BitVec 16) :
    Option Word32 := do
  check (immediate < 1 <<< 12)
  return (0x11000000 : Word32) ||| (1 : Word32) <<< 31 |||
    (immediate.setWidth 32) <<< 10 ||| source.encoding <<< 5 |||
    destination.encoding

inductive AArch64ValuePoolMode where
  | nearLiteral
  | farPageRelative
deriving DecidableEq, Repr

def AArch64ValuePoolMode.maximumPoolSpan : AArch64ValuePoolMode → Nat
  | nearLiteral => 1024 * 1024
  | farPageRelative => AArch64Relaxation.maximumUnitSize

structure AArch64MacroAssembler where
  poolMode : AArch64ValuePoolMode
  pooled : PooledEmitter
deriving Repr

namespace AArch64MacroAssembler

def make (poolMode : AArch64ValuePoolMode) : Option AArch64MacroAssembler := do
  return { poolMode, pooled := ← PooledEmitter.make poolMode.maximumPoolSpan }

/-- A step of the emitter. -/
def emitter (assembler : AArch64MacroAssembler)
    (operation : MachineCodeEmitter.Operation AArch64Relocation) :
    Option AArch64MacroAssembler := do
  let emitter ← assembler.pooled.emitter.perform operation
  return { assembler with pooled := { assembler.pooled with emitter } }

/-- An instruction and the relocation for it. -/
def emitRelocated (assembler : AArch64MacroAssembler) (word : Word32)
    (relocation : AArch64Relocation) : Option AArch64MacroAssembler := do
  let assembler ← assembler.emitter (.emitBytes (wordBytes word))
  assembler.emitter (.addRelocation relocation)

def ldr (assembler : AArch64MacroAssembler) (destination : XRegister)
    (entry : ConstantPoolEntry) : Option AArch64MacroAssembler := do
  match assembler.poolMode with
  | .nearLiteral =>
      assembler.emitRelocated (← emitLdrLiteralImmediate19 destination 0)
        ⟨entry, .pcRelative19Scaled4⟩
  | .farPageRelative => do
      let assembler ← assembler.emitRelocated
        (← emitAdrpPageImmediate21 destination 0) ⟨entry, .pageRelative21⟩
      assembler.emitRelocated
        (← emitLoadStoreUnsignedOffset .load destination destination 0)
        ⟨entry, .pageOffset12Scaled8⟩

def adr (assembler : AArch64MacroAssembler) (destination : XRegister)
    (target : ConstantPoolEntry) : Option AArch64MacroAssembler := do
  match assembler.poolMode with
  | .nearLiteral =>
      assembler.emitRelocated (← emitAdrImmediate21 destination 0)
        ⟨target, .pcRelative21⟩
  | .farPageRelative => do
      let assembler ← assembler.emitRelocated
        (← emitAdrpPageImmediate21 destination 0) ⟨target, .pageRelative21⟩
      assembler.emitRelocated (← emitAddImm12 destination destination 0)
        ⟨target, .pageOffset12⟩

end AArch64MacroAssembler

end CloverVM.Jit
