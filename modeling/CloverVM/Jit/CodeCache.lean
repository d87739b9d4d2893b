import CloverVM.Machine.Assertion
import CloverVM.Machine.SizeAlignment

/-!
# The JIT code cache

The cache hands out code ranges and constant pools in slabs.  In a slab code
grows up from the start and pools grow down from the end, and the two never
meet in a page.  A unit is placed in two steps: `propose` picks a slab for the
size the code can have at most, and `commit` takes the size it came to have.

The sizes that come from outside are 64-bit words.  Inside they are computed
with as naturals: every sum that could leave the 64 bits is asserted not to.
What the operating system answers is an argument of the step that asks it: the
address of a new mapping or that there is none, and whether a commit succeeded.
-/

namespace CloverVM.Jit

open CloverVM.Machine

inductive JitCodeError where
  | poolOutOfRange
  | allocationFailure
  | publicationFailure
deriving DecidableEq, Repr

def alignUp (value alignment : Nat) : Option Nat := do
  check (hasSingleBit alignment)
  let mask := alignment - 1
  check (value ≤ sizeMax - mask)
  return roundUp value alignment

def alignDown (value alignment : Nat) : Option Nat := do
  check (hasSingleBit alignment)
  return roundDown value alignment

def alignedPoolOffset (frontier poolSize poolAlignment : Nat) :
    Option Nat := do
  check (hasSingleBit poolAlignment)
  if poolSize = 0 then
    return frontier
  check (poolSize ≤ frontier)
  alignDown (frontier - poolSize) poolAlignment

/-- A mapping of the platform: its first address and its size. -/
structure PlatformCodeSlab where
  base : Nat
  size : Nat
deriving DecidableEq, Repr

/-- Executable, data and writable addresses of an offset.  The platforms of
the repository map a slab once, so that the three are one address. -/
def PlatformCodeSlab.addressAt (slab : PlatformCodeSlab) (offset : Nat) :
    Option Nat := do
  check (offset ≤ slab.size)
  return slab.base + offset

structure PlatformCodeMemory where
  pageSize : UInt64
  codeAllocationGranularity : UInt64
deriving DecidableEq, Repr

/-- A new mapping of `size` bytes, at the page the system gives. -/
def PlatformCodeMemory.allocateSlab (memory : PlatformCodeMemory)
    (mapped : Option Nat) (size : Nat) :
    Option (Except JitCodeError PlatformCodeSlab) := do
  check (size ≠ 0)
  check (size % memory.pageSize.toNat = 0)
  match mapped with
  | none => return .error .allocationFailure
  | some base =>
      check (base % memory.pageSize.toNat = 0)
      return .ok { base, size }

structure CodeSlice where
  executeAddress : Nat
  capacity : Nat
deriving DecidableEq, Repr

def CodeSlice.make (executeAddress capacity : Nat) : Option CodeSlice := do
  check (executeAddress % 4 = 0)
  return { executeAddress, capacity }

/-- `std::span<std::byte>`. -/
structure ByteSpan where
  data : Nat
  size : Nat
deriving DecidableEq, Repr

/-- What `commit` hands out.  A slab is named by its index in the cache. -/
structure CodeAllocation where
  writableCode : ByteSpan
  code : CodeSlice
  constantPool : ByteSpan
  constantPoolAddress : Nat
  slab : Nat
  codeOffset : Nat
  encodedCodeSize : Nat
deriving DecidableEq, Repr

def CodeAllocation.make (writableCode : ByteSpan) (code : CodeSlice)
    (constantPool : ByteSpan) (constantPoolAddress slab codeOffset
      encodedCodeSize : Nat) : Option CodeAllocation := do
  check (writableCode.size ≠ 0)
  check (writableCode.data % 16 = 0)
  return ⟨writableCode, code, constantPool, constantPoolAddress, slab,
    codeOffset, encodedCodeSize⟩

structure CodeAllocationProposal where
  slab : Nat
  codeOffset : Nat
  pessimisticCodeSize : Nat
  poolOffset : Nat
  poolSize : Nat
deriving DecidableEq, Repr

structure CodeCacheSlab where
  platformSlab : PlatformCodeSlab
  pageSize : Nat
  codeGranularity : Nat
  dedicated : Bool
  codeFrontier : Nat
  poolFrontier : Nat
deriving DecidableEq, Repr

namespace CodeCacheSlab

def make (platformSlab : PlatformCodeSlab) (pageSize codeGranularity : Nat)
    (dedicated : Bool) : Option CodeCacheSlab := do
  check (platformSlab.size % pageSize = 0)
  return { platformSlab, pageSize, codeGranularity, dedicated
           codeFrontier := 0
           poolFrontier := platformSlab.size }

def reservationFits (slab : CodeCacheSlab) (reservedCodeSize poolSize
    poolAlignment : Nat) : Option Bool := do
  let slabSize := slab.platformSlab.size
  if reservedCodeSize > slabSize - slab.codeFrontier then
    return false
  if poolSize > slab.poolFrontier then
    return false
  let newPoolFrontier ←
    alignedPoolOffset slab.poolFrontier poolSize poolAlignment
  let newCodeFrontier := slab.codeFrontier + reservedCodeSize
  let lowestPoolPage ← alignDown newPoolFrontier slab.pageSize
  return decide (newCodeFrontier ≤ lowestPoolPage)

def canPropose (slab : CodeCacheSlab) (pessimisticCodeCapacity poolSize
    poolAlignment : Nat) : Option Bool :=
  if slab.dedicated then
    some false
  else
    slab.reservationFits pessimisticCodeCapacity poolSize poolAlignment

/-- The frontiers move before the platform is asked, so a failure of the
platform leaves the space taken. -/
def commit (slab : CodeCacheSlab) (index codeOffset encodedCodeSize poolOffset
    poolSize : Nat) (committed : Bool) :
    Option (CodeCacheSlab × Except JitCodeError CodeAllocation) := do
  let committedSize ← alignUp encodedCodeSize slab.codeGranularity
  check (slab.codeFrontier = codeOffset)
  check (poolOffset ≤ slab.poolFrontier)
  let moved := { slab with
    codeFrontier := slab.codeFrontier + committedSize
    poolFrontier := poolOffset }
  if committed then
    let codeAddress ← slab.platformSlab.addressAt codeOffset
    let poolAddress ← slab.platformSlab.addressAt poolOffset
    let code ← CodeSlice.make codeAddress committedSize
    let allocation ← CodeAllocation.make
      { data := codeAddress, size := committedSize } code
      { data := poolAddress, size := poolSize } poolAddress index codeOffset
      encodedCodeSize
    return (moved, .ok allocation)
  else
    return (moved, .error .allocationFailure)

end CodeCacheSlab

/-! ## The cache -/

structure CodeCache where
  platformMemory : PlatformCodeMemory
  standardSlabSize : UInt64
  slabs : List CodeCacheSlab
deriving DecidableEq, Repr

namespace CodeCache

def pageSize (cache : CodeCache) : Nat := cache.platformMemory.pageSize.toNat

def codeAllocationGranularity (cache : CodeCache) : Nat :=
  cache.platformMemory.codeAllocationGranularity.toNat

def make (platformMemory : PlatformCodeMemory) (standardSlabSize : UInt64) :
    Option CodeCache := do
  let cache : CodeCache := { platformMemory, standardSlabSize, slabs := [] }
  check (hasSingleBit cache.pageSize)
  check (hasSingleBit cache.codeAllocationGranularity)
  check (cache.codeAllocationGranularity ≥ 16)
  check (cache.pageSize % cache.codeAllocationGranularity = 0)
  check (standardSlabSize.toNat ≠ 0)
  check (standardSlabSize.toNat % cache.pageSize = 0)
  return cache

def minimumSlabSize (cache : CodeCache) (pessimisticCodeSize constantPoolSize
    constantPoolAlignment : Nat) : Option Nat := do
  check (hasSingleBit constantPoolAlignment)
  check (constantPoolAlignment ≤ cache.pageSize)
  let reservedCodeSize ←
    alignUp pessimisticCodeSize cache.codeAllocationGranularity
  if constantPoolSize = 0 then
    alignUp reservedCodeSize cache.pageSize
  else
    let codePagesSize ← alignUp reservedCodeSize cache.pageSize
    let poolPagesSize ← alignUp constantPoolSize cache.pageSize
    check (codePagesSize ≤ sizeMax - poolPagesSize)
    return codePagesSize + poolPagesSize

/-- The first slab of the list, counted from `index` on, that takes the
request. -/
def firstCandidate (reservedCodeSize poolSize poolAlignment : Nat) :
    List CodeCacheSlab → Nat → Option (Option Nat)
  | [], _ => some none
  | candidate :: rest, index => do
      if ← candidate.canPropose reservedCodeSize poolSize poolAlignment then
        return some index
      else
        firstCandidate reservedCodeSize poolSize poolAlignment rest (index + 1)

def findCandidate (cache : CodeCache) (useStandardSlab : Bool)
    (reservedCodeSize poolSize poolAlignment : Nat) : Option (Option Nat) :=
  if useStandardSlab then
    firstCandidate reservedCodeSize poolSize poolAlignment cache.slabs 0
  else
    some none

/-- A slab for a request that no slab takes. -/
def newSlab (cache : CodeCache) (mapped : Option Nat) (slabSize : Nat)
    (dedicated : Bool) : Option (Except JitCodeError CodeCacheSlab) := do
  match ← cache.platformMemory.allocateSlab mapped slabSize with
  | .error e => return .error e
  | .ok platformSlab =>
      let slab ← CodeCacheSlab.make platformSlab cache.pageSize
        cache.codeAllocationGranularity dedicated
      return .ok slab

/-- The proposal on the slab that was found or made. -/
def proposeIn (cache : CodeCache) (index : Nat) (slab : CodeCacheSlab)
    (pessimisticCodeSize constantPoolSize constantPoolAlignment : Nat) :
    Option (CodeCache × Except JitCodeError CodeAllocationProposal) := do
  let codeOffset := slab.codeFrontier
  let poolOffset ← alignedPoolOffset slab.poolFrontier constantPoolSize
    constantPoolAlignment
  return (cache, .ok
    { slab := index, codeOffset, pessimisticCodeSize, poolOffset
      poolSize := constantPoolSize })

def propose (cache : CodeCache) (mapped : Option Nat) (pessimisticCodeSize
    constantPoolSize constantPoolAlignment : Nat) :
    Option (CodeCache × Except JitCodeError CodeAllocationProposal) := do
  check (pessimisticCodeSize ≠ 0)
  check (hasSingleBit constantPoolAlignment)
  check (constantPoolAlignment ≤ cache.pageSize)
  let reservedCodeSize ←
    alignUp pessimisticCodeSize cache.codeAllocationGranularity
  let minimumSize ← cache.minimumSlabSize pessimisticCodeSize constantPoolSize
    constantPoolAlignment
  let useStandardSlab := decide (minimumSize ≤ cache.standardSlabSize.toNat)
  match ← cache.findCandidate useStandardSlab reservedCodeSize constantPoolSize
      constantPoolAlignment with
  | some index =>
      let slab ← cache.slabs[index]?
      cache.proposeIn index slab pessimisticCodeSize constantPoolSize
        constantPoolAlignment
  | none =>
      let slabSize := if useStandardSlab then cache.standardSlabSize.toNat
        else minimumSize
      match ← cache.newSlab mapped slabSize (!useStandardSlab) with
      | .error e => return (cache, .error e)
      | .ok slab =>
          proposeIn { cache with slabs := cache.slabs ++ [slab] }
            cache.slabs.length slab pessimisticCodeSize constantPoolSize
            constantPoolAlignment

/-- `CodeAllocationProposal::commit`. -/
def commit (cache : CodeCache) (proposal : CodeAllocationProposal)
    (encodedCodeSize : Nat) (committed : Bool) :
    Option (CodeCache × Except JitCodeError CodeAllocation) := do
  check (encodedCodeSize ≠ 0)
  check (encodedCodeSize ≤ proposal.pessimisticCodeSize)
  let slab ← cache.slabs[proposal.slab]?
  let (moved, result) ← slab.commit proposal.slab proposal.codeOffset
    encodedCodeSize proposal.poolOffset proposal.poolSize committed
  return ({ cache with slabs := cache.slabs.set proposal.slab moved }, result)

end CodeCache

end CloverVM.Jit
