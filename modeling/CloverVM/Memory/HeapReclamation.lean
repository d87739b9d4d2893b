import CloverVM.Collections.Mentions
import CloverVM.Machine.Assertion
import CloverVM.Machine.BoundedLoop

/-!
# Deferred reference counting

`memory/heap_reclamation.cpp`, and the counting of `object_model/refcount.h`.
References from objects and from handles are counted, those on a thread's
stack are not.  An object whose count drops to zero goes to the zero-count
table of the thread that dropped it; a new one is found in the slabs that were
allocated from since the last reclamation.  At a safepoint what has no count
and is on no stack is reclaimed, which may drop further counts.

An object is named by the number of its allocation, and a slab by the number
of its first use, so that memory that is used again has a new name.  `none` is
a failed assertion.
-/

namespace CloverVM.Memory

open CloverVM.Machine CloverVM.Collections

abbrev ObjectId := Nat

abbrev SlabId := Nat

inductive HeapLifecycleState where
  | normal
  | inZct
  | reclaiming
  | dead
deriving DecidableEq, Repr

/-- The slots are those that the release descriptor of the layout covers;
values that are not references to counted objects are left out of them. -/
structure HeapObject where
  refcount : Int
  lifecycleState : HeapLifecycleState
  slots : List (Option ObjectId)
  slab : SlabId
deriving DecidableEq, Repr

structure Heap where
  objects : ObjectId → HeapObject
  allocated : Nat

namespace Heap

/-- Where nothing has been allocated yet. -/
def noObject : HeapObject := ⟨0, .dead, [], 0⟩

def empty : Heap := ⟨fun _ => noObject, 0⟩

def set (heap : Heap) (id : ObjectId) (object : HeapObject) : Heap :=
  { heap with objects := Function.update heap.objects id object }

@[simp, grind =] theorem set_objects (heap : Heap) (id other : ObjectId)
    (object : HeapObject) : (heap.set id object).objects other =
      if other = id then object else heap.objects other :=
  Function.update_apply ..

@[grind =] def setLifecycleState (heap : Heap) (id : ObjectId)
    (lifecycleState : HeapLifecycleState) : Heap :=
  heap.set id { heap.objects id with lifecycleState }

@[grind =] def setRefcount (heap : Heap) (id : ObjectId) (refcount : Int) :
    Heap :=
  heap.set id { heap.objects id with refcount }

@[grind =] def setSlot (heap : Heap) (id : ObjectId) (idx : Nat)
    (value : Option ObjectId) : Heap :=
  heap.set id { heap.objects id with
    slots := (heap.objects id).slots.set idx value }

/-- The counted references to an object: those in slots, and the handles. -/
def references (heap : Heap) (owned : List ObjectId) (id : ObjectId) : Nat :=
  mentions heap.allocated (fun other => (heap.objects other).slots) (some id) +
    owned.count id

/-- `for_each_valid_object`: in the order of their allocation. -/
def validObjects (heap : Heap) (slab : SlabId) : List ObjectId :=
  (List.range heap.allocated).filter fun id =>
    (heap.objects id).slab = slab ∧
      (heap.objects id).lifecycleState ≠ .dead

end Heap

/-- `validate_zero_count_table_for_reclamation`. -/
def validateZeroCountTable (heap : Heap) (table : List ObjectId) :
    Option Unit := do
  check (∀ id ∈ table, (heap.objects id).lifecycleState = .inZct)
  check table.Nodup

/-- `incref`: the count is an `int32_t`. -/
def incref (heap : Heap) (id : ObjectId) : Option Heap := do
  check ((heap.objects id).refcount + 1 < 2 ^ 31)
  return heap.setRefcount id ((heap.objects id).refcount + 1)

/-- The heap, and the zero-count table of the thread at work: what stands in
front of `keep`, and what stands behind `scan`. -/
structure ReclamationContext where
  heap : Heap
  kept : List ObjectId
  currentZct : List ObjectId

namespace ReclamationContext

@[grind =] def setHeap (context : ReclamationContext) (heap : Heap) :
    ReclamationContext :=
  { context with heap }

/-- `add_to_current_zero_count_table_if_needed`, and in the same words
`ThreadState::add_to_zero_count_table_if_needed`. -/
def addToZeroCountTableIfNeeded (context : ReclamationContext)
    (id : ObjectId) : Option ReclamationContext := do
  let object := context.heap.objects id
  check (object.lifecycleState ≠ .reclaiming)
  check (object.lifecycleState ≠ .dead)
  if object.lifecycleState = .inZct then return context
  check (object.lifecycleState = .normal)
  check (object.refcount = 0)
  return { context with
    heap := context.heap.setLifecycleState id .inZct
    currentZct := context.currentZct ++ [id] }

/-- `release_value`, and `decref`. -/
def decref (context : ReclamationContext) (id : ObjectId) :
    Option ReclamationContext :=
  let refcount := (context.heap.objects id).refcount - 1
  let context := context.setHeap (context.heap.setRefcount id refcount)
  if refcount = 0 then context.addToZeroCountTableIfNeeded id else some context

/-- One round of `reclaim_object_value_slots`. -/
def releaseSlot (id : ObjectId) (context : ReclamationContext) (idx : Nat) :
    Option ReclamationContext :=
  let value := (context.heap.objects id).slots[idx]?
  let context := context.setHeap (context.heap.setSlot id idx none)
  match value with
  | some (some child) => context.decref child
  | _ => some context

def reclaimObject (context : ReclamationContext) (id : ObjectId) :
    Option ReclamationContext := do
  check ((context.heap.objects id).lifecycleState = .reclaiming)
  let context ← (List.range (context.heap.objects id).slots.length).foldlM
    (releaseSlot id) context
  return context.setHeap (context.heap.setLifecycleState id .dead)

/-- What is done with an object without a count, in a table or in a slab; a
root is kept. -/
def settle (roots : List ObjectId) (context : ReclamationContext)
    (id : ObjectId) (keep : ReclamationContext) :
    Option ReclamationContext := do
  check ((context.heap.objects id).refcount = 0)
  if id ∈ roots then return keep
  (context.setHeap (context.heap.setLifecycleState id .reclaiming)
    ).reclaimObject id

/-- The loop of `process_zero_count_table_entries` is at its end. -/
def done (context : ReclamationContext) : Bool := context.currentZct.isEmpty

/-- One turn of it. -/
def turn (roots : List ObjectId) (context : ReclamationContext) :
    Option ReclamationContext := do
  let id ← context.currentZct.head?
  let context := { context with currentZct := context.currentZct.tail }
  let object := context.heap.objects id
  check (object.lifecycleState = .inZct)
  if 0 < object.refcount then
    return context.setHeap (context.heap.setLifecycleState id .normal)
  context.settle roots id { context with kept := context.kept ++ [id] }

/-- `process_zero_count_table_entries`, with a number of turns that its loop
does not reach. -/
def processZeroCountTableEntries (roots : List ObjectId)
    (context : ReclamationContext) : Option ReclamationContext := do
  validateZeroCountTable context.heap context.currentZct
  let last ← repeatTurns done (turn roots)
    ((context.heap.allocated + 1) ^ 2) context
  check (last.done = true)
  return last

/-- One round of `scan_epoch_slab_bitmaps`. -/
def scanObject (roots : List ObjectId) (context : ReclamationContext)
    (id : ObjectId) : Option ReclamationContext := do
  let object := context.heap.objects id
  if 0 < object.refcount then return context
  if object.lifecycleState ≠ .normal then return context
  context.settle roots id { context with
    heap := context.heap.setLifecycleState id .inZct
    currentZct := context.currentZct ++ [id] }

def scanEpochSlab (roots : List ObjectId) (context : ReclamationContext)
    (slab : SlabId) : Option ReclamationContext :=
  (context.heap.validObjects slab).foldlM (scanObject roots) context

end ReclamationContext

/-! ## Threads -/

structure ThreadState where
  zeroCountTable : List ObjectId
  localAllocator : SlabId
  epochSlabs : List SlabId
  /-- The references on the stack and in the accumulator. -/
  stack : List ObjectId
deriving DecidableEq, Repr

structure VirtualMachine where
  heap : Heap
  threads : List ThreadState
  /-- The handles outside of the heap. -/
  owned : List ObjectId
  slabs : Nat

/-- `process_thread_reclamation_epoch`. -/
def processThreadReclamationEpoch (roots : List ObjectId) (heap : Heap)
    (thread : ThreadState) : Option (Heap × ThreadState) := do
  let context : ReclamationContext := ⟨heap, [], thread.zeroCountTable⟩
  let context ← context.processZeroCountTableEntries roots
  let context ← thread.epochSlabs.foldlM
    (ReclamationContext.scanEpochSlab roots) context
  return (context.heap, { thread with
    zeroCountTable := context.kept ++ context.currentZct
    epochSlabs := [thread.localAllocator] })

/-- The loop over the threads. -/
def processThreads (roots : List ObjectId) :
    Heap → List ThreadState → Option (Heap × List ThreadState)
  | heap, [] => some (heap, [])
  | heap, thread :: rest => do
      let first ← processThreadReclamationEpoch roots heap thread
      let others ← processThreads roots first.1 rest
      return (others.1, first.2 :: others.2)

namespace VirtualMachine

def tables (vm : VirtualMachine) : List ObjectId :=
  vm.threads.flatMap ThreadState.zeroCountTable

def stackReferences (vm : VirtualMachine) : List ObjectId :=
  vm.threads.flatMap ThreadState.stack

def epochSlabs (vm : VirtualMachine) : List SlabId :=
  vm.threads.flatMap ThreadState.epochSlabs

/-- `run_heap_reclamation`.  The roots are taken from the stacks
conservatively: they are what is there, and maybe more. -/
def runHeapReclamation (roots : List ObjectId) (vm : VirtualMachine) :
    Option VirtualMachine := do
  validateZeroCountTable vm.heap vm.tables
  let last ← processThreads roots vm.heap vm.threads
  return { vm with heap := last.1, threads := last.2 }

end VirtualMachine

end CloverVM.Memory
