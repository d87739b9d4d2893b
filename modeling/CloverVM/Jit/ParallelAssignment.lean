import CloverVM.Machine.Assertion

/-!
# Ordering parallel assignments

A set of assignments between locations is to happen at once.  The resolver puts
moves in an order that has the same effect: an assignment is ready when nobody
still reads its destination, and a cycle, where nobody is ready, is broken by
moving one of its values to a scratch location.

Maps are functions into `Option`, deques and vectors are lists, and counters are
naturals.  `none` is a call of `fatal`.
-/

namespace CloverVM.Jit

open CloverVM.Machine

inductive RegisterClass where
  | gpr
  | simd
deriving DecidableEq, Repr

inductive ParallelAssignmentError where
  | insufficientScratchLocations
deriving DecidableEq, Repr

/-- One assignment of a simultaneous shuffle: the value initially in `source`
must end in `destination`. -/
structure ParallelAssignment (Location : Type) where
  source : Location
  destination : Location
  registerClass : RegisterClass
deriving DecidableEq, Repr

/-- Where a move has its value from. -/
inductive OrderedMoveSource where
  | originalAssignment (index : Nat)
  | move (index : Nat)
deriving DecidableEq, Repr

/-- A move, and the assignment it completes.  A move to a scratch location
completes none (index `-1` in the source). -/
structure OrderedMove (Location : Type) where
  source : OrderedMoveSource
  sourceLocation : Location
  destination : Location
  registerClass : RegisterClass
  originalAssignmentIndex : Option Nat
deriving DecidableEq, Repr

structure OrderedParallelAssignment (Location : Type) where
  aliasingAssignments : List Nat
  moves : List (OrderedMove Location)
deriving DecidableEq, Repr

structure PendingAssignment (Location : Type) where
  originalIndex : Nat
  source : OrderedMoveSource
  sourceLocation : Location
  destination : Location
  registerClass : RegisterClass
  pending : Bool
  queued : Bool
deriving DecidableEq, Repr

/-- The state of the resolver.  `scratchCalls` has the arguments of every call
of the callback so far. -/
structure Resolver (Location : Type) where
  result : OrderedParallelAssignment Location
  pending : List (PendingAssignment Location)
  nPending : Nat
  nPendingSources : Location → Option Nat
  assignmentsBySource : Location → Option (List Nat)
  assignmentByDestination : Location → Option Nat
  ready : List Nat
  cycleCandidates : List Nat
  scratchCalls : List (RegisterClass × Nat)

namespace Resolver

variable {Location : Type} [DecidableEq Location]

/-- `map[key] = value`. -/
def put {β : Type} (map : Location → Option β) (key : Location) (value : β) :
    Location → Option β :=
  fun other => if other = key then some value else map other

/-- `map.erase(key)`. -/
def erase {β : Type} (map : Location → Option β) (key : Location) :
    Location → Option β :=
  fun other => if other = key then none else map other

/-- `map.emplace(key, value)`: a key that is there keeps its value. -/
def emplace {β : Type} (map : Location → Option β) (key : Location)
    (value : β) : Location → Option β :=
  if (map key).isSome then map else put map key value

def empty : Resolver Location :=
  { result := { aliasingAssignments := [], moves := [] }
    pending := []
    nPending := 0
    nPendingSources := fun _ => none
    assignmentsBySource := fun _ => none
    assignmentByDestination := fun _ => none
    ready := []
    cycleCandidates := []
    scratchCalls := [] }

def enqueueIfReady (r : Resolver Location) (index : Nat) :
    Resolver Location :=
  match r.pending[index]? with
  | none => r
  | some assignment =>
      if !assignment.pending || assignment.queued ||
          (r.nPendingSources assignment.destination).isSome then
        r
      else
        { r with
          pending := r.pending.set index { assignment with queued := true }
          ready := r.ready ++ [index] }

def sourceBecameFree (r : Resolver Location) (source : Location) :
    Resolver Location :=
  match r.assignmentByDestination source with
  | none => r
  | some destination => r.enqueueIfReady destination

/-- One assignment of the span, with its index in it. -/
def addAssignment (r : Resolver Location) (originalIndex : Nat)
    (assignment : ParallelAssignment Location) : Option (Resolver Location) :=
  if assignment.source = assignment.destination then
    some { r with result := { r.result with
      aliasingAssignments := r.result.aliasingAssignments ++ [originalIndex] } }
  else do
    check ((r.assignmentByDestination assignment.destination).isNone)
    let pendingIndex := r.pending.length
    return { r with
      pending := r.pending ++
        [{ originalIndex
           source := .originalAssignment originalIndex
           sourceLocation := assignment.source
           destination := assignment.destination
           registerClass := assignment.registerClass
           pending := true
           queued := false }]
      nPendingSources := put r.nPendingSources assignment.source
        ((r.nPendingSources assignment.source).getD 0 + 1)
      assignmentsBySource := put r.assignmentsBySource assignment.source
        ((r.assignmentsBySource assignment.source).getD [] ++ [pendingIndex])
      assignmentByDestination := put r.assignmentByDestination
        assignment.destination pendingIndex
      cycleCandidates := r.cycleCandidates ++ [pendingIndex] }

def addAssignments (r : Resolver Location) (originalIndex : Nat) :
    List (ParallelAssignment Location) → Option (Resolver Location)
  | [] => some r
  | assignment :: rest => do
      let r' ← r.addAssignment originalIndex assignment
      r'.addAssignments (originalIndex + 1) rest

def make (assignments : List (ParallelAssignment Location)) :
    Option (Resolver Location) := do
  let r ← empty.addAssignments 0 assignments
  let r := { r with nPending := r.pending.length }
  return (List.range r.pending.length).foldl enqueueIfReady r

def complete (r : Resolver Location) (index : Nat) :
    Option (Resolver Location) := do
  let assignment ← r.pending[index]?
  check (assignment.pending = true)
  let r := { r with
    pending := r.pending.set index { assignment with pending := false }
    nPending := r.nPending - 1 }
  let source := assignment.sourceLocation
  let count ← r.nPendingSources source
  check (0 < count)
  if count - 1 ≠ 0 then
    return { r with
      nPendingSources := put r.nPendingSources source (count - 1) }
  else
    return sourceBecameFree { r with
      nPendingSources := erase r.nPendingSources source
      assignmentsBySource := erase r.assignmentsBySource source } source

/-- The move of an assignment that is ready. -/
def makeMove (assignment : PendingAssignment Location) :
    OrderedMove Location :=
  { source := assignment.source
    sourceLocation := assignment.sourceLocation
    destination := assignment.destination
    registerClass := assignment.registerClass
    originalAssignmentIndex := some assignment.originalIndex }

def pushMove (r : Resolver Location) (move : OrderedMove Location) :
    Resolver Location :=
  { r with result := { r.result with moves := r.result.moves ++ [move] } }

/-- One round of the loop with an assignment that is ready. -/
def stepReady (r : Resolver Location) (index : Nat) (rest : List Nat) :
    Option (Resolver Location) := do
  let assignment ← r.pending[index]?
  let r := { r with
    ready := rest
    pending := r.pending.set index { assignment with queued := false } }
  (r.pushMove (makeMove assignment)).complete index

/-- The first candidate that is still part of a cycle, and the candidates
after it. -/
def nextCycle (r : Resolver Location) : List Nat → Option (Nat × List Nat)
  | [] => none
  | index :: rest =>
      match r.pending[index]? with
      | none => none
      | some assignment =>
          if assignment.pending &&
              (r.nPendingSources assignment.destination).isSome then
            some (index, rest)
          else
            r.nextCycle rest

/-- The users of a location read the scratch location instead.  Returns the
assignments, the users that were moved, in order, and how many. -/
def repointUsers (oldSource scratch : Location) (scratchMove : Nat) :
    List Nat → List (PendingAssignment Location) →
      List (PendingAssignment Location) × List Nat × Nat
  | [], pending => (pending, [], 0)
  | index :: users, pending =>
      match pending[index]? with
      | none => repointUsers oldSource scratch scratchMove users pending
      | some assignment =>
          if !assignment.pending || assignment.sourceLocation ≠ oldSource then
            repointUsers oldSource scratch scratchMove users pending
          else
            let (pending', moved, count) :=
              repointUsers oldSource scratch scratchMove users
                (pending.set index { assignment with
                  source := .move scratchMove
                  sourceLocation := scratch })
            (pending', index :: moved, count + 1)

/-- The move that saves the value of a cycle. -/
def scratchMove (selected : PendingAssignment Location) (scratch : Location) :
    OrderedMove Location :=
  { source := selected.source
    sourceLocation := selected.sourceLocation
    destination := scratch
    registerClass := selected.registerClass
    originalAssignmentIndex := none }

def breakCycle (r : Resolver Location) (cycle : Nat) (scratch : Location) :
    Option (Resolver Location) := do
  let selected ← r.pending[cycle]?
  let scratchMoveIndex := r.result.moves.length
  let r := r.pushMove (scratchMove selected scratch)
  let oldSource := selected.sourceLocation
  let users ← r.assignmentsBySource oldSource
  let (pending, moved, movedSources) :=
    repointUsers oldSource scratch scratchMoveIndex users r.pending
  let bySource := erase r.assignmentsBySource oldSource
  let bySource := if moved.isEmpty then bySource
    else put bySource scratch ((bySource scratch).getD [] ++ moved)
  let oldSourceCount ← r.nPendingSources oldSource
  check (oldSourceCount = movedSources)
  return sourceBecameFree { r with
    pending
    assignmentsBySource := bySource
    nPendingSources :=
      emplace (erase r.nPendingSources oldSource) scratch movedSources }
    oldSource

/-- One round of the loop that finds no assignment ready: it goes on with the
cycle broken, or ends because there is no scratch location. -/
def stepCycle (makeCycleScratch : RegisterClass → Nat → Option Location)
    (r : Resolver Location) :
    Option (Resolver Location ⊕ ParallelAssignmentError) := do
  let (cycle, rest) ← r.nextCycle r.cycleCandidates
  let r := { r with cycleCandidates := rest }
  let selected ← r.pending[cycle]?
  let call := (selected.registerClass, r.result.moves.length)
  let r := { r with scratchCalls := r.scratchCalls ++ [call] }
  match makeCycleScratch call.1 call.2 with
  | none => return .inr .insufficientScratchLocations
  | some scratch => return .inl (← r.breakCycle cycle scratch)

/-- One round of the loop. -/
def step (makeCycleScratch : RegisterClass → Nat → Option Location)
    (r : Resolver Location) :
    Option (Resolver Location ⊕ ParallelAssignmentError) :=
  match r.ready with
  | index :: rest => (r.stepReady index rest).map .inl
  | [] => r.stepCycle makeCycleScratch

/-- How a call of the resolver ends. -/
inductive Outcome (Location : Type) where
  | fatal
  | error (e : ParallelAssignmentError)
  | ok (r : Resolver Location)

/-- At most `fuel` rounds of the loop; `none` when they do not do. -/
def resolve (makeCycleScratch : RegisterClass → Nat → Option Location) :
    Nat → Resolver Location → Option (Outcome Location)
  | fuel, r =>
      if r.nPending = 0 then
        some (.ok r)
      else
        match fuel with
        | 0 => none
        | fuel + 1 =>
            match r.step makeCycleScratch with
            | none => some .fatal
            | some (.inr e) => some (.error e)
            | some (.inl r') => resolve makeCycleScratch fuel r'

end Resolver

/-- The number of rounds that the loop can take: one for each assignment, and
one for each candidate for a cycle. -/
def roundBound {Location : Type} (r : Resolver Location) : Nat :=
  r.nPending + r.cycleCandidates.length

def orderParallelAssignments {Location : Type} [DecidableEq Location]
    (assignments : List (ParallelAssignment Location))
    (makeCycleScratch : RegisterClass → Nat → Option Location) :
    Option (Resolver.Outcome Location) :=
  match Resolver.make assignments with
  | none => some .fatal
  | some r => Resolver.resolve makeCycleScratch (roundBound r) r

end CloverVM.Jit
