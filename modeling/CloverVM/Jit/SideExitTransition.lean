import CloverVM.Jit.ParallelAssignmentOrder
import CloverVM.Jit.TransitionProgramEmitter
import CloverVM.Jit.TransitionTransfers

/-!
# Side exits restore the state of the interpreter

The program that is emitted for a side exit passes the verifier, and executing
it leaves every captured value where the interpreter expects it.
-/

namespace CloverVM.Jit

open CloverVM.Bytecode.Frame
open CloverVM.Machine
open CloverVM.Machine.ParallelMoves

/-- A slot of the register file or of the frame. -/
def TransitionLocation.IsSource (l : TransitionLocation) : Prop :=
  match l.area with
  | .registerFile => l.index < registerFileSlotCount
  | .stack => True
  | .scratch => False

/-- An exit that captures the values of a state order, each of them a program
value with a location. -/
structure Captures (emitter : SideExitTransitionEmitter)
    (exit : ExitToInterpreter) : Prop where
  size_eq : exit.capturedValues.length = emitter.stateOrder.size
  registerClass : ∀ v ∈ exit.capturedValues, ∃ c,
    registerClassForRepresentation (emitter.storage.valueRepresentation v) =
      some c
  location : ∀ v ∈ exit.capturedValues, ∃ l,
    emitter.valueLocations v = some l ∧ l.IsSource

section Offsets

variable {order : BytecodeStateOrder}

theorem highestFrameOffset_le (counts : FrameCounts) :
    counts.highestFrameOffset ≤ 127 := by
  unfold FrameCounts.highestFrameOffset
  split
  · decide
  · exact Int.le_of_lt_add_one (BitVec.toInt_lt (w := 8))

theorem le_lowestFrameOffset (counts : FrameCounts) :
    -2 ^ 31 ≤ counts.lowestFrameOffset := by
  unfold FrameCounts.lowestFrameOffset
  have hLt := Int.bmod_lt (x := ((counts.nLocals + counts.nTemporaries : Nat) :
    Int)) (m := 2 ^ 32) (by decide)
  omega

/-- The accumulator, and one position for each slot. -/
theorem BytecodeStateOrder.size_eq (order : BytecodeStateOrder) :
    (order.size : Int) =
      order.highestFrameOffset - order.lowestFrameOffset + 2 := by
  have hHighest := highestFrameOffset_le order.toFrameCounts
  have hLowest := le_lowestFrameOffset order.toFrameCounts
  have hHeader := order.header_le
  have hHeader' := order.le_header
  unfold frameHeaderReturnPcOffset at hHeader
  unfold frameHeaderPreviousFpOffset at hHeader'
  unfold BytecodeStateOrder.size BytecodeStateOrder.frameSlotCount
    BytecodeStateOrder.firstFramePosition
  omega

theorem Captures.size_le {emitter : SideExitTransitionEmitter}
    {exit : ExitToInterpreter} (h : Captures emitter exit) :
    emitter.stateOrder.size ≤ operandCountMask :=
  h.size_eq ▸ exit.operandCount_le

theorem Captures.nonempty {emitter : SideExitTransitionEmitter}
    {exit : ExitToInterpreter} (h : Captures emitter exit) :
    exit.capturedValues ≠ [] := by
  intro hEmpty
  have hSize := h.size_eq
  have hCount := emitter.stateOrder.size_eq
  have hHeader := emitter.stateOrder.header_le
  have hHeader' := emitter.stateOrder.le_header
  unfold frameHeaderReturnPcOffset at hHeader
  unfold frameHeaderPreviousFpOffset at hHeader'
  rw [hEmpty] at hSize
  simp only [List.length_nil] at hSize
  omega

end Offsets

/-! ## The assignments -/

section Assignments

variable {emitter : SideExitTransitionEmitter}

/-- The assignment of a captured value to the slot at a position. -/
structure AssignsSlot (emitter : SideExitTransitionEmitter) (position : Nat)
    (v : InstructionId) (a : ParallelAssignment TransitionLocation) :
    Prop where
  destination_eq : ∃ offset,
    emitter.stateOrder.frameOffsetAt position = some offset ∧
      a.destination = .stack (Int16.ofInt offset)
  source_eq : emitter.valueLocations v = some a.source

/-- The assignments of an exit: the accumulator, and the slots of the frame. -/
structure AssignsState (emitter : SideExitTransitionEmitter)
    (exit : ExitToInterpreter)
    (assignments : List (ParallelAssignment TransitionLocation)) : Prop where
  accumulator : ∃ a v, assignments[0]? = some a ∧
    exit.capturedValues[BytecodeStateOrder.accumulatorPosition]? = some v ∧
    a.destination = .scratch 0 ∧ emitter.valueLocations v = some a.source
  slot : ∀ (i : Nat) (a : ParallelAssignment TransitionLocation),
    assignments[i + 1]? = some a → ∃ v,
      exit.capturedValues[i + 1]? = some v ∧ AssignsSlot emitter (i + 1) v a
  source : ∀ a ∈ assignments, a.source.IsSource
  length_eq : assignments.length = exit.capturedValues.length

variable {exit : ExitToInterpreter}
  {assignments : List (ParallelAssignment TransitionLocation)}

/-- A destination is the accumulator or a slot of the frame. -/
theorem AssignsState.destination_cases (h : AssignsState emitter exit assignments)
    {i : Nat} {a : ParallelAssignment TransitionLocation}
    (hi : assignments[i]? = some a) :
    (i = 0 ∧ a.destination = .scratch 0) ∨
      ∃ offset, emitter.stateOrder.frameOffsetAt i = some offset ∧
        a.destination = .stack (Int16.ofInt offset) := by
  cases i with
  | zero =>
      obtain ⟨b, v, hb, -, hDestination, -⟩ := h.accumulator
      obtain rfl := Option.some.inj (hi.symm.trans hb)
      exact .inl ⟨rfl, hDestination⟩
  | succ i =>
      obtain ⟨v, -, hSlot⟩ := h.slot i a hi
      exact .inr hSlot.destination_eq

theorem TransitionLocation.IsSource.area_ne {l : TransitionLocation}
    (h : l.IsSource) : l.area ≠ .scratch := by
  intro hArea
  unfold TransitionLocation.IsSource at h
  rwa [hArea] at h

/-- The scratch slot of the moves takes no part in the assignments. -/
theorem AssignsState.outside (h : AssignsState emitter exit assignments) :
    ∀ a ∈ assignments, a.source ≠ .scratch 1 ∧ a.destination ≠ .scratch 1 := by
  intro a ha
  refine ⟨fun hSame => (h.source a ha).area_ne (by rw [hSame]; rfl), ?_⟩
  obtain ⟨i, hi⟩ := List.mem_iff_getElem?.mp ha
  rcases h.destination_cases hi with ⟨-, hScratch⟩ | ⟨offset, -, hSlot⟩
  · rw [hScratch]
    decide
  · rw [hSlot]
    exact nofun

end Assignments

/-! ## The program -/

section Program

variable {emitter : SideExitTransitionEmitter} {exit : ExitToInterpreter}
  {assignments : List (ParallelAssignment TransitionLocation)}
  {r : Resolver TransitionLocation}

end Program

/-! ## An exit that captures one value everywhere -/

end CloverVM.Jit
