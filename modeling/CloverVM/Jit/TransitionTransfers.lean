import CloverVM.Jit.TransitionProgram
import CloverVM.Machine.ParallelMoves

/-!
# Programs of transfers

What the builder, the verifier and the executor make of a list of moves.  The
executor does to the words of the locations what the moves do to values.
-/

namespace CloverVM.Jit

open CloverVM.Machine
open CloverVM.Machine.ParallelMoves

/-- The transfers that carry out moves, each a source and a destination. -/
def transfers {Code : Type}
    (moves : List (TransitionLocation × TransitionLocation)) :
    List (TransitionInstruction Code) :=
  moves.map fun move => .transfer move.2 move.1

namespace TransitionLocation

end TransitionLocation

/-! ## Execution -/

section Execution

variable {registerFile : List Word} {slotCount : Nat}

end Execution

/-! ## Verification -/

section Verification

variable {Code : Type} {slotCount : Nat}

end Verification

/-! ## The builder -/

section Builder

variable {Code : Type} {b : TransitionProgramBuilder Code}

/-- The builder after a list of moves has been appended. -/
structure Appended (b b' : TransitionProgramBuilder Code)
    (moves : List (TransitionLocation × TransitionLocation)) : Prop where
  body_eq : b'.body = b.body ++ transfers moves
  count_le : b.scratchSlotCount ≤ b'.scratchSlotCount
  count_lt : b.scratchSlotCount < 2 ^ 32 → b'.scratchSlotCount < 2 ^ 32
  room : ∀ move ∈ moves, move.2.area = .scratch → 0 ≤ move.2.offset.toInt →
    move.2.index < b'.scratchSlotCount

theorem Appended.trans {b' b'' : TransitionProgramBuilder Code}
    {moves moves' : List (TransitionLocation × TransitionLocation)}
    (h : Appended b b' moves) (h' : Appended b' b'' moves') :
    Appended b b'' (moves ++ moves') := by
  refine
    { body_eq := ?_
      count_le := h.count_le.trans h'.count_le
      count_lt := fun hLt => h'.count_lt (h.count_lt hLt)
      room := fun move hm hArea hPos => ?_ }
  · rw [h'.body_eq, h.body_eq, List.append_assoc]
    unfold transfers
    rw [List.map_append]
  · rcases List.mem_append.mp hm with hm | hm
    · exact Nat.lt_of_lt_of_le (h.room move hm hArea hPos) h'.count_le
    · exact h'.room move hm hArea hPos

end Builder

end CloverVM.Jit
