import Mathlib.Algebra.BigOperators.Ring.List
import Mathlib.Algebra.Order.Ring.Nat
import Mathlib.Algebra.Order.BigOperators.Group.List

/-!
# Pieces that follow one another

A sequence of pieces is laid out from a place on, each behind the one before
it.  `place` is where a piece begins, by the sizes of the pieces, and `Tiles`
says that places and contents make up a whole without a gap or an overlap.

When every piece shrinks, so does every distance between two places.
-/

namespace CloverVM.Machine.Layout

/-- Where the `i`-th piece begins. -/
def place (sizes : List Nat) (i : Nat) : Nat := (sizes.take i).sum

section Places

variable {sizes small large : List Nat} {i j : Nat}

theorem place_cons_succ (size : Nat) (sizes : List Nat) (i : Nat) :
    place (size :: sizes) (i + 1) = size + place sizes i := by
  rw [place, List.take_succ_cons, List.sum_cons, place]

theorem place_length (sizes : List Nat) :
    place sizes sizes.length = sizes.sum := by
  rw [place, List.take_length]

theorem place_succ (h : i < sizes.length) :
    place sizes (i + 1) = place sizes i + sizes[i] := by
  rw [place, List.take_succ_eq_append_getElem h, List.sum_append,
    List.sum_singleton, place]

theorem place_mono (sizes : List Nat) (h : i ≤ j) :
    place sizes i ≤ place sizes j := by
  induction h with
  | refl => exact Nat.le_refl _
  | @step j _ ih =>
      refine ih.trans ?_
      rcases Nat.lt_or_ge j sizes.length with hLess | hPast
      · rw [place_succ hLess]
        exact Nat.le_add_right _ _
      · rw [place, place, List.take_of_length_le hPast,
          List.take_of_length_le (hPast.trans (Nat.le_succ j))]

theorem place_le_sum (sizes : List Nat) (i : Nat) :
    place sizes i ≤ sizes.sum := by
  rcases Nat.le_total i sizes.length with hLe | hPast
  · exact (place_mono sizes hLe).trans_eq (place_length sizes)
  · rw [place, List.take_of_length_le hPast]

theorem dvd_place {n : Nat} (h : ∀ size ∈ sizes, n ∣ size) (i : Nat) :
    n ∣ place sizes i :=
  List.dvd_sum fun size hSize => h size (List.mem_of_mem_take hSize)

/-- Distances shrink with the pieces. -/
theorem place_distance_le (h : List.Forall₂ (· ≤ ·) small large)
    (hij : i ≤ j) :
    place small j + place large i ≤ place large j + place small i := by
  induction hij with
  | refl => exact (Nat.add_comm _ _).le
  | @step j _ ih =>
      rcases Nat.lt_or_ge j small.length with hLess | hPast
      · have hLarge : j < large.length := h.length_eq ▸ hLess
        have hSize : small[j] ≤ large[j] := h.get hLess hLarge
        rw [place_succ hLess, place_succ hLarge]
        omega
      · have hLarge : large.length ≤ j := h.length_eq ▸ hPast
        have hSame : ∀ sizes : List Nat, sizes.length ≤ j →
            place sizes (j + 1) = place sizes j := by
          intro sizes hLe
          rw [place, place, List.take_of_length_le hLe,
            List.take_of_length_le (hLe.trans (Nat.le_succ j))]
        rw [hSame small hPast, hSame large hLarge]
        exact ih

end Places

/-- The pieces, each with the place where it begins, follow one another from
`start` on and make up `code`. -/
inductive Tiles {α : Type*} : Nat → List (Nat × List α) → List α → Prop
  | nil (start : Nat) : Tiles start [] []
  | cons {start : Nat} {bytes code : List α} {pieces : List (Nat × List α)} :
      Tiles (start + bytes.length) pieces code →
      Tiles start ((start, bytes) :: pieces) (bytes ++ code)

section Tilings

variable {α : Type*} {start : Nat} {pieces : List (Nat × List α)}
variable {code bytes before rest : List α} {i position : Nat}

/-- A piece is in the whole at its place. -/
theorem Tiles.piece (h : Tiles start pieces code)
    (hPiece : pieces[i]? = some (position, bytes)) :
    ∃ before after, code = before ++ (bytes ++ after) ∧
      start + before.length = position := by
  induction h generalizing i with
  | nil => cases hPiece
  | @cons start bytes' code pieces _ ih =>
      cases i with
      | zero =>
          obtain ⟨rfl, rfl⟩ : start = position ∧ bytes' = bytes := by
            simpa using hPiece
          exact ⟨[], code, rfl, rfl⟩
      | succ i =>
          obtain ⟨before, after, hCode, hAt⟩ := ih hPiece
          refine ⟨bytes' ++ before, after, ?_, ?_⟩
          · rw [hCode, List.append_assoc]
          · rw [List.length_append]
            omega

/-- The memory with these contents from `offset` on. -/
def writeAt (memory : List α) (offset : Nat) (bytes : List α) : List α :=
  memory.take offset ++ bytes ++ memory.drop (offset + bytes.length)

/-- Writing behind what is written already. -/
theorem writeAt_append (before rest bytes : List α) :
    writeAt (before ++ rest) before.length bytes =
      before ++ bytes ++ rest.drop bytes.length := by
  rw [writeAt, List.take_left, List.drop_append, List.drop_of_length_le
    (Nat.le_add_right _ _), List.nil_append, Nat.add_sub_cancel_left]

end Tilings

end CloverVM.Machine.Layout
