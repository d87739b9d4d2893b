import Mathlib

/-!
# Code with assertions

A function that asserts is an `Option`: `none` says that an assertion failed
and the program is stopped there.  `check` is the assertion, and its lemmas
take one assertion at a time off the front of such a function.  Signed
arithmetic asserts that it does not overflow.
-/

namespace CloverVM.Machine

/-- `assert(p)`. -/
def check (p : Prop) [Decidable p] : Option Unit :=
  if p then some () else none

section Checks

variable {α : Type} {p : Prop} [Decidable p]

@[simp] theorem check_eq_some {u : Unit} : check p = some u ↔ p := by
  unfold check
  split <;> simp_all

@[simp] theorem check_bind_eq_some {f : Unit → Option α} {a : α} :
    (check p >>= f) = some a ↔ p ∧ f () = some a := by
  unfold check
  split <;> simp_all

/-- An assertion that holds does nothing. -/
theorem check_bind (hp : p) (f : Unit → Option α) :
    (check p >>= f) = f () := by
  unfold check
  rw [if_pos hp]
  rfl

/-- An assertion that fails stops the program. -/
theorem check_bind_of_not (hp : ¬ p) (f : Unit → Option α) :
    (check p >>= f) = none := by
  unfold check
  rw [if_neg hp]
  rfl

/-- A step that goes through hands its result on. -/
theorem bind_of_eq_some {β : Type} {x : Option α} {a : α} (h : x = some a)
    (f : α → Option β) : (x >>= f) = f a := by
  rw [h]
  rfl

theorem bind_of_eq_none {β : Type} {x : Option α} (h : x = none)
    (f : α → Option β) : (x >>= f) = none := by
  rw [h]
  rfl

/-- A result past a step comes from a result of the step. -/
theorem exists_of_bind {β : Type} {x : Option α} {f : α → Option β} {b : β}
    (h : (x >>= f) = some b) : ∃ a, x = some a ∧ f a = some b :=
  Option.bind_eq_some_iff.mp h

end Checks

/-- An `int64_t` result; `none` where it overflows. -/
def int64 (n : Int) : Option Int := do
  check (-2 ^ 63 ≤ n ∧ n < 2 ^ 63)
  some n

theorem int64_eq_some {n : Int} (h : -2 ^ 63 ≤ n ∧ n < 2 ^ 63) :
    int64 n = some n := check_bind h _

end CloverVM.Machine
