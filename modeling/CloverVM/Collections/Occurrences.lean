import Mathlib.Data.List.Range
import Mathlib.Order.Bounds.Basic

/-!
# Occurrences of one list in another

Where a list occurs in another as a run of consecutive items, the first and
the last such place from a given position on, and the places a greedy search
from the left takes when matches must not overlap.
-/

namespace CloverVM.Collections.Occurrences

variable {α : Type*}

/-- `t` is the run of `s` that starts at `i`. -/
def OccursAt (t s : List α) (i : Nat) : Prop :=
  i + t.length ≤ s.length ∧ (s.drop i).take t.length = t

instance [DecidableEq α] (t s : List α) (i : Nat) :
    Decidable (OccursAt t s i) :=
  inferInstanceAs (Decidable (_ ∧ _))

/-- The list around an occurrence. -/
theorem occursAt_iff_exists {t s : List α} {i : Nat} :
    OccursAt t s i ↔
      ∃ before after, s = before ++ t ++ after ∧ before.length = i := by
  constructor
  · rintro ⟨hLength, hTake⟩
    refine ⟨s.take i, (s.drop i).drop t.length, ?_, ?_⟩
    · have hRest := List.take_append_drop t.length (s.drop i)
      rw [hTake] at hRest
      rw [List.append_assoc, hRest, List.take_append_drop]
    · rw [List.length_take]
      omega
  · rintro ⟨before, after, rfl, rfl⟩
    refine ⟨?_, ?_⟩
    · simp only [List.length_append]
      omega
    · rw [List.append_assoc, List.drop_left, List.take_left]

/-- Occurrences in what is left of a list. -/
theorem occursAt_drop_iff {t s : List α} {start i : Nat}
    (hStart : start ≤ s.length) :
    OccursAt t (s.drop start) i ↔ OccursAt t s (start + i) := by
  unfold OccursAt
  rw [List.length_drop, List.drop_drop]
  constructor
  · rintro ⟨hLength, hTake⟩
    exact ⟨by omega, hTake⟩
  · rintro ⟨hLength, hTake⟩
    exact ⟨by omega, hTake⟩

/-- Occurrences in a range of a list are those that end in it. -/
theorem occursAt_range_iff {t s : List α} {start stop i : Nat}
    (hOrder : start ≤ stop) (hStop : stop ≤ s.length) :
    OccursAt t ((s.drop start).take (stop - start)) i ↔
      start + i + t.length ≤ stop ∧ OccursAt t s (start + i) := by
  unfold OccursAt
  rw [List.length_take, List.length_drop, List.drop_take, List.drop_drop,
    List.take_take]
  constructor
  · rintro ⟨hLength, hTake⟩
    rw [Nat.min_eq_left (by omega)] at hTake
    exact ⟨by omega, by omega, hTake⟩
  · rintro ⟨hStopped, hLength, hTake⟩
    refine ⟨by omega, ?_⟩
    rw [Nat.min_eq_left (by omega)]
    exact hTake

/-- An occurrence read backwards. -/
theorem occursAt_reverse_iff {t s : List α} {i : Nat}
    (h : i + t.length ≤ s.length) :
    OccursAt t.reverse s.reverse (s.length - t.length - i) ↔
      OccursAt t s i := by
  have hForward : ∀ {t s : List α} {i : Nat}, OccursAt t s i →
      OccursAt t.reverse s.reverse (s.length - t.length - i) := by
    intro t s i hOccurs
    obtain ⟨before, after, rfl, rfl⟩ := occursAt_iff_exists.mp hOccurs
    refine occursAt_iff_exists.mpr ⟨after.reverse, before.reverse, ?_, ?_⟩
    · simp only [List.reverse_append, List.append_assoc]
    · simp only [List.length_append, List.length_reverse]
      omega
  constructor
  · intro hOccurs
    have hBack := hForward hOccurs
    rw [List.reverse_reverse, List.reverse_reverse, List.length_reverse,
      List.length_reverse, show s.length - t.length -
        (s.length - t.length - i) = i by omega] at hBack
    exact hBack
  · exact hForward

section Search

variable [DecidableEq α]

/-! ## The two searches -/

/-- The first occurrence at `pos` or after it. -/
def findFrom (t s : List α) (pos : Nat) : Option Nat :=
  (List.range (s.length + 1)).find? fun i => pos ≤ i ∧ OccursAt t s i

/-- The last occurrence at `pos` or before it. -/
def findBackTo (t s : List α) : Nat → Option Nat
  | 0 => if OccursAt t s 0 then some 0 else none
  | pos + 1 =>
      if OccursAt t s (pos + 1) then some (pos + 1) else findBackTo t s pos

theorem findFrom_eq_some_iff {t s : List α} {pos i : Nat} :
    findFrom t s pos = some i ↔
      IsLeast {i | pos ≤ i ∧ OccursAt t s i} i := by
  unfold findFrom
  rw [List.find?_range_eq_some]
  simp only [decide_eq_true_eq, Bool.not_eq_true', decide_eq_false_iff_not,
    List.mem_range]
  constructor
  · rintro ⟨hFound, -, hBefore⟩
    refine ⟨hFound, ?_⟩
    intro j hj
    by_contra hLess
    exact hBefore j (by omega) hj
  · rintro ⟨hFound, hLeast⟩
    have hLength : i + t.length ≤ s.length := hFound.2.1
    refine ⟨hFound, by omega, ?_⟩
    intro j hLess hj
    have hLe : i ≤ j := hLeast hj
    omega

theorem findFrom_eq_none_iff {t s : List α} {pos : Nat} :
    findFrom t s pos = none ↔ ∀ i, pos ≤ i → ¬ OccursAt t s i := by
  unfold findFrom
  rw [List.find?_range_eq_none]
  simp only [Bool.not_eq_true', decide_eq_false_iff_not, not_and]
  constructor
  · intro h i hPos hOccurs
    have hLength : i + t.length ≤ s.length := hOccurs.1
    exact h i (by omega) hPos hOccurs
  · intro h i _ hPos
    exact h i hPos

theorem findFrom_mem {t s : List α} {pos i : Nat}
    (h : findFrom t s pos = some i) : pos ≤ i ∧ OccursAt t s i :=
  (findFrom_eq_some_iff.mp h).1

theorem findBackTo_eq_some_iff {t s : List α} {pos i : Nat} :
    findBackTo t s pos = some i ↔
      IsGreatest {i | i ≤ pos ∧ OccursAt t s i} i := by
  induction pos with
  | zero =>
      rw [findBackTo]
      constructor
      · intro h
        split at h
        · rename_i hOccurs
          cases h
          exact ⟨⟨Nat.le_refl _, hOccurs⟩, fun j hj => hj.1⟩
        · cases h
      · rintro ⟨⟨hLe, hOccurs⟩, -⟩
        obtain rfl := Nat.le_zero.mp hLe
        rw [if_pos hOccurs]
  | succ pos ih =>
      rw [findBackTo]
      by_cases hHere : OccursAt t s (pos + 1)
      · rw [if_pos hHere]
        constructor
        · intro h
          cases h
          exact ⟨⟨Nat.le_refl _, hHere⟩, fun j hj => hj.1⟩
        · rintro ⟨⟨hLe, -⟩, hGreatest⟩
          have hGe : pos + 1 ≤ i := hGreatest ⟨Nat.le_refl _, hHere⟩
          rw [Nat.le_antisymm hLe hGe]
      · have hSame : {i | i ≤ pos + 1 ∧ OccursAt t s i} =
            {i | i ≤ pos ∧ OccursAt t s i} := by
          ext j
          constructor
          · rintro ⟨hLe, hOccurs⟩
            have hne : j ≠ pos + 1 := fun hEq => hHere (hEq ▸ hOccurs)
            exact ⟨by omega, hOccurs⟩
          · rintro ⟨hLe, hOccurs⟩
            exact ⟨by omega, hOccurs⟩
        rw [if_neg hHere, ih, hSame]

theorem findBackTo_eq_none_iff {t s : List α} {pos : Nat} :
    findBackTo t s pos = none ↔ ∀ i, i ≤ pos → ¬ OccursAt t s i := by
  induction pos with
  | zero =>
      rw [findBackTo]
      constructor
      · intro h i hLe
        obtain rfl := Nat.le_zero.mp hLe
        by_contra hOccurs
        rw [if_pos hOccurs] at h
        cases h
      · intro h
        exact if_neg (h 0 (Nat.le_refl _))
  | succ pos ih =>
      rw [findBackTo]
      by_cases hHere : OccursAt t s (pos + 1)
      · rw [if_pos hHere]
        exact iff_of_false nofun fun h => h _ (Nat.le_refl _) hHere
      · rw [if_neg hHere, ih]
        constructor
        · intro h i hLe
          rcases Nat.lt_or_eq_of_le hLe with hLess | rfl
          · exact h i (by omega)
          · exact hHere
        · exact fun h i hLe => h i (by omega)

/-! ## Greedy cuts -/

/-- A search that goes on after a place that is not empty has less left. -/
theorem findFrom_advances {t s : List α} {pos i : Nat} (ht : t ≠ [])
    (h : findFrom t s pos = some i) :
    s.length + 1 - (i + t.length) < s.length + 1 - pos := by
  have hLength := List.length_pos_of_ne_nil ht
  obtain ⟨hPos, hOccurs⟩ := findFrom_mem h
  have hEnd : i + t.length ≤ s.length := hOccurs.1
  omega

/-- The places a search from the left takes, each after the end of the one
before. -/
def leftmostCuts (t s : List α) (pos : Nat) : List Nat :=
  match h : findFrom t s pos with
  | none => []
  | some i =>
      if hEmpty : t = [] then []
      else
        have := findFrom_advances hEmpty h
        i :: leftmostCuts t s (i + t.length)
  termination_by s.length + 1 - pos

/-- Places of a list that do not overlap, from left to right. -/
def NonOverlapping (t : List α) (places : List Nat) : Prop :=
  places.Pairwise fun i j => i < j ∧ i + t.length ≤ j

variable {t s : List α} {pos : Nat}

theorem leftmostCuts_of_none (h : findFrom t s pos = none) :
    leftmostCuts t s pos = [] := by
  rw [leftmostCuts]
  split
  · rfl
  · rename_i hSome
    rw [h] at hSome
    cases hSome

theorem leftmostCuts_of_some {i : Nat} (ht : t ≠ [])
    (h : findFrom t s pos = some i) :
    leftmostCuts t s pos = i :: leftmostCuts t s (i + t.length) := by
  rw [leftmostCuts]
  split
  · rename_i hNone
    rw [h] at hNone
    cases hNone
  · rename_i j hSome
    rw [h] at hSome
    cases hSome
    rw [dif_neg ht]

/-- The cuts are occurrences from `pos` on. -/
theorem leftmostCuts_mem (ht : t ≠ []) {j : Nat}
    (h : j ∈ leftmostCuts t s pos) : pos ≤ j ∧ OccursAt t s j := by
  induction hMeasure : s.length + 1 - pos using Nat.strong_induction_on
    generalizing pos with
  | _ n ih =>
      cases hFind : findFrom t s pos with
      | none =>
          rw [leftmostCuts_of_none hFind] at h
          cases h
      | some i =>
          have hFound := findFrom_mem hFind
          have hShorter := findFrom_advances ht hFind
          rw [leftmostCuts_of_some ht hFind] at h
          rcases List.mem_cons.mp h with rfl | hRest
          · exact hFound
          · obtain ⟨hLater, hThere⟩ := ih _ (by omega) hRest rfl
            exact ⟨by omega, hThere⟩

/-- The cuts do not overlap. -/
theorem leftmostCuts_nonOverlapping (ht : t ≠ []) :
    NonOverlapping t (leftmostCuts t s pos) := by
  induction hMeasure : s.length + 1 - pos using Nat.strong_induction_on
    generalizing pos with
  | _ n ih =>
      cases hFind : findFrom t s pos with
      | none =>
          rw [leftmostCuts_of_none hFind]
          exact List.Pairwise.nil
      | some i =>
          have hLength := List.length_pos_of_ne_nil ht
          have hShorter := findFrom_advances ht hFind
          rw [leftmostCuts_of_some ht hFind]
          refine List.Pairwise.cons ?_ (ih _ (by omega) rfl)
          intro j hj
          have hLater := (leftmostCuts_mem ht hj).1
          omega

/-- No more places than the cuts fit without overlapping. -/
theorem length_le_leftmostCuts (ht : t ≠ []) {places : List Nat}
    (hPlaces : ∀ j ∈ places, pos ≤ j ∧ OccursAt t s j)
    (hApart : NonOverlapping t places) :
    places.length ≤ (leftmostCuts t s pos).length := by
  induction places generalizing pos with
  | nil => exact Nat.zero_le _
  | cons j places ih =>
      obtain ⟨hPos, hOccurs⟩ := hPlaces j List.mem_cons_self
      obtain ⟨hFirst, hApart⟩ := List.pairwise_cons.mp hApart
      cases hFind : findFrom t s pos with
      | none => exact absurd hOccurs (findFrom_eq_none_iff.mp hFind j hPos)
      | some i =>
          -- the greedy place is at or before the first of the others
          have hLe : i ≤ j := (findFrom_eq_some_iff.mp hFind).2 ⟨hPos, hOccurs⟩
          rw [leftmostCuts_of_some ht hFind]
          refine Nat.succ_le_succ (ih ?_ hApart)
          intro k hk
          have hAfter := (hFirst k hk).2
          exact ⟨by omega, (hPlaces k (List.mem_cons_of_mem _ hk)).2⟩

end Search

end CloverVM.Collections.Occurrences
