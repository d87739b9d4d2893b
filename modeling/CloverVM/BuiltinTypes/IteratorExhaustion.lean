import CloverVM.BuiltinTypes.DictIterator
import CloverVM.Runtime.RangeLoop

/-!
# Exhausted iterators

The iterators over lists and dicts remember a position, and not that they have
stopped.  One that has stopped goes on when its container has something at the
position again.  An iterator over a range has no container, and stays stopped.
-/

namespace CloverVM.BuiltinTypes

open CloverVM.Collections.IteratorRun
open CloverVM.Runtime (BuiltinException)

section Lists

variable {V : Type}

structure ListIterator where
  index : Nat

def ListIterator.make : ListIterator where
  index := 0

def nativeListIteratorNext (list : List V) (it : ListIterator) :
    ListIterator × Answer V BuiltinException :=
  match list[it.index]? with
  | none => (it, .stop)
  | some value => ({ it with index := it.index + 1 }, .yield value)

/-- The list has nothing at the index or after it. -/
def ListSpent (list : List V) (it : ListIterator) : Prop :=
  list.length ≤ it.index

theorem nativeListIteratorNext_stop_iff (list : List V) (it : ListIterator) :
    (nativeListIteratorNext list it).2 = .stop ↔ ListSpent list it := by
  unfold ListSpent
  rw [← List.getElem?_eq_none_iff]
  unfold nativeListIteratorNext
  cases list[it.index]? with
  | none => exact ⟨fun _ => rfl, fun _ => rfl⟩
  | some value => exact ⟨nofun, nofun⟩

/-- The containers that the next steps of a run find. -/
def containersAtNext {C : Type} : List (Step C) → C → List C
  | [], _ => []
  | .next :: steps, c => c :: containersAtNext steps c
  | .change f :: steps, c => containersAtNext steps (f c)

/-- Up to the first stop, a next step answers what then stands at the index
with its number. -/
theorem listRun_item : ∀ (steps : List (Step (List V))) (list : List V)
    (it : ListIterator) (k : Nat) (answer : Answer V BuiltinException),
    (run nativeListIteratorNext steps list it)[k]? = some answer →
    (∀ j < k, (run nativeListIteratorNext steps list it)[j]? ≠ some .stop) →
    ∃ listThen, (containersAtNext steps list)[k]? = some listThen ∧
      answer = itemAnswer listThen (it.index + k) := by
  intro steps
  induction steps with
  | nil => exact fun _ _ _ _ h _ => absurd h nofun
  | cons step steps ih =>
      intro list it k answer hAnswer hBefore
      cases step with
      | change f => exact ih (f list) it k answer hAnswer hBefore
      | next =>
          unfold run at hAnswer hBefore
          cases hItem : list[it.index]? with
          | none =>
              have hNext : nativeListIteratorNext list it = (it, .stop) := by
                unfold nativeListIteratorNext
                rw [hItem]
              rw [hNext] at hAnswer hBefore
              cases k with
              | zero =>
                  obtain rfl := Option.some.inj hAnswer
                  refine ⟨list, rfl, ?_⟩
                  unfold itemAnswer
                  rw [Nat.add_zero it.index, hItem]
              | succ k => exact absurd rfl (hBefore 0 (Nat.succ_pos k))
          | some value =>
              have hNext : nativeListIteratorNext list it =
                  (⟨it.index + 1⟩, .yield value) := by
                unfold nativeListIteratorNext
                rw [hItem]
              rw [hNext] at hAnswer hBefore
              cases k with
              | zero =>
                  obtain rfl := Option.some.inj hAnswer
                  refine ⟨list, rfl, ?_⟩
                  unfold itemAnswer
                  rw [Nat.add_zero it.index, hItem]
              | succ k =>
                  obtain ⟨listThen, hThen, hEq⟩ := ih list ⟨it.index + 1⟩ k
                    answer hAnswer
                    fun j hj => hBefore (j + 1) (Nat.succ_lt_succ hj)
                  refine ⟨listThen, hThen, ?_⟩
                  rw [hEq, Nat.add_right_comm]
                  rfl

/-- What is expected of the next steps of an iterator over a list. -/
structure ListIterationLaw (steps : List (Step (List V))) (list : List V) :
    Prop where
  staysStopped : StaysStopped (run nativeListIteratorNext steps list .make)
  item : ∀ (k : Nat) (answer : Answer V BuiltinException),
    (run nativeListIteratorNext steps list .make)[k]? = some answer →
    (∀ j < k, (run nativeListIteratorNext steps list .make)[j]? ≠
      some .stop) →
    ∃ listThen, (containersAtNext steps list)[k]? = some listThen ∧
      answer = itemAnswer listThen k

theorem listIterationLaw_iff (steps : List (Step (List V))) (list : List V) :
    ListIterationLaw steps list ↔ SpentOnceStopped nativeListIteratorNext
      ListSpent false steps list .make := by
  rw [← staysStopped_iff nativeListIteratorNext_stop_iff]
  refine ⟨ListIterationLaw.staysStopped, fun h => ⟨h, fun k answer hk hj => ?_⟩⟩
  obtain ⟨listThen, hThen, hEq⟩ := listRun_item steps list .make k answer hk hj
  refine ⟨listThen, hThen, ?_⟩
  rw [hEq]
  exact congrArg _ (Nat.zero_add k)

end Lists

section Ranges

open CloverVM.Runtime.RangeLoop

/-- `RangeIterator.__next__`, beside a container that it does not have. -/
def rangeIteratorNext (_ : Unit) (it : RangeIterator) :
    RangeIterator × Answer ObjectModel.Value BuiltinException :=
  match nativeRangeIteratorNext it with
  | .yield value it => (it, .yield value)
  | .done => (it, .stop)
  | .failed error => (it, .error error)

theorem rangeIteratorNext_stop_iff (c : Unit) (it : RangeIterator) :
    (rangeIteratorNext c it).2 = .stop ↔ nativeRangeIteratorNext it = .done := by
  unfold rangeIteratorNext
  cases nativeRangeIteratorNext it with
  | done => exact ⟨fun _ => rfl, fun _ => rfl⟩
  | yield value it => exact ⟨nofun, nofun⟩
  | failed error => exact ⟨nofun, nofun⟩

/-- A stop leaves a range iterator as it is. -/
theorem rangeIteratorNext_done {c : Unit} {it : RangeIterator}
    (h : nativeRangeIteratorNext it = .done) : (rangeIteratorNext c it).1 = it := by
  unfold rangeIteratorNext
  rw [h]

theorem rangeRun_staysStopped (steps : List (Step Unit)) (it : RangeIterator) :
    StaysStopped (run rangeIteratorNext steps () it) :=
  staysStopped_of_keeps rangeIteratorNext_stop_iff
    (fun _ _ h => (rangeIteratorNext_done h).symm ▸ h) (fun _ _ _ h => h)
    steps () it

end Ranges

/-- A list iterator yields the element at the number of its step and stays
stopped, and a dict iterator stays stopped, iff no next step after a stop finds
the container with something at the position again (or, of a dict, with another
size).  A range iterator always stays stopped. -/
theorem staysExhausted_iff (K V : Type) :
    (∀ (steps : List (Step (List V))) (list : List V),
      ListIterationLaw steps list ↔ SpentOnceStopped nativeListIteratorNext
        ListSpent false steps list .make) ∧
    (∀ (steps : List (Step (Dict K V))) (d : Dict K V),
      StaysStopped (run Dict.nativeDictKeyIteratorNext steps d (.make d)) ↔
        SpentOnceStopped Dict.nativeDictKeyIteratorNext Dict.Spent false steps
          d (.make d)) ∧
    (∀ (steps : List (Step (Dict K V))) (d : Dict K V),
      StaysStopped (run Dict.nativeDictValueIteratorNext steps d (.make d)) ↔
        SpentOnceStopped Dict.nativeDictValueIteratorNext Dict.Spent false
          steps d (.make d)) ∧
    (∀ (steps : List (Step (Dict K V))) (d : Dict K V),
      StaysStopped (run Dict.nativeDictItemIteratorNext steps d (.make d)) ↔
        SpentOnceStopped Dict.nativeDictItemIteratorNext Dict.Spent false steps
          d (.make d)) ∧
    ∀ (steps : List (Step Unit)) (it : Runtime.RangeLoop.RangeIterator),
      StaysStopped (run rangeIteratorNext steps () it) :=
  ⟨listIterationLaw_iff,
    fun steps d => staysStopped_iff
      Dict.nativeDictKeyIteratorNext_stop_iff steps d _,
    fun steps d => staysStopped_iff
      Dict.nativeDictValueIteratorNext_stop_iff steps d _,
    fun steps d => staysStopped_iff
      Dict.nativeDictItemIteratorNext_stop_iff steps d _,
    rangeRun_staysStopped⟩

/-- A list that has grown brings its iterator back: after its only element it
stops, and then it yields what was appended. -/
theorem not_listIterationLaw_append :
    ¬ ListIterationLaw [.next, .next, .change (· ++ [2]), .next] [1] := by
  intro h
  have hStays := h.staysStopped
  have hRun : run nativeListIteratorNext
      [.next, .next, .change (· ++ [2]), .next] [1] .make =
      [.yield 1, .stop, .yield 2] := rfl
  rw [hRun] at hStays
  exact absurd hStays (by
    unfold StaysStopped
    decide)

end CloverVM.BuiltinTypes
