import Mathlib.Data.List.Pairwise

/-!
# Iterators over containers that change

A run of an iterator mixes its next steps with changes of the container it goes
over.  Once a next step has stopped every later one should stop too.  An
iterator without a state for that asks its container again each time; it then
stays stopped exactly as long as it is spent: it finds nothing to go on with.
-/

namespace CloverVM.Collections.IteratorRun

/-- What a next step of an iterator answers. -/
inductive Answer (A E : Type) where
  | yield (a : A)
  | stop
  | error (e : E)
deriving DecidableEq, Repr

/-- Is it the end of the iteration? -/
def Answer.isStop {A E : Type} : Answer A E → Bool
  | .stop => true
  | _ => false

/-- What stands at an index of a list, as an answer. -/
def itemAnswer {A E : Type} (items : List A) (index : Nat) : Answer A E :=
  match items[index]? with
  | some item => .yield item
  | none => .stop

inductive Step (C : Type) where
  | next
  | change (f : C → C)

variable {I C A E : Type} (next : C → I → I × Answer A E)

/-- The answers of the next steps of a run. -/
def run : List (Step C) → C → I → List (Answer A E)
  | [], _, _ => []
  | .next :: steps, c, it => (next c it).2 :: run steps c (next c it).1
  | .change f :: steps, c, it => run steps (f c) it

/-- No next step after one that stops does anything but stop. -/
def StaysStopped (answers : List (Answer A E)) : Prop :=
  answers.Pairwise fun earlier later => earlier = .stop → later = .stop

/-- At every next step after one that has stopped, the iterator is spent. -/
def SpentOnceStopped (spent : C → I → Prop) :
    Bool → List (Step C) → C → I → Prop
  | _, [], _, _ => True
  | stopped, .next :: steps, c, it =>
      (stopped = true → spent c it) ∧
        SpentOnceStopped spent (stopped || (next c it).2.isStop) steps c
          (next c it).1
  | stopped, .change f :: steps, c, it =>
      SpentOnceStopped spent stopped steps (f c) it

section Laws

variable {next} {spent : C → I → Prop}

theorem isStop_iff {a : Answer A E} : a.isStop = true ↔ a = .stop := by
  cases a with
  | stop => exact ⟨fun _ => rfl, fun _ => rfl⟩
  | yield a => exact ⟨nofun, nofun⟩
  | error e => exact ⟨nofun, nofun⟩

/-- The answers of an iterator that has stopped are all stops iff it is found
spent each time. -/
theorem forall_stop_iff (hSpent : ∀ c it, (next c it).2 = .stop ↔ spent c it) :
    ∀ (steps : List (Step C)) (c : C) (it : I),
      (∀ a ∈ run next steps c it, a = .stop) ↔
        SpentOnceStopped next spent true steps c it := by
  intro steps
  induction steps with
  | nil => exact fun c it => ⟨fun _ => trivial, fun _ => List.forall_mem_nil _⟩
  | cons step steps ih =>
      intro c it
      cases step with
      | change f => exact ih (f c) it
      | next =>
          unfold run SpentOnceStopped
          rw [List.forall_mem_cons, hSpent, ih, Bool.true_or]
          exact and_congr_left' ⟨fun h _ => h, fun h => h rfl⟩

theorem staysStopped_iff
    (hSpent : ∀ c it, (next c it).2 = .stop ↔ spent c it) :
    ∀ (steps : List (Step C)) (c : C) (it : I),
      StaysStopped (run next steps c it) ↔
        SpentOnceStopped next spent false steps c it := by
  intro steps
  induction steps with
  | nil => exact fun c it => ⟨fun _ => trivial, fun _ => List.Pairwise.nil⟩
  | cons step steps ih =>
      intro c it
      cases step with
      | change f => exact ih (f c) it
      | next =>
          unfold StaysStopped at ih
          unfold StaysStopped run SpentOnceStopped
          rw [List.pairwise_cons, Bool.false_or, ih]
          cases hStop : (next c it).2.isStop with
          | true =>
              rw [isStop_iff] at hStop
              have hRest := forall_stop_iff hSpent steps c (next c it).1
              have hFirst : (∀ a ∈ run next steps c (next c it).1,
                  (next c it).2 = .stop → a = .stop) ↔
                  SpentOnceStopped next spent true steps c (next c it).1 := by
                rw [← hRest]
                exact ⟨fun h a ha => h a ha hStop, fun h a ha _ => h a ha⟩
              rw [hFirst]
              constructor
              · rintro ⟨h, -⟩
                exact ⟨nofun, h⟩
              · rintro ⟨-, h⟩
                -- all later answers are stops, so none of them is out of order
                refine ⟨h, (ih c (next c it).1).mp ?_⟩
                exact List.pairwise_of_forall_mem_list fun a _ b hb _ =>
                  hRest.mpr h b hb
          | false =>
              constructor
              · rintro ⟨-, h⟩
                exact ⟨nofun, h⟩
              · rintro ⟨-, h⟩
                refine ⟨fun a _ hFirst => ?_, h⟩
                rw [isStop_iff.mpr hFirst] at hStop
                exact absurd hStop nofun

/-- Where being spent survives every step, an iterator stays stopped. -/
theorem staysStopped_of_keeps
    (hSpent : ∀ c it, (next c it).2 = .stop ↔ spent c it)
    (hNext : ∀ c it, spent c it → spent c (next c it).1)
    (hChange : ∀ c c' it, spent c it → spent c' it)
    (steps : List (Step C)) (c : C) (it : I) :
    StaysStopped (run next steps c it) := by
  rw [staysStopped_iff hSpent]
  have hStopped : ∀ (steps : List (Step C)) (stopped : Bool) (c : C) (it : I),
      (stopped = true → spent c it) →
        SpentOnceStopped next spent stopped steps c it := by
    intro steps
    induction steps with
    | nil => exact fun _ _ _ _ => trivial
    | cons step steps ih =>
        intro stopped c it h
        cases step with
        | change f => exact ih stopped (f c) it fun hs => hChange c _ it (h hs)
        | next =>
            refine ⟨h, ih _ c _ fun hs => hNext c it ?_⟩
            rw [Bool.or_eq_true, isStop_iff, hSpent] at hs
            exact hs.elim h id
  exact hStopped steps false c it nofun

end Laws

end CloverVM.Collections.IteratorRun
