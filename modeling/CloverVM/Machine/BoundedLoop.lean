import Mathlib

/-!
# Loops that a potential bounds

A `while` loop is run with a number of turns that it may take at most.  Where
each turn lowers a potential, a number of turns that is at least the potential
is enough, and more turns change nothing.  The potential of a table whose
entries only rise is what its entries may still rise.
-/

namespace CloverVM.Machine

section Loops

variable {State : Type}

/-- At most `fuel` turns; a turn may stop the program. -/
def repeatTurns (done : State → Bool) (turn : State → Option State) :
    Nat → State → Option State
  | 0, state => some state
  | fuel + 1, state =>
      if done state then some state
      else turn state >>= repeatTurns done turn fuel

variable {done : State → Bool} {turn : State → Option State}

/-- With as many turns as the potential the loop ends. -/
theorem repeatTurns_ends {Invariant : State → Prop} {potential : State → Nat}
    (hTurn : ∀ state, Invariant state → done state = false →
      ∃ next, turn state = some next ∧ Invariant next ∧
        potential next < potential state) :
    ∀ fuel state, Invariant state → potential state ≤ fuel →
      ∃ last, repeatTurns done turn fuel state = some last ∧ Invariant last ∧
        done last = true := by
  intro fuel
  induction fuel with
  | zero =>
      intro state hInvariant hFuel
      refine ⟨state, rfl, hInvariant, ?_⟩
      by_contra hBusy
      obtain ⟨next, -, -, hLess⟩ :=
        hTurn state hInvariant (Bool.eq_false_of_not_eq_true hBusy)
      omega
  | succ fuel ih =>
      intro state hInvariant hFuel
      rw [repeatTurns]
      cases hDone : done state with
      | true => exact ⟨state, if_pos rfl, hInvariant, hDone⟩
      | false =>
          obtain ⟨next, hNext, hNextInvariant, hLess⟩ :=
            hTurn state hInvariant hDone
          rw [if_neg (by simp), hNext]
          exact ih next hNextInvariant (by omega)

/-- What a turn keeps, any number of turns keeps. -/
theorem repeatTurns_keeps {Invariant : State → Prop}
    (hTurn : ∀ state next, Invariant state → done state = false →
      turn state = some next → Invariant next) :
    ∀ fuel state last, Invariant state →
      repeatTurns done turn fuel state = some last → Invariant last := by
  intro fuel
  induction fuel with
  | zero =>
      intro state last hInvariant hRun
      cases hRun
      exact hInvariant
  | succ fuel ih =>
      intro state last hInvariant hRun
      rw [repeatTurns] at hRun
      cases hDone : done state with
      | true =>
          rw [if_pos hDone] at hRun
          cases hRun
          exact hInvariant
      | false =>
          rw [if_neg (by simp [hDone])] at hRun
          obtain ⟨next, hNext, hRest⟩ := Option.bind_eq_some_iff.mp hRun
          exact ih next last (hTurn state next hInvariant hDone hNext) hRest

/-- A loop over a list goes through if each round does. -/
theorem foldlM_ends {Item : Type} {step : State → Item → Option State}
    {Invariant : List Item → State → Prop}
    (hStep : ∀ item rest state, Invariant (item :: rest) state →
      ∃ next, step state item = some next ∧ Invariant rest next) :
    ∀ items state, Invariant items state →
      ∃ last, items.foldlM step state = some last ∧ Invariant [] last := by
  intro items
  induction items with
  | nil =>
      intro state hInvariant
      exact ⟨state, rfl, hInvariant⟩
  | cons item rest ih =>
      intro state hInvariant
      obtain ⟨next, hNext, hRest⟩ := hStep item rest state hInvariant
      rw [List.foldlM_cons, hNext]
      exact ih next hRest

/-- More turns than the loop takes change nothing. -/
theorem repeatTurns_of_done {last : State} :
    ∀ fuel state, repeatTurns done turn fuel state = some last →
      done last = true → ∀ more, fuel ≤ more →
        repeatTurns done turn more state = some last := by
  intro fuel
  induction fuel with
  | zero =>
      intro state hRun hDone more _
      cases hRun
      cases more with
      | zero => rfl
      | succ more => rw [repeatTurns, if_pos hDone]
  | succ fuel ih =>
      intro state hRun hDone more hMore
      obtain ⟨more, rfl⟩ : ∃ less, more = less + 1 :=
        ⟨more - 1, by omega⟩
      rw [repeatTurns] at hRun ⊢
      split at hRun
      · rename_i hNow
        rw [if_pos hNow]
        exact hRun
      · rename_i hNow
        rw [if_neg hNow]
        obtain ⟨next, hNext, hRest⟩ := Option.bind_eq_some_iff.mp hRun
        rw [hNext]
        exact ih next hRest hDone more (by omega)

end Loops

section Tables

variable {Key : Type}

/-- What the ranks of the entries may still rise. -/
def headroom (bound : Nat) (keys : List Key) (rank : Key → Nat) : Nat :=
  (keys.map fun key => bound - rank key).sum

variable {bound : Nat} {keys : List Key} {rank rank' : Key → Nat}

theorem headroom_le (h : ∀ key ∈ keys, rank key ≤ rank' key) :
    headroom bound keys rank' ≤ headroom bound keys rank := by
  refine List.sum_le_sum fun key hKey => ?_
  have hRank := h key hKey
  omega

/-- An entry that rises takes from the headroom. -/
theorem headroom_lt (h : ∀ key ∈ keys, rank key ≤ rank' key) {key : Key}
    (hKey : key ∈ keys) (hLess : rank key < rank' key)
    (hBound : rank' key ≤ bound) :
    headroom bound keys rank' < headroom bound keys rank := by
  refine List.sum_lt_sum _ _ (fun other hOther => ?_) ⟨key, hKey, ?_⟩
  · have hRank := h other hOther
    omega
  · omega

theorem headroom_le_mul : headroom bound keys rank ≤ bound * keys.length := by
  rw [headroom, mul_comm, ← smul_eq_mul,
    ← @List.length_map _ _ keys fun key => bound - rank key]
  refine List.sum_le_card_nsmul _ _ fun value hValue => ?_
  obtain ⟨key, -, rfl⟩ := List.mem_map.mp hValue
  omega

end Tables

end CloverVM.Machine
