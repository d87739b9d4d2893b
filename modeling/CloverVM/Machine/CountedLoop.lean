import CloverVM.Machine.Assertion

/-!
# Counted loops of code that may halt

Native code that cannot go on halts: what it does is undefined, or it ends the
process with a message.  Such code is an `Except` over the reasons to halt, and
`Ends` says of a run that it gives a state with a property or halts for a
reason with another.  A counted loop keeps an invariant that speaks of the
index, for as long as its turns end well.
-/

namespace CloverVM.Machine

/-- Why native code does not return. -/
inductive Halt where
  /-- A cell outside the storage is accessed, or a signed sum overflows. -/
  | undefined
  /-- The process is ended with a message. -/
  | fatal (message : String)
deriving DecidableEq, Repr

/-! ## Runs -/

section Runs

variable {ε σ τ : Type}

/-- The run gives a state with `Post`, or halts for a reason with `Stop`. -/
def Ends (run : Except ε σ) (Post : σ → Prop) (Stop : ε → Prop) : Prop :=
  match run with
  | .ok state => Post state
  | .error reason => Stop reason

variable {run : Except ε σ} {Post Post' : σ → Prop} {Stop Stop' : ε → Prop}

theorem Ends.mono (h : Ends run Post Stop) (hPost : ∀ s, Post s → Post' s)
    (hStop : ∀ e, Stop e → Stop' e) : Ends run Post' Stop' := by
  cases run with
  | ok state => exact hPost state h
  | error reason => exact hStop reason h

/-- A run that cannot halt gives a state. -/
theorem Ends.exists_ok (h : Ends run Post fun _ => False) :
    ∃ state, run = .ok state ∧ Post state := by
  cases run with
  | ok state => exact ⟨state, rfl, h⟩
  | error reason => exact h.elim

/-- A run whose state is known. -/
theorem Ends.of_eq {state : σ} (hRun : run = .ok state) (h : Post state) :
    Ends run Post Stop := by
  rw [hRun]
  exact h

theorem Ends.bind {rest : σ → Except ε τ} {Last : τ → Prop}
    (h : Ends run Post Stop)
    (hRest : ∀ s, Post s → Ends (rest s) Last Stop) :
    Ends (run >>= rest) Last Stop := by
  cases run with
  | ok state => exact hRest state h
  | error reason => exact h

theorem bind_ok {state : σ} (hRun : run = .ok state)
    (rest : σ → Except ε τ) : (run >>= rest) = rest state := by
  rw [hRun]
  rfl

end Runs

/-- What has to hold for the behaviour to be defined. -/
def demand (p : Prop) [Decidable p] : Except Halt Unit :=
  if p then .ok () else .error .undefined

theorem demand_of {p : Prop} [Decidable p] (hp : p) : demand p = .ok () :=
  if_pos hp

/-- A computation that is undefined where it has no result. -/
def orUndefined {α : Type} : Option α → Except Halt α
  | some a => .ok a
  | none => .error .undefined

theorem orUndefined_some {α : Type} (a : α) : orUndefined (some a) = .ok a :=
  rfl

/-- A signed 64-bit result. -/
def signed (n : Int) : Except Halt Int := orUndefined (int64 n)

theorem signed_of {n : Int} (h : -2 ^ 63 ≤ n ∧ n < 2 ^ 63) :
    signed n = .ok n := by
  rw [signed, int64_eq_some h]
  rfl

section Loops

variable {ε σ : Type}

/-- `for(idx = first; idx < first + count; ++idx)`. -/
def forUp (body : Nat → σ → Except ε σ) : Nat → Nat → σ → Except ε σ
  | 0, _, state => .ok state
  | count + 1, idx, state => body idx state >>= forUp body count (idx + 1)

/-- `for(idx = last + count; idx > last; --idx)`. -/
def forDown (body : Nat → σ → Except ε σ) (last : Nat) :
    Nat → σ → Except ε σ
  | 0, state => .ok state
  | count + 1, state =>
      body (last + (count + 1)) state >>= forDown body last count

variable {body : Nat → σ → Except ε σ} {Inv : Nat → σ → Prop}
  {Stop : ε → Prop}

/-- What the turns from `first` to `stop` keep, the loop keeps. -/
theorem forUp_ends {first stop : Nat}
    (hBody : ∀ idx state, first ≤ idx → idx < stop → Inv idx state →
      Ends (body idx state) (Inv (idx + 1)) Stop) :
    ∀ count idx state, first ≤ idx → idx + count = stop → Inv idx state →
      Ends (forUp body count idx state) (Inv stop) Stop := by
  intro count
  induction count with
  | zero =>
      intro idx state _ hStop hInv
      rw [Nat.add_zero] at hStop
      exact hStop ▸ hInv
  | succ count ih =>
      intro idx state hFirst hStop hInv
      have hTurn := hBody idx state hFirst (by omega) hInv
      exact hTurn.bind fun next hNext =>
        ih (idx + 1) next (by omega) (by omega) hNext

/-- What the turns down to `last` keep, the loop keeps. -/
theorem forDown_ends {last : Nat} :
    ∀ (count : Nat) (state : σ),
      (∀ idx state, last < idx → idx ≤ last + count → Inv idx state →
        Ends (body idx state) (Inv (idx - 1)) Stop) →
      Inv (last + count) state →
      Ends (forDown body last count state) (Inv last) Stop := by
  intro count
  induction count with
  | zero => exact fun state _ hInv => hInv
  | succ count ih =>
      intro state hBody hInv
      have hTurn := hBody (last + (count + 1)) state (by omega) (by omega) hInv
      refine hTurn.bind fun next hNext => ih next ?_ hNext
      exact fun idx state hLast hCount =>
        hBody idx state hLast (by omega)

end Loops

end CloverVM.Machine
