import Mathlib

/-!
# Producers and arithmetic progressions

A producer is a state machine that yields one value a step until it is done
or fails.  `Produces` says that from a state it yields exactly a given list
and then is done; it holds of at most one list.

The progression `start, start + step, …` has `termCount` terms strictly
before `stop` in the direction of `step`.  Stepping code usually computes the
next term before it is known to be needed, so `produces_progression_iff`
takes the successor function as a parameter that is only known on a
representable range: the code is right exactly when the first term past
`stop` is representable too, provided an unrepresentable successor never
looks exhausted.
-/

namespace CloverVM.Machine.Producer

/-- What one step of a producer does. -/
inductive Outcome (σ α ε : Type*) where
  | yield (value : α) (next : σ)
  | done
  | failed (error : ε)

section Produces

variable {σ τ α ε : Type*}

/-- From state `s` the producer yields the listed values and then is done. -/
def Produces (step : σ → Outcome σ α ε) : σ → List α → Prop
  | s, [] => step s = .done
  | s, value :: rest => ∃ next, step s = .yield value next ∧
      Produces step next rest

end Produces

/-! ## Progressions -/

/-- The term has not reached `stop` in the direction of `step`. -/
def Before (stop step x : Int) : Prop :=
  if 0 < step then x < stop else stop < x

instance (stop step x : Int) : Decidable (Before stop step x) := by
  unfold Before
  infer_instance

/-- The number of terms of the progression strictly before `stop`. -/
def termCount (start stop step : Int) : Nat :=
  if 0 < step then ((stop - start + (step - 1)) / step).toNat
  else ((start - stop + (-step - 1)) / -step).toNat

/-- The progression up to `stop`. -/
def terms (start stop step : Int) : List Int :=
  (List.range (termCount start stop step)).map fun i : Nat =>
    start + i * step

/-- The terms are those indices whose value is before `stop`. -/
theorem lt_termCount_iff {start stop step : Int} (hStep : step ≠ 0)
    (i : Nat) :
    i < termCount start stop step ↔ Before stop step (start + i * step) := by
  rw [termCount, Before]
  split
  · rename_i hPos
    rw [Int.lt_toNat, Int.lt_iff_add_one_le, Int.le_ediv_iff_mul_le hPos]
    constructor
    · intro h
      linarith
    · intro h
      nlinarith
  · rename_i hPos
    have hNeg : 0 < -step := by omega
    rw [Int.lt_toNat, Int.lt_iff_add_one_le, Int.le_ediv_iff_mul_le hNeg]
    constructor
    · intro h
      linarith
    · intro h
      nlinarith

theorem termCount_eq_zero_iff {start stop step : Int} (hStep : step ≠ 0) :
    termCount start stop step = 0 ↔ ¬ Before stop step start := by
  have h : 0 < termCount start stop step ↔ _ := lt_termCount_iff hStep 0
  simp only [Nat.cast_zero, zero_mul, add_zero] at h
  rw [← h]
  omega

/-- Dropping the first term shifts the progression by one step. -/
theorem termCount_succ {start stop step : Int} (hStep : step ≠ 0)
    (h : Before stop step start) :
    termCount start stop step = termCount (start + step) stop step + 1 := by
  have hIff : ∀ i : Nat, i < termCount start stop step ↔
      i < termCount (start + step) stop step + 1 := by
    intro i
    cases i with
    | zero =>
        have hZero : 0 < termCount start stop step ↔ _ :=
          lt_termCount_iff hStep 0
        simp only [Nat.cast_zero, zero_mul, add_zero] at hZero
        exact iff_of_true (hZero.mpr h) (Nat.succ_pos _)
    | succ i =>
        rw [lt_termCount_iff hStep, Nat.succ_lt_succ_iff,
          lt_termCount_iff hStep]
        have hTerm : start + ((i + 1 : Nat) : Int) * step =
            start + step + i * step := by
          push_cast
          ring
        rw [hTerm]
  have hLe := hIff (termCount start stop step)
  have hGe := hIff (termCount (start + step) stop step + 1)
  omega

theorem terms_of_before {start stop step : Int} (hStep : step ≠ 0)
    (h : Before stop step start) :
    terms start stop step = start :: terms (start + step) stop step := by
  rw [terms, terms, termCount_succ hStep h, List.range_succ_eq_map,
    List.map_cons, List.map_map]
  congr 1
  · simp
  · apply List.map_congr_left
    intro i _
    simp only [Function.comp_apply]
    push_cast
    ring

theorem terms_of_not_before {start stop step : Int} (hStep : step ≠ 0)
    (h : ¬ Before stop step start) : terms start stop step = [] := by
  rw [terms, (termCount_eq_zero_iff hStep).mpr h]
  rfl

/-! ## Producers that step through a progression -/

section Progression

variable {σ α ε : Type*}

/-- A producer steps through a progression: `Holds c s` says that state `s`
holds the current term `c`, `Fits` which terms can be held, and `successor`
what is held after the step, the next term when that fits. -/
structure Steps (step : σ → Outcome σ α ε) (Holds : Int → σ → Prop)
    (Fits : Int → Prop) (encode : Int → α) (successor : Int → Int)
    (stop stride : Int) : Prop where
  strideNe : stride ≠ 0
  done : ∀ {c s}, Fits c → Holds c s → ¬ Before stop stride c → step s = .done
  yield : ∀ {c s}, Fits c → Holds c s → Before stop stride c →
    ∃ next, step s = .yield (encode c) next ∧ Holds (successor c) next
  between : ∀ {c}, Fits c → Before stop stride (c + stride) →
    Fits (c + stride)
  exact : ∀ {c}, Fits c → Fits (c + stride) → successor c = c + stride
  successorFits : ∀ {c}, Fits c → Fits (successor c)
  wrapped : ∀ {c}, Fits c → ¬ Fits (c + stride) → Before stop stride c →
    Before stop stride (successor c)

variable {step : σ → Outcome σ α ε} {Holds : Int → σ → Prop}
  {Fits : Int → Prop} {encode : Int → α} {successor : Int → Int}
  {stop stride : Int}

/-- A stepping producer yields the progression exactly when there is no term
at all or the first value past the last term fits. -/
theorem Steps.produces_iff
    (h : Steps step Holds Fits encode successor stop stride) {c : Int} {s : σ}
    (hFits : Fits c) (hHolds : Holds c s) :
    Produces step s ((terms c stop stride).map encode) ↔
      (termCount c stop stride = 0 ∨
        Fits (c + termCount c stop stride * stride)) := by
  generalize hCount : termCount c stop stride = n
  induction n generalizing c s with
  | zero =>
      have hNot := (termCount_eq_zero_iff h.strideNe).mp hCount
      rw [terms_of_not_before h.strideNe hNot]
      exact iff_of_true (h.done hFits hHolds hNot) (Or.inl rfl)
  | succ n ih =>
      have hBefore : Before stop stride c := by
        by_contra hNot
        rw [(termCount_eq_zero_iff h.strideNe).mpr hNot] at hCount
        exact absurd hCount (Nat.succ_ne_zero n).symm
      have hRest : termCount (c + stride) stop stride = n := by
        have hSucc := termCount_succ h.strideNe hBefore
        omega
      obtain ⟨next, hStep, hNext⟩ := h.yield hFits hHolds hBefore
      rw [terms_of_before h.strideNe hBefore, List.map_cons, Produces]
      have hTail : (∃ next', step s = .yield (encode c) next' ∧
          Produces step next' ((terms (c + stride) stop stride).map encode)) ↔
          Produces step next
            ((terms (c + stride) stop stride).map encode) := by
        constructor
        · rintro ⟨next', hStep', hProduces⟩
          rw [hStep] at hStep'
          cases hStep'
          exact hProduces
        · exact fun hProduces => ⟨next, hStep, hProduces⟩
      have hLast : c + ((n + 1 : Nat) : Int) * stride =
          c + stride + n * stride := by
        push_cast
        ring
      rw [hTail, hLast]
      by_cases hFitsNext : Fits (c + stride)
      · rw [h.exact hFits hFitsNext] at hNext
        rw [ih hFitsNext hNext hRest]
        constructor
        · rintro (hZero | hFitsLast)
          · subst hZero
            refine Or.inr ?_
            simpa using hFitsNext
          · exact Or.inr hFitsLast
        · rintro (hZero | hFitsLast)
          · exact absurd hZero (Nat.succ_ne_zero n)
          · exact Or.inr hFitsLast
      · -- only the value past the last term can fail to fit
        have hNot : ¬ Before stop stride (c + stride) := fun hB =>
          hFitsNext (h.between hFits hB)
        have hZero : n = 0 := by
          rw [← hRest]
          exact (termCount_eq_zero_iff h.strideNe).mpr hNot
        subst hZero
        rw [terms_of_not_before h.strideNe hNot]
        refine iff_of_false ?_ ?_
        · intro hDone
          obtain ⟨next', hStep', -⟩ := h.yield (h.successorFits hFits) hNext
            (h.wrapped hFits hFitsNext hBefore)
          rw [List.map_nil, Produces, hStep'] at hDone
          cases hDone
        · simpa using hFitsNext

end Progression

end CloverVM.Machine.Producer
