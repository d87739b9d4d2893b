import CloverVM.Machine.Producer
import CloverVM.ObjectModel.Value
import CloverVM.Runtime.BuiltinException

/-!
# Range loops

The four copies of the range stepping code: `ForIterRange1` and
`ForIterRangeStep` in the direct loop over a `range(...)` call, `ForIter` on a
`RangeIterator`, and `RangeIterator.__next__`; and the two places that check
the arguments, `ForPrepRange1/2/3` and the `range` builtin.

Every copy computes the next value when it yields the current one, checks the
sum for 64-bit overflow and stores it as an SMI, which keeps 59 bits.
-/

namespace CloverVM.Runtime.RangeLoop

open CloverVM.ObjectModel
open CloverVM.Machine.Producer

/-- An SMI-typed value. -/
structure Smi where
  value : Value
  isSmi : value.isSmi = true

namespace Smi

/-- Storing a 64-bit integer as an SMI keeps its low 59 bits. -/
def fromSmi (v : BitVec 64) : Smi :=
  { value := Value.fromSmi v
    isSmi := by
      rw [show Value.fromSmi v = Value.ofInt v.toInt by
        rw [Value.ofInt, BitVec.ofInt_toInt]]
      exact isSmi_ofInt _ }

def extract (v : Smi) : BitVec 64 := v.value.getSmi

end Smi

/-- The range iterator object. -/
structure RangeIterator where
  current : Smi
  stop : Smi
  step : Smi

/-- The argument check of the range builtin. -/
def requireRangeIntegerArg (arg : Value) : Except BuiltinException Smi :=
  if h : arg.isSmi = true then .ok { value := arg, isSmi := h }
  else .error rangeIntegerArgumentError

/-- `range(start, end=None, step=None)`: a missing end makes the first
argument the stop. -/
def builtinRange (startArg endArg stepArg : Value) :
    Except BuiltinException RangeIterator := do
  let start := if endArg = Value.none then Value.fromSmi 0#64 else startArg
  let stop := if endArg = Value.none then startArg else endArg
  let step := if stepArg = Value.none then Value.fromSmi 1#64 else stepArg
  let start ← requireRangeIntegerArg start
  let stop ← requireRangeIntegerArg stop
  let step ← requireRangeIntegerArg step
  if step.extract = 0#64 then .error rangeZeroStepError
  else .ok { current := start, stop := stop, step := step }

/-- The iteration has reached `stop` in the direction of `step`. -/
def exhausted (current stop step : BitVec 64) : Prop :=
  if step.toInt > 0 then current.toInt ≥ stop.toInt
  else current.toInt ≤ stop.toInt

instance (current stop step : BitVec 64) :
    Decidable (exhausted current stop step) := by
  unfold exhausted
  infer_instance

/-- `RangeIterator.__next__`. -/
def nativeRangeIteratorNext (iterator : RangeIterator) :
    Outcome RangeIterator Value BuiltinException :=
  let currentSmi := iterator.current.extract
  let stopSmi := iterator.stop.extract
  let stepSmi := iterator.step.extract
  if stepSmi = 0#64 then .failed rangeZeroStepError
  else if exhausted currentSmi stopSmi stepSmi then .done
  else if BitVec.saddOverflow currentSmi stepSmi then
    .failed unimplementedIntegerOverflow
  else
    .yield iterator.current.value
      { iterator with current := Smi.fromSmi (currentSmi + stepSmi) }

/-! ## Loop instructions -/

/-- The part of an interpreter frame that the loop instructions touch. -/
structure LoopFrame where
  accumulator : Value
  fp : Int → Value
  pc : Int

/-- Write one frame register. -/
def LoopFrame.store (s : LoopFrame) (reg : Int) (v : Value) : LoopFrame :=
  { s with fp := fun r => if r = reg then v else s.fp r }

@[simp] theorem LoopFrame.store_fp (s : LoopFrame) (reg : Int) (v : Value)
    (r : Int) : (s.store reg v).fp r = if r = reg then v else s.fp r := rfl

/-- What a loop instruction does: leave the loop, or go on with the current
value in the accumulator. -/
inductive IterStep where
  | exhausted (s : LoopFrame)
  | next (s : LoopFrame)

/-- The jump out of an exhausted loop. -/
def LoopFrame.exit (s : LoopFrame) (relTarget : Int) : LoopFrame :=
  { s with accumulator := Value.none, pc := s.pc + 4 + relTarget }

/-- `ForIter` on the iterator held in its register, `none` for any value that
is not a range iterator. -/
def opForIter (iterator : Option RangeIterator) (relTarget : Int)
    (s : LoopFrame) :
    Except BuiltinException (IterStep × Option RangeIterator) :=
  match iterator with
  | none => .error notIteratorError
  | some it =>
      let current := it.current.value
      let stop := it.stop.value
      let step := it.step.value
      if !current.isSmi || !stop.isSmi || !step.isSmi then
        .error invalidRangeIterationStateError
      else if step.getSmi = 0#64 then .error invalidRangeIterationStateError
      else if exhausted current.getSmi stop.getSmi step.getSmi then
        .ok (.exhausted (s.exit relTarget), some it)
      else if BitVec.saddOverflow current.getSmi step.getSmi then
        .error overflowError
      else
        .ok (.next { s with accumulator := current, pc := s.pc + 4 },
          some { it with
            current := Smi.fromSmi (current.getSmi + step.getSmi) })

/-- Enter the generic loop instead: the callable is not the range builtin. -/
def LoopFrame.fallback (s : LoopFrame) (relTarget : Int) : LoopFrame :=
  { s with pc := s.pc + 4 + relTarget }

def opForPrepRange1 (rangeBuiltin : Value) (reg relTarget : Int)
    (s : LoopFrame) : Except BuiltinException LoopFrame :=
  if s.fp reg ≠ rangeBuiltin then .ok (s.fallback relTarget)
  else
    let stop := s.fp (reg - 1)
    if !stop.isSmi then .error rangeIntegerArgumentError
    else .ok { s.store reg (Value.fromSmi 0#64) with pc := s.pc + 4 }

def opForPrepRange2 (rangeBuiltin : Value) (reg relTarget : Int)
    (s : LoopFrame) : Except BuiltinException LoopFrame :=
  if s.fp reg ≠ rangeBuiltin then .ok (s.fallback relTarget)
  else
    let start := s.fp (reg - 1)
    let stop := s.fp (reg - 2)
    if !start.isSmi || !stop.isSmi then .error rangeIntegerArgumentError
    else .ok { (s.store reg start).store (reg - 1) stop with pc := s.pc + 4 }

def opForPrepRange3 (rangeBuiltin : Value) (reg relTarget : Int)
    (s : LoopFrame) : Except BuiltinException LoopFrame :=
  if s.fp reg ≠ rangeBuiltin then .ok (s.fallback relTarget)
  else
    let start := s.fp (reg - 1)
    let stop := s.fp (reg - 2)
    let step := s.fp (reg - 3)
    if !start.isSmi || !stop.isSmi || !step.isSmi then
      .error rangeIntegerArgumentError
    else if step.getSmi = 0#64 then .error rangeZeroStepError
    else
      .ok
        { ((s.store reg start).store (reg - 1) stop).store (reg - 2) step with
          pc := s.pc + 4 }

def opForIterRange1 (reg relTarget : Int) (s : LoopFrame) :
    Except BuiltinException IterStep :=
  let current := s.fp reg
  let stop := s.fp (reg - 1)
  if !current.isSmi || !stop.isSmi then
    .error invalidRangeIterationStateError
  else if current.getSmi.toInt ≥ stop.getSmi.toInt then
    .ok (.exhausted (s.exit relTarget))
  else if BitVec.saddOverflow current.getSmi 1#64 then .error overflowError
  else
    .ok (.next
      { s.store reg (Value.fromSmi (current.getSmi + 1#64)) with
        accumulator := current, pc := s.pc + 4 })

def opForIterRangeStep (reg relTarget : Int) (s : LoopFrame) :
    Except BuiltinException IterStep :=
  let current := s.fp reg
  let stop := s.fp (reg - 1)
  let step := s.fp (reg - 2)
  if !current.isSmi || !stop.isSmi || !step.isSmi then
    .error invalidRangeIterationStateError
  else if step.getSmi = 0#64 then .error invalidRangeIterationStateError
  else if exhausted current.getSmi stop.getSmi step.getSmi then
    .ok (.exhausted (s.exit relTarget))
  else if BitVec.saddOverflow current.getSmi step.getSmi then
    .error overflowError
  else
    .ok (.next
      { s.store reg (Value.fromSmi (current.getSmi + step.getSmi)) with
        accumulator := current, pc := s.pc + 4 })

/-! ## The direct range loop -/

/-- The positional arguments of a direct `range(...)` call. -/
inductive RangeArguments where
  | one (stop : Value)
  | two (start stop : Value)
  | three (start stop step : Value)

namespace RangeArguments

def values : RangeArguments → List Value
  | .one stop => [stop]
  | .two start stop => [start, stop]
  | .three start stop step => [start, stop, step]

/-- The call of the range builtin, with its default for a missing
argument. -/
def callBuiltin : RangeArguments → Except BuiltinException RangeIterator
  | .one stop => builtinRange stop Value.none Value.none
  | .two start stop => builtinRange start stop Value.none
  | .three start stop step => builtinRange start stop step

/-- The preparation instruction the generator selects. -/
def prep : RangeArguments → Value → Int → Int → LoopFrame →
    Except BuiltinException LoopFrame
  | .one _ => opForPrepRange1
  | .two _ _ => opForPrepRange2
  | .three _ _ _ => opForPrepRange3

/-- The iteration instruction the generator selects. -/
def iter : RangeArguments → Int → Int → LoopFrame →
    Except BuiltinException IterStep
  | .one _ => opForIterRange1
  | .two _ _ => opForIterRange1
  | .three _ _ _ => opForIterRangeStep

/-- The range registers hold the callable and the argument values. -/
def Placed (args : RangeArguments) (rangeBuiltin : Value) (reg : Int)
    (s : LoopFrame) : Prop :=
  s.fp reg = rangeBuiltin ∧
    ∀ (i : Nat) v, args.values[i]? = some v → s.fp (reg - 1 - i) = v

end RangeArguments

/-- A loop body as the loop instructions see it: it may do anything to the
frame but write the registers reserved for the range. -/
structure LoopBody (args : RangeArguments) (reg : Int) where
  run : LoopFrame → LoopFrame
  keeps : ∀ s (i : Nat), i ≤ args.values.length →
    (run s).fp (reg - i) = s.fp (reg - i)

/-- One pass of the direct loop: the iteration instruction, then the body. -/
def directLoop (args : RangeArguments) (reg relTarget : Int)
    (body : LoopBody args reg) (s : LoopFrame) :
    Outcome LoopFrame Value BuiltinException :=
  match args.iter reg relTarget s with
  | .error e => .failed e
  | .ok (.exhausted _) => .done
  | .ok (.next s') => .yield s'.accumulator (body.run s')

/-- One pass of a loop over an iterator object, with any effect `body` of the
loop body on the frame. -/
def iteratorLoop (relTarget : Int) (body : LoopFrame → LoopFrame)
    (s : LoopFrame × Option RangeIterator) :
    Outcome (LoopFrame × Option RangeIterator) Value BuiltinException :=
  match opForIter s.2 relTarget s.1 with
  | .error e => .failed e
  | .ok (.exhausted _, _) => .done
  | .ok (.next s', it) => .yield s'.accumulator (body s', it)

/-- The canonical words of the range's terms. -/
def termValues (start stop step : Int) : List Value :=
  (terms start stop step).map Value.ofInt

/-- The first value past the last term, if there is a term, is an SMI. -/
def LimitFits (start stop step : Int) : Prop :=
  termCount start stop step = 0 ∨
    SmiRange (start + termCount start stop step * step)

instance (start stop step : Int) : Decidable (LimitFits start stop step) :=
  inferInstanceAs (Decidable (_ ∨ _))

/-! ## Stepping on SMI words -/

section Words

variable {c stop stride : Int}

/-- The integer stored for the term after `c`. -/
def storedSuccessor (stride c : Int) : Int :=
  if SmiRange (c + stride) then c + stride
  else if 0 < stride then c + stride - 2 ^ 59
  else c + stride + 2 ^ 59

theorem ofInt_storedSuccessor (stride c : Int) :
    Value.ofInt (storedSuccessor stride c) = Value.ofInt (c + stride) := by
  rw [ofInt_eq_ofInt_iff, storedSuccessor]
  split
  · rfl
  · split
    · omega
    · omega

theorem smiRange_storedSuccessor (hc : SmiRange c)
    (hStride : SmiRange stride) :
    SmiRange (storedSuccessor stride c) := by
  rw [storedSuccessor]
  split
  · assumption
  · simp only [SmiRange, valueSmiMin, valueSmiMax] at *
    split
    · omega
    · omega

/-- A wrapped successor is far on the near side of `stop`. -/
theorem before_storedSuccessor (hStride : SmiRange stride)
    (hOut : ¬ SmiRange (c + stride)) (h : Before stop stride c) :
    Before stop stride (storedSuccessor stride c) := by
  rw [storedSuccessor, if_neg hOut]
  simp only [Before, SmiRange, valueSmiMin, valueSmiMax] at *
  split at h
  · rename_i hPos
    rw [if_pos hPos, if_pos hPos]
    omega
  · rename_i hPos
    rw [if_neg hPos, if_neg hPos]
    omega

theorem exhausted_ofInt_iff (hc : SmiRange c) (hStop : SmiRange stop)
    (hStride : SmiRange stride) :
    exhausted (BitVec.ofInt 64 c) (BitVec.ofInt 64 stop)
        (BitVec.ofInt 64 stride) ↔ ¬ Before stop stride c := by
  rw [exhausted, Before, ofInt_toInt_of_smiRange hc,
    ofInt_toInt_of_smiRange hStop, ofInt_toInt_of_smiRange hStride]
  split
  · omega
  · omega

/-- The 64-bit overflow check never fires on SMIs. -/
theorem saddOverflow_ofInt_smi (hc : SmiRange c) (hStride : SmiRange stride) :
    BitVec.saddOverflow (BitVec.ofInt 64 c) (BitVec.ofInt 64 stride) =
      false := by
  rw [BitVec.saddOverflow, ofInt_toInt_of_smiRange hc,
    ofInt_toInt_of_smiRange hStride]
  simp only [SmiRange, valueSmiMin, valueSmiMax] at hc hStride
  have hHigh : ¬ c + stride ≥ 2 ^ (64 - 1) := by omega
  have hLow : ¬ c + stride < -2 ^ (64 - 1) := by omega
  simp only [hHigh, hLow, decide_false, Bool.or_false]

theorem ofInt_ne_zero_iff (h : SmiRange stride) :
    BitVec.ofInt 64 stride = 0#64 ↔ stride = 0 := by
  constructor
  · intro hZero
    rw [← ofInt_toInt_of_smiRange h, hZero]
    rfl
  · rintro rfl
    rfl

theorem fromSmi_add (c stride : Int) :
    Value.fromSmi (BitVec.ofInt 64 c + BitVec.ofInt 64 stride) =
      Value.ofInt (c + stride) := by
  rw [Value.ofInt, BitVec.ofInt_add]

section Stepping

variable {σ ε : Type} {step : σ → Outcome σ Value ε}
  {Holds : Int → σ → Prop}

/-- A producer that stores the word of the next term steps through the
progression. -/
theorem steps_of_words (hStop : SmiRange stop) (hStride : SmiRange stride)
    (hNe : stride ≠ 0)
    (hWord : ∀ {c d s}, Value.ofInt c = Value.ofInt d → Holds c s → Holds d s)
    (hDone : ∀ {c s}, SmiRange c → Holds c s → ¬ Before stop stride c →
      step s = .done)
    (hYield : ∀ {c s}, SmiRange c → Holds c s → Before stop stride c →
      ∃ next, step s = .yield (Value.ofInt c) next ∧ Holds (c + stride) next) :
    Steps step Holds SmiRange Value.ofInt (storedSuccessor stride) stop
      stride := by
  refine
    { strideNe := hNe
      done := hDone
      yield := ?_
      between := ?_
      exact := ?_
      successorFits := fun hc => smiRange_storedSuccessor hc hStride
      wrapped := fun _ hOut h => before_storedSuccessor hStride hOut h }
  · intro c s hc hHolds h
    obtain ⟨next, hStep, hNext⟩ := hYield hc hHolds h
    exact ⟨next, hStep, hWord (ofInt_storedSuccessor stride c).symm hNext⟩
  · intro c hc h
    simp only [Before, SmiRange, valueSmiMin, valueSmiMax] at *
    split at h
    · omega
    · omega
  · intro c _ hIn
    rw [storedSuccessor, if_pos hIn]

end Stepping

/-! ## The four copies -/

/-- The iterator holds a current term, a stop and a stride. -/
def HoldsIterator (stop stride c : Int) (it : RangeIterator) : Prop :=
  it.current.value = Value.ofInt c ∧ it.stop.value = Value.ofInt stop ∧
    it.step.value = Value.ofInt stride

theorem next_steps (hStop : SmiRange stop) (hStride : SmiRange stride)
    (hNe : stride ≠ 0) :
    Steps nativeRangeIteratorNext (HoldsIterator stop stride) SmiRange
      Value.ofInt (storedSuccessor stride) stop stride := by
  refine steps_of_words hStop hStride hNe ?_ ?_ ?_
  · rintro c d s hWord ⟨hCurrent, hRest⟩
    exact ⟨hCurrent.trans hWord, hRest⟩
  · rintro c it hc ⟨hCurrent, hStopWord, hStep⟩ hNot
    simp only [nativeRangeIteratorNext, Smi.extract, hCurrent, hStopWord,
      hStep, getSmi_ofInt hc, getSmi_ofInt hStop, getSmi_ofInt hStride]
    rw [if_neg (mt (ofInt_ne_zero_iff hStride).mp hNe),
      if_pos ((exhausted_ofInt_iff hc hStop hStride).mpr hNot)]
  · rintro c it hc ⟨hCurrent, hStopWord, hStep⟩ hBefore
    simp only [nativeRangeIteratorNext, Smi.extract, hCurrent, hStopWord,
      hStep, getSmi_ofInt hc, getSmi_ofInt hStop, getSmi_ofInt hStride]
    rw [if_neg (mt (ofInt_ne_zero_iff hStride).mp hNe),
      if_neg (mt (exhausted_ofInt_iff hc hStop hStride).mp (by simpa)),
      saddOverflow_ofInt_smi hc hStride]
    exact ⟨_, rfl, fromSmi_add c stride, hStopWord, hStep⟩

theorem iteratorLoop_steps (relTarget : Int) (body : LoopFrame → LoopFrame)
    (hStop : SmiRange stop) (hStride : SmiRange stride) (hNe : stride ≠ 0) :
    Steps (iteratorLoop relTarget body)
      (fun c s => ∃ it, s.2 = some it ∧ HoldsIterator stop stride c it)
      SmiRange Value.ofInt (storedSuccessor stride) stop stride := by
  refine steps_of_words hStop hStride hNe ?_ ?_ ?_
  · rintro c d s hWord ⟨it, hIt, hCurrent, hRest⟩
    exact ⟨it, hIt, hCurrent.trans hWord, hRest⟩
  · rintro c ⟨s, _⟩ hc ⟨it, rfl, hCurrent, hStopWord, hStep⟩ hNot
    simp only [iteratorLoop, opForIter, hCurrent, hStopWord, hStep,
      isSmi_ofInt, getSmi_ofInt hc, getSmi_ofInt hStop, getSmi_ofInt hStride,
      Bool.not_true, Bool.or_false, Bool.false_eq_true, if_false]
    rw [if_neg (mt (ofInt_ne_zero_iff hStride).mp hNe),
      if_pos ((exhausted_ofInt_iff hc hStop hStride).mpr hNot)]
  · rintro c ⟨s, _⟩ hc ⟨it, rfl, hCurrent, hStopWord, hStep⟩ hBefore
    simp only [iteratorLoop, opForIter, hCurrent, hStopWord, hStep,
      isSmi_ofInt, getSmi_ofInt hc, getSmi_ofInt hStop, getSmi_ofInt hStride,
      Bool.not_true, Bool.or_false, Bool.false_eq_true, if_false]
    rw [if_neg (mt (ofInt_ne_zero_iff hStride).mp hNe),
      if_neg (mt (exhausted_ofInt_iff hc hStop hStride).mp (by simpa)),
      saddOverflow_ofInt_smi hc hStride]
    exact ⟨_, rfl, _, rfl, fromSmi_add c stride, hStopWord, hStep⟩

/-- The range registers of a unit-step loop. -/
def HoldsRange1 (reg stop c : Int) (s : LoopFrame) : Prop :=
  s.fp reg = Value.ofInt c ∧ s.fp (reg - 1) = Value.ofInt stop

/-- The range registers of a stepped loop. -/
def HoldsRangeStep (reg stop stride c : Int) (s : LoopFrame) : Prop :=
  s.fp reg = Value.ofInt c ∧ s.fp (reg - 1) = Value.ofInt stop ∧
    s.fp (reg - 2) = Value.ofInt stride

/-- The body leaves the first registers of the range alone. -/
theorem LoopBody.keeps_first {args : RangeArguments} {reg : Int}
    (body : LoopBody args reg) (s : LoopFrame) :
    (body.run s).fp reg = s.fp reg := by
  simpa using body.keeps s 0 (Nat.zero_le _)

theorem LoopBody.keeps_second {args : RangeArguments} {reg : Int}
    (body : LoopBody args reg) (s : LoopFrame) :
    (body.run s).fp (reg - 1) = s.fp (reg - 1) := by
  refine body.keeps s 1 ?_
  cases args <;> simp [RangeArguments.values]

theorem LoopBody.keeps_third {start stop step : Value} {reg : Int}
    (body : LoopBody (.three start stop step) reg) (s : LoopFrame) :
    (body.run s).fp (reg - 2) = s.fp (reg - 2) :=
  body.keeps s 2 (by simp [RangeArguments.values])

theorem directLoop_range1_steps {args : RangeArguments} {reg relTarget : Int}
    (body : LoopBody args reg) (hIter : args.iter = opForIterRange1)
    (hStop : SmiRange stop) :
    Steps (directLoop args reg relTarget body) (HoldsRange1 reg stop)
      SmiRange Value.ofInt (storedSuccessor 1) stop 1 := by
  have hOne : SmiRange 1 := by decide
  have hOneWord : (1#64 : BitVec 64) = BitVec.ofInt 64 1 := rfl
  refine steps_of_words hStop hOne (by decide) ?_ ?_ ?_
  · rintro c d s hWord ⟨hCurrent, hRest⟩
    exact ⟨hCurrent.trans hWord, hRest⟩
  · rintro c s hc ⟨hCurrent, hStopWord⟩ hNot
    have hGe : c ≥ stop := by simpa [Before] using hNot
    simp only [directLoop, hIter, opForIterRange1, hCurrent, hStopWord,
      isSmi_ofInt, getSmi_ofInt hc, getSmi_ofInt hStop, Bool.not_true,
      Bool.or_false, Bool.false_eq_true, if_false,
      ofInt_toInt_of_smiRange hc, ofInt_toInt_of_smiRange hStop]
    rw [if_pos hGe]
  · rintro c s hc ⟨hCurrent, hStopWord⟩ hBefore
    have hLt : ¬ c ≥ stop := by simpa [Before] using hBefore
    simp only [directLoop, hIter, opForIterRange1, hCurrent, hStopWord,
      isSmi_ofInt, getSmi_ofInt hc, getSmi_ofInt hStop, Bool.not_true,
      Bool.or_false, Bool.false_eq_true, if_false,
      ofInt_toInt_of_smiRange hc, ofInt_toInt_of_smiRange hStop]
    rw [if_neg hLt, hOneWord, saddOverflow_ofInt_smi hc hOne]
    refine ⟨_, rfl, ?_, ?_⟩
    · rw [body.keeps_first]
      simpa using fromSmi_add c 1
    · rw [body.keeps_second]
      simpa using hStopWord

theorem directLoop_rangeStep_steps {start' stop' step' : Value}
    {reg relTarget : Int} (body : LoopBody (.three start' stop' step') reg)
    (hStop : SmiRange stop) (hStride : SmiRange stride) (hNe : stride ≠ 0) :
    Steps (directLoop (.three start' stop' step') reg relTarget body)
      (HoldsRangeStep reg stop stride) SmiRange Value.ofInt
      (storedSuccessor stride) stop stride := by
  refine steps_of_words hStop hStride hNe ?_ ?_ ?_
  · rintro c d s hWord ⟨hCurrent, hRest⟩
    exact ⟨hCurrent.trans hWord, hRest⟩
  · rintro c s hc ⟨hCurrent, hStopWord, hStep⟩ hNot
    simp only [directLoop, RangeArguments.iter, opForIterRangeStep, hCurrent,
      hStopWord, hStep, isSmi_ofInt, getSmi_ofInt hc, getSmi_ofInt hStop,
      getSmi_ofInt hStride, Bool.not_true, Bool.or_false,
      Bool.false_eq_true, if_false]
    rw [if_neg (mt (ofInt_ne_zero_iff hStride).mp hNe),
      if_pos ((exhausted_ofInt_iff hc hStop hStride).mpr hNot)]
  · rintro c s hc ⟨hCurrent, hStopWord, hStep⟩ hBefore
    simp only [directLoop, RangeArguments.iter, opForIterRangeStep, hCurrent,
      hStopWord, hStep, isSmi_ofInt, getSmi_ofInt hc, getSmi_ofInt hStop,
      getSmi_ofInt hStride, Bool.not_true, Bool.or_false,
      Bool.false_eq_true, if_false]
    rw [if_neg (mt (ofInt_ne_zero_iff hStride).mp hNe),
      if_neg (mt (exhausted_ofInt_iff hc hStop hStride).mp (by simpa)),
      saddOverflow_ofInt_smi hc hStride]
    refine ⟨_, rfl, ?_, ?_, ?_⟩
    · rw [body.keeps_first]
      simpa using fromSmi_add c stride
    · rw [body.keeps_second]
      simpa using hStopWord
    · rw [body.keeps_third]
      simpa using hStep

end Words

/-! ## Argument checks -/

/-- The exception a check rejects with, if it does. -/
def rejection {α : Type} : Except BuiltinException α → Option BuiltinException
  | .ok _ => none
  | .error e => some e

namespace RangeArguments

/-- Every argument is an SMI. -/
def AllSmi (args : RangeArguments) : Prop :=
  ∀ v ∈ args.values, v.isSmi = true

/-- The first term, the limit and the stride that SMI arguments name. -/
def start : RangeArguments → Int
  | .one _ => 0
  | .two start _ => start.smi
  | .three start _ _ => start.smi

def stop : RangeArguments → Int
  | .one stop => stop.smi
  | .two _ stop => stop.smi
  | .three _ stop _ => stop.smi

def step : RangeArguments → Int
  | .one _ => 1
  | .two _ _ => 1
  | .three _ _ step => step.smi

/-- An explicit `None` that the builtin takes as a missing argument, and no
argument that it rejects for not being an integer. -/
def NoneTakenAsMissing : RangeArguments → Prop
  | .one _ => False
  | .two start stop => stop = Value.none ∧ start.isSmi = true
  | .three start stop step =>
      start.isSmi = true ∧
        ((stop = Value.none ∧ (step = Value.none ∨ step.isSmi = true)) ∨
          (stop.isSmi = true ∧ step = Value.none))

end RangeArguments

/-- The common shape of the argument checks: integers, then a nonzero
step. -/
def checkRejection (start stop step : Value) : Option BuiltinException :=
  if start.isSmi = true ∧ stop.isSmi = true ∧ step.isSmi = true then
    if step.getSmi = 0#64 then some rangeZeroStepError else none
  else some rangeIntegerArgumentError

theorem checkRejection_eq_none_iff (start stop step : Value) :
    checkRejection start stop step = none ↔
      start.isSmi = true ∧ stop.isSmi = true ∧ step.isSmi = true ∧
        step.getSmi ≠ 0#64 := by
  rw [checkRejection]
  split
  · split
    · simp_all
    · simp_all
  · simp_all

/-- What the preparation instructions check. -/
def RangeArguments.directRejection : RangeArguments → Option BuiltinException
  | .one stop => checkRejection (Value.ofInt 0) stop (Value.ofInt 1)
  | .two start stop => checkRejection start stop (Value.ofInt 1)
  | .three start stop step => checkRejection start stop step

/-- The registers of the placed arguments. -/
theorem RangeArguments.Placed.registers {args : RangeArguments}
    {rangeBuiltin : Value} {reg : Int} {s : LoopFrame}
    (h : args.Placed rangeBuiltin reg s) :
    (∀ {v}, args.values[0]? = some v → s.fp (reg - 1) = v) ∧
      (∀ {v}, args.values[1]? = some v → s.fp (reg - 2) = v) ∧
      (∀ {v}, args.values[2]? = some v → s.fp (reg - 3) = v) := by
  refine ⟨fun {v} hv => ?_, fun {v} hv => ?_, fun {v} hv => ?_⟩
  · have hArg := h.2 0 v hv
    rwa [show reg - 1 - ((0 : Nat) : Int) = reg - 1 by omega] at hArg
  · have hArg := h.2 1 v hv
    rwa [show reg - 1 - ((1 : Nat) : Int) = reg - 2 by omega] at hArg
  · have hArg := h.2 2 v hv
    rwa [show reg - 1 - ((2 : Nat) : Int) = reg - 3 by omega] at hArg

theorem prep_rejection {args : RangeArguments} {rangeBuiltin : Value}
    {reg relTarget : Int} {s : LoopFrame}
    (h : args.Placed rangeBuiltin reg s) :
    rejection (args.prep rangeBuiltin reg relTarget s) =
      args.directRejection := by
  obtain ⟨hFirst, hSecond, hThird⟩ := h.registers
  have hCallable := h.1
  have hOne : (Value.ofInt 1).getSmi ≠ 0#64 := by decide
  cases args with
  | one stop =>
      have hStop : s.fp (reg - 1) = stop := hFirst rfl
      simp only [RangeArguments.prep, opForPrepRange1, hCallable, hStop,
        RangeArguments.directRejection, checkRejection, isSmi_ofInt, ne_eq,
        not_true_eq_false, if_false, true_and, and_true, hOne]
      cases stop.isSmi <;> rfl
  | two start stop =>
      have hStart : s.fp (reg - 1) = start := hFirst rfl
      have hStop : s.fp (reg - 2) = stop := hSecond rfl
      simp only [RangeArguments.prep, opForPrepRange2, hCallable, hStart,
        hStop, RangeArguments.directRejection, checkRejection, isSmi_ofInt,
        ne_eq, not_true_eq_false, if_false, and_true, hOne]
      cases start.isSmi <;> cases stop.isSmi <;> rfl
  | three start stop step =>
      have hStart : s.fp (reg - 1) = start := hFirst rfl
      have hStop : s.fp (reg - 2) = stop := hSecond rfl
      have hStep : s.fp (reg - 3) = step := hThird rfl
      simp only [RangeArguments.prep, opForPrepRange3, hCallable, hStart,
        hStop, hStep, RangeArguments.directRejection, checkRejection, ne_eq,
        not_true_eq_false, if_false]
      by_cases hZero : step.getSmi = 0#64
      · simp only [hZero, if_true]
        cases start.isSmi <;> cases stop.isSmi <;> cases step.isSmi <;> rfl
      · simp only [hZero, if_false]
        cases start.isSmi <;> cases stop.isSmi <;> cases step.isSmi <;> rfl

/-- The builtin's checks on arguments none of which is missing. -/
theorem builtinRange_cases (a b c : Value) {start stop step : Value}
    (hStart : (if b = Value.none then Value.ofInt 0 else a) = start)
    (hStop : (if b = Value.none then a else b) = stop)
    (hStep : (if c = Value.none then Value.ofInt 1 else c) = step) :
    (∃ e, builtinRange a b c = .error e ∧
        checkRejection start stop step = some e) ∨
      (∃ it, builtinRange a b c = .ok it ∧
        checkRejection start stop step = none ∧ it.current.value = start ∧
        it.stop.value = stop ∧ it.step.value = step) := by
  have hFill : builtinRange a b c =
      (requireRangeIntegerArg
        (if b = Value.none then Value.ofInt 0 else a) >>= fun start =>
      requireRangeIntegerArg (if b = Value.none then a else b) >>= fun stop =>
      requireRangeIntegerArg
        (if c = Value.none then Value.ofInt 1 else c) >>= fun step =>
      if step.extract = 0#64 then .error rangeZeroStepError
      else .ok { current := start, stop := stop, step := step }) := rfl
  rw [hFill, hStart, hStop, hStep, checkRejection]
  by_cases hStartSmi : start.isSmi = true
  · by_cases hStopSmi : stop.isSmi = true
    · by_cases hStepSmi : step.isSmi = true
      · simp only [requireRangeIntegerArg, hStartSmi, hStopSmi, hStepSmi,
          dite_true, bind, Except.bind, and_self, if_true]
        by_cases hZero : step.getSmi = 0#64
        · have hExtract : Smi.extract ⟨step, hStepSmi⟩ = 0#64 := hZero
          rw [if_pos hExtract, if_pos hZero]
          exact Or.inl ⟨_, rfl, rfl⟩
        · have hExtract : ¬ Smi.extract ⟨step, hStepSmi⟩ = 0#64 := hZero
          rw [if_neg hExtract, if_neg hZero]
          exact Or.inr ⟨_, rfl, rfl, rfl, rfl, rfl⟩
      · simp [requireRangeIntegerArg, hStartSmi, hStopSmi, hStepSmi, bind,
          Except.bind]
    · simp [requireRangeIntegerArg, hStartSmi, hStopSmi, bind, Except.bind]
  · simp [requireRangeIntegerArg, hStartSmi, bind, Except.bind]

/-- What the builtin checks after filling in the missing arguments. -/
theorem builtinRange_rejection (a b c : Value) :
    rejection (builtinRange a b c) =
      checkRejection (if b = Value.none then Value.ofInt 0 else a)
        (if b = Value.none then a else b)
        (if c = Value.none then Value.ofInt 1 else c) := by
  obtain ⟨e, hCall, hCheck⟩ | ⟨it, hCall, hCheck, -⟩ :=
    builtinRange_cases a b c rfl rfl rfl
  · rw [hCall, hCheck]
    rfl
  · rw [hCall, hCheck]
    rfl

/-- The iterator of an accepted call holds the filled-in arguments, which are
SMIs with a nonzero step. -/
theorem builtinRange_ok {a b c : Value} {it : RangeIterator}
    (h : builtinRange a b c = .ok it) :
    it.current.value = (if b = Value.none then Value.ofInt 0 else a) ∧
      it.stop.value = (if b = Value.none then a else b) ∧
      it.step.value = (if c = Value.none then Value.ofInt 1 else c) ∧
      it.step.extract ≠ 0#64 := by
  obtain ⟨e, hCall, -⟩ | ⟨it', hCall, hCheck, hStart, hStop, hStep⟩ :=
    builtinRange_cases a b c rfl rfl rfl
  · rw [hCall] at h
    cases h
  · rw [hCall] at h
    cases h
    refine ⟨hStart, hStop, hStep, ?_⟩
    rw [Smi.extract, hStep]
    exact ((checkRejection_eq_none_iff _ _ _).mp hCheck).2.2.2

theorem ne_none_of_isSmi {v : Value} (h : v.isSmi = true) :
    v ≠ Value.none := by
  rintro rfl
  exact absurd h (by decide)

theorem isSmi_none : ¬ Value.none.isSmi = true := by decide

/-- The two checks give one verdict unless the builtin takes an explicit
`None` as missing. -/
theorem rejections_eq_iff (args : RangeArguments) :
    args.directRejection = rejection args.callBuiltin ↔
      ¬ args.NoneTakenAsMissing := by
  cases args with
  | one stop =>
      refine iff_of_true ?_ id
      rw [RangeArguments.callBuiltin, builtinRange_rejection, if_pos rfl,
        if_pos rfl, if_pos rfl]
      rfl
  | two start stop =>
      rw [RangeArguments.callBuiltin, builtinRange_rejection, if_pos rfl,
        RangeArguments.directRejection, RangeArguments.NoneTakenAsMissing]
      by_cases hNone : stop = Value.none
      · subst hNone
        have hOne : (Value.ofInt 1).getSmi ≠ 0#64 := by decide
        simp only [checkRejection, isSmi_none, if_false, if_true,
          isSmi_ofInt, hOne, true_and, and_true]
        by_cases hStart : start.isSmi = true
        · simp [hStart]
        · simp [hStart]
      · simp [hNone]
  | three start stop step =>
      rw [RangeArguments.callBuiltin, builtinRange_rejection,
        RangeArguments.directRejection, RangeArguments.NoneTakenAsMissing]
      have hOne : (Value.ofInt 1).getSmi ≠ 0#64 := by decide
      by_cases hStop : stop = Value.none
      · subst hStop
        by_cases hStep : step = Value.none
        · subst hStep
          by_cases hStart : start.isSmi = true
          · simp [checkRejection, isSmi_none, hOne, hStart]
          · simp [checkRejection, isSmi_none, hStart]
        · by_cases hStart : start.isSmi = true
          · by_cases hStepSmi : step.isSmi = true
            · by_cases hZero : step.getSmi = 0#64
              · simp [checkRejection, isSmi_none, hStart, hStep, hStepSmi,
                  hZero, rangeZeroStepError, rangeIntegerArgumentError]
              · simp [checkRejection, isSmi_none, hStart, hStep, hStepSmi,
                  hZero]
            · simp [checkRejection, isSmi_none, hStep, hStart, hStepSmi]
          · simp [checkRejection, isSmi_none, hStep, hStart]
      · by_cases hStep : step = Value.none
        · subst hStep
          by_cases hStart : start.isSmi = true
          · by_cases hStopSmi : stop.isSmi = true
            · simp [checkRejection, isSmi_none, hOne, hStop, hStart, hStopSmi]
            · simp [checkRejection, isSmi_none, hStop, hStart, hStopSmi]
          · simp [checkRejection, isSmi_none, hStop, hStart]
        · simp [hStop, hStep]

/-! ## Accepted calls and the loops over their iterators -/

/-- Arguments that are all SMIs hold no `None` to be taken as missing. -/
theorem RangeArguments.AllSmi.not_noneTakenAsMissing {args : RangeArguments}
    (h : args.AllSmi) : ¬ args.NoneTakenAsMissing := by
  cases args with
  | one stop => exact id
  | two start stop =>
      rintro ⟨rfl, -⟩
      exact isSmi_none (h _ (by simp [RangeArguments.values]))
  | three start stop step =>
      rintro ⟨-, ⟨rfl, -⟩ | ⟨-, rfl⟩⟩
      · exact isSmi_none (h _ (by simp [RangeArguments.values]))
      · exact isSmi_none (h _ (by simp [RangeArguments.values]))

/-- A call that both checks accept has SMI arguments, and its iterator holds
the range they name. -/
theorem holdsIterator_of_callBuiltin {args : RangeArguments}
    {it : RangeIterator} (hNone : ¬ args.NoneTakenAsMissing)
    (h : args.callBuiltin = .ok it) :
    args.AllSmi ∧ args.step ≠ 0 ∧
      HoldsIterator args.stop args.step args.start it := by
  have hCheck : args.directRejection = none := by
    rw [(rejections_eq_iff args).mpr hNone, h]
    rfl
  have hNonzero : ∀ {v : Value}, v.getSmi ≠ 0#64 → v.smi ≠ 0 := by
    intro v hv hZero
    exact hv (BitVec.eq_of_toInt_eq hZero)
  cases args with
  | one stop =>
      obtain ⟨-, hStop, -, -⟩ := (checkRejection_eq_none_iff _ _ _).mp hCheck
      obtain ⟨hStartWord, hStopWord, hStepWord, -⟩ := builtinRange_ok h
      rw [if_pos rfl] at hStartWord hStopWord hStepWord
      refine ⟨by simpa [RangeArguments.AllSmi, RangeArguments.values],
        Int.one_ne_zero, hStartWord, ?_, hStepWord⟩
      rw [hStopWord]
      exact (ofInt_smi hStop).symm
  | two start stop =>
      obtain ⟨hStart, hStop, -, -⟩ :=
        (checkRejection_eq_none_iff _ _ _).mp hCheck
      obtain ⟨hStartWord, hStopWord, hStepWord, -⟩ := builtinRange_ok h
      rw [if_neg (ne_none_of_isSmi hStop)] at hStartWord hStopWord
      rw [if_pos rfl] at hStepWord
      refine ⟨by simp [RangeArguments.AllSmi, RangeArguments.values, hStart,
        hStop], Int.one_ne_zero, ?_, ?_, hStepWord⟩
      · rw [hStartWord]
        exact (ofInt_smi hStart).symm
      · rw [hStopWord]
        exact (ofInt_smi hStop).symm
  | three start stop step =>
      obtain ⟨hStart, hStop, hStep, hZero⟩ :=
        (checkRejection_eq_none_iff _ _ _).mp hCheck
      obtain ⟨hStartWord, hStopWord, hStepWord, -⟩ := builtinRange_ok h
      rw [if_neg (ne_none_of_isSmi hStop)] at hStartWord hStopWord
      rw [if_neg (ne_none_of_isSmi hStep)] at hStepWord
      refine ⟨by simp [RangeArguments.AllSmi, RangeArguments.values, hStart,
        hStop, hStep], hNonzero hZero, ?_, ?_, ?_⟩
      · rw [hStartWord]
        exact (ofInt_smi hStart).symm
      · rw [hStopWord]
        exact (ofInt_smi hStop).symm
      · rw [hStepWord]
        exact (ofInt_smi hStep).symm

/-- SMI arguments with a nonzero step are accepted. -/
theorem callBuiltin_of_allSmi {args : RangeArguments} (h : args.AllSmi)
    (hStep : args.step ≠ 0) : ∃ it, args.callBuiltin = .ok it := by
  have hCheck : args.directRejection = none := by
    have hOne : (Value.ofInt 1).getSmi ≠ 0#64 := by decide
    cases args with
    | one stop =>
        simp_all [RangeArguments.directRejection, checkRejection_eq_none_iff,
          RangeArguments.AllSmi, RangeArguments.values]
    | two start stop =>
        simp_all [RangeArguments.directRejection, checkRejection_eq_none_iff,
          RangeArguments.AllSmi, RangeArguments.values]
    | three start stop step =>
        have hZero : step.getSmi ≠ 0#64 := by
          intro hZero
          exact hStep (congrArg BitVec.toInt hZero)
        simp_all [RangeArguments.directRejection, checkRejection_eq_none_iff,
          RangeArguments.AllSmi, RangeArguments.values]
  rw [(rejections_eq_iff args).mpr h.not_noneTakenAsMissing] at hCheck
  cases hCall : args.callBuiltin with
  | ok it => exact ⟨it, rfl⟩
  | error e =>
      rw [hCall] at hCheck
      exact absurd hCheck (by simp [rejection])

theorem RangeArguments.smiRange_start (args : RangeArguments) :
    SmiRange args.start := by
  cases args with
  | one stop => exact show SmiRange 0 by decide
  | two start stop => exact smiRange_smi start
  | three start stop step => exact smiRange_smi start

theorem RangeArguments.smiRange_stop (args : RangeArguments) :
    SmiRange args.stop := by
  cases args with
  | one stop => exact smiRange_smi stop
  | two start stop => exact smiRange_smi stop
  | three start stop step => exact smiRange_smi stop

theorem RangeArguments.smiRange_step (args : RangeArguments) :
    SmiRange args.step := by
  cases args with
  | one stop => exact show SmiRange 1 by decide
  | two start stop => exact show SmiRange 1 by decide
  | three start stop step => exact smiRange_smi step

/-- The loops and checks of a range agree with each other and with the
progression its arguments name. -/
structure RangeAgrees (args : RangeArguments) : Prop where
  verdict : ∀ {rangeBuiltin reg relTarget s}, args.Placed rangeBuiltin reg s →
    rejection (args.prep rangeBuiltin reg relTarget s) =
      rejection args.callBuiltin
  direct : ∀ {it}, args.callBuiltin = .ok it →
    ∀ {rangeBuiltin reg prepTarget iterTarget s s'}
      (body : LoopBody args reg), args.Placed rangeBuiltin reg s →
      args.prep rangeBuiltin reg prepTarget s = .ok s' →
      Produces (directLoop args reg iterTarget body) s'
        (termValues it.current.value.smi it.stop.value.smi it.step.value.smi)
  forIter : ∀ {it}, args.callBuiltin = .ok it →
    ∀ (relTarget : Int) (body : LoopFrame → LoopFrame) (s : LoopFrame),
      Produces (iteratorLoop relTarget body) (s, some it)
        (termValues it.current.value.smi it.stop.value.smi it.step.value.smi)
  next : ∀ {it}, args.callBuiltin = .ok it →
    Produces nativeRangeIteratorNext it
      (termValues it.current.value.smi it.stop.value.smi it.step.value.smi)

/-- After an accepted preparation the registers of a one- or two-argument
loop hold the range. -/
theorem prep_holdsRange1 {args : RangeArguments} {rangeBuiltin : Value}
    {reg relTarget : Int} {s s' : LoopFrame}
    (hArity : args.values.length ≤ 2) (hSmi : args.AllSmi)
    (hPlaced : args.Placed rangeBuiltin reg s)
    (h : args.prep rangeBuiltin reg relTarget s = .ok s') :
    HoldsRange1 reg args.stop args.start s' := by
  obtain ⟨hFirst, hSecond, -⟩ := hPlaced.registers
  have hCallable := hPlaced.1
  cases args with
  | one stop =>
      have hStop : s.fp (reg - 1) = stop := hFirst rfl
      have hStopSmi : stop.isSmi = true :=
        hSmi _ (by simp [RangeArguments.values])
      simp only [RangeArguments.prep, opForPrepRange1, hCallable, hStop,
        hStopSmi, ne_eq, not_true_eq_false, if_false, Bool.not_true,
        Bool.false_eq_true, Except.ok.injEq] at h
      subst h
      refine ⟨by simp [RangeArguments.start, Value.ofInt], ?_⟩
      simp [RangeArguments.stop, hStop, ofInt_smi hStopSmi]
  | two start stop =>
      have hStart : s.fp (reg - 1) = start := hFirst rfl
      have hStop : s.fp (reg - 2) = stop := hSecond rfl
      have hStartSmi : start.isSmi = true :=
        hSmi _ (by simp [RangeArguments.values])
      have hStopSmi : stop.isSmi = true :=
        hSmi _ (by simp [RangeArguments.values])
      simp only [RangeArguments.prep, opForPrepRange2, hCallable, hStart,
        hStop, hStartSmi, hStopSmi, ne_eq, not_true_eq_false, if_false,
        Bool.not_true, Bool.or_false, Bool.false_eq_true,
        Except.ok.injEq] at h
      subst h
      refine ⟨?_, ?_⟩
      · simp [RangeArguments.start, ofInt_smi hStartSmi,
          show ¬ reg = reg - 1 by omega]
      · simp [RangeArguments.stop, ofInt_smi hStopSmi]
  | three start stop step => simp [RangeArguments.values] at hArity

/-- After an accepted preparation the registers of a three-argument loop hold
the range. -/
theorem prep_holdsRangeStep {start stop step rangeBuiltin : Value}
    {reg relTarget : Int} {s s' : LoopFrame}
    (hSmi : (RangeArguments.three start stop step).AllSmi)
    (hPlaced : (RangeArguments.three start stop step).Placed rangeBuiltin reg
      s)
    (h : (RangeArguments.three start stop step).prep rangeBuiltin reg
      relTarget s = .ok s') :
    HoldsRangeStep reg stop.smi step.smi start.smi s' := by
  obtain ⟨hFirst, hSecond, hThird⟩ := hPlaced.registers
  have hCallable := hPlaced.1
  have hStart : s.fp (reg - 1) = start := hFirst rfl
  have hStop : s.fp (reg - 2) = stop := hSecond rfl
  have hStep : s.fp (reg - 3) = step := hThird rfl
  have hStartSmi : start.isSmi = true :=
    hSmi _ (by simp [RangeArguments.values])
  have hStopSmi : stop.isSmi = true :=
    hSmi _ (by simp [RangeArguments.values])
  have hStepSmi : step.isSmi = true :=
    hSmi _ (by simp [RangeArguments.values])
  simp only [RangeArguments.prep, opForPrepRange3, hCallable, hStart, hStop,
    hStep, hStartSmi, hStopSmi, hStepSmi, ne_eq, not_true_eq_false, if_false,
    Bool.not_true, Bool.or_false, Bool.false_eq_true] at h
  split at h
  · cases h
  · simp only [Except.ok.injEq] at h
    subst h
    refine ⟨?_, ?_, ?_⟩
    · simp [ofInt_smi hStartSmi, show ¬ reg = reg - 2 by omega,
        show ¬ reg = reg - 1 by omega]
    · simp [ofInt_smi hStopSmi]
    · simp [ofInt_smi hStepSmi]

/-- Agreeing checks leave no explicit `None` that the builtin accepts. -/
theorem RangeAgrees.not_noneTakenAsMissing {args : RangeArguments}
    (h : RangeAgrees args) : ¬ args.NoneTakenAsMissing := by
  -- any frame with the arguments in place shows the verdicts
  let s : LoopFrame :=
    { accumulator := Value.none
      fp := fun r =>
        if r = 0 then Value.none
        else (args.values[(-1 - r).toNat]?).getD Value.none
      pc := 0 }
  have hPlaced : args.Placed Value.none 0 s := by
    refine ⟨rfl, fun i v hv => ?_⟩
    have hIndex : (-1 - (0 - 1 - (i : Int))).toNat = i := by omega
    have hNe : ¬ (0 - 1 - (i : Int)) = 0 := by omega
    simp only [s, hNe, if_false, hIndex, hv, Option.getD_some]
  have hPrep : rejection (args.prep Value.none 0 0 s) = args.directRejection :=
    prep_rejection hPlaced
  rw [← rejections_eq_iff, ← hPrep]
  exact h.verdict hPlaced

/-- The iterator of an accepted call lists the terms its arguments name. -/
theorem HoldsIterator.termValues_eq {args : RangeArguments}
    {it : RangeIterator} (h : HoldsIterator args.stop args.step args.start it) :
    termValues it.current.value.smi it.stop.value.smi it.step.value.smi =
      termValues args.start args.stop args.step := by
  obtain ⟨hStartWord, hStopWord, hStepWord⟩ := h
  rw [hStartWord, hStopWord, hStepWord, smi_ofInt args.smiRange_start,
    smi_ofInt args.smiRange_stop, smi_ofInt args.smiRange_step]

/-- Yielding the progression leaves room for the value past its last term. -/
theorem RangeAgrees.limitFits {args : RangeArguments} (h : RangeAgrees args)
    (hSmi : args.AllSmi) (hStep : args.step ≠ 0) :
    LimitFits args.start args.stop args.step := by
  obtain ⟨it, hCall⟩ := callBuiltin_of_allSmi hSmi hStep
  obtain ⟨-, -, hHolds⟩ :=
    holdsIterator_of_callBuiltin hSmi.not_noneTakenAsMissing hCall
  have hProduces := h.next hCall
  rw [hHolds.termValues_eq] at hProduces
  exact ((next_steps args.smiRange_stop args.smiRange_step
    hStep).produces_iff args.smiRange_start hHolds).mp hProduces

/-- An accepted direct loop yields its progression when there is room for the
value past the last term. -/
theorem directLoop_produces {args : RangeArguments} {rangeBuiltin : Value}
    {reg prepTarget iterTarget : Int} {s s' : LoopFrame}
    (body : LoopBody args reg) (hSmi : args.AllSmi) (hStep : args.step ≠ 0)
    (hLimit : LimitFits args.start args.stop args.step)
    (hPlaced : args.Placed rangeBuiltin reg s)
    (hPrep : args.prep rangeBuiltin reg prepTarget s = .ok s') :
    Produces (directLoop args reg iterTarget body) s'
      (termValues args.start args.stop args.step) := by
  have hStart := args.smiRange_start
  have hStop := args.smiRange_stop
  cases args with
  | one stop =>
      exact ((directLoop_range1_steps body rfl hStop).produces_iff hStart
        (prep_holdsRange1 (by simp [RangeArguments.values]) hSmi hPlaced
          hPrep)).mpr hLimit
  | two start stop =>
      exact ((directLoop_range1_steps body rfl hStop).produces_iff hStart
        (prep_holdsRange1 (by simp [RangeArguments.values]) hSmi hPlaced
          hPrep)).mpr hLimit
  | three start stop step =>
      exact ((directLoop_rangeStep_steps body hStop (smiRange_smi step)
        hStep).produces_iff hStart
        (prep_holdsRangeStep hSmi hPlaced hPrep)).mpr hLimit

theorem rangeAgrees_of_limitFits {args : RangeArguments}
    (hNone : ¬ args.NoneTakenAsMissing)
    (hLimit : args.AllSmi → args.step ≠ 0 →
      LimitFits args.start args.stop args.step) : RangeAgrees args := by
  refine
    { verdict := ?_
      direct := ?_
      forIter := ?_
      next := ?_ }
  · intro rangeBuiltin reg relTarget s hPlaced
    rw [prep_rejection hPlaced]
    exact (rejections_eq_iff args).mpr hNone
  · intro it hCall rangeBuiltin reg prepTarget iterTarget s s' body hPlaced
      hPrep
    obtain ⟨hSmi, hStep, hHolds⟩ := holdsIterator_of_callBuiltin hNone hCall
    rw [hHolds.termValues_eq]
    exact directLoop_produces body hSmi hStep (hLimit hSmi hStep) hPlaced hPrep
  · intro it hCall relTarget body s
    obtain ⟨hSmi, hStep, hHolds⟩ := holdsIterator_of_callBuiltin hNone hCall
    rw [hHolds.termValues_eq]
    exact ((iteratorLoop_steps relTarget body args.smiRange_stop
      args.smiRange_step hStep).produces_iff args.smiRange_start
      ⟨it, rfl, hHolds⟩).mpr (hLimit hSmi hStep)
  · intro it hCall
    obtain ⟨hSmi, hStep, hHolds⟩ := holdsIterator_of_callBuiltin hNone hCall
    rw [hHolds.termValues_eq]
    exact ((next_steps args.smiRange_stop args.smiRange_step
      hStep).produces_iff args.smiRange_start hHolds).mpr
      (hLimit hSmi hStep)

/-- For every argument tuple: the checks agree, and all four copies of the
stepping code yield the progression, exactly when the builtin takes no
explicit `None` as missing and SMI arguments leave room for the value past
the last term. -/
theorem rangeAgrees_iff (args : RangeArguments) :
    RangeAgrees args ↔
      ¬ args.NoneTakenAsMissing ∧
        (args.AllSmi → args.step ≠ 0 →
          LimitFits args.start args.stop args.step) := by
  constructor
  · exact fun h => ⟨h.not_noneTakenAsMissing, h.limitFits⟩
  · rintro ⟨hNone, hLimit⟩
    exact rangeAgrees_of_limitFits hNone hLimit

/-- The range from the greatest SMI less one, in steps of two. -/
def lastStepOverflows : RangeArguments :=
  .three (Value.ofInt (valueSmiMax - 1)) (Value.ofInt valueSmiMax)
    (Value.ofInt 2)

/-- Not every argument tuple is handled alike: the step past the last term of
`range(2 ** 58 - 2, 2 ** 58 - 1, 2)` wraps to a value below the stop. -/
theorem not_forall_rangeAgrees : ¬ ∀ args, RangeAgrees args := by
  intro hAll
  have hFits := (hAll lastStepOverflows).limitFits
    (by simp [RangeArguments.AllSmi, RangeArguments.values,
      lastStepOverflows]) (by decide)
  exact absurd hFits (by decide)

end CloverVM.Runtime.RangeLoop
