import CloverVM.BuiltinTypes.Slice
import CloverVM.Machine.Producer

/-!
# What slicing selects

Python's `slice.indices(n)` turns the fields of a slice, integers of any size,
into a progression of indices of a sequence of length `n`.  The normalization
here works on 64-bit integers and only takes fields that fit an SMI; on these
it gives that progression, in range and without overflow, and the loops that
copy read it item by item.
-/

namespace CloverVM.BuiltinTypes.Slice

open CloverVM.Machine CloverVM.ObjectModel CloverVM.Runtime
open CloverVM.Machine.Producer
open CloverVM.BuiltinTypes.BigInt

/-- A bound of a slice as Python's `slice.indices` clamps it. -/
def pythonBound (bound : Option Int) (default lower upper n : Int) : Int :=
  match bound with
  | none => default
  | some i => if i < 0 then max (i + n) lower else min i upper

/-- The start, stop and step of `slice.indices(n)`. -/
def pythonIndices (start stop step : Option Int) (n : Int) :
    Int × Int × Int :=
  let stride := step.getD 1
  if stride < 0 then
    (pythonBound start (n - 1) (-1) (n - 1) n,
      pythonBound stop (-1) (-1) (n - 1) n, stride)
  else
    (pythonBound start 0 0 n n, pythonBound stop n 0 n n, stride)

/-- The progression those three numbers stand for. -/
def pythonRange (start stop step : Option Int) (n : Int) : List Int :=
  let indices := pythonIndices start stop step n
  terms indices.1 indices.2.1 indices.2.2

section Selection

variable {α : Type}

/-- `selected` are the items at the indices, all of them in range. -/
structure Selected (items : List α) (indices : List Int)
    (selected : List α) : Prop where
  inRange : ∀ i ∈ indices, 0 ≤ i ∧ i < items.length
  items : selected.map some = indices.map fun i => items[i.toNat]?

/-- The items at given indices are determined. -/
theorem Selected.unique {items : List α} {indices : List Int}
    {xs ys : List α} (hx : Selected items indices xs)
    (hy : Selected items indices ys) : xs = ys :=
  List.map_injective_iff.mpr (Option.some_injective α)
    (hx.items.trans hy.items.symm)

/-- Nothing is selected at no index. -/
theorem Selected.nil (items : List α) : Selected items [] [] :=
  ⟨nofun, rfl⟩

theorem Selected.cons {items : List α} {i : Int} {indices : List Int}
    {item : α} {rest : List α} (hLow : 0 ≤ i)
    (hItem : items[i.toNat]? = some item)
    (hRest : Selected items indices rest) :
    Selected items (i :: indices) (item :: rest) := by
  have hLength := (List.getElem?_eq_some_iff.mp hItem).1
  refine ⟨?_, ?_⟩
  · intro j hj
    rcases List.mem_cons.mp hj with rfl | hj
    · exact ⟨hLow, by omega⟩
    · exact hRest.inRange j hj
  · rw [List.map_cons, List.map_cons, hItem, hRest.items]

/-! ## One field -/

theorem sliceFieldToSmi_spec {field : IndexValue} {i : Int}
    (h : Integral field (some i)) :
    sliceFieldToSmi field =
      some (if SmiRange i then .ok i else .error overflowError) :=
  requireSmi_spec _ h

theorem normalizeSliceField_spec {i n lower upper : Int} (hi : SmiRange i)
    (hn : 0 ≤ n ∧ n ≤ valueSmiMax) (hLower : lower ≤ 0)
    (hUpper : n - 1 ≤ upper) :
    normalizeSliceField i n lower upper =
      some (if i < 0 then max (i + n) lower else min i upper) := by
  simp only [SmiRange, valueSmiMin, valueSmiMax] at hi hn
  unfold normalizeSliceField
  by_cases hNeg : i < 0
  · rw [if_pos hNeg, int64_eq_some (by omega), if_pos hNeg]
    show some _ = _
    congr 1
    split_ifs <;> omega
  · rw [if_neg hNeg, if_neg hNeg]
    show some _ = _
    congr 1
    split_ifs <;> omega

/-- A field that fits is clamped as Python clamps it. -/
theorem normalizeFieldOr_spec {field : IndexValue} {bound : Option Int}
    {default n lower upper : Int} (h : Integral field bound)
    (hFits : ∀ i ∈ bound, SmiRange i) (hn : 0 ≤ n ∧ n ≤ valueSmiMax)
    (hLower : lower ≤ 0) (hUpper : n - 1 ≤ upper) :
    normalizeFieldOr field default n lower upper =
      some (.ok (pythonBound bound default lower upper n)) := by
  cases bound with
  | none =>
      cases h
      rfl
  | some i =>
      have hi : SmiRange i := hFits i rfl
      have hBound := normalizeSliceField_spec hi hn hLower hUpper
      rw [normalizeFieldOr, h.isNone_eq_false, if_neg Bool.false_ne_true,
        bind_of_eq_some (sliceFieldToSmi_spec h), if_pos hi]
      exact bind_of_eq_some hBound _

/-- A field that does not fit is an `OverflowError`. -/
theorem normalizeFieldOr_overflow {field : IndexValue} {i : Int}
    {default n lower upper : Int} (h : Integral field (some i))
    (hi : ¬ SmiRange i) :
    normalizeFieldOr field default n lower upper =
      some (.error overflowError) := by
  rw [normalizeFieldOr, h.isNone_eq_false, if_neg Bool.false_ne_true,
    bind_of_eq_some (sliceFieldToSmi_spec h), if_neg hi]

/-- The step of a slice that fits and is not zero. -/
theorem normalizeStep_spec {field : IndexValue} {step : Option Int}
    (h : Integral field step) (hFits : ∀ i ∈ step, SmiRange i)
    (hStep : step ≠ some 0) :
    normalizeStep field = some (.ok (step.getD 1)) := by
  cases step with
  | none =>
      cases h
      rfl
  | some i =>
      have hi : SmiRange i := hFits i rfl
      have hne : i ≠ 0 := fun hZero => hStep (congrArg some hZero)
      rw [normalizeStep, h.isNone_eq_false, if_neg Bool.false_ne_true,
        bind_of_eq_some (sliceFieldToSmi_spec h), if_pos hi]
      show some (if i = 0 then _ else _) = _
      rw [if_neg hne]
      rfl

theorem normalizeStep_overflow {field : IndexValue} {i : Int}
    (h : Integral field (some i)) (hi : ¬ SmiRange i) :
    normalizeStep field = some (.error overflowError) := by
  rw [normalizeStep, h.isNone_eq_false, if_neg Bool.false_ne_true,
    bind_of_eq_some (sliceFieldToSmi_spec h), if_neg hi]

/-! ## The progression -/

theorem length_terms (start stop step : Int) :
    (terms start stop step).length = termCount start stop step := by
  rw [terms, List.length_map, List.length_range]

/-- Both bounds are places of the sequence, or its ends. -/
theorem pythonBound_mem {bound : Option Int} {default lower upper n : Int}
    (hLower : lower ≤ 0) (hUpper : n - 1 ≤ upper)
    (hOrder : lower ≤ upper) (hDefault : lower ≤ default ∧ default ≤ upper) :
    lower ≤ pythonBound bound default lower upper n ∧
      pythonBound bound default lower upper n ≤ upper := by
  cases bound with
  | none => exact hDefault
  | some i =>
      simp only [pythonBound]
      split_ifs <;> omega

/-- The progression stays inside the sequence. -/
theorem terms_mem {start stop step n : Int} (hStep : step ≠ 0)
    (hUp : 0 < step → 0 ≤ start ∧ stop ≤ n)
    (hDown : step < 0 → start ≤ n - 1 ∧ -1 ≤ stop) {i : Int}
    (hi : i ∈ terms start stop step) : 0 ≤ i ∧ i < n := by
  obtain ⟨k, hk, rfl⟩ := List.mem_map.mp hi
  have hBefore := (lt_termCount_iff hStep k).mp (List.mem_range.mp hk)
  unfold Before at hBefore
  by_cases hPos : 0 < step
  · rw [if_pos hPos] at hBefore
    obtain ⟨hStart, hStop⟩ := hUp hPos
    have hNonneg : 0 ≤ (k : Int) * step := by positivity
    omega
  · rw [if_neg hPos] at hBefore
    obtain ⟨hStart, hStop⟩ := hDown (by omega)
    have hNonpos : (k : Int) * step ≤ 0 :=
      Int.mul_nonpos_of_nonneg_of_nonpos (by omega) (by omega)
    omega

theorem getD_ne_zero {step : Option Int} (hStep : step ≠ some 0) :
    step.getD 1 ≠ 0 := by
  cases step with
  | none => decide
  | some i => exact fun hZero => hStep (congrArg some hZero)

theorem terms_pythonIndices_mem {start stop step : Option Int} {n i : Int}
    (hn : 0 ≤ n) (hStep : step ≠ some 0)
    (hi : i ∈ pythonRange start stop step n) : 0 ≤ i ∧ i < n := by
  have hne : step.getD 1 ≠ 0 := getD_ne_zero hStep
  unfold pythonRange pythonIndices at hi
  by_cases hNeg : step.getD 1 < 0
  · simp only [if_pos hNeg] at hi
    refine terms_mem hne (fun hPos => absurd hPos (by omega)) (fun _ => ?_) hi
    exact ⟨(pythonBound_mem (by omega) (by omega) (by omega)
        (by omega)).2,
      (pythonBound_mem (by omega) (by omega) (by omega) (by omega)).1⟩
  · simp only [if_neg hNeg] at hi
    refine terms_mem hne (fun _ => ?_) (fun h => absurd h hNeg) hi
    exact ⟨(pythonBound_mem (by omega) (by omega) (by omega)
        (by omega)).1,
      (pythonBound_mem (by omega) (by omega) (by omega) (by omega)).2⟩

/-- Division rounded up, as the count is computed and as it is meant. -/
theorem tdiv_add_one {d s : Int} (hd : 0 < d) (hs : 0 < s) :
    (d - 1).tdiv s + 1 = (d + (s - 1)) / s := by
  have hUp : d + (s - 1) = d - 1 + 1 * s := by ring
  rw [Int.tdiv_eq_ediv_of_nonneg (by omega), hUp,
    Int.add_mul_ediv_right _ _ (by omega)]

/-- A count of at most `d` fits a word. -/
theorem int64_count {d s : Int} (hd : 0 < d ∧ d ≤ 2 ^ 60) (hs : 0 < s) :
    int64 ((d - 1).tdiv s + 1) = some ((d + (s - 1)) / s) := by
  have hLe : (d - 1).tdiv s ≤ d - 1 := by
    rw [Int.tdiv_eq_ediv_of_nonneg (by omega)]
    exact Int.ediv_le_self _ (by omega)
  have hNonneg : 0 ≤ (d - 1).tdiv s :=
    Int.tdiv_nonneg (by omega) (by omega)
  rw [int64_eq_some (by omega), tdiv_add_one hd.1 hs]

/-- The count of the selected items is the count of the progression. -/
theorem selectedSequenceLength_spec {start stop step : Int}
    (hStep : step ≠ 0) (hRange : SmiRange step)
    (hStart : -1 ≤ start ∧ start ≤ valueSmiMax)
    (hStop : -1 ≤ stop ∧ stop ≤ valueSmiMax) :
    selectedSequenceLengthForGeneralSlice start stop step =
      some (termCount start stop step) := by
  simp only [SmiRange, valueSmiMin, valueSmiMax] at hRange hStart hStop
  unfold selectedSequenceLengthForGeneralSlice
  by_cases hNeg : step < 0
  · rw [if_pos hNeg]
    by_cases hSome : stop < start
    · have hCount := int64_count (d := start - stop) (s := -step)
        (by omega) (by omega)
      rw [if_pos hSome, bind_of_eq_some (int64_eq_some (by omega)),
        bind_of_eq_some (int64_eq_some (by omega)),
        bind_of_eq_some (int64_eq_some (by omega)), bind_of_eq_some hCount,
        termCount, if_neg (by omega)]
    · have hNone : ¬ Before stop step start := by
        rwa [Before, if_neg (by omega)]
      rw [if_neg hSome, (termCount_eq_zero_iff hStep).mpr hNone]
  · rw [if_neg hNeg]
    by_cases hSome : start < stop
    · have hCount := int64_count (d := stop - start) (s := step)
        (by omega) (by omega)
      rw [if_pos hSome, bind_of_eq_some (int64_eq_some (by omega)),
        bind_of_eq_some (int64_eq_some (by omega)), bind_of_eq_some hCount,
        termCount, if_pos (by omega)]
    · have hNone : ¬ Before stop step start := by
        rwa [Before, if_pos (by omega)]
      rw [if_neg hSome, (termCount_eq_zero_iff hStep).mpr hNone]

/-! ## The loops that copy -/

theorem itemAt_eq_some {items : List α} {i : Int} {item : α} (hLow : 0 ≤ i)
    (h : items[i.toNat]? = some item) : itemAt items i = some item := by
  rw [itemAt, check_bind hLow, h]

/-- An index in range has an item. -/
theorem exists_item {items : List α} {i : Int}
    (h : 0 ≤ i ∧ i < items.length) : ∃ item, items[i.toNat]? = some item :=
  ⟨items[i.toNat], List.getElem?_eq_getElem (by omega)⟩

/-- The stepping loop reads the items of the progression. -/
theorem readStrided_selects {items : List α} {step : Int} (hStep : step ≠ 0)
    (hRange : SmiRange step) (hCount : (items.length : Int) ≤ valueSmiMax)
    {start stop : Int}
    (hIn : ∀ i ∈ terms start stop step, 0 ≤ i ∧ i < items.length) :
    ∃ selected, readStrided items step (termCount start stop step) start =
        some selected ∧
      Selected items (terms start stop step) selected := by
  induction hTerms : termCount start stop step generalizing start with
  | zero =>
      have hNone := (termCount_eq_zero_iff hStep).mp hTerms
      rw [terms_of_not_before hStep hNone]
      exact ⟨[], rfl, Selected.nil items⟩
  | succ count ih =>
      have hSome : Before stop step start := by
        by_contra hNone
        rw [(termCount_eq_zero_iff hStep).mpr hNone] at hTerms
        cases hTerms
      rw [terms_of_before hStep hSome] at hIn ⊢
      rw [termCount_succ hStep hSome, Nat.add_right_cancel_iff] at hTerms
      have hStart := hIn start List.mem_cons_self
      obtain ⟨item, hItem⟩ := exists_item hStart
      obtain ⟨rest, hRead, hRest⟩ := ih
        (fun i hi => hIn i (List.mem_cons_of_mem _ hi)) hTerms
      refine ⟨item :: rest, ?_, hRest.cons hStart.1 hItem⟩
      simp only [SmiRange, valueSmiMin, valueSmiMax] at hRange hCount
      rw [readStrided, bind_of_eq_some (itemAt_eq_some hStart.1 hItem),
        bind_of_eq_some (int64_eq_some (by omega)), bind_of_eq_some hRead]

theorem termCount_one (start stop : Int) :
    termCount start stop 1 = (stop - start).toNat := by
  rw [termCount, if_pos (by decide), Int.ediv_one, Int.sub_self, Int.add_zero]

/-- Reading at a growing offset is stepping by one. -/
theorem readFrom_eq_readStrided (items : List α) (start : Int)
    (count writeIdx : Nat)
    (h : 0 ≤ start ∧ start + writeIdx + count < 2 ^ 63) :
    readFrom items start count writeIdx =
      readStrided items 1 count (start + writeIdx) := by
  induction count generalizing writeIdx with
  | zero => rfl
  | succ count ih =>
      have hNext : start + ((writeIdx + 1 : Nat) : Int) =
          start + writeIdx + 1 := by
        push_cast
        ring
      rw [readFrom, readStrided, bind_of_eq_some (int64_eq_some (by omega))]
      refine bind_congr fun item => ?_
      rw [ih (writeIdx + 1) (by omega), hNext,
        bind_of_eq_some (int64_eq_some (by omega))]

/-- A span has the items of consecutive indices. -/
theorem take_drop_selects {items : List α} {start stop : Int}
    (hStart : 0 ≤ start) (hStop : stop ≤ items.length) :
    Selected items (terms start stop 1)
      ((items.drop start.toNat).take (termCount start stop 1)) := by
  induction hTerms : termCount start stop 1 generalizing start with
  | zero =>
      have hNone := (termCount_eq_zero_iff (by decide)).mp hTerms
      rw [terms_of_not_before (by decide) hNone]
      exact Selected.nil items
  | succ count ih =>
      rw [termCount_one] at hTerms
      have hSome : Before stop 1 start := by
        rw [Before, if_pos (by decide)]
        omega
      have hLength : start.toNat < items.length := by omega
      have hNext : (start + 1).toNat = start.toNat + 1 := by omega
      rw [terms_of_before (by decide) hSome,
        List.drop_eq_getElem_cons hLength, List.take_succ_cons, ← hNext]
      exact (ih (by omega) (by rw [termCount_one]; omega)).cons hStart
        (List.getElem?_eq_getElem hLength)

/-- What the two loops of a sequence type have to read. -/
structure SliceReaders.Reads (readers : SliceReaders α) : Prop where
  nonstrided : ∀ (self : Sequence α) {start stop : Int},
    0 ≤ start ∧ start ≤ self.items.length → stop ≤ self.items.length →
    ∃ selected, readers.nonstrided self ⟨start, termCount start stop 1⟩ =
        some selected ∧
      Selected self.items (terms start stop 1) selected
  general : ∀ (self : Sequence α) {start stop step : Int}, step ≠ 0 →
    SmiRange step →
    (∀ i ∈ terms start stop step, 0 ≤ i ∧ i < self.items.length) →
    ∃ selected,
      readers.general self ⟨start, stop, step, termCount start stop step⟩ =
        some selected ∧
      Selected self.items (terms start stop step) selected

/-- A span as strings and bytes copy it. -/
theorem readSpan_selects {items : List α} {start stop : Int}
    (hStart : 0 ≤ start ∧ start ≤ items.length)
    (hStop : stop ≤ items.length) :
    ∃ selected, readSpan items start (termCount start stop 1) =
        some selected ∧
      Selected items (terms start stop 1) selected := by
  have hSpan : 0 ≤ start ∧
      start + (termCount start stop 1 : Nat) ≤ items.length := by
    rw [termCount_one]
    omega
  exact ⟨_, check_bind hSpan _, take_drop_selects hStart.1 hStop⟩

theorem stringGetSlice_reads : (stringGetSlice (α := α)).Reads where
  nonstrided := fun _ => readSpan_selects
  general := fun self _ _ _ hStep hRange =>
    readStrided_selects hStep hRange self.count_smi

theorem bytesGetSlice_reads : (bytesGetSlice (α := α)).Reads where
  nonstrided := fun _ => readSpan_selects
  general := fun self _ _ _ hStep hRange =>
    readStrided_selects hStep hRange self.count_smi

theorem listGetSlice_reads : (listGetSlice (α := α)).Reads where
  nonstrided := by
    intro self start stop hStart hStop
    have hCount := self.count_smi
    simp only [valueSmiMax] at hCount
    have hIn : ∀ i ∈ terms start stop 1, 0 ≤ i ∧ i < self.items.length :=
      (take_drop_selects hStart.1 hStop).inRange
    have hBound : 0 ≤ start ∧
        start + (0 : Nat) + (termCount start stop 1 : Nat) < 2 ^ 63 := by
      rw [termCount_one]
      omega
    show ∃ selected, readFrom self.items start _ 0 = some selected ∧ _
    rw [readFrom_eq_readStrided _ _ _ _ hBound, Int.natCast_zero,
      Int.add_zero]
    exact readStrided_selects (by decide) (by decide) self.count_smi hIn
  general := fun self _ _ _ hStep hRange =>
    readStrided_selects hStep hRange self.count_smi

/-! ## Subscripts -/

/-- What Python selects from a sequence. -/
def PythonSelects (self : Sequence α) (start stop step : Option Int)
    (selected : List α) : Prop :=
  Selected self.items (pythonRange start stop step self.items.length) selected

/-- The fields of a slice all fit an SMI. -/
def FitSmi (start stop step : Option Int) : Prop :=
  (∀ i ∈ start, SmiRange i) ∧ (∀ i ∈ stop, SmiRange i) ∧
    ∀ i ∈ step, SmiRange i

section Subscript

variable {readers : SliceReaders α} {self : Sequence α}
  {startField stopField stepField : IndexValue} {start stop step : Option Int}

/-- Normalization gives Python's indices and the count of the
progression. -/
theorem normalizeGeneralSliceForLength_spec {n : Int}
    (hn : 0 ≤ n ∧ n ≤ valueSmiMax)
    (hStart : Integral startField start) (hStop : Integral stopField stop)
    (hStepField : Integral stepField step) (hStep : step ≠ some 0)
    (hFits : FitSmi start stop step) :
    normalizeGeneralSliceForLength
        (makeSlice startField stopField stepField) n =
      some (.ok ⟨(pythonIndices start stop step n).1,
        (pythonIndices start stop step n).2.1,
        (pythonIndices start stop step n).2.2,
        (pythonRange start stop step n).length⟩) := by
  obtain ⟨hStartFits, hStopFits, hStepFits⟩ := hFits
  have hne : step.getD 1 ≠ 0 := getD_ne_zero hStep
  have hRange : SmiRange (step.getD 1) := by
    cases step with
    | none => decide
    | some i => exact hStepFits i rfl
  have hLast : -2 ^ 63 ≤ n - 1 ∧ n - 1 < 2 ^ 63 := by
    simp only [valueSmiMax] at hn
    omega
  unfold normalizeGeneralSliceForLength makeSlice
  dsimp only
  rw [bind_of_eq_some (normalizeStep_spec hStepField hStepFits hStep)]
  dsimp only
  rw [bind_of_eq_some (int64_eq_some hLast)]
  by_cases hNeg : step.getD 1 < 0
  · have hFirst : -1 ≤ pythonBound start (n - 1) (-1) (n - 1) n ∧ _ :=
      pythonBound_mem (by omega) (by omega) (by omega) (by omega)
    have hEnd : -1 ≤ pythonBound stop (-1) (-1) (n - 1) n ∧ _ :=
      pythonBound_mem (by omega) (by omega) (by omega) (by omega)
    simp only [if_pos hNeg, pythonIndices, pythonRange, length_terms]
    rw [bind_of_eq_some (normalizeFieldOr_spec hStart hStartFits hn
      (by omega) (by omega))]
    dsimp only
    rw [bind_of_eq_some (normalizeFieldOr_spec hStop hStopFits hn
      (by omega) (by omega))]
    dsimp only
    rw [bind_of_eq_some (selectedSequenceLength_spec hne hRange
      (by omega) (by omega))]
  · have hFirst : 0 ≤ pythonBound start 0 0 n n ∧ _ :=
      pythonBound_mem (by omega) (by omega) (by omega) (by omega)
    have hEnd : 0 ≤ pythonBound stop n 0 n n ∧ _ :=
      pythonBound_mem (by omega) (by omega) (by omega) (by omega)
    simp only [if_neg hNeg, pythonIndices, pythonRange, length_terms]
    rw [bind_of_eq_some (normalizeFieldOr_spec hStart hStartFits hn
      (by omega) (by omega))]
    dsimp only
    rw [bind_of_eq_some (normalizeFieldOr_spec hStop hStopFits hn
      (by omega) (by omega))]
    dsimp only
    rw [bind_of_eq_some (selectedSequenceLength_spec hne hRange
      (by omega) (by omega))]

theorem count_nonneg (self : Sequence α) :
    0 ≤ (self.items.length : Int) ∧ (self.items.length : Int) ≤ valueSmiMax :=
  ⟨Int.natCast_nonneg _, self.count_smi⟩

/-- The subscript without a step. -/
theorem getitemNonstrided_selects (self : Sequence α) (stepField : IndexValue)
    (hReads : readers.Reads)
    (hStart : Integral startField start) (hStop : Integral stopField stop)
    (hFits : FitSmi start stop none) :
    ∃ selected, getitemNonstrided readers self
        (makeSlice startField stopField stepField) = some (.ok selected) ∧
      PythonSelects self start stop none selected := by
  obtain ⟨hStartFits, hStopFits, -⟩ := hFits
  have hCount := count_nonneg self
  set n := ((self.items.length : Nat) : Int) with hn
  set first := pythonBound start 0 0 n n with hFirst
  set last := pythonBound stop n 0 n n with hLast
  have hFirstMem : 0 ≤ first ∧ first ≤ n :=
    pythonBound_mem (by omega) (by omega) (by omega) (by omega)
  have hLastMem : 0 ≤ last ∧ last ≤ n :=
    pythonBound_mem (by omega) (by omega) (by omega) (by omega)
  have hNormalized : normalizeNonstridedSliceForLength
      (makeSlice startField stopField stepField) n =
      some (.ok ⟨first, termCount first last 1⟩) := by
    unfold normalizeNonstridedSliceForLength makeSlice
    dsimp only
    rw [bind_of_eq_some (normalizeFieldOr_spec hStart hStartFits hCount
      (by omega) (by omega))]
    dsimp only
    rw [bind_of_eq_some (normalizeFieldOr_spec hStop hStopFits hCount
      (by omega) (by omega))]
    dsimp only
    rw [← hFirst, ← hLast, termCount_one]
    simp only [valueSmiMax] at hCount
    by_cases hSome : first < last
    · rw [if_pos hSome, bind_of_eq_some (int64_eq_some (by omega))]
    · rw [if_neg hSome, show (last - first).toNat = 0 by omega]
  obtain ⟨selected, hRead, hSelected⟩ :=
    hReads.nonstrided self hFirstMem hLastMem.2
  refine ⟨selected, ?_, hSelected⟩
  rw [getitemNonstrided, ← hn, bind_of_eq_some hNormalized]
  exact bind_of_eq_some hRead _

/-- The subscript with any step. -/
theorem getitemGeneral_selects (self : Sequence α) (hReads : readers.Reads)
    (hStart : Integral startField start) (hStop : Integral stopField stop)
    (hStepField : Integral stepField step) (hStep : step ≠ some 0)
    (hFits : FitSmi start stop step) :
    ∃ selected, getitemGeneral readers self
        (makeSlice startField stopField stepField) = some (.ok selected) ∧
      PythonSelects self start stop step selected := by
  have hCount := count_nonneg self
  have hRange : SmiRange (step.getD 1) := by
    cases step with
    | none => decide
    | some i => exact hFits.2.2 i rfl
  have hStride : (pythonIndices start stop step self.items.length).2.2 =
      step.getD 1 := by
    unfold pythonIndices
    dsimp only
    split <;> rfl
  obtain ⟨selected, hRead, hSelected⟩ := hReads.general self
    (by rw [hStride]; exact getD_ne_zero hStep)
    (by rw [hStride]; exact hRange)
    (fun i hi => terms_pythonIndices_mem hCount.1 hStep hi)
  refine ⟨selected, ?_, hSelected⟩
  rw [getitemGeneral, bind_of_eq_some (normalizeGeneralSliceForLength_spec
    hCount hStart hStop hStepField hStep hFits)]
  dsimp only
  rw [pythonRange, length_terms]
  exact bind_of_eq_some hRead _

/-- A field that does not fit is an integer that does not. -/
theorem exists_of_not_fits {bound : Option Int}
    (h : ¬ ∀ i ∈ bound, SmiRange i) :
    ∃ i, bound = some i ∧ ¬ SmiRange i := by
  simp only [not_forall] at h
  obtain ⟨i, hBound, hi⟩ := h
  exact ⟨i, hBound, hi⟩

/-- A field that does not fit stops the subscript without a step. -/
theorem getitemNonstrided_overflow
    (hStart : Integral startField start) (hStop : Integral stopField stop)
    (hFits : ¬ FitSmi start stop none) :
    getitemNonstrided readers self
        (makeSlice startField stopField stepField) =
      some (.error overflowError) := by
  unfold getitemNonstrided normalizeNonstridedSliceForLength makeSlice
  dsimp only
  by_cases hStartFits : ∀ i ∈ start, SmiRange i
  · have hStopFits : ¬ ∀ i ∈ stop, SmiRange i := fun h =>
      hFits ⟨hStartFits, h, nofun⟩
    obtain ⟨i, rfl, hi⟩ := exists_of_not_fits hStopFits
    rw [bind_of_eq_some (normalizeFieldOr_spec hStart hStartFits
      (count_nonneg self) (by omega) (by omega))]
    dsimp only
    rw [bind_of_eq_some (normalizeFieldOr_overflow hStop hi)]
    rfl
  · obtain ⟨i, rfl, hi⟩ := exists_of_not_fits hStartFits
    rw [bind_of_eq_some (normalizeFieldOr_overflow hStart hi)]
    rfl

/-- A field that does not fit stops the subscript with a step. -/
theorem getitemGeneral_overflow
    (hStart : Integral startField start) (hStop : Integral stopField stop)
    (hStepField : Integral stepField step) (hStep : step ≠ some 0)
    (hFits : ¬ FitSmi start stop step) :
    getitemGeneral readers self
        (makeSlice startField stopField stepField) =
      some (.error overflowError) := by
  have hCount := count_nonneg self
  have hLast : -2 ^ 63 ≤ (self.items.length : Int) - 1 ∧
      (self.items.length : Int) - 1 < 2 ^ 63 := by
    simp only [valueSmiMax] at hCount
    omega
  unfold getitemGeneral normalizeGeneralSliceForLength makeSlice
  dsimp only
  by_cases hStepFits : ∀ i ∈ step, SmiRange i
  · rw [bind_of_eq_some (normalizeStep_spec hStepField hStepFits hStep)]
    dsimp only
    rw [bind_of_eq_some (int64_eq_some hLast)]
    by_cases hStartFits : ∀ i ∈ start, SmiRange i
    · have hStopFits : ¬ ∀ i ∈ stop, SmiRange i := fun h =>
        hFits ⟨hStartFits, h, hStepFits⟩
      obtain ⟨i, rfl, hi⟩ := exists_of_not_fits hStopFits
      rw [bind_of_eq_some (normalizeFieldOr_spec hStart hStartFits hCount
        (by split <;> omega) (by split <;> omega))]
      dsimp only
      rw [bind_of_eq_some (normalizeFieldOr_overflow hStop hi)]
      rfl
    · obtain ⟨i, rfl, hi⟩ := exists_of_not_fits hStartFits
      rw [bind_of_eq_some (normalizeFieldOr_overflow hStart hi)]
      rfl
  · obtain ⟨i, rfl, hi⟩ := exists_of_not_fits hStepFits
    rw [bind_of_eq_some (normalizeStep_overflow hStepField hi)]
    rfl

/-- Native code and the trusted handler of the slice's shape run the same
path. -/
theorem trustedGetitem_eq_nativeGetitem :
    trustedGetitem readers self (makeSlice startField stopField stepField) =
      nativeGetitem readers self
        (makeSlice startField stopField stepField) := by
  unfold trustedGetitem nativeGetitem makeSlice
  cases stepField.isNone <;> rfl

/-- Native code follows the slice's step. -/
theorem nativeGetitem_none (h : Integral stepField step)
    (hNone : step = none) :
    nativeGetitem readers self (makeSlice startField stopField stepField) =
      getitemNonstrided readers self
        (makeSlice startField stopField stepField) :=
  if_pos (h.isNone_iff.mpr hNone)

theorem nativeGetitem_some (h : Integral stepField step)
    (hSome : step ≠ none) :
    nativeGetitem readers self (makeSlice startField stopField stepField) =
      getitemGeneral readers self
        (makeSlice startField stopField stepField) :=
  if_neg (mt h.isNone_iff.mp hSome)

/-- Slicing gives what Python selects, in native code and in the trusted
handler. -/
def SlicesLikePython (readers : SliceReaders α) (self : Sequence α)
    (startField stopField stepField : IndexValue) (start stop step : Option Int) :
    Prop :=
  ∃ selected,
    nativeGetitem readers self (makeSlice startField stopField stepField) =
      some (.ok selected) ∧
    trustedGetitem readers self (makeSlice startField stopField stepField) =
      some (.ok selected) ∧
    PythonSelects self start stop step selected

/-- A step of one selects what no step does. -/
theorem pythonSelects_one {selected : List α} (h : step = none ∨ step = some 1) :
    PythonSelects self start stop step selected ↔
      PythonSelects self start stop none selected := by
  rcases h with rfl | rfl <;> exact Iff.rfl

end Subscript

/-- **Slicing**: strings, bytes and lists select Python's items when the
fields fit an SMI, and raise `OverflowError` when one does not; the path
without a step and the general path agree on steps of one. -/
theorem slices_smi_like_python {readers : SliceReaders α}
    (hReaders : readers = stringGetSlice ∨ readers = bytesGetSlice ∨
      readers = listGetSlice)
    (self : Sequence α) {startField stopField stepField : IndexValue}
    {start stop step : Option Int} (hStart : Integral startField start)
    (hStop : Integral stopField stop) (hStepField : Integral stepField step)
    (hStep : step ≠ some 0) :
    (FitSmi start stop step →
      SlicesLikePython readers self startField stopField stepField start stop
        step) ∧
    (¬ FitSmi start stop step →
      nativeGetitem readers self
          (makeSlice startField stopField stepField) =
        some (.error overflowError) ∧
      trustedGetitem readers self
          (makeSlice startField stopField stepField) =
        some (.error overflowError)) ∧
    (step = none ∨ step = some 1 →
      getitemGeneral readers self (makeSlice startField stopField stepField) =
        getitemNonstrided readers self
          (makeSlice startField stopField stepField)) := by
  have hReads : readers.Reads := by
    rcases hReaders with rfl | rfl | rfl
    · exact stringGetSlice_reads
    · exact bytesGetSlice_reads
    · exact listGetSlice_reads
  refine ⟨?_, ?_, ?_⟩
  · intro hFits
    by_cases hNone : step = none
    · subst hNone
      obtain ⟨selected, hGet, hSelected⟩ :=
        getitemNonstrided_selects self stepField hReads hStart hStop hFits
      rw [← nativeGetitem_none hStepField rfl] at hGet
      exact ⟨selected, hGet, trustedGetitem_eq_nativeGetitem.trans hGet,
        hSelected⟩
    · obtain ⟨selected, hGet, hSelected⟩ :=
        getitemGeneral_selects self hReads hStart hStop hStepField hStep hFits
      rw [← nativeGetitem_some hStepField hNone] at hGet
      exact ⟨selected, hGet, trustedGetitem_eq_nativeGetitem.trans hGet,
        hSelected⟩
  · intro hFits
    rw [trustedGetitem_eq_nativeGetitem, and_self]
    by_cases hNone : step = none
    · rw [nativeGetitem_none hStepField hNone]
      exact getitemNonstrided_overflow hStart hStop (hNone ▸ hFits)
    · rw [nativeGetitem_some hStepField hNone]
      exact getitemGeneral_overflow hStart hStop hStepField hStep hFits
  · intro hOne
    have hStepFits : ∀ i ∈ step, SmiRange i := by
      rcases hOne with rfl | rfl
      · nofun
      · rintro i ⟨⟩
        decide
    by_cases hFits : FitSmi start stop step
    · obtain ⟨xs, hGeneral, hXs⟩ :=
        getitemGeneral_selects self hReads hStart hStop hStepField hStep hFits
      obtain ⟨ys, hNonstrided, hYs⟩ :=
        getitemNonstrided_selects self stepField hReads hStart hStop
          ⟨hFits.1, hFits.2.1, nofun⟩
      have hSame := ((pythonSelects_one hOne).mp hXs).unique hYs
      rw [hGeneral, hNonstrided, hSame]
    · rw [getitemGeneral_overflow hStart hStop hStepField hStep hFits,
        getitemNonstrided_overflow hStart hStop
          (fun h => hFits ⟨h.1, h.2.1, hStepFits⟩)]

theorem slices_smi_like_python_backwards :
    SlicesLikePython listGetSlice ⟨[10, 20, 30, 40], by decide⟩
      (.integer (.smi (Value.ofInt (-1)))) .none
      (.integer (.smi (Value.ofInt (-2)))) (some (-1)) none (some (-2)) :=
  (slices_smi_like_python (Or.inr (Or.inr rfl)) _
    (Integral.smi (Value.ofInt (-1))) .omitted
    (Integral.smi (Value.ofInt (-2))) (by decide)).1 (by
      refine ⟨?_, nofun, ?_⟩
      all_goals
        rintro i ⟨⟩
        decide)

end Selection

/-- A bound of `2 ^ 58`, one more than an SMI holds. -/
def oversizedStop : ConstBigIntView := ⟨1, [0, 2 ^ 26]⟩

/-- Python takes a bound of any size; here one past the SMI range is an
`OverflowError`. -/
theorem slice_oversized_stop :
    ¬ ∀ (self : Sequence Nat) (startField stopField stepField : IndexValue)
      (start stop step : Option Int), Integral startField start →
      Integral stopField stop → Integral stepField step → step ≠ some 0 →
      SlicesLikePython stringGetSlice self startField stopField stepField
        start stop step := by
  intro h
  have hNormalized : Normalized oversizedStop :=
    (isNormalizedBigintView_iff _).mp (by decide)
  obtain ⟨selected, hGet, -, -⟩ := h ⟨[97, 98], by decide⟩ .none
    (.integer (.bigInt oversizedStop)) .none none _ none .omitted
    (.bigInt hNormalized) .omitted nofun
  have hOverflow : nativeGetitem stringGetSlice
      (⟨[97, 98], by decide⟩ : Sequence Nat)
      (makeSlice .none (.integer (.bigInt oversizedStop)) .none) =
      some (.error overflowError) := by decide +kernel
  rw [hOverflow] at hGet
  cases hGet

end CloverVM.BuiltinTypes.Slice
