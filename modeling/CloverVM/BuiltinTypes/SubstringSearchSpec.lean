import CloverVM.BuiltinTypes.SubstringSearch

/-!
# What the searches find

Python's bounds are the start and the stop that slicing gives, but that the
start is not clamped to the length: a start beyond the stop admits no match.
Here both bounds are clamped and put in order first.  A needle that is not
empty has no match in an empty range, so nothing is lost; an empty needle does.
-/

namespace CloverVM.BuiltinTypes.SubstringSearch

open CloverVM.Machine CloverVM.ObjectModel CloverVM.Runtime
open CloverVM.BuiltinTypes.Slice
open CloverVM.Collections.Occurrences

/-- The start of a search in Python: counted from the end when negative, and
not clamped to the length. -/
def pythonStart (start : Option Int) (length : Nat) : Nat :=
  match start with
  | none => 0
  | some i => if i < 0 then (i + length).toNat else i.toNat

/-- The stop of a search in Python. -/
def pythonStop (stop : Option Int) (length : Nat) : Nat :=
  match stop with
  | none => length
  | some i => if i < 0 then (i + length).toNat else min i.toNat length

theorem pythonStop_le (stop : Option Int) (length : Nat) :
    pythonStop stop length ≤ length := by
  cases stop with
  | none => exact Nat.le_refl _
  | some i =>
      simp only [pythonStop]
      split_ifs <;> omega

theorem boundOr_spec {value : IndexValue} {bound : Option Int} {default : Int}
    (h : Integral value bound) (hFits : ∀ i ∈ bound, SmiRange i) :
    boundOr value default = some (.ok (bound.getD default)) := by
  cases bound with
  | none =>
      cases h
      rfl
  | some i =>
      rw [boundOr, h.isNone_eq_false, if_neg Bool.false_ne_true,
        requireSmi_spec _ h, if_pos (hFits i rfl)]
      rfl

theorem normalizeBound_spec {value : Int} {length : Nat}
    (hValue : -2 ^ 60 ≤ value) (hLength : (length : Int) ≤ 2 ^ 60) :
    normalizeBound value length =
      some (min (if value < 0 then (value + length).toNat else value.toNat)
        length) := by
  unfold normalizeBound
  by_cases hNeg : value < 0
  · rw [if_pos hNeg, int64_eq_some (by omega), if_pos hNeg]
    show some _ = some _
    congr 1
    split_ifs <;> omega
  · rw [if_neg hNeg, if_neg hNeg]
    show some _ = some _
    congr 1
    split_ifs <;> omega

theorem getD_fits {bound : Option Int} {default : Int}
    (hFits : ∀ i ∈ bound, SmiRange i) (hDefault : 0 ≤ default) :
    -2 ^ 60 ≤ bound.getD default := by
  cases bound with
  | none =>
      show -2 ^ 60 ≤ default
      omega
  | some i =>
      have hi : SmiRange i := hFits i rfl
      simp only [SmiRange, valueSmiMin, valueSmiMax] at hi
      show -2 ^ 60 ≤ i
      omega

/-- The range that is searched: Python's bounds, the start clamped to the
length and the stop to the start. -/
theorem normalizeRange_spec {startValue endValue : IndexValue}
    {start stop : Option Int} {length : Nat}
    (hLength : (length : Int) ≤ valueSmiMax)
    (hStart : Integral startValue start) (hStop : Integral endValue stop)
    (hStartFits : ∀ i ∈ start, SmiRange i)
    (hStopFits : ∀ i ∈ stop, SmiRange i) :
    normalizeRange length startValue endValue =
      some (.ok (min (pythonStart start length) length,
        max (min (pythonStart start length) length)
          (pythonStop stop length))) := by
  simp only [valueSmiMax] at hLength
  have hFirst : normalizeBound (start.getD 0) length =
      some (min (pythonStart start length) length) := by
    rw [normalizeBound_spec (getD_fits hStartFits (by omega)) (by omega)]
    cases start <;> rfl
  have hLast : normalizeBound (stop.getD length) length =
      some (pythonStop stop length) := by
    rw [normalizeBound_spec (getD_fits hStopFits (by omega)) (by omega)]
    cases stop with
    | none =>
        show some (min (if (length : Int) < 0 then _ else _) length) = _
        rw [if_neg (by omega)]
        exact congrArg some (Nat.min_self _)
    | some i =>
        have hi : SmiRange i := hStopFits i rfl
        simp only [SmiRange, valueSmiMin, valueSmiMax] at hi
        simp only [pythonStop, Option.getD_some]
        split_ifs <;> congr 1
        omega
  unfold normalizeRange
  rw [bind_of_eq_some (boundOr_spec hStart hStartFits)]
  dsimp only
  rw [bind_of_eq_some (boundOr_spec hStop hStopFits)]
  dsimp only
  rw [bind_of_eq_some hFirst, bind_of_eq_some hLast]
  congr 3
  split_ifs <;> omega

/-! ## Places in a range -/

section Places

variable {α : Type}

/-- An occurrence of `t` in `s` that lies between two bounds. -/
def OccursIn (t s : List α) (start stop i : Nat) : Prop :=
  start ≤ i ∧ i + t.length ≤ stop ∧ OccursAt t s i

/-- The range that is searched. -/
def rangeOf (s : List α) (start stop : Nat) : List α :=
  (s.drop start).take (stop - start)

variable {t s : List α} {start stop : Nat}

theorem length_rangeOf (hStop : stop ≤ s.length) :
    (rangeOf s start stop).length = stop - start := by
  rw [rangeOf, List.length_take, List.length_drop]
  omega

theorem occursAt_rangeOf_iff (hOrder : start ≤ stop)
    (hStop : stop ≤ s.length) (i : Nat) :
    OccursAt t (rangeOf s start stop) i ↔
      OccursIn t s start stop (start + i) := by
  rw [rangeOf, occursAt_range_iff hOrder hStop, OccursIn]
  exact (and_iff_right (Nat.le_add_right _ _)).symm

/-- A place between the bounds is a place of the range. -/
theorem exists_of_occursIn {i : Nat} (hOrder : start ≤ stop)
    (hStop : stop ≤ s.length) (h : OccursIn t s start stop i) :
    ∃ j, i = start + j ∧ OccursAt t (rangeOf s start stop) j := by
  have hLe := h.1
  refine ⟨i - start, by omega, ?_⟩
  rw [occursAt_rangeOf_iff hOrder hStop, Nat.add_sub_of_le hLe]
  exact h

/-- The result of a search: the best of the places, or `-1` for none. -/
def Found (best : Set Nat → Nat → Prop) (places : Set Nat) (r : Int) : Prop :=
  (r = -1 ∧ places = ∅) ∨ ∃ i : Nat, r = i ∧ best places i

/-- The numbers of places that do not overlap. -/
def disjointCounts (t : List α) (places : Set Nat) : Set Nat :=
  {n | ∃ found : List Nat, found.length = n ∧ (∀ i ∈ found, i ∈ places) ∧
    NonOverlapping t found}

/-- What the searches of a type give on a range in order. -/
structure Searches.Finds (m : Searches α) : Prop where
  find : ∀ {t s : List α} {start stop}, start ≤ stop → stop ≤ s.length →
    ∃ r, m.find s t start stop = some r ∧
      Found IsLeast {i | OccursIn t s start stop i} r
  rfind : ∀ {t s : List α} {start stop}, start ≤ stop → stop ≤ s.length →
    ∃ r, m.rfind s t start stop = some r ∧
      Found IsGreatest {i | OccursIn t s start stop i} r
  count : ∀ {t s : List α} {start stop}, start ≤ stop → stop ≤ s.length →
    ∃ n : Nat, m.count s t start stop = some (n : Int) ∧
      IsGreatest (disjointCounts t {i | OccursIn t s start stop i}) n
  startswith : ∀ {t s : List α} {start stop}, start ≤ stop →
    stop ≤ s.length →
    ∃ b, m.startswith s t start stop = some b ∧
      (b = true ↔ OccursIn t s start stop start)
  endswith : ∀ {t s : List α} {start stop}, start ≤ stop →
    stop ≤ s.length →
    ∃ b, m.endswith s t start stop = some b ∧
      (b = true ↔ ∃ i, OccursIn t s start stop i ∧ i + t.length = stop)

section Results

variable [DecidableEq α]

/-- The first place of the range. -/
theorem found_findFrom (hOrder : start ≤ stop) (hStop : stop ≤ s.length) :
    Found IsLeast {i | OccursIn t s start stop i}
      (match findFrom t (rangeOf s start stop) 0 with
        | none => -1
        | some found => ((start + found : Nat) : Int)) := by
  cases hFind : findFrom t (rangeOf s start stop) 0 with
  | none =>
      refine Or.inl ⟨rfl, ?_⟩
      ext i
      refine iff_of_false ?_ nofun
      intro h
      obtain ⟨j, -, hj⟩ := exists_of_occursIn hOrder hStop h
      exact findFrom_eq_none_iff.mp hFind j (Nat.zero_le _) hj
  | some found =>
      obtain ⟨⟨-, hOccurs⟩, hLeast⟩ := findFrom_eq_some_iff.mp hFind
      refine Or.inr ⟨start + found, rfl,
        (occursAt_rangeOf_iff hOrder hStop found).mp hOccurs, ?_⟩
      intro i hi
      obtain ⟨j, rfl, hj⟩ := exists_of_occursIn hOrder hStop hi
      have hLe : found ≤ j := hLeast ⟨Nat.zero_le _, hj⟩
      omega

/-- The last place of the range, from its end or from the last place where the
needle fits. -/
theorem found_findBackTo (hOrder : start ≤ stop) (hStop : stop ≤ s.length)
    {pos : Nat} (hPos : (rangeOf s start stop).length ≤ pos + t.length) :
    Found IsGreatest {i | OccursIn t s start stop i}
      (match findBackTo t (rangeOf s start stop) pos with
        | none => -1
        | some found => ((start + found : Nat) : Int)) := by
  cases hFind : findBackTo t (rangeOf s start stop) pos with
  | none =>
      refine Or.inl ⟨rfl, ?_⟩
      ext i
      refine iff_of_false ?_ nofun
      intro h
      obtain ⟨j, -, hj⟩ := exists_of_occursIn hOrder hStop h
      have hEnd := hj.1
      exact findBackTo_eq_none_iff.mp hFind j (by omega) hj
  | some found =>
      obtain ⟨⟨-, hOccurs⟩, hGreatest⟩ := findBackTo_eq_some_iff.mp hFind
      refine Or.inr ⟨start + found, rfl,
        (occursAt_rangeOf_iff hOrder hStop found).mp hOccurs, ?_⟩
      intro i hi
      obtain ⟨j, rfl, hj⟩ := exists_of_occursIn hOrder hStop hi
      have hEnd := hj.1
      have hLe : j ≤ found := hGreatest ⟨by omega, hj⟩
      omega

/-- The greedy cuts of the range are as many places as do not overlap. -/
theorem isGreatest_leftmostCuts (ht : t ≠ []) (hOrder : start ≤ stop)
    (hStop : stop ≤ s.length) :
    IsGreatest (disjointCounts t {i | OccursIn t s start stop i})
      (leftmostCuts t (rangeOf s start stop) 0).length := by
  constructor
  · refine ⟨(leftmostCuts t (rangeOf s start stop) 0).map (start + ·),
      List.length_map _, ?_, ?_⟩
    · intro i hi
      obtain ⟨j, hj, rfl⟩ := List.mem_map.mp hi
      exact (occursAt_rangeOf_iff hOrder hStop j).mp (leftmostCuts_mem ht hj).2
    · refine List.pairwise_map.mpr ?_
      refine (leftmostCuts_nonOverlapping ht).imp ?_
      intro i j h
      omega
  · rintro n ⟨found, rfl, hPlaces, hApart⟩
    have hShift : ∀ i ∈ found, start ≤ i ∧
        OccursAt t (rangeOf s start stop) (i - start) := by
      intro i hi
      obtain ⟨j, rfl, hj⟩ := exists_of_occursIn hOrder hStop (hPlaces i hi)
      rw [Nat.add_sub_cancel_left]
      exact ⟨by omega, hj⟩
    rw [← List.length_map (· - start)]
    refine length_le_leftmostCuts ht ?_ ?_
    · intro j hj
      obtain ⟨i, hi, rfl⟩ := List.mem_map.mp hj
      exact ⟨Nat.zero_le _, (hShift i hi).2⟩
    · refine List.pairwise_map.mpr (hApart.imp_of_mem ?_)
      intro i j hi hj h
      have hLow := (hShift i hi).1
      have hLow' := (hShift j hj).1
      omega

omit [DecidableEq α] in
/-- An empty needle occurs everywhere between the bounds. -/
theorem occursIn_nil_iff (hStop : stop ≤ s.length) (i : Nat) :
    OccursIn [] s start stop i ↔ start ≤ i ∧ i ≤ stop := by
  unfold OccursIn OccursAt
  simp only [List.length_nil, List.take_zero, Nat.add_zero, and_true]
  omega

omit [DecidableEq α] in
/-- An empty needle has one place more than the range has items. -/
theorem isGreatest_empty (hOrder : start ≤ stop) (hStop : stop ≤ s.length) :
    IsGreatest (disjointCounts ([] : List α)
      {i | OccursIn [] s start stop i}) (stop - start + 1) := by
  constructor
  · have hSorted := List.pairwise_lt_range' (s := start)
      (n := stop - start + 1) 1
    refine ⟨List.range' start (stop - start + 1), List.length_range', ?_, ?_⟩
    · intro i hi
      rw [List.mem_range'_1] at hi
      exact (occursIn_nil_iff hStop i).mpr (by omega)
    · refine hSorted.imp ?_
      intro i j h
      exact ⟨h, Nat.le_of_lt h⟩
  · rintro n ⟨found, rfl, hPlaces, hApart⟩
    have hNodup : found.Nodup := hApart.imp fun h => Nat.ne_of_lt h.1
    have hSubset : found ⊆ List.range' start (stop - start + 1) := by
      intro i hi
      have hBounds := (occursIn_nil_iff hStop i).mp (hPlaces i hi)
      rw [List.mem_range'_1]
      omega
    have hLength := (hNodup.subperm hSubset).length_le
    rwa [List.length_range'] at hLength

/-! ## Strings -/

theorem sizeSub_eq_some {a b : Nat} (h : b ≤ a) : sizeSub a b = some (a - b) :=
  check_bind h _

omit [DecidableEq α] in
theorem stringRange_eq (hOrder : start ≤ stop) (hStop : stop ≤ s.length) :
    stringRange s start stop = some (rangeOf s start stop) := by
  rw [stringRange, bind_of_eq_some (sizeSub_eq_some hOrder)]
  exact check_bind (by omega) _

/-- The counting loop counts the greedy cuts. -/
theorem stringCountLoop_eq {range : List α} (ht : t ≠ []) (pos : Nat)
    (result : Int) :
    stringCountLoop range t ht pos result =
      result + ((leftmostCuts t range pos).length : Nat) := by
  induction hMeasure : range.length + 1 - pos using Nat.strong_induction_on
    generalizing pos result with
  | _ n ih =>
      rw [stringCountLoop]
      by_cases hPos : pos ≤ range.length
      · rw [if_pos hPos]
        split
        · rename_i hNone
          rw [leftmostCuts_of_none hNone, List.length_nil, Int.natCast_zero,
            Int.add_zero]
        · rename_i found hSome
          have hShorter := findFrom_advances ht hSome
          rw [ih _ (by omega) _ _ rfl, leftmostCuts_of_some ht hSome,
            List.length_cons]
          push_cast
          ring
      · have hNone : findFrom t range pos = none := by
          rw [findFrom_eq_none_iff]
          intro i hi hOccurs
          have hEnd := hOccurs.1
          omega
        rw [if_neg hPos, leftmostCuts_of_none hNone, List.length_nil,
          Int.natCast_zero, Int.add_zero]

omit [DecidableEq α] in
/-- Matching at a place of the range that has room for the needle. -/
theorem take_drop_rangeOf_iff (hOrder : start ≤ stop)
    (hStop : stop ≤ s.length) {pos : Nat}
    (hRoom : pos + t.length ≤ (rangeOf s start stop).length) :
    ((rangeOf s start stop).drop pos).take t.length = t ↔
      OccursIn t s start stop (start + pos) := by
  rw [← occursAt_rangeOf_iff hOrder hStop]
  exact (and_iff_right hRoom).symm

omit [DecidableEq α] in
/-- The only place where a match ends at the stop. -/
theorem exists_occursIn_end_iff (hOrder : start ≤ stop)
    (hStop : stop ≤ s.length)
    (hRoom : t.length ≤ (rangeOf s start stop).length) :
    (∃ i, OccursIn t s start stop i ∧ i + t.length = stop) ↔
      OccursIn t s start stop
        (start + ((rangeOf s start stop).length - t.length)) := by
  rw [length_rangeOf hStop] at hRoom ⊢
  constructor
  · rintro ⟨i, hOccurs, hEnd⟩
    rwa [show start + (stop - start - t.length) = i by omega]
  · intro hOccurs
    exact ⟨_, hOccurs, by omega⟩

omit [DecidableEq α] in
/-- A needle longer than the range has no place in it. -/
theorem not_occursIn_of_long (hStop : stop ≤ s.length)
    (hLong : ¬ (rangeOf s start stop).length ≥ t.length) (i : Nat) :
    ¬ OccursIn t s start stop i := by
  rw [length_rangeOf hStop] at hLong
  rintro ⟨hLow, hHigh, -⟩
  omega

theorem stringSearches_finds : (stringSearches (α := α)).Finds where
  find := by
    intro t s start stop hOrder hStop
    refine ⟨_, ?_, found_findFrom hOrder hStop⟩
    show stringFind s t start stop = _
    rw [stringFind, bind_of_eq_some (stringRange_eq hOrder hStop)]
    cases findFrom t (rangeOf s start stop) 0 <;> rfl
  rfind := by
    intro t s start stop hOrder hStop
    refine ⟨_, ?_, found_findBackTo hOrder hStop (Nat.le_add_right _ _)⟩
    show stringRfind s t start stop = _
    rw [stringRfind, bind_of_eq_some (stringRange_eq hOrder hStop)]
    cases findBackTo t (rangeOf s start stop) _ <;> rfl
  count := by
    intro t s start stop hOrder hStop
    by_cases ht : t = []
    · subst ht
      refine ⟨_, ?_, isGreatest_empty hOrder hStop⟩
      show stringCount s [] start stop = _
      rw [stringCount, bind_of_eq_some (stringRange_eq hOrder hStop),
        dif_pos rfl, length_rangeOf hStop]
    · refine ⟨_, ?_, isGreatest_leftmostCuts ht hOrder hStop⟩
      show stringCount s t start stop = _
      rw [stringCount, bind_of_eq_some (stringRange_eq hOrder hStop),
        dif_neg ht, stringCountLoop_eq, Int.zero_add]
  startswith := by
    intro t s start stop hOrder hStop
    show ∃ b, stringStartswith s t start stop = some b ∧ _
    rw [stringStartswith, bind_of_eq_some (stringRange_eq hOrder hStop)]
    by_cases hRoom : (rangeOf s start stop).length ≥ t.length
    · rw [if_pos hRoom, substr, check_bind (Nat.zero_le _)]
      refine ⟨_, rfl, ?_⟩
      rw [decide_eq_true_iff, take_drop_rangeOf_iff hOrder hStop (by omega),
        Nat.add_zero]
    · rw [if_neg hRoom]
      exact ⟨_, rfl, iff_of_false nofun (not_occursIn_of_long hStop hRoom _)⟩
  endswith := by
    intro t s start stop hOrder hStop
    show ∃ b, stringEndswith s t start stop = some b ∧ _
    rw [stringEndswith, bind_of_eq_some (stringRange_eq hOrder hStop)]
    by_cases hRoom : (rangeOf s start stop).length ≥ t.length
    · have hBack : ∀ n, t.length ≤ n → ((rangeOf s start stop).drop
          ((rangeOf s start stop).length - t.length)).take n =
          (rangeOf s start stop).drop
            ((rangeOf s start stop).length - t.length) := by
        intro n hn
        refine List.take_of_length_le ?_
        rw [List.length_drop]
        omega
      rw [if_pos hRoom, bind_of_eq_some (sizeSub_eq_some hRoom), substr,
        check_bind (Nat.sub_le _ _)]
      refine ⟨_, rfl, ?_⟩
      rw [decide_eq_true_iff, hBack _ hRoom, ← hBack _ (Nat.le_refl _),
        take_drop_rangeOf_iff hOrder hStop (by omega),
        exists_occursIn_end_iff hOrder hStop hRoom]
    · rw [if_neg hRoom]
      refine ⟨_, rfl, iff_of_false nofun ?_⟩
      rintro ⟨i, hOccurs, -⟩
      exact not_occursIn_of_long hStop hRoom i hOccurs

/-! ## Bytes -/

omit [DecidableEq α] in
theorem bytesRange_eq (hOrder : start ≤ stop) (hStop : stop ≤ s.length) :
    bytesRange s start stop = some (rangeOf s start stop) := by
  rw [bytesRange, bind_of_eq_some (sizeSub_eq_some hOrder)]
  exact check_bind (by omega) _

theorem stdEqual_eq {range : List α} {pos : Nat}
    (hRoom : pos + t.length ≤ range.length) :
    stdEqual t range pos = some (decide (OccursAt t range pos)) := by
  rw [stdEqual, check_bind hRoom]
  congr 2
  exact propext (and_iff_right hRoom).symm

/-- The loop from the right is the search from the right. -/
theorem bytesRfindLoop_eq {range : List α} {pos : Nat}
    (hRoom : pos + t.length ≤ range.length) :
    bytesRfindLoop range t start pos =
      some (match findBackTo t range pos with
        | none => -1
        | some found => ((start + found : Nat) : Int)) := by
  induction pos with
  | zero =>
      rw [bytesRfindLoop, findBackTo, bind_of_eq_some (stdEqual_eq hRoom)]
      by_cases hHere : OccursAt t range 0
      · simp only [hHere, if_true, decide_true]
        rfl
      · simp only [hHere, if_false, decide_false]
        rfl
  | succ pos ih =>
      rw [bytesRfindLoop, findBackTo, bind_of_eq_some (stdEqual_eq hRoom)]
      by_cases hHere : OccursAt t range (pos + 1)
      · simp only [hHere, if_true, decide_true]
      · simp only [hHere, if_false, decide_false]
        exact ih (by omega)

/-- The counting loop of bytes counts the greedy cuts too. -/
theorem bytesCountLoop_eq {range : List α} (ht : t ≠ []) {pos : Nat}
    (hPos : pos ≤ range.length) (result : Int) :
    bytesCountLoop range t ht pos result =
      result + ((leftmostCuts t range pos).length : Nat) := by
  induction hMeasure : range.length + 1 - pos using Nat.strong_induction_on
    generalizing pos result with
  | _ n ih =>
      rw [bytesCountLoop]
      obtain ⟨hNone, hSome⟩ := stdSearch_eq_iff range ht pos
      by_cases hEnd : pos = range.length
      · have hNothing : findFrom t range pos = none := by
          rw [findFrom_eq_none_iff]
          intro i hi hOccurs
          have hStop := hOccurs.1
          have hLength := List.length_pos_of_ne_nil ht
          omega
        rw [if_neg (not_not_intro hEnd), leftmostCuts_of_none hNothing,
          List.length_nil, Int.natCast_zero, Int.add_zero]
      · rw [if_pos hEnd]
        by_cases hFound : stdSearch range t pos = range.length
        · rw [dif_pos hFound, leftmostCuts_of_none (hNone.mp hFound),
            List.length_nil, Int.natCast_zero, Int.add_zero]
        · have hFind := hSome hFound
          have hShorter := findFrom_advances ht hFind
          rw [dif_neg hFound, ih _ (by omega) (findFrom_mem hFind).2.1 _ rfl,
            leftmostCuts_of_some ht hFind, List.length_cons]
          push_cast
          ring

theorem bytesSearches_finds : (bytesSearches (α := α)).Finds where
  find := by
    intro t s start stop hOrder hStop
    show ∃ r, bytesFind s t start stop = some r ∧ _
    rw [bytesFind, bind_of_eq_some (bytesRange_eq hOrder hStop)]
    by_cases ht : t = []
    · subst ht
      rw [if_pos rfl]
      refine ⟨_, rfl, Or.inr ⟨start, rfl, ?_, ?_⟩⟩
      · exact (occursIn_nil_iff hStop start).mpr ⟨Nat.le_refl _, hOrder⟩
      · exact fun i hi => hi.1
    · obtain ⟨hNone, hSome⟩ :=
        stdSearch_eq_iff (rangeOf s start stop) ht 0
      have hFound := found_findFrom (t := t) hOrder hStop
      rw [if_neg ht]
      dsimp only
      by_cases hEnd : stdSearch (rangeOf s start stop) t 0 =
          (rangeOf s start stop).length
      · rw [hNone.mp hEnd] at hFound
        rw [if_pos hEnd]
        exact ⟨_, rfl, hFound⟩
      · rw [hSome hEnd] at hFound
        rw [if_neg hEnd]
        exact ⟨_, rfl, hFound⟩
  rfind := by
    intro t s start stop hOrder hStop
    show ∃ r, bytesRfind s t start stop = some r ∧ _
    rw [bytesRfind, bind_of_eq_some (bytesRange_eq hOrder hStop)]
    by_cases ht : t = []
    · subst ht
      rw [if_pos rfl]
      refine ⟨_, rfl, Or.inr ⟨stop, rfl, ?_, ?_⟩⟩
      · exact (occursIn_nil_iff hStop stop).mpr ⟨hOrder, Nat.le_refl _⟩
      · exact fun i hi => hi.2.1
    rw [if_neg ht]
    by_cases hLong : t.length > (rangeOf s start stop).length
    · rw [if_pos hLong]
      refine ⟨_, rfl, Or.inl ⟨rfl, ?_⟩⟩
      ext i
      exact iff_of_false (not_occursIn_of_long hStop (by omega) i) nofun
    · rw [if_neg hLong, bind_of_eq_some (sizeSub_eq_some (by omega)),
        bytesRfindLoop_eq (by omega)]
      exact ⟨_, rfl, found_findBackTo hOrder hStop (by omega)⟩
  count := by
    intro t s start stop hOrder hStop
    by_cases ht : t = []
    · subst ht
      refine ⟨_, ?_, isGreatest_empty hOrder hStop⟩
      show bytesCount s [] start stop = _
      rw [bytesCount, bind_of_eq_some (bytesRange_eq hOrder hStop),
        dif_pos rfl, length_rangeOf hStop]
    · refine ⟨_, ?_, isGreatest_leftmostCuts ht hOrder hStop⟩
      show bytesCount s t start stop = _
      rw [bytesCount, bind_of_eq_some (bytesRange_eq hOrder hStop),
        dif_neg ht, bytesCountLoop_eq ht (Nat.zero_le _), Int.zero_add]
  startswith := by
    intro t s start stop hOrder hStop
    show ∃ b, bytesStartswith s t start stop = some b ∧ _
    rw [bytesStartswith, bind_of_eq_some (bytesRange_eq hOrder hStop)]
    by_cases hRoom : (rangeOf s start stop).length ≥ t.length
    · rw [if_pos hRoom, stdEqual_eq (by omega)]
      refine ⟨_, rfl, ?_⟩
      rw [decide_eq_true_iff, occursAt_rangeOf_iff hOrder hStop, Nat.add_zero]
    · rw [if_neg hRoom]
      exact ⟨_, rfl, iff_of_false nofun (not_occursIn_of_long hStop hRoom _)⟩
  endswith := by
    intro t s start stop hOrder hStop
    show ∃ b, bytesEndswith s t start stop = some b ∧ _
    rw [bytesEndswith, bind_of_eq_some (bytesRange_eq hOrder hStop)]
    by_cases hRoom : (rangeOf s start stop).length ≥ t.length
    · rw [if_pos hRoom, bind_of_eq_some (sizeSub_eq_some hRoom),
        stdEqual_eq (by omega)]
      refine ⟨_, rfl, ?_⟩
      rw [decide_eq_true_iff, occursAt_rangeOf_iff hOrder hStop,
        exists_occursIn_end_iff hOrder hStop hRoom]
    · rw [if_neg hRoom]
      refine ⟨_, rfl, iff_of_false nofun ?_⟩
      rintro ⟨i, hOccurs, -⟩
      exact not_occursIn_of_long hStop hRoom i hOccurs

end Results

/-! ## The methods -/

/-- The methods of a type do what Python does on a receiver, a needle and
bounds. -/
structure SearchesLikePython (m : Searches α) (receiver : Sequence α)
    (t : List α) (startValue endValue : IndexValue)
    (start stop : Option Int) : Prop where
  find : ∃ r, method m.find receiver t startValue endValue = some (.ok r) ∧
    Found IsLeast {i | OccursIn t receiver.items
      (pythonStart start receiver.items.length)
      (pythonStop stop receiver.items.length) i} r
  rfind : ∃ r, method m.rfind receiver t startValue endValue = some (.ok r) ∧
    Found IsGreatest {i | OccursIn t receiver.items
      (pythonStart start receiver.items.length)
      (pythonStop stop receiver.items.length) i} r
  index : ∀ r, method m.find receiver t startValue endValue = some (.ok r) →
    indexMethod m.notFound m.find receiver t startValue endValue =
      some (if r = -1 then .error m.notFound else .ok r)
  rindex : ∀ r, method m.rfind receiver t startValue endValue = some (.ok r) →
    indexMethod m.notFound m.rfind receiver t startValue endValue =
      some (if r = -1 then .error m.notFound else .ok r)
  notFound : m.notFound.typeName = "ValueError"
  count : ∃ n : Nat, method m.count receiver t startValue endValue =
      some (.ok (n : Int)) ∧
    IsGreatest (disjointCounts t {i | OccursIn t receiver.items
      (pythonStart start receiver.items.length)
      (pythonStop stop receiver.items.length) i}) n
  startswith : ∃ b, method m.startswith receiver t startValue endValue =
      some (.ok b) ∧
    (b = true ↔ OccursIn t receiver.items (pythonStart start receiver.items.length)
      (pythonStop stop receiver.items.length)
      (pythonStart start receiver.items.length))
  endswith : ∃ b, method m.endswith receiver t startValue endValue =
      some (.ok b) ∧
    (b = true ↔ ∃ i, OccursIn t receiver.items
      (pythonStart start receiver.items.length)
      (pythonStop stop receiver.items.length) i ∧
      i + t.length = pythonStop stop receiver.items.length)

section Methods

/-- A method searches the normalized range. -/
theorem method_eq {β : Type} {search : List α → List α → Nat → Nat → Option β}
    {self : Sequence α} {startValue endValue : IndexValue} {r : β}
    (hRange : normalizeRange self.items.length startValue endValue =
      some (.ok (start, stop)))
    (hSearch : search self.items t start stop = some r) :
    method search self t startValue endValue = some (.ok r) := by
  rw [method, bind_of_eq_some hRange]
  exact bind_of_eq_some hSearch _

/-- `index` raises where `find` gives `-1`. -/
theorem indexMethod_eq {notFound : BuiltinException}
    {search : List α → List α → Nat → Nat → Option Int} {self : Sequence α}
    {startValue endValue : IndexValue}
    (hRange : normalizeRange self.items.length startValue endValue =
      some (.ok (start, stop))) {r : Int}
    (h : method search self t startValue endValue = some (.ok r)) :
    indexMethod notFound search self t startValue endValue =
      some (if r = -1 then .error notFound else .ok r) := by
  rw [method, bind_of_eq_some hRange] at h
  obtain ⟨found, hSearch, hFound⟩ := exists_of_bind h
  cases hFound
  rw [indexMethod, bind_of_eq_some hRange]
  exact bind_of_eq_some hSearch _

/-- A needle that is not empty does not occur between bounds that leave no
room. -/
theorem not_occursIn_of_stop_le (ht : t ≠ []) (h : stop ≤ start) (i : Nat) :
    ¬ OccursIn t s start stop i := by
  rintro ⟨hLow, hHigh, -⟩
  have hLength := List.length_pos_of_ne_nil ht
  omega

/-- What a type finds on its range it finds on Python's, when the needle is
not empty or the bounds are in order. -/
theorem places_eq (hStop : stop ≤ s.length)
    (h : t ≠ [] ∨ start ≤ stop) :
    (∀ i, OccursIn t s (min start s.length)
        (max (min start s.length) stop) i ↔ OccursIn t s start stop i) ∧
    (OccursIn t s (min start s.length) (max (min start s.length) stop)
      (min start s.length) ↔ OccursIn t s start stop start) ∧
    ((∃ i, OccursIn t s (min start s.length)
        (max (min start s.length) stop) i ∧
        i + t.length = max (min start s.length) stop) ↔
      ∃ i, OccursIn t s start stop i ∧ i + t.length = stop) := by
  by_cases hOrder : start ≤ stop
  · rw [Nat.min_eq_left (by omega), Nat.max_eq_right hOrder]
    exact ⟨fun _ => Iff.rfl, Iff.rfl, Iff.rfl⟩
  · have ht : t ≠ [] := h.resolve_right hOrder
    have hLe : max (min start s.length) stop ≤ min start s.length := by omega
    have hClamped := not_occursIn_of_stop_le (s := s) ht hLe
    have hPython : ∀ i, ¬ OccursIn t s start stop i :=
      not_occursIn_of_stop_le ht (by omega)
    refine ⟨fun i => iff_of_false (hClamped i) (hPython i),
      iff_of_false (hClamped _) (hPython _), iff_of_false ?_ ?_⟩
    · rintro ⟨i, hOccurs, -⟩
      exact hClamped i hOccurs
    · rintro ⟨i, hOccurs, -⟩
      exact hPython i hOccurs

/-- **Bounded search**: strings and bytes search as Python does when the
needle is not empty or Python's start is not beyond its stop, and only then. -/
theorem searches_like_python_iff [DecidableEq α] {m : Searches α}
    (hm : m = stringSearches ∨ m = bytesSearches) (self : Sequence α)
    (t : List α) {startValue endValue : IndexValue} {start stop : Option Int}
    (hStart : Integral startValue start) (hStop : Integral endValue stop)
    (hStartFits : ∀ i ∈ start, SmiRange i)
    (hStopFits : ∀ i ∈ stop, SmiRange i) :
    SearchesLikePython m self t startValue endValue start stop ↔
      t ≠ [] ∨ pythonStart start self.items.length ≤
        pythonStop stop self.items.length := by
  have hFinds : m.Finds := by
    rcases hm with rfl | rfl
    · exact stringSearches_finds
    · exact bytesSearches_finds
  have hRange := normalizeRange_spec self.count_smi hStart hStop hStartFits
    hStopFits
  have hBound := pythonStop_le stop self.items.length
  have hOrder : min (pythonStart start self.items.length) self.items.length ≤
      max (min (pythonStart start self.items.length) self.items.length)
        (pythonStop stop self.items.length) := Nat.le_max_left _ _
  have hLength : max (min (pythonStart start self.items.length)
      self.items.length) (pythonStop stop self.items.length) ≤
      self.items.length := by omega
  constructor
  · intro h
    by_contra hBoth
    obtain ⟨hEmpty, hBeyond⟩ := not_or.mp hBoth
    obtain rfl := not_not.mp hEmpty
    obtain ⟨r, hFind, hFound⟩ := hFinds.find (t := []) hOrder hLength
    obtain ⟨r', hMethod, hPython⟩ := h.find
    rw [method_eq hRange hFind] at hMethod
    cases hMethod
    -- the clamped start is a place for the code and none for Python
    have hPlace := (occursIn_nil_iff hLength _).mpr ⟨Nat.le_refl _, hOrder⟩
    rcases hFound with ⟨-, hNone⟩ | ⟨i, rfl, -⟩
    · exact absurd hPlace (Set.eq_empty_iff_forall_notMem.mp hNone _)
    · rcases hPython with ⟨hNegative, -⟩ | ⟨j, -, ⟨hLow, hHigh, -⟩, -⟩
      · omega
      · rw [List.length_nil] at hHigh
        omega
  · intro h
    obtain ⟨hPlaces, hFront, hBack⟩ := places_eq (s := self.items) hBound h
    have hSets : {i | OccursIn t self.items
        (min (pythonStart start self.items.length) self.items.length)
        (max (min (pythonStart start self.items.length) self.items.length)
          (pythonStop stop self.items.length)) i} =
        {i | OccursIn t self.items (pythonStart start self.items.length)
          (pythonStop stop self.items.length) i} := Set.ext hPlaces
    obtain ⟨r, hFind, hFound⟩ := hFinds.find (t := t) hOrder hLength
    obtain ⟨r', hRfind, hRfound⟩ := hFinds.rfind (t := t) hOrder hLength
    obtain ⟨n, hCount, hGreatest⟩ := hFinds.count (t := t) hOrder hLength
    obtain ⟨b, hStarts, hStartsIff⟩ :=
      hFinds.startswith (t := t) hOrder hLength
    obtain ⟨b', hEnds, hEndsIff⟩ := hFinds.endswith (t := t) hOrder hLength
    rw [hSets] at hFound hRfound hGreatest
    exact
      { find := ⟨r, method_eq hRange hFind, hFound⟩
        rfind := ⟨r', method_eq hRange hRfind, hRfound⟩
        index := fun _ => indexMethod_eq hRange
        rindex := fun _ => indexMethod_eq hRange
        notFound := by rcases hm with rfl | rfl <;> rfl
        count := ⟨n, method_eq hRange hCount, hGreatest⟩
        startswith := ⟨b, method_eq hRange hStarts, hStartsIff.trans hFront⟩
        endswith := ⟨b', method_eq hRange hEnds, hEndsIff.trans hBack⟩ }

end Methods

end Places

/-- `"abc".find("", 1, 9)`: within Python's bounds. -/
theorem searches_like_python_iff_empty_needle :
    SearchesLikePython stringSearches ⟨[97, 98, 99], by decide⟩ []
      (.integer (.smi (Value.ofInt 1))) (.integer (.smi (Value.ofInt 9)))
      (some 1) (some 9) :=
  (searches_like_python_iff (Or.inl rfl) _ _ (Integral.smi (Value.ofInt 1))
    (Integral.smi (Value.ofInt 9)) (by rintro i ⟨⟩; decide)
    (by rintro i ⟨⟩; decide)).mpr (Or.inr (by decide))

/-- `"abc".find("", 4)` is three and not `-1`. -/
theorem find_empty_needle_past_end :
    method stringSearches.find (⟨[97, 98, 99], by decide⟩ : Sequence Nat) []
        (.integer (.smi (Value.ofInt 4))) .none = some (.ok 3) ∧
      ¬ SearchesLikePython stringSearches
        (⟨[97, 98, 99], by decide⟩ : Sequence Nat) []
        (.integer (.smi (Value.ofInt 4))) .none (some 4) none := by
  have hFind : method stringSearches.find
      (⟨[97, 98, 99], by decide⟩ : Sequence Nat) []
      (.integer (.smi (Value.ofInt 4))) .none = some (.ok 3) := by
    decide +kernel
  refine ⟨hFind, fun h => ?_⟩
  obtain ⟨r, hMethod, hPython⟩ := h.find
  rw [hFind] at hMethod
  cases hMethod
  rcases hPython with ⟨hNegative, -⟩ | ⟨j, -, ⟨hLow, hHigh, -⟩, -⟩
  · exact absurd hNegative (by decide)
  · exact absurd (Nat.le_trans hLow hHigh) (by decide)

end CloverVM.BuiltinTypes.SubstringSearch
