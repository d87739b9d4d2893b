import CloverVM.ObjectModel.ValueArray
import CloverVM.BuiltinTypes.SliceSelection

/-!
# Lists

The member functions of `List` in `builtin_types/list.cpp`, over the array of
values that a list is.  Each loop runs as in the source, one cell at a time,
and a Python exception is the error of an inner `Except`.
-/

namespace CloverVM.BuiltinTypes.ListObject

open CloverVM.Machine CloverVM.ObjectModel CloverVM.Runtime
open CloverVM.ObjectModel.ValueArray
open CloverVM.BuiltinTypes.Slice

def listIndexError : BuiltinException :=
  { typeName := "IndexError", message := "list index out of range" }

/-- The items of a tuple; their count is an SMI. -/
structure TupleObject where
  items : List Value
  size_le : items.length ≤ arraySizeMax

/-- `Tuple::item_unchecked` -/
def TupleObject.itemUnchecked (self : TupleObject) (idx : Nat) :
    Except Halt Value :=
  readCell self.items idx

/-- `List(cls, size)` -/
def make (size : Nat) : Except Halt ValueArray :=
  empty.resize size Value.notPresent

def append (self : ValueArray) (value : Value) : Except Halt ValueArray :=
  self.pushBack value

def copy (self : ValueArray) : Except Halt ValueArray := do
  let result ← make self.size
  forUp
    (fun idx result => do
      let item ← self.get idx
      result.set idx item)
    self.size 0 result

def extendFromTuple (self : ValueArray) (other : TupleObject) :
    Except Halt ValueArray :=
  forUp
    (fun idx self => do
      let item ← other.itemUnchecked idx
      append self item)
    other.items.length 0 self

/-- The loop of `reverse`, with `right` before its decrement. -/
def reverseLoop : Nat → Nat → ValueArray → Except Halt ValueArray
  | 0, _, self => .ok self
  | right + 1, left, self =>
      if left < right + 1 then do
        let leftValue ← self.get left
        let rightValue ← self.get right
        let self ← self.set left rightValue
        let self ← self.set right leftValue
        reverseLoop right (left + 1) self
      else .ok self

def reverse (self : ValueArray) : Except Halt ValueArray :=
  reverseLoop self.size 0 self

/-- A turn of the loops of `concat`, at `write_idx`. -/
def concatTurn (source : ValueArray) (idx : Nat)
    (state : ValueArray × Nat) : Except Halt (ValueArray × Nat) := do
  let item ← source.get idx
  let result ← state.1.set state.2 item
  .ok (result, state.2 + 1)

def concat (self other : ValueArray) : Except Halt ValueArray := do
  let result ← make (self.size + other.size)
  let state ← forUp (concatTurn self) self.size 0 (result, 0)
  let state ← forUp (concatTurn other) other.size 0 state
  .ok state.1

def insertItemUnchecked (self : ValueArray) (idx : Nat) (value : Value) :
    Except Halt ValueArray := do
  demand (idx ≤ self.size)
  let oldSize := self.size
  let self ← self.resize (oldSize + 1) Value.none
  let self ← forDown
    (fun shiftIdx self => do
      let item ← self.get (shiftIdx - 1)
      self.set shiftIdx item)
    idx (oldSize - idx) self
  self.set idx value

/-- The item that is removed, and the list without it. -/
def popItemUnchecked (self : ValueArray) (idx : Nat) :
    Except Halt (Value × ValueArray) := do
  demand (idx < self.size)
  let removed ← self.get idx
  let oldSize := self.size
  let self ← forUp
    (fun shiftIdx self => do
      let item ← self.get (shiftIdx + 1)
      self.set shiftIdx item)
    (oldSize - 1 - idx) idx self
  let self ← self.resize (oldSize - 1) (Value.fromSmi 0)
  .ok (removed, self)

/-- A wrapped index as a `size_t`. -/
def wrapIndex (self : ValueArray) (pyIdx : Int) : Except Halt Nat := do
  let normalized ←
    (if pyIdx < 0 then signed (pyIdx + self.size) else .ok pyIdx)
  .ok (normalized % 2 ^ 64).toNat

def checkIndex (self : ValueArray) (idx : Nat) :
    Except BuiltinException Unit :=
  if self.size ≤ idx then .error listIndexError else .ok ()

def normalizeInsertionIndex (self : ValueArray) (pyIdx : Int) :
    Except Halt Nat := do
  let normalized ←
    (if pyIdx < 0 then signed (pyIdx + self.size) else .ok pyIdx)
  .ok (min (max 0 normalized) self.size).toNat

def getItem (self : ValueArray) (pyIdx : Int) :
    Except Halt (Except BuiltinException Value) := do
  let idx ← wrapIndex self pyIdx
  match checkIndex self idx with
  | .error e => .ok (.error e)
  | .ok () => .ok <$> self.get idx

def setItem (self : ValueArray) (pyIdx : Int) (value : Value) :
    Except Halt (Except BuiltinException ValueArray) := do
  let idx ← wrapIndex self pyIdx
  match checkIndex self idx with
  | .error e => .ok (.error e)
  | .ok () => .ok <$> self.set idx value

def insertItem (self : ValueArray) (pyIdx : Int) (value : Value) :
    Except Halt ValueArray := do
  let idx ← normalizeInsertionIndex self pyIdx
  insertItemUnchecked self idx value

def popItem (self : ValueArray) (pyIdx : Int) :
    Except Halt (Except BuiltinException (Value × ValueArray)) := do
  let idx ← wrapIndex self pyIdx
  match checkIndex self idx with
  | .error e => .ok (.error e)
  | .ok () => .ok <$> popItemUnchecked self idx

/-- An index that is computed with a sign and cast to a `size_t`. -/
def castIndex (idx : Int) : Nat := (idx % 2 ^ 64).toNat

/-- `get_slice` of a `NormalizedNonstridedSlice`. -/
def getSliceNonstrided (self : ValueArray)
    (slice : NormalizedNonstridedSlice) : Except Halt ValueArray := do
  let result ← make slice.selectedSequenceLength
  forUp
    (fun writeIdx result => do
      let readIdx ← signed (slice.start + writeIdx)
      let item ← self.get (castIndex readIdx)
      result.set writeIdx item)
    slice.selectedSequenceLength 0 result

/-- `get_slice` of a `NormalizedGeneralSlice`. -/
def getSliceGeneral (self : ValueArray) (slice : NormalizedGeneralSlice) :
    Except Halt ValueArray := do
  let result ← make slice.selectedSequenceLength
  let state ← forUp
    (fun writeIdx (state : ValueArray × Int) => do
      let item ← self.get (castIndex state.2)
      let result ← state.1.set writeIdx item
      let readIdx ← signed (state.2 + slice.step)
      .ok (result, readIdx))
    slice.selectedSequenceLength 0 (result, slice.start)
  .ok state.1

/-- `native_list_getitem` on a slice. -/
def getSlice (self : ValueArray) (slice : Slice) :
    Except Halt (Except BuiltinException ValueArray) :=
  if slice.step.isNone then do
    match ← orUndefined
        (normalizeNonstridedSliceForLength slice self.size) with
    | .error e => .ok (.error e)
    | .ok normalized => .ok <$> getSliceNonstrided self normalized
  else do
    match ← orUndefined (normalizeGeneralSliceForLength slice self.size) with
    | .error e => .ok (.error e)
    | .ok normalized => .ok <$> getSliceGeneral self normalized

/-! ## Indices -/

/-- The index of an item, as Python reads it. -/
def pythonIndex (n : Nat) (i : Int) : Option Nat :=
  if i < 0 then
    if 0 ≤ i + n then some (i + n).toNat else none
  else if i < n then some i.toNat else none

/-- Where Python inserts. -/
def pythonInsertionIndex (n : Nat) (i : Int) : Nat :=
  (if i < 0 then max 0 (i + n) else min i n).toNat

theorem pythonIndex_lt {n k : Nat} {i : Int} (h : pythonIndex n i = some k) :
    k < n := by
  unfold pythonIndex at h
  split_ifs at h <;> cases h <;> omega

theorem pythonInsertionIndex_le (n : Nat) (i : Int) :
    pythonInsertionIndex n i ≤ n := by
  unfold pythonInsertionIndex
  split <;> omega

section Indices

variable {self : ValueArray} {items : List Value}

/-- The sum of an SMI and a size. -/
theorem wrapped_eq {i : Int} (hi : SmiRange i) {n : Nat}
    (hn : n ≤ arraySizeMax) :
    (if i < 0 then signed (i + n) else Except.ok i) =
      .ok (if i < 0 then i + n else i) := by
  obtain ⟨hLow, hHigh⟩ := hi
  simp only [arraySizeMax, valueSmiMin, valueSmiMax] at *
  split
  · exact signed_of (by omega)
  · rfl

/-- A wrapped index is in range exactly when Python's is. -/
theorem wrapIndex_spec (h : self.Holds items) {i : Int} (hi : SmiRange i) :
    ∃ idx, wrapIndex self i = .ok idx ∧
      match pythonIndex items.length i with
      | some k => idx = k
      | none => items.length ≤ idx := by
  refine ⟨((if i < 0 then i + items.length else i) % 2 ^ 64).toNat, ?_, ?_⟩
  · rw [wrapIndex, h.size, bind_ok (wrapped_eq hi h.length_le)]
  · have hLength := h.length_le
    obtain ⟨hLow, hHigh⟩ := hi
    unfold pythonIndex
    simp only [arraySizeMax, valueSmiMin, valueSmiMax] at *
    by_cases hNeg : i < 0
    · rw [if_pos hNeg, if_pos hNeg]
      by_cases hIn : 0 ≤ i + (items.length : Int)
      · rw [if_pos hIn]
        dsimp only
        omega
      · rw [if_neg hIn]
        dsimp only
        omega
    · rw [if_neg hNeg, if_neg hNeg]
      by_cases hIn : i < (items.length : Int)
      · rw [if_pos hIn]
        dsimp only
        omega
      · rw [if_neg hIn]
        dsimp only
        omega

/-- An index that Python has an item at. -/
theorem wrapIndex_some (h : self.Holds items) {i : Int} (hi : SmiRange i)
    {k : Nat} (hk : pythonIndex items.length i = some k) :
    wrapIndex self i = .ok k ∧ checkIndex self k = .ok () := by
  obtain ⟨idx, hWrap, hIdx⟩ := wrapIndex_spec h hi
  rw [hk] at hIdx
  subst hIdx
  have hLess := pythonIndex_lt hk
  exact ⟨hWrap, if_neg (by rw [h.size]; omega)⟩

/-- An index that Python has no item at. -/
theorem wrapIndex_none (h : self.Holds items) {i : Int} (hi : SmiRange i)
    (hk : pythonIndex items.length i = none) :
    ∃ idx, wrapIndex self i = .ok idx ∧
      checkIndex self idx = .error listIndexError := by
  obtain ⟨idx, hWrap, hIdx⟩ := wrapIndex_spec h hi
  rw [hk] at hIdx
  exact ⟨idx, hWrap, if_pos (by rw [h.size]; exact hIdx)⟩

theorem normalizeInsertionIndex_spec (h : self.Holds items) {i : Int}
    (hi : SmiRange i) :
    normalizeInsertionIndex self i =
      .ok (pythonInsertionIndex items.length i) := by
  rw [normalizeInsertionIndex, h.size, bind_ok (wrapped_eq hi h.length_le)]
  unfold pythonInsertionIndex
  congr 2
  split <;> omega

theorem castIndex_of {i : Int} (hLow : 0 ≤ i)
    (hHigh : i.toNat ≤ arraySizeMax) : castIndex i = i.toNat := by
  unfold castIndex
  simp only [arraySizeMax] at hHigh
  omega

end Indices

/-- The first `count` items of a list to be are in place. -/
def Filled (items : List Value) (count : Nat) (result : ValueArray) : Prop :=
  result.Holds (items.take count ++
    List.replicate (items.length - count) Value.notPresent)

section Filling

variable {items : List Value} {Stop : Halt → Prop}

theorem make_ends (items : List Value) :
    Ends (make items.length) (Filled items 0) (TooLarge items.length) :=
  holds_empty.resize_grow_ends Value.notPresent (Nat.zero_le _)

/-- A list that another list is no shorter than can be made. -/
theorem make_ends_of_le (h : items.length ≤ arraySizeMax) :
    Ends (make items.length) (Filled items 0) Stop :=
  (make_ends items).mono (fun _ hr => hr) fun _ he =>
    absurd h (by have := he.2; omega)

theorem Filled.set {count : Nat} {result : ValueArray} {item : Value}
    (h : Filled items count result) (hItem : items[count]? = some item) :
    Ends (result.set count item) (Filled items (count + 1)) Stop := by
  have hCount : count < items.length :=
    (List.getElem?_eq_some_iff.mp hItem).1
  have hTake : (items.take count).length = count :=
    List.length_take_of_le hCount.le
  have hRest : items.length - count = items.length - (count + 1) + 1 := by
    omega
  refine (Holds.set_ends h item (by simp; omega)).mono ?_ fun _ he => he
  intro next hNext
  rw [List.set_append_right _ _ (by omega), hTake, Nat.sub_self, hRest,
    List.replicate_succ, List.set_cons_zero] at hNext
  rw [Filled, List.take_add_one, hItem, Option.toList_some, List.append_assoc,
    List.singleton_append]
  exact hNext

theorem Filled.holds {result : ValueArray}
    (h : Filled items items.length result) : result.Holds items := by
  rw [Filled, List.take_length, Nat.sub_self, List.replicate_zero,
    List.append_nil] at h
  exact h

end Filling

/-! ## Copies -/

section Copies

variable {self other : ValueArray} {items items' : List Value}
  {Stop : Halt → Prop}

theorem copy_ends (h : self.Holds items) :
    Ends (copy self) (Holds · items) Stop := by
  unfold copy
  rw [h.size]
  refine (make_ends_of_le h.length_le).bind fun result hResult => ?_
  refine (@forUp_ends _ _ _ (Filled items) Stop 0 items.length ?_ items.length
    0 result (Nat.le_refl _) (Nat.zero_add _) hResult).mono ?_ fun _ he => he
  · intro idx filled _ hIdx hFilled
    have hItem := List.getElem?_eq_getElem hIdx
    rw [bind_ok (h.get hItem)]
    exact hFilled.set hItem
  · exact fun _ hr => hr.holds

/-- The loop of `concat` that copies the items after the first `written`. -/
theorem concatTurn_ends {source : ValueArray} {front back rest : List Value}
    (h : source.Holds back) {result : ValueArray}
    (hResult : Filled (front ++ (back ++ rest)) front.length result) :
    Ends (forUp (concatTurn source) source.size 0 (result, front.length))
      (fun state => Filled (front ++ (back ++ rest))
          (front.length + back.length) state.1 ∧
        state.2 = front.length + back.length) Stop := by
  rw [h.size]
  refine @forUp_ends _ _ _ (fun idx (state : ValueArray × Nat) =>
    Filled (front ++ (back ++ rest)) (front.length + idx) state.1 ∧
      state.2 = front.length + idx) Stop 0 back.length ?_ back.length 0 _
    (Nat.le_refl _) (Nat.zero_add _) ⟨hResult, rfl⟩
  rintro idx ⟨filled, writeIdx⟩ - hIdx ⟨hFilled, rfl⟩
  have hItem := List.getElem?_eq_getElem hIdx
  have hWritten : (front ++ (back ++ rest))[front.length + idx]? =
      some back[idx] := by
    rw [List.getElem?_append_right (by omega), Nat.add_sub_cancel_left,
      List.getElem?_append_left hIdx, hItem]
  rw [concatTurn, bind_ok (h.get hItem)]
  exact (hFilled.set hWritten).bind fun next hNext => ⟨hNext, rfl⟩

theorem concat_ends (h : self.Holds items) (h' : other.Holds items') :
    Ends (concat self other) (Holds · (items ++ items'))
      (TooLarge (items ++ items').length) := by
  unfold concat
  have hSize : self.size + other.size = (items ++ items').length := by
    rw [h.size, h'.size, List.length_append]
  rw [hSize]
  refine (make_ends _).bind fun result hResult => ?_
  refine (@concatTurn_ends _ self [] items items' h result hResult).bind ?_
  rintro ⟨first, writeIdx⟩ ⟨hFirst, rfl⟩
  rw [List.nil_append, List.length_nil, Nat.zero_add] at hFirst
  rw [List.length_nil, Nat.zero_add]
  have hRest : Filled (items ++ (items' ++ [])) items.length first := by
    rwa [List.append_nil]
  refine (concatTurn_ends h' hRest).bind ?_
  rintro ⟨last, writeIdx⟩ ⟨hLast, -⟩
  rw [List.append_nil, ← List.length_append] at hLast
  exact hLast.holds

theorem extendFromTuple_ends (h : self.Holds items) (tuple : TupleObject) :
    Ends (extendFromTuple self tuple) (Holds · (items ++ tuple.items))
      (TooLarge (items ++ tuple.items).length) := by
  refine (@forUp_ends _ _ _
    (fun idx => (Holds · (items ++ tuple.items.take idx)))
    (TooLarge (items ++ tuple.items).length) 0 tuple.items.length ?_
    tuple.items.length 0 self (Nat.le_refl _) (Nat.zero_add _) ?_).mono ?_
    fun _ he => he
  · intro idx extended _ hIdx hExtended
    have hItem := List.getElem?_eq_getElem hIdx
    have hRead : tuple.itemUnchecked idx = .ok tuple.items[idx] := by
      rw [TupleObject.itemUnchecked, readCell, hItem]
    rw [bind_ok hRead]
    refine (hExtended.pushBack_ends _).mono ?_ ?_
    · intro next hNext
      rw [List.take_add_one, hItem, Option.toList_some, ← List.append_assoc]
      exact hNext
    · rintro e ⟨rfl, hLarge⟩
      refine ⟨rfl, ?_⟩
      rw [List.length_append, List.length_take_of_le hIdx.le] at hLarge
      rw [List.length_append]
      omega
  · rw [List.take_zero, List.append_nil]
    exact h
  · intro last hLast
    rwa [List.take_length] at hLast

end Copies

/-! ## Shifting -/

section Shifting

variable {self : ValueArray} {items : List Value} {Stop : Halt → Prop}

/-- The items above `idx` have been moved up. -/
structure ShiftedUp (items : List Value) (idx : Nat) (shifted : ValueArray)
    (current : List Value) : Prop where
  holds : shifted.Holds current
  length : current.length = items.length + 1
  below : ∀ i < idx, current[i]? = items[i]?
  above : ∀ i, idx < i → current[i]? = items[i - 1]?

/-- A turn moves one item up. -/
theorem ShiftedUp.turn {shifted : ValueArray} {current : List Value}
    {idx : Nat} (h : ShiftedUp items idx shifted current) (hPos : 0 < idx)
    (hIdx : idx ≤ items.length) :
    ∃ item, shifted.get (idx - 1) = .ok item ∧
      Ends (shifted.set idx item)
        (fun next => ∃ current, ShiftedUp items (idx - 1) next current)
        Stop := by
  have hItem : items[idx - 1]? = some items[idx - 1] :=
    List.getElem?_eq_getElem (by omega)
  have hCurrent := (h.below (idx - 1) (by omega)).trans hItem
  refine ⟨items[idx - 1], h.holds.get hCurrent, ?_⟩
  refine (h.holds.set_ends _ (by rw [h.length]; omega)).mono ?_
    fun _ he => he
  intro next hNext
  refine ⟨_, hNext, by rw [List.length_set, h.length], ?_, ?_⟩
  · intro i hi
    rw [List.getElem?_set_ne (by omega), h.below i (by omega)]
  · intro i hi
    rw [List.getElem?_set, h.length]
    by_cases hSame : idx = i
    · subst hSame
      rw [if_pos rfl, if_pos (by omega), hItem]
    · rw [if_neg hSame, h.above i (by omega)]

theorem insertItemUnchecked_ends (h : self.Holds items) {idx : Nat}
    (value : Value) (hIdx : idx ≤ items.length) :
    Ends (insertItemUnchecked self idx value)
      (Holds · (items.insertIdx idx value)) (TooLarge (items.length + 1)) := by
  have hSize : idx ≤ self.size := h.size ▸ hIdx
  rw [insertItemUnchecked, bind_ok (demand_of hSize), h.size]
  refine (h.resize_grow_ends Value.none (Nat.le_succ _)).bind ?_
  intro grown hGrown
  rw [Nat.succ_sub (Nat.le_refl _), Nat.sub_self, List.replicate_one]
    at hGrown
  have hEnd : idx + (items.length - idx) = items.length := by omega
  refine (@forDown_ends _ _ _
    (fun idx shifted => ∃ current, ShiftedUp items idx shifted current) _ idx
    (items.length - idx) grown ?_ ?_).bind ?_
  · rintro shiftIdx shifted hLast hCount ⟨current, hShifted⟩
    obtain ⟨item, hGet, hTurn⟩ := hShifted.turn (by omega) (by omega)
    rw [bind_ok hGet]
    exact hTurn
  · rw [hEnd]
    refine ⟨_, hGrown, List.length_append, ?_, ?_⟩
    · exact fun i hi => List.getElem?_append_left hi
    · intro i hi
      rw [List.getElem?_eq_none (by simp; omega),
        List.getElem?_eq_none (by omega)]
  · rintro shifted ⟨current, hShifted⟩
    refine (hShifted.holds.set_ends value
      (by rw [hShifted.length]; omega)).mono ?_ fun _ he => he
    intro last hLast
    have hItems : current.set idx value = items.insertIdx idx value := by
      refine List.ext_getElem? fun i => ?_
      rw [List.getElem?_set, List.getElem?_insertIdx, hShifted.length]
      by_cases hBelow : i < idx
      · rw [if_neg (by omega), if_pos hBelow, hShifted.below i hBelow]
      · by_cases hSame : idx = i
        · rw [if_pos hSame, if_pos (by omega), if_neg hBelow,
            if_pos hSame.symm, if_pos (by omega)]
        · rw [if_neg hSame, if_neg hBelow, if_neg (Ne.symm hSame),
            hShifted.above i (by omega)]
    rwa [hItems] at hLast

/-- The items from `first` to `idx` have been moved down. -/
structure ShiftedDown (items : List Value) (first idx : Nat)
    (shifted : ValueArray) (current : List Value) : Prop where
  holds : shifted.Holds current
  length : current.length = items.length
  before : ∀ i < first, current[i]? = items[i]?
  moved : ∀ i, first ≤ i → i < idx → current[i]? = items[i + 1]?
  after : ∀ i, idx ≤ i → current[i]? = items[i]?

/-- A turn moves one item down. -/
theorem ShiftedDown.turn {first idx : Nat} {shifted : ValueArray}
    {current : List Value} (h : ShiftedDown items first idx shifted current)
    (hFirst : first ≤ idx) (hIdx : idx + 1 < items.length) :
    ∃ item, shifted.get (idx + 1) = .ok item ∧
      Ends (shifted.set idx item)
        (fun next => ∃ current,
          ShiftedDown items first (idx + 1) next current) Stop := by
  have hItem := List.getElem?_eq_getElem hIdx
  have hCurrent := (h.after (idx + 1) (by omega)).trans hItem
  refine ⟨items[idx + 1], h.holds.get hCurrent, ?_⟩
  refine (h.holds.set_ends _ (by rw [h.length]; omega)).mono ?_
    fun _ he => he
  intro next hNext
  refine ⟨_, hNext, by rw [List.length_set, h.length], ?_, ?_, ?_⟩
  · intro i hi
    rw [List.getElem?_set_ne (by omega), h.before i hi]
  · intro i hLow hHigh
    rw [List.getElem?_set, h.length]
    by_cases hSame : idx = i
    · subst hSame
      rw [if_pos rfl, if_pos (by omega), hItem]
    · rw [if_neg hSame, h.moved i hLow (by omega)]
  · intro i hi
    rw [List.getElem?_set_ne (by omega), h.after i (by omega)]

theorem popItemUnchecked_ends (h : self.Holds items) {idx : Nat}
    {removed : Value} (hItem : items[idx]? = some removed) :
    Ends (popItemUnchecked self idx)
      (fun answer => answer.1 = removed ∧
        answer.2.Holds (items.eraseIdx idx)) Stop := by
  have hIdx : idx < items.length := (List.getElem?_eq_some_iff.mp hItem).1
  have hSize : idx < self.size := h.size ▸ hIdx
  rw [popItemUnchecked, bind_ok (demand_of hSize), bind_ok (h.get hItem),
    h.size]
  refine (@forUp_ends _ _ _
    (fun shiftIdx shifted => ∃ current,
      ShiftedDown items idx shiftIdx shifted current) Stop idx
    (items.length - 1) ?_ (items.length - 1 - idx) idx self (Nat.le_refl _)
    (by omega) ⟨items, h, rfl, fun _ _ => rfl, ?_, fun _ _ => rfl⟩).bind ?_
  · rintro shiftIdx shifted hFirst hLast ⟨current, hShifted⟩
    obtain ⟨item, hGet, hTurn⟩ := hShifted.turn hFirst (by omega)
    rw [bind_ok hGet]
    exact hTurn
  · intro i hLow hHigh
    omega
  · rintro shifted ⟨current, hShifted⟩
    refine (hShifted.holds.resize_shrink_ends (Value.fromSmi 0)
      (by rw [hShifted.length]; omega)).bind fun last hLast => ⟨rfl, ?_⟩
    have hItems : current.take (items.length - 1) = items.eraseIdx idx := by
      refine List.ext_getElem? fun i => ?_
      rw [List.getElem?_take, List.getElem?_eraseIdx]
      by_cases hBefore : i < idx
      · rw [if_pos (by omega), if_pos hBefore, hShifted.before i hBefore]
      · rw [if_neg hBefore]
        split
        · rename_i hMoved
          rw [hShifted.moved i (by omega) hMoved]
        · rw [List.getElem?_eq_none (by omega)]
    rwa [hItems] at hLast

end Shifting

section Indexed

variable {self : ValueArray} {items : List Value} {i : Int}
  {Stop : Halt → Prop}

theorem getItem_some (h : self.Holds items) (hi : SmiRange i) {k : Nat}
    {item : Value} (hk : pythonIndex items.length i = some k)
    (hItem : items[k]? = some item) :
    getItem self i = .ok (.ok item) := by
  obtain ⟨hWrap, hCheck⟩ := wrapIndex_some h hi hk
  rw [getItem, bind_ok hWrap, hCheck]
  dsimp only
  rw [h.get hItem]
  rfl

theorem getItem_none (h : self.Holds items) (hi : SmiRange i)
    (hk : pythonIndex items.length i = none) :
    getItem self i = .ok (.error listIndexError) := by
  obtain ⟨idx, hWrap, hCheck⟩ := wrapIndex_none h hi hk
  rw [getItem, bind_ok hWrap, hCheck]

theorem setItem_some (h : self.Holds items) (hi : SmiRange i) {k : Nat}
    (value : Value) (hk : pythonIndex items.length i = some k) :
    Ends (setItem self i value)
      (fun r => ∃ b, r = .ok b ∧ b.Holds (items.set k value)) Stop := by
  obtain ⟨hWrap, hCheck⟩ := wrapIndex_some h hi hk
  rw [setItem, bind_ok hWrap, hCheck]
  exact (h.set_ends value (pythonIndex_lt hk)).bind fun b hb => ⟨b, rfl, hb⟩

theorem setItem_none (h : self.Holds items) (hi : SmiRange i) (value : Value)
    (hk : pythonIndex items.length i = none) :
    setItem self i value = .ok (.error listIndexError) := by
  obtain ⟨idx, hWrap, hCheck⟩ := wrapIndex_none h hi hk
  rw [setItem, bind_ok hWrap, hCheck]

theorem popItem_some (h : self.Holds items) (hi : SmiRange i) {k : Nat}
    {removed : Value} (hk : pythonIndex items.length i = some k)
    (hItem : items[k]? = some removed) :
    Ends (popItem self i)
      (fun r => ∃ b, r = .ok (removed, b) ∧ b.Holds (items.eraseIdx k))
      Stop := by
  obtain ⟨hWrap, hCheck⟩ := wrapIndex_some h hi hk
  rw [popItem, bind_ok hWrap, hCheck]
  refine (popItemUnchecked_ends h hItem).bind ?_
  rintro ⟨item, b⟩ ⟨rfl, hb⟩
  exact ⟨b, rfl, hb⟩

theorem popItem_none (h : self.Holds items) (hi : SmiRange i)
    (hk : pythonIndex items.length i = none) :
    popItem self i = .ok (.error listIndexError) := by
  obtain ⟨idx, hWrap, hCheck⟩ := wrapIndex_none h hi hk
  rw [popItem, bind_ok hWrap, hCheck]

theorem insertItem_ends (h : self.Holds items) (hi : SmiRange i)
    (value : Value) :
    Ends (insertItem self i value)
      (Holds · (items.insertIdx (pythonInsertionIndex items.length i) value))
      (TooLarge (items.length + 1)) := by
  rw [insertItem, bind_ok (normalizeInsertionIndex_spec h hi)]
  exact insertItemUnchecked_ends h value (pythonInsertionIndex_le _ i)

end Indexed

/-! ## Reversal -/

section Reversal

variable {items : List Value} {Stop : Halt → Prop}

/-- The items outside `left` to `right` have changed places. -/
structure Reversed (items : List Value) (left right : Nat)
    (turned : ValueArray) (current : List Value) : Prop where
  holds : turned.Holds current
  length : current.length = items.length
  sum : left + right = items.length
  inside : ∀ i, left ≤ i → i < right → current[i]? = items[i]?
  outside : ∀ i < items.length, i < left ∨ right ≤ i →
    current[i]? = items[items.length - 1 - i]?

/-- Two items are exchanged. -/
theorem Reversed.turn {left right : Nat} {self : ValueArray}
    {current : List Value} (h : Reversed items left (right + 1) self current)
    (hLess : left < right + 1) :
    ∃ leftValue rightValue, self.get left = .ok leftValue ∧
      self.get right = .ok rightValue ∧
      Ends (self.set left rightValue >>= fun self => self.set right leftValue)
        (fun next => ∃ current, Reversed items (left + 1) right next current)
        Stop := by
  have hSum := h.sum
  have hLength := h.length
  have hLeft : items[left]? = some items[left] :=
    List.getElem?_eq_getElem (by omega)
  have hRight : items[right]? = some items[right] :=
    List.getElem?_eq_getElem (by omega)
  refine ⟨items[left], items[right],
    h.holds.get ((h.inside left (by omega) hLess).trans hLeft),
    h.holds.get ((h.inside right (by omega) (by omega)).trans hRight), ?_⟩
  refine (h.holds.set_ends _ (by omega)).bind fun first hFirst => ?_
  refine (hFirst.set_ends _ (by rw [List.length_set]; omega)).mono ?_
    fun _ he => he
  intro next hNext
  refine ⟨_, hNext, by rw [List.length_set, List.length_set, hLength],
    by omega, ?_, ?_⟩
  · intro i hLow hHigh
    rw [List.getElem?_set_ne (by omega), List.getElem?_set_ne (by omega),
      h.inside i (by omega) (by omega)]
  · intro i hi hOut
    rw [List.getElem?_set, List.getElem?_set, List.length_set, hLength]
    by_cases hAtRight : right = i
    · rw [if_pos hAtRight, if_pos (by omega),
        show items.length - 1 - i = left by omega, hLeft]
    · rw [if_neg hAtRight]
      by_cases hAtLeft : left = i
      · rw [if_pos hAtLeft, if_pos (by omega),
          show items.length - 1 - i = right by omega, hRight]
      · rw [if_neg hAtLeft, h.outside i hi (by omega)]

theorem reverseLoop_ends : ∀ (right left : Nat) {self : ValueArray}
    {current : List Value}, Reversed items left right self current →
    Ends (reverseLoop right left self) (Holds · items.reverse) Stop := by
  have hDone : ∀ {right left : Nat} {self : ValueArray}
      {current : List Value}, Reversed items left right self current →
      right ≤ left → self.Holds items.reverse := by
    intro right left self current h hMet
    have hItems : current = items.reverse := by
      refine List.ext_getElem? fun i => ?_
      by_cases hi : i < items.length
      · rw [List.getElem?_reverse hi, h.outside i hi (by omega)]
      · rw [List.getElem?_eq_none (by rw [h.length]; omega),
          List.getElem?_eq_none (by simp; omega)]
    exact hItems ▸ h.holds
  intro right
  induction right with
  | zero => exact fun left self current h => hDone h (Nat.zero_le _)
  | succ right ih =>
      intro left self current h
      rw [reverseLoop]
      split
      · rename_i hLess
        obtain ⟨leftValue, rightValue, hLeft, hRight, hTurn⟩ := h.turn hLess
        rw [bind_ok hLeft, bind_ok hRight, ← bind_assoc]
        refine hTurn.bind ?_
        rintro next ⟨current, hNext⟩
        exact ih (left + 1) hNext
      · exact hDone h (by omega)

theorem reverse_ends {self : ValueArray} (h : self.Holds items) :
    Ends (reverse self) (Holds · items.reverse) Stop := by
  rw [reverse, h.size]
  refine @reverseLoop_ends _ _ items.length 0 self items
    ⟨h, rfl, Nat.zero_add _, fun _ _ _ => rfl, ?_⟩
  intro i hi hOut
  omega

end Reversal

/-! ## Slices -/

section Slices

variable {self : ValueArray} {items selected : List Value}

/-- The items that Python's slice of a list has. -/
def pythonSlice (items : List Value) (start stop step : Option Int) :
    List Value :=
  (pythonRange start stop step items.length).filterMap fun i =>
    items[i.toNat]?

theorem pythonSlice_of_selected {indices : List Int}
    (h : Selected items indices selected) :
    selected = indices.filterMap fun i => items[i.toNat]? := by
  have hItems := congrArg (List.filterMap id) h.items
  rw [List.filterMap_map, List.filterMap_map] at hItems
  exact (List.filterMap_some).symm.trans hItems

/-- Reading an item of a slice. -/
theorem get_castIndex (h : self.Holds items) {idx : Int} {item : Value}
    (hItem : itemAt items idx = some item) :
    self.get (castIndex idx) = .ok item := by
  obtain ⟨hLow, hItem⟩ := check_bind_eq_some.mp hItem
  have hLess : idx.toNat < items.length :=
    (List.getElem?_eq_some_iff.mp hItem).1
  rw [castIndex_of hLow (hLess.le.trans h.length_le)]
  exact h.get hItem

/-- A turn of `readFrom`. -/
theorem readFrom_succ {start : Int} {count writeIdx : Nat}
    (h : readFrom items start (count + 1) writeIdx = some selected) :
    ∃ idx item rest, int64 (start + writeIdx) = some idx ∧
      itemAt items idx = some item ∧
      readFrom items start count (writeIdx + 1) = some rest ∧
      selected = item :: rest := by
  rw [readFrom] at h
  obtain ⟨idx, hIdx, h⟩ := exists_of_bind h
  obtain ⟨item, hItem, h⟩ := exists_of_bind h
  obtain ⟨rest, hRest, h⟩ := exists_of_bind h
  cases h
  exact ⟨idx, item, rest, hIdx, hItem, hRest, rfl⟩

/-- A turn of `readStrided`. -/
theorem readStrided_succ {step readIdx : Int} {count : Nat}
    (h : readStrided items step (count + 1) readIdx = some selected) :
    ∃ next item rest, itemAt items readIdx = some item ∧
      int64 (readIdx + step) = some next ∧
      readStrided items step count next = some rest ∧
      selected = item :: rest := by
  rw [readStrided] at h
  obtain ⟨item, hItem, h⟩ := exists_of_bind h
  obtain ⟨next, hNext, h⟩ := exists_of_bind h
  obtain ⟨rest, hRest, h⟩ := exists_of_bind h
  cases h
  exact ⟨next, item, rest, hItem, hNext, hRest, rfl⟩

theorem length_readFrom {start : Int} : ∀ (count writeIdx : Nat)
    {selected : List Value},
    readFrom items start count writeIdx = some selected →
    selected.length = count := by
  intro count
  induction count with
  | zero =>
      intro writeIdx selected h
      cases h
      rfl
  | succ count ih =>
      intro writeIdx selected h
      obtain ⟨-, item, rest, -, -, hRest, rfl⟩ := readFrom_succ h
      rw [List.length_cons, ih (writeIdx + 1) hRest]

theorem length_readStrided {step : Int} : ∀ (count : Nat) (readIdx : Int)
    {selected : List Value},
    readStrided items step count readIdx = some selected →
    selected.length = count := by
  intro count
  induction count with
  | zero =>
      intro readIdx selected h
      cases h
      rfl
  | succ count ih =>
      intro readIdx selected h
      obtain ⟨next, item, rest, -, -, hRest, rfl⟩ := readStrided_succ h
      rw [List.length_cons, ih next hRest]

/-- What is left of a list behind an item. -/
theorem drop_eq_cons {xs rest : List Value} {idx : Nat} {item : Value}
    (h : xs.drop idx = item :: rest) :
    xs[idx]? = some item ∧ xs.drop (idx + 1) = rest := by
  constructor
  · rw [← List.head?_drop, h]
    rfl
  · rw [← List.tail_drop, h]
    rfl

theorem getSliceNonstrided_ends (h : self.Holds items)
    {slice : NormalizedNonstridedSlice}
    (hRead : readFrom items slice.start slice.selectedSequenceLength 0 =
      some selected) :
    Ends (getSliceNonstrided self slice) (Holds · selected)
      (TooLarge selected.length) := by
  have hLength := length_readFrom _ _ hRead
  unfold getSliceNonstrided
  rw [← hLength] at hRead ⊢
  refine (make_ends selected).bind fun result hResult => ?_
  refine (@forUp_ends _ _ _ (fun idx filled => Filled selected idx filled ∧
    readFrom items slice.start (selected.length - idx) idx =
      some (selected.drop idx)) _ 0 selected.length ?_ selected.length 0
    result (Nat.le_refl _) (Nat.zero_add _) ⟨hResult, hRead⟩).mono ?_
    fun _ he => he
  · rintro idx filled - hIdx ⟨hFilled, hRest⟩
    rw [show selected.length - idx = selected.length - (idx + 1) + 1 by omega]
      at hRest
    obtain ⟨readIdx, item, rest, hReadIdx, hItem, hRest, hDrop⟩ :=
      readFrom_succ hRest
    obtain ⟨hSelected, hDrop⟩ := drop_eq_cons hDrop
    have hSum : signed (slice.start + idx) = .ok readIdx := by
      rw [signed, hReadIdx]
      rfl
    rw [bind_ok hSum, bind_ok (get_castIndex h hItem)]
    refine (hFilled.set hSelected).mono ?_ fun _ he => he
    intro next hNext
    exact ⟨hNext, hDrop ▸ hRest⟩
  · exact fun last hLast => hLast.1.holds

theorem getSliceGeneral_ends (h : self.Holds items)
    {slice : NormalizedGeneralSlice}
    (hRead : readStrided items slice.step slice.selectedSequenceLength
      slice.start = some selected) :
    Ends (getSliceGeneral self slice) (Holds · selected)
      (TooLarge selected.length) := by
  have hLength := length_readStrided _ _ hRead
  unfold getSliceGeneral
  rw [← hLength] at hRead ⊢
  refine (make_ends selected).bind fun result hResult => ?_
  refine Ends.bind (@forUp_ends _ _ _
    (fun idx (state : ValueArray × Int) => Filled selected idx state.1 ∧
      readStrided items slice.step (selected.length - idx) state.2 =
        some (selected.drop idx)) _ 0 selected.length ?_ selected.length 0
    (result, slice.start) (Nat.le_refl _) (Nat.zero_add _)
    ⟨hResult, hRead⟩) ?_
  · rintro idx ⟨filled, readIdx⟩ - hIdx ⟨hFilled, hRest⟩
    rw [show selected.length - idx = selected.length - (idx + 1) + 1 by omega]
      at hRest
    obtain ⟨nextIdx, item, rest, hItem, hNextIdx, hRest, hDrop⟩ :=
      readStrided_succ hRest
    obtain ⟨hSelected, hDrop⟩ := drop_eq_cons hDrop
    have hSum : signed (readIdx + slice.step) = .ok nextIdx := by
      rw [signed, hNextIdx]
      rfl
    rw [bind_ok (get_castIndex h hItem)]
    refine (hFilled.set hSelected).bind fun next hNext => ?_
    rw [bind_ok hSum]
    exact ⟨hNext, hDrop ▸ hRest⟩
  · exact fun last hLast => hLast.1.holds

/-- The list as a sequence that slices. -/
def sequenceOf (h : self.Holds items) : Sequence Value :=
  ⟨items, by have := h.length_le; rw [← arraySizeMax_eq]; omega⟩

theorem getSlice_of_nonstrided (h : self.Holds items) {slice : Slice}
    (hNone : slice.step.isNone = true)
    (hGet : getitemNonstrided listGetSlice (sequenceOf h) slice =
      some (.ok selected)) :
    Ends (getSlice self slice) (fun r => ∃ b, r = .ok b ∧ b.Holds selected)
      (TooLarge selected.length) := by
  obtain ⟨answer, hNormalize, hRead⟩ := exists_of_bind hGet
  rw [getSlice, if_pos hNone, h.size]
  have hNormal : normalizeNonstridedSliceForLength slice items.length =
      some answer := hNormalize
  rw [hNormal, bind_ok (orUndefined_some answer)]
  cases answer with
  | error e => cases hRead
  | ok normalized =>
      obtain ⟨read, hRead, hAnswer⟩ := exists_of_bind hRead
      cases hAnswer
      have hSlice := getSliceNonstrided_ends h hRead
      exact hSlice.bind fun b hb => ⟨b, rfl, hb⟩

theorem getSlice_of_general (h : self.Holds items) {slice : Slice}
    (hSome : ¬ slice.step.isNone = true)
    (hGet : getitemGeneral listGetSlice (sequenceOf h) slice =
      some (.ok selected)) :
    Ends (getSlice self slice) (fun r => ∃ b, r = .ok b ∧ b.Holds selected)
      (TooLarge selected.length) := by
  obtain ⟨answer, hNormalize, hRead⟩ := exists_of_bind hGet
  rw [getSlice, if_neg hSome, h.size]
  have hNormal : normalizeGeneralSliceForLength slice items.length =
      some answer := hNormalize
  rw [hNormal, bind_ok (orUndefined_some answer)]
  cases answer with
  | error e => cases hRead
  | ok normalized =>
      obtain ⟨read, hRead, hAnswer⟩ := exists_of_bind hRead
      cases hAnswer
      have hSlice := getSliceGeneral_ends h hRead
      exact hSlice.bind fun b hb => ⟨b, rfl, hb⟩

variable {startField stopField stepField : IndexValue}
  {start stop step : Option Int}

/-- A slice of SMIs makes the list that Python's slice is. -/
theorem getSlice_ends (h : self.Holds items)
    (hStart : Integral startField start) (hStop : Integral stopField stop)
    (hStepField : Integral stepField step) (hStep : step ≠ some 0)
    (hFits : FitSmi start stop step) :
    Ends (getSlice self (makeSlice startField stopField stepField))
      (fun r => ∃ b, r = .ok b ∧ b.Holds (pythonSlice items start stop step))
      (TooLarge (pythonSlice items start stop step).length) := by
  by_cases hNone : step = none
  · subst hNone
    obtain ⟨selected, hGet, hSelected⟩ := getitemNonstrided_selects
      (sequenceOf h) stepField listGetSlice_reads hStart hStop hFits
    have hItems : selected = pythonSlice items start stop none :=
      pythonSlice_of_selected hSelected
    subst hItems
    exact getSlice_of_nonstrided h (hStepField.isNone_iff.mpr rfl) hGet
  · obtain ⟨selected, hGet, hSelected⟩ := getitemGeneral_selects
      (sequenceOf h) listGetSlice_reads hStart hStop hStepField hStep hFits
    have hItems : selected = pythonSlice items start stop step :=
      pythonSlice_of_selected hSelected
    subst hItems
    exact getSlice_of_general h (mt hStepField.isNone_iff.mp hNone) hGet

/-- A step of zero is refused. -/
theorem getSlice_zero (self : ValueArray) (startField stopField : IndexValue)
    (hStepField : Integral stepField (some 0)) :
    getSlice self (makeSlice startField stopField stepField) =
      .ok (.error sliceStepZeroError) := by
  have hSome : ¬ (makeSlice startField stopField stepField).step.isNone =
      true := mt hStepField.isNone_iff.mp nofun
  have hStep : normalizeStep stepField = some (.error sliceStepZeroError) := by
    rw [normalizeStep, if_neg (mt hStepField.isNone_iff.mp nofun),
      sliceFieldToSmi_spec hStepField, if_pos (by decide)]
    rfl
  rw [getSlice, if_neg hSome, normalizeGeneralSliceForLength,
    show (makeSlice startField stopField stepField).step = stepField from rfl,
    hStep]
  rfl

end Slices

end CloverVM.BuiltinTypes.ListObject
