import CloverVM.Machine.CountedLoop
import CloverVM.ObjectModel.Value

/-!
# Growable arrays of values

`ValueArray<Value>` of `object_model/vm_array.h`: a size and a capacity, both
kept as SMIs, and a backing object with the cells, or no backing at all.  The
functions compute as the source does, cell by cell; an access outside the
array is undefined and a size past the SMI range ends the process.  Reference
counts are left out: they do not change what the cells hold.

`Holds` says that an array is well formed and which values it holds; every
function is specified by the values before and after it.
-/

namespace CloverVM.ObjectModel

open CloverVM.Machine

/-- `size_value`, `capacity_value` and the cells of `backing`. -/
structure ValueArray where
  size : Nat
  capacity : Nat
  backing : Option (List Value)
deriving DecidableEq, Repr

/-- The greatest size, `value_smi_max` as a `size_t`. -/
def arraySizeMax : Nat := 2 ^ 58 - 1

theorem arraySizeMax_eq : (arraySizeMax : Int) = valueSmiMax := by decide

def arraySizeError : Halt := .fatal "VM array size exceeds SMI range"

def cellCountError : Halt :=
  .fatal "VM value array backing cell count exceeds SMI range"

/-- `detail::checked_array_size` -/
def checkedArraySize (size : Nat) : Except Halt Nat :=
  if arraySizeMax < size then .error arraySizeError else .ok size

/-- `detail::grown_capacity` -/
def grownCapacity (currentCapacity minimumCapacity : Nat) :
    Except Halt Nat :=
  let grown :=
    if currentCapacity = 0 then 1
    else if arraySizeMax / 2 < currentCapacity then arraySizeMax
    else currentCapacity * 2
  checkedArraySize (if grown < minimumCapacity then minimumCapacity else grown)

/-- `value_cell_count_for_capacity`, of elements of one cell. -/
def valueCellCountForCapacity (capacity : Nat) : Except Halt Nat :=
  if arraySizeMax < capacity then .error cellCountError else .ok capacity

namespace ValueArray

def readCell (cells : List Value) (idx : Nat) : Except Halt Value :=
  match cells[idx]? with
  | some value => .ok value
  | none => .error .undefined

def writeCell (cells : List Value) (idx : Nat) (value : Value) :
    Except Halt (List Value) := do
  demand (idx < cells.length)
  .ok (cells.set idx value)

/-- `storage_data()`, which is no pointer to cells without a backing. -/
def storageData (a : ValueArray) : Except Halt (List Value) :=
  match a.backing with
  | some cells => .ok cells
  | none => .error .undefined

/-- `operator[]` -/
def get (a : ValueArray) (idx : Nat) : Except Halt Value := do
  demand (idx < a.size)
  let cells ← a.storageData
  readCell cells idx

/-- `std::construct_at` -/
def constructAt (a : ValueArray) (idx : Nat) (value : Value) :
    Except Halt ValueArray := do
  let cells ← a.storageData
  let cells ← writeCell cells idx value
  .ok { a with backing := some cells }

/-- `clear_element` -/
def clearElement (a : ValueArray) (idx : Nat) : Except Halt ValueArray :=
  a.constructAt idx (Value.fromSmi 0)

/-- The default constructor. -/
def empty : ValueArray := ⟨0, 0, none⟩

def clearElements (a : ValueArray) (startIdx endIdx : Nat) :
    Except Halt ValueArray :=
  if a.backing.isNone then .ok a
  else forUp (fun idx a => a.clearElement idx) (endIdx - startIdx) startIdx a

def clear (a : ValueArray) : Except Halt ValueArray := do
  let a ← a.clearElements 0 a.size
  .ok { a with size := 0 }

def reserve (a : ValueArray) (newCapacity : Nat) : Except Halt ValueArray := do
  let requestedCapacity ← checkedArraySize newCapacity
  if requestedCapacity ≤ a.capacity then .ok a
  else do
    let cellCount ← valueCellCountForCapacity requestedCapacity
    -- the new backing is zeroed, and a zero word is the SMI 0
    let cells ← forUp
      (fun idx cells => do
        let value ← a.get idx
        writeCell cells idx value)
      a.size 0 (List.replicate cellCount (Value.fromSmi 0))
    .ok { a with capacity := requestedCapacity, backing := some cells }

def resize (a : ValueArray) (newSize : Nat) (value : Value) :
    Except Halt ValueArray := do
  let requestedSize ← checkedArraySize newSize
  if requestedSize < a.size then do
    let a ← a.clearElements requestedSize a.size
    .ok { a with size := requestedSize }
  else do
    let currentSize := a.size
    let a ← a.reserve requestedSize
    let a ← forUp (fun idx a => a.constructAt idx value)
      (requestedSize - currentSize) currentSize a
    .ok { a with size := requestedSize }

def set (a : ValueArray) (idx : Nat) (value : Value) :
    Except Halt ValueArray := do
  demand (idx < a.size)
  let a ← a.clearElement idx
  a.constructAt idx value

/-- `emplace_back` of one value. -/
def pushBack (a : ValueArray) (value : Value) : Except Halt ValueArray := do
  let currentSize := a.size
  let a ← (if currentSize = a.capacity then
      grownCapacity a.capacity (currentSize + 1) >>= a.reserve
    else .ok a)
  let a ← a.constructAt currentSize value
  .ok { a with size := currentSize + 1 }

/-- The cells of the backing. -/
def cells (a : ValueArray) : List Value := a.backing.getD []

/-- The array is well formed, and its items are these. -/
structure Holds (a : ValueArray) (items : List Value) : Prop where
  size : a.size = items.length
  capacity : a.capacity = a.cells.length
  capacity_le : a.capacity ≤ arraySizeMax
  item : ∀ idx < items.length, a.cells[idx]? = items[idx]?

theorem Holds.length_le_cells {a : ValueArray} {items : List Value}
    (h : a.Holds items) : items.length ≤ a.cells.length := by
  cases hLength : items.length with
  | zero => exact Nat.zero_le _
  | succ n =>
      have hItem := h.item n (by omega)
      rw [List.getElem?_eq_getElem (show n < items.length by omega)] at hItem
      exact (List.getElem?_eq_some_iff.mp hItem).1

theorem Holds.length_le {a : ValueArray} {items : List Value}
    (h : a.Holds items) : items.length ≤ arraySizeMax := by
  have hCells := h.length_le_cells
  have hCapacity := h.capacity
  have hLe := h.capacity_le
  omega

theorem holds_empty : empty.Holds [] :=
  ⟨rfl, rfl, Nat.zero_le _, nofun⟩

/-- An array with cells has a backing. -/
theorem storageData_eq {a : ValueArray} {idx : Nat}
    (h : idx < a.cells.length) :
    a.storageData = .ok a.cells ∧ a.backing = some a.cells := by
  cases hBacking : a.backing with
  | none =>
      rw [cells, hBacking] at h
      exact absurd h (Nat.not_lt_zero _)
  | some cells =>
      have hCells : a.cells = cells := by rw [ValueArray.cells, hBacking]; rfl
      rw [hCells]
      refine ⟨?_, rfl⟩
      rw [storageData, hBacking]

/-- Reading below the size. -/
theorem Holds.get {a : ValueArray} {items : List Value} (h : a.Holds items)
    {idx : Nat} {value : Value} (hItem : items[idx]? = some value) :
    a.get idx = .ok value := by
  have hIdx : idx < items.length := (List.getElem?_eq_some_iff.mp hItem).1
  have hCell : idx < a.cells.length := hIdx.trans_le h.length_le_cells
  have hSize : idx < a.size := h.size ▸ hIdx
  rw [ValueArray.get, bind_ok (demand_of hSize),
    bind_ok (storageData_eq hCell).1, readCell, h.item idx hIdx, hItem]

/-- The cells after a write inside the backing. -/
theorem constructAt_eq {a : ValueArray} {idx : Nat} (value : Value)
    (h : idx < a.cells.length) :
    a.constructAt idx value =
      .ok { a with backing := some (a.cells.set idx value) } := by
  rw [constructAt, bind_ok (storageData_eq h).1, writeCell,
    bind_ok (demand_of h)]
  rfl

/-! ## Writes -/

/-- The array with another size. -/
def resized (a : ValueArray) (size : Nat) : ValueArray := { a with size }

@[simp] theorem cells_resized (a : ValueArray) (size : Nat) :
    (a.resized size).cells = a.cells := rfl

/-- The array with a cell written. -/
def written (a : ValueArray) (idx : Nat) (value : Value) : ValueArray :=
  { a with backing := some (a.cells.set idx value) }

@[simp] theorem cells_written (a : ValueArray) (idx : Nat) (value : Value) :
    (a.written idx value).cells = a.cells.set idx value := rfl

section Writes

variable {a : ValueArray} {items : List Value}

theorem Holds.take (h : a.Holds items) {size : Nat}
    (hSize : size ≤ items.length) :
    (a.resized size).Holds (items.take size) where
  size := by rw [List.length_take_of_le hSize]; rfl
  capacity := h.capacity
  capacity_le := h.capacity_le
  item := by
    intro idx hIdx
    rw [List.length_take_of_le hSize] at hIdx
    rw [cells_resized, h.item idx (by omega), List.getElem?_take_of_lt hIdx]

/-- A write below the size. -/
theorem Holds.written_item (h : a.Holds items) (idx : Nat) (value : Value) :
    (a.written idx value).Holds (items.set idx value) where
  size := by rw [List.length_set]; exact h.size
  capacity := by rw [cells_written, List.length_set]; exact h.capacity
  capacity_le := h.capacity_le
  item := by
    intro i hi
    rw [List.length_set] at hi
    have hCells := h.length_le_cells
    rw [cells_written, List.getElem?_set, List.getElem?_set, h.item i hi]
    by_cases hSame : idx = i
    · rw [if_pos hSame, if_pos hSame, if_pos (by omega), if_pos (by omega)]
    · rw [if_neg hSame, if_neg hSame]

/-- A write past the items. -/
theorem Holds.written_past (h : a.Holds items) {idx : Nat} (value : Value)
    (hIdx : items.length ≤ idx) : (a.written idx value).Holds items := by
  have hWritten := h.written_item idx value
  rwa [List.set_eq_of_length_le hIdx] at hWritten

/-- A write just past the items, with the size that takes it in. -/
theorem Holds.written_end (h : a.Holds items) (value : Value)
    (hRoom : items.length < a.cells.length) :
    ((a.written items.length value).resized (items.length + 1)).Holds
      (items ++ [value]) where
  size := by rw [List.length_append]; rfl
  capacity := by
    rw [cells_resized, cells_written, List.length_set]
    exact h.capacity
  capacity_le := h.capacity_le
  item := by
    intro idx hIdx
    rw [List.length_append, List.length_singleton] at hIdx
    rw [cells_resized, cells_written, List.getElem?_set]
    by_cases hSame : items.length = idx
    · subst hSame
      rw [if_pos rfl, if_pos hRoom, List.getElem?_concat_length]
    · rw [if_neg hSame, h.item idx (by omega),
        List.getElem?_append_left (by omega)]

end Writes

/-! ## What the operations do -/

/-- The process is ended because a size is past the SMI range. -/
def TooLarge (size : Nat) (reason : Halt) : Prop :=
  reason = arraySizeError ∧ arraySizeMax < size

theorem checkedArraySize_of_le {size : Nat} (h : size ≤ arraySizeMax) :
    checkedArraySize size = .ok size := if_neg (by omega)

theorem checkedArraySize_ends (size : Nat) :
    Ends (checkedArraySize size) (fun n => n = size ∧ size ≤ arraySizeMax)
      (TooLarge size) := by
  unfold checkedArraySize
  split
  · rename_i hLarge
    exact ⟨rfl, hLarge⟩
  · rename_i hSmall
    exact ⟨rfl, by omega⟩

/-- The grown capacity has room for what is asked for. -/
theorem grownCapacity_ends {current minimum : Nat}
    (h : current ≤ arraySizeMax) :
    Ends (grownCapacity current minimum)
      (fun n => minimum ≤ n ∧ n ≤ arraySizeMax) (TooLarge minimum) := by
  unfold grownCapacity
  have hGrown : (if current = 0 then 1
      else if arraySizeMax / 2 < current then arraySizeMax
      else current * 2) ≤ arraySizeMax := by
    unfold arraySizeMax
    split_ifs <;> omega
  generalize (if current = 0 then 1
    else if arraySizeMax / 2 < current then arraySizeMax
    else current * 2) = grown at hGrown
  refine (checkedArraySize_ends _).mono ?_ ?_
  · rintro n ⟨rfl, hSmall⟩
    refine ⟨?_, hSmall⟩
    split <;> omega
  · rintro e ⟨rfl, hLarge⟩
    refine ⟨rfl, ?_⟩
    split at hLarge <;> omega

section Operations

variable {a : ValueArray} {items : List Value} {Stop : Halt → Prop}

theorem constructAt_ends {idx : Nat} (value : Value)
    (h : idx < a.cells.length) :
    Ends (a.constructAt idx value) (· = a.written idx value) Stop :=
  .of_eq (constructAt_eq value h) rfl

theorem Holds.set_ends (h : a.Holds items) {idx : Nat} (value : Value)
    (hIdx : idx < items.length) :
    Ends (a.set idx value) (Holds · (items.set idx value)) Stop := by
  have hCell : idx < a.cells.length := hIdx.trans_le h.length_le_cells
  have hSize : idx < a.size := h.size ▸ hIdx
  rw [ValueArray.set, bind_ok (demand_of hSize), clearElement]
  refine (constructAt_ends _ hCell).bind ?_
  rintro cleared rfl
  refine (constructAt_ends value (by simpa using hCell)).mono ?_ fun _ h => h
  rintro b rfl
  have hWritten :=
    (h.written_item idx (Value.fromSmi 0)).written_item idx value
  rwa [List.set_set] at hWritten

theorem Holds.clearElements_ends (h : a.Holds items) {startIdx : Nat}
    (hStart : startIdx ≤ items.length) :
    Ends (a.clearElements startIdx items.length)
      (fun b => (b.resized startIdx).Holds (items.take startIdx)) Stop := by
  unfold clearElements
  split
  · exact h.take hStart
  · have hLoop := @forUp_ends _ _ (fun idx a => a.clearElement idx)
      (fun _ b => (b.resized startIdx).Holds (items.take startIdx) ∧
        items.length ≤ b.cells.length) Stop startIdx items.length ?_
      (items.length - startIdx) startIdx a (Nat.le_refl _) (by omega)
      ⟨h.take hStart, h.length_le_cells⟩
    · exact hLoop.mono (fun _ hb => hb.1) fun _ he => he
    · rintro idx b hFirst hIdx ⟨hHolds, hCells⟩
      refine (constructAt_ends _ (by omega)).mono ?_ fun _ he => he
      rintro c rfl
      refine ⟨?_, by simpa using hCells⟩
      refine @Holds.written_past (b.resized startIdx) _ hHolds idx _ ?_
      rw [List.length_take_of_le hStart]
      exact hFirst

theorem Holds.clear_ends (h : a.Holds items) :
    Ends a.clear (Holds · []) Stop := by
  rw [ValueArray.clear, h.size]
  refine (h.clearElements_ends (Nat.zero_le _)).bind fun b hb => ?_
  rwa [List.take_zero] at hb

/-- A backing that is large enough. -/
theorem Holds.reserve_ends (h : a.Holds items) (capacity : Nat) :
    Ends (a.reserve capacity)
      (fun b => b.Holds items ∧ capacity ≤ b.capacity)
      (TooLarge capacity) := by
  unfold reserve
  refine (checkedArraySize_ends capacity).bind ?_
  rintro requested ⟨rfl, hSmall⟩
  split
  · rename_i hRoom
    exact ⟨h, hRoom⟩
  · rename_i hGrow
    have hLength : items.length ≤ requested := by
      have hCells := h.length_le_cells
      have hCapacity := h.capacity
      omega
    rw [valueCellCountForCapacity, if_neg (by omega), bind_ok rfl]
    refine Ends.bind (@forUp_ends _ _ _ (fun idx (cells : List Value) =>
        cells.length = requested ∧ ∀ i < idx, cells[i]? = items[i]?) _
        0 items.length ?_ a.size 0 _ (Nat.le_refl _) ?_ ?_) ?_
    · rintro idx cells - hIdx ⟨hLen, hCopied⟩
      have hItem := List.getElem?_eq_getElem hIdx
      rw [bind_ok (h.get hItem), writeCell, bind_ok (demand_of (by omega))]
      refine ⟨by rw [List.length_set, hLen], fun i hi => ?_⟩
      rw [List.getElem?_set]
      by_cases hSame : idx = i
      · subst hSame
        rw [if_pos rfl, if_pos (by omega), hItem]
      · rw [if_neg hSame, hCopied i (by omega)]
    · rw [h.size, Nat.zero_add]
    · exact ⟨List.length_replicate, nofun⟩
    · rintro cells ⟨hLen, hCopied⟩
      exact ⟨⟨h.size, hLen.symm, hSmall, hCopied⟩, Nat.le_refl _⟩

theorem Holds.resize_shrink_ends (h : a.Holds items) {size : Nat}
    (value : Value) (hSize : size < items.length) :
    Ends (a.resize size value) (Holds · (items.take size)) Stop := by
  have hSmall : size ≤ arraySizeMax := hSize.le.trans h.length_le
  rw [resize, bind_ok (checkedArraySize_of_le hSmall), h.size, if_pos hSize]
  exact (h.clearElements_ends hSize.le).bind fun b hb => hb

theorem Holds.resize_grow_ends (h : a.Holds items) {size : Nat}
    (value : Value) (hSize : items.length ≤ size) :
    Ends (a.resize size value)
      (Holds · (items ++ List.replicate (size - items.length) value))
      (TooLarge size) := by
  unfold resize
  refine (checkedArraySize_ends size).bind ?_
  rintro requested ⟨rfl, hSmall⟩
  rw [h.size, if_neg (by omega)]
  refine (h.reserve_ends requested).bind ?_
  rintro b ⟨hb, hRoom⟩
  refine Ends.bind (@forUp_ends _ _ _ (fun idx (c : ValueArray) =>
      (c.resized idx).Holds
          (items ++ List.replicate (idx - items.length) value) ∧
        requested ≤ c.cells.length) _ items.length requested ?_
      (requested - items.length) items.length b (Nat.le_refl _) (by omega) ?_)
    fun c hc => hc.1
  · rintro idx c hFirst hIdx ⟨hc, hCells⟩
    have hLength : (items ++
        List.replicate (idx - items.length) value).length = idx := by
      rw [List.length_append, List.length_replicate]
      omega
    refine (constructAt_ends _ (by omega)).mono ?_ fun _ he => he
    rintro d rfl
    refine ⟨?_, by simpa using hCells⟩
    have hEnd := hc.written_end value (by
      rw [hLength]
      exact hIdx.trans_le hCells)
    rw [hLength, List.append_assoc, ← List.replicate_succ'] at hEnd
    rwa [show idx + 1 - items.length = idx - items.length + 1 by omega]
  · refine ⟨?_, hb.capacity ▸ hRoom⟩
    rw [Nat.sub_self, List.replicate_zero, List.append_nil]
    have hTake := hb.take (Nat.le_refl _)
    rwa [List.take_length] at hTake

theorem Holds.pushBack_ends (h : a.Holds items) (value : Value) :
    Ends (a.pushBack value) (Holds · (items ++ [value]))
      (TooLarge (items.length + 1)) := by
  unfold pushBack
  rw [h.size]
  have hRoom : Ends
      (if items.length = a.capacity then
          grownCapacity a.capacity (items.length + 1) >>= a.reserve
        else .ok a)
      (fun b => b.Holds items ∧ items.length < b.capacity)
      (TooLarge (items.length + 1)) := by
    split
    · refine (grownCapacity_ends h.capacity_le).bind ?_
      rintro capacity ⟨hMinimum, hSmall⟩
      refine (h.reserve_ends capacity).mono ?_ ?_
      · rintro b ⟨hb, hCapacity⟩
        exact ⟨hb, by omega⟩
      · rintro e ⟨-, hLarge⟩
        omega
    · have hCells := h.length_le_cells
      have hCapacity := h.capacity
      exact ⟨h, by omega⟩
  refine hRoom.bind ?_
  rintro b ⟨hb, hLess⟩
  have hCell : items.length < b.cells.length := hb.capacity ▸ hLess
  rw [bind_ok (constructAt_eq value hCell)]
  exact hb.written_end value hCell

end Operations

end ValueArray

end CloverVM.ObjectModel
