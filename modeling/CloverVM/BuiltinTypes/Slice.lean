import CloverVM.BuiltinTypes.IndexValue

/-!
# Slices of sequences

The slice objects of `builtin_types/slice.h` and the slicing of strings, bytes
and lists.  A slice keeps its three fields as they were given and has one of
two shapes, which tell whether its step is `None`.  A sequence that is sliced
normalizes the fields against its length, and then copies what is selected: a
contiguous span for the one shape, every `step`-th item for the other.

A function that computes with 64-bit integers or reads an item is an `Option`,
with `none` where it overflows or reads out of bounds; a Python exception is
the error of an `Except`.
-/

namespace CloverVM.BuiltinTypes.Slice

open CloverVM.Machine CloverVM.ObjectModel CloverVM.Runtime
open CloverVM.BuiltinTypes.BigInt

/-- The exception of a field that is no integer. -/
def sliceIndexTypeError : BuiltinException :=
  { typeName := "TypeError"
    message := "slice indices must be integers or None or have an " ++
      "__index__ method" }

def sliceStepZeroError : BuiltinException :=
  { typeName := "ValueError", message := "slice step cannot be zero" }

def sliceFieldToSmi (field : IndexValue) :
    Option (Except BuiltinException Int) :=
  requireSmi sliceIndexTypeError field

/-- `slice_step_none_shape` and `slice_general_shape`. -/
inductive SliceShape where
  | stepNone
  | general
deriving DecidableEq, Repr

structure Slice where
  shape : SliceShape
  start : IndexValue
  stop : IndexValue
  step : IndexValue
deriving DecidableEq

/-- `make_slice`, which all slices come from. -/
def makeSlice (start stop step : IndexValue) : Slice :=
  ⟨if step.isNone then .stepNone else .general, start, stop, step⟩

/-! ## Normalization -/

def normalizeSliceField (index sequenceLength lower upper : Int) :
    Option Int := do
  let index ← if index < 0 then int64 (index + sequenceLength) else some index
  some (if index < lower then lower else if index > upper then upper
    else index)

/-- A field that may be `None`, with the bound that `None` stands for. -/
def normalizeFieldOr (field : IndexValue) (default sequenceLength lower upper : Int) :
    Option (Except BuiltinException Int) :=
  if field.isNone then some (.ok default)
  else do
    match ← sliceFieldToSmi field with
    | .error e => some (.error e)
    | .ok index =>
        let bound ← normalizeSliceField index sequenceLength lower upper
        some (.ok bound)

def selectedSequenceLengthForGeneralSlice (start stop step : Int) :
    Option Nat :=
  if step < 0 then
    if stop < start then do
      let difference ← int64 (start - stop)
      let difference ← int64 (difference - 1)
      let stride ← int64 (-step)
      let count ← int64 (difference.tdiv stride + 1)
      some count.toNat
    else some 0
  else
    if start < stop then do
      let difference ← int64 (stop - start)
      let difference ← int64 (difference - 1)
      let count ← int64 (difference.tdiv step + 1)
      some count.toNat
    else some 0

structure NormalizedNonstridedSlice where
  start : Int
  selectedSequenceLength : Nat
deriving DecidableEq, Repr

structure NormalizedGeneralSlice where
  start : Int
  stop : Int
  step : Int
  selectedSequenceLength : Nat
deriving DecidableEq, Repr

def normalizeNonstridedSliceForLength (slice : Slice) (sequenceLength : Int) :
    Option (Except BuiltinException NormalizedNonstridedSlice) := do
  match ← normalizeFieldOr slice.start 0 sequenceLength 0 sequenceLength with
  | .error e => some (.error e)
  | .ok start =>
      match ← normalizeFieldOr slice.stop sequenceLength sequenceLength 0
          sequenceLength with
      | .error e => some (.error e)
      | .ok stop =>
          if start < stop then do
            let length ← int64 (stop - start)
            some (.ok ⟨start, length.toNat⟩)
          else some (.ok ⟨start, 0⟩)

/-- The step of a slice: one for `None`. -/
def normalizeStep (step : IndexValue) : Option (Except BuiltinException Int) :=
  if step.isNone then some (.ok 1)
  else do
    match ← sliceFieldToSmi step with
    | .error e => some (.error e)
    | .ok step =>
        some (if step = 0 then .error sliceStepZeroError else .ok step)

def normalizeGeneralSliceForLength (slice : Slice) (sequenceLength : Int) :
    Option (Except BuiltinException NormalizedGeneralSlice) := do
  match ← normalizeStep slice.step with
  | .error e => some (.error e)
  | .ok step =>
      let last ← int64 (sequenceLength - 1)
      let lower := if step < 0 then -1 else 0
      let upper := if step < 0 then last else sequenceLength
      match ← normalizeFieldOr slice.start (if step < 0 then last else 0)
          sequenceLength lower upper with
      | .error e => some (.error e)
      | .ok start =>
          match ← normalizeFieldOr slice.stop
              (if step < 0 then -1 else sequenceLength) sequenceLength lower
              upper with
          | .error e => some (.error e)
          | .ok stop =>
              let length ←
                selectedSequenceLengthForGeneralSlice start stop step
              some (.ok ⟨start, stop, step, length⟩)

/-! ## Sequences -/

/-- The items of a string, of bytes or of a list; their count is an SMI. -/
structure Sequence (α : Type) where
  items : List α
  count_smi : (items.length : Int) ≤ valueSmiMax

section Reading

variable {α : Type}

/-- `data[static_cast<size_t>(idx)]`. -/
def itemAt (items : List α) (idx : Int) : Option α := do
  check (0 ≤ idx)
  items[idx.toNat]?

/-- A view of `length` items from `start` on. -/
def readSpan (items : List α) (start : Int) (length : Nat) :
    Option (List α) := do
  check (0 ≤ start ∧ start + length ≤ items.length)
  some ((items.drop start.toNat).take length)

/-- The loop that reads `start + write_idx`, for `count` more rounds. -/
def readFrom (items : List α) (start : Int) :
    Nat → Nat → Option (List α)
  | 0, _ => some []
  | count + 1, writeIdx => do
      let idx ← int64 (start + writeIdx)
      let item ← itemAt items idx
      let rest ← readFrom items start count (writeIdx + 1)
      some (item :: rest)

/-- The loop that steps `read_idx`, for `count` more rounds. -/
def readStrided (items : List α) (step : Int) : Nat → Int → Option (List α)
  | 0, _ => some []
  | count + 1, readIdx => do
      let item ← itemAt items readIdx
      let readIdx ← int64 (readIdx + step)
      let rest ← readStrided items step count readIdx
      some (item :: rest)

/-- The two `get_slice` functions of a sequence type. -/
structure SliceReaders (α : Type) where
  nonstrided : Sequence α → NormalizedNonstridedSlice → Option (List α)
  general : Sequence α → NormalizedGeneralSlice → Option (List α)

/-- `String::get_slice`. -/
def stringGetSlice : SliceReaders α where
  nonstrided := fun self slice =>
    readSpan self.items slice.start slice.selectedSequenceLength
  general := fun self slice =>
    readStrided self.items slice.step slice.selectedSequenceLength slice.start

/-- `Bytes::get_slice`. -/
def bytesGetSlice : SliceReaders α where
  nonstrided := fun self slice =>
    readSpan self.items slice.start slice.selectedSequenceLength
  general := fun self slice =>
    readStrided self.items slice.step slice.selectedSequenceLength slice.start

/-- `List::get_slice`. -/
def listGetSlice : SliceReaders α where
  nonstrided := fun self slice =>
    readFrom self.items slice.start slice.selectedSequenceLength 0
  general := fun self slice =>
    readStrided self.items slice.step slice.selectedSequenceLength slice.start

/-- A subscript by a slice without a step. -/
def getitemNonstrided (readers : SliceReaders α) (self : Sequence α)
    (slice : Slice) : Option (Except BuiltinException (List α)) := do
  match ← normalizeNonstridedSliceForLength slice self.items.length with
  | .error e => some (.error e)
  | .ok normalized =>
      let selected ← readers.nonstrided self normalized
      some (.ok selected)

/-- A subscript by any slice. -/
def getitemGeneral (readers : SliceReaders α) (self : Sequence α)
    (slice : Slice) : Option (Except BuiltinException (List α)) := do
  match ← normalizeGeneralSliceForLength slice self.items.length with
  | .error e => some (.error e)
  | .ok normalized =>
      let selected ← readers.general self normalized
      some (.ok selected)

/-- `native_str_getitem`, `native_bytes_getitem` and `native_list_getitem` on
a slice. -/
def nativeGetitem (readers : SliceReaders α) (self : Sequence α)
    (slice : Slice) : Option (Except BuiltinException (List α)) :=
  if slice.step.isNone then getitemNonstrided readers self slice
  else getitemGeneral readers self slice

/-- The trusted handler that the subscript resolvers pick for a slice. -/
def trustedGetitem (readers : SliceReaders α) (self : Sequence α)
    (slice : Slice) : Option (Except BuiltinException (List α)) :=
  match slice.shape with
  | .stepNone => getitemNonstrided readers self slice
  | .general => getitemGeneral readers self slice

end Reading

end CloverVM.BuiltinTypes.Slice
