import CloverVM.BuiltinTypes.Slice
import CloverVM.Collections.Occurrences

/-!
# Searching strings and bytes

The `find`, `rfind`, `index`, `rindex`, `count`, `startswith` and `endswith`
of strings and of bytes.  Each takes optional bounds, normalizes them to a
range of the receiver and searches that range; strings go through the searches
of a string view, bytes through the iterator algorithms and a loop of their
own.

The searches of the standard library are the searches of `Occurrences`.  A
function is an `Option`, with `none` where an index or a difference of sizes
is out of range.
-/

namespace CloverVM.BuiltinTypes.SubstringSearch

open CloverVM.Machine CloverVM.Runtime CloverVM.BuiltinTypes.Slice
open CloverVM.Collections.Occurrences

/-- The exception of a bound that is no integer. -/
def boundTypeError : BuiltinException :=
  { typeName := "TypeError", message := "slice indices must be integers" }

/-- `normalize_string_bound` and `normalize_bytes_bound`. -/
def normalizeBound (value length : Int) : Option Nat := do
  let value ← if value < 0 then int64 (value + length) else some value
  some (if value < 0 then 0
    else if value > length then length.toNat
    else value.toNat)

/-- A bound that may be `None`, as a small integer. -/
def boundOr (bound : IndexValue) (default : Int) :
    Option (Except BuiltinException Int) :=
  if bound.isNone then some (.ok default) else requireSmi boundTypeError bound

/-- `normalize_string_range` and `normalize_bytes_range`: the start and the
end. -/
def normalizeRange (length : Int) (startValue endValue : IndexValue) :
    Option (Except BuiltinException (Nat × Nat)) := do
  match ← boundOr startValue 0 with
  | .error e => some (.error e)
  | .ok pyStart =>
      match ← boundOr endValue length with
      | .error e => some (.error e)
      | .ok pyEnd =>
          let start ← normalizeBound pyStart length
          let stop ← normalizeBound pyEnd length
          some (.ok (start, if stop < start then start else stop))

section Searches

variable {α : Type} [DecidableEq α]

/-- A difference of sizes. -/
def sizeSub (a b : Nat) : Option Nat := do
  check (b ≤ a)
  some (a - b)

/-- `std::wstring_view::substr`. -/
def substr (view : List α) (pos count : Nat) : Option (List α) := do
  check (pos ≤ view.length)
  some ((view.drop pos).take count)

/-- `str.substr(start, end - start)`. -/
def stringRange (self : List α) (start stop : Nat) : Option (List α) := do
  let count ← sizeSub stop start
  substr self start count

/-- `String::startswith`. -/
def stringStartswith (self pre : List α) (start stop : Nat) : Option Bool := do
  let range ← stringRange self start stop
  if range.length ≥ pre.length then do
    let front ← substr range 0 pre.length
    some (front = pre)
  else some false

/-- `String::endswith`. -/
def stringEndswith (self suffix : List α) (start stop : Nat) :
    Option Bool := do
  let range ← stringRange self start stop
  if range.length ≥ suffix.length then do
    let pos ← sizeSub range.length suffix.length
    let back ← substr range pos range.length
    some (back = suffix)
  else some false

/-- `String::find`. -/
def stringFind (self needle : List α) (start stop : Nat) : Option Int := do
  let range ← stringRange self start stop
  match findFrom needle range 0 with
  | none => some (-1)
  | some found => some ((start + found : Nat) : Int)

/-- `String::rfind`; the search starts at the end of the view. -/
def stringRfind (self needle : List α) (start stop : Nat) : Option Int := do
  let range ← stringRange self start stop
  match findBackTo needle range range.length with
  | none => some (-1)
  | some found => some ((start + found : Nat) : Int)

/-- The loop of `String::count_substring`. -/
def stringCountLoop (range needle : List α) (hNeedle : needle ≠ [])
    (pos : Nat) (result : Int) : Int :=
  if pos ≤ range.length then
    match h : findFrom needle range pos with
    | none => result
    | some found =>
        have := findFrom_advances hNeedle h
        stringCountLoop range needle hNeedle (found + needle.length)
          (result + 1)
  else result
  termination_by range.length + 1 - pos

/-- `String::count_substring`. -/
def stringCount (self needle : List α) (start stop : Nat) : Option Int := do
  let range ← stringRange self start stop
  if hNeedle : needle = [] then some ((range.length + 1 : Nat) : Int)
  else some (stringCountLoop range needle hNeedle 0 0)

/-! ## Bytes -/

/-- `str.subspan(start, end - start)`. -/
def bytesRange (self : List α) (start stop : Nat) : Option (List α) := do
  let count ← sizeSub stop start
  check (start ≤ self.length ∧ count ≤ self.length - start)
  some ((self.drop start).take count)

/-- `std::equal` against the items of a range from `pos` on. -/
def stdEqual (needle range : List α) (pos : Nat) : Option Bool := do
  check (pos + needle.length ≤ range.length)
  some ((range.drop pos).take needle.length = needle)

/-- `std::search` from `pos` on; the end of the range when there is none. -/
def stdSearch (range needle : List α) (pos : Nat) : Nat :=
  (findFrom needle range pos).getD range.length

/-- For a needle that is not empty the end of the range is no result. -/
theorem stdSearch_eq_iff (range : List α) {needle : List α}
    (hNeedle : needle ≠ []) (pos : Nat) :
    (stdSearch range needle pos = range.length ↔
      findFrom needle range pos = none) ∧
    (stdSearch range needle pos ≠ range.length →
      findFrom needle range pos = some (stdSearch range needle pos)) := by
  unfold stdSearch
  cases hFind : findFrom needle range pos with
  | none => exact ⟨iff_of_true rfl rfl, fun h => absurd rfl h⟩
  | some found =>
      have hEnd := (findFrom_mem hFind).2.1
      have hLength := List.length_pos_of_ne_nil hNeedle
      refine ⟨iff_of_false ?_ nofun, fun _ => rfl⟩
      show found ≠ range.length
      omega

/-- `Bytes::startswith`. -/
def bytesStartswith (self pre : List α) (start stop : Nat) : Option Bool := do
  let range ← bytesRange self start stop
  if range.length ≥ pre.length then stdEqual pre range 0 else some false

/-- `Bytes::endswith`. -/
def bytesEndswith (self suffix : List α) (start stop : Nat) :
    Option Bool := do
  let range ← bytesRange self start stop
  if range.length ≥ suffix.length then do
    let pos ← sizeSub range.length suffix.length
    stdEqual suffix range pos
  else some false

/-- `Bytes::find`. -/
def bytesFind (self needle : List α) (start stop : Nat) : Option Int := do
  let range ← bytesRange self start stop
  if needle = [] then some (start : Int)
  else
    let found := stdSearch range needle 0
    if found = range.length then some (-1)
    else some ((start + found : Nat) : Int)

/-- The loop of `Bytes::rfind`. -/
def bytesRfindLoop (range needle : List α) (start : Nat) :
    Nat → Option Int
  | 0 => do
      let equal ← stdEqual needle range 0
      if equal then some ((start : Nat) : Int) else some (-1)
  | pos + 1 => do
      let equal ← stdEqual needle range (pos + 1)
      if equal then some ((start + (pos + 1) : Nat) : Int)
      else bytesRfindLoop range needle start pos

/-- `Bytes::rfind`. -/
def bytesRfind (self needle : List α) (start stop : Nat) : Option Int := do
  let range ← bytesRange self start stop
  if needle = [] then some (stop : Int)
  else if needle.length > range.length then some (-1)
  else do
    let pos ← sizeSub range.length needle.length
    bytesRfindLoop range needle start pos

/-- The loop of `Bytes::count_subsequence`. -/
def bytesCountLoop (range needle : List α) (hNeedle : needle ≠ [])
    (pos : Nat) (result : Int) : Int :=
  if pos ≠ range.length then
    if hFound : stdSearch range needle pos = range.length then result
    else
      have := findFrom_advances hNeedle
        ((stdSearch_eq_iff range hNeedle pos).2 hFound)
      bytesCountLoop range needle hNeedle
        (stdSearch range needle pos + needle.length) (result + 1)
  else result
  termination_by range.length + 1 - pos

/-- `Bytes::count_subsequence`. -/
def bytesCount (self needle : List α) (start stop : Nat) : Option Int := do
  let range ← bytesRange self start stop
  if hNeedle : needle = [] then some ((range.length + 1 : Nat) : Int)
  else some (bytesCountLoop range needle hNeedle 0 0)

/-- The searches of a type on a range of the receiver, and the exception of
`index`. -/
structure Searches (α : Type) where
  find : List α → List α → Nat → Nat → Option Int
  rfind : List α → List α → Nat → Nat → Option Int
  count : List α → List α → Nat → Nat → Option Int
  startswith : List α → List α → Nat → Nat → Option Bool
  endswith : List α → List α → Nat → Nat → Option Bool
  notFound : BuiltinException

def stringSearches : Searches α where
  find := stringFind
  rfind := stringRfind
  count := stringCount
  startswith := stringStartswith
  endswith := stringEndswith
  notFound := { typeName := "ValueError", message := "substring not found" }

def bytesSearches : Searches α where
  find := bytesFind
  rfind := bytesRfind
  count := bytesCount
  startswith := bytesStartswith
  endswith := bytesEndswith
  notFound := { typeName := "ValueError", message := "subsection not found" }

/-- A method: the bounds are normalized, then the range is searched. -/
def method {β : Type} (search : List α → List α → Nat → Nat → Option β)
    (self : Sequence α) (needle : List α) (startValue endValue : IndexValue) :
    Option (Except BuiltinException β) := do
  match ← normalizeRange self.items.length startValue endValue with
  | .error e => some (.error e)
  | .ok (start, stop) =>
      let result ← search self.items needle start stop
      some (.ok result)

/-- `index` and `rindex`, from the search they call. -/
def indexMethod (notFound : BuiltinException)
    (search : List α → List α → Nat → Nat → Option Int) (self : Sequence α)
    (needle : List α) (startValue endValue : IndexValue) :
    Option (Except BuiltinException Int) := do
  match ← normalizeRange self.items.length startValue endValue with
  | .error e => some (.error e)
  | .ok (start, stop) =>
      let found ← search self.items needle start stop
      some (if found = -1 then .error notFound else .ok found)

end Searches

end CloverVM.BuiltinTypes.SubstringSearch
