import CloverVM.BuiltinTypes.SubstringSearch

/-!
# Splitting, joining and replacing

The `split`, `rsplit`, `replace` and `join` of strings.  A split walks a view
of the string with a position and a count of the splits made, from the left or
from the right; the pieces of a split from the right are collected last piece
first.  What counts as whitespace is a parameter.

A function is an `Option`, with `none` where a position or a difference of
sizes is out of range; a Python exception is the error of an `Except`.
-/

namespace CloverVM.BuiltinTypes.StringSplit

open CloverVM.Machine CloverVM.Runtime CloverVM.BuiltinTypes.SubstringSearch
open CloverVM.Collections.Occurrences

section Whitespace

variable {α : Type}

/-- The loop that moves `pos` up while the items there pass `test`. -/
def skipForward (test : α → Bool) (view : List α) (stop pos : Nat) :
    Option Nat :=
  if pos < stop then do
    let c ← view[pos]?
    if test c then skipForward test view stop (pos + 1) else some pos
  else some pos
  termination_by stop - pos

/-- The loop that moves `stop` down while the items before it pass `test`. -/
def skipBackward (test : α → Bool) (view : List α) : Nat → Option Nat
  | 0 => some 0
  | stop + 1 => do
      let c ← view[stop]?
      if test c then skipBackward test view stop else some (stop + 1)

variable {test isSpace : α → Bool} {view : List α} {stop pos start i : Nat}

/-- A skip stops at the end or before an item that fails the test. -/
theorem skipForward_stops (h : skipForward test view stop pos = some i)
    (hPos : pos ≤ stop) :
    pos ≤ i ∧ i ≤ stop ∧
      (i ≠ stop → ∃ c, view[i]? = some c ∧ test c = false) := by
  fun_induction skipForward test view stop pos with
  | case1 pos hMore ih =>
      obtain ⟨c, hItem, hSkip⟩ := exists_of_bind h
      cases hTest : test c with
      | true =>
          rw [if_pos hTest] at hSkip
          obtain ⟨hLe, hRest⟩ := ih hSkip hMore
          exact ⟨Nat.le_of_succ_le hLe, hRest⟩
      | false =>
          rw [if_neg (by rw [hTest]; decide)] at hSkip
          cases hSkip
          exact ⟨Nat.le_refl _, hPos, fun _ => ⟨c, hItem, hTest⟩⟩
  | case2 pos hDone =>
      cases h
      exact ⟨Nat.le_refl _, hPos, fun hne => absurd hPos (by omega)⟩

theorem skipBackward_stops (h : skipBackward test view stop = some i) :
    i ≤ stop ∧
      (i ≠ 0 → ∃ c, view[i - 1]? = some c ∧ test c = false) := by
  induction stop with
  | zero =>
      cases h
      exact ⟨Nat.le_refl _, fun hne => absurd rfl hne⟩
  | succ stop ih =>
      obtain ⟨c, hItem, hSkip⟩ := exists_of_bind h
      cases hTest : test c with
      | true =>
          rw [if_pos hTest] at hSkip
          obtain ⟨hLe, hRest⟩ := ih hSkip
          exact ⟨Nat.le_succ_of_le hLe, hRest⟩
      | false =>
          rw [if_neg (by rw [hTest]; decide)] at hSkip
          cases hSkip
          exact ⟨Nat.le_refl _, fun _ => ⟨c, hItem, hTest⟩⟩

/-- Past the whitespace there is a word to skip. -/
theorem skipForward_word (hPos : pos < stop)
    (hSpace : skipForward isSpace view stop pos = some start)
    (hMore : start ≠ stop)
    (hWord : skipForward (fun c => !isSpace c) view stop start = some i) :
    stop - i < stop - pos := by
  obtain ⟨hLe, hEnd, hItem⟩ := skipForward_stops hSpace (Nat.le_of_lt hPos)
  obtain ⟨c, hItem, hNoSpace⟩ := hItem hMore
  have hLess : start < stop := Nat.lt_of_le_of_ne hEnd hMore
  rw [skipForward, if_pos hLess, bind_of_eq_some hItem,
    if_pos (by rw [hNoSpace]; rfl)] at hWord
  have hAfter := (skipForward_stops hWord hLess).1
  omega

theorem skipBackward_word (hSpace : skipBackward isSpace view stop = some start)
    (hMore : start ≠ 0)
    (hWord : skipBackward (fun c => !isSpace c) view start = some i) :
    i < stop := by
  obtain ⟨hLe, hItem⟩ := skipBackward_stops hSpace
  obtain ⟨c, hItem, hNoSpace⟩ := hItem hMore
  cases start with
  | zero => exact absurd rfl hMore
  | succ start =>
      rw [Nat.add_sub_cancel] at hItem
      rw [skipBackward, bind_of_eq_some hItem,
        if_pos (by rw [hNoSpace]; rfl)] at hWord
      have hAfter := (skipBackward_stops hWord).1
      omega

/-- The first loop of `split_whitespace`. -/
def splitWhitespaceLoop (isSpace : α → Bool) (view : List α) (maxsplit : Int)
    (pos : Nat) (splits : Int) (result : List (List α)) :
    Option (List (List α)) :=
  if hPos : pos < view.length then
    match hSpace : skipForward isSpace view view.length pos with
    | none => none
    | some start =>
        if hMore : start = view.length then some result
        else if maxsplit ≥ 0 ∧ splits = maxsplit then do
          let rest ← substr view start view.length
          some (result ++ [rest])
        else
          match hWord : skipForward (fun c => !isSpace c) view view.length
            start with
          | none => none
          | some stop => do
              have := skipForward_word hPos hSpace hMore hWord
              let count ← sizeSub stop start
              let piece ← substr view start count
              splitWhitespaceLoop isSpace view maxsplit stop (splits + 1)
                (result ++ [piece])
  else some result
  termination_by view.length - pos

/-- `remaining_start`, where the text left at the limit starts. -/
def remainingStart (isSpace : α → Bool) (view : List α) (splits : Int)
    (stop : Nat) : Option Nat :=
  if splits > 0 then skipForward isSpace view stop 0 else some 0

/-- The second loop of `split_whitespace`, with the copy of the pieces that
follows it. -/
def rsplitWhitespaceLoop (isSpace : α → Bool) (view : List α)
    (maxsplit : Int) (stop : Nat) (splits : Int) (pieces : List (List α)) :
    Option (List (List α)) :=
  if stop > 0 then
    match hSpace : skipBackward isSpace view stop with
    | none => none
    | some last =>
        if hMore : last = 0 then some pieces.reverse
        else if maxsplit ≥ 0 ∧ splits = maxsplit then do
          let start ← remainingStart isSpace view splits last
          let count ← sizeSub last start
          let rest ← substr view start count
          some (pieces ++ [rest]).reverse
        else
          match hWord : skipBackward (fun c => !isSpace c) view last with
          | none => none
          | some start => do
              have := skipBackward_word hSpace hMore hWord
              let count ← sizeSub last start
              let piece ← substr view start count
              rsplitWhitespaceLoop isSpace view maxsplit start (splits + 1)
                (pieces ++ [piece])
  else some pieces.reverse
  termination_by stop

/-- `split_whitespace`. -/
def splitWhitespace (isSpace : α → Bool) (view : List α) (maxsplit : Int)
    (reverse : Bool) : Option (List (List α)) :=
  if !reverse then splitWhitespaceLoop isSpace view maxsplit 0 0 []
  else rsplitWhitespaceLoop isSpace view maxsplit view.length 0 []

end Whitespace

/-! ## Separators -/

section Separators

variable {α : Type} [DecidableEq α]

def splitEmptySeparatorError : BuiltinException :=
  { typeName := "ValueError", message := "empty separator" }

/-- The loop of `split_explicit` from the left, with the last piece. -/
def splitLoop (view sep : List α) (hSep : sep ≠ []) (maxsplit : Int)
    (pos : Nat) (splits : Int) (result : List (List α)) :
    Option (List (List α)) :=
  if maxsplit < 0 ∨ splits < maxsplit then
    match h : findFrom sep view pos with
    | none => do
        let rest ← substr view pos view.length
        some (result ++ [rest])
    | some found => do
        have := findFrom_advances hSep h
        let count ← sizeSub found pos
        let piece ← substr view pos count
        splitLoop view sep hSep maxsplit (found + sep.length) (splits + 1)
          (result ++ [piece])
  else do
    let rest ← substr view pos view.length
    some (result ++ [rest])
  termination_by view.length + 1 - pos

/-- A search that ends before the cut made last goes down. -/
theorem findBackTo_descends {sep view : List α} {stop found : Nat}
    (hSep : sep ≠ []) (hStop : stop ≥ sep.length)
    (h : findBackTo sep view (stop - sep.length) = some found) :
    found < stop := by
  have hLe := (findBackTo_eq_some_iff.mp h).1.1
  have hLength := List.length_pos_of_ne_nil hSep
  omega

/-- The loop of `split_explicit` from the right, with the first piece and the
copy of the pieces. -/
def rsplitLoop (view sep : List α) (hSep : sep ≠ []) (maxsplit : Int)
    (stop : Nat) (splits : Int) (pieces : List (List α)) :
    Option (List (List α)) :=
  if hMore : (maxsplit < 0 ∨ splits < maxsplit) ∧ stop ≥ sep.length then
    match h : findBackTo sep view (stop - sep.length) with
    | none => do
        let rest ← substr view 0 stop
        some (pieces ++ [rest]).reverse
    | some found => do
        have := findBackTo_descends hSep hMore.2 h
        let afterFound ← sizeSub stop found
        let count ← sizeSub afterFound sep.length
        let piece ← substr view (found + sep.length) count
        rsplitLoop view sep hSep maxsplit found (splits + 1)
          (pieces ++ [piece])
  else do
    let rest ← substr view 0 stop
    some (pieces ++ [rest]).reverse
  termination_by stop

/-- `split_explicit`. -/
def splitExplicit (view sep : List α) (maxsplit : Int) (reverse : Bool) :
    Option (Except BuiltinException (List (List α))) :=
  if hSep : sep = [] then some (.error splitEmptySeparatorError)
  else if !reverse then do
    let result ← splitLoop view sep hSep maxsplit 0 0 []
    some (.ok result)
  else do
    let result ← rsplitLoop view sep hSep maxsplit view.length 0 []
    some (.ok result)

/-- The loop of `String::replace` over the items, for an `old` that is
empty. -/
def replaceGapsLoop (replacement : List α) (maxCount : Int) :
    List α → Int → List α → List α
  | [], _, result => result
  | c :: rest, replacements, result =>
      if maxCount < 0 ∨ replacements < maxCount then
        replaceGapsLoop replacement maxCount rest (replacements + 1)
          (result ++ [c] ++ replacement)
      else
        replaceGapsLoop replacement maxCount rest replacements (result ++ [c])

/-- The loop of `String::replace` for an `old` that is not. -/
def replaceLoop (str old replacement : List α) (hOld : old ≠ [])
    (maxCount : Int) (pos : Nat) (replacements : Int) (result : List α) :
    Option (List α) :=
  if pos < str.length then
    if maxCount ≥ 0 ∧ replacements = maxCount then do
      let rest ← substr str pos str.length
      some (result ++ rest)
    else
      match h : findFrom old str pos with
      | none => do
          let rest ← substr str pos str.length
          some (result ++ rest)
      | some found => do
          have := findFrom_advances hOld h
          let count ← sizeSub found pos
          let piece ← substr str pos count
          replaceLoop str old replacement hOld maxCount (found + old.length)
            (replacements + 1) (result ++ piece ++ replacement)
  else some result
  termination_by str.length + 1 - pos

/-- `String::replace`. -/
def replace (str old replacement : List α) (maxCount : Int) :
    Option (List α) :=
  if maxCount = 0 then some str
  else if hOld : old = [] then
    if maxCount < 0 ∨ 0 < maxCount then
      some (replaceGapsLoop replacement maxCount str 1 replacement)
    else some (replaceGapsLoop replacement maxCount str 0 [])
  else do
    let result ← replaceLoop str old replacement hOld maxCount 0 0 []
    some (if str = [] then result ++ str else result)

/-- `append_join_item`. -/
def appendJoinItem (result separator : List α) (needSep : Bool)
    (item : List α) : List α :=
  (if needSep then result ++ separator else result) ++ item

/-- `join_list` and `join_tuple`, on the items of the sequence. -/
def joinItems (separator : List α) (items : List (List α)) : List α :=
  items.zipIdx.foldl (fun result (item, idx) =>
    appendJoinItem result separator (idx != 0) item) []

/-- An argument that should be a string. -/
inductive StrArgument (α : Type) where
  | noneValue
  | str (items : List α)
  | other
deriving DecidableEq

/-- `require_string_argument`. -/
def requireString (message : String) :
    StrArgument α → Except BuiltinException (List α)
  | .str items => .ok items
  | .noneValue | .other => .error { typeName := "TypeError", message }

def maxsplitTypeError : BuiltinException :=
  { typeName := "TypeError", message := "maxsplit must be an integer" }

def replaceCountTypeError : BuiltinException :=
  { typeName := "TypeError", message := "replace count must be an integer" }

/-- What `native_str_split` and `native_str_rsplit` do alike. -/
def splitMethod (isSpace : α → Bool) (argumentMessage : String)
    (reverse : Bool) (self : List α) (sepValue : StrArgument α)
    (maxsplitValue : IndexValue) :
    Option (Except BuiltinException (List (List α))) := do
  match ← requireSmi maxsplitTypeError maxsplitValue with
  | .error e => some (.error e)
  | .ok maxsplit =>
      if sepValue = .noneValue then do
        let result ← splitWhitespace isSpace self maxsplit reverse
        some (.ok result)
      else
        match requireString argumentMessage sepValue with
        | .error e => some (.error e)
        | .ok sep => splitExplicit self sep maxsplit reverse

def nativeStrSplit (isSpace : α → Bool) :=
  splitMethod isSpace "split arg must be str" false

def nativeStrRsplit (isSpace : α → Bool) :=
  splitMethod isSpace "rsplit arg must be str" true

def nativeStrReplace (self : List α) (oldValue newValue : StrArgument α)
    (countValue : IndexValue) : Option (Except BuiltinException (List α)) :=
  match requireString "replace old must be str" oldValue with
  | .error e => some (.error e)
  | .ok old =>
      match requireString "replace new must be str" newValue with
      | .error e => some (.error e)
      | .ok replacement => do
          match ← requireSmi replaceCountTypeError countValue with
          | .error e => some (.error e)
          | .ok maxCount =>
              let result ← replace self old replacement maxCount
              some (.ok result)

end Separators

end CloverVM.BuiltinTypes.StringSplit
