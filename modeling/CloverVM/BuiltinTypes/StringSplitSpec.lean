import CloverVM.BuiltinTypes.StringSplit
import CloverVM.BuiltinTypes.SubstringSearchSpec
import CloverVM.Collections.Splitting

/-!
# What splitting gives

The loops over a separator follow the derivation of a split: one turn for each
cut.  The whitespace loops give the words of the string, and from the right
those of the reversed string, read backwards; but a whitespace split from the
right that stops at its limit also strips the whitespace before what is left.
-/

namespace CloverVM.BuiltinTypes.StringSplit

open CloverVM.Machine CloverVM.ObjectModel CloverVM.Runtime
open CloverVM.BuiltinTypes.SubstringSearch CloverVM.BuiltinTypes.BigInt
open CloverVM.Collections.Occurrences CloverVM.Collections.Splitting

/-- The splits that are still to be made; none is the limit of a negative
`maxsplit`. -/
def limitOf (maxsplit splits : Int) : Option Nat :=
  if maxsplit < 0 then none else some (maxsplit - splits).toNat

section Limits

variable {maxsplit splits : Int}

theorem limitOf_eq_zero_iff :
    limitOf maxsplit splits = some 0 ↔ 0 ≤ maxsplit ∧ maxsplit ≤ splits := by
  unfold limitOf
  split_ifs with hNegative
  · exact iff_of_false nofun fun h => by omega
  · rw [Option.some.injEq]
    omega

theorem limitOf_pred :
    (limitOf maxsplit splits).map Nat.pred = limitOf maxsplit (splits + 1) := by
  unfold limitOf
  split_ifs with hNegative
  · rfl
  · rw [Option.map_some, Option.some.injEq, Nat.pred_eq_sub_one]
    omega

theorem more_iff :
    (maxsplit < 0 ∨ splits < maxsplit) ↔ limitOf maxsplit splits ≠ some 0 := by
  rw [Ne, limitOf_eq_zero_iff]
  omega

theorem reached_iff (h : maxsplit < 0 ∨ splits ≤ maxsplit) :
    (maxsplit ≥ 0 ∧ splits = maxsplit) ↔
      limitOf maxsplit splits = some 0 := by
  rw [limitOf_eq_zero_iff]
  omega

end Limits

section Loops

variable {α : Type}

theorem substr_eq {view : List α} {pos count : Nat} (h : pos ≤ view.length) :
    substr view pos count = some ((view.drop pos).take count) := by
  rw [substr, check_bind h]

theorem substr_rest {view : List α} {pos : Nat} (h : pos ≤ view.length) :
    substr view pos view.length = some (view.drop pos) := by
  rw [substr_eq h, List.take_of_length_le (by rw [List.length_drop]; omega)]

/-- The piece before a cut, and what is left after it. -/
theorem drop_parts {view before p after : List α} {pos : Nat}
    (h : view.drop pos = before ++ p ++ after) :
    (view.drop pos).take before.length = before ∧
    view.drop (pos + before.length + p.length) = after := by
  constructor
  · rw [h, List.append_assoc, List.take_left]
  · rw [← List.drop_drop, ← List.drop_drop, h, List.append_assoc,
      List.drop_left, List.drop_left]

theorem drop_parts_le {view before p after : List α} {pos : Nat}
    (h : view.drop pos = before ++ p ++ after) (hPos : pos ≤ view.length) :
    pos + before.length + p.length ≤ view.length := by
  have hLength := congrArg List.length h
  rw [List.length_drop, List.length_append, List.length_append] at hLength
  omega

/-- The piece after a cut, and what is left before it. -/
theorem take_parts {view before p after : List α} {stop : Nat}
    (h : view.take stop = before ++ p ++ after) (hStop : stop ≤ view.length) :
    stop = before.length + p.length + after.length ∧
    (view.drop (before.length + p.length)).take after.length = after ∧
    view.take before.length = before := by
  have hLength := congrArg List.length h
  rw [List.length_take, List.length_append, List.length_append,
    Nat.min_eq_left hStop] at hLength
  refine ⟨hLength, ?_, ?_⟩
  · have hPiece : (view.drop (before.length + p.length)).take after.length =
        (view.take stop).drop (before.length + p.length) := by
      rw [List.drop_take, hLength, Nat.add_sub_cancel_left]
    rw [hPiece, h, ← List.length_append, List.drop_left]
  · have hFront : view.take before.length =
        (view.take stop).take before.length := by
      rw [List.take_take, Nat.min_eq_left (by omega)]
    rw [hFront, h, List.append_assoc, List.take_left]

theorem occursAt_take_iff {t s : List α} {stop i : Nat}
    (hStop : stop ≤ s.length) :
    OccursAt t (s.take stop) i ↔ i + t.length ≤ stop ∧ OccursAt t s i := by
  have h := occursAt_range_iff (t := t) (i := i) (Nat.zero_le stop) hStop
  rwa [List.drop_zero, Nat.sub_zero, Nat.zero_add] at h

section Separators

variable [DecidableEq α] {view p : List α} {before after : List α}
  {maxsplit splits : Int} {pos stop : Nat} {s : List α}
  {pieces result : List (List α)}

theorem findFrom_first (hPos : pos ≤ view.length)
    (hDrop : view.drop pos = before ++ p ++ after)
    (hFirst : ∀ i < before.length, ¬ OccursAt p (before ++ p ++ after) i) :
    findFrom p view pos = some (pos + before.length) := by
  have hOccurs : ∀ {i}, OccursAt p (before ++ p ++ after) i ↔
      OccursAt p view (pos + i) := by
    intro i
    rw [← hDrop, occursAt_drop_iff hPos]
  refine findFrom_eq_some_iff.mpr ⟨⟨Nat.le_add_right _ _, ?_⟩, ?_⟩
  · exact hOccurs.mp (occursAt_iff_exists.mpr ⟨before, after, rfl, rfl⟩)
  · rintro i ⟨hLe, hThere⟩
    by_contra hLess
    refine hFirst (i - pos) (by omega) (hOccurs.mpr ?_)
    rwa [Nat.add_sub_cancel' hLe]

theorem findFrom_none (hPos : pos ≤ view.length)
    (hNone : ∀ i, ¬ OccursAt p (view.drop pos) i) :
    findFrom p view pos = none := by
  refine findFrom_eq_none_iff.mpr fun i hLe hThere => hNone (i - pos) ?_
  rwa [occursAt_drop_iff hPos, Nat.add_sub_cancel' hLe]

theorem findBackTo_last (hStop : stop ≤ view.length)
    (hTake : view.take stop = before ++ p ++ after)
    (hLast : ∀ i, before.length < i →
      ¬ OccursAt p (before ++ p ++ after) i) :
    findBackTo p view (stop - p.length) = some before.length := by
  have hOccurs : ∀ {i}, OccursAt p (before ++ p ++ after) i ↔
      i + p.length ≤ stop ∧ OccursAt p view i := by
    intro i
    rw [← hTake, occursAt_take_iff hStop]
  obtain ⟨hEnd, hHere⟩ :=
    hOccurs.mp (occursAt_iff_exists.mpr ⟨before, after, rfl, rfl⟩)
  refine findBackTo_eq_some_iff.mpr ⟨⟨by omega, hHere⟩, ?_⟩
  rintro i ⟨hLe, hThere⟩
  by_contra hMore
  exact hLast i (by omega) (hOccurs.mpr ⟨by omega, hThere⟩)

theorem findBackTo_none (hStop : stop ≤ view.length)
    (hLength : stop ≥ p.length)
    (hNone : ∀ i, ¬ OccursAt p (view.take stop) i) :
    findBackTo p view (stop - p.length) = none := by
  refine findBackTo_eq_none_iff.mpr fun i hLe hThere => hNone i ?_
  exact (occursAt_take_iff hStop).mpr ⟨by omega, hThere⟩

/-! ## The separator loops -/

/-- The loop from the left cuts as the split does. -/
theorem splitLoop_eq (result : List (List α)) (hp : p ≠ [])
    (hPos : pos ≤ view.length) (hDrop : view.drop pos = s)
    (h : LeftmostSplit p (limitOf maxsplit splits) s pieces) :
    splitLoop view p hp maxsplit pos splits result =
      some (result ++ pieces) := by
  generalize hLimit : limitOf maxsplit splits = limit at h
  induction h generalizing pos splits result with
  | last h =>
      subst hLimit hDrop
      rw [splitLoop]
      split
      · rename_i hMore
        have hNone := findFrom_none hPos (h.resolve_left (more_iff.mp hMore))
        split
        · rw [bind_of_eq_some (substr_rest hPos)]
        · rename_i found hFound
          rw [hNone] at hFound
          cases hFound
      · rw [bind_of_eq_some (substr_rest hPos)]
  | @cut limit before after pieces hMore hFirst hRest ih =>
      subst hLimit
      have hFound := findFrom_first hPos hDrop hFirst
      obtain ⟨hPiece, hAfter⟩ := drop_parts hDrop
      rw [splitLoop, if_pos (more_iff.mpr hMore)]
      split
      · rename_i hNone
        rw [hFound] at hNone
        cases hNone
      · rename_i found hSome
        obtain rfl := Option.some.inj (hFound.symm.trans hSome)
        rw [bind_of_eq_some (sizeSub_eq_some (Nat.le_add_right _ _)),
          Nat.add_sub_cancel_left, bind_of_eq_some (substr_eq hPos), hPiece,
          ih _ (drop_parts_le hDrop hPos) hAfter limitOf_pred.symm,
          List.append_assoc, List.singleton_append]

/-- The loop from the right cuts as the split from the right does. -/
theorem rsplitLoop_eq (result : List (List α)) (hp : p ≠ [])
    (hStop : stop ≤ view.length) (hTake : view.take stop = s)
    (h : RightmostSplit p (limitOf maxsplit splits) s pieces) :
    rsplitLoop view p hp maxsplit stop splits result =
      some (pieces ++ result.reverse) := by
  generalize hLimit : limitOf maxsplit splits = limit at h
  induction h generalizing stop splits result with
  | last h =>
      subst hLimit hTake
      have hLast : (do
          let rest ← substr view 0 stop
          some (result ++ [rest]).reverse) =
            some ([view.take stop] ++ result.reverse) := by
        rw [bind_of_eq_some (substr_eq (Nat.zero_le _)), List.drop_zero,
          List.reverse_append, List.reverse_singleton]
      rw [rsplitLoop]
      split
      · rename_i hMore
        have hNone := findBackTo_none hStop hMore.2
          (h.resolve_left (more_iff.mp hMore.1))
        split
        · exact hLast
        · rename_i found hFound
          rw [hNone] at hFound
          cases hFound
      · exact hLast
  | @cut limit before after pieces hMore hLast hRest ih =>
      subst hLimit
      have hFound := findBackTo_last hStop hTake hLast
      obtain ⟨hLength, hPiece, hBefore⟩ := take_parts hTake hStop
      rw [rsplitLoop, dif_pos ⟨more_iff.mpr hMore, by omega⟩]
      split
      · rename_i hNone
        rw [hFound] at hNone
        cases hNone
      · rename_i found hSome
        obtain rfl := Option.some.inj (hFound.symm.trans hSome)
        rw [bind_of_eq_some (sizeSub_eq_some (by omega)),
          bind_of_eq_some (sizeSub_eq_some (by omega)),
          bind_of_eq_some (substr_eq (by omega)),
          show stop - before.length - p.length = after.length by omega,
          hPiece, ih _ (by omega) hBefore limitOf_pred.symm,
          List.reverse_append, List.reverse_singleton, List.append_assoc]

/-- The loop that replaces joins the pieces by the replacement. -/
theorem replaceLoop_eq {q text : List α} (hp : p ≠ [])
    (hPos : pos ≤ view.length) (hDrop : view.drop pos = s)
    (hSplits : maxsplit < 0 ∨ splits ≤ maxsplit)
    (h : LeftmostSplit p (limitOf maxsplit splits) s pieces) :
    replaceLoop view p q hp maxsplit pos splits text =
      some (text ++ q.intercalate pieces) := by
  generalize hLimit : limitOf maxsplit splits = limit at h
  induction h generalizing pos splits text with
  | last h =>
      subst hLimit hDrop
      rw [List.intercalate_singleton, replaceLoop]
      split_ifs with hMore hReached
      · rw [bind_of_eq_some (substr_rest hPos)]
      · have hNone := findFrom_none hPos
          (h.resolve_left (mt (reached_iff hSplits).mpr hReached))
        split
        · rw [bind_of_eq_some (substr_rest hPos)]
        · rename_i found hFound
          rw [hNone] at hFound
          cases hFound
      · rw [List.drop_eq_nil_of_le (by omega), List.append_nil]
  | @cut limit before after pieces hMore hFirst hRest ih =>
      subst hLimit
      have hFound := findFrom_first hPos hDrop hFirst
      obtain ⟨hPiece, hAfter⟩ := drop_parts hDrop
      have hLe := drop_parts_le hDrop hPos
      have hLength := List.length_pos_of_ne_nil hp
      have hReached := mt (reached_iff hSplits).mp hMore
      rw [replaceLoop, if_pos (by omega), if_neg hReached]
      split
      · rename_i hNone
        rw [hFound] at hNone
        cases hNone
      · rename_i found hSome
        obtain rfl := Option.some.inj (hFound.symm.trans hSome)
        rw [bind_of_eq_some (sizeSub_eq_some (Nat.le_add_right _ _)),
          Nat.add_sub_cancel_left, bind_of_eq_some (substr_eq hPos), hPiece,
          ih hLe hAfter (by omega) limitOf_pred.symm,
          List.intercalate_cons_of_ne_nil hRest.ne_nil]
        simp only [List.append_assoc]

end Separators

section Whitespace

variable {test isSpace : α → Bool} {view : List α} {maxsplit splits : Int}
  {pos stop : Nat} {result : List (List α)}

/-! ## The whitespace loops -/

/-- A skip forward takes the items that pass the test. -/
theorem skipForward_eq (test : α → Bool) (hPos : pos ≤ stop)
    (hStop : stop ≤ view.length) :
    ∃ i, pos ≤ i ∧ i ≤ stop ∧
      skipForward test view stop pos = some i ∧
      (view.drop pos).take (i - pos) =
        ((view.take stop).drop pos).takeWhile test ∧
      (view.take stop).drop i =
        ((view.take stop).drop pos).dropWhile test := by
  induction hMeasure : stop - pos generalizing pos with
  | zero =>
      obtain rfl : pos = stop := by omega
      have hNil : (view.take pos).drop pos = [] :=
        List.drop_eq_nil_of_le (by rw [List.length_take]; omega)
      refine ⟨pos, Nat.le_refl _, Nat.le_refl _, ?_, ?_, ?_⟩
      · rw [skipForward, if_neg (Nat.lt_irrefl _)]
      · rw [hNil, Nat.sub_self, List.take_zero, List.takeWhile_nil]
      · rw [hNil, List.dropWhile_nil]
  | succ n ih =>
      have hLess : pos < view.length := by omega
      have hItem : view[pos]? = some view[pos] :=
        List.getElem?_eq_getElem hLess
      have hCons : (view.take stop).drop pos =
          view[pos] :: (view.take stop).drop (pos + 1) := by
        rw [List.drop_eq_getElem_cons (by rw [List.length_take]; omega),
          List.getElem_take]
      cases hTest : test view[pos] with
      | true =>
          obtain ⟨i, hLe, hEnd, hSkip, hTaken, hLeft⟩ :=
            @ih (pos + 1) (by omega) (by omega)
          refine ⟨i, by omega, hEnd, ?_, ?_, ?_⟩
          · rw [skipForward, if_pos (by omega), bind_of_eq_some hItem,
              if_pos hTest, hSkip]
          · rw [hCons, List.takeWhile_cons_of_pos hTest, ← hTaken,
              List.drop_eq_getElem_cons hLess,
              show i - pos = i - (pos + 1) + 1 by omega, List.take_succ_cons]
          · rw [hCons, List.dropWhile_cons_of_pos hTest, hLeft]
      | false =>
          have hFails : ¬ test view[pos] = true := by rw [hTest]; decide
          refine ⟨pos, Nat.le_refl _, hPos, ?_, ?_, ?_⟩
          · rw [skipForward, if_pos (by omega), bind_of_eq_some hItem,
              if_neg hFails]
          · rw [hCons, List.takeWhile_cons_of_neg hFails, Nat.sub_self,
              List.take_zero]
          · rw [hCons, List.dropWhile_cons_of_neg hFails]

/-- A skip backward does so from the other end. -/
theorem skipBackward_eq (test : α → Bool) (hStop : stop ≤ view.length) :
    ∃ i, i ≤ stop ∧ skipBackward test view stop = some i ∧
      ((view.drop i).take (stop - i)).reverse =
        (view.take stop).reverse.takeWhile test ∧
      (view.take i).reverse =
        (view.take stop).reverse.dropWhile test := by
  induction stop with
  | zero => exact ⟨0, Nat.le_refl _, rfl, rfl, rfl⟩
  | succ stop ih =>
      have hLess : stop < view.length := hStop
      have hItem : view[stop]? = some view[stop] :=
        List.getElem?_eq_getElem hLess
      have hCons : (view.take (stop + 1)).reverse =
          view[stop] :: (view.take stop).reverse := by
        rw [List.take_succ_eq_append_getElem hLess, List.reverse_append,
          List.reverse_singleton, List.singleton_append]
      cases hTest : test view[stop] with
      | true =>
          obtain ⟨i, hLe, hSkip, hTaken, hLeft⟩ := ih (by omega)
          refine ⟨i, by omega, ?_, ?_, ?_⟩
          · rw [skipBackward, bind_of_eq_some hItem, if_pos hTest, hSkip]
          · have hPiece : (view.drop i).take (stop + 1 - i) =
                (view.drop i).take (stop - i) ++ [view[stop]] := by
              rw [show stop + 1 - i = stop - i + 1 by omega,
                List.take_succ_eq_append_getElem
                  (by rw [List.length_drop]; omega), List.getElem_drop]
              simp only [Nat.add_sub_cancel' hLe]
            rw [hPiece, List.reverse_append, hTaken, hCons,
              List.takeWhile_cons_of_pos hTest, List.reverse_singleton,
              List.singleton_append]
          · rw [hCons, List.dropWhile_cons_of_pos hTest, hLeft]
      | false =>
          have hFails : ¬ test view[stop] = true := by rw [hTest]; decide
          refine ⟨stop + 1, Nat.le_refl _, ?_, ?_, ?_⟩
          · rw [skipBackward, bind_of_eq_some hItem, if_neg hFails]
          · rw [hCons, List.takeWhile_cons_of_neg hFails, Nat.sub_self,
              List.take_zero, List.reverse_nil]
          · rw [hCons, List.dropWhile_cons_of_neg hFails]

/-- The loop from the left gives the words, and at the limit all that is
left. -/
theorem splitWhitespaceLoop_eq (isSpace : α → Bool) (result : List (List α))
    (hPos : pos ≤ view.length)
    (hSplits : maxsplit < 0 ∨ splits ≤ maxsplit) :
    splitWhitespaceLoop isSpace view maxsplit pos splits result =
      some (result ++ splitWords isSpace id (limitOf maxsplit splits)
        (view.drop pos)) := by
  induction hMeasure : view.length - pos using Nat.strong_induction_on
    generalizing pos splits result with
  | _ n ih =>
      rw [splitWhitespaceLoop]
      split
      · rename_i hLess
        obtain ⟨start, hLe, hEnd, hSkip, -, hLeft⟩ :=
          skipForward_eq isSpace hPos (Nat.le_refl _)
        rw [List.take_length] at hLeft
        split
        · rename_i hNone
          rw [hSkip] at hNone
          cases hNone
        rename_i start' hSome
        obtain rfl := Option.some.inj (hSkip.symm.trans hSome)
        by_cases hDone : start = view.length
        · rw [dif_pos hDone, splitWords_of_nil, List.append_nil]
          rw [← hLeft, hDone, List.drop_length]
        have hMore : start < view.length := by omega
        rw [dif_neg hDone]
        rw [List.drop_eq_getElem_cons hMore] at hLeft
        rw [splitWords_of_cons hLeft.symm, ← List.drop_eq_getElem_cons hMore]
        split
        · rename_i hReached
          rw [if_pos ((reached_iff hSplits).mp hReached),
            bind_of_eq_some (substr_rest hEnd)]
          rfl
        · rename_i hReached
          rw [if_neg (mt (reached_iff hSplits).mpr hReached)]
          obtain ⟨stop, hStart, hStop, hWord, hPiece, hAfter⟩ :=
            skipForward_eq (fun c => !isSpace c) hEnd (Nat.le_refl _)
          rw [List.take_length] at hPiece hAfter
          split
          · rename_i hNone
            rw [hWord] at hNone
            cases hNone
          rename_i stop' hSome
          obtain rfl := Option.some.inj (hWord.symm.trans hSome)
          have hShorter := skipForward_word hLess hSkip hDone hWord
          rw [bind_of_eq_some (sizeSub_eq_some hStart),
            bind_of_eq_some (substr_eq hEnd), hPiece, ← hAfter, limitOf_pred,
            ih _ (by omega) _ hStop (by omega) rfl, List.append_assoc,
            List.singleton_append]
      · rw [List.drop_eq_nil_of_le (by omega), splitWords_of_nil rfl,
          List.append_nil]

/-- The pieces of a reversed list, read backwards. -/
def mirrored (pieces : List (List α)) : List (List α) :=
  (pieces.map List.reverse).reverse

theorem mirrored_injective : Function.Injective (mirrored (α := α)) := by
  intro pieces pieces' h
  rw [← map_reverse_reverse pieces, ← map_reverse_reverse pieces']
  exact congrArg mirrored h

/-- What becomes of the text left at the limit of a split from the right, read
backwards: its whitespace is stripped when something was split off. -/
def finishRight (isSpace : α → Bool) (maxsplit : Int) :
    List α → List α :=
  if 0 < maxsplit then stripEnd isSpace else id

/-- Where the text left at the limit starts. -/
theorem remainingStart_eq (isSpace : α → Bool) (splits : Int) {last : Nat}
    (hLast : last ≤ view.length) :
    ∃ start ≤ last, remainingStart isSpace view splits last = some start ∧
      (view.drop start).take (last - start) =
        (finishRight isSpace splits (view.take last).reverse).reverse := by
  unfold finishRight remainingStart
  split_ifs with hSplits
  · obtain ⟨start, -, hStart, hSkip, -, hLeft⟩ :=
      skipForward_eq isSpace (Nat.zero_le last) hLast
    refine ⟨start, hStart, hSkip, ?_⟩
    rw [← List.drop_take, hLeft, stripEnd, List.reverse_reverse,
      List.reverse_reverse, List.drop_zero]
  · refine ⟨0, Nat.zero_le _, rfl, ?_⟩
    rw [List.drop_zero, Nat.sub_zero, id_eq, List.reverse_reverse]

/-- The loop from the right gives the words of the reversed string, read
backwards. -/
theorem rsplitWhitespaceLoop_eq (isSpace : α → Bool)
    (result : List (List α)) (hStop : stop ≤ view.length)
    (hSplits : maxsplit < 0 ∨ splits ≤ maxsplit) :
    rsplitWhitespaceLoop isSpace view maxsplit stop splits result =
      some (mirrored (splitWords isSpace (finishRight isSpace maxsplit)
        (limitOf maxsplit splits) (view.take stop).reverse) ++
          result.reverse) := by
  induction stop using Nat.strong_induction_on
    generalizing splits result with
  | _ stop ih =>
      rw [rsplitWhitespaceLoop]
      split
      · obtain ⟨last, hLe, hSkip, -, hLeft⟩ :=
          skipBackward_eq isSpace hStop
        split
        · rename_i hNone
          rw [hSkip] at hNone
          cases hNone
        rename_i last' hSome
        obtain rfl := Option.some.inj (hSkip.symm.trans hSome)
        by_cases hDone : last = 0
        · rw [dif_pos hDone, splitWords_of_nil]
          · rfl
          · rw [← hLeft, hDone]
            rfl
        rw [dif_neg hDone]
        cases hText : (view.take last).reverse with
        | nil =>
            have hLength := congrArg List.length hText
            rw [List.length_reverse, List.length_take,
              List.length_nil] at hLength
            omega
        | cons c rest =>
            rw [splitWords_of_cons (hLeft.symm.trans hText), ← hText]
            split
            · rename_i hReached
              rw [if_pos ((reached_iff hSplits).mp hReached)]
              obtain ⟨start, hStart, hSkip, hRest⟩ :=
                remainingStart_eq isSpace splits
                  (hLe.trans hStop)
              rw [bind_of_eq_some hSkip,
                bind_of_eq_some (sizeSub_eq_some hStart),
                bind_of_eq_some (substr_eq (by omega)), hRest, hReached.2,
                List.reverse_append]
              rfl
            · rename_i hReached
              rw [if_neg (mt (reached_iff hSplits).mpr hReached)]
              obtain ⟨start, hStart, hWord, hPiece, hBefore⟩ :=
                skipBackward_eq (fun c => !isSpace c)
                  (hLe.trans hStop)
              split
              · rename_i hNone
                rw [hWord] at hNone
                cases hNone
              rename_i start' hSome
              obtain rfl := Option.some.inj (hWord.symm.trans hSome)
              have hShorter := skipBackward_word hSkip hDone hWord
              rw [bind_of_eq_some (sizeSub_eq_some hStart),
                bind_of_eq_some (substr_eq (by omega)), ← hPiece, ← hBefore,
                limitOf_pred, ih _ hShorter _ (by omega) (by omega)]
              simp only [mirrored, List.map_cons, List.reverse_cons,
                List.reverse_append, List.reverse_nil, List.nil_append,
                List.append_assoc, List.reverse_reverse]
      · rw [show stop = 0 by omega]
        rw [splitWords_of_nil rfl]
        rfl

/-- Python's `split(None, n)`. -/
def pythonSplit (isSpace : α → Bool) (n : Int) (s : List α) :
    List (List α) :=
  splitWords isSpace id (limitOf n 0) s

/-- Python's `rsplit(None, n)`, which keeps the whitespace before what is
left. -/
def pythonRsplit (isSpace : α → Bool) (n : Int) (s : List α) :
    List (List α) :=
  mirrored (pythonSplit isSpace n s.reverse)

/-- Stripping what is left at the limit shows when something was split off,
there is whitespace in front, and the limit is reached. -/
theorem finishRight_eq_python_iff (isSpace : α → Bool) (n : Int)
    (s : List α) :
    mirrored (splitWords isSpace (finishRight isSpace n) (limitOf n 0)
        s.reverse) = pythonRsplit isSpace n s ↔
      n ≤ 0 ∨ (pythonRsplit isSpace (-1) s).length ≤ n ∨
        ∀ c ∈ s.head?, isSpace c = false := by
  rw [pythonRsplit, mirrored_injective.eq_iff, pythonSplit, finishRight]
  by_cases hPositive : 0 < n
  · rw [if_pos hPositive, limitOf, if_neg (by omega), Int.sub_zero,
      stripped_words_iff, List.getLast?_reverse, pythonRsplit, mirrored,
      List.length_reverse, List.length_map]
    show ¬ (n.toNat < (splitWords isSpace id none s.reverse).length ∧ _) ↔
      n ≤ 0 ∨ ((splitWords isSpace id none s.reverse).length : Int) ≤ n ∨ _
    have hHead : (∃ c, s.head? = some c ∧ isSpace c = true) ↔
        ¬ ∀ c ∈ s.head?, isSpace c = false := by
      simp [Option.mem_def]
    rw [hHead, not_and_or, not_not, Nat.not_lt]
    constructor
    · rintro (hWords | hFront)
      · exact Or.inr (Or.inl (by omega))
      · exact Or.inr (Or.inr hFront)
    · rintro (hNone | hWords | hFront)
      · omega
      · exact Or.inl (by omega)
      · exact Or.inr hFront
  · rw [if_neg hPositive]
    exact iff_of_true rfl (Or.inl (by omega))

end Whitespace

/-! ## The gaps of a string -/

section Gaps

variable {q : List α} {maxCount replacements : Int}

/-- A list with `q` in the first `count` of its gaps: before each item, and
after the last. -/
def insertAtGaps (q : List α) (count : Nat) (s : List α) : List α :=
  (List.range (s.length + 1)).flatMap fun i =>
    (if i < count then q else []) ++ s[i]?.toList

theorem insertAtGaps_cons (q : List α) (count : Nat) (c : α) (s : List α) :
    insertAtGaps q count (c :: s) =
      (if 0 < count then q else []) ++ c :: insertAtGaps q (count - 1) s := by
  have hLess : ∀ i, i + 1 < count ↔ i < count - 1 := fun i => by omega
  rw [insertAtGaps, List.length_cons, List.range_succ_eq_map,
    List.flatMap_cons, List.flatMap_map]
  simp only [List.getElem?_cons_zero, Option.toList_some,
    Nat.succ_eq_add_one, List.getElem?_cons_succ, hLess]
  rw [List.append_assoc, List.singleton_append]
  rfl

theorem insertAtGaps_nil (q : List α) (count : Nat) :
    insertAtGaps q count [] = if 0 < count then q else [] := by
  simp [insertAtGaps]

theorem insertAtGaps_zero (q s : List α) : insertAtGaps q 0 s = s := by
  induction s with
  | nil => rw [insertAtGaps_nil, if_neg (Nat.lt_irrefl _)]
  | cons c s ih =>
      rw [insertAtGaps_cons, if_neg (Nat.lt_irrefl _), List.nil_append, ih]

/-- Only the gaps there are count. -/
theorem insertAtGaps_min (q : List α) (count : Nat) (s : List α) :
    insertAtGaps q (min count (s.length + 1)) s = insertAtGaps q count s := by
  refine List.flatMap_congr fun i hi => ?_
  have hLess := List.mem_range.mp hi
  congr 1
  exact if_congr (by omega) rfl rfl

theorem replaceGapsLoop_done (h : ¬ (maxCount < 0 ∨ replacements < maxCount))
    (s text : List α) :
    replaceGapsLoop q maxCount s replacements text = text ++ s := by
  induction s generalizing text with
  | nil => rw [replaceGapsLoop, List.append_nil]
  | cons c s ih =>
      rw [replaceGapsLoop, if_neg h, ih, List.append_assoc,
        List.singleton_append]

/-- After the first gap the loop fills the next ones. -/
theorem replaceGapsLoop_eq {count : Nat} {s : List α} (text : List α)
    (h : (maxCount < 0 ∧ s.length ≤ count) ∨
      (0 ≤ maxCount ∧ (maxCount - replacements).toNat = count)) :
    replaceGapsLoop q maxCount s replacements (text ++ q) =
      text ++ insertAtGaps q (count + 1) s := by
  induction s generalizing count replacements text with
  | nil => rw [replaceGapsLoop, insertAtGaps_nil, if_pos (Nat.succ_pos _)]
  | cons c s ih =>
      rw [insertAtGaps_cons, if_pos (Nat.succ_pos _), Nat.add_sub_cancel]
      rw [List.length_cons] at h
      by_cases hMore : maxCount < 0 ∨ replacements < maxCount
      · obtain ⟨count, rfl⟩ : ∃ k, count = k + 1 := ⟨count - 1, by omega⟩
        rw [replaceGapsLoop, if_pos hMore, @ih _ count _ (by omega)]
        simp only [List.append_assoc, List.singleton_append]
      · obtain rfl : count = 0 := by omega
        rw [replaceGapsLoop, if_neg hMore, replaceGapsLoop_done hMore,
          insertAtGaps_zero]
        simp only [List.append_assoc, List.singleton_append]

end Gaps

theorem joinLoop_eq (separator : List α) (items : List (List α))
    (text : List α) (first : List α) (idx : Nat) :
    ((first :: items).zipIdx (idx + 1)).foldl (fun result (item, idx) =>
        appendJoinItem result separator (idx != 0) item) text =
      text ++ separator ++ separator.intercalate (first :: items) := by
  induction items generalizing text first idx with
  | nil => simp [appendJoinItem, List.intercalate_singleton]
  | cons second items ih =>
      rw [List.zipIdx_cons, List.foldl_cons, ih,
        List.intercalate_cons_cons]
      simp [appendJoinItem]

/-- Joining puts the separator between the items. -/
theorem joinItems_eq (separator : List α) (items : List (List α)) :
    joinItems separator items = separator.intercalate items := by
  cases items with
  | nil => rfl
  | cons first items =>
      cases items with
      | nil => simp [joinItems, appendJoinItem, List.intercalate_singleton]
      | cons second items =>
          rw [joinItems, List.zipIdx_cons, List.foldl_cons, joinLoop_eq,
            List.intercalate_cons_cons]
          simp [appendJoinItem]

end Loops

/-! ## The methods of strings -/

section Methods

variable {α : Type} [DecidableEq α]

/-- `split(p, n)`, `rsplit(p, n)` and `replace(p, q, n)` of `s`, from the
pieces of the two splits. -/
structure CutsAt (isSpace : α → Bool) (s p : List α) (maxsplit : IndexValue)
    (n : Int) (fromLeft fromRight : List (List α)) : Prop where
  split : nativeStrSplit isSpace s (.str p) maxsplit = some (.ok fromLeft)
  rsplit : nativeStrRsplit isSpace s (.str p) maxsplit = some (.ok fromRight)
  leftmost : LeftmostSplit p (limitOf n 0) s fromLeft
  rightmost : RightmostSplit p (limitOf n 0) s fromRight
  join_split : joinItems p fromLeft = s
  join_rsplit : joinItems p fromRight = s
  at_most : 0 ≤ n →
    fromLeft.length ≤ n.toNat + 1 ∧ fromRight.length ≤ n.toNat + 1
  no_limit : n < 0 → ∀ piece ∈ fromLeft ++ fromRight, ∀ i,
    ¬ OccursAt p piece i
  mirror : nativeStrSplit isSpace s.reverse (.str p.reverse) maxsplit =
    some (.ok (mirrored fromRight))
  replace : ∀ q, nativeStrReplace s (.str p) (.str q) maxsplit =
    some (.ok (joinItems q fromLeft))

/-- The gaps that a count of replacements fills. -/
def gapCount (n : Int) (s : List α) : Nat :=
  if n < 0 then s.length + 1 else min n.toNat (s.length + 1)

variable {isSpace : α → Bool} {maxsplit : IndexValue} {n : Int}
  {s p : List α}

theorem splitMethod_separator (h : Integral maxsplit (some n))
    (hFits : SmiRange n) (message : String) (reverse : Bool) (s p : List α) :
    splitMethod isSpace message reverse s (.str p) maxsplit =
      splitExplicit s p n reverse := by
  rw [splitMethod, requireSmi_spec _ h, if_pos hFits]
  rfl

theorem splitMethod_whitespace (h : Integral maxsplit (some n))
    (hFits : SmiRange n) (message : String) (reverse : Bool) (s : List α) :
    splitMethod isSpace message reverse s .noneValue maxsplit =
      (splitWhitespace isSpace s n reverse).map .ok := by
  rw [splitMethod, requireSmi_spec _ h, if_pos hFits]
  cases hResult : splitWhitespace isSpace s n reverse with
  | none => simp [hResult]
  | some pieces => simp [hResult]

theorem nativeStrReplace_eq (h : Integral maxsplit (some n))
    (hFits : SmiRange n) (s p q : List α) :
    nativeStrReplace s (.str p) (.str q) maxsplit =
      (StringSplit.replace s p q n).map .ok := by
  rw [nativeStrReplace, requireString, requireString]
  dsimp only
  rw [requireSmi_spec _ h, if_pos hFits]
  cases hResult : StringSplit.replace s p q n with
  | none => simp [hResult]
  | some text => simp [hResult]

theorem splitExplicit_left (hp : p ≠ []) {pieces : List (List α)}
    (h : LeftmostSplit p (limitOf n 0) s pieces) :
    splitExplicit s p n false = some (.ok pieces) := by
  have hLoop := splitLoop_eq [] hp (Nat.zero_le _)
    List.drop_zero h
  rw [splitExplicit, dif_neg hp]
  exact bind_of_eq_some hLoop _

theorem splitExplicit_right (hp : p ≠ []) {pieces : List (List α)}
    (h : RightmostSplit p (limitOf n 0) s pieces) :
    splitExplicit s p n true = some (.ok pieces) := by
  have hLoop := rsplitLoop_eq [] hp (Nat.le_refl _)
    (List.take_length (l := s)) h
  rw [List.reverse_nil, List.append_nil] at hLoop
  rw [splitExplicit, dif_neg hp]
  exact bind_of_eq_some hLoop _

theorem replace_pieces (hp : p ≠ []) {pieces : List (List α)}
    (h : LeftmostSplit p (limitOf n 0) s pieces) (q : List α) :
    StringSplit.replace s p q n = some (joinItems q pieces) := by
  rw [joinItems_eq, StringSplit.replace]
  by_cases hZero : n = 0
  · -- no cut is made
    rw [if_pos hZero]
    rw [hZero] at h
    cases h with
    | last h => rw [List.intercalate_singleton]
    | cut hMore hFirst hRest => exact absurd rfl hMore
  · rw [if_neg hZero, dif_neg hp]
    have hAppend : ∀ text : List α,
        (if s = [] then text ++ s else text) = text := by
      intro text
      split_ifs with hEmpty
      · rw [hEmpty, List.append_nil]
      · rfl
    simp only [hAppend]
    exact bind_of_eq_some (replaceLoop_eq hp (Nat.zero_le _) List.drop_zero
      (by omega) h) _

theorem replace_gaps (s q : List α) (n : Int) :
    StringSplit.replace s [] q n =
      some (insertAtGaps q (gapCount n s) s) := by
  rw [StringSplit.replace]
  by_cases hZero : n = 0
  · subst hZero
    rw [if_pos rfl, show gapCount 0 s = 0 by simp [gapCount],
      insertAtGaps_zero]
  rw [if_neg hZero, dif_pos rfl, if_pos (by omega)]
  by_cases hNegative : n < 0
  · rw [gapCount, if_pos hNegative]
    exact congrArg some (replaceGapsLoop_eq []
      (Or.inl ⟨hNegative, Nat.le_refl _⟩))
  · rw [gapCount, if_neg hNegative, insertAtGaps_min,
      show n.toNat = (n - 1).toNat + 1 by omega]
    exact congrArg some (replaceGapsLoop_eq []
      (Or.inr ⟨by omega, rfl⟩))

/-- The methods at a separator. -/
theorem exists_cutsAt (h : Integral maxsplit (some n)) (hFits : SmiRange n)
    (isSpace : α → Bool) (s : List α) (hp : p ≠ []) :
    ∃ fromLeft fromRight,
      CutsAt isSpace s p maxsplit n fromLeft fromRight := by
  obtain ⟨fromLeft, hLeft⟩ := LeftmostSplit.exists_pieces hp (limitOf n 0) s
  obtain ⟨fromRight, hRight⟩ :=
    RightmostSplit.exists_pieces hp (limitOf n 0) s
  have hReverse : p.reverse ≠ [] := mt List.reverse_eq_nil_iff.mp hp
  refine ⟨fromLeft, fromRight, ?_⟩
  exact
    { split := (splitMethod_separator h hFits _ _ s p).trans
        (splitExplicit_left hp hLeft)
      rsplit := (splitMethod_separator h hFits _ _ s p).trans
        (splitExplicit_right hp hRight)
      leftmost := hLeft
      rightmost := hRight
      join_split := (joinItems_eq _ _).trans hLeft.join
      join_rsplit := (joinItems_eq _ _).trans hRight.join
      at_most := by
        intro hLimit
        rw [limitOf, if_neg (by omega), Int.sub_zero] at hLeft hRight
        exact ⟨hLeft.length_le, hRight.length_le⟩
      no_limit := by
        intro hNone piece hPiece i
        rw [limitOf, if_pos hNone] at hLeft hRight
        rcases List.mem_append.mp hPiece with hPiece | hPiece
        · exact hLeft.no_piece hPiece i hp
        · exact hRight.no_piece hPiece i hp
      mirror := (splitMethod_separator h hFits _ _ _ _).trans
        (splitExplicit_left hReverse hRight.reverse)
      replace := by
        intro q
        rw [nativeStrReplace_eq h hFits, replace_pieces hp hLeft]
        rfl }

/-- The whitespace split from the left is Python's. -/
theorem nativeStrSplit_whitespace (h : Integral maxsplit (some n))
    (hFits : SmiRange n) (isSpace : α → Bool) (s : List α) :
    nativeStrSplit isSpace s .noneValue maxsplit =
      some (.ok (pythonSplit isSpace n s)) := by
  rw [nativeStrSplit, splitMethod_whitespace h hFits]
  have hStart : n < 0 ∨ 0 ≤ n := by omega
  have hLoop := splitWhitespaceLoop_eq isSpace [] (Nat.zero_le s.length) hStart
  exact congrArg (Option.map Except.ok) hLoop

/-- The whitespace split from the right. -/
theorem nativeStrRsplit_whitespace (h : Integral maxsplit (some n))
    (hFits : SmiRange n) (isSpace : α → Bool) (s : List α) :
    nativeStrRsplit isSpace s .noneValue maxsplit =
      some (.ok (mirrored (splitWords isSpace (finishRight isSpace n)
        (limitOf n 0) s.reverse))) := by
  rw [nativeStrRsplit, splitMethod_whitespace h hFits]
  have hStart : n < 0 ∨ 0 ≤ n := by omega
  have hLoop := rsplitWhitespaceLoop_eq isSpace [] (Nat.le_refl s.length)
    hStart
  rw [List.reverse_nil, List.append_nil, List.take_length] at hLoop
  exact congrArg (Option.map Except.ok) hLoop

/-- A count that does not fit an SMI. -/
theorem splitMethod_overflow (h : Integral maxsplit (some n))
    (hFits : ¬ SmiRange n) (message : String) (reverse : Bool)
    (separator : StrArgument α) :
    splitMethod isSpace message reverse s separator maxsplit =
      some (.error overflowError) := by
  rw [splitMethod, requireSmi_spec _ h, if_neg hFits]
  rfl

theorem nativeStrReplace_overflow (h : Integral maxsplit (some n))
    (hFits : ¬ SmiRange n) (s p q : List α) :
    nativeStrReplace s (.str p) (.str q) maxsplit =
      some (.error overflowError) := by
  rw [nativeStrReplace, requireString, requireString]
  dsimp only
  rw [requireSmi_spec _ h, if_neg hFits]
  rfl

/-- What `split`, `rsplit` and `replace` of `s` give. -/
structure SplitAlgebra (isSpace : α → Bool) (s : List α)
    (maxsplit : IndexValue) (n : Int) : Prop where
  separator : ∀ p ≠ [], ∃ fromLeft fromRight,
    CutsAt isSpace s p maxsplit n fromLeft fromRight
  split_whitespace : nativeStrSplit isSpace s .noneValue maxsplit =
    some (.ok (pythonSplit isSpace n s))
  rsplit_whitespace : nativeStrRsplit isSpace s .noneValue maxsplit =
    some (.ok (mirrored (splitWords isSpace (finishRight isSpace n)
      (limitOf n 0) s.reverse)))
  rsplit_python_iff : nativeStrRsplit isSpace s .noneValue maxsplit =
      some (.ok (pythonRsplit isSpace n s)) ↔
    n ≤ 0 ∨ (pythonRsplit isSpace (-1) s).length ≤ n ∨
      ∀ c ∈ s.head?, isSpace c = false
  replace_gaps : ∀ q, nativeStrReplace s (.str []) (.str q) maxsplit =
    some (.ok (insertAtGaps q (gapCount n s) s))

/-- **Splitting**: for a `maxsplit` that fits an SMI the methods follow one
algebra, and `rsplit(None, n)` strips the text left at its limit; any other
`maxsplit` is an `OverflowError`. -/
theorem split_rsplit_replace (isSpace : α → Bool) (s : List α)
    (h : Integral maxsplit (some n)) :
    (SmiRange n → SplitAlgebra isSpace s maxsplit n) ∧
    (¬ SmiRange n → ∀ separator p q,
      nativeStrSplit isSpace s separator maxsplit =
        some (.error overflowError) ∧
      nativeStrRsplit isSpace s separator maxsplit =
        some (.error overflowError) ∧
      nativeStrReplace s (.str p) (.str q) maxsplit =
        some (.error overflowError)) := by
  constructor
  · intro hFits
    have hRight := nativeStrRsplit_whitespace h hFits isSpace s
    exact
      { separator := fun p hp => exists_cutsAt h hFits isSpace s hp
        split_whitespace := nativeStrSplit_whitespace h hFits isSpace s
        rsplit_whitespace := hRight
        rsplit_python_iff := by
          rw [hRight, Option.some.injEq, Except.ok.injEq]
          exact finishRight_eq_python_iff isSpace n s
        replace_gaps := by
          intro q
          rw [nativeStrReplace_eq h hFits, StringSplit.replace_gaps]
          rfl }
  · intro hFits separator p q
    exact ⟨splitMethod_overflow h hFits _ _ _,
      splitMethod_overflow h hFits _ _ _,
      nativeStrReplace_overflow h hFits s p q⟩

end Methods

/-- `" a b"` has two words, and one split leaves one of them. -/
theorem split_rsplit_replace_one :
    SplitAlgebra (fun c => c == ' ') [' ', 'a', ' ', 'b']
      (.integer (.smi (Value.ofInt 1))) 1 :=
  (split_rsplit_replace _ _ (Integral.smi (Value.ofInt 1))).1 (by decide)

/-- A count of `2 ^ 58`, one more than an SMI holds. -/
def oversizedCount : ConstBigIntView := ⟨1, [0, 2 ^ 26]⟩

/-- `"  a b".rsplit(None, 1)` is not Python's `["  a", "b"]`, and is no mirror
of a split of the reversed string; and a count may be too large. -/
theorem rsplit_strips_remainder :
    nativeStrRsplit (fun c => c == ' ') [' ', ' ', 'a', ' ', 'b'] .noneValue
        (.integer (.smi (Value.ofInt 1))) = some (.ok [['a'], ['b']]) ∧
      pythonRsplit (fun c => c == ' ') 1 [' ', ' ', 'a', ' ', 'b'] =
        [[' ', ' ', 'a'], ['b']] ∧
      nativeStrSplit (fun c => c == ' ') ['b', ' ', 'a', ' ', ' '] .noneValue
        (.integer (.smi (Value.ofInt 1))) =
          some (.ok [['b'], ['a', ' ', ' ']]) ∧
      nativeStrSplit (fun c => c == ' ') ['a', ',', 'b'] (.str [','])
        (.integer (.bigInt oversizedCount)) =
          some (.error overflowError) := by
  refine ⟨?_, ?_, ?_, ?_⟩ <;> decide +kernel

end CloverVM.BuiltinTypes.StringSplit
