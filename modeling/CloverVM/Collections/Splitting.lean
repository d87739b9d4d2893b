import CloverVM.Collections.Occurrences

/-!
# Splitting a list

A list can be cut at the occurrences of a separator, from the left or from the
right and up to a limit, or into the words between the items that are space.
Cutting from the left is a relation between a list and its pieces; joining
them by the separator gives the list back, and cutting from the right is the
same on the reversed lists.
-/

namespace CloverVM.Collections.Splitting

open CloverVM.Collections.Occurrences

variable {α : Type*}

/-- The pieces of a list cut at the leftmost occurrences of `p`, each search
starting after the cut before; at most `limit` cuts, if there is a limit. -/
inductive LeftmostSplit (p : List α) :
    Option Nat → List α → List (List α) → Prop
  | last {limit : Option Nat} {s : List α}
      (h : limit = some 0 ∨ ∀ i, ¬ OccursAt p s i) :
      LeftmostSplit p limit s [s]
  | cut {limit : Option Nat} {before after : List α} {pieces : List (List α)}
      (hMore : limit ≠ some 0)
      (hFirst : ∀ i < before.length, ¬ OccursAt p (before ++ p ++ after) i)
      (hRest : LeftmostSplit p (limit.map Nat.pred) after pieces) :
      LeftmostSplit p limit (before ++ p ++ after) (before :: pieces)

/-- The pieces of a list cut at the rightmost occurrences of `p`, each search
ending before the cut made last. -/
inductive RightmostSplit (p : List α) :
    Option Nat → List α → List (List α) → Prop
  | last {limit : Option Nat} {s : List α}
      (h : limit = some 0 ∨ ∀ i, ¬ OccursAt p s i) :
      RightmostSplit p limit s [s]
  | cut {limit : Option Nat} {before after : List α} {pieces : List (List α)}
      (hMore : limit ≠ some 0)
      (hLast : ∀ i, before.length < i →
        ¬ OccursAt p (before ++ p ++ after) i)
      (hRest : RightmostSplit p (limit.map Nat.pred) before pieces) :
      RightmostSplit p limit (before ++ p ++ after) (pieces ++ [after])

variable {p s : List α} {limit : Option Nat} {pieces pieces' : List (List α)}

namespace LeftmostSplit

/-- Pieces joined by the separator are the list. -/
theorem join (h : LeftmostSplit p limit s pieces) :
    p.intercalate pieces = s := by
  induction h with
  | last h => simp
  | @cut limit before after pieces hMore hFirst hRest ih =>
      cases hRest with
      | last h => simp [List.intercalate_cons_cons]
      | cut hMore hFirst hRest =>
          rw [List.intercalate_cons_cons, ih]

theorem ne_nil (h : LeftmostSplit p limit s pieces) : pieces ≠ [] := by
  cases h with
  | last h => exact List.cons_ne_nil _ _
  | cut hMore hFirst hRest => exact List.cons_ne_nil _ _

/-- There is one piece more than there are cuts. -/
theorem length_le {n : Nat} (h : LeftmostSplit p (some n) s pieces) :
    pieces.length ≤ n + 1 := by
  generalize hLimit : some n = limit at h
  induction h generalizing n with
  | last h => simp
  | cut hMore hFirst hRest ih =>
      subst hLimit
      cases n with
      | zero => exact absurd rfl hMore
      | succ n =>
          have hRest := ih (n := n) rfl
          rw [List.length_cons]
          omega

/-- Without a limit no occurrence is left in a piece. -/
theorem no_piece (h : LeftmostSplit p none s pieces) {piece : List α}
    (hPiece : piece ∈ pieces) (i : Nat) (hp : p ≠ []) :
    ¬ OccursAt p piece i := by
  generalize hLimit : none = limit at h
  induction h with
  | last h =>
      subst hLimit
      obtain rfl := List.mem_singleton.mp hPiece
      exact h.resolve_left nofun i
  | @cut limit before after pieces hMore hFirst hRest ih =>
      subst hLimit
      rcases List.mem_cons.mp hPiece with rfl | hPiece
      · intro hOccurs
        have hEnd := hOccurs.1
        have hLength := List.length_pos_of_ne_nil hp
        obtain ⟨first, second, rfl, rfl⟩ := occursAt_iff_exists.mp hOccurs
        refine hFirst first.length (by simp; omega) ?_
        refine occursAt_iff_exists.mpr ⟨first, second ++ (p ++ after), ?_, rfl⟩
        simp only [List.append_assoc]
      · exact ih hPiece rfl

/-- There is a split. -/
theorem exists_pieces [DecidableEq α] (hp : p ≠ []) (limit : Option Nat)
    (s : List α) : ∃ pieces, LeftmostSplit p limit s pieces := by
  induction hMeasure : s.length using Nat.strong_induction_on
    generalizing limit s with
  | _ n ih =>
      by_cases hMore : limit = some 0
      · exact ⟨[s], .last (Or.inl hMore)⟩
      cases hFind : findFrom p s 0 with
      | none =>
          exact ⟨[s], .last (Or.inr fun i =>
            findFrom_eq_none_iff.mp hFind i (Nat.zero_le _))⟩
      | some i =>
          obtain ⟨⟨-, hOccurs⟩, hLeast⟩ := findFrom_eq_some_iff.mp hFind
          obtain ⟨before, after, rfl, rfl⟩ := occursAt_iff_exists.mp hOccurs
          have hLength := List.length_pos_of_ne_nil hp
          have hShorter : after.length < n := by
            rw [← hMeasure, List.length_append, List.length_append]
            omega
          obtain ⟨pieces, hPieces⟩ :=
            ih after.length hShorter (limit.map Nat.pred) after rfl
          refine ⟨before :: pieces, .cut hMore ?_ hPieces⟩
          intro j hj hThere
          have hLe : before.length ≤ j := hLeast ⟨Nat.zero_le _, hThere⟩
          omega

end LeftmostSplit

/-- A separator read backwards occurs where it did, from the other end. -/
theorem not_occursAt_reverse {s : List α} {i : Nat}
    (h : ∀ j, j + p.length + i = s.length → ¬ OccursAt p s j) :
    ¬ OccursAt p.reverse s.reverse i := by
  intro hOccurs
  have hEnd := hOccurs.1
  rw [List.length_reverse, List.length_reverse] at hEnd
  have hBack := (occursAt_reverse_iff (t := p) (s := s)
    (i := s.length - p.length - i) (by omega)).mp (by
      rwa [show s.length - p.length - (s.length - p.length - i) = i by omega])
  exact h _ (by omega) hBack

theorem reverse_parts (before after : List α) :
    (before ++ p ++ after).reverse =
      after.reverse ++ p.reverse ++ before.reverse := by
  simp only [List.reverse_append, List.append_assoc]

/-- A split from the right, read backwards, is one from the left. -/
theorem RightmostSplit.reverse (h : RightmostSplit p limit s pieces) :
    LeftmostSplit p.reverse limit s.reverse
      (pieces.map List.reverse).reverse := by
  induction h with
  | last h =>
      refine .last (h.imp_right fun hNone i => ?_)
      exact not_occursAt_reverse fun j _ => hNone j
  | @cut limit before after pieces hMore hLast hRest ih =>
      rw [reverse_parts, List.map_append, List.reverse_append]
      refine .cut hMore ?_ ih
      intro i hi
      rw [List.length_reverse] at hi
      rw [← reverse_parts]
      refine not_occursAt_reverse fun j hj => hLast j ?_
      rw [List.length_append, List.length_append] at hj
      omega

/-- A split from the left, read backwards, is one from the right. -/
theorem LeftmostSplit.reverse (h : LeftmostSplit p limit s pieces) :
    RightmostSplit p.reverse limit s.reverse
      (pieces.map List.reverse).reverse := by
  induction h with
  | last h =>
      refine .last (h.imp_right fun hNone i => ?_)
      exact not_occursAt_reverse fun j _ => hNone j
  | @cut limit before after pieces hMore hFirst hRest ih =>
      rw [reverse_parts, List.map_cons, List.reverse_cons]
      refine .cut hMore ?_ ih
      intro i hi
      rw [List.length_reverse] at hi
      rw [← reverse_parts]
      refine not_occursAt_reverse fun j hj => hFirst j ?_
      rw [List.length_append, List.length_append] at hj
      omega

theorem map_reverse_reverse (pieces : List (List α)) :
    ((pieces.map List.reverse).reverse.map List.reverse).reverse =
      pieces := by
  rw [List.map_reverse, List.reverse_reverse, List.map_map,
    List.reverse_involutive.comp_self, List.map_id]

/-- **Mirror**: a split from the right is a split from the left of the
reversed list, its pieces reversed. -/
theorem rightmostSplit_iff_reverse :
    RightmostSplit p limit s pieces ↔
      LeftmostSplit p.reverse limit s.reverse
        (pieces.map List.reverse).reverse := by
  refine ⟨RightmostSplit.reverse, fun h => ?_⟩
  have hBack := h.reverse
  rwa [List.reverse_reverse, List.reverse_reverse, map_reverse_reverse] at hBack

theorem intercalate_concat {pieces : List (List α)} (h : pieces ≠ [])
    (piece : List α) :
    p.intercalate (pieces ++ [piece]) =
      p.intercalate pieces ++ p ++ piece := by
  induction pieces with
  | nil => exact absurd rfl h
  | cons first pieces ih =>
      cases pieces with
      | nil => simp [List.intercalate_cons_cons]
      | cons second pieces =>
          have hRest := ih (List.cons_ne_nil _ _)
          simp only [List.cons_append] at hRest ⊢
          rw [List.intercalate_cons_cons, hRest, List.intercalate_cons_cons]
          simp only [List.append_assoc]

theorem RightmostSplit.ne_nil (h : RightmostSplit p limit s pieces) :
    pieces ≠ [] := by
  cases h with
  | last h => exact List.cons_ne_nil _ _
  | cut hMore hLast hRest => exact List.concat_ne_nil _ _

/-- Pieces cut from the right joined by the separator are the list. -/
theorem RightmostSplit.join (h : RightmostSplit p limit s pieces) :
    p.intercalate pieces = s := by
  induction h with
  | last h => simp
  | cut hMore hLast hRest ih =>
      rw [intercalate_concat hRest.ne_nil, ih]

/-- There is one piece more than there are cuts. -/
theorem RightmostSplit.length_le {n : Nat}
    (h : RightmostSplit p (some n) s pieces) : pieces.length ≤ n + 1 := by
  have hLe := h.reverse.length_le
  rwa [List.length_reverse, List.length_map] at hLe

/-- Without a limit no occurrence is left in a piece. -/
theorem RightmostSplit.no_piece (h : RightmostSplit p none s pieces)
    {piece : List α} (hPiece : piece ∈ pieces) (i : Nat) (hp : p ≠ []) :
    ¬ OccursAt p piece i := by
  intro hOccurs
  have hEnd := hOccurs.1
  have hReversed : piece.reverse ∈ (pieces.map List.reverse).reverse :=
    List.mem_reverse.mpr (List.mem_map_of_mem hPiece)
  exact h.reverse.no_piece hReversed (piece.length - p.length - i)
    (mt List.reverse_eq_nil_iff.mp hp) ((occursAt_reverse_iff hEnd).mpr hOccurs)

/-- There is a split from the right. -/
theorem RightmostSplit.exists_pieces [DecidableEq α] (hp : p ≠ [])
    (limit : Option Nat) (s : List α) :
    ∃ pieces, RightmostSplit p limit s pieces := by
  have hReverse : p.reverse ≠ [] := mt List.reverse_eq_nil_iff.mp hp
  obtain ⟨pieces, h⟩ :=
    LeftmostSplit.exists_pieces hReverse limit s.reverse
  refine ⟨(pieces.map List.reverse).reverse, rightmostSplit_iff_reverse.mpr ?_⟩
  rwa [map_reverse_reverse]

/-! ## Words -/

section Words

variable (isSpace : α → Bool)

/-- The word at the front of a list that starts with no space. -/
theorem wordEnd_shorter {isSpace : α → Bool} {s rest : List α} {c : α}
    (h : s.dropWhile isSpace = c :: rest) :
    isSpace c = false ∧
      ((c :: rest).dropWhile fun c => !isSpace c).length < s.length := by
  have hSpace : isSpace c = false := by
    have hHead := List.head?_dropWhile_not isSpace s
    rw [h] at hHead
    simpa using hHead
  have hSuffix := (List.dropWhile_suffix isSpace (l := s)).length_le
  have hRest :=
    (List.dropWhile_suffix (fun c => !isSpace c) (l := rest)).length_le
  rw [h, List.length_cons] at hSuffix
  refine ⟨hSpace, ?_⟩
  rw [List.dropWhile_cons_of_pos (by rw [hSpace]; rfl)]
  omega

/-- The words of a list, at most `limit` of them if there is a limit; what is
then left goes through `finish`, unless nothing but space is. -/
def splitWords (finish : List α → List α) (limit : Option Nat)
    (s : List α) : List (List α) :=
  match h : s.dropWhile isSpace with
  | [] => []
  | c :: rest =>
      if limit = some 0 then [finish (c :: rest)]
      else
        have := (wordEnd_shorter h).2
        ((c :: rest).takeWhile fun c => !isSpace c) ::
          splitWords finish (limit.map Nat.pred)
            ((c :: rest).dropWhile fun c => !isSpace c)
  termination_by s.length

variable {isSpace} {finish : List α → List α} {c : α} {rest : List α}

theorem splitWords_of_nil (h : s.dropWhile isSpace = []) :
    splitWords isSpace finish limit s = [] := by
  rw [splitWords]
  split
  · rfl
  · rename_i hCons
    rw [h] at hCons
    cases hCons

theorem splitWords_of_cons (h : s.dropWhile isSpace = c :: rest) :
    splitWords isSpace finish limit s =
      if limit = some 0 then [finish (c :: rest)]
      else ((c :: rest).takeWhile fun c => !isSpace c) ::
        splitWords isSpace finish (limit.map Nat.pred)
          ((c :: rest).dropWhile fun c => !isSpace c) := by
  rw [splitWords]
  split
  · rename_i hNil
    rw [h] at hNil
    cases hNil
  · rename_i hCons
    rw [h] at hCons
    cases hCons
    rfl

/-- A list without its trailing space. -/
def stripEnd (isSpace : α → Bool) (s : List α) : List α :=
  (s.reverse.dropWhile isSpace).reverse

theorem stripEnd_eq_iff :
    stripEnd isSpace s = s ↔
      ¬ ∃ c, s.getLast? = some c ∧ isSpace c = true := by
  unfold stripEnd
  rw [List.reverse_eq_iff]
  cases hReverse : s.reverse with
  | nil =>
      obtain rfl := List.reverse_eq_nil_iff.mp hReverse
      simp
  | cons c rest =>
      have hLast : s.getLast? = some c := by
        rw [List.getLast?_eq_head?_reverse, hReverse, List.head?_cons]
      rw [hLast]
      cases hSpace : isSpace c with
      | true =>
          rw [List.dropWhile_cons_of_pos hSpace]
          refine iff_of_false ?_ (not_not_intro ⟨c, rfl, hSpace⟩)
          intro hSame
          have hLe := (List.dropWhile_suffix isSpace (l := rest)).length_le
          rw [hSame, List.length_cons] at hLe
          omega
      | false =>
          rw [List.dropWhile_cons_of_neg (by rw [hSpace]; decide)]
          refine iff_of_true rfl ?_
          rintro ⟨d, hSome, hTrue⟩
          cases hSome
          rw [hSpace] at hTrue
          cases hTrue

theorem getLast?_of_suffix {t : List α} (h : t <:+ s) (ht : t ≠ []) :
    s.getLast? = t.getLast? := by
  obtain ⟨before, rfl⟩ := h
  rw [List.getLast?_append_of_ne_nil _ ht]

/-- Stripping what is left at the limit changes the words exactly when the
limit is reached and the list ends with space. -/
theorem stripped_words_iff {n : Nat} :
    splitWords isSpace (stripEnd isSpace) (some n) s =
        splitWords isSpace id (some n) s ↔
      ¬ (n < (splitWords isSpace id none s).length ∧
        ∃ c, s.getLast? = some c ∧ isSpace c = true) := by
  induction n generalizing s with
  | zero =>
      cases hDrop : s.dropWhile isSpace with
      | nil =>
          rw [splitWords_of_nil hDrop, splitWords_of_nil hDrop,
            splitWords_of_nil hDrop]
          exact iff_of_true rfl fun h => absurd h.1 (by simp)
      | cons c rest =>
          have hSuffix := hDrop ▸ List.dropWhile_suffix isSpace (l := s)
          rw [splitWords_of_cons hDrop, splitWords_of_cons hDrop,
            splitWords_of_cons hDrop, if_pos rfl, if_pos rfl, if_neg nofun,
            getLast?_of_suffix hSuffix (List.cons_ne_nil _ _)]
          simp only [List.cons.injEq, and_true, id_eq, stripEnd_eq_iff,
            List.length_cons, Nat.succ_pos, true_and]
  | succ n ih =>
      cases hDrop : s.dropWhile isSpace with
      | nil =>
          rw [splitWords_of_nil hDrop, splitWords_of_nil hDrop,
            splitWords_of_nil hDrop]
          exact iff_of_true rfl fun h => absurd h.1 (by simp)
      | cons c rest =>
          rw [splitWords_of_cons hDrop, splitWords_of_cons hDrop,
            splitWords_of_cons hDrop, if_neg (by simp), if_neg (by simp),
            if_neg nofun]
          have hSuffix : ((c :: rest).dropWhile fun c => !isSpace c) <:+ s :=
            (List.dropWhile_suffix _).trans
              (hDrop ▸ List.dropWhile_suffix isSpace (l := s))
          generalize (c :: rest).dropWhile (fun c => !isSpace c) = after
            at hSuffix
          show (_ :: splitWords isSpace (stripEnd isSpace) (some n) after) =
            (_ :: splitWords isSpace id (some n) after) ↔ _
          rw [List.cons.injEq, ih, List.length_cons,
            Nat.add_lt_add_iff_right]
          show (_ ∧ ¬ (n < (splitWords isSpace id none after).length ∧ _)) ↔
            ¬ (n < (splitWords isSpace id none after).length ∧ _)
          rw [and_iff_right rfl]
          by_cases hMore : n < (splitWords isSpace id none after).length
          · have hne : after ≠ [] := by
              rintro rfl
              rw [splitWords_of_nil rfl] at hMore
              exact absurd hMore (by simp)
            rw [getLast?_of_suffix hSuffix hne]
          · exact iff_of_true (fun h => hMore h.1) (fun h => hMore h.1)

end Words

end CloverVM.Collections.Splitting
