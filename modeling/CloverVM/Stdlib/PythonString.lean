import CloverVM.BuiltinTypes.StringSplitSpec

/-!
# Strings of the library modules

A `str` is its list of code points.  The methods that the library modules call
are given here for the arguments they are called with: one separating code
point and no bounds.  The searches and splits are the ones of the runtime.
-/

namespace CloverVM.Stdlib

open CloverVM.BuiltinTypes.SubstringSearch CloverVM.BuiltinTypes.StringSplit
open CloverVM.Collections.Occurrences CloverVM.Collections.Splitting
open CloverVM.Machine

abbrev CodePoint := Fin 0x110000

abbrev Str := List CodePoint

/-- The code point of a character. -/
def ch (c : Char) : CodePoint := Fin.ofNat 0x110000 c.toNat

section Methods

variable {α : Type} [DecidableEq α]

/-- `s.rfind(c)` -/
def rfind (s : List α) (c : α) : Int :=
  match findBackTo [c] s s.length with
  | none => -1
  | some i => i

/-- `s.startswith(pre)` -/
def startswith (s pre : List α) : Bool := pre.isPrefixOf s

/-- `s.endswith(suffix)` -/
def endswith (s suffix : List α) : Bool := suffix.isSuffixOf s

/-- `s.rstrip(c)` -/
def rstrip (s : List α) (c : α) : List α := s.rdropWhile (· = c)

/-- `s.strip(c)` -/
def strip (s : List α) (c : α) : List α := rstrip (s.dropWhile (· = c)) c

/-- `s.split(c)` -/
def split (s : List α) (c : α) : List (List α) := s.splitOn c

/-- `c.join(parts)` -/
def join (c : α) (parts : List (List α)) : List α := [c].intercalate parts

variable {s before after : List α} {c : α}

omit [DecidableEq α] in
theorem occursAt_singleton_iff {i : Nat} :
    OccursAt [c] s i ↔ ∃ before after, s = before ++ c :: after ∧
      before.length = i := by
  rw [occursAt_iff_exists]
  simp only [List.append_assoc, List.singleton_append]

/-- There is no occurrence, or what is after the last one has none. -/
theorem rfind_cases (s : List α) (c : α) :
    (rfind s c = -1 ∧ c ∉ s) ∨
    ∃ before after, s = before ++ c :: after ∧ c ∉ after ∧
      rfind s c = before.length := by
  unfold rfind
  cases hFind : findBackTo [c] s s.length with
  | none =>
      refine Or.inl ⟨rfl, fun hMem => ?_⟩
      obtain ⟨before, after, rfl⟩ := List.append_of_mem hMem
      refine findBackTo_eq_none_iff.mp hFind before.length ?_
        (occursAt_singleton_iff.mpr ⟨before, after, rfl, rfl⟩)
      rw [List.length_append]
      omega
  | some i =>
      obtain ⟨⟨-, hOccurs⟩, hLast⟩ := findBackTo_eq_some_iff.mp hFind
      obtain ⟨before, after, rfl, rfl⟩ := occursAt_singleton_iff.mp hOccurs
      refine Or.inr ⟨before, after, rfl, fun hMem => ?_, rfl⟩
      obtain ⟨first, second, rfl⟩ := List.append_of_mem hMem
      have hLater : before.length + 1 + first.length ≤ before.length := by
        refine hLast ⟨?_, occursAt_singleton_iff.mpr
          ⟨before ++ c :: first, second, ?_, ?_⟩⟩
        · simp only [List.length_append, List.length_cons]
          omega
        · rw [List.append_assoc, List.cons_append]
        · rw [List.length_append, List.length_cons]
          omega
      omega

theorem neg_one_le_rfind (s : List α) (c : α) : -1 ≤ rfind s c := by
  rcases rfind_cases s c with ⟨hEq, -⟩ | ⟨before, after, -, -, hEq⟩
  · omega
  · omega

/-- Nothing after the last occurrence is one. -/
theorem not_mem_drop_rfind (s : List α) (c : α) :
    c ∉ s.drop (rfind s c + 1).toNat := by
  rcases rfind_cases s c with ⟨hEq, hNot⟩ | ⟨before, after, rfl, hNot, hEq⟩
  · exact fun hMem => hNot (List.mem_of_mem_drop hMem)
  · rw [hEq, show ((before.length : Int) + 1).toNat = before.length + 1 by
      omega, List.drop_length_add_append]
    exact hNot

/-- From the last occurrence on. -/
theorem drop_rfind {s : List α} {c : α} (h : 0 ≤ rfind s c) :
    ∃ after, s.drop (rfind s c).toNat = c :: after ∧ c ∉ after := by
  rcases rfind_cases s c with ⟨hEq, -⟩ | ⟨before, after, rfl, hNot, hEq⟩
  · omega
  · refine ⟨after, ?_, hNot⟩
    rw [hEq, Int.toNat_natCast, List.drop_left]

/-- The runtime's search over the whole string. -/
theorem stringRfind_eq (s : List α) (c : α) :
    stringRfind s [c] 0 s.length = some (rfind s c) := by
  have hRange : stringRange s 0 s.length = some s := by
    simp [stringRange, sizeSub, substr, check]
  refine (bind_of_eq_some hRange _).trans ?_
  rw [rfind]
  cases hFind : findBackTo [c] s s.length with
  | none => rfl
  | some i => simp only [Nat.zero_add]

/-! ## Splitting -/

omit [DecidableEq α] in
theorem not_occursAt_of_not_mem (h : c ∉ s) (i : Nat) :
    ¬ OccursAt [c] s i := by
  intro hOccurs
  obtain ⟨before, after, rfl, -⟩ := occursAt_singleton_iff.mp hOccurs
  exact h (List.mem_append_right _ List.mem_cons_self)

/-- A string without the separator, or its first piece and the rest. -/
theorem mem_cases (s : List α) (c : α) :
    c ∉ s ∨ ∃ before after, s = before ++ c :: after ∧ c ∉ before := by
  induction s with
  | nil => exact Or.inl (List.not_mem_nil)
  | cons d s ih =>
      by_cases hHead : d = c
      · exact Or.inr ⟨[], s, by rw [hHead]; rfl, List.not_mem_nil⟩
      · rcases ih with hNot | ⟨before, after, rfl, hNot⟩
        · exact Or.inl (List.not_mem_cons_of_ne_of_not_mem (Ne.symm hHead) hNot)
        · exact Or.inr ⟨d :: before, after, rfl,
            List.not_mem_cons_of_ne_of_not_mem (Ne.symm hHead) hNot⟩

theorem leftmostSplit_splitOn (s : List α) (c : α) :
    LeftmostSplit [c] none s (s.splitOn c) := by
  induction hLength : s.length using Nat.strong_induction_on generalizing s with
  | _ n ih =>
      rcases mem_cases s c with hNot | ⟨before, after, rfl, hNot⟩
      · rw [List.splitOn_eq_singleton hNot]
        exact .last (Or.inr (not_occursAt_of_not_mem hNot))
      · rw [List.splitOn_append_cons_self_of_not_mem hNot]
        have hRest := ih after.length (by simp at hLength; omega) after rfl
        have hFirst : ∀ i < before.length,
            ¬ OccursAt [c] (before ++ [c] ++ after) i := by
          intro i hi hOccurs
          obtain ⟨first, second, hEq, rfl⟩ := occursAt_singleton_iff.mp hOccurs
          rw [List.append_assoc] at hEq
          have hItem := congrArg (fun l => l[first.length]?) hEq
          simp only [List.getElem?_append_left hi, List.getElem?_append_right,
            Nat.le_refl, Nat.sub_self, List.getElem?_cons_zero] at hItem
          exact hNot (List.mem_of_getElem? hItem)
        have hCut : LeftmostSplit [c] none (before ++ [c] ++ after)
            (before :: after.splitOn c) := .cut nofun hFirst hRest
        rw [List.append_assoc] at hCut
        exact hCut

theorem not_mem_of_mem_split {piece : List α} (h : piece ∈ split s c) :
    c ∉ piece := by
  intro hMem
  obtain ⟨before, after, rfl⟩ := List.append_of_mem hMem
  exact (leftmostSplit_splitOn s c).no_piece h before.length
    (List.cons_ne_nil c []) (occursAt_singleton_iff.mpr ⟨_, _, rfl, rfl⟩)

/-- The runtime's split without a limit. -/
theorem splitExplicit_eq (s : List α) (c : α) :
    splitExplicit s [c] (-1) false = some (.ok (split s c)) :=
  splitExplicit_left (List.cons_ne_nil c []) (leftmostSplit_splitOn s c)

/-- What is stripped from the end is a run of the code point. -/
theorem rstrip_append (s : List α) (c : α) :
    ∃ n, s = rstrip s c ++ List.replicate n c := by
  refine ⟨(s.rtakeWhile (· = c)).length, ?_⟩
  have hRun : s.rtakeWhile (· = c) =
      List.replicate (s.rtakeWhile (· = c)).length c := by
    refine List.eq_replicate_of_mem fun d hd => ?_
    simpa using List.mem_rtakeWhile_imp hd
  rw [← hRun, rstrip, List.rdropWhile_append_rtakeWhile]

theorem rstrip_eq_self (h : ∀ before, s ≠ before ++ [c]) : rstrip s c = s := by
  rw [rstrip, List.rdropWhile_eq_self_iff]
  intro hne hLast
  refine h s.dropLast ?_
  rw [← of_decide_eq_true hLast, List.dropLast_append_getLast]

theorem rstrip_ne_concat (before : List α) : rstrip s c ≠ before ++ [c] := by
  intro hEq
  have hne : rstrip s c ≠ [] := by rw [hEq]; simp
  refine List.rdropWhile_last_not _ _ hne ?_
  have hLast : (rstrip s c).getLast hne = c := by
    simp only [hEq, List.getLast_append_singleton]
  exact decide_eq_true hLast

end Methods

end CloverVM.Stdlib
