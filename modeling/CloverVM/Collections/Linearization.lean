import Mathlib

/-!
# Merging precedence lists

Several lists over one type are to be merged into one list without
repetition that keeps the order of each.  A candidate is the first element of
a list and stands in the tail of none; a merge takes a candidate, removes it
from the front of every list, and goes on until the lists are empty.  It is
stuck when lists are left but no candidate is.

Which candidate is taken does not matter for whether the merge succeeds: a
merged list is an order of the lists, and lists that have an order are never
stuck.
-/

namespace CloverVM.Collections.Linearization

variable {α : Type}

/-- The list has the elements of the lists, each once, in their order. -/
structure Orders (out : List α) (seqs : List (List α)) : Prop where
  nodup : out.Nodup
  sublist : ∀ s ∈ seqs, s.Sublist out
  mem : ∀ x ∈ out, ∃ s ∈ seqs, x ∈ s

/-- First in a list and in the tail of none. -/
structure Candidate (c : α) (seqs : List (List α)) : Prop where
  head : ∃ s ∈ seqs, s.head? = some c
  tails : ∀ s ∈ seqs, c ∉ s.tail

section Removal

variable [DecidableEq α]

/-- The lists without the element at their fronts. -/
def removeFront (c : α) (seqs : List (List α)) : List (List α) :=
  seqs.map fun s => s.dropWhile (· == c)

/-- The lists merge into the list. -/
inductive Merges : List (List α) → List α → Prop
  | done {seqs : List (List α)} :
      (∀ s ∈ seqs, s = []) → Merges seqs []
  | take {seqs : List (List α)} {c : α} {out : List α} :
      Candidate c seqs → Merges (removeFront c seqs) out →
      Merges seqs (c :: out)

/-- Some choice of candidates leads to lists that are left without one. -/
inductive Stuck : List (List α) → Prop
  | here {seqs : List (List α)} :
      (∃ s ∈ seqs, s ≠ []) → (∀ c, ¬ Candidate c seqs) → Stuck seqs
  | take {seqs : List (List α)} {c : α} :
      Candidate c seqs → Stuck (removeFront c seqs) → Stuck seqs

/-- An element outside the tail is dropped once, from the front. -/
theorem dropWhile_eq_or {c : α} {s : List α} (h : c ∉ s.tail) :
    s = c :: s.dropWhile (· == c) ∨
      c ∉ s ∧ s.dropWhile (· == c) = s := by
  cases s with
  | nil => exact Or.inr ⟨List.not_mem_nil, rfl⟩
  | cons x s =>
      rw [List.tail_cons] at h
      by_cases hx : x = c
      · subst hx
        have hRest : s.dropWhile (· == x) = s := by
          cases s with
          | nil => rfl
          | cons y s =>
              have hNe : ¬ y = x := fun hy => h (hy ▸ List.mem_cons_self)
              rw [List.dropWhile_cons_of_neg (by simpa using hNe)]
        refine Or.inl ?_
        rw [List.dropWhile_cons_of_pos (by simp), hRest]
      · refine Or.inr ⟨?_, ?_⟩
        · rw [List.mem_cons]
          rintro (rfl | hMem)
          · exact hx rfl
          · exact h hMem
        · rw [List.dropWhile_cons_of_neg (by simpa using hx)]

/-- What is left of a list does not contain the candidate. -/
theorem not_mem_dropWhile {c : α} {s : List α} (h : c ∉ s.tail) :
    c ∉ s.dropWhile (· == c) := by
  rcases dropWhile_eq_or h with hFront | ⟨hNot, hSame⟩
  · rw [hFront] at h
    exact h
  · rwa [hSame]

theorem mem_dropWhile_of_ne {c x : α} {s : List α} (hMem : x ∈ s)
    (hne : x ≠ c) : x ∈ s.dropWhile (· == c) := by
  induction s with
  | nil => cases hMem
  | cons y s ih =>
      by_cases hy : y = c
      · rw [List.dropWhile_cons_of_pos (by simpa using hy)]
        refine ih ((List.mem_cons.mp hMem).resolve_left ?_)
        rintro rfl
        exact hne hy
      · rwa [List.dropWhile_cons_of_neg (by simpa using hy)]

theorem mem_removeFront {c : α} {seqs : List (List α)} {s : List α} :
    s ∈ removeFront c seqs ↔ ∃ t ∈ seqs, t.dropWhile (· == c) = s := by
  simp [removeFront]

theorem Merges.orders {seqs : List (List α)} {out : List α}
    (h : Merges seqs out) : Orders out seqs := by
  induction h with
  | done hEmpty =>
      refine ⟨List.nodup_nil, fun s hs => ?_, nofun⟩
      rw [hEmpty s hs]
  | @take seqs c out hCandidate _ ih =>
      refine ⟨List.nodup_cons.mpr ⟨?_, ih.nodup⟩, fun s hs => ?_,
        fun x hx => ?_⟩
      · intro hMem
        obtain ⟨s, hs, hc⟩ := ih.mem c hMem
        obtain ⟨t, ht, rfl⟩ := mem_removeFront.mp hs
        exact not_mem_dropWhile (hCandidate.tails t ht) hc
      · have hRest := ih.sublist _ (mem_removeFront.mpr ⟨s, hs, rfl⟩)
        rcases dropWhile_eq_or (hCandidate.tails s hs) with hFront | ⟨-, hSame⟩
        · rw [hFront]
          exact hRest.cons_cons c
        · rw [hSame] at hRest
          exact hRest.cons c
      · rcases List.mem_cons.mp hx with rfl | hTail
        · obtain ⟨s, hs, hHead⟩ := hCandidate.head
          exact ⟨s, hs, List.mem_of_mem_head? hHead⟩
        · obtain ⟨s, hs, hMem⟩ := ih.mem x hTail
          obtain ⟨t, ht, rfl⟩ := mem_removeFront.mp hs
          exact ⟨t, ht, (List.dropWhile_suffix _).subset hMem⟩

omit [DecidableEq α] in
/-- The first element of an order is a candidate. -/
theorem Orders.candidate {seqs : List (List α)} {c : α} {out : List α}
    (h : Orders (c :: out) seqs) : Candidate c seqs := by
  have hNot : c ∉ out := (List.nodup_cons.mp h.nodup).1
  have hTails : ∀ s ∈ seqs, c ∉ s.tail := by
    intro s hs hMem
    cases s with
    | nil => cases hMem
    | cons x s =>
        cases h.sublist _ hs with
        | cons _ hRest => exact hNot (hRest.subset (List.mem_cons_of_mem x hMem))
        | cons_cons _ hRest => exact hNot (hRest.subset hMem)
  obtain ⟨s, hs, hMem⟩ := h.mem c List.mem_cons_self
  refine ⟨⟨s, hs, ?_⟩, hTails⟩
  cases s with
  | nil => cases hMem
  | cons x s =>
      rcases List.mem_cons.mp hMem with rfl | hTail
      · rfl
      · exact absurd hTail (hTails _ hs)

/-- Taking a candidate leaves an order of the rest. -/
theorem Orders.erase {seqs : List (List α)} {c : α} {out : List α}
    (h : Orders out seqs) (hCandidate : Candidate c seqs) :
    Orders (out.erase c) (removeFront c seqs) := by
  refine ⟨h.nodup.erase c, fun s hs => ?_, fun x hx => ?_⟩
  · obtain ⟨t, ht, rfl⟩ := mem_removeFront.mp hs
    have hSub := ((List.dropWhile_suffix (· == c)).sublist.trans
      (h.sublist t ht)).erase c
    rwa [List.erase_of_not_mem
      (not_mem_dropWhile (hCandidate.tails t ht))] at hSub
  · have hne : x ≠ c := by
      rintro rfl
      exact h.nodup.not_mem_erase hx
    obtain ⟨s, hs, hMem⟩ := h.mem x (List.mem_of_mem_erase hx)
    exact ⟨_, mem_removeFront.mpr ⟨s, hs, rfl⟩, mem_dropWhile_of_ne hMem hne⟩

theorem Stuck.not_orders {seqs : List (List α)} (h : Stuck seqs) :
    ∀ out, ¬ Orders out seqs := by
  induction h with
  | @here seqs hLeft hNone =>
      intro out hOrders
      cases out with
      | nil =>
          obtain ⟨s, hs, hne⟩ := hLeft
          exact hne (List.sublist_nil.mp (hOrders.sublist s hs))
      | cons c out => exact hNone c hOrders.candidate
  | take hCandidate _ ih =>
      intro out hOrders
      exact ih _ (hOrders.erase hCandidate)

/-- The elements left in the lists. -/
def remaining (seqs : List (List α)) : Nat := (seqs.map List.length).sum

theorem length_dropWhile_le (c : α) (s : List α) :
    (s.dropWhile (· == c)).length ≤ s.length :=
  (List.dropWhile_suffix _).length_le

theorem remaining_removeFront_le (c : α) (seqs : List (List α)) :
    remaining (removeFront c seqs) ≤ remaining seqs := by
  induction seqs with
  | nil => exact le_refl _
  | cons s seqs ih =>
      simp only [remaining, removeFront, List.map_cons, List.sum_cons] at ih ⊢
      exact Nat.add_le_add (length_dropWhile_le c s) ih

/-- Removing an element that is in front of a list removes something. -/
theorem remaining_removeFront_lt {c : α} {seqs : List (List α)}
    (h : ∃ s ∈ seqs, s.head? = some c) :
    remaining (removeFront c seqs) < remaining seqs := by
  induction seqs with
  | nil =>
      obtain ⟨s, hs, -⟩ := h
      cases hs
  | cons s seqs ih =>
      have hRest := remaining_removeFront_le c seqs
      have hLength := length_dropWhile_le c s
      obtain ⟨t, ht, hHead⟩ := h
      simp only [remaining, removeFront, List.map_cons, List.sum_cons]
        at ih hRest ⊢
      rcases List.mem_cons.mp ht with rfl | hTail
      · cases t with
        | nil => cases hHead
        | cons x t =>
            have hx : x = c := Option.some.inj hHead
            have hDrop := length_dropWhile_le c t
            rw [List.dropWhile_cons_of_pos (by simpa using hx),
              List.length_cons]
            omega
      · have hLess := ih ⟨t, hTail, hHead⟩
        omega

/-- A merge ends: all lists are used up, or it is stuck. -/
theorem merges_or_stuck (seqs : List (List α)) :
    (∃ out, Merges seqs out) ∨ Stuck seqs := by
  induction hSize : remaining seqs using Nat.strong_induction_on
    generalizing seqs with
  | _ size ih =>
      by_cases hLeft : ∃ s ∈ seqs, s ≠ []
      · by_cases hSome : ∃ c, Candidate c seqs
        · obtain ⟨c, hCandidate⟩ := hSome
          have hLess := remaining_removeFront_lt hCandidate.head
          rcases ih _ (hSize ▸ hLess) _ rfl with ⟨out, hOut⟩ | hStuck
          · exact Or.inl ⟨c :: out, .take hCandidate hOut⟩
          · exact Or.inr (.take hCandidate hStuck)
        · exact Or.inr (.here hLeft fun c hc => hSome ⟨c, hc⟩)
      · refine Or.inl ⟨[], .done fun s hs => ?_⟩
        by_contra hne
        exact hLeft ⟨s, hs, hne⟩

/-- The merge is stuck exactly when the lists have no order. -/
theorem stuck_iff_not_orders (seqs : List (List α)) :
    Stuck seqs ↔ ∀ out, ¬ Orders out seqs := by
  refine ⟨Stuck.not_orders, fun hNone => ?_⟩
  rcases merges_or_stuck seqs with ⟨out, hOut⟩ | hStuck
  · exact absurd hOut.orders (hNone out)
  · exact hStuck

end Removal

end CloverVM.Collections.Linearization
