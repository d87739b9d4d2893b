import Mathlib

/-!
# How often a family of lists mentions something

The lists stand for the references that the members of a store hold.  A change
to one of them changes the number of mentions by what it adds and takes away.
-/

namespace CloverVM.Collections

variable {α : Type} [DecidableEq α]

/-- The mentions in the first `n` lists. -/
def mentions (n : Nat) (lists : Nat → List α) (x : α) : Nat :=
  ∑ i ∈ Finset.range n, (lists i).count x

variable {n : Nat} {lists : Nat → List α} {x : α}

theorem mentions_congr {lists' : Nat → List α}
    (h : ∀ i < n, lists' i = lists i) :
    mentions n lists' x = mentions n lists x :=
  Finset.sum_congr rfl fun i hi => by rw [h i (Finset.mem_range.mp hi)]

theorem mentions_succ :
    mentions (n + 1) lists x = mentions n lists x + (lists n).count x :=
  Finset.sum_range_succ ..

/-- A list that does not mention it changes nothing. -/
theorem mentions_extend {list : List α} (h : x ∉ list) :
    mentions (n + 1) (Function.update lists n list) x =
      mentions n lists x := by
  rw [mentions_succ, Function.update_self, List.count_eq_zero.mpr h, add_zero]
  exact mentions_congr fun i hi => Function.update_of_ne hi.ne ..

theorem mentions_update {i : Nat} (hi : i < n) (list : List α) :
    mentions n (Function.update lists i list) x + (lists i).count x =
      mentions n lists x + list.count x := by
  have hMem := Finset.mem_range.mpr hi
  have hUpdate : (fun j => (Function.update lists i list j).count x) =
      Function.update (fun j => (lists j).count x) i (list.count x) := by
    funext j
    by_cases hj : j = i
    · subst hj
      rw [Function.update_self, Function.update_self]
    · rw [Function.update_of_ne hj, Function.update_of_ne hj]
  have hOld := Finset.sum_update_of_mem hMem (fun j => (lists j).count x)
    ((lists i).count x)
  rw [Function.update_eq_self] at hOld
  rw [mentions, mentions, hUpdate, Finset.sum_update_of_mem hMem, hOld]
  omega

theorem mentions_set {i idx : Nat} (hi : i < n) {old : α}
    (hOld : (lists i)[idx]? = some old) (value : α) :
    mentions n (Function.update lists i ((lists i).set idx value)) x +
        (if old = x then 1 else 0) =
      mentions n lists x + if value = x then 1 else 0 := by
  obtain ⟨hIdx, rfl⟩ := List.getElem?_eq_some_iff.mp hOld
  have hUpdate := @mentions_update α _ n lists x i hi
    ((lists i).set idx value)
  have hCount : (if (lists i)[idx] = x then 1 else 0) ≤ (lists i).count x := by
    split
    · rename_i hSame
      exact List.count_pos_iff.mpr (hSame ▸ List.getElem_mem hIdx)
    · omega
  rw [List.count_set hIdx] at hUpdate
  simp only [beq_iff_eq] at hUpdate
  omega

theorem mentions_pos_iff :
    0 < mentions n lists x ↔ ∃ i < n, x ∈ lists i := by
  rw [mentions, Nat.pos_iff_ne_zero, ne_eq, Finset.sum_eq_zero_iff]
  simp only [Finset.mem_range, List.count_eq_zero, not_forall, not_not,
    exists_prop]

end CloverVM.Collections
