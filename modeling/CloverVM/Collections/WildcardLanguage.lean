import Mathlib.Computability.Language

/-!
# Languages of wildcard patterns

A wildcard pattern is a list of slots: a gap, which any word fills, or a letter
from a set.  The sets are given by a valuation of the letter slots, so that two
readings of one pattern are two valuations.
-/

namespace CloverVM.Collections.WildcardLanguage

variable {α ι : Type*}

/-- The words of one letter from a set. -/
def letter (s : Set α) : Language α := { w | ∃ c ∈ s, w = [c] }

/-- The words that fill a slot; `none` is a gap. -/
def slotLanguage (f : ι → Set α) : Option ι → Language α
  | none => (Set.univ : Set (List α))
  | some i => letter (f i)

/-- The words that fill the slots one after the other. -/
def language (f : ι → Set α) (slots : List (Option ι)) : Language α :=
  (slots.map (slotLanguage f)).prod

/-- The letter slots of a pattern. -/
def letters (slots : List (Option ι)) : List ι := slots.filterMap id

variable {f g : ι → Set α} {slots : List (Option ι)} {w : List α}

theorem mem_language_nil : w ∈ language f [] ↔ w = [] := Language.mem_one w

theorem mem_language_letter {i : ι} :
    w ∈ language f (some i :: slots) ↔
      ∃ c rest, w = c :: rest ∧ c ∈ f i ∧ rest ∈ language f slots := by
  rw [language, List.map_cons, List.prod_cons, Language.mem_mul]
  constructor
  · rintro ⟨front, ⟨c, hc, rfl⟩, rest, hRest, rfl⟩
    exact ⟨c, rest, rfl, hc, hRest⟩
  · rintro ⟨c, rest, rfl, hc, hRest⟩
    exact ⟨[c], ⟨c, hc, rfl⟩, rest, hRest, rfl⟩

theorem mem_language_gap :
    w ∈ language f (none :: slots) ↔
      ∃ front rest, w = front ++ rest ∧ rest ∈ language f slots := by
  rw [language, List.map_cons, List.prod_cons, Language.mem_mul]
  constructor
  · rintro ⟨front, -, rest, hRest, rfl⟩
    exact ⟨front, rest, rfl, hRest⟩
  · rintro ⟨front, rest, rfl, hRest⟩
    exact ⟨front, trivial, rest, hRest, rfl⟩

/-- A gap at the end takes any word. -/
theorem mem_language_gap_nil : w ∈ language f [none] :=
  mem_language_gap.mpr ⟨w, [], (List.append_nil w).symm, mem_language_nil.mpr rfl⟩

theorem length_le_of_mem (h : w ∈ language f slots) :
    (letters slots).length ≤ w.length := by
  induction slots generalizing w with
  | nil => exact Nat.zero_le _
  | cons slot slots ih =>
      cases slot with
      | none =>
          obtain ⟨front, rest, rfl, hRest⟩ := mem_language_gap.mp h
          have hLe := ih hRest
          rw [List.length_append]
          exact Nat.le_add_left_of_le hLe
      | some i =>
          obtain ⟨c, rest, rfl, -, hRest⟩ := mem_language_letter.mp h
          exact Nat.succ_le_succ (ih hRest)

/-- A word with as many letters as there are letter slots fills them one by
one. -/
theorem mem_language_shortest_iff :
    w ∈ language f slots ∧ w.length = (letters slots).length ↔
      List.Forall₂ (fun i c => c ∈ f i) (letters slots) w := by
  induction slots generalizing w with
  | nil =>
      rw [mem_language_nil]
      constructor
      · rintro ⟨rfl, -⟩
        exact List.Forall₂.nil
      · intro h
        cases h
        exact ⟨rfl, rfl⟩
  | cons slot slots ih =>
      cases slot with
      | none =>
          change _ ∧ w.length = (letters slots).length ↔
            List.Forall₂ _ (letters slots) w
          rw [← ih, mem_language_gap]
          refine and_congr_left fun hLength => ?_
          constructor
          · rintro ⟨front, rest, rfl, hRest⟩
            have hLe := length_le_of_mem hRest
            rw [List.length_append] at hLength
            have hNil : front = [] := List.eq_nil_of_length_eq_zero (by omega)
            rw [hNil]
            exact hRest
          · intro hw
            exact ⟨[], w, rfl, hw⟩
      | some i =>
          change _ ∧ w.length = (letters slots).length + 1 ↔
            List.Forall₂ _ (i :: letters slots) w
          rw [mem_language_letter, List.forall₂_cons_left_iff]
          constructor
          · rintro ⟨⟨c, rest, rfl, hc, hRest⟩, hLength⟩
            exact ⟨c, rest, hc, ih.mp ⟨hRest, Nat.succ.inj hLength⟩, rfl⟩
          · rintro ⟨c, rest, hc, hRest, rfl⟩
            obtain ⟨hMem, hLength⟩ := ih.mpr hRest
            exact ⟨⟨c, rest, rfl, hc, hMem⟩, congrArg Nat.succ hLength⟩

/-! ## Comparing two valuations -/

theorem exists_forall₂ {is : List ι} (h : ∀ i ∈ is, (f i).Nonempty) :
    ∃ w, List.Forall₂ (fun i c => c ∈ f i) is w := by
  induction is with
  | nil => exact ⟨[], List.Forall₂.nil⟩
  | cons i is ih =>
      obtain ⟨c, hc⟩ := h i List.mem_cons_self
      obtain ⟨w, hw⟩ := ih fun j hj => h j (List.mem_cons_of_mem i hj)
      exact ⟨c :: w, List.Forall₂.cons hc hw⟩

/-- Where every slot can be filled, the words determine the sets. -/
theorem eq_of_forall₂_iff {is : List ι} (hf : ∀ i ∈ is, (f i).Nonempty)
    (hg : ∀ i ∈ is, (g i).Nonempty)
    (h : ∀ w, List.Forall₂ (fun i c => c ∈ f i) is w ↔
      List.Forall₂ (fun i c => c ∈ g i) is w) :
    ∀ i ∈ is, f i = g i := by
  induction is with
  | nil => exact fun i hi => absurd hi List.not_mem_nil
  | cons i is ih =>
      have hfRest : ∀ j ∈ is, (f j).Nonempty :=
        fun j hj => hf j (List.mem_cons_of_mem i hj)
      have hgRest : ∀ j ∈ is, (g j).Nonempty :=
        fun j hj => hg j (List.mem_cons_of_mem i hj)
      obtain ⟨wf, hwf⟩ := exists_forall₂ hfRest
      obtain ⟨wg, hwg⟩ := exists_forall₂ hgRest
      have hHead : f i = g i := by
        ext c
        constructor
        · intro hc
          exact (List.forall₂_cons.mp ((h (c :: wf)).mp (.cons hc hwf))).1
        · intro hc
          exact (List.forall₂_cons.mp ((h (c :: wg)).mpr (.cons hc hwg))).1
      obtain ⟨c, hc⟩ := hf i List.mem_cons_self
      have hRest := ih hfRest hgRest fun w => by
        have hWord := h (c :: w)
        rw [List.forall₂_cons, List.forall₂_cons] at hWord
        constructor
        · intro hw
          exact (hWord.mp ⟨hc, hw⟩).2
        · intro hw
          exact (hWord.mpr ⟨hHead ▸ hc, hw⟩).2
      intro j hj
      rcases List.mem_cons.mp hj with rfl | hj
      · exact hHead
      · exact hRest j hj

/-- A pattern has a word if and only if every letter slot can be filled. -/
theorem exists_mem_language_iff :
    (∃ w, w ∈ language f slots) ↔ ∀ i ∈ letters slots, (f i).Nonempty := by
  constructor
  · rintro ⟨w, hw⟩
    induction slots generalizing w with
    | nil => exact fun i hi => absurd hi List.not_mem_nil
    | cons slot slots ih =>
        cases slot with
        | none =>
            obtain ⟨front, rest, rfl, hRest⟩ := mem_language_gap.mp hw
            exact ih rest hRest
        | some i =>
            obtain ⟨c, rest, rfl, hc, hRest⟩ := mem_language_letter.mp hw
            intro j hj
            rcases List.mem_cons.mp (show j ∈ i :: letters slots from hj) with
              rfl | hj
            · exact ⟨c, hc⟩
            · exact ih rest hRest j hj
  · intro h
    obtain ⟨w, hw⟩ := exists_forall₂ h
    exact ⟨w, (mem_language_shortest_iff.mpr hw).1⟩

theorem language_congr (h : ∀ i ∈ letters slots, f i = g i) :
    language f slots = language g slots := by
  induction slots with
  | nil => rfl
  | cons slot slots ih =>
      have hRest : language f slots = language g slots := by
        refine ih fun i hi => h i ?_
        cases slot with
        | none => exact hi
        | some j => exact List.mem_cons_of_mem j hi
      have hHead : slotLanguage f slot = slotLanguage g slot := by
        cases slot with
        | none => rfl
        | some j =>
            have hEq : f j = g j := h j List.mem_cons_self
            rw [slotLanguage, slotLanguage, hEq]
      change slotLanguage f slot * language f slots = _
      rw [hHead, hRest]
      rfl

/-- Two valuations give one language if and only if they agree, or each of them
leaves a slot that nothing fills. -/
theorem language_eq_iff :
    language f slots = language g slots ↔
      (∀ i ∈ letters slots, f i = g i) ∨
        ((∃ i ∈ letters slots, f i = ∅) ∧ ∃ i ∈ letters slots, g i = ∅) := by
  have hWords : ∀ {f : ι → Set α}, (∃ w, w ∈ language f slots) ↔
      ¬ ∃ i ∈ letters slots, f i = ∅ := by
    intro f
    rw [exists_mem_language_iff]
    push Not
    rfl
  constructor
  · intro h
    by_cases hf : ∃ i ∈ letters slots, f i = ∅
    · refine Or.inr ⟨hf, ?_⟩
      by_contra hg
      obtain ⟨w, hw⟩ := hWords.mpr hg
      rw [← h] at hw
      exact hWords.mp ⟨w, hw⟩ hf
    · have hg : ¬ ∃ i ∈ letters slots, g i = ∅ := by
        obtain ⟨w, hw⟩ := hWords.mpr hf
        rw [h] at hw
        exact hWords.mp ⟨w, hw⟩
      refine Or.inl (eq_of_forall₂_iff ?_ ?_ fun w => ?_)
      · exact exists_mem_language_iff.mp (hWords.mpr hf)
      · exact exists_mem_language_iff.mp (hWords.mpr hg)
      · rw [← mem_language_shortest_iff, ← mem_language_shortest_iff, h]
  · rintro (hEq | ⟨hf, hg⟩)
    · exact language_congr hEq
    · ext w
      refine iff_of_false (fun hw => ?_) (fun hw => ?_)
      · exact hWords.mp ⟨w, hw⟩ hf
      · exact hWords.mp ⟨w, hw⟩ hg

end CloverVM.Collections.WildcardLanguage
