import CloverVM.Collections.Linearization
import CloverVM.Runtime.BuiltinException

/-!
# The method resolution order

How `object_model/class_object.cpp` computes the MRO of a new class: a C3
merge of the MROs of its bases and the list of the bases.  A class is the
index of its creation, so that the classes it inherits from come before it.
-/

namespace CloverVM.ObjectModel.MethodResolution

open CloverVM.Collections.Linearization
open CloverVM.Runtime

abbrev ClassId := Nat

/-- The bases and the MRO that a class object stores. -/
structure ClassObject where
  bases : List ClassId
  mro : List ClassId
deriving DecidableEq, Repr

/-- The classes made so far, in the order of their creation. -/
structure Hierarchy where
  classes : List ClassObject := []
deriving DecidableEq, Repr

namespace Hierarchy

def size (h : Hierarchy) : Nat := h.classes.length

def bases (h : Hierarchy) (cls : ClassId) : List ClassId :=
  (h.classes.getD cls ⟨[], []⟩).bases

def mro (h : Hierarchy) (cls : ClassId) : List ClassId :=
  (h.classes.getD cls ⟨[], []⟩).mro

def push (h : Hierarchy) (cls : ClassObject) : Hierarchy :=
  ⟨h.classes ++ [cls]⟩

end Hierarchy

/-! ## The merge -/

def appearsInAnyTail (candidate : ClassId)
    (sequences : List (List ClassId)) : Bool :=
  sequences.any fun sequence =>
    if sequence.length ≤ 1 then false
    else (sequence.drop 1).contains candidate

/-- The loop of `find_c3_merge_candidate` over the sequences not yet looked
at; the flag is `has_remaining`. -/
def findFrom (sequences : List (List ClassId)) :
    List (List ClassId) → Bool → Option ClassId × Bool
  | [], hasRemaining => (none, hasRemaining)
  | [] :: rest, hasRemaining => findFrom sequences rest hasRemaining
  | (candidate :: _) :: rest, _ =>
      if appearsInAnyTail candidate sequences then
        findFrom sequences rest true
      else (some candidate, true)

def findC3MergeCandidate (sequences : List (List ClassId)) :
    Option ClassId × Bool :=
  findFrom sequences sequences false

def removeC3MergeCandidate (candidate : ClassId)
    (sequences : List (List ClassId)) : List (List ClassId) :=
  removeFront candidate sequences

theorem mem_tail_of_appearsInAnyTail {candidate : ClassId}
    {sequences : List (List ClassId)} :
    appearsInAnyTail candidate sequences = true ↔
      ∃ s ∈ sequences, candidate ∈ s.tail := by
  rw [appearsInAnyTail, List.any_eq_true]
  refine exists_congr fun s => and_congr_right fun _ => ?_
  match s with
  | [] => simp
  | [_] => simp
  | _ :: _ :: _ => simp

/-- What the search finds among the sequences not yet looked at. -/
theorem findFrom_spec (sequences : List (List ClassId)) :
    ∀ (rest : List (List ClassId)) (flag : Bool),
      (∃ c, findFrom sequences rest flag = (some c, true) ∧
        (∃ s ∈ rest, s.head? = some c) ∧
        appearsInAnyTail c sequences = false) ∨
      ((findFrom sequences rest flag).1 = none ∧
        ((findFrom sequences rest flag).2 = true ↔
          flag = true ∨ ∃ s ∈ rest, s ≠ []) ∧
        ∀ s ∈ rest, ∀ c, s.head? = some c →
          appearsInAnyTail c sequences = true) := by
  intro rest
  induction rest with
  | nil =>
      intro flag
      refine Or.inr ⟨rfl, ?_, nofun⟩
      simp [findFrom]
  | cons s rest ih =>
      intro flag
      cases s with
      | nil =>
          rcases ih flag with ⟨c, hFind, ⟨t, ht, hHead⟩, hTail⟩ |
              ⟨hNone, hFlag, hAll⟩
          · exact Or.inl ⟨c, hFind, ⟨t, List.mem_cons_of_mem _ ht, hHead⟩,
              hTail⟩
          · refine Or.inr ⟨hNone, ?_, ?_⟩
            · rw [findFrom, hFlag]
              simp
            · intro t ht c hHead
              rcases List.mem_cons.mp ht with rfl | hMem
              · cases hHead
              · exact hAll t hMem c hHead
      | cons candidate tail =>
          by_cases hTail : appearsInAnyTail candidate sequences = true
          · simp only [findFrom, if_pos hTail]
            rcases ih true with ⟨c, hFind, ⟨t, ht, hHead⟩, hNot⟩ |
                ⟨hNone, hFlag, hAll⟩
            · exact Or.inl ⟨c, hFind, ⟨t, List.mem_cons_of_mem _ ht, hHead⟩,
                hNot⟩
            · refine Or.inr ⟨hNone, ?_, ?_⟩
              · rw [hFlag]
                simp
              · intro t ht c hHead
                rcases List.mem_cons.mp ht with rfl | hMem
                · rw [← Option.some.inj hHead]
                  exact hTail
                · exact hAll t hMem c hHead
          · refine Or.inl ⟨candidate, ?_, ⟨_, List.mem_cons_self, rfl⟩, ?_⟩
            · rw [findFrom, if_neg hTail]
            · exact Bool.eq_false_iff.mpr hTail

/-- The three outcomes of the search. -/
theorem findC3MergeCandidate_cases (sequences : List (List ClassId)) :
    (findC3MergeCandidate sequences = (none, false) ∧
        ∀ s ∈ sequences, s = []) ∨
      (findC3MergeCandidate sequences = (none, true) ∧
        (∃ s ∈ sequences, s ≠ []) ∧ ∀ c, ¬ Candidate c sequences) ∨
      ∃ c, findC3MergeCandidate sequences = (some c, true) ∧
        Candidate c sequences := by
  rcases findFrom_spec sequences sequences false with
    ⟨c, hFind, hHead, hTail⟩ | ⟨hNone, hFlag, hAll⟩
  · refine Or.inr (Or.inr ⟨c, hFind, hHead, fun s hs hMem => ?_⟩)
    have hAppears := mem_tail_of_appearsInAnyTail.mpr ⟨s, hs, hMem⟩
    rw [hTail] at hAppears
    exact Bool.false_ne_true hAppears
  · rw [← findC3MergeCandidate] at hNone hFlag
    by_cases hLeft : ∃ s ∈ sequences, s ≠ []
    · refine Or.inr (Or.inl ⟨Prod.ext hNone (hFlag.mpr (Or.inr hLeft)), hLeft,
        fun c hCandidate => ?_⟩)
      obtain ⟨s, hs, hHead⟩ := hCandidate.head
      obtain ⟨t, ht, hMem⟩ :=
        mem_tail_of_appearsInAnyTail.mp (hAll s hs c hHead)
      exact hCandidate.tails t ht hMem
    · refine Or.inl ⟨Prod.ext hNone ?_, fun s hs => ?_⟩
      · refine Bool.eq_false_iff.mpr fun hTrue => ?_
        exact hLeft ((hFlag.mp hTrue).resolve_left Bool.false_ne_true)
      · by_contra hne
        exact hLeft ⟨s, hs, hne⟩

def inconsistentMro : BuiltinException :=
  { typeName := "TypeError"
    message := "cannot create a consistent method resolution order" }

/-- The loop of `compute_mro` from the sequences and the classes linearized
so far. -/
def mergeLoop (sequences : List (List ClassId)) (linearized : List ClassId) :
    Except BuiltinException (List ClassId) :=
  match hFind : findC3MergeCandidate sequences with
  | (_, false) => .ok linearized
  | (none, true) => .error inconsistentMro
  | (some candidate, true) =>
      mergeLoop (removeC3MergeCandidate candidate sequences)
        (linearized ++ [candidate])
termination_by remaining sequences
decreasing_by
  rcases findC3MergeCandidate_cases sequences with
    ⟨hNone, -⟩ | ⟨hNone, -⟩ | ⟨c, hSome, hCandidate⟩
  · rw [hFind] at hNone
    cases hNone
  · rw [hFind] at hNone
    cases hNone
  · rw [hFind] at hSome
    cases hSome
    exact remaining_removeFront_lt hCandidate.head

/-- The loop merges the sequences, and raises when they are stuck. -/
theorem mergeLoop_spec (sequences : List (List ClassId)) :
    ∀ linearized : List ClassId,
      (∃ out, Merges sequences out ∧
        mergeLoop sequences linearized = .ok (linearized ++ out)) ∨
      (Stuck sequences ∧
        mergeLoop sequences linearized = .error inconsistentMro) := by
  induction hSize : remaining sequences using Nat.strong_induction_on
    generalizing sequences with
  | _ size ih =>
      intro linearized
      rw [mergeLoop]
      rcases findC3MergeCandidate_cases sequences with
        ⟨hFind, hEmpty⟩ | ⟨hFind, hLeft, hNone⟩ | ⟨c, hFind, hCandidate⟩
      · refine Or.inl ⟨[], .done hEmpty, ?_⟩
        split <;> simp_all
      · refine Or.inr ⟨.here hLeft hNone, ?_⟩
        split <;> simp_all
      · have hLess := remaining_removeFront_lt hCandidate.head
        have hStep : (match hFound : findC3MergeCandidate sequences with
            | (_, false) => Except.ok linearized
            | (none, true) => Except.error inconsistentMro
            | (some candidate, true) =>
                mergeLoop (removeC3MergeCandidate candidate sequences)
                  (linearized ++ [candidate])) =
            mergeLoop (removeFront c sequences) (linearized ++ [c]) := by
          split <;> simp_all [removeC3MergeCandidate]
        rcases ih _ (hSize ▸ hLess) (removeFront c sequences) rfl
          (linearized ++ [c]) with ⟨out, hOut, hRun⟩ | ⟨hStuck, hRun⟩
        · refine Or.inl ⟨c :: out, .take hCandidate hOut, ?_⟩
          rw [hStep, hRun, List.append_assoc]
          rfl
        · exact Or.inr ⟨.take hCandidate hStuck, hStep.trans hRun⟩

/-- The sequences that are merged: the MROs of the bases and the bases. -/
def mroSequences (h : Hierarchy) (bases : List ClassId) :
    List (List ClassId) :=
  bases.map h.mro ++ [bases]

def computeMro (h : Hierarchy) (cls : ClassId) (bases : List ClassId) :
    Except BuiltinException (List ClassId) :=
  mergeLoop (mroSequences h bases) [cls]

/-- An item of the tuple of bases. -/
inductive Item where
  | classObject (cls : ClassId)
  | otherValue
deriving DecidableEq, Repr

def basesNotClasses : BuiltinException :=
  { typeName := "TypeError", message := "class bases must be class objects" }

def duplicateBase : BuiltinException :=
  { typeName := "TypeError", message := "duplicate base class" }

/-- `validate_bases`; the bases seen are the result. -/
def validateBases : List Item → List ClassId →
    Except BuiltinException (List ClassId)
  | [], seenBases => .ok seenBases
  | .otherValue :: _, _ => .error basesNotClasses
  | .classObject base :: items, seenBases =>
      if seenBases.contains base then .error duplicateBase
      else validateBases items (seenBases ++ [base])

/-- `ClassObject::make`: the class is the next one made. -/
def make (h : Hierarchy) (items : List Item) :
    Except BuiltinException Hierarchy :=
  match validateBases items [] with
  | .error e => .error e
  | .ok bases =>
      match computeMro h h.size bases with
      | .error e => .error e
      | .ok mro => .ok (h.push ⟨bases, mro⟩)

/-- The constructor of a class with a single base; none when its assertion
fails. -/
def makeSingleBase (h : Hierarchy) (base : ClassId) : Option Hierarchy :=
  match computeMro h h.size [base] with
  | .error _ => none
  | .ok mro => some (h.push ⟨[base], mro⟩)

/-- The classes come from `make` or a single-base constructor, over classes
made before. -/
inductive Reachable : Hierarchy → Prop
  | empty : Reachable {}
  | make {h h' : Hierarchy} {items : List Item} : Reachable h →
      (∀ cls, .classObject cls ∈ items → cls < h.size) →
      make h items = .ok h' → Reachable h'
  | single {h h' : Hierarchy} {base : ClassId} : Reachable h →
      base < h.size → makeSingleBase h base = some h' → Reachable h'

/-! ## What an MRO is -/

/-- The class names the other as a base. -/
def IsBase (h : Hierarchy) (cls base : ClassId) : Prop := base ∈ h.bases cls

/-- The class is the other one or inherits from it. -/
abbrev Inherits (h : Hierarchy) (cls ancestor : ClassId) : Prop :=
  Relation.ReflTransGen (IsBase h) cls ancestor

/-- An order of a class with these bases and of its ancestors. -/
structure Linear (h : Hierarchy) (cls : ClassId) (bases mro : List ClassId) :
    Prop where
  head : mro.head? = some cls
  nodup : mro.Nodup
  mem_iff : ∀ x, x ∈ mro ↔ x = cls ∨ ∃ b ∈ bases, Inherits h b x
  bases_sublist : bases.Sublist mro
  mro_sublist : ∀ b ∈ bases, (h.mro b).Sublist mro

/-- What holds of every class that was made. -/
structure WellFormed (h : Hierarchy) : Prop where
  bases_lt : ∀ cls < h.size, ∀ b ∈ h.bases cls, b < cls
  linear : ∀ cls < h.size, Linear h cls (h.bases cls) (h.mro cls)

theorem Inherits.le {h : Hierarchy} (hw : WellFormed h) {cls x : ClassId}
    (hr : Inherits h cls x) (hcls : cls < h.size) : x ≤ cls := by
  induction hr with
  | refl => exact le_refl _
  | @tail y z hPath hBase ih =>
      have hLess := hw.bases_lt y (lt_of_le_of_lt ih hcls) z hBase
      exact hLess.le.trans ih

/-- The MRO of a class that was made lists what it inherits from. -/
theorem WellFormed.mem_mro_iff {h : Hierarchy} (hw : WellFormed h)
    {cls : ClassId} (hcls : cls < h.size) (x : ClassId) :
    x ∈ h.mro cls ↔ Inherits h cls x := by
  rw [(hw.linear cls hcls).mem_iff]
  constructor
  · rintro (rfl | ⟨b, hb, hPath⟩)
    · exact .refl
    · exact hPath.head hb
  · intro hPath
    rcases Relation.ReflTransGen.cases_head hPath with rfl | ⟨b, hb, hRest⟩
    · exact Or.inl rfl
    · exact Or.inr ⟨b, hb, hRest⟩

section NewClass

variable {h : Hierarchy} (hw : WellFormed h) {bases : List ClassId}
  (hBases : ∀ b ∈ bases, b < h.size)

include hw hBases

/-- An order of the sequences, with the class before it, is an MRO. -/
theorem linear_of_orders {out : List ClassId}
    (hOut : Orders out (mroSequences h bases)) :
    Linear h h.size bases (h.size :: out) := by
  have hMro : ∀ b ∈ bases, (h.mro b).Sublist out := fun b hb =>
    hOut.sublist _ (List.mem_append_left _ (List.mem_map_of_mem hb))
  have hList : bases.Sublist out :=
    hOut.sublist _ (List.mem_append_right _ (List.mem_singleton.mpr rfl))
  have hMem : ∀ x, x ∈ out ↔ ∃ b ∈ bases, Inherits h b x := by
    intro x
    constructor
    · intro hx
      obtain ⟨s, hs, hxs⟩ := hOut.mem x hx
      rcases List.mem_append.mp hs with hMap | hSelf
      · obtain ⟨b, hb, rfl⟩ := List.mem_map.mp hMap
        exact ⟨b, hb, (hw.mem_mro_iff (hBases b hb) x).mp hxs⟩
      · rw [List.mem_singleton.mp hSelf] at hxs
        exact ⟨x, hxs, .refl⟩
    · rintro ⟨b, hb, hPath⟩
      exact (hMro b hb).subset ((hw.mem_mro_iff (hBases b hb) x).mpr hPath)
  have hFresh : h.size ∉ out := by
    intro hSelf
    obtain ⟨b, hb, hPath⟩ := (hMem _).mp hSelf
    have hLess := hPath.le hw (hBases b hb)
    exact absurd (hBases b hb) (Nat.not_lt.mpr hLess)
  refine
    { head := rfl
      nodup := List.nodup_cons.mpr ⟨hFresh, hOut.nodup⟩
      mem_iff := fun x => ?_
      bases_sublist := hList.cons _
      mro_sublist := fun b hb => (hMro b hb).cons _ }
  rw [List.mem_cons, hMem]

/-- An MRO is an order of the sequences behind the class. -/
theorem orders_of_linear {mro : List ClassId}
    (hMro : Linear h h.size bases mro) :
    Orders mro.tail (mroSequences h bases) := by
  obtain ⟨out, rfl⟩ : ∃ out, mro = h.size :: out := by
    cases mro with
    | nil => exact absurd hMro.head nofun
    | cons x out => exact ⟨out, by rw [Option.some.inj hMro.head]⟩
  have hNodup := List.nodup_cons.mp hMro.nodup
  -- no sequence has the new class, so each is a part of what follows it
  have hDrop : ∀ s : List ClassId, (∀ x ∈ s, x < h.size) →
      s.Sublist (h.size :: out) → s.Sublist out := by
    intro s hLess hSub
    cases hSub with
    | cons _ hRest => exact hRest
    | cons_cons _ hRest =>
        exact absurd (hLess _ List.mem_cons_self) (Nat.lt_irrefl _)
  refine ⟨hNodup.2, fun s hs => ?_, fun x hx => ?_⟩
  · rcases List.mem_append.mp hs with hMap | hSelf
    · obtain ⟨b, hb, rfl⟩ := List.mem_map.mp hMap
      refine hDrop _ (fun x hx => ?_) (hMro.mro_sublist b hb)
      have hPath := (hw.mem_mro_iff (hBases b hb) x).mp hx
      exact lt_of_le_of_lt (hPath.le hw (hBases b hb)) (hBases b hb)
    · rw [List.mem_singleton.mp hSelf]
      exact hDrop _ hBases hMro.bases_sublist
  · have hMem := (hMro.mem_iff x).mp (List.mem_cons_of_mem _ hx)
    rcases hMem with rfl | ⟨b, hb, hPath⟩
    · exact absurd hx hNodup.1
    · exact ⟨h.mro b, List.mem_append_left _ (List.mem_map_of_mem hb),
        (hw.mem_mro_iff (hBases b hb) x).mpr hPath⟩

/-- The merge is stuck exactly when the class has no MRO. -/
theorem stuck_iff_not_linear :
    Stuck (mroSequences h bases) ↔ ∀ mro, ¬ Linear h h.size bases mro := by
  rw [stuck_iff_not_orders]
  constructor
  · intro hNone mro hMro
    exact hNone _ (orders_of_linear hw hBases hMro)
  · intro hNone out hOut
    exact hNone _ (linear_of_orders hw hBases hOut)

/-- The MRO of a new class, or the error. -/
theorem computeMro_spec :
    (∃ mro, computeMro h h.size bases = .ok mro ∧
      Linear h h.size bases mro) ∨
    (computeMro h h.size bases = .error inconsistentMro ∧
      Stuck (mroSequences h bases)) := by
  rcases mergeLoop_spec (mroSequences h bases) [h.size] with
    ⟨out, hOut, hRun⟩ | ⟨hStuck, hRun⟩
  · exact Or.inl ⟨h.size :: out, hRun, linear_of_orders hw hBases hOut.orders⟩
  · exact Or.inr ⟨hRun, hStuck⟩

end NewClass

/-! ## Every class that was made -/

section Push

variable {h : Hierarchy} {c : ClassObject}

theorem size_push : (h.push c).size = h.size + 1 := by
  simp [Hierarchy.push, Hierarchy.size]

theorem getD_push_of_lt {cls : ClassId} (hcls : cls < h.size) :
    (h.push c).classes.getD cls ⟨[], []⟩ = h.classes.getD cls ⟨[], []⟩ := by
  rw [List.getD_eq_getElem?_getD, List.getD_eq_getElem?_getD, Hierarchy.push,
    List.getElem?_append_left hcls]

theorem bases_push_of_lt {cls : ClassId} (hcls : cls < h.size) :
    (h.push c).bases cls = h.bases cls := by
  rw [Hierarchy.bases, Hierarchy.bases, getD_push_of_lt hcls]

theorem mro_push_of_lt {cls : ClassId} (hcls : cls < h.size) :
    (h.push c).mro cls = h.mro cls := by
  rw [Hierarchy.mro, Hierarchy.mro, getD_push_of_lt hcls]

theorem bases_push_self : (h.push c).bases h.size = c.bases := by
  simp [Hierarchy.bases, Hierarchy.push, Hierarchy.size]

theorem mro_push_self : (h.push c).mro h.size = c.mro := by
  simp [Hierarchy.mro, Hierarchy.push, Hierarchy.size]

/-- What a class inherits from does not change when another is made. -/
theorem inherits_push_iff (hw : WellFormed h) {cls x : ClassId}
    (hcls : cls < h.size) : Inherits (h.push c) cls x ↔ Inherits h cls x := by
  constructor
  · intro hPath
    induction hPath with
    | refl => exact .refl
    | @tail y z hPath hBase ih =>
        have hy := lt_of_le_of_lt (ih.le hw hcls) hcls
        rw [IsBase, bases_push_of_lt hy] at hBase
        exact ih.tail hBase
  · intro hPath
    induction hPath with
    | refl => exact .refl
    | @tail y z hPath hBase ih =>
        have hy := lt_of_le_of_lt (Inherits.le hw hPath hcls) hcls
        refine ih.tail ?_
        rwa [IsBase, bases_push_of_lt hy]

/-- An MRO over classes made before stays one. -/
theorem Linear.push (hw : WellFormed h) {cls : ClassId}
    {bases mro : List ClassId} (hBases : ∀ b ∈ bases, b < h.size)
    (hMro : Linear h cls bases mro) : Linear (h.push c) cls bases mro := by
  refine
    { head := hMro.head
      nodup := hMro.nodup
      mem_iff := fun x => ?_
      bases_sublist := hMro.bases_sublist
      mro_sublist := fun b hb => ?_ }
  · rw [hMro.mem_iff]
    refine or_congr_right (exists_congr fun b => and_congr_right fun hb => ?_)
    exact (inherits_push_iff hw (hBases b hb)).symm
  · rw [mro_push_of_lt (hBases b hb)]
    exact hMro.mro_sublist b hb

theorem WellFormed.push (hw : WellFormed h) {bases mro : List ClassId}
    (hBases : ∀ b ∈ bases, b < h.size) (hMro : Linear h h.size bases mro) :
    WellFormed (h.push ⟨bases, mro⟩) := by
  constructor
  · intro cls hcls b hb
    rw [size_push] at hcls
    rcases Nat.lt_succ_iff_lt_or_eq.mp hcls with hOld | rfl
    · rw [bases_push_of_lt hOld] at hb
      exact hw.bases_lt cls hOld b hb
    · rw [bases_push_self] at hb
      exact hBases b hb
  · intro cls hcls
    rw [size_push] at hcls
    rcases Nat.lt_succ_iff_lt_or_eq.mp hcls with hOld | rfl
    · rw [bases_push_of_lt hOld, mro_push_of_lt hOld]
      exact (hw.linear cls hOld).push hw fun b hb =>
        (hw.bases_lt cls hOld b hb).trans hOld
    · rw [bases_push_self, mro_push_self]
      exact hMro.push hw hBases

end Push

/-- The bases that pass validation are those of the tuple. -/
theorem validateBases_spec (items : List Item) :
    ∀ seenBases bases, validateBases items seenBases = .ok bases →
      ∀ b ∈ bases, b ∈ seenBases ∨ .classObject b ∈ items := by
  induction items with
  | nil =>
      intro seenBases bases hRun b hb
      rw [validateBases, Except.ok.injEq] at hRun
      exact Or.inl (hRun ▸ hb)
  | cons item items ih =>
      intro seenBases bases hRun b hb
      cases item with
      | otherValue => cases hRun
      | classObject base =>
          rw [validateBases] at hRun
          split at hRun
          · cases hRun
          · rcases ih _ _ hRun b hb with hSeen | hItem
            · rcases List.mem_append.mp hSeen with hOld | hNew
              · exact Or.inl hOld
              · rw [List.mem_singleton.mp hNew]
                exact Or.inr List.mem_cons_self
            · exact Or.inr (List.mem_cons_of_mem _ hItem)

theorem Reachable.wellFormed {h : Hierarchy} (hr : Reachable h) :
    WellFormed h := by
  induction hr with
  | empty => exact ⟨nofun, nofun⟩
  | @make h h' items _ hItems hMake ih =>
      rw [MethodResolution.make] at hMake
      split at hMake
      · cases hMake
      · rename_i bases hValid
        have hBases : ∀ b ∈ bases, b < h.size := by
          intro b hb
          rcases validateBases_spec items _ _ hValid b hb with hSeen | hItem
          · cases hSeen
          · exact hItems b hItem
        rcases computeMro_spec ih hBases with
          ⟨mro, hRun, hMro⟩ | ⟨hRun, -⟩
        · rw [hRun] at hMake
          cases hMake
          exact ih.push hBases hMro
        · rw [hRun] at hMake
          cases hMake
  | @single h h' base _ hBase hMake ih =>
      have hBases : ∀ b ∈ [base], b < h.size := by
        intro b hb
        rwa [List.mem_singleton.mp hb]
      rw [makeSingleBase] at hMake
      rcases computeMro_spec ih hBases with ⟨mro, hRun, hMro⟩ | ⟨hRun, -⟩
      · rw [hRun] at hMake
        cases hMake
        exact ih.push hBases hMro
      · rw [hRun] at hMake
        cases hMake

/-- A class with one base always has an MRO, as the constructor asserts. -/
theorem makeSingleBase_eq_some {h : Hierarchy} (hw : WellFormed h)
    {base : ClassId} (hBase : base < h.size) :
    ∃ h', makeSingleBase h base = some h' := by
  have hBases : ∀ b ∈ [base], b < h.size := by
    intro b hb
    rwa [List.mem_singleton.mp hb]
  have hMro := hw.linear base hBase
  -- the MRO of the base is an order of the two sequences
  have hOrders : Orders (h.mro base) (mroSequences h [base]) := by
    refine ⟨hMro.nodup, fun s hs => ?_, fun x hx => ?_⟩
    · rcases List.mem_append.mp hs with hMap | hSelf
      · rw [List.map_singleton, List.mem_singleton] at hMap
        exact hMap ▸ List.Sublist.refl _
      · rw [List.mem_singleton.mp hSelf, List.singleton_sublist]
        exact (hw.mem_mro_iff hBase base).mpr .refl
    · exact ⟨h.mro base, List.mem_append_left _ (List.mem_singleton.mpr rfl),
        hx⟩
  rcases computeMro_spec hw hBases with ⟨mro, hRun, -⟩ | ⟨-, hStuck⟩
  · rw [makeSingleBase, hRun]
    exact ⟨_, rfl⟩
  · exact absurd hOrders (hStuck.not_orders _)

/-- Every class that was made has a C3 linearization as its MRO, a class with
one base can be made, and for any bases the MRO of the next class is such a
linearization, or the merge is stuck and the error is raised, which is when
there is none. -/
theorem compute_mro_c3 {h : Hierarchy} (hr : Reachable h) :
    (∀ cls < h.size, Linear h cls (h.bases cls) (h.mro cls)) ∧
      (∀ base < h.size, ∃ h', makeSingleBase h base = some h') ∧
      ∀ bases : List ClassId, (∀ b ∈ bases, b < h.size) →
        ((∃ mro, computeMro h h.size bases = .ok mro) ∨
          computeMro h h.size bases = .error inconsistentMro) ∧
        (∀ mro, computeMro h h.size bases = .ok mro →
          Linear h h.size bases mro) ∧
        (computeMro h h.size bases = .error inconsistentMro ↔
          Stuck (mroSequences h bases)) ∧
        (Stuck (mroSequences h bases) ↔
          ∀ mro, ¬ Linear h h.size bases mro) := by
  have hw := hr.wellFormed
  refine ⟨hw.linear, fun base => makeSingleBase_eq_some hw,
    fun bases hBases => ?_⟩
  have hStuckIff := stuck_iff_not_linear hw hBases
  rcases computeMro_spec hw hBases with ⟨mro, hRun, hMro⟩ | ⟨hRun, hStuck⟩
  · refine ⟨Or.inl ⟨mro, hRun⟩, fun mro' hRun' => ?_, ?_, hStuckIff⟩
    · rw [hRun] at hRun'
      cases hRun'
      exact hMro
    · constructor
      · intro hError
        rw [hRun] at hError
        cases hError
      · intro hStuck
        exact absurd hMro (hStuckIff.mp hStuck mro)
  · refine ⟨Or.inr hRun, fun mro' hRun' => ?_, ⟨fun _ => hStuck, fun _ => hRun⟩,
      hStuckIff⟩
    rw [hRun] at hRun'
    cases hRun'

/-- A root, two classes with it as their base, and a class over the two. -/
def diamond : Hierarchy :=
  { classes :=
      [⟨[], [0]⟩, ⟨[0], [1, 0]⟩, ⟨[0], [2, 0]⟩, ⟨[1, 2], [3, 1, 2, 0]⟩] }

theorem reachable_diamond : Reachable diamond := by
  have hRootMake : make {} [] = .ok ⟨[⟨[], [0]⟩]⟩ := by decide +kernel
  have hRoot : Reachable ⟨[⟨[], [0]⟩]⟩ := by
    refine .make .empty (fun cls hItem => ?_) hRootMake
    exact absurd hItem List.not_mem_nil
  have hLeft : Reachable ⟨[⟨[], [0]⟩, ⟨[0], [1, 0]⟩]⟩ := by
    refine .single hRoot (show 0 < 1 by decide) ?_
    decide +kernel
  have hRight : Reachable ⟨[⟨[], [0]⟩, ⟨[0], [1, 0]⟩, ⟨[0], [2, 0]⟩]⟩ := by
    refine .single hLeft (show 0 < 2 by decide) ?_
    decide +kernel
  have hMake : make ⟨[⟨[], [0]⟩, ⟨[0], [1, 0]⟩, ⟨[0], [2, 0]⟩]⟩
      [.classObject 1, .classObject 2] = .ok diamond := by decide +kernel
  refine .make hRight (fun cls hItem => ?_) hMake
  simp only [List.mem_cons, Item.classObject.injEq, List.not_mem_nil,
    or_false] at hItem
  rcases hItem with rfl | rfl <;> decide

/-- Crossing the order of the two bases under the diamond is an error. -/
theorem compute_mro_c3_at_diamond :
    Linear diamond 3 [1, 2] [3, 1, 2, 0] ∧
      computeMro diamond 4 [3, 2, 1] = .error inconsistentMro ∧
      ∀ mro, ¬ Linear diamond 4 [3, 2, 1] mro := by
  obtain ⟨hLinear, -, hNext⟩ := compute_mro_c3 reachable_diamond
  obtain ⟨-, -, hError, hNone⟩ := hNext [3, 2, 1] (by decide)
  have hRun : computeMro diamond 4 [3, 2, 1] = .error inconsistentMro := by
    decide +kernel
  exact ⟨hLinear 3 (by decide), hRun, hNone.mp (hError.mp hRun)⟩

end CloverVM.ObjectModel.MethodResolution
