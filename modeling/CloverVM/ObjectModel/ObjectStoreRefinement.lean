import CloverVM.ObjectModel.ObjectStoreEffects

/-!
# Objects refine ordered maps

A run of the operations is the run of the store that has a record for each
object, with the same answers and the same failures, and the shapes and the
storage stay well formed through it.
-/

namespace CloverVM.ObjectModel.ObjectStore

open CloverVM.Collections
open CloverVM.ObjectModel
open CloverVM.ObjectModel.ShapeTable

variable {V : Type}

/-! ## Reading -/

section NewObject

variable {s : Shapes V} {kind : RootKind} {root : Nat}
  {layout : NativeLayout} (values : String → Option V)

end NewObject

/-! ## Steps -/

/-- What any operation keeps. -/
structure Continues (w w' : World V) : Prop where
  wellFormed : WellFormed w'
  shapes : Extends w.shapes w'.shapes
  objectCount : w.objectCount ≤ w'.objectCount
  stable : ∀ o, o < w.objectCount → ∀ name info,
    ((w.shapeOf o).lookupDescriptorIncludingLatent name).info? = some info →
    info.flags.stableSlot = true →
    ((w'.shapeOf o).lookupDescriptorIncludingLatent name).info? = some info

theorem Continues.refl {w : World V} (hw : WellFormed w) : Continues w w :=
  ⟨hw, Extends.refl _, Nat.le_refl _, fun _ _ _ _ hInfo _ => hInfo⟩

theorem Continues.trans {w w' w'' : World V} (h : Continues w w')
    (h' : Continues w' w'') : Continues w w'' where
  wellFormed := h'.wellFormed
  shapes := h.shapes.trans h'.shapes
  objectCount := h.objectCount.trans h'.objectCount
  stable o ho name info hInfo hStable :=
    h'.stable o (ho.trans_le h.objectCount) name info
      (h.stable o ho name info hInfo hStable) hStable

/-- The world does what its store does: it fails as the store fails, or
returns the same and goes on to a world of the next store. -/
def Follows {α : Type} (next : World V → Prop)
    (result : Except Failure (α × World V)) :
    Except Failure (α × Store V) → Prop
  | .error f => result = .error f
  | .ok (a, s) => ∃ w', result = .ok (a, w') ∧ storeOf w' = s ∧ next w'

section Run

variable {instanceNativeLayoutId : V → Option NativeLayout}

/-- A step goes on, and leaves the objects that it is not about. -/
structure Steps (w : World V) (op : Operation V) (w' : World V) : Prop where
  continues : Continues w w'
  others : ∀ o, o < w.objectCount → (∀ a, op ≠ .on o a) →
    recordOf w' o = recordOf w o

/-- The slot that a new property is about to be written to. -/
structure AboutToWrite (w w' : World V) (o : Nat) (name : String)
    (loc : StorageLocation) : Prop where
  absent : ((w.shapeOf o).lookupPresentDescriptor name).isSome = false
  allowed : (w.shapeOf o).disallowAttributeAddDelete = false
  transition : ∃ flags next shapes,
    w.shapes.deriveTransition (w.objects o).shape name .add flags =
      .ok (next, shapes) ∧
    setShape { w with shapes } o next = .ok w' ∧
    (w'.shapes.get next).shape.resolvePresentProperty name = some loc

theorem AboutToWrite.empty {w w' : World V} (hw : WellFormed w) {o : Nat}
    (ho : o < w.objectCount) {name : String} {loc : StorageLocation}
    (h : AboutToWrite w w' o name loc) : (w'.storage o).get loc = none := by
  have hLt := (hw.objects o ho).shape_lt
  have hNew := not_present_of_none (Option.not_isSome_iff_eq_none.mp
    (Bool.eq_false_iff.mp h.absent))
  obtain ⟨flags, next, shapes, hDerive, hSet, hLocation⟩ := h.transition
  rcases hw.shapes.deriveAdd hLt flags hNew h.allowed with
    ⟨-, hError⟩ | ⟨-, next', s', hRun, hDerived⟩
  · cases hDerive.symm.trans hError
  · obtain ⟨rfl, rfl⟩ := Prod.mk.inj
      (Except.ok.inj (hDerive.symm.trans hRun))
    by_cases hSlots : ((w.shapeOf o).withAdded name flags).nextSlotIndex ≤
        (w.shapeOf o).inlineSlotCapacity + overflowSlotMax
    · cases hGet : (w'.storage o).get loc with
      | none => rfl
      | some value =>
          obtain ⟨loc', w₁, w₂, hSet', hResolve, hEmpty, -⟩ :=
            insert_outcome hw ho hNew h.allowed hSlots hDerived value
          obtain rfl := Except.ok.inj (hSet.symm.trans hSet')
          obtain rfl := Option.some.inj (hLocation.symm.trans hResolve)
          exact hGet.symm.trans hEmpty
    · have hError := setShape_full hw ho hDerived
        (hw.shapes.mutable hLt h.allowed) (Nat.lt_of_not_le hSlots)
      cases hSet.symm.trans hError

/-- No class and no object yet. -/
structure World.Empty (w : World V) : Prop where
  shapes : w.shapes.count = 0
  classes : w.classes = []
  objects : w.objectCount = 0

theorem World.Empty.wellFormed {w : World V} (h : w.Empty) : WellFormed w := by
  have hNoShape : ∀ i, ¬ i < w.shapes.count := by
    rw [h.shapes]
    exact Nat.not_lt_zero
  refine ⟨⟨⟨?_, ?_⟩, ?_, ?_⟩, ?_, ?_⟩
  · exact fun i hi => absurd hi (hNoShape i)
  · exact fun i hi => absurd hi (hNoShape i)
  · exact fun i hi => absurd hi (hNoShape i)
  · exact fun i hi => absurd hi (hNoShape i)
  · rw [h.classes]
    exact nofun
  · rw [h.objects]
    exact fun o ho => absurd ho (Nat.not_lt_zero o)

end Run

section Rounds

variable {instanceNativeLayoutId : V → Option NativeLayout}

/-- Storing under a name and deleting it, over and over. -/
def rounds (o : Nat) (name : String) (value : V) :
    Nat → List (Operation V) → List (Operation V)
  | 0, ops => ops
  | n + 1, ops =>
      .on o (.set name value) :: .on o (.delete name) ::
        rounds o name value n ops

/-- A name that an object does not have and may get. -/
structure Record.Lacks (r : Record V) (name : String) : Prop where
  properties : r.properties.holds (· == ·) name = false
  attributes : r.attributes name = none
  allowed : r.disallowAttributeAddDelete = false

theorem Record.Lacks.assignment {r : Record V} {name : String}
    (h : r.Lacks name) (value : V) :
    r.assignment instanceNativeLayoutId name value =
      .insert name value {} := by
  have hAbsent : r.present name = none := by
    rw [Record.present, h.properties]
    rfl
  rw [Record.assignment, hAbsent, Record.insertion, hAbsent, h.allowed]
  rfl

/-- One round uses a slot and leaves nothing else. -/
theorem Record.Lacks.round {r : Record V} {name : String} (h : r.Lacks name)
    (value : V) :
    (r.after (.insert name value {})).deletion name = .erase name ∧
      ((r.after (.insert name value {})).after (.erase name)).Lacks name := by
  have hAttributes : (r.after (.insert name value {})).attributes name =
      some {} := by
    show Function.update r.attributes name _ name = _
    rw [Function.update_self, h.attributes]
    rfl
  have hHolds : (r.after (.insert name value {})).properties.holds
      (· == ·) name = true := by
    show OrderedMap.holds (· == ·) (r.properties ++ [(name, some value)]) name =
      true
    rw [OrderedMap.holds, List.any_append]
    simp
  refine ⟨?_, ?_, ?_, h.allowed⟩
  · rw [Record.deletion, Record.present, if_pos hHolds, hAttributes]
    refine if_neg ?_
    rintro (hNot | hNot)
    · cases h.allowed.symm.trans hNot
    · exact hNot rfl
  · show OrderedMap.holds (· == ·) (OrderedMap.erase (· == ·) _ name) name =
      false
    rw [OrderedMap.holds, OrderedMap.erase, List.any_filter]
    simp
  · generalize r.after (.insert name value {}) = r₁ at hAttributes ⊢
    rw [Record.after]
    simp only [hAttributes]
    exact Function.update_self ..

theorem Record.Lacks.failure {r : Record V} {name : String} (h : r.Lacks name)
    (value : V) :
    r.failure (.insert name value {}) =
      if r.slotCount < r.inlineSlotCapacity + overflowSlotMax then none
      else some (.assertion .overflowCapacityFits) := by
  rw [Record.failure, h.attributes]
  rfl

namespace Store

end Store

end Rounds

end CloverVM.ObjectModel.ObjectStore
