import CloverVM.ObjectModel.ObjectStoreInvariant
import CloverVM.ObjectModel.ObjectStoreSpec

/-!
# The effects of attribute operations

An operation on the attributes of an object has the effect that its record
answers, on the shape and the values of that object, and on no other object.
It fails an assertion exactly when the record says so.
-/

namespace CloverVM.ObjectModel.ObjectStore

open CloverVM.Collections
open CloverVM.ObjectModel
open CloverVM.ObjectModel.ShapeTable
open CloverVM.Runtime

variable {V : Type}

namespace Effect

/-- The shapes before and after: an insertion is of a new name, a write or an
erasure of a present one. -/
def Leads (s s' : Shape) : Effect V → Prop
  | nothing => s' = s
  | insert name _ flags =>
      (∀ info, s.lookupDescriptorIncludingLatent name ≠ .present info) ∧
        s' = s.withAdded name flags
  | write name _ =>
      (∃ info, s.lookupDescriptorIncludingLatent name = .present info) ∧ s' = s
  | erase name => ∃ info,
      s.lookupDescriptorIncludingLatent name = .present info ∧
        s' = s.withDeleted name info
  | clone => ∃ object, s' = s.cloneWithClass object

def values (values : String → Option V) : Effect V → String → Option V
  | nothing => values
  | insert name value _ => Function.update values name (some value)
  | write name value => Function.update values name (some value)
  | erase name => Function.update values name none
  | clone => values

end Effect

/-- The effect on one object, and on no other. -/
structure Outcome (w w' : World V) (o : Nat) (e : Effect V) : Prop where
  wellFormed : WellFormed w'
  shapes : Extends w.shapes w'.shapes
  classes : w'.classes = w.classes
  objectCount : w'.objectCount = w.objectCount
  others : ∀ v, v ≠ o → w'.objects v = w.objects v
  nativeLayout : (w'.objects o).nativeLayout = (w.objects o).nativeLayout
  isImmutable : (w'.shapes.get (w'.objects o).shape).isImmutable =
    (w.shapes.get (w.objects o).shape).isImmutable
  leads : e.Leads (w.shapeOf o) (w'.shapeOf o)
  ownValue : ∀ k, ownValue w' o k = e.values (ownValue w o) k

/-- An operation has the effect, or fails the assertion that the effect
fails. -/
def Performs (w : World V) (o : Nat) (e : Effect V)
    (result : Except Failure (Bool × World V)) : Prop :=
  match (recordOf w o).failure e with
  | some f => result = .error f
  | none => ∃ w', result = .ok (e.succeeds, w') ∧ Outcome w w' o e

theorem Performs.unchanged {w : World V} (hw : WellFormed w) (o : Nat) :
    Performs w o .nothing (.ok (false, w)) :=
  ⟨w, rfl, hw, Extends.refl _, rfl, rfl, fun _ _ => rfl, rfl, rfl, rfl,
    fun _ => rfl⟩

theorem not_present_of_none {s : Shape} {name : String}
    (h : s.lookupPresentDescriptor name = none) (info : DescriptorInfo) :
    s.lookupDescriptorIncludingLatent name ≠ .present info := by
  rw [Shape.lookupPresentDescriptor] at h
  rw [Shape.lookupDescriptorIncludingLatent, h]
  cases s.latent.lookup name <;> simp

section Outcomes

variable {w : World V} {o : Nat} {s' : Shapes V} {next : Nat} {shape : Shape}

theorem setObject_setObject (w : World V) (o : Nat) (a b : Object V) :
    (w.setObject o a).setObject o b = w.setObject o b := by
  rw [World.setObject, World.setObject, World.setObject]
  simp only [Function.update_idem]

theorem storage_moved {st : SlotObject V} (n : Nat)
    (h : st.shape = (s'.get next).shape) :
    (({ w with shapes := s' } : World V).setObject o
      ((w.objects o).moved st next n)).storage o = st := by
  rw [World.storage, World.shapeOf, World.setObject]
  simp only [Function.update_self]
  show { st with shape := (s'.get next).shape } = st
  rw [← h]

/-- The object that an operation leaves is well formed, under a shape that was
derived from its own. -/
theorem outcome_moved (hw : WellFormed w) (ho : o < w.objectCount)
    (h : Derives w.shapes (w.objects o).shape s' next shape)
    {st : SlotObject V} (hShape : st.shape = shape) (hStorage : st.WellFormed)
    (hCapacity : shape.inlineSlotCapacity = (w.shapeOf o).inlineSlotCapacity)
    {n : Nat} (hLe : (w.objects o).initializedSlotCount ≤ n)
    (hBound : n ≤ (w.objects o).inlineSlotCapacity)
    (hInitialized : ∀ name loc,
      (shape.lookupDescriptorIncludingLatent name).location? = some loc →
        loc.kind = .inline → loc.physicalIdx < n)
    {e : Effect V} (hLeads : e.Leads (w.shapeOf o) shape)
    (hValues : ∀ k, st.ownValue k = e.values (ownValue w o) k) :
    Outcome w (({ w with shapes := s' } : World V).setObject o
      ((w.objects o).moved st next n)) o e := by
  have hSt : st.shape = (s'.get next).shape := hShape.trans h.shape.symm
  have hObject : (({ w with shapes := s' } : World V).setObject o
      ((w.objects o).moved st next n)).objects o =
        (w.objects o).moved st next n := Function.update_self ..
  refine
    { wellFormed := hw.setObject h.wellFormed h.shapes o
        ((hw.objects o ho).moved h.lt hSt hStorage ?_ hLe hBound ?_)
      shapes := h.shapes
      classes := rfl
      objectCount := rfl
      others := fun v hv => Function.update_of_ne hv ..
      nativeLayout := by rw [hObject]; rfl
      isImmutable := by rw [hObject]; exact h.isImmutable
      leads := ?_
      ownValue := fun k => ?_ }
  · rw [hShape]
    exact hCapacity
  · rw [hShape]
    exact hInitialized
  · have hMoved := congrArg SlotObject.shape (@storage_moved V w o s' next st n hSt)
    rw [show World.shapeOf _ o = shape from hMoved.trans hShape]
    exact hLeads
  · rw [ownValue, storage_moved n hSt]
    exact hValues k

/-- The change to a shape that was derived is that of the slots. -/
theorem setShape_derived (hw : WellFormed w) (ho : o < w.objectCount)
    (h : Derives w.shapes (w.objects o).shape s' next shape)
    (hMutable : (w.shapes.get (w.objects o).shape).isImmutable = false) :
    setShape { w with shapes := s' } o next =
      (lift ((w.storage o).setShape shape)).map fun st =>
        ({ w with shapes := s' } : World V).setObject o
          ((w.objects o).moved st next
            (w.objects o).initializedSlotCount) := by
  have hLt := (hw.objects o ho).shape_lt
  rw [setShape_eq ((h.shapes.isImmutable _ hLt).trans hMutable), ← h.shape]
  rfl

theorem setShape_full (hw : WellFormed w) (ho : o < w.objectCount)
    (h : Derives w.shapes (w.objects o).shape s' next shape)
    (hMutable : (w.shapes.get (w.objects o).shape).isImmutable = false)
    (hMany : shape.inlineSlotCapacity + overflowSlotMax <
      shape.nextSlotIndex) :
    setShape { w with shapes := s' } o next =
      .error (.assertion .overflowCapacityFits) :=
  (setShape_derived hw ho h hMutable).trans
    (congrArg (fun r => (lift r).map _)
      (setShape_of_many (hw.objects o ho).storage hMany))

theorem setShape_moved (hw : WellFormed w) (ho : o < w.objectCount)
    (h : Derives w.shapes (w.objects o).shape s' next shape)
    (hMutable : (w.shapes.get (w.objects o).shape).isImmutable = false)
    {st : SlotObject V} (hSet : (w.storage o).setShape shape = .ok st) :
    setShape { w with shapes := s' } o next =
      .ok (({ w with shapes := s' } : World V).setObject o
        ((w.objects o).moved st next (w.objects o).initializedSlotCount)) :=
  (setShape_derived hw ho h hMutable).trans
    (congrArg (fun r => (lift r).map _) hSet)

/-- A change of shape leaves the slots as they were. -/
theorem slots_of_setShape {x y : SlotObject V} (hx : x.WellFormed)
    (hSlots : shape.nextSlotIndex ≤ shape.inlineSlotCapacity + overflowSlotMax)
    (hRun : x.setShape shape = .ok y) :
    y.shape = shape ∧ ∀ loc, y.get loc = x.get loc := by
  obtain ⟨y', hSet, hShape, hGet, -⟩ :=
    @SlotObject.WellFormed.setShape V x hx shape hSlots
  rw [Except.ok.inj (hRun.symm.trans hSet)]
  exact ⟨hShape, hGet⟩

end Outcomes

/-! ## Adding -/

section Insert

variable {w : World V} {o : Nat} {name : String} {flags : DescriptorFlags}

/-- The value of a property that is added is written to an empty slot. -/
theorem insert_outcome (hw : WellFormed w) (ho : o < w.objectCount)
    (hNew : ∀ info, (w.shapeOf o).lookupDescriptorIncludingLatent name ≠
      .present info)
    (hAllowed : (w.shapeOf o).disallowAttributeAddDelete = false)
    (hSlots : ((w.shapeOf o).withAdded name flags).nextSlotIndex ≤
      (w.shapeOf o).inlineSlotCapacity + overflowSlotMax)
    {next : Nat} {s' : Shapes V}
    (h : Derives w.shapes (w.objects o).shape s' next
      ((w.shapeOf o).withAdded name flags)) (value : V) :
    ∃ loc w₁ w₂, setShape { w with shapes := s' } o next = .ok w₁ ∧
      (w₁.shapes.get next).shape.resolvePresentProperty name = some loc ∧
      (w₁.storage o).get loc = none ∧
      writeEmptyStorageLocation w₁ o loc value = .ok w₂ ∧
      Outcome w w₂ o (.insert name value flags) := by
  have hObject := hw.objects o ho
  have hLt := hObject.shape_lt
  -- the descriptor of the name leads to a slot
  obtain ⟨loc, hLoc⟩ :
      ∃ loc, ((w.shapeOf o).insertedInfo name flags).storageLocation =
        some loc := by
    refine Option.isSome_iff_exists.mp ?_
    rw [Shape.insertedInfo]
    cases hFound : (w.shapeOf o).lookupDescriptorIncludingLatent name with
    | present info => exact absurd hFound (hNew info)
    | absent => rfl
    | latent info => exact (hw.shapes.specialSlots _ hLt).latent name info hFound
  have hAdd := @SlotObject.WellFormed.add V _ hObject.storage name flags loc
    value hNew hLoc hSlots
  obtain ⟨st, st', hSet, hWrite, hWf, hShape, hValues⟩ := hAdd
  obtain ⟨hStShape, hGet⟩ := slots_of_setShape hObject.storage hSlots hSet
  let object := (w.objects o).moved st next (w.objects o).initializedSlotCount
  let w₁ := ({ w with shapes := s' } : World V).setObject o object
  have hRun : setShape { w with shapes := s' } o next = .ok w₁ :=
    setShape_moved hw ho h (hw.shapes.mutable hLt hAllowed) hSet
  have hStorage : w₁.storage o = st :=
    storage_moved _ (hStShape.trans h.shape.symm)
  have hObject₁ : w₁.objects o = object := Function.update_self ..
  have hBound : loc.kind = .inline →
      loc.physicalIdx < (w.objects o).inlineSlotCapacity := by
    intro hKind
    have hAllocated := @Shape.WellFormed.allocated_insertedInfo _ _ flags
      hObject.storage.shape hNew loc hLoc
    rw [Shape.Allocated, hKind] at hAllocated
    rw [← hObject.capacity]
    exact hAllocated.2
  obtain ⟨n, hWritten, hLe, hLeBound, hInitialized⟩ :=
    @writeEmptyStorageLocation_eq V w₁ o loc st' value
      (by
        rw [hObject₁]
        intro i hi
        exact (hGet ⟨i, .inline⟩).trans (hObject.empty hi))
      (by rw [hObject₁]; exact hBound)
      (by rw [hObject₁]; exact hObject.fits)
      (by rw [hObject₁]; exact hObject.count_le)
      (by rw [hObject₁]; exact hObject.full)
      (by rw [hStorage]; exact hWrite)
  rw [hObject₁] at hWritten hLe hLeBound
  refine ⟨loc, w₁, _, hRun, ?_, ?_, hWritten, ?_⟩
  · show (s'.get next).shape.resolvePresentProperty name = _
    rw [h.shape, Shape.resolvePresentProperty_eq,
      Shape.lookup_withAdded hNew, if_pos rfl]
    exact hLoc
  · rw [hStorage, hGet]
    exact (hObject.storage.inserted_slot_empty hNew hLoc).2
  · show Outcome w (World.setObject _ o (object.moved st' next n)) o _
    rw [setObject_setObject]
    refine outcome_moved hw ho h hShape hWf rfl hLe hLeBound
      (fun k l hl hKind => ?_) ⟨hNew, rfl⟩ fun k =>
        (hValues k).trans (Function.update_apply ..).symm
    rw [Shape.lookup_withAdded hNew] at hl
    by_cases hk : k = name
    · rw [if_pos hk] at hl
      obtain rfl : l = loc := Option.some.inj (hl.symm.trans hLoc)
      exact hInitialized hKind
    · rw [if_neg hk] at hl
      exact (hObject.initialized k l hl hKind).trans_le hLe

end Insert

/-! ## Writing and deleting -/

section Class

variable {instanceNativeLayoutId : V → Option NativeLayout}

end Class

end CloverVM.ObjectModel.ObjectStore
