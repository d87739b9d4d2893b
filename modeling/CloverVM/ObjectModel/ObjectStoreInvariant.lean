import CloverVM.ObjectModel.ObjectStore

/-!
# What holds of every object

The slots of an object under its shape are those of a slot object, so the
writes keep it well formed.  An instance has every inline slot initialized
that a descriptor of its shape leads to.
-/

namespace CloverVM.ObjectModel.ObjectStore

open CloverVM.ObjectModel
open CloverVM.ObjectModel.ShapeTable

variable {V : Type}

/-- The object with other slots, under a shape. -/
def Object.moved (o : Object V) (st : SlotObject V)
    (shape initializedSlotCount : Nat) : Object V :=
  { o.withStorage st with shape, initializedSlotCount }

/-! ## Storage -/

section Storage

variable {w : World V} {o : Nat} {loc : StorageLocation}

theorem assertInitialized_ok {object : Object V}
    (h : loc.kind = .inline →
      loc.physicalIdx < object.initializedSlotCount) :
    object.assertInitialized loc = .ok () := by
  rw [Object.assertInitialized, if_neg]
  rintro ⟨hKind, hLe⟩
  exact absurd (h hKind) (Nat.not_lt.mpr hLe)

theorem writeEmptyStorageLocation_of_ok {st st' : SlotObject V} {value : V}
    (h : st.writeEmptyStorageLocation loc value = .ok st') :
    st' = st.set loc (some value) := by
  rw [SlotObject.writeEmptyStorageLocation] at h
  split at h
  · cases h
  · rw [SlotObject.writeStorageLocation] at h
    split at h
    · exact (Except.ok.inj h).symm
    · cases h

/-- The write of a new property: an instance may have to initialize the slot,
and those before it. -/
theorem writeEmptyStorageLocation_eq {st : SlotObject V} {value : V}
    (hEmpty : ∀ i, (w.objects o).initializedSlotCount ≤ i →
      (w.objects o).inlineSlots i = none)
    (hBound : loc.kind = .inline →
      loc.physicalIdx < (w.objects o).inlineSlotCapacity)
    (hFits : (w.objects o).inlineSlotCapacity ≤ uint16Max)
    (hLe : (w.objects o).initializedSlotCount ≤
      (w.objects o).inlineSlotCapacity)
    (hFull : (w.objects o).nativeLayout ≠ .instanceObject →
      (w.objects o).initializedSlotCount = (w.objects o).inlineSlotCapacity)
    (hRun : (w.storage o).writeEmptyStorageLocation loc value = .ok st) :
    ∃ n, writeEmptyStorageLocation w o loc value =
        .ok (w.setObject o
          ((w.objects o).moved st (w.objects o).shape n)) ∧
      (w.objects o).initializedSlotCount ≤ n ∧
      n ≤ (w.objects o).inlineSlotCapacity ∧
      (loc.kind = .inline → loc.physicalIdx < n) := by
  rw [writeEmptyStorageLocation]
  by_cases hNew : loc.kind = .inline ∧
      (w.objects o).nativeLayout = .instanceObject ∧
      (w.objects o).initializedSlotCount ≤ loc.physicalIdx
  · obtain ⟨i, kind⟩ := loc
    obtain rfl : kind = .inline := hNew.1
    have hLt : i < (w.objects o).inlineSlotCapacity := hBound rfl
    rw [if_pos hNew, initializeInlineSlot, if_pos ⟨hLt.trans_le hFits, hLt⟩]
    refine ⟨i + 1, ?_, Nat.le_succ_of_le hNew.2.2, hLt,
      fun _ => Nat.lt_succ_self i⟩
    rw [writeEmptyStorageLocation_of_ok hRun]
    -- the slots between were empty before
    have hSlots : (fun j => if j = i then some value
        else if (w.objects o).initializedSlotCount ≤ j ∧ j < i then none
        else (w.objects o).inlineSlots j) =
          fun j => if j = i then some value
            else (w.objects o).inlineSlots j := by
      funext j
      by_cases hj : (w.objects o).initializedSlotCount ≤ j ∧ j < i
      · rw [if_pos hj, hEmpty j hj.1]
      · rw [if_neg hj]
    simp only [hSlots]
    rfl
  · have hReady : loc.kind = .inline →
        loc.physicalIdx < (w.objects o).initializedSlotCount := by
      intro hKind
      by_contra hLater
      have hInstance : (w.objects o).nativeLayout ≠ .instanceObject :=
        fun h => hNew ⟨hKind, h, Nat.not_lt.mp hLater⟩
      rw [hFull hInstance] at hLater
      exact hLater (hBound hKind)
    rw [if_neg hNew, assertInitialized_ok hReady, hRun]
    exact ⟨_, rfl, Nat.le_refl _, hLe, hReady⟩

/-! ## The change of a shape -/

theorem setShape_eq {newShape : Nat}
    (hMutable : (w.shapes.get (w.objects o).shape).isImmutable = false) :
    setShape w o newShape =
      (lift ((w.storage o).setShape (w.shapes.get newShape).shape)).map
        fun st => w.setObject o ((w.objects o).moved st newShape
          (w.objects o).initializedSlotCount) := by
  rw [setShape, if_neg]
  · cases (w.storage o).setShape (w.shapes.get newShape).shape <;> rfl
  · rintro ⟨hImmutable, -⟩
    rw [hMutable] at hImmutable
    cases hImmutable

end Storage

theorem growCapacity_pow (i : Nat) :
    ∀ n k : Nat, i - 2 ^ k ≤ n →
      ∃ k', k ≤ k' ∧ i < 2 ^ k' ∧
        OverflowSlots.growCapacity i (2 ^ k) = 2 ^ k' := by
  intro n
  induction n with
  | zero =>
      intro k hk
      have hPos := Nat.two_pow_pos k
      by_cases hFits : i < 2 ^ k
      · refine ⟨k, Nat.le_refl k, hFits, ?_⟩
        rw [OverflowSlots.growCapacity, if_neg (by omega)]
      · have hEq : i = 2 ^ k := by omega
        refine ⟨k + 1, Nat.le_succ k, ?_, ?_⟩
        · rw [Nat.pow_succ]
          omega
        · rw [OverflowSlots.growCapacity, if_pos (by omega), ← Nat.pow_succ,
            OverflowSlots.growCapacity, if_neg (by rw [Nat.pow_succ]; omega)]
  | succ n ih =>
      intro k hk
      have hPos := Nat.two_pow_pos k
      by_cases hFits : i < 2 ^ k
      · refine ⟨k, Nat.le_refl k, hFits, ?_⟩
        rw [OverflowSlots.growCapacity, if_neg (by omega)]
      · obtain ⟨k', hLe, hLt, hGrow⟩ := ih (k + 1) (by
          rw [Nat.pow_succ]
          omega)
        refine ⟨k', by omega, hLt, ?_⟩
        rw [OverflowSlots.growCapacity, if_pos (by omega), ← Nat.pow_succ]
        exact hGrow

/-- Past the greatest capacity that doubling reaches, no block is made. -/
theorem make_growCapacity_error {i size k : Nat} (hi : overflowSlotMax ≤ i) :
    (OverflowSlots.make size (OverflowSlots.growCapacity i (2 ^ k)) :
      Except AssertionFailure (OverflowSlots V)) =
        .error .overflowCapacityFits := by
  obtain ⟨k', -, hLt, hGrow⟩ := growCapacity_pow i _ k (Nat.le_refl _)
  have hMax : 2 ^ 16 ≤ 2 ^ k' := by
    refine Nat.pow_le_pow_right (by omega) ?_
    by_contra hSmall
    have hLe : 2 ^ k' ≤ 2 ^ 15 := Nat.pow_le_pow_right (by omega) (by omega)
    unfold overflowSlotMax at hi
    omega
  rw [OverflowSlots.make, hGrow, if_neg]
  unfold overflowCapacityMax
  omega

/-- There is no storage for a shape with more slots than an overflow block can
add. -/
theorem setShape_of_many {x : SlotObject V} (h : x.WellFormed) {s : Shape}
    (hMany : s.inlineSlotCapacity + overflowSlotMax < s.nextSlotIndex) :
    x.setShape s = .error .overflowCapacityFits := by
  rw [SlotObject.setShape, SlotObject.ensureStorageForShape,
    if_neg (by omega)]
  have hIdx : overflowSlotMax ≤
      s.nextSlotIndex - s.inlineSlotCapacity - 1 := by omega
  have hError : ({ x with shape := s } : SlotObject V).ensureOverflowSlot
      (s.nextSlotIndex - s.inlineSlotCapacity - 1) =
        .error .overflowCapacityFits := by
    rw [SlotObject.ensureOverflowSlot]
    simp only
    cases hStorage : x.overflowStorage with
    | none => exact make_growCapacity_error (k := 2) hIdx
    | some old =>
        obtain ⟨-, k, hTwo, hTop, hCapacity⟩ := h.storage.overflow old hStorage
        have hPow : 2 ^ k ≤ 2 ^ 15 := Nat.pow_le_pow_right (by omega) hTop
        have hFour : 2 ^ 2 ≤ 2 ^ k := Nat.pow_le_pow_right (by omega) hTwo
        have hMax : max initialOverflowCapacity old.capacity = 2 ^ k := by
          unfold initialOverflowCapacity
          omega
        have hFull : ¬ s.nextSlotIndex - s.inlineSlotCapacity - 1 <
            old.capacity := by
          unfold overflowSlotMax at hIdx
          omega
        simp only [if_neg hFull, hMax, make_growCapacity_error hIdx]
        rfl
  simp only [hError]
  rfl

/-! ## Descriptors without a slot -/

/-- Only `__class__` changes the class, a shape to which properties can be
added has it, what is latent has a slot, and a special flag has a kind. -/
structure SpecialSlots (s : Shape) : Prop where
  name : ∀ name info,
    (s.lookupDescriptorIncludingLatent name).info? = some info →
    info.specialKind = .shapeClass → name = "__class__"
  dunderClass : ∀ info,
    (s.lookupDescriptorIncludingLatent "__class__").info? = some info →
    info = dunderClassInfo
  present : s.disallowAttributeAddDelete = false →
    s.lookupDescriptorIncludingLatent "__class__" =
      .present dunderClassInfo
  latent : ∀ name info, s.lookupDescriptorIncludingLatent name = .latent info →
    info.storageLocation.isSome = true
  made : ∀ name info,
    (s.lookupDescriptorIncludingLatent name).info? = some info →
    (info.flags.specialRead || info.flags.specialMutate) = true →
    info.specialKind ≠ .none

theorem SpecialSlots.withAdded {s : Shape} (h : SpecialSlots s) {name : String}
    {flags : DescriptorFlags}
    (hAllowed : s.disallowAttributeAddDelete = false)
    (hNew : ∀ info, s.lookupDescriptorIncludingLatent name ≠ .present info)
    (hPlain : s.lookupDescriptorIncludingLatent name = .absent →
      (flags.specialRead || flags.specialMutate) = false) :
    SpecialSlots (s.withAdded name flags) := by
  have hLookup := @Shape.lookup_withAdded s name flags hNew
  have hClass := h.present hAllowed
  have hOther : "__class__" ≠ name := by
    rintro rfl
    exact hNew _ hClass
  refine ⟨?_, ?_, ?_, ?_, ?_⟩
  · intro k info hInfo hKind
    rw [hLookup] at hInfo
    by_cases hk : k = name
    · rw [if_pos hk] at hInfo
      rw [← Option.some.inj hInfo] at hKind
      rcases WellFormedShape.insertedInfo_cases s name flags hNew with
        hOld | ⟨-, hMade⟩
      · rw [hk]
        exact h.name name _ hOld hKind
      · rw [hMade] at hKind
        exact absurd hKind nofun
    · rw [if_neg hk] at hInfo
      exact h.name k info hInfo hKind
  · intro info hInfo
    rw [hLookup, if_neg hOther] at hInfo
    exact h.dunderClass info hInfo
  · intro _
    rw [hLookup, if_neg hOther]
    exact hClass
  · intro k info hLatent
    rw [hLookup] at hLatent
    split at hLatent
    · exact absurd hLatent nofun
    · exact h.latent k info hLatent
  · intro k info hInfo hSpecial
    rw [hLookup] at hInfo
    by_cases hk : k = name
    · rw [if_pos hk] at hInfo
      rw [← Option.some.inj hInfo] at hSpecial ⊢
      rcases WellFormedShape.insertedInfo_cases s name flags hNew with
        hOld | ⟨hAbsent, hMade⟩
      · exact h.made name _ hOld hSpecial
      · rw [hMade, hPlain hAbsent] at hSpecial
        cases hSpecial
    · rw [if_neg hk] at hInfo
      exact h.made k info hInfo hSpecial

theorem SpecialSlots.withDeleted {s : Shape} (h : SpecialSlots s)
    (hs : WellFormedShape s) {name : String} {info : DescriptorInfo}
    (hPresent : s.lookupDescriptorIncludingLatent name = .present info)
    (hKind : info.specialKind ≠ .shapeClass)
    (hSlot : info.storageLocation.isSome = true) :
    SpecialSlots (s.withDeleted name info) := by
  refine ⟨?_, ?_, ?_, ?_, fun k i hInfo =>
    h.made k i (hs.info_withDeleted hPresent hInfo)⟩
  · intro k i hInfo
    exact h.name k i (hs.info_withDeleted hPresent hInfo)
  · intro i hInfo
    exact h.dunderClass i (hs.info_withDeleted hPresent hInfo)
  · intro hAllowed
    have hClass := h.present hAllowed
    rw [hs.wellFormed.lookup_withDeleted hPresent, if_neg]
    · exact hClass
    · rintro rfl
      rw [hPresent] at hClass
      rw [DescriptorLookup.present.inj hClass] at hKind
      exact hKind rfl
  · intro k i hLatent
    rw [hs.wellFormed.lookup_withDeleted hPresent] at hLatent
    split at hLatent
    · split at hLatent
      · rw [← DescriptorLookup.latent.inj hLatent]
        exact hSlot
      · exact absurd hLatent nofun
    · exact h.latent k i hLatent

structure WellFormedShapes (s : Shapes V) : Prop where
  table : ShapeTable.WellFormed s
  immutable : ∀ i, i < s.count → (s.get i).isImmutable = true →
    (s.get i).shape.disallowAttributeUpdates = true ∧
      (s.get i).shape.disallowAttributeAddDelete = true
  specialSlots : ∀ i, i < s.count → SpecialSlots (s.get i).shape

/-- The slots are those of a well-formed slot object, and every inline slot
that a descriptor leads to is initialized. -/
structure WellFormedObject (s : Shapes V) (o : Object V) : Prop where
  shape_lt : o.shape < s.count
  storage : (o.storage (s.get o.shape).shape).WellFormed
  capacity : (s.get o.shape).shape.inlineSlotCapacity = o.inlineSlotCapacity
  count_le : o.initializedSlotCount ≤ o.inlineSlotCapacity
  full : o.nativeLayout ≠ .instanceObject →
    o.initializedSlotCount = o.inlineSlotCapacity
  fits : o.inlineSlotCapacity ≤ uint16Max
  initialized : ∀ name loc,
    ((s.get o.shape).shape.lookupDescriptorIncludingLatent name).location? =
      some loc → loc.kind = .inline →
      loc.physicalIdx < o.initializedSlotCount

structure WellFormed (w : World V) : Prop where
  shapes : WellFormedShapes w.shapes
  classes : ∀ c ∈ w.classes,
    c.2 < w.shapes.count ∧ (w.shapes.get c.2).shape = c.1.shape
  objects : ∀ o, o < w.objectCount → WellFormedObject w.shapes (w.objects o)

/-- Slots that are not initialized are empty. -/
theorem WellFormedObject.empty {s : Shapes V} {o : Object V}
    (h : WellFormedObject s o) {i : Nat} (hi : o.initializedSlotCount ≤ i) :
    o.inlineSlots i = none := by
  refine h.storage.empty ⟨i, .inline⟩ fun name hName => ?_
  obtain ⟨info, hPresent, hLoc⟩ := Shape.resolvePresentProperty_eq_some hName
  have hLt := h.initialized name ⟨i, .inline⟩ (by
    rw [show (s.get o.shape).shape.lookupDescriptorIncludingLatent name =
      .present info from hPresent]
    exact hLoc) rfl
  exact absurd hLt (Nat.not_lt.mpr hi)

/-- A shape that leads to initialized slots. -/
theorem WellFormedObject.moved {s s' : Shapes V} {o : Object V}
    (h : WellFormedObject s o) {next n : Nat} {st : SlotObject V}
    (hNext : next < s'.count) (hShape : st.shape = (s'.get next).shape)
    (hStorage : st.WellFormed)
    (hCapacity : st.shape.inlineSlotCapacity =
      (s.get o.shape).shape.inlineSlotCapacity)
    (hLe : o.initializedSlotCount ≤ n) (hBound : n ≤ o.inlineSlotCapacity)
    (hInitialized : ∀ name loc,
      (st.shape.lookupDescriptorIncludingLatent name).location? = some loc →
        loc.kind = .inline → loc.physicalIdx < n) :
    WellFormedObject s' (o.moved st next n) := by
  have hMoved : (s'.get (o.moved st next n).shape).shape = st.shape :=
    hShape.symm
  refine
    { shape_lt := hNext
      storage := ?_
      capacity := ?_
      count_le := hBound
      full := fun hLayout =>
        Nat.le_antisymm hBound ((h.full hLayout).symm.le.trans hLe)
      fits := h.fits
      initialized := ?_ }
  · rw [hMoved]
    exact hStorage
  · rw [hMoved, hCapacity]
    exact h.capacity
  · rw [hMoved]
    exact hInitialized

theorem WellFormedObject.mono {s s' : Shapes V} {o : Object V}
    (h : WellFormedObject s o) (hExtends : Extends s s') :
    WellFormedObject s' o := by
  have hShape := hExtends.shape o.shape h.shape_lt
  exact h.moved (h.shape_lt.trans_le hExtends.count) hShape.symm h.storage rfl
    (Nat.le_refl _) h.count_le h.initialized

/-- One object of a world changes. -/
theorem WellFormed.setObject {w : World V} (hw : WellFormed w)
    {shapes : Shapes V} (hShapes : WellFormedShapes shapes)
    (hExtends : Extends w.shapes shapes) (o : Nat) {object : Object V}
    (hObject : WellFormedObject shapes object) :
    WellFormed (({ w with shapes } : World V).setObject o object) where
  shapes := hShapes
  classes c hc := by
    obtain ⟨hLt, hShape⟩ := hw.classes c hc
    exact ⟨hLt.trans_le hExtends.count, (hExtends.shape _ hLt).trans hShape⟩
  objects v hv := by
    by_cases h : v = o
    · rw [h]
      simp only [World.setObject, Function.update_self]
      exact hObject
    · simp only [World.setObject, Function.update_of_ne h]
      exact (hw.objects v hv).mono hExtends

/-! ## Deriving shapes -/

/-- The shapes there are stay, and at most one is new. -/
theorem WellFormedShapes.extend {s s' : Shapes V} (h : WellFormedShapes s)
    (hTable : ShapeTable.WellFormed s') (hExtends : Extends s s')
    {next : Nat} (hNew : ∀ j, j < s'.count → j < s.count ∨ j = next)
    (hImmutable : (s'.get next).isImmutable = true →
      (s'.get next).shape.disallowAttributeUpdates = true ∧
        (s'.get next).shape.disallowAttributeAddDelete = true)
    (hSpecial : SpecialSlots (s'.get next).shape) : WellFormedShapes s' := by
  refine ⟨hTable, fun j hj hIs => ?_, fun j hj => ?_⟩
  · rcases hNew j hj with hOld | rfl
    · rw [hExtends.isImmutable j hOld] at hIs
      rw [hExtends.shape j hOld]
      exact h.immutable j hOld hIs
    · exact hImmutable hIs
  · rcases hNew j hj with hOld | rfl
    · rw [hExtends.shape j hOld]
      exact h.specialSlots j hOld
    · exact hSpecial

/-- What deriving a shape from the one with number `i` gives. -/
structure Derives (s : Shapes V) (i : Nat) (s' : Shapes V) (next : Nat)
    (shape : Shape) : Prop where
  wellFormed : WellFormedShapes s'
  shapes : Extends s s'
  lt : next < s'.count
  isImmutable : (s'.get next).isImmutable = (s.get i).isImmutable
  shape : (s'.get next).shape = shape

section Derive

variable {s s' : Shapes V} {i next : Nat} {name : String}

theorem WellFormedShapes.derives (h : WellFormedShapes s) (hi : i < s.count)
    {verb : ShapeTransitionVerb} {flags : DescriptorFlags} {shape : Shape}
    (hRun : s.deriveTransition i name verb flags = .ok (next, s'))
    (hShape : ∀ t, Describes (s.get i).shape name flags t verb → t = shape)
    (hFlags : shape.disallowAttributeUpdates =
        (s.get i).shape.disallowAttributeUpdates ∧
      shape.disallowAttributeAddDelete =
        (s.get i).shape.disallowAttributeAddDelete)
    (hSpecial : SpecialSlots shape) : Derives s i s' next shape := by
  obtain ⟨hTable, hExtends, hDerived⟩ :=
    Shapes.deriveTransition_spec h.table hi hRun
  have hImmutable := hDerived.isImmutable.trans (hExtends.isImmutable i hi)
  have hDescribes := hDerived.shape
  rw [hExtends.shape i hi] at hDescribes
  have hNext := hShape _ hDescribes
  refine ⟨h.extend hTable hExtends
    (fun j => Shapes.deriveTransition_new hRun) (fun hIs => ?_) ?_, hExtends,
    hDerived.lt, hImmutable, hNext⟩
  · rw [hNext, hFlags.1, hFlags.2]
    exact h.immutable i hi (hImmutable.symm.trans hIs)
  · rw [hNext]
    exact hSpecial

/-- A shape to which properties can be added is mutable. -/
theorem WellFormedShapes.mutable (h : WellFormedShapes s) (hi : i < s.count)
    (hAllowed : (s.get i).shape.disallowAttributeAddDelete = false) :
    (s.get i).isImmutable = false := by
  refine Bool.eq_false_iff.mpr fun hImmutable => ?_
  rw [(h.immutable i hi hImmutable).2] at hAllowed
  cases hAllowed

/-- A name that is not there is added without special flags only: no cached
transition does it either. -/
theorem WellFormedShapes.plain_of_derived (h : WellFormedShapes s)
    (hi : i < s.count) {flags : DescriptorFlags}
    (hRun : s.deriveTransition i name .add flags = .ok (next, s'))
    (hAbsent : (s.get i).shape.lookupDescriptorIncludingLatent name =
      .absent) : (flags.specialRead || flags.specialMutate) = false := by
  rw [Shapes.deriveTransition] at hRun
  split at hRun
  · rename_i existing hFound
    have hDerived := h.table.transitions i hi _
      (Shapes.lookupTransition_eq_some hFound)
    obtain ⟨hNew, hShape⟩ := hDerived.shape
    have hSpecial := (h.specialSlots _ hDerived.lt).made name
      ((s.get i).shape.insertedInfo name flags)
    simp only [hShape] at hSpecial
    rw [Shape.lookup_withAdded hNew, if_pos rfl, Shape.insertedInfo, hAbsent]
      at hSpecial
    exact Bool.eq_false_iff.mpr fun hFlags => hSpecial rfl hFlags rfl
  · simp only [Shapes.makeTransition, Shapes.deriveAddTransition, hAbsent]
      at hRun
    split at hRun
    · cases hRun
    · rename_i hPlain
      exact Bool.eq_false_iff.mpr hPlain

/-- Adding a property fails exactly for the special flags of a new name. -/
theorem WellFormedShapes.deriveAdd (h : WellFormedShapes s) (hi : i < s.count)
    (flags : DescriptorFlags)
    (hNew : ∀ info, (s.get i).shape.lookupDescriptorIncludingLatent name ≠
      .present info)
    (hAllowed : (s.get i).shape.disallowAttributeAddDelete = false) :
    ((s.get i).shape.lookupDescriptorIncludingLatent name = .absent ∧
        (flags.specialRead || flags.specialMutate) = true) ∧
        s.deriveTransition i name .add flags = .error .specialFlagsNeedKind ∨
      ¬ ((s.get i).shape.lookupDescriptorIncludingLatent name = .absent ∧
          (flags.specialRead || flags.specialMutate) = true) ∧
        ∃ next s', s.deriveTransition i name .add flags = .ok (next, s') ∧
          Derives s i s' next ((s.get i).shape.withAdded name flags) := by
  rcases s.deriveTransition_add i flags hNew with ⟨⟨next, s'⟩, hRun⟩ |
    ⟨hError, hBad⟩
  · have hPlain := h.plain_of_derived hi hRun
    refine Or.inr ⟨fun hBad => ?_, next, s', hRun,
      h.derives hi hRun (fun t ht => ht.2) ⟨rfl, rfl⟩
        ((h.specialSlots i hi).withAdded hAllowed hNew hPlain)⟩
    rw [hPlain hBad.1] at hBad
    cases hBad.2
  · exact Or.inl ⟨hBad, hError⟩

end Derive

end CloverVM.ObjectModel.ObjectStore
