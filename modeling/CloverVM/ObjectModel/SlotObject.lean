import Mathlib
import CloverVM.ObjectModel.Shape

/-!
# Slot objects

The storage of an object with attributes: a fixed number of inline slots and
an overflow block that grows as the shape hands out more slots.  A slot that
holds no value holds `Value::not_present()`, here `none`.

Every assertion of the write path is a failure of the model, so an operation
that returns has met them all.
-/

namespace CloverVM.ObjectModel

structure OverflowSlots (V : Type) where
  size : Nat
  capacity : Nat
  slots : Nat → Option V := fun _ => none

structure SlotObject (V : Type) where
  shape : Shape
  inlineSlots : Nat → Option V := fun _ => none
  overflowStorage : Option (OverflowSlots V) := none

/-- `native_aux_count_for_capacity`: the capacity has 16 bits. -/
def overflowCapacityMax : Nat := 65535

def initialOverflowCapacity : Nat := 4

/-- The most slots an overflow block can have: the greatest capacity that
doubling reaches. -/
def overflowSlotMax : Nat := 32768

namespace OverflowSlots

variable {V : Type}

def make (size capacity : Nat) :
    Except AssertionFailure (OverflowSlots V) :=
  if size ≤ capacity ∧ capacity ≤ overflowCapacityMax then
    .ok { size, capacity }
  else .error .overflowCapacityFits

/-- The loop that doubles the capacity; it starts at a positive one. -/
def growCapacity (physicalIdx capacity : Nat) : Nat :=
  if 0 < capacity ∧ capacity ≤ physicalIdx then
    growCapacity physicalIdx (capacity * 2)
  else capacity
termination_by physicalIdx + 1 - capacity

def setSize (o : OverflowSlots V) (newSize : Nat) :
    Except AssertionFailure (OverflowSlots V) :=
  if newSize ≤ o.capacity then .ok { o with size := newSize }
  else .error .overflowCapacityFits

/-- The last step of `ensure_storage_for_shape`. -/
def ensureSize (o : OverflowSlots V) (slotCount : Nat) :
    Except AssertionFailure (OverflowSlots V) :=
  if o.size < slotCount then o.setSize slotCount else .ok o

end OverflowSlots

namespace SlotObject

variable {V : Type}

def ensureOverflowSlot (o : SlotObject V) (physicalIdx : Nat) :
    Except AssertionFailure (OverflowSlots V) :=
  match o.overflowStorage with
  | none =>
      OverflowSlots.make 0
        (OverflowSlots.growCapacity physicalIdx initialOverflowCapacity)
  | some old =>
      if physicalIdx < old.capacity then .ok old
      else do
        let new : OverflowSlots V ← OverflowSlots.make old.size
          (OverflowSlots.growCapacity physicalIdx
            (max initialOverflowCapacity old.capacity))
        return { new with
          slots := fun i => if i < old.capacity then old.slots i else none }

def ensureStorageForShape (o : SlotObject V) (newShape : Shape) :
    Except AssertionFailure (SlotObject V) :=
  if newShape.nextSlotIndex ≤ newShape.inlineSlotCapacity then .ok o
  else do
    let overflowSlotCount :=
      newShape.nextSlotIndex - newShape.inlineSlotCapacity
    let overflowSlots ← o.ensureOverflowSlot (overflowSlotCount - 1)
    let overflowSlots ← overflowSlots.ensureSize overflowSlotCount
    return { o with overflowStorage := some overflowSlots }

/-- `Object::set_shape`, without the validity cells of classes and modules. -/
def setShape (o : SlotObject V) (newShape : Shape) :
    Except AssertionFailure (SlotObject V) :=
  ({ o with shape := newShape } : SlotObject V).ensureStorageForShape newShape

/-- The value of a slot, when it exists. -/
def get (o : SlotObject V) (loc : StorageLocation) : Option V :=
  match loc.kind with
  | .inline => o.inlineSlots loc.physicalIdx
  | .overflow => o.overflowStorage.bind fun s => s.slots loc.physicalIdx

/-- The object with another value in a slot. -/
def set (o : SlotObject V) (loc : StorageLocation) (value : Option V) :
    SlotObject V :=
  match loc.kind with
  | .inline =>
      { o with
        inlineSlots := fun i =>
          if i = loc.physicalIdx then value else o.inlineSlots i }
  | .overflow =>
      { o with
        overflowStorage := o.overflowStorage.map fun s =>
          { s with
            slots := fun i =>
              if i = loc.physicalIdx then value else s.slots i } }

/-- The slot exists. -/
def holds (o : SlotObject V) (loc : StorageLocation) : Bool :=
  match loc.kind with
  | .inline => true
  | .overflow =>
      match o.overflowStorage with
      | none => false
      | some s => loc.physicalIdx < s.size

def readStorageLocation (o : SlotObject V) (loc : StorageLocation) :
    Except AssertionFailure (Option V) :=
  if o.holds loc then .ok (o.get loc) else .error .overflowSlotExists

/-- Also `write_existing_storage_location`. -/
def writeStorageLocation (o : SlotObject V) (loc : StorageLocation)
    (value : Option V) : Except AssertionFailure (SlotObject V) :=
  if o.holds loc then .ok (o.set loc value) else .error .overflowSlotExists

/-- Only an inline slot is asserted to be empty. -/
def writeEmptyStorageLocation (o : SlotObject V) (loc : StorageLocation)
    (value : V) : Except AssertionFailure (SlotObject V) :=
  if loc.kind = .inline ∧ (o.get loc).isSome then .error .slotIsNotPresent
  else o.writeStorageLocation loc (some value)

/-- `get_own_property`, without the assertions. -/
def ownValue (o : SlotObject V) (name : String) : Option V :=
  (o.shape.resolvePresentProperty name).bind o.get

@[simp] theorem set_shape (o : SlotObject V) (loc : StorageLocation)
    (value : Option V) : (o.set loc value).shape = o.shape := by
  unfold set
  cases loc.kind <;> rfl

theorem get_set (o : SlotObject V) {loc : StorageLocation}
    (h : o.holds loc = true) (value : Option V) (loc' : StorageLocation) :
    (o.set loc value).get loc' = if loc' = loc then value else o.get loc' := by
  obtain ⟨i, kind⟩ := loc
  obtain ⟨j, kind'⟩ := loc'
  cases kind with
  | inline =>
      cases kind' with
      | inline => simp [get, set]
      | overflow => simp [get, set]
  | overflow =>
      cases kind' with
      | inline => simp [get, set]
      | overflow =>
          cases hStorage : o.overflowStorage with
          | none => simp [holds, hStorage] at h
          | some s => simp [get, set, hStorage]

/-- Writing the value that an inline slot has changes nothing. -/
theorem set_inline_self (o : SlotObject V) {i : Nat} {value : Option V}
    (h : o.inlineSlots i = value) : o.set ⟨i, .inline⟩ value = o := by
  obtain ⟨shape, slots, overflow⟩ := o
  unfold set
  simp only [SlotObject.mk.injEq, true_and, and_true]
  funext j
  by_cases hj : j = i
  · rw [if_pos hj, hj]
    exact h.symm
  · rw [if_neg hj]

/-- The overflow block was made by doubling. -/
structure OverflowSlots.WellFormed (s : OverflowSlots V) : Prop where
  size_le : s.size ≤ s.capacity
  capacity : ∃ k, 2 ≤ k ∧ k ≤ 15 ∧ s.capacity = 2 ^ k

/-- Every slot that the shape has handed out exists. -/
structure HasStorageFor (o : SlotObject V) (s : Shape) : Prop where
  overflow : ∀ t, o.overflowStorage = some t → OverflowSlots.WellFormed t
  slots : s.nextSlotIndex ≤ s.inlineSlotCapacity ∨
    ∃ t, o.overflowStorage = some t ∧
      s.nextSlotIndex ≤ s.inlineSlotCapacity + t.size

/-- There is storage for the shape, and a slot that no present attribute owns
is empty. -/
structure WellFormed (o : SlotObject V) : Prop where
  shape : o.shape.WellFormed
  storage : o.HasStorageFor o.shape
  empty : ∀ loc,
    (∀ name, o.shape.resolvePresentProperty name ≠ some loc) →
    o.get loc = none

theorem HasStorageFor.holds {o : SlotObject V} {s : Shape}
    (h : o.HasStorageFor s) {loc : StorageLocation} (hLoc : s.Allocated loc) :
    o.holds loc = true := by
  unfold SlotObject.holds
  unfold Shape.Allocated at hLoc
  cases hKind : loc.kind with
  | inline => rfl
  | overflow =>
      rw [hKind] at hLoc
      simp only at hLoc
      rcases h.slots with hInline | ⟨t, hStorage, hSize⟩
      · omega
      · rw [hStorage]
        simp only [decide_eq_true_eq]
        omega

theorem HasStorageFor.set {o : SlotObject V} {s : Shape}
    (h : o.HasStorageFor s) (loc : StorageLocation) (value : Option V) :
    (o.set loc value).HasStorageFor s := by
  unfold SlotObject.set
  cases loc.kind with
  | inline => exact ⟨h.overflow, h.slots⟩
  | overflow =>
      refine { overflow := ?_, slots := ?_ }
      · intro t ht
        obtain ⟨t₀, hStorage, rfl⟩ := Option.map_eq_some_iff.mp ht
        have hWf := h.overflow t₀ hStorage
        exact ⟨hWf.size_le, hWf.capacity⟩
      · rcases h.slots with hInline | ⟨t₀, hStorage, hSize⟩
        · exact Or.inl hInline
        · rw [hStorage]
          exact Or.inr ⟨_, rfl, hSize⟩

/-! ## Growing the storage -/

theorem growCapacity_spec (physicalIdx : Nat) (hIdx : physicalIdx < 2 ^ 15) :
    ∀ n k : Nat, 15 - k = n → k ≤ 15 →
      ∃ k', k ≤ k' ∧ k' ≤ 15 ∧ physicalIdx < 2 ^ k' ∧
        OverflowSlots.growCapacity physicalIdx (2 ^ k) = 2 ^ k' := by
  intro n
  induction n with
  | zero =>
      intro k hn hk
      have hTop : k = 15 := by omega
      subst hTop
      refine ⟨15, Nat.le_refl _, Nat.le_refl _, hIdx, ?_⟩
      rw [OverflowSlots.growCapacity, if_neg (by omega)]
  | succ n ih =>
      intro k hn hk
      by_cases hRoom : physicalIdx < 2 ^ k
      · refine ⟨k, Nat.le_refl _, hk, hRoom, ?_⟩
        rw [OverflowSlots.growCapacity, if_neg (by omega)]
      · obtain ⟨k', hLe, hTop, hFits, hGrow⟩ :=
          ih (k + 1) (by omega) (by omega)
        refine ⟨k', by omega, hTop, hFits, ?_⟩
        have hPos : 0 < 2 ^ k := Nat.two_pow_pos k
        rw [OverflowSlots.growCapacity, if_pos ⟨hPos, by omega⟩,
          ← Nat.pow_succ]
        exact hGrow

/-- The new block has the slots of the old one. -/
theorem ensureOverflowSlot_spec {o : SlotObject V} {physicalIdx : Nat}
    (hWf : ∀ s, o.overflowStorage = some s → OverflowSlots.WellFormed s)
    (hEmpty : ∀ s i, o.overflowStorage = some s → s.capacity ≤ i →
      s.slots i = none)
    (hIdx : physicalIdx < overflowSlotMax) :
    ∃ s, o.ensureOverflowSlot physicalIdx = .ok s ∧
      OverflowSlots.WellFormed s ∧ physicalIdx < s.capacity ∧
      s.size = (o.overflowStorage.elim 0 OverflowSlots.size) ∧
      ∀ i, s.slots i = o.overflowStorage.bind fun old => old.slots i := by
  have hIdx' : physicalIdx < 2 ^ 15 := hIdx
  unfold ensureOverflowSlot
  cases hStorage : o.overflowStorage with
  | none =>
      obtain ⟨k, hLe, hTop, hFits, hGrow⟩ :=
        growCapacity_spec physicalIdx hIdx' 13 2 rfl (by omega)
      have hMax : 2 ^ k ≤ 2 ^ 15 := Nat.pow_le_pow_right (by omega) hTop
      refine ⟨{ size := 0, capacity := 2 ^ k }, ?_,
        ⟨Nat.zero_le _, k, hLe, hTop, rfl⟩, hFits, rfl, fun i => rfl⟩
      simp only [initialOverflowCapacity]
      rw [show (4 : Nat) = 2 ^ 2 from rfl, hGrow, OverflowSlots.make,
        if_pos ⟨Nat.zero_le _, by unfold overflowCapacityMax; omega⟩]
  | some old =>
      have hOld := hWf old hStorage
      simp only
      by_cases hRoom : physicalIdx < old.capacity
      · refine ⟨old, by rw [if_pos hRoom], hOld, hRoom, rfl, fun i => rfl⟩
      · obtain ⟨j, hjLow, hjTop, hCapacity⟩ := hOld.capacity
        obtain ⟨k, hLe, hTop, hFits, hGrow⟩ :=
          growCapacity_spec physicalIdx hIdx' (15 - j) j rfl hjTop
        have hMax : 2 ^ k ≤ 2 ^ 15 := Nat.pow_le_pow_right (by omega) hTop
        have hMono : 2 ^ j ≤ 2 ^ k := Nat.pow_le_pow_right (by omega) hLe
        have hFour : 2 ^ 2 ≤ 2 ^ j := Nat.pow_le_pow_right (by omega) hjLow
        have hSize := hOld.size_le
        let new : OverflowSlots V :=
          { size := old.size
            capacity := 2 ^ k
            slots := fun i => if i < old.capacity then old.slots i else none }
        refine ⟨new, ?_, ⟨?_, k, by omega, hTop, rfl⟩, hFits, rfl, ?_⟩
        · have hInit : max initialOverflowCapacity old.capacity = 2 ^ j := by
            unfold initialOverflowCapacity
            omega
          rw [if_neg hRoom, hInit, hGrow, OverflowSlots.make,
            if_pos ⟨by omega, by unfold overflowCapacityMax; omega⟩]
          rfl
        · show old.size ≤ 2 ^ k
          omega
        · intro i
          show (if i < old.capacity then old.slots i else none) =
            old.slots i
          by_cases hi : i < old.capacity
          · rw [if_pos hi]
          · rw [if_neg hi, hEmpty old i hStorage (by omega)]

/-- Nothing is stored past the capacity. -/
theorem WellFormed.empty_past_capacity {o : SlotObject V} (h : o.WellFormed)
    {s : OverflowSlots V} {i : Nat} (hStorage : o.overflowStorage = some s)
    (hi : s.capacity ≤ i) : s.slots i = none := by
  have hGet : o.get ⟨i, .overflow⟩ = s.slots i := by
    simp only [get, hStorage, Option.bind_some]
  rw [← hGet]
  refine h.empty _ ?_
  intro name hName
  obtain ⟨info, hInfo, hLoc⟩ := Shape.resolvePresentProperty_eq_some hName
  have hAllocated := h.shape.allocated name ⟨i, .overflow⟩ (by
    rw [hInfo]
    exact hLoc)
  simp only [Shape.Allocated] at hAllocated
  have hSize := (h.storage.overflow s hStorage).size_le
  rcases h.storage.slots with hInline | ⟨s', hStorage', hSlots⟩
  · omega
  · rw [hStorage] at hStorage'
    obtain rfl := Option.some.inj hStorage'
    omega

/-- Storage for a new shape is there, and every slot has the value it had. -/
theorem WellFormed.setShape {o : SlotObject V} (h : o.WellFormed)
    {newShape : Shape}
    (hSlots : newShape.nextSlotIndex ≤
      newShape.inlineSlotCapacity + overflowSlotMax) :
    ∃ o', o.setShape newShape = .ok o' ∧ o'.shape = newShape ∧
      (∀ loc, o'.get loc = o.get loc) ∧ o'.HasStorageFor newShape := by
  unfold SlotObject.setShape ensureStorageForShape
  by_cases hInline : newShape.nextSlotIndex ≤ newShape.inlineSlotCapacity
  · rw [if_pos hInline]
    exact ⟨_, rfl, rfl, fun loc => rfl, h.storage.overflow, Or.inl hInline⟩
  · rw [if_neg hInline]
    let start : SlotObject V := { o with shape := newShape }
    have hEnsure := @ensureOverflowSlot_spec V start
      (newShape.nextSlotIndex - newShape.inlineSlotCapacity - 1)
      h.storage.overflow (fun s i => h.empty_past_capacity) (by omega)
    obtain ⟨s, hEnsure, hWf, hCapacity, -, hGet⟩ := hEnsure
    have hSize : ∃ t, s.ensureSize (newShape.nextSlotIndex -
        newShape.inlineSlotCapacity) = .ok t ∧ OverflowSlots.WellFormed t ∧
        newShape.nextSlotIndex - newShape.inlineSlotCapacity ≤ t.size ∧
        t.slots = s.slots := by
      unfold OverflowSlots.ensureSize OverflowSlots.setSize
      by_cases hGrow : s.size <
          newShape.nextSlotIndex - newShape.inlineSlotCapacity
      · rw [if_pos hGrow, if_pos (by omega)]
        refine ⟨_, rfl, ⟨?_, hWf.capacity⟩, Nat.le_refl _, rfl⟩
        simp only
        omega
      · rw [if_neg hGrow]
        exact ⟨s, rfl, hWf, by omega, rfl⟩
    obtain ⟨t, hEnsureSize, hWf', hCount, hSlots'⟩ := hSize
    refine ⟨{ start with overflowStorage := some t }, ?_, rfl, ?_, ?_, ?_⟩
    · show (start.ensureOverflowSlot _ >>= fun s => _) = _
      rw [hEnsure]
      show (s.ensureSize _ >>= fun t => _) = _
      rw [hEnsureSize]
      rfl
    · intro loc
      unfold get
      cases loc.kind with
      | inline => rfl
      | overflow =>
          show t.slots loc.physicalIdx = _
          rw [hSlots', hGet]
    · intro s' hs'
      obtain rfl := Option.some.inj hs'
      exact hWf'
    · exact Or.inr ⟨t, rfl, by omega⟩

/-! ## The writes -/

theorem WellFormed.allocated {o : SlotObject V} (h : o.WellFormed)
    {name : String} {loc : StorageLocation}
    (hLoc : o.shape.resolvePresentProperty name = some loc) :
    o.shape.Allocated loc := by
  obtain ⟨info, hInfo, hLoc⟩ := Shape.resolvePresentProperty_eq_some hLoc
  refine h.shape.allocated name loc ?_
  rw [hInfo]
  exact hLoc

theorem WellFormed.name_unique {o : SlotObject V} (h : o.WellFormed)
    {name k : String} {loc : StorageLocation}
    (hName : o.shape.resolvePresentProperty name = some loc)
    (hk : o.shape.resolvePresentProperty k = some loc) : k = name := by
  obtain ⟨info, hInfo, hLoc⟩ := Shape.resolvePresentProperty_eq_some hName
  obtain ⟨info', hInfo', hLoc'⟩ := Shape.resolvePresentProperty_eq_some hk
  refine h.shape.injective k name loc ?_ ?_
  · rw [hInfo']
    exact hLoc'
  · rw [hInfo]
    exact hLoc

/-- The slot of a present attribute exists. -/
theorem WellFormed.read {o : SlotObject V} (h : o.WellFormed) {name : String}
    {loc : StorageLocation}
    (hLoc : o.shape.resolvePresentProperty name = some loc) :
    o.readStorageLocation loc = .ok (o.ownValue name) := by
  unfold readStorageLocation ownValue
  rw [if_pos (h.storage.holds (h.allocated hLoc)), hLoc]
  rfl

/-- Writing the slot of a present attribute changes its value. -/
theorem WellFormed.write {o : SlotObject V} (h : o.WellFormed) {name : String}
    {loc : StorageLocation} (value : Option V)
    (hLoc : o.shape.resolvePresentProperty name = some loc) :
    o.writeStorageLocation loc value = .ok (o.set loc value) ∧
      (o.set loc value).WellFormed ∧
      ∀ k, (o.set loc value).ownValue k =
        if k = name then value else o.ownValue k := by
  have hHolds := h.storage.holds (h.allocated hLoc)
  refine ⟨if_pos hHolds, { shape := ?_, storage := ?_, empty := ?_ }, ?_⟩
  · rw [set_shape]
    exact h.shape
  · rw [set_shape]
    exact h.storage.set loc value
  · intro loc' hNone
    rw [set_shape] at hNone
    rw [get_set o hHolds, if_neg]
    · exact h.empty loc' hNone
    · rintro rfl
      exact hNone name hLoc
  · intro k
    unfold ownValue
    rw [set_shape]
    by_cases hk : k = name
    · subst hk
      rw [hLoc, if_pos rfl, Option.bind_some, get_set o hHolds, if_pos rfl]
    · rw [if_neg hk]
      cases hResolve : o.shape.resolvePresentProperty k with
      | none => rfl
      | some loc' =>
          rw [Option.bind_some, Option.bind_some, get_set o hHolds, if_neg]
          rintro rfl
          exact hk (h.name_unique hLoc hResolve)

/-- The slot of a name that is not present is empty. -/
theorem WellFormed.inserted_slot_empty {o : SlotObject V} (h : o.WellFormed)
    {name : String} {flags : DescriptorFlags} {loc : StorageLocation}
    (hNew : ∀ info,
      o.shape.lookupDescriptorIncludingLatent name ≠ .present info)
    (hLoc : (o.shape.insertedInfo name flags).storageLocation = some loc) :
    (∀ k, o.shape.resolvePresentProperty k ≠ some loc) ∧ o.get loc = none := by
  have hFree : ∀ k, o.shape.resolvePresentProperty k ≠ some loc := by
    intro k hk
    obtain ⟨info, hInfo, hLoc'⟩ := Shape.resolvePresentProperty_eq_some hk
    have hNe : k ≠ name := by
      rintro rfl
      exact hNew info hInfo
    refine h.shape.location_insertedInfo_ne hNe ?_ hLoc
    rw [hInfo]
    exact hLoc'
  exact ⟨hFree, h.empty loc hFree⟩

/-- Filling the slot of a name that the shape has just made present. -/
theorem WellFormed.add {o : SlotObject V} (h : o.WellFormed) {name : String}
    {flags : DescriptorFlags} {loc : StorageLocation} (value : V)
    (hNew : ∀ info,
      o.shape.lookupDescriptorIncludingLatent name ≠ .present info)
    (hLoc : (o.shape.insertedInfo name flags).storageLocation = some loc)
    (hSlots : o.shape.nextSlotIndexAfterAdd name ≤
      o.shape.inlineSlotCapacity + overflowSlotMax) :
    ∃ o₁ o', o.setShape (o.shape.withAdded name flags) = .ok o₁ ∧
      o₁.writeEmptyStorageLocation loc value = .ok o' ∧ o'.WellFormed ∧
      o'.shape = o.shape.withAdded name flags ∧
      ∀ k, o'.ownValue k = if k = name then some value else o.ownValue k := by
  have hSetShape := @WellFormed.setShape V o h
    (o.shape.withAdded name flags) hSlots
  obtain ⟨o₁, hSet, hShape, hGet, hStorage⟩ := hSetShape
  have hLookup := @Shape.lookup_withAdded o.shape name flags hNew
  have hResolve : ∀ k, k ≠ name →
      (o.shape.withAdded name flags).resolvePresentProperty k =
        o.shape.resolvePresentProperty k := by
    intro k hk
    exact Shape.resolvePresentProperty_congr (by rw [hLookup, if_neg hk])
  have hName : (o.shape.withAdded name flags).resolvePresentProperty name =
      some loc := by
    rw [Shape.resolvePresentProperty_eq, hLookup, if_pos rfl]
    exact hLoc
  obtain ⟨hFree, hWasEmpty⟩ := h.inserted_slot_empty hNew hLoc
  have hEmpty : o₁.get loc = none := (hGet loc).trans hWasEmpty
  have hHolds : o₁.holds loc = true :=
    hStorage.holds (h.shape.allocated_insertedInfo hNew hLoc)
  refine ⟨o₁, o₁.set loc (some value), hSet, ?_,
    { shape := ?_, storage := ?_, empty := ?_ }, ?_, ?_⟩
  · unfold writeEmptyStorageLocation writeStorageLocation
    rw [hEmpty, if_neg (by simp), if_pos hHolds]
  · rw [set_shape, hShape]
    exact h.shape.withAdded hNew
  · rw [set_shape, hShape]
    exact hStorage.set loc (some value)
  · intro loc' hNone
    rw [set_shape, hShape] at hNone
    have hNe : loc' ≠ loc := by
      rintro rfl
      exact hNone name hName
    rw [get_set o₁ hHolds, if_neg hNe, hGet]
    refine h.empty loc' ?_
    intro k hk
    by_cases hkName : k = name
    · subst hkName
      obtain ⟨info, hInfo, -⟩ := Shape.resolvePresentProperty_eq_some hk
      exact hNew info hInfo
    · exact hNone k ((hResolve k hkName).trans hk)
  · rw [set_shape, hShape]
  · intro k
    unfold ownValue
    rw [set_shape, hShape]
    by_cases hk : k = name
    · subst hk
      rw [hName, if_pos rfl, Option.bind_some, get_set o₁ hHolds, if_pos rfl]
    · rw [if_neg hk, hResolve k hk]
      cases hOld : o.shape.resolvePresentProperty k with
      | none => rfl
      | some loc' =>
          rw [Option.bind_some, Option.bind_some, get_set o₁ hHolds, if_neg,
            hGet]
          rintro rfl
          exact hFree k hOld

/-- A shape that has storage has no more slots than an overflow block can
add. -/
theorem HasStorageFor.slots_le {o : SlotObject V} {s : Shape}
    (h : o.HasStorageFor s) :
    s.nextSlotIndex ≤ s.inlineSlotCapacity + overflowSlotMax := by
  rcases h.slots with hInline | ⟨t, hStorage, hSlots⟩
  · omega
  · obtain ⟨hSize, k, -, hTop, hCapacity⟩ := h.overflow t hStorage
    have hMax : 2 ^ k ≤ 2 ^ 15 := Nat.pow_le_pow_right (by omega) hTop
    unfold overflowSlotMax
    omega

/-- An object without a name, and with that name's slot empty. -/
theorem WellFormed.of_withDeleted {o o' : SlotObject V} (h : o.WellFormed)
    {name : String} {info : DescriptorInfo} {loc : StorageLocation}
    (hPresent :
      o.shape.lookupDescriptorIncludingLatent name = .present info)
    (hLoc : info.storageLocation = some loc)
    (hShape : o'.shape = o.shape.withDeleted name info)
    (hStorage : o'.HasStorageFor o'.shape)
    (hGet : ∀ loc', o'.get loc' = if loc' = loc then none else o.get loc') :
    o'.WellFormed ∧
      ∀ k, o'.ownValue k = if k = name then none else o.ownValue k := by
  have hName : o.shape.resolvePresentProperty name = some loc := by
    rw [Shape.resolvePresentProperty_eq, hPresent]
    exact hLoc
  have hLookup := h.shape.lookup_withDeleted hPresent
  have hGone :
      (o.shape.withDeleted name info).resolvePresentProperty name = none := by
    rw [Shape.resolvePresentProperty_eq, hLookup, if_pos rfl]
    cases info.flags.stableSlot <;> rfl
  have hResolve : ∀ k, k ≠ name →
      (o.shape.withDeleted name info).resolvePresentProperty k =
        o.shape.resolvePresentProperty k := by
    intro k hk
    exact Shape.resolvePresentProperty_congr (by rw [hLookup, if_neg hk])
  refine ⟨{ shape := ?_, storage := hStorage, empty := ?_ }, ?_⟩
  · rw [hShape]
    exact h.shape.withDeleted hPresent
  · intro loc' hNone
    rw [hShape] at hNone
    rw [hGet]
    by_cases hLoc' : loc' = loc
    · rw [if_pos hLoc']
    · rw [if_neg hLoc']
      refine h.empty loc' ?_
      intro k hk
      by_cases hkName : k = name
      · subst hkName
        rw [hName] at hk
        exact hLoc' (Option.some.inj hk).symm
      · exact hNone k ((hResolve k hkName).trans hk)
  · intro k
    unfold ownValue
    rw [hShape]
    by_cases hk : k = name
    · subst hk
      rw [hGone, if_pos rfl]
      rfl
    · rw [if_neg hk, hResolve k hk]
      cases hOld : o.shape.resolvePresentProperty k with
      | none => rfl
      | some loc' =>
          rw [Option.bind_some, Option.bind_some, hGet, if_neg]
          rintro rfl
          exact hk (h.name_unique hName hOld)

/-- Emptying the slot of a name that the shape no longer has. -/
theorem WellFormed.delete {o : SlotObject V} (h : o.WellFormed)
    {name : String} {info : DescriptorInfo} {loc : StorageLocation}
    (hPresent :
      o.shape.lookupDescriptorIncludingLatent name = .present info)
    (hLoc : info.storageLocation = some loc) :
    ∃ o₁ o', o.setShape (o.shape.withDeleted name info) = .ok o₁ ∧
      o₁.writeStorageLocation loc none = .ok o' ∧ o'.WellFormed ∧
      o'.shape = o.shape.withDeleted name info ∧
      ∀ k, o'.ownValue k = if k = name then none else o.ownValue k := by
  have hSetShape := @WellFormed.setShape V o h
    (o.shape.withDeleted name info) h.storage.slots_le
  obtain ⟨o₁, hSet, hShape, hGet, hStorage⟩ := hSetShape
  have hName : o.shape.resolvePresentProperty name = some loc := by
    rw [Shape.resolvePresentProperty_eq, hPresent]
    exact hLoc
  have hHolds : o₁.holds loc = true := hStorage.holds (h.allocated hName)
  have hShape' : (o₁.set loc none).shape = o.shape.withDeleted name info := by
    rw [set_shape, hShape]
  have hDeleted := @WellFormed.of_withDeleted V o (o₁.set loc none) h name
    info loc hPresent hLoc hShape'
    (by rw [hShape']; exact hStorage.set loc none)
    (by intro loc'; rw [get_set o₁ hHolds, hGet])
  exact ⟨o₁, o₁.set loc none, hSet, if_pos hHolds, hDeleted.1, hShape',
    hDeleted.2⟩

/-- Dropping a name whose slot was emptied before. -/
theorem WellFormed.deleteEmpty {o : SlotObject V} (h : o.WellFormed)
    {name : String} {info : DescriptorInfo} {loc : StorageLocation}
    (hPresent :
      o.shape.lookupDescriptorIncludingLatent name = .present info)
    (hLoc : info.storageLocation = some loc) (hEmpty : o.get loc = none) :
    ∃ o', o.setShape (o.shape.withDeleted name info) = .ok o' ∧
      o'.WellFormed ∧ o'.shape = o.shape.withDeleted name info ∧
      ∀ k, o'.ownValue k = if k = name then none else o.ownValue k := by
  have hSetShape := @WellFormed.setShape V o h
    (o.shape.withDeleted name info) h.storage.slots_le
  obtain ⟨o', hSet, hShape, hGet, hStorage⟩ := hSetShape
  have hDeleted := @WellFormed.of_withDeleted V o o' h name info loc hPresent
    hLoc hShape (by rw [hShape]; exact hStorage)
    (by
      intro loc'
      rw [hGet]
      by_cases hLoc' : loc' = loc
      · rw [if_pos hLoc', hLoc', hEmpty]
      · rw [if_neg hLoc'])
  exact ⟨o', hSet, hDeleted.1, hShape, hDeleted.2⟩

/-- A shape with the same descriptors, whose slots hold what they held. -/
theorem WellFormed.clone {o : SlotObject V} (h : o.WellFormed)
    (object : Nat) :
    ∃ o', o.setShape (o.shape.cloneWithClass object) = .ok o' ∧
      o'.WellFormed ∧ o'.shape = o.shape.cloneWithClass object ∧
      ∀ k, o'.ownValue k = o.ownValue k := by
  have hSetShape := @WellFormed.setShape V o h
    (o.shape.cloneWithClass object) h.storage.slots_le
  obtain ⟨o', hSet, hShape, hGet, hStorage⟩ := hSetShape
  have hGet' : o'.get = o.get := funext hGet
  refine ⟨o', hSet, { shape := ?_, storage := ?_, empty := ?_ }, hShape, ?_⟩
  · rw [hShape]
    exact h.shape.cloneWithClass object
  · rw [hShape]
    exact hStorage
  · intro loc hNone
    rw [hShape] at hNone
    rw [hGet]
    exact h.empty loc hNone
  · intro k
    unfold ownValue
    rw [hShape, hGet']
    rfl

end SlotObject

end CloverVM.ObjectModel
