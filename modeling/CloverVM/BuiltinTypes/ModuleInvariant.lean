import CloverVM.ImportSystem.ModuleNamespace

/-!
# What validity cells of modules stand for

The invariant of the modules of a program, and the relation `Preserves` from a
world to a later one: every cell that is still valid stands for what it stood
for.  Each write either leaves the shape of a module or invalidates its cells.
-/

namespace CloverVM.BuiltinTypes.ModuleInvariant

open CloverVM.ObjectModel
open CloverVM.BuiltinTypes.ModuleObject
open CloverVM.ImportSystem.ModuleNamespace

structure IsModuleShape (s : Shape) : Prop where
  capacity : s.inlineSlotCapacity = moduleInlineStorageSlotCount
  updates : s.disallowAttributeUpdates = false
  addDelete : s.disallowAttributeAddDelete = false
  dunderClass :
    s.lookupDescriptorIncludingLatent "__class__" = .present dunderClassInfo
  dunderDict :
    s.lookupDescriptorIncludingLatent "__dict__" = .present dunderDictInfo
  dunderName : (s.lookupDescriptorIncludingLatent "__name__").info? =
    some dunderNameInfo
  dunderBuiltins : (s.lookupDescriptorIncludingLatent "__builtins__").info? =
    some dunderBuiltinsInfo
  ordinary : ∀ name, reserved name = false → name ≠ "__name__" →
    name ≠ "__builtins__" →
    s.lookupDescriptorIncludingLatent name = .absent ∨
      ∃ loc, s.lookupDescriptorIncludingLatent name =
        .present { storageLocation := some loc }

/-- The kinds of names: without a descriptor, with one that is latent, with
one that is written in place, `__builtins__`, and the reserved ones. -/
inductive NameCase (s : Shape) (name : String) : Prop where
  | absent (hReserved : reserved name = false) (hNe : name ≠ "__builtins__")
      (hLookup : s.lookupDescriptorIncludingLatent name = .absent)
  | latent (info : DescriptorInfo) (loc : StorageLocation)
      (hReserved : reserved name = false)
      (hLookup : s.lookupDescriptorIncludingLatent name = .latent info)
      (hLoc : info.storageLocation = some loc)
      (hReadOnly : info.flags.readOnly = false)
  | plain (info : DescriptorInfo) (loc : StorageLocation)
      (hReserved : reserved name = false) (hNe : name ≠ "__builtins__")
      (hLookup : s.lookupDescriptorIncludingLatent name = .present info)
      (hLoc : info.storageLocation = some loc)
      (hMutate : info.flags.specialMutate = false)
      (hReadOnly : info.flags.readOnly = false)
  | builtins (hName : name = "__builtins__")
      (hLookup :
        s.lookupDescriptorIncludingLatent name = .present dunderBuiltinsInfo)
  | reserved (info : DescriptorInfo) (hReserved : reserved name = true)
      (hLookup : s.lookupDescriptorIncludingLatent name = .present info)
      (hLoc : info.storageLocation = none)
      (hMutate : info.flags.specialMutate = true)
      (hKind : info.specialKind =
        if name = "__class__" then .shapeClass else .slotDict)

theorem IsModuleShape.cases {s : Shape} (h : IsModuleShape s)
    (name : String) : NameCase s name := by
  by_cases hReserved : reserved name = true
  · by_cases hClass : name = "__class__"
    · subst hClass
      exact .reserved _ hReserved h.dunderClass rfl rfl (by decide)
    · have hDict : name = "__dict__" := by
        simpa [reserved, hClass] using hReserved
      subst hDict
      exact .reserved _ hReserved h.dunderDict rfl rfl (by decide)
  · rw [Bool.not_eq_true] at hReserved
    by_cases hBuiltins : name = "__builtins__"
    · subst hBuiltins
      rcases DescriptorLookup.present_or_latent h.dunderBuiltins with hLookup | hLookup
      · exact .builtins rfl hLookup
      · exact .latent _ _ hReserved hLookup rfl rfl
    · by_cases hName : name = "__name__"
      · subst hName
        rcases DescriptorLookup.present_or_latent h.dunderName with
          hLookup | hLookup
        · exact .plain _ _ hReserved hBuiltins hLookup rfl rfl rfl
        · exact .latent _ _ hReserved hLookup rfl rfl
      · rcases h.ordinary name hReserved hName hBuiltins with
          hAbsent | ⟨loc, hPresent⟩
        · exact .absent hReserved hBuiltins hAbsent
        · exact .plain _ loc hReserved hBuiltins hPresent rfl rfl rfl

/-- A transition that leaves the descriptors of the predefined names, and
makes none but ordinary ones. -/
theorem IsModuleShape.of_lookup {s next : Shape} (h : IsModuleShape s)
    (hCapacity : next.inlineSlotCapacity = s.inlineSlotCapacity)
    (hUpdates : next.disallowAttributeUpdates = s.disallowAttributeUpdates)
    (hAddDelete :
      next.disallowAttributeAddDelete = s.disallowAttributeAddDelete)
    (hReserved : ∀ name, reserved name = true →
      next.lookupDescriptorIncludingLatent name =
        s.lookupDescriptorIncludingLatent name)
    (hInfo : ∀ name info,
      (s.lookupDescriptorIncludingLatent name).info? = some info →
        info.flags.stableSlot = true →
        (next.lookupDescriptorIncludingLatent name).info? = some info)
    (hOrdinary : ∀ name, reserved name = false → name ≠ "__name__" →
      name ≠ "__builtins__" →
      next.lookupDescriptorIncludingLatent name =
          s.lookupDescriptorIncludingLatent name ∨
        next.lookupDescriptorIncludingLatent name = .absent ∨
        ∃ loc, next.lookupDescriptorIncludingLatent name =
          .present { storageLocation := some loc }) :
    IsModuleShape next := by
  refine
    { capacity := hCapacity.trans h.capacity
      updates := hUpdates.trans h.updates
      addDelete := hAddDelete.trans h.addDelete
      dunderClass := (hReserved _ (by decide)).trans h.dunderClass
      dunderDict := (hReserved _ (by decide)).trans h.dunderDict
      dunderName := hInfo _ _ h.dunderName rfl
      dunderBuiltins := hInfo _ _ h.dunderBuiltins rfl
      ordinary := ?_ }
  intro name hNot hName hBuiltins
  rcases hOrdinary name hNot hName hBuiltins with hSame | hNew
  · rw [hSame]
    exact h.ordinary name hNot hName hBuiltins
  · exact hNew

theorem IsModuleShape.withAdded {s : Shape} (h : IsModuleShape s)
    {name : String} {flags : DescriptorFlags}
    (hNew : ∀ info, s.lookupDescriptorIncludingLatent name ≠ .present info)
    (hFlags : name = "__builtins__" ∨ flags = {}) :
    IsModuleShape (s.withAdded name flags) := by
  have hLookup := @Shape.lookup_withAdded s name flags hNew
  refine h.of_lookup rfl rfl rfl ?_ ?_ ?_
  · intro k hk
    rw [hLookup, if_neg]
    rintro rfl
    rcases h.cases k with ⟨hNot, -, -⟩ | ⟨_, _, hNot, -, -, -⟩ |
      ⟨_, _, hNot, -, -, -, -, -⟩ | ⟨rfl, -⟩ | ⟨info, -, hPresent, -, -, -⟩
    · exact absurd hk (by simp [hNot])
    · exact absurd hk (by simp [hNot])
    · exact absurd hk (by simp [hNot])
    · exact absurd hk (by decide)
    · exact hNew info hPresent
  · intro k info hInfo _
    rw [hLookup]
    by_cases hk : k = name
    · rw [if_pos hk]
      subst hk
      rcases DescriptorLookup.present_or_latent hInfo with hOld | hOld
      · exact absurd hOld (hNew info)
      · rw [Shape.insertedInfo, hOld]
        rfl
    · rw [if_neg hk]
      exact hInfo
  · intro k hNot hName hBuiltins
    rw [hLookup]
    by_cases hk : k = name
    · right
      right
      rw [if_pos hk]
      subst hk
      obtain rfl := hFlags.resolve_left hBuiltins
      rcases h.ordinary k hNot hName hBuiltins with hAbsent | ⟨loc, hPresent⟩
      · refine ⟨s.newStorageLocation, ?_⟩
        rw [Shape.insertedInfo, hAbsent]
      · exact absurd hPresent (hNew _)
    · left
      rw [if_neg hk]

theorem IsModuleShape.withDeleted {s : Shape} (h : IsModuleShape s)
    (hWf : s.WellFormed) {name : String} {info : DescriptorInfo}
    (hPresent : s.lookupDescriptorIncludingLatent name = .present info)
    (hNot : reserved name = false) :
    IsModuleShape (s.withDeleted name info) := by
  have hLookup := hWf.lookup_withDeleted hPresent
  refine h.of_lookup rfl rfl rfl ?_ ?_ ?_
  · intro k hk
    rw [hLookup, if_neg]
    rintro rfl
    exact absurd hk (by simp [hNot])
  · intro k i hInfo hStable
    rw [hLookup]
    by_cases hk : k = name
    · subst hk
      rw [hPresent] at hInfo
      obtain rfl := Option.some.inj hInfo
      rw [if_pos rfl, if_pos hStable]
      rfl
    · rw [if_neg hk]
      exact hInfo
  · intro k hNotReserved hName hBuiltins
    rw [hLookup]
    by_cases hk : k = name
    · right
      left
      subst hk
      rcases h.ordinary k hNotReserved hName hBuiltins with
        hAbsent | ⟨loc, hOrdinary⟩
      · rw [hAbsent] at hPresent
        exact absurd hPresent (by simp)
      · rw [hOrdinary] at hPresent
        obtain rfl := DescriptorLookup.present.inj hPresent
        rw [if_pos rfl, if_neg (by simp)]
    · left
      rw [if_neg hk]

theorem IsModuleShape.cloneWithClass {s : Shape} (h : IsModuleShape s)
    (object : Nat) : IsModuleShape (s.cloneWithClass object) := by
  refine h.of_lookup rfl rfl rfl (fun _ _ => rfl) (fun _ _ hInfo _ => hInfo) ?_
  intro name _ _ _
  exact Or.inl rfl

/-! ## Modules -/

section Modules

variable {M O : Type}

structure IsModule (mo : ModuleObject M O) : Prop where
  object : mo.object.WellFormed
  shape : IsModuleShape mo.object.shape

/-- The slot of `__builtins__` holds its value, also when it was deleted. -/
theorem IsModule.get_builtinsLocation {mo : ModuleObject M O}
    (h : IsModule mo) :
    mo.object.get builtinsLocation = mo.object.ownValue "__builtins__" := by
  unfold SlotObject.ownValue
  rcases DescriptorLookup.present_or_latent h.shape.dunderBuiltins with
    hPresent | hLatent
  · rw [Shape.resolvePresentProperty_eq, hPresent]
    rfl
  · rw [Shape.resolvePresentProperty_eq, hLatent]
    refine h.object.empty builtinsLocation ?_
    intro k hk
    obtain ⟨info, hInfo, hLoc'⟩ := Shape.resolvePresentProperty_eq_some hk
    have hName : k = "__builtins__" := by
      refine h.object.shape.injective k "__builtins__" builtinsLocation ?_ ?_
      · rw [hInfo]
        exact hLoc'
      · rw [hLatent]
        rfl
    subst hName
    rw [hLatent] at hInfo
    exact absurd hInfo (by simp)

/-- The descriptors of a module as it is made. -/
theorem lookup_moduleRootShape (name : String) :
    moduleRootShape.lookupDescriptorIncludingLatent name =
      if name = "__class__" then .present dunderClassInfo
      else if name = "__dict__" then .present dunderDictInfo
      else if name = "__name__" then .present dunderNameInfo
      else if name = "__builtins__" then .present dunderBuiltinsInfo
      else .absent := by
  unfold Shape.lookupDescriptorIncludingLatent moduleRootShape
  simp only [List.lookup_cons, List.lookup_nil]
  by_cases hClass : name = "__class__"
  · subst hClass
    rfl
  rw [beq_false_of_ne hClass, if_neg hClass]
  by_cases hDict : name = "__dict__"
  · subst hDict
    rfl
  rw [beq_false_of_ne hDict, if_neg hDict]
  by_cases hName : name = "__name__"
  · subst hName
    rfl
  rw [beq_false_of_ne hName, if_neg hName]
  by_cases hBuiltins : name = "__builtins__"
  · subst hBuiltins
    rfl
  rw [beq_false_of_ne hBuiltins, if_neg hBuiltins]

theorem isModuleShape_moduleRootShape : IsModuleShape moduleRootShape := by
  refine
    { capacity := rfl, updates := rfl, addDelete := rfl, dunderClass := rfl
      dunderDict := rfl, dunderName := rfl, dunderBuiltins := rfl
      ordinary := ?_ }
  intro name hReserved hName hBuiltins
  left
  have hClass : name ≠ "__class__" := by
    rintro rfl
    exact absurd hReserved (by decide)
  have hDict : name ≠ "__dict__" := by
    rintro rfl
    exact absurd hReserved (by decide)
  rw [lookup_moduleRootShape, if_neg hClass, if_neg hDict, if_neg hName,
    if_neg hBuiltins]

/-- Only `__name__` and `__builtins__` have slots in a module as it is
made. -/
theorem moduleRootShape_located {name : String} {loc : StorageLocation}
    (h : (moduleRootShape.lookupDescriptorIncludingLatent name).location? =
      some loc) :
    name = "__name__" ∧ loc = nameLocation ∨
      name = "__builtins__" ∧ loc = builtinsLocation := by
  rw [lookup_moduleRootShape] at h
  split at h
  · exact absurd h (Option.some_ne_none loc).symm
  · split at h
    · exact absurd h (Option.some_ne_none loc).symm
    · split at h
      · rename_i hName
        exact Or.inl ⟨hName, (Option.some.inj h).symm⟩
      · split at h
        · rename_i hBuiltins
          exact Or.inr ⟨hBuiltins, (Option.some.inj h).symm⟩
        · exact absurd h (Option.some_ne_none loc).symm

theorem moduleRootShape_wellFormed : moduleRootShape.WellFormed := by
  refine { disjoint := fun _ _ _ => rfl, allocated := ?_, injective := ?_ }
  · intro name loc h
    rcases moduleRootShape_located h with ⟨-, rfl⟩ | ⟨-, rfl⟩
    · exact ⟨by decide, by decide⟩
    · exact ⟨by decide, by decide⟩
  · intro name name' loc h h'
    rcases moduleRootShape_located h with ⟨rfl, rfl⟩ | ⟨rfl, rfl⟩
    · rcases moduleRootShape_located h' with ⟨rfl, -⟩ | ⟨-, hLoc⟩
      · rfl
      · exact absurd hLoc (by decide)
    · rcases moduleRootShape_located h' with ⟨-, hLoc⟩ | ⟨rfl, -⟩
      · exact absurd hLoc (by decide)
      · rfl

/-- A module as it is made. -/
theorem isModule_make {M O : Type} (name : GlobalValue M O)
    (builtins : Option (GlobalValue M O)) :
    IsModule (ModuleObject.make name builtins) := by
  refine
    { object := { shape := moduleRootShape_wellFormed, storage := ?_
                  empty := ?_ }
      shape := isModuleShape_moduleRootShape }
  · refine { overflow := ?_, slots := Or.inl ?_ }
    · intro t ht
      exact absurd ht (by simp [ModuleObject.make])
    · show modulePredefinedSlotCount ≤ moduleInlineStorageSlotCount
      decide
  · intro loc hNone
    have hName : loc ≠ nameLocation := by
      rintro rfl
      exact hNone "__name__" rfl
    have hBuiltins : loc ≠ builtinsLocation := by
      rintro rfl
      exact hNone "__builtins__" rfl
    obtain ⟨i, kind⟩ := loc
    cases kind with
    | overflow => rfl
    | inline =>
        have hi : i ≠ modulePredefinedSlotName := by
          rintro rfl
          exact hName rfl
        have hi' : i ≠ modulePredefinedSlotBuiltins := by
          rintro rfl
          exact hBuiltins rfl
        show (if i = modulePredefinedSlotName then some name
          else if i = modulePredefinedSlotBuiltins then builtins
          else none) = none
        rw [if_neg hi, if_neg hi']

end Modules

/-! ## Worlds -/

section Worlds

variable {M O : Type}

def shapeOf (w : World M O) (m : M) : Shape := (w.modules m).object.shape

/-- The namespaces that the slots of the modules hold. -/
def ownValue (w : World M O) : Namespaces M O :=
  fun m name => (w.modules m).object.ownValue name

/-- The module in which a lookup continues. -/
def currentBuiltins (w : World M O) (m : M) : Option M :=
  w.builtinsOf (w.getBuiltinsBinding m)

/-- Every cell that is kept was made, and a valid builtins cell is attached to
the current builtins. -/
structure WellFormed (w : World M O) : Prop where
  modules : ∀ m, IsModule (w.modules m)
  globals_lt : ∀ m cell, (w.modules m).moduleGlobalsValidityCell = some cell →
    cell < w.nextObject
  builtins_lt : ∀ m cell,
    (w.modules m).moduleBuiltinsValidityCell = some cell →
    cell < w.nextObject
  attached_lt : ∀ m cell,
    cell ∈ (w.modules m).attachedDependentLookupValidityCells →
    cell < w.nextObject
  attached : ∀ m cell, (w.modules m).moduleBuiltinsValidityCell = some cell →
    w.isValid cell = true →
    ∃ b, currentBuiltins w m = some b ∧
      cell ∈ (w.modules b).attachedDependentLookupValidityCells

/-- A module has the shape that it had, and no name has lost its value. -/
structure Stays (w w' : World M O) (m : M) : Prop where
  shape : shapeOf w' m = shapeOf w m
  value : ∀ name, ownValue w m name ≠ none → ownValue w' m name ≠ none

/-- A cell that is still valid stands for what it stood for. -/
structure Preserves (w w' : World M O) : Prop where
  nextObject : w.nextObject ≤ w'.nextObject
  valid : ∀ cell, cell < w.nextObject → w'.isValid cell = true →
    w.isValid cell = true
  globals : ∀ m cell, (w.modules m).moduleGlobalsValidityCell = some cell →
    cell < w.nextObject → w'.isValid cell = true →
    (w'.modules m).moduleGlobalsValidityCell = some cell ∧ Stays w w' m
  builtins : ∀ m cell, (w.modules m).moduleBuiltinsValidityCell = some cell →
    cell < w.nextObject → w'.isValid cell = true →
    (w'.modules m).moduleBuiltinsValidityCell = some cell ∧ Stays w w' m ∧
      currentBuiltins w' m = currentBuiltins w m
  attached : ∀ m cell,
    cell ∈ (w.modules m).attachedDependentLookupValidityCells →
    cell < w.nextObject → w'.isValid cell = true →
    cell ∈ (w'.modules m).attachedDependentLookupValidityCells ∧ Stays w w' m

theorem Stays.trans {w w' w'' : World M O} {m : M} (h : Stays w w' m)
    (h' : Stays w' w'' m) : Stays w w'' m :=
  ⟨h'.shape.trans h.shape, fun name hName =>
    h'.value name (h.value name hName)⟩

theorem Preserves.refl (w : World M O) : Preserves w w := by
  have hStays : ∀ m, Stays w w m := fun m => ⟨rfl, fun _ h => h⟩
  refine
    { nextObject := Nat.le_refl _
      valid := fun cell _ h => h
      globals := fun m cell hCell _ _ => ⟨hCell, hStays m⟩
      builtins := fun m cell hCell _ _ => ⟨hCell, hStays m, rfl⟩
      attached := fun m cell hCell _ _ => ⟨hCell, hStays m⟩ }

theorem Preserves.trans {w w' w'' : World M O} (h : Preserves w w')
    (h' : Preserves w' w'') : Preserves w w'' := by
  have hValid : ∀ cell, cell < w.nextObject → w''.isValid cell = true →
      w'.isValid cell = true := by
    intro cell hLt hCell
    exact h'.valid cell (Nat.lt_of_lt_of_le hLt h.nextObject) hCell
  refine
    { nextObject := h.nextObject.trans h'.nextObject
      valid := fun cell hLt hCell => h.valid cell hLt (hValid cell hLt hCell)
      globals := ?_
      builtins := ?_
      attached := ?_ }
  · intro m cell hCell hLt hIs
    obtain ⟨hCell', hStays⟩ :=
      h.globals m cell hCell hLt (hValid cell hLt hIs)
    obtain ⟨hCell'', hStays'⟩ :=
      h'.globals m cell hCell' (Nat.lt_of_lt_of_le hLt h.nextObject) hIs
    exact ⟨hCell'', hStays.trans hStays'⟩
  · intro m cell hCell hLt hIs
    obtain ⟨hCell', hStays, hCurrent⟩ :=
      h.builtins m cell hCell hLt (hValid cell hLt hIs)
    obtain ⟨hCell'', hStays', hCurrent'⟩ :=
      h'.builtins m cell hCell' (Nat.lt_of_lt_of_le hLt h.nextObject) hIs
    exact ⟨hCell'', hStays.trans hStays', hCurrent'.trans hCurrent⟩
  · intro m cell hCell hLt hIs
    obtain ⟨hCell', hStays⟩ :=
      h.attached m cell hCell hLt (hValid cell hLt hIs)
    obtain ⟨hCell'', hStays'⟩ :=
      h'.attached m cell hCell' (Nat.lt_of_lt_of_le hLt h.nextObject) hIs
    exact ⟨hCell'', hStays.trans hStays'⟩

/-- A lookup continues where the namespaces say. -/
theorem WellFormed.currentBuiltins_eq {w : World M O} (h : WellFormed w)
    (m : M) :
    currentBuiltins w m =
      (ownValue w).builtins w.globalBuiltinsModule m := by
  unfold currentBuiltins World.getBuiltinsBinding
  rw [(h.modules m).get_builtinsLocation]
  rfl

/-! ## Cells -/

/-- Only cells were touched: every module keeps its slots. -/
structure SameObjects (w w' : World M O) : Prop where
  object : ∀ m, (w'.modules m).object = (w.modules m).object
  globalBuiltinsModule : w'.globalBuiltinsModule = w.globalBuiltinsModule

theorem SameObjects.shapeOf_eq {w w' : World M O} (h : SameObjects w w')
    (m : M) : shapeOf w' m = shapeOf w m := by
  unfold shapeOf
  rw [h.object]

theorem SameObjects.ownValue_eq {w w' : World M O} (h : SameObjects w w') :
    ownValue w' = ownValue w := by
  funext m name
  unfold ownValue
  rw [h.object]

theorem SameObjects.stays {w w' : World M O} (h : SameObjects w w') (m : M) :
    Stays w w' m := by
  refine ⟨h.shapeOf_eq m, ?_⟩
  intro name hName
  rw [h.ownValue_eq]
  exact hName

theorem SameObjects.currentBuiltins_eq {w w' : World M O}
    (h : SameObjects w w') (m : M) :
    currentBuiltins w' m = currentBuiltins w m := by
  unfold currentBuiltins World.getBuiltinsBinding World.builtinsOf
  rw [h.object, h.globalBuiltinsModule]

variable [DecidableEq M]

/-- What an operation on cells keeps. -/
structure CellStep (w w' : World M O) : Prop where
  wellFormed : WellFormed w'
  preserves : Preserves w w'
  same : SameObjects w w'

omit [DecidableEq M] in
theorem CellStep.refl {w : World M O} (h : WellFormed w) : CellStep w w :=
  ⟨h, Preserves.refl w, ⟨fun _ => rfl, rfl⟩⟩

theorem invalidateBuiltinsBinding_spec {w : World M O} (h : WellFormed w)
    (m : M) :
    CellStep w (w.invalidateModuleBuiltinsBindingValidityCell m) ∧
      ((w.invalidateModuleBuiltinsBindingValidityCell m).modules
        m).moduleBuiltinsValidityCell = none := by
  let w' := w.invalidateModuleBuiltinsBindingValidityCell m
  have hModules : ∀ k, w'.modules k =
      if k = m then { w.modules m with moduleBuiltinsValidityCell := none }
      else w.modules k := fun _ => rfl
  have hIsValid : ∀ k, w'.isValid k =
      (!decide ((w.modules m).moduleBuiltinsValidityCell = some k) &&
        w.isValid k) := fun _ => rfl
  have hNext : w'.nextObject = w.nextObject := rfl
  have hObject : ∀ k, (w'.modules k).object = (w.modules k).object := by
    intro k
    rw [hModules]
    by_cases hk : k = m
    · rw [if_pos hk, hk]
    · rw [if_neg hk]
  have hGlobals : ∀ k, (w'.modules k).moduleGlobalsValidityCell =
      (w.modules k).moduleGlobalsValidityCell := by
    intro k
    rw [hModules]
    by_cases hk : k = m
    · rw [if_pos hk, hk]
    · rw [if_neg hk]
  have hAttached : ∀ k,
      (w'.modules k).attachedDependentLookupValidityCells =
        (w.modules k).attachedDependentLookupValidityCells := by
    intro k
    rw [hModules]
    by_cases hk : k = m
    · rw [if_pos hk, hk]
    · rw [if_neg hk]
  have hBuiltins : ∀ k cell,
      (w'.modules k).moduleBuiltinsValidityCell = some cell →
      (w.modules k).moduleBuiltinsValidityCell = some cell := by
    intro k cell hCell
    rw [hModules] at hCell
    by_cases hk : k = m
    · rw [if_pos hk] at hCell
      exact absurd hCell (by simp)
    · rwa [if_neg hk] at hCell
  have hSame : SameObjects w w' := ⟨hObject, rfl⟩
  have hValid : ∀ cell, w'.isValid cell = true → w.isValid cell = true ∧
      (w.modules m).moduleBuiltinsValidityCell ≠ some cell := by
    intro cell hCell
    rw [hIsValid] at hCell
    simpa [and_comm] using hCell
  refine ⟨{ wellFormed := ?_, preserves := ?_, same := hSame }, ?_⟩
  · refine
      { modules := ?_
        globals_lt := ?_
        builtins_lt := ?_
        attached_lt := ?_
        attached := ?_ }
    · intro k
      have hModule := h.modules k
      exact ⟨by rw [hObject]; exact hModule.object,
        by rw [hObject]; exact hModule.shape⟩
    · intro k cell hCell
      rw [hGlobals] at hCell
      exact h.globals_lt k cell hCell
    · intro k cell hCell
      exact h.builtins_lt k cell (hBuiltins k cell hCell)
    · intro k cell hCell
      rw [hAttached] at hCell
      exact h.attached_lt k cell hCell
    · intro k cell hCell hIs
      obtain ⟨b, hb, hMem⟩ :=
        h.attached k cell (hBuiltins k cell hCell) (hValid cell hIs).1
      refine ⟨b, (hSame.currentBuiltins_eq k).trans hb, ?_⟩
      rw [hAttached]
      exact hMem
  · refine
      { nextObject := Nat.le_refl _
        valid := fun cell _ hIs => (hValid cell hIs).1
        globals := ?_
        builtins := ?_
        attached := ?_ }
    · intro k cell hCell _ _
      exact ⟨(hGlobals k).trans hCell, hSame.stays k⟩
    · intro k cell hCell _ hIs
      refine ⟨?_, hSame.stays k, hSame.currentBuiltins_eq k⟩
      rw [hModules, if_neg]
      · exact hCell
      · rintro rfl
        exact (hValid cell hIs).2 hCell
    · intro k cell hCell _ _
      refine ⟨?_, hSame.stays k⟩
      rw [hAttached]
      exact hCell
  · show (w'.modules m).moduleBuiltinsValidityCell = none
    rw [hModules, if_pos rfl]

/-- A new cell takes the place of cells that are no longer valid. -/
structure MakesCell (w w' : World M O) : Prop where
  nextObject : w'.nextObject = w.nextObject + 1
  isValid : ∀ cell, w'.isValid cell =
    (decide (cell = w.nextObject) || w.isValid cell)
  same : SameObjects w w'
  globals : ∀ m, (w'.modules m).moduleGlobalsValidityCell =
      (w.modules m).moduleGlobalsValidityCell ∨
    (w'.modules m).moduleGlobalsValidityCell = some w.nextObject ∧
      ∀ cell, (w.modules m).moduleGlobalsValidityCell = some cell →
        w.isValid cell = false
  builtins : ∀ m, (w'.modules m).moduleBuiltinsValidityCell =
      (w.modules m).moduleBuiltinsValidityCell ∨
    (w'.modules m).moduleBuiltinsValidityCell = some w.nextObject ∧
      (∀ cell, (w.modules m).moduleBuiltinsValidityCell = some cell →
        w.isValid cell = false) ∧
      ∃ b, currentBuiltins w m = some b ∧
        w.nextObject ∈ (w'.modules b).attachedDependentLookupValidityCells
  kept : ∀ m cell,
    cell ∈ (w.modules m).attachedDependentLookupValidityCells →
    w.isValid cell = true →
    cell ∈ (w'.modules m).attachedDependentLookupValidityCells
  attached : ∀ m cell,
    cell ∈ (w'.modules m).attachedDependentLookupValidityCells →
    cell ∈ (w.modules m).attachedDependentLookupValidityCells ∨
      cell = w.nextObject

omit [DecidableEq M] in
theorem MakesCell.cellStep {w w' : World M O} (h : WellFormed w)
    (hMakes : MakesCell w w') : CellStep w w' := by
  have hSame := hMakes.same
  have hNext := hMakes.nextObject
  have hOld : ∀ cell, cell < w.nextObject → w'.isValid cell = true →
      w.isValid cell = true := by
    intro cell hLt hIs
    rw [hMakes.isValid, decide_eq_false (Nat.ne_of_lt hLt)] at hIs
    exact hIs
  refine { wellFormed := ?_, preserves := ?_, same := hSame }
  · refine
      { modules := ?_
        globals_lt := ?_
        builtins_lt := ?_
        attached_lt := ?_
        attached := ?_ }
    · intro k
      have hModule := h.modules k
      exact ⟨by rw [hSame.object]; exact hModule.object,
        by rw [hSame.object]; exact hModule.shape⟩
    · intro k cell hCell
      rcases hMakes.globals k with hKept | ⟨hNew, -⟩
      · rw [hKept] at hCell
        have := h.globals_lt k cell hCell
        omega
      · rw [hNew] at hCell
        have := Option.some.inj hCell
        omega
    · intro k cell hCell
      rcases hMakes.builtins k with hKept | ⟨hNew, -⟩
      · rw [hKept] at hCell
        have := h.builtins_lt k cell hCell
        omega
      · rw [hNew] at hCell
        have := Option.some.inj hCell
        omega
    · intro k cell hCell
      rcases hMakes.attached k cell hCell with hKept | hNew
      · have := h.attached_lt k cell hKept
        omega
      · omega
    · intro k cell hCell hIs
      rcases hMakes.builtins k with hKept | ⟨hNew, -, b, hb, hMem⟩
      · rw [hKept] at hCell
        have hIs' := hOld cell (h.builtins_lt k cell hCell) hIs
        obtain ⟨b, hb, hMem⟩ := h.attached k cell hCell hIs'
        exact ⟨b, (hSame.currentBuiltins_eq k).trans hb,
          hMakes.kept b cell hMem hIs'⟩
      · rw [hNew] at hCell
        obtain rfl := Option.some.inj hCell
        exact ⟨b, (hSame.currentBuiltins_eq k).trans hb, hMem⟩
  · refine
      { nextObject := by omega
        valid := hOld
        globals := ?_
        builtins := ?_
        attached := ?_ }
    · intro k cell hCell hLt hIs
      refine ⟨?_, hSame.stays k⟩
      rcases hMakes.globals k with hKept | ⟨-, hInvalid⟩
      · exact hKept.trans hCell
      · exact absurd (hOld cell hLt hIs) (by simp [hInvalid cell hCell])
    · intro k cell hCell hLt hIs
      refine ⟨?_, hSame.stays k, hSame.currentBuiltins_eq k⟩
      rcases hMakes.builtins k with hKept | ⟨-, hInvalid, -⟩
      · exact hKept.trans hCell
      · exact absurd (hOld cell hLt hIs) (by simp [hInvalid cell hCell])
    · intro k cell hCell hLt hIs
      exact ⟨hMakes.kept k cell hCell (hOld cell hLt hIs), hSame.stays k⟩

theorem createGlobalsCell_spec {w : World M O} (h : WellFormed w) (m : M)
    (hInvalid : ∀ cell, (w.modules m).moduleGlobalsValidityCell = some cell →
      w.isValid cell = false) :
    CellStep w (w.createModuleGlobalsValidityCellSlow m).2 := by
  let w' := (w.createModuleGlobalsValidityCellSlow m).2
  have hModules : ∀ k, w'.modules k =
      if k = m then
        { w.modules m with moduleGlobalsValidityCell := some w.nextObject }
      else w.modules k := fun _ => rfl
  refine MakesCell.cellStep h
    { nextObject := rfl
      isValid := fun _ => rfl
      same := ⟨?_, rfl⟩
      globals := ?_
      builtins := ?_
      kept := ?_
      attached := ?_ }
  · intro k
    show (w'.modules k).object = _
    rw [hModules]
    by_cases hk : k = m
    · rw [if_pos hk, hk]
    · rw [if_neg hk]
  · intro k
    show (w'.modules k).moduleGlobalsValidityCell = _ ∨
      (w'.modules k).moduleGlobalsValidityCell = _ ∧ _
    rw [hModules]
    by_cases hk : k = m
    · subst hk
      rw [if_pos rfl]
      exact Or.inr ⟨rfl, hInvalid⟩
    · rw [if_neg hk]
      exact Or.inl rfl
  · intro k
    left
    show (w'.modules k).moduleBuiltinsValidityCell = _
    rw [hModules]
    by_cases hk : k = m
    · rw [if_pos hk, hk]
    · rw [if_neg hk]
  · intro k cell hMem _
    show cell ∈ (w'.modules k).attachedDependentLookupValidityCells
    rw [hModules]
    by_cases hk : k = m
    · rw [if_pos hk, ← hk]
      exact hMem
    · rw [if_neg hk]
      exact hMem
  · intro k cell hMem
    left
    have hMem' : cell ∈
        (w'.modules k).attachedDependentLookupValidityCells := hMem
    rw [hModules] at hMem'
    by_cases hk : k = m
    · rw [if_pos hk] at hMem'
      rw [hk]
      exact hMem'
    · rwa [if_neg hk] at hMem'

/-- The cell of a module is valid and its own. -/
theorem getOrCreateGlobalsCell_spec {w : World M O} (h : WellFormed w)
    (m : M) :
    CellStep w (w.getOrCreateModuleGlobalsValidityCell m).2 ∧
      ((w.getOrCreateModuleGlobalsValidityCell m).2.modules
          m).moduleGlobalsValidityCell =
        some (w.getOrCreateModuleGlobalsValidityCell m).1 ∧
      (w.getOrCreateModuleGlobalsValidityCell m).1 <
        (w.getOrCreateModuleGlobalsValidityCell m).2.nextObject := by
  have hCreated :
      ((w.createModuleGlobalsValidityCellSlow m).2.modules
          m).moduleGlobalsValidityCell =
        some (w.createModuleGlobalsValidityCellSlow m).1 ∧
      (w.createModuleGlobalsValidityCellSlow m).1 <
        (w.createModuleGlobalsValidityCellSlow m).2.nextObject := by
    refine ⟨?_, Nat.lt_succ_self _⟩
    show (if m = m then
      { w.modules m with moduleGlobalsValidityCell := some w.nextObject }
      else w.modules m).moduleGlobalsValidityCell = _
    rw [if_pos rfl]
    rfl
  unfold World.getOrCreateModuleGlobalsValidityCell
  cases hCell : (w.modules m).moduleGlobalsValidityCell with
  | none =>
      refine ⟨createGlobalsCell_spec h m ?_, hCreated⟩
      intro cell hSome
      rw [hCell] at hSome
      exact absurd hSome (by simp)
  | some cell =>
      by_cases hValid : w.isValid cell = true
      · simp only [if_pos hValid]
        exact ⟨CellStep.refl h, hCell, h.globals_lt m cell hCell⟩
      · simp only [if_neg hValid]
        refine ⟨createGlobalsCell_spec h m ?_, hCreated⟩
        intro cell' hSome
        rw [hCell] at hSome
        obtain rfl := Option.some.inj hSome
        exact Bool.not_eq_true _ ▸ hValid

theorem mem_or_eq_of_mem_attachCell {isValid : Nat → Bool}
    {cells : List Nat} {cell k : Nat}
    (h : k ∈ ClassObject.attachCell isValid cells cell) :
    k ∈ cells ∨ k = cell := by
  rw [ClassObject.attachCell] at h
  split at h
  · exact List.mem_or_eq_of_mem_set h
  · rcases List.mem_append.mp h with hMem | hMem
    · exact Or.inl hMem
    · exact Or.inr (List.mem_singleton.mp hMem)

/-- A new builtins cell is attached to the current builtins. -/
theorem createBuiltinsCell_spec {w : World M O} (h : WellFormed w) {m b : M}
    (hb : currentBuiltins w m = some b)
    (hInvalid : ∀ cell,
      (w.modules m).moduleBuiltinsValidityCell = some cell →
      w.isValid cell = false) :
    CellStep w (w.createModuleBuiltinsValidityCellSlow m b).2 ∧
      ((w.createModuleBuiltinsValidityCellSlow m b).2.modules
        m).moduleBuiltinsValidityCell = some w.nextObject ∧
      (w.createModuleBuiltinsValidityCellSlow m b).2.isValid w.nextObject =
        true := by
  let w' := (w.createModuleBuiltinsValidityCellSlow m b).2
  let start : M → ModuleObject M O := fun k =>
    if k = m then
      { w.modules m with moduleBuiltinsValidityCell := some w.nextObject }
    else w.modules k
  have hIsValid : ∀ cell, w'.isValid cell =
      (decide (cell = w.nextObject) || w.isValid cell) := fun _ => rfl
  have hModules : ∀ k, w'.modules k =
      if k = b then
        { start b with
          attachedDependentLookupValidityCells :=
            ClassObject.attachCell w'.isValid
              (start b).attachedDependentLookupValidityCells w.nextObject }
      else start k := fun _ => rfl
  have hStart : ∀ k, start k =
      if k = m then
        { w.modules m with moduleBuiltinsValidityCell := some w.nextObject }
      else w.modules k := fun _ => rfl
  have hStartObject : ∀ k, (start k).object = (w.modules k).object := by
    intro k
    rw [hStart]
    by_cases hk : k = m
    · rw [if_pos hk, hk]
    · rw [if_neg hk]
  have hStartGlobals : ∀ k, (start k).moduleGlobalsValidityCell =
      (w.modules k).moduleGlobalsValidityCell := by
    intro k
    rw [hStart]
    by_cases hk : k = m
    · rw [if_pos hk, hk]
    · rw [if_neg hk]
  have hStartAttached : ∀ k,
      (start k).attachedDependentLookupValidityCells =
        (w.modules k).attachedDependentLookupValidityCells := by
    intro k
    rw [hStart]
    by_cases hk : k = m
    · rw [if_pos hk, hk]
    · rw [if_neg hk]
  have hBuiltins : ∀ k, (w'.modules k).moduleBuiltinsValidityCell =
      if k = m then some w.nextObject
      else (w.modules k).moduleBuiltinsValidityCell := by
    intro k
    have hKeeps : (w'.modules k).moduleBuiltinsValidityCell =
        (start k).moduleBuiltinsValidityCell := by
      rw [hModules]
      by_cases hk : k = b
      · rw [if_pos hk, hk]
      · rw [if_neg hk]
    rw [hKeeps, hStart]
    by_cases hk : k = m
    · rw [if_pos hk, if_pos hk]
    · rw [if_neg hk, if_neg hk]
  have hSelf : w.nextObject ∈
      (w'.modules b).attachedDependentLookupValidityCells := by
    rw [hModules, if_pos rfl]
    exact ClassObject.mem_attachCell_self _ _ _
  refine ⟨MakesCell.cellStep h
    { nextObject := rfl
      isValid := hIsValid
      same := ⟨?_, rfl⟩
      globals := ?_
      builtins := ?_
      kept := ?_
      attached := ?_ }, ?_, ?_⟩
  · intro k
    show (w'.modules k).object = _
    rw [hModules, ← hStartObject k]
    by_cases hk : k = b
    · rw [if_pos hk, hk]
    · rw [if_neg hk]
  · intro k
    left
    show (w'.modules k).moduleGlobalsValidityCell = _
    rw [hModules, ← hStartGlobals k]
    by_cases hk : k = b
    · rw [if_pos hk, hk]
    · rw [if_neg hk]
  · intro k
    show (w'.modules k).moduleBuiltinsValidityCell = _ ∨
      (w'.modules k).moduleBuiltinsValidityCell = _ ∧ _
    rw [hBuiltins]
    by_cases hk : k = m
    · subst hk
      rw [if_pos rfl]
      exact Or.inr ⟨rfl, hInvalid, b, hb, hSelf⟩
    · rw [if_neg hk]
      exact Or.inl rfl
  · intro k cell hMem hIs
    show cell ∈ (w'.modules k).attachedDependentLookupValidityCells
    rw [← hStartAttached k] at hMem
    rw [hModules]
    by_cases hk : k = b
    · rw [if_pos hk]
      rw [hk] at hMem
      refine ClassObject.mem_attachCell_of_valid hMem ?_
      rw [hIsValid, hIs, Bool.or_true]
    · rw [if_neg hk]
      exact hMem
  · intro k cell hMem
    have hMem' : cell ∈
        (w'.modules k).attachedDependentLookupValidityCells := hMem
    rw [hModules] at hMem'
    rw [← hStartAttached k]
    by_cases hk : k = b
    · rw [if_pos hk] at hMem'
      rw [hk]
      exact mem_or_eq_of_mem_attachCell hMem'
    · rw [if_neg hk] at hMem'
      exact Or.inl hMem'
  · show (w'.modules m).moduleBuiltinsValidityCell = _
    rw [hBuiltins, if_pos rfl]
  · show w'.isValid w.nextObject = true
    rw [hIsValid, decide_eq_true rfl, Bool.true_or]

/-- The lookup continues in the current builtins, with the cell of the
module. -/
theorem getModuleBuiltinsLookup_spec {w : World M O} (h : WellFormed w)
    (m : M) :
    CellStep w (w.getModuleBuiltinsLookup m).2 ∧
      (currentBuiltins w m = none ∧ (w.getModuleBuiltinsLookup m).1 = none ∨
        ∃ b cell, currentBuiltins w m = some b ∧
          (w.getModuleBuiltinsLookup m).1 = some (b, cell) ∧
          ((w.getModuleBuiltinsLookup m).2.modules
            m).moduleBuiltinsValidityCell = some cell ∧
          (w.getModuleBuiltinsLookup m).2.isValid cell = true) := by
  unfold World.getModuleBuiltinsLookup
  cases hb : currentBuiltins w m with
  | none =>
      have hb' : w.builtinsOf (w.getBuiltinsBinding m) = none := hb
      simp only [hb']
      exact ⟨CellStep.refl h, Or.inl ⟨trivial, trivial⟩⟩
  | some b =>
      have hb' : w.builtinsOf (w.getBuiltinsBinding m) = some b := hb
      simp only [hb']
      cases hCell : (w.modules m).moduleBuiltinsValidityCell with
      | none =>
          obtain ⟨hStep, hNew⟩ := createBuiltinsCell_spec h hb (by
            intro cell hSome
            rw [hCell] at hSome
            exact absurd hSome (by simp))
          exact ⟨hStep, Or.inr ⟨b, w.nextObject, rfl, rfl, hNew⟩⟩
      | some cell =>
          by_cases hValid : w.isValid cell = true
          · simp only [if_pos hValid]
            exact ⟨CellStep.refl h, Or.inr ⟨b, cell, rfl, rfl, hCell, hValid⟩⟩
          · simp only [if_neg hValid]
            obtain ⟨hStep, hNew⟩ := createBuiltinsCell_spec h hb (by
              intro cell' hSome
              rw [hCell] at hSome
              obtain rfl := Option.some.inj hSome
              exact Bool.not_eq_true _ ▸ hValid)
            exact ⟨hStep, Or.inr ⟨b, w.nextObject, rfl, rfl, hNew⟩⟩

/-! ## Taking another shape -/

/-- The module has another shape and its cells are invalid. -/
def reshape (w : World M O) (m : M) (object : SlotObject (GlobalValue M O)) :
    World M O :=
  { w.update m { object } with
    isValid := fun k =>
      !decide (k ∈ (w.modules m).attachedDependentLookupValidityCells) &&
        !decide ((w.modules m).moduleGlobalsValidityCell = some k) &&
        !decide ((w.modules m).moduleBuiltinsValidityCell = some k) &&
        w.isValid k }

theorem reshape_spec {w : World M O} (h : WellFormed w) (m : M)
    {object : SlotObject (GlobalValue M O)} (hObject : object.WellFormed)
    (hShape : IsModuleShape object.shape) :
    WellFormed (reshape w m object) ∧ Preserves w (reshape w m object) := by
  have hModules : ∀ k, (reshape w m object).modules k =
      if k = m then { object } else w.modules k := fun _ => rfl
  have hValid : ∀ cell, (reshape w m object).isValid cell = true →
      w.isValid cell = true ∧
        cell ∉ (w.modules m).attachedDependentLookupValidityCells ∧
        (w.modules m).moduleGlobalsValidityCell ≠ some cell ∧
        (w.modules m).moduleBuiltinsValidityCell ≠ some cell := by
    intro cell hIs
    unfold reshape at hIs
    simp only [Bool.and_eq_true, Bool.not_eq_true', decide_eq_false_iff_not]
      at hIs
    exact ⟨hIs.2, hIs.1.1.1, hIs.1.1.2, hIs.1.2⟩
  have hOther : ∀ k, k ≠ m →
      (reshape w m object).modules k = w.modules k := by
    intro k hk
    rw [hModules, if_neg hk]
  have hStays : ∀ k, k ≠ m → Stays w (reshape w m object) k := by
    intro k hk
    refine ⟨?_, ?_⟩
    · unfold shapeOf
      rw [hOther k hk]
    · intro name hName
      unfold ownValue
      rw [hOther k hk]
      exact hName
  have hCurrent : ∀ k, k ≠ m →
      currentBuiltins (reshape w m object) k = currentBuiltins w k := by
    intro k hk
    unfold currentBuiltins World.getBuiltinsBinding
    rw [hOther k hk]
    rfl
  refine ⟨?_, ?_⟩
  · refine
      { modules := ?_
        globals_lt := ?_
        builtins_lt := ?_
        attached_lt := ?_
        attached := ?_ }
    · intro k
      rw [hModules]
      by_cases hk : k = m
      · rw [if_pos hk]
        exact ⟨hObject, hShape⟩
      · rw [if_neg hk]
        exact h.modules k
    · intro k cell hCell
      by_cases hk : k = m
      · rw [hModules, if_pos hk] at hCell
        exact absurd hCell (by simp)
      · rw [hOther k hk] at hCell
        exact h.globals_lt k cell hCell
    · intro k cell hCell
      by_cases hk : k = m
      · rw [hModules, if_pos hk] at hCell
        exact absurd hCell (by simp)
      · rw [hOther k hk] at hCell
        exact h.builtins_lt k cell hCell
    · intro k cell hCell
      by_cases hk : k = m
      · rw [hModules, if_pos hk] at hCell
        exact absurd hCell (by simp)
      · rw [hOther k hk] at hCell
        exact h.attached_lt k cell hCell
    · intro k cell hCell hIs
      by_cases hk : k = m
      · rw [hModules, if_pos hk] at hCell
        exact absurd hCell (by simp)
      · rw [hOther k hk] at hCell
        obtain ⟨hIs', hNotAttached, -, -⟩ := hValid cell hIs
        obtain ⟨b, hb, hMem⟩ := h.attached k cell hCell hIs'
        have hNe : b ≠ m := by
          rintro rfl
          exact hNotAttached hMem
        refine ⟨b, (hCurrent k hk).trans hb, ?_⟩
        rw [hOther b hNe]
        exact hMem
  · refine
      { nextObject := Nat.le_refl _
        valid := fun cell _ hIs => (hValid cell hIs).1
        globals := ?_
        builtins := ?_
        attached := ?_ }
    · intro k cell hCell _ hIs
      have hk : k ≠ m := by
        rintro rfl
        exact (hValid cell hIs).2.2.1 hCell
      exact ⟨by rw [hOther k hk]; exact hCell, hStays k hk⟩
    · intro k cell hCell _ hIs
      have hk : k ≠ m := by
        rintro rfl
        exact (hValid cell hIs).2.2.2 hCell
      exact ⟨by rw [hOther k hk]; exact hCell, hStays k hk, hCurrent k hk⟩
    · intro k cell hCell _ hIs
      have hk : k ≠ m := by
        rintro rfl
        exact (hValid cell hIs).2.1 hCell
      exact ⟨by rw [hOther k hk]; exact hCell, hStays k hk⟩

theorem ownValue_reshape (w : World M O) (m : M)
    (object : SlotObject (GlobalValue M O)) (k : M) (name : String) :
    ownValue (reshape w m object) k name =
      if k = m then object.ownValue name else ownValue w k name := by
  show ((if k = m then { object } else w.modules k : ModuleObject M O)
    ).object.ownValue name = _
  by_cases hk : k = m
  · rw [if_pos hk, if_pos hk]
  · rw [if_neg hk, if_neg hk]
    rfl

/-- A change of shape invalidates the cells; a write of the slot may follow. -/
theorem setShape_eq_reshape {w : World M O} {m : M} {newShape : Shape}
    {object : SlotObject (GlobalValue M O)}
    (hSet : (w.modules m).object.setShape newShape = .ok object)
    (hNe : newShape ≠ shapeOf w m) :
    w.setShape m newShape = .ok (reshape w m object) := by
  unfold World.setShape
  simp only [hSet]
  show Except.ok (if (w.modules m).object.shape = newShape then _ else _) = _
  rw [if_neg fun hEq => hNe hEq.symm]
  refine congrArg Except.ok ?_
  unfold World.invalidateModuleLookupValidityCells reshape World.update
  simp only [if_true]
  congr 1
  funext k
  by_cases hk : k = m
  · rw [if_pos hk, if_pos hk]
  · rw [if_neg hk, if_neg hk, if_neg hk]

theorem reshape_update (w : World M O) (m : M)
    (object object' : SlotObject (GlobalValue M O)) :
    (reshape w m object).update m
        { (reshape w m object).modules m with object := object' } =
      reshape w m object' := by
  unfold reshape World.update
  simp only [if_true]
  congr 1
  funext k
  by_cases hk : k = m
  · rw [if_pos hk, if_pos hk]
  · rw [if_neg hk, if_neg hk, if_neg hk]

end Worlds

end CloverVM.BuiltinTypes.ModuleInvariant
