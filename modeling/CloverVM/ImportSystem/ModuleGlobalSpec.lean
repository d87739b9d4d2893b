import CloverVM.BuiltinTypes.ModuleWrites
import CloverVM.ImportSystem.ModuleGlobal

/-!
# What the operations on globals do

Each resolution of a global, with what the cell of a cacheable one stands for,
and what carrying the plan out does to the namespaces.
-/

namespace CloverVM.ImportSystem.ModuleGlobalSpec

open CloverVM.ObjectModel
open CloverVM.BuiltinTypes.ModuleObject
open CloverVM.BuiltinTypes.ModuleInvariant
open CloverVM.BuiltinTypes.ModuleWrites
open CloverVM.ImportSystem.ModuleNamespace
open CloverVM.ImportSystem.ModuleGlobal

variable {M O : Type}

/-- The shape has a slot for the name, and the slot is empty: `__builtins__` in
a module that was made without. -/
def OwnSlotEmpty (w : World M O) (m : M) (name : String) : Prop :=
  ((shapeOf w m).resolvePresentProperty name).isSome = true ∧
    ownValue w m name = none

/-- A load finds an empty slot. -/
def LandsOnEmptySlot (w : World M O) (m : M) (name : String) : Prop :=
  OwnSlotEmpty w m name ∨
    (shapeOf w m).resolvePresentProperty name = none ∧
      ∃ b, currentBuiltins w m = some b ∧ OwnSlotEmpty w b name

/-- The name of a new global gets an inline slot, and a name that was deleted
has no slot of its own any more. -/
def GlobalStoreFits (w : World M O) (m : M) (name : String) : Prop :=
  match (shapeOf w m).lookupDescriptorIncludingLatent name with
  | .absent => (shapeOf w m).nextSlotIndex < moduleInlineStorageSlotCount
  | .latent _ => False
  | .present _ => True

/-! ## What a cached slot stands for -/

/-- The slot of a cached load, in the module or in its builtins. -/
def ReadStands (w : World M O) (m : M) (name : String) (cell : Nat)
    (plan : ModuleGlobalSlotPlan M) : Prop :=
  (plan.storageOwner = m ∧
      (w.modules m).moduleGlobalsValidityCell = some cell ∧
      (shapeOf w m).resolvePresentProperty name = some plan.storageLocation ∧
      ownValue w m name ≠ none) ∨
    ((w.modules m).moduleBuiltinsValidityCell = some cell ∧
      (shapeOf w m).resolvePresentProperty name = none ∧
      currentBuiltins w m = some plan.storageOwner ∧
      cell ∈ (w.modules
        plan.storageOwner).attachedDependentLookupValidityCells ∧
      (shapeOf w plan.storageOwner).resolvePresentProperty name =
        some plan.storageLocation ∧
      ownValue w plan.storageOwner name ≠ none)

/-- The slot of a cached store. -/
structure WriteStands (w : World M O) (m : M) (name : String) (cell : Nat)
    (plan : ModuleGlobalSlotPlan M) : Prop where
  owner : plan.storageOwner = m
  cell : (w.modules m).moduleGlobalsValidityCell = some cell
  location :
    (shapeOf w m).resolvePresentProperty name = some plan.storageLocation
  ordinary : name ≠ "__builtins__"

theorem ReadStands.preserved {w w' : World M O} {m : M} {name : String}
    {cell : Nat} {plan : ModuleGlobalSlotPlan M}
    (h : ReadStands w m name cell plan) (hPreserves : Preserves w w')
    (hLt : cell < w.nextObject) (hIs : w'.isValid cell = true) :
    ReadStands w' m name cell plan := by
  rcases h with ⟨hOwner, hCell, hLoc, hValue⟩ |
    ⟨hCell, hNone, hCurrent, hAttached, hLoc, hValue⟩
  · obtain ⟨hCell', hStays⟩ := hPreserves.globals m cell hCell hLt hIs
    refine Or.inl ⟨hOwner, hCell', ?_, hStays.value name hValue⟩
    rw [hStays.shape]
    exact hLoc
  · obtain ⟨hCell', hStays, hCurrent'⟩ :=
      hPreserves.builtins m cell hCell hLt hIs
    obtain ⟨hAttached', hStays'⟩ :=
      hPreserves.attached plan.storageOwner cell hAttached hLt hIs
    refine Or.inr ⟨hCell', ?_, hCurrent'.trans hCurrent, hAttached', ?_,
      hStays'.value name hValue⟩
    · rw [hStays.shape]
      exact hNone
    · rw [hStays'.shape]
      exact hLoc

theorem WriteStands.preserved {w w' : World M O} {m : M} {name : String}
    {cell : Nat} {plan : ModuleGlobalSlotPlan M}
    (h : WriteStands w m name cell plan) (hPreserves : Preserves w w')
    (hLt : cell < w.nextObject) (hIs : w'.isValid cell = true) :
    WriteStands w' m name cell plan := by
  obtain ⟨hCell, hStays⟩ := hPreserves.globals m cell h.cell hLt hIs
  refine { owner := h.owner, cell := hCell, location := ?_
           ordinary := h.ordinary }
  rw [hStays.shape]
  exact h.location

theorem ownValue_eq_none_of_not_located {w : World M O} {m : M}
    {name : String}
    (h : (shapeOf w m).resolvePresentProperty name = none) :
    ownValue w m name = none := by
  show (w.modules m).object.ownValue name = none
  unfold SlotObject.ownValue
  unfold shapeOf at h
  rw [h]
  rfl

/-- The slot of a cached load holds what a lookup finds. -/
theorem ReadStands.load {w : World M O} (h : WellFormed w) {m : M}
    {name : String} {cell : Nat} {plan : ModuleGlobalSlotPlan M}
    (hStands : ReadStands w m name cell plan) :
    ∃ v, (ownValue w).lookup w.globalBuiltinsModule m name = some v ∧
      loadModuleGlobalFromSlotPlan w plan = .ok (some v) := by
  unfold loadModuleGlobalFromSlotPlan Namespaces.lookup
  rcases hStands with ⟨hOwner, -, hLoc, hValue⟩ |
    ⟨-, hNone, hCurrent, -, hLoc, hValue⟩
  · obtain ⟨v, hv⟩ := Option.ne_none_iff_exists'.mp hValue
    refine ⟨v, by simp only [hv], ?_⟩
    rw [hOwner, (h.modules m).object.read hLoc]
    exact congrArg Except.ok hv
  · obtain ⟨v, hv⟩ := Option.ne_none_iff_exists'.mp hValue
    refine ⟨v, ?_, ?_⟩
    · rw [h.currentBuiltins_eq] at hCurrent
      simp only [ownValue_eq_none_of_not_located hNone, hCurrent,
        Option.bind_some, hv]
    · rw [(h.modules plan.storageOwner).object.read hLoc]
      exact congrArg Except.ok hv

variable [DecidableEq M]

/-! ## Loading -/

/-- A load finds what the namespaces say, and a cell that stands for it. -/
theorem resolveRead_spec {w : World M O} (h : WellFormed w) {m : M}
    {name : String} (hLands : ¬ LandsOnEmptySlot w m name) :
    CellStep w (resolveModuleGlobalReadDescriptor w m name).2 ∧
      ((∃ plan cell, (resolveModuleGlobalReadDescriptor w m name).1 =
            ⟨.slot plan, some cell⟩ ∧
          ReadStands (resolveModuleGlobalReadDescriptor w m name).2 m name
            cell plan ∧
          cell < (resolveModuleGlobalReadDescriptor w m name).2.nextObject) ∨
        (∃ plan, (resolveModuleGlobalReadDescriptor w m name).1 =
            ⟨plan, none⟩ ∧
          (∀ w', loadModuleGlobalFromPlan w' plan = .ok none) ∧
          (ownValue w).lookup w.globalBuiltinsModule m name = none)) := by
  unfold resolveModuleGlobalReadDescriptor
  cases hLoc : (shapeOf w m).resolvePresentProperty name with
  | some loc =>
      obtain ⟨hStep, hCell, hLt⟩ := getOrCreateGlobalsCell_spec h m
      have hLoc' : (w.modules m).object.shape.resolvePresentProperty name =
          some loc := hLoc
      simp only [hLoc']
      refine ⟨hStep, Or.inl ⟨_, _, rfl, Or.inl ⟨rfl, hCell, ?_, ?_⟩, hLt⟩⟩
      · rw [hStep.same.shapeOf_eq]
        exact hLoc
      · rw [hStep.same.ownValue_eq]
        intro hNone
        exact hLands (Or.inl ⟨by rw [hLoc]; rfl, hNone⟩)
  | none =>
      have hLoc' : (w.modules m).object.shape.resolvePresentProperty name =
          none := hLoc
      simp only [hLoc']
      obtain ⟨hStep, hLookup⟩ := getModuleBuiltinsLookup_spec h m
      have hOwn := ownValue_eq_none_of_not_located hLoc
      rcases hLookup with ⟨hNone, hResult⟩ | ⟨b, cell, hb, hResult, hCell, hIs⟩
      · rcases hPair : w.getModuleBuiltinsLookup m with ⟨r, w'⟩
        rw [hPair] at hStep hResult
        simp only at hResult
        subst hResult
        refine ⟨hStep, Or.inr ⟨_, rfl, fun _ => rfl, ?_⟩⟩
        unfold Namespaces.lookup
        rw [h.currentBuiltins_eq] at hNone
        simp only [hOwn, hNone, Option.bind_none]
      · rcases hPair : w.getModuleBuiltinsLookup m with ⟨r, w'⟩
        rw [hPair] at hStep hResult hCell hIs
        simp only at hResult hCell hIs
        subst hResult
        simp only
        have hShape : (w'.modules b).object.shape.resolvePresentProperty name =
            (shapeOf w b).resolvePresentProperty name := by
          have hEq := hStep.same.shapeOf_eq b
          unfold shapeOf at hEq ⊢
          rw [hEq]
        rw [hShape]
        cases hFound : (shapeOf w b).resolvePresentProperty name with
        | none =>
            refine ⟨hStep, Or.inr ⟨_, rfl, fun _ => rfl, ?_⟩⟩
            have hCurrent := hb
            rw [h.currentBuiltins_eq] at hCurrent
            unfold Namespaces.lookup
            simp only [hOwn, hCurrent, Option.bind_some]
            exact ownValue_eq_none_of_not_located hFound
        | some loc =>
            have hLt := hStep.wellFormed.builtins_lt m cell hCell
            have hShapeM : (shapeOf w' m).resolvePresentProperty name =
                none := by
              rw [hStep.same.shapeOf_eq]
              exact hLoc
            refine ⟨hStep, Or.inl ⟨_, _, rfl, Or.inr ⟨hCell, hShapeM, ?_, ?_,
              hShape.trans hFound, ?_⟩, hLt⟩⟩
            · exact (hStep.same.currentBuiltins_eq m).trans hb
            · obtain ⟨b', hb', hMem⟩ :=
                hStep.wellFormed.attached m cell hCell hIs
              rw [hStep.same.currentBuiltins_eq, hb] at hb'
              obtain rfl := Option.some.inj hb'
              exact hMem
            · rw [hStep.same.ownValue_eq]
              intro hNone
              exact hLands (Or.inr ⟨hLoc, b, hb, by rw [hFound]; rfl, hNone⟩)

/-- An uncached load leaves what the namespaces say. -/
theorem loadModuleGlobal_spec {w : World M O} (h : WellFormed w) {m : M}
    {name : String} (hLands : ¬ LandsOnEmptySlot w m name) :
    ∃ r, loadModuleGlobal w m name = .ok r ∧ CellStep w r.2 ∧
      r.1 = (ownValue w).lookup w.globalBuiltinsModule m name := by
  obtain ⟨hStep, hCases⟩ := resolveRead_spec h hLands
  let r := resolveModuleGlobalReadDescriptor w m name
  unfold loadModuleGlobal
  rcases hCases with ⟨plan, cell, hResult, hStands, -⟩ |
    ⟨plan, hResult, hLoad, hLookup⟩
  · obtain ⟨v, hLookup, hLoad⟩ := hStands.load hStep.wellFormed
    rw [hStep.same.ownValue_eq, hStep.same.globalBuiltinsModule] at hLookup
    refine ⟨(some v, r.2), ?_, hStep, hLookup.symm⟩
    simp only [hResult]
    show (loadModuleGlobalFromSlotPlan r.2 plan >>= fun value => _) = _
    rw [hLoad]
    rfl
  · refine ⟨(none, r.2), ?_, hStep, hLookup.symm⟩
    simp only [hResult]
    show (loadModuleGlobalFromPlan r.2 plan >>= fun value => _) = _
    rw [hLoad]
    rfl

/-! ## Storing -/

/-- Storing by a plan for a slot that the name has. -/
theorem storeExisting_spec {w : World M O} (h : WellFormed w) {m : M}
    {name : String} {loc : StorageLocation} (value : GlobalValue M O)
    (hLoc : (shapeOf w m).resolvePresentProperty name = some loc)
    (hBuiltins : name = "__builtins__" →
      (w.modules m).moduleBuiltinsValidityCell = none) :
    ∃ w', storeModuleGlobalFromPlan w m (.storeExisting ⟨m, loc⟩) value =
        .ok (true, w') ∧
      Becomes w w' ((ownValue w).set m name (some value)) := by
  obtain ⟨w', hWrite, hBecomes⟩ := write_spec h value hLoc (by
    intro hName cell hCell
    rw [hBuiltins hName] at hCell
    exact absurd hCell (by simp))
  refine ⟨w', ?_, hBecomes⟩
  show (w.writeStorageLocation m loc (some value) >>= fun w => _) = _
  rw [hWrite]
  rfl

/-- What a store of a global resolves to: a plan that binds the name, and for
a cacheable one a cell that stands for the slot. -/
def StoresBy (w w' : World M O) (m : M) (name : String)
    (value : GlobalValue M O) (d : ModuleGlobalMutationDescriptor M) : Prop :=
  ∃ plan cell, d = .found plan cell ∧
    (∃ w'', storeModuleGlobalFromPlan w' m plan value = .ok (true, w'') ∧
      Becomes w' w'' ((ownValue w).set m name (some value))) ∧
    ∀ c, cell = some c → ∃ slotPlan, plan = .storeExisting slotPlan ∧
      WriteStands w' m name c slotPlan ∧ c < w'.nextObject

theorem resolveWrite_spec {w : World M O} (h : WellFormed w) {m : M}
    {name : String} (value : GlobalValue M O)
    (hFits : GlobalStoreFits w m name) :
    ∃ r, resolveModuleGlobalWriteDescriptor w m name = .ok r ∧
      CellStep w r.2 ∧
      (reserved name = true ∧ r.1 = .readOnly ∨
        reserved name = false ∧ StoresBy w r.2 m name value r.1) := by
  have hModule := h.modules m
  have hShape := hModule.shape
  unfold resolveModuleGlobalWriteDescriptor
  unfold GlobalStoreFits shapeOf at hFits
  rcases hShape.cases name with ⟨hNot, hNe, hLookup⟩ |
    ⟨info, loc, -, hLookup, -, -⟩ |
    ⟨info, loc, hNot, hNe, hLookup, hLoc, hMutate, hReadOnly⟩ |
    ⟨hName, hLookup⟩ | ⟨info, hReserved, hLookup, hLoc, hMutate, hKind⟩
  · rw [hLookup] at hFits
    simp only at hFits
    have hNew : ∀ info, (shapeOf w m).lookupDescriptorIncludingLatent name ≠
        .present info := by
      intro info hInfo
      exact absurd (hLookup.symm.trans hInfo) (by simp)
    obtain ⟨loc, hLoc, hDerive⟩ := deriveAdded_spec hShape hNew
    have hInline : loc.kind = .inline := by
      unfold Shape.insertedInfo Shape.newStorageLocation at hLoc
      rw [hLookup, if_pos (by rw [hShape.capacity]; exact hFits)] at hLoc
      obtain rfl := Option.some.inj hLoc
      rfl
    have hAttributeFits : AttributeStoreFits w m name := by
      unfold AttributeStoreFits shapeOf
      rw [hLookup]
      simp only
      omega
    obtain ⟨w', hStore, hBecomes⟩ := storeAdded_spec h value hNew
      (Or.inr rfl) hLoc (hAttributeFits.slots_le h hNew)
    refine ⟨(.found (.addOwnProperty ((shapeOf w m).withAdded name {}) loc)
      none, w), ?_, CellStep.refl h, Or.inr ⟨hNot, _, none, rfl, ?_, ?_⟩⟩
    · simp only [hShape.updates, hLookup, hShape.addDelete, hDerive, bind,
        Except.bind, addOwnPropertyPlan, if_pos hInline]
      rfl
    · refine ⟨w', ?_, hBecomes⟩
      unfold storeModuleGlobalFromPlan
      simp only [hStore]
      rfl
    · intro c hc
      exact absurd hc (by simp)
  · rw [hLookup] at hFits
    exact hFits.elim
  · obtain ⟨hStep, hCell, hLt⟩ := getOrCreateGlobalsCell_spec h m
    let r := w.getOrCreateModuleGlobalsValidityCell m
    have hFound : (shapeOf r.2 m).resolvePresentProperty name = some loc := by
      rw [hStep.same.shapeOf_eq, Shape.resolvePresentProperty_eq]
      unfold shapeOf
      rw [hLookup]
      exact hLoc
    have hStores := storeExisting_spec hStep.wellFormed value hFound
      fun hName => absurd hName hNe
    obtain ⟨w', hStore, hBecomes⟩ := hStores
    rw [hStep.same.ownValue_eq] at hBecomes
    refine ⟨(.found (.storeExisting ⟨m, loc⟩) (some r.1), r.2), ?_, hStep,
      Or.inr ⟨hNot, _, _, rfl, ?_, ?_⟩⟩
    · simp only [hShape.updates, hLookup, resolveStoreExisting, hMutate,
        hReadOnly, DescriptorInfo.locationOrFirst, hLoc]
      rfl
    · exact ⟨w', hStore, hBecomes⟩
    · intro c hc
      obtain rfl := Option.some.inj hc
      exact ⟨_, rfl, ⟨rfl, hCell, hFound, hNe⟩, hLt⟩
  · subst hName
    obtain ⟨hStep, hNone⟩ := invalidateBuiltinsBinding_spec h m
    have hFound : (shapeOf (w.invalidateModuleBuiltinsBindingValidityCell m)
        m).resolvePresentProperty "__builtins__" = some builtinsLocation := by
      rw [hStep.same.shapeOf_eq, Shape.resolvePresentProperty_eq]
      unfold shapeOf
      rw [hLookup]
      rfl
    obtain ⟨w', hStore, hBecomes⟩ :=
      storeExisting_spec hStep.wellFormed value hFound fun _ => hNone
    rw [hStep.same.ownValue_eq] at hBecomes
    refine ⟨(.found (.storeExisting ⟨m, builtinsLocation⟩) none, _), ?_, hStep,
      Or.inr ⟨by decide, _, _, rfl, ⟨w', hStore, hBecomes⟩, ?_⟩⟩
    · simp only [hShape.updates, hLookup, resolveStoreExisting]
      rfl
    · intro c hc
      exact absurd hc (by simp)
  · refine ⟨(.readOnly, w), ?_, CellStep.refl h, Or.inl ⟨hReserved, rfl⟩⟩
    simp only [hShape.updates, hLookup, resolveStoreExisting, hMutate, hKind]
    by_cases hName : name = "__class__"
    · simp only [if_pos hName]
      rfl
    · simp only [if_neg hName]
      rfl

theorem storeModuleGlobal_spec {w : World M O} (h : WellFormed w) {m : M}
    {name : String} (value : GlobalValue M O)
    (hFits : GlobalStoreFits w m name) :
    ∃ r, storeModuleGlobal w m name value = .ok r ∧
      (reserved name = true ∧ r.1 = false ∧ Becomes w r.2 (ownValue w) ∨
        reserved name = false ∧ r.1 = true ∧
          Becomes w r.2 ((ownValue w).set m name (some value))) := by
  obtain ⟨r, hResolve, hStep, hCases⟩ := resolveWrite_spec h value hFits
  have hStepBecomes := cellStep_becomes hStep
  unfold storeModuleGlobal
  rw [hResolve]
  rcases hCases with ⟨hReserved, hReadOnly⟩ |
    ⟨hNot, plan, cell, hFound, ⟨w', hStore, hBecomes⟩, -⟩
  · refine ⟨(false, r.2), ?_, Or.inl ⟨hReserved, rfl, hStepBecomes⟩⟩
    simp only [bind, Except.bind, hReadOnly]
    rfl
  · refine ⟨(true, w'), ?_,
      Or.inr ⟨hNot, rfl, hStepBecomes.trans hBecomes⟩⟩
    simp only [bind, Except.bind, hFound]
    exact hStore

/-! ## Deleting -/

/-- Deleting by a plan for a name that the shape has. -/
theorem deleteByPlan_spec {w w' : World M O} (hStep : CellStep w w') {m : M}
    {name : String} {info : DescriptorInfo} {loc : StorageLocation}
    (hPresent :
      (shapeOf w m).lookupDescriptorIncludingLatent name = .present info)
    (hLoc : info.storageLocation = some loc) (hNot : reserved name = false) :
    ∃ w'', deleteModuleGlobalFromPlan w' m
        (.deleteOwnProperty ((shapeOf w m).withDeleted name info)
          info.locationOrFirst) = .ok (true, w'') ∧
      Becomes w w'' ((ownValue w).set m name none) := by
  rw [← hStep.same.shapeOf_eq] at hPresent ⊢
  obtain ⟨w'', hClear, hBecomes⟩ :=
    clearDeleted_spec hStep.wellFormed hPresent hLoc hNot
  rw [hStep.same.ownValue_eq] at hBecomes
  refine ⟨w'', ?_, (cellStep_becomes hStep).trans hBecomes⟩
  have hLocation : info.locationOrFirst = loc := by
    unfold DescriptorInfo.locationOrFirst
    rw [hLoc]
    rfl
  unfold deleteModuleGlobalFromPlan
  simp only [hLocation, hClear]
  rfl

theorem deleteModuleGlobal_spec {w : World M O} (h : WellFormed w) {m : M}
    {name : String} (hEmpty : ¬ OwnSlotEmpty w m name) :
    ∃ r, deleteModuleGlobal w m name = .ok r ∧
      (ownValue w m name = none ∧ r.1 = false ∧ Becomes w r.2 (ownValue w) ∨
        ownValue w m name ≠ none ∧ r.1 = true ∧
          Becomes w r.2 ((ownValue w).set m name none)) := by
  have hShape := (h.modules m).shape
  have hSome : ∀ {loc},
      (shapeOf w m).resolvePresentProperty name = some loc →
      ownValue w m name ≠ none := by
    intro loc hLoc hNone
    exact hEmpty ⟨by rw [hLoc]; rfl, hNone⟩
  have hNone : (shapeOf w m).resolvePresentProperty name = none →
      ownValue w m name = none := ownValue_eq_none_of_not_located
  rw [Shape.resolvePresentProperty_eq] at hSome hNone
  unfold deleteModuleGlobal resolveModuleGlobalDeleteDescriptor
  unfold shapeOf at hSome hNone
  rcases hShape.cases name with ⟨-, -, hLookup⟩ |
    ⟨info, loc, -, hLookup, -, hReadOnly⟩ |
    ⟨info, loc, hNot, hNe, hLookup, hLoc, hMutate, hReadOnly⟩ |
    ⟨hName, hLookup⟩ | ⟨info, hReserved, hLookup, hLoc, hMutate, hKind⟩
  · rw [hLookup] at hNone
    simp only [hShape.addDelete, hLookup]
    exact ⟨_, rfl, Or.inl ⟨hNone rfl, rfl, Becomes.refl h⟩⟩
  · rw [hLookup] at hNone
    simp only [hShape.addDelete, hLookup, hReadOnly]
    exact ⟨_, rfl, Or.inl ⟨hNone rfl, rfl, Becomes.refl h⟩⟩
  · rw [hLookup] at hSome
    obtain ⟨w', hDelete, hBecomes⟩ :=
      deleteByPlan_spec (CellStep.refl h) hLookup hLoc hNot
    simp only [hShape.addDelete, hLookup, hMutate, hReadOnly,
      Shape.deriveDeleteTransition_eq_ok hLookup]
    exact ⟨_, hDelete, Or.inr ⟨hSome hLoc, rfl, hBecomes⟩⟩
  · subst hName
    rw [hLookup] at hSome
    obtain ⟨hStep, -⟩ := invalidateBuiltinsBinding_spec h m
    obtain ⟨w', hDelete, hBecomes⟩ :=
      deleteByPlan_spec hStep hLookup rfl (by decide)
    simp only [hShape.addDelete, hLookup,
      Shape.deriveDeleteTransition_eq_ok hLookup]
    exact ⟨_, hDelete, Or.inr ⟨@hSome builtinsLocation rfl, rfl, hBecomes⟩⟩
  · rw [hLookup] at hNone
    have hOwn := hNone hLoc
    simp only [hShape.addDelete, hLookup, hMutate, hKind]
    by_cases hName : name = "__class__"
    · simp only [if_pos hName]
      exact ⟨_, rfl, Or.inl ⟨hOwn, rfl, Becomes.refl h⟩⟩
    · simp only [if_neg hName]
      exact ⟨_, rfl, Or.inl ⟨hOwn, rfl, Becomes.refl h⟩⟩

end CloverVM.ImportSystem.ModuleGlobalSpec
