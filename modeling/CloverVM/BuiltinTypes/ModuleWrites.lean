import CloverVM.BuiltinTypes.ModuleAttribute
import CloverVM.BuiltinTypes.ModuleInvariant

/-!
# The writes of modules

What each write of a module does to the namespaces, with the invariant and the
meaning of the valid cells kept.
-/

namespace CloverVM.BuiltinTypes.ModuleWrites

open CloverVM.ObjectModel
open CloverVM.BuiltinTypes.ModuleObject
open CloverVM.BuiltinTypes.ModuleInvariant
open CloverVM.BuiltinTypes.ModuleAttribute
open CloverVM.ImportSystem.ModuleNamespace

variable {M O : Type} [DecidableEq M]

/-- A later world with the given namespaces. -/
structure Becomes (w w' : World M O) (ns : Namespaces M O) : Prop where
  wellFormed : WellFormed w'
  preserves : Preserves w w'
  machine : w'.globalBuiltinsModule = w.globalBuiltinsModule
  values : ownValue w' = ns

omit [DecidableEq M] in
theorem Becomes.refl {w : World M O} (h : WellFormed w) :
    Becomes w w (ownValue w) :=
  ⟨h, Preserves.refl w, rfl, rfl⟩

omit [DecidableEq M] in
theorem cellStep_becomes {w w' : World M O} (h : CellStep w w') :
    Becomes w w' (ownValue w) :=
  ⟨h.wellFormed, h.preserves, h.same.globalBuiltinsModule,
    h.same.ownValue_eq⟩

omit [DecidableEq M] in
theorem Becomes.trans {w w' w'' : World M O} {ns ns' : Namespaces M O}
    (h : Becomes w w' ns) (h' : Becomes w' w'' ns') : Becomes w w'' ns' :=
  ⟨h'.wellFormed, h.preserves.trans h'.preserves,
    h'.machine.trans h.machine, h'.values⟩

/-! ## Changing the shape -/

theorem reshape_becomes {w : World M O} (h : WellFormed w) {m : M}
    {name : String} {value : Option (GlobalValue M O)}
    {object : SlotObject (GlobalValue M O)} (hObject : object.WellFormed)
    (hShape : IsModuleShape object.shape)
    (hValue : ∀ k, object.ownValue k =
      if k = name then value else (w.modules m).object.ownValue k) :
    Becomes w (reshape w m object) ((ownValue w).set m name value) := by
  obtain ⟨hWf, hPreserves⟩ := reshape_spec h m hObject hShape
  refine ⟨hWf, hPreserves, rfl, ?_⟩
  funext k n
  rw [ownValue_reshape]
  unfold Namespaces.set
  by_cases hk : k = m
  · subst hk
    rw [if_pos rfl, hValue]
    by_cases hn : n = name
    · rw [if_pos hn, if_pos ⟨rfl, hn⟩]
    · rw [if_neg hn, if_neg fun hBoth => hn hBoth.2]
      rfl
  · rw [if_neg hk, if_neg fun hBoth => hk hBoth.1]

/-- A new property takes its slot. -/
theorem storeAdded_spec {w : World M O} (h : WellFormed w) {m : M}
    {name : String} {flags : DescriptorFlags} {loc : StorageLocation}
    (value : GlobalValue M O)
    (hNew : ∀ info,
      (shapeOf w m).lookupDescriptorIncludingLatent name ≠ .present info)
    (hFlags : name = "__builtins__" ∨ flags = {})
    (hLoc : ((shapeOf w m).insertedInfo name flags).storageLocation =
      some loc)
    (hSlots : (shapeOf w m).nextSlotIndexAfterAdd name ≤
      moduleInlineStorageSlotCount + overflowSlotMax) :
    ∃ w', w.storeAdded m ((shapeOf w m).withAdded name flags) loc value =
        .ok w' ∧
      Becomes w w' ((ownValue w).set m name (some value)) := by
  have hModule := h.modules m
  have hAdd := @SlotObject.WellFormed.add _ _ hModule.object name flags loc
    value hNew hLoc (by rw [hModule.shape.capacity]; exact hSlots)
  obtain ⟨o₁, o', hSet, hWrite, hWf, hShape, hValue⟩ := hAdd
  refine ⟨reshape w m o', ?_, reshape_becomes h hWf ?_ hValue⟩
  · unfold World.storeAdded
    have hSetShape := setShape_eq_reshape hSet (Shape.withAdded_ne _ _ _)
    have hModules : ((reshape w m o₁).modules m).object = o₁ := by
      show (if m = m then ({ object := o₁ } : ModuleObject M O)
        else w.modules m).object = o₁
      rw [if_pos rfl]
    show (w.setShape m _ >>= fun w => _) = _
    unfold shapeOf
    rw [hSetShape]
    show (reshape w m o₁).writeEmptyStorageLocation m loc value = _
    unfold World.writeEmptyStorageLocation
    simp only [hModules, hWrite]
    exact congrArg Except.ok (reshape_update w m o₁ o')
  · rw [hShape]
    exact hModule.shape.withAdded hNew hFlags

/-- A property that goes leaves its slot empty. -/
theorem clearDeleted_spec {w : World M O} (h : WellFormed w) {m : M}
    {name : String} {info : DescriptorInfo} {loc : StorageLocation}
    (hPresent :
      (shapeOf w m).lookupDescriptorIncludingLatent name = .present info)
    (hLoc : info.storageLocation = some loc)
    (hNot : reserved name = false) :
    ∃ w', w.clearDeleted m ((shapeOf w m).withDeleted name info) loc =
        .ok w' ∧ Becomes w w' ((ownValue w).set m name none) := by
  have hModule := h.modules m
  have hDelete := hModule.object.delete hPresent hLoc
  obtain ⟨o₁, o', hSet, hWrite, hWf, hShape, hValue⟩ := hDelete
  refine ⟨reshape w m o', ?_, reshape_becomes h hWf ?_ hValue⟩
  · unfold World.clearDeleted
    have hSetShape := setShape_eq_reshape hSet (Shape.withDeleted_ne _ _ _)
    have hModules : ((reshape w m o₁).modules m).object = o₁ := by
      show (if m = m then ({ object := o₁ } : ModuleObject M O)
        else w.modules m).object = o₁
      rw [if_pos rfl]
    show (w.setShape m _ >>= fun w => _) = _
    unfold shapeOf
    rw [hSetShape]
    show (reshape w m o₁).writeStorageLocation m loc none = _
    unfold World.writeStorageLocation
    simp only [hModules, hWrite]
    exact congrArg Except.ok (reshape_update w m o₁ o')
  · rw [hShape]
    exact hModule.shape.withDeleted hModule.object.shape hPresent hNot

/-- Another class is another shape with the same slots. -/
theorem storeAttrChangeClass_spec {w : World M O} (h : WellFormed w) (m : M)
    (value : GlobalValue M O) :
    ∃ r, storeAttrChangeClass w m value = .ok r ∧
      Becomes w r.2 (ownValue w) := by
  have hModule := h.modules m
  unfold storeAttrChangeClass
  split
  · obtain ⟨o', hSet, hWf, hShape, hValue⟩ :=
      hModule.object.clone w.nextObject
    let start : World M O := { w with nextObject := w.nextObject + 1 }
    have hStart : CellStep w start := by
      have hLt : ∀ {cell}, cell < w.nextObject → cell < start.nextObject :=
        fun hCell => Nat.lt_succ_of_lt hCell
      have hSame : SameObjects w start := ⟨fun _ => rfl, rfl⟩
      refine ⟨⟨h.modules, ?_, ?_, ?_, h.attached⟩, ?_, hSame⟩
      · exact fun k cell hCell => hLt (h.globals_lt k cell hCell)
      · exact fun k cell hCell => hLt (h.builtins_lt k cell hCell)
      · exact fun k cell hCell => hLt (h.attached_lt k cell hCell)
      · refine
          { nextObject := Nat.le_succ _
            valid := fun _ _ hIs => hIs
            globals := fun k _ hCell _ _ => ⟨hCell, hSame.stays k⟩
            builtins := fun k _ hCell _ _ => ⟨hCell, hSame.stays k, rfl⟩
            attached := fun k _ hCell _ _ => ⟨hCell, hSame.stays k⟩ }
    have hSetShape : start.setShape m
        ((w.modules m).object.shape.cloneWithClass w.nextObject) =
          .ok (reshape start m o') :=
      setShape_eq_reshape hSet (Shape.cloneWithClass_ne _ _)
    refine ⟨(true, reshape start m o'), ?_, ?_⟩
    · show (start.setShape m _ >>= fun w => _) = _
      rw [hSetShape]
      rfl
    · have hBecomes := @reshape_becomes M O _ start hStart.wellFormed m
        "__class__" (ownValue w m "__class__") o' hWf
        (by rw [hShape]; exact hModule.shape.cloneWithClass _)
        (by
          intro k
          rw [hValue]
          by_cases hk : k = "__class__"
          · rw [if_pos hk, hk]
            rfl
          · rw [if_neg hk])
      have hValues : (ownValue start).set m "__class__"
          (ownValue w m "__class__") = ownValue w :=
        Namespaces.set_self rfl
      rw [hValues] at hBecomes
      exact (cellStep_becomes hStart).trans hBecomes
  · exact ⟨(false, w), rfl, Becomes.refl h⟩

/-! ## Writing in place -/

/-- The module with another value in a slot that it has. -/
def rewrite (w : World M O) (m : M) (loc : StorageLocation)
    (value : Option (GlobalValue M O)) : World M O :=
  w.update m { w.modules m with object := (w.modules m).object.set loc value }

/-- Writing a value in place keeps what every valid cell stands for, when the
valid builtins cell of the module does not rely on the name. -/
theorem write_spec {w : World M O} (h : WellFormed w) {m : M} {name : String}
    {loc : StorageLocation} (value : GlobalValue M O)
    (hLoc : (shapeOf w m).resolvePresentProperty name = some loc)
    (hBuiltins : name = "__builtins__" → ∀ cell,
      (w.modules m).moduleBuiltinsValidityCell = some cell →
      w.isValid cell = true →
      w.builtinsOf (some value) = currentBuiltins w m) :
    ∃ w', w.writeStorageLocation m loc (some value) = .ok w' ∧
      Becomes w w' ((ownValue w).set m name (some value)) := by
  have hModule := h.modules m
  have hWrite := hModule.object.write (some value) hLoc
  obtain ⟨hWrite, hWf, hValue⟩ := hWrite
  let w' := rewrite w m loc (some value)
  have hModules : ∀ k, w'.modules k =
      if k = m then
        { w.modules m with
          object := (w.modules m).object.set loc (some value) }
      else w.modules k := fun _ => rfl
  have hGlobals : ∀ k, (w'.modules k).moduleGlobalsValidityCell =
      (w.modules k).moduleGlobalsValidityCell := by
    intro k
    rw [hModules]
    by_cases hk : k = m
    · rw [if_pos hk, hk]
    · rw [if_neg hk]
  have hCells : ∀ k, (w'.modules k).moduleBuiltinsValidityCell =
      (w.modules k).moduleBuiltinsValidityCell := by
    intro k
    rw [hModules]
    by_cases hk : k = m
    · rw [if_pos hk, hk]
    · rw [if_neg hk]
  have hAttached : ∀ k,
      (w'.modules k).attachedDependentLookupValidityCells =
        (w.modules k).attachedDependentLookupValidityCells := by
    intro k
    rw [hModules]
    by_cases hk : k = m
    · rw [if_pos hk, hk]
    · rw [if_neg hk]
  have hValues : ownValue w' = (ownValue w).set m name (some value) := by
    funext k n
    unfold ownValue Namespaces.set
    rw [hModules]
    by_cases hk : k = m
    · subst hk
      rw [if_pos rfl]
      show ((w.modules k).object.set loc (some value)).ownValue n = _
      rw [hValue]
      by_cases hn : n = name
      · rw [if_pos hn, if_pos ⟨rfl, hn⟩]
      · rw [if_neg hn, if_neg fun hBoth => hn hBoth.2]
    · rw [if_neg hk, if_neg fun hBoth => hk hBoth.1]
  have hStays : ∀ k, Stays w w' k := by
    intro k
    refine ⟨?_, ?_⟩
    · unfold shapeOf
      rw [hModules]
      by_cases hk : k = m
      · rw [if_pos hk, hk]
        exact SlotObject.set_shape _ _ _
      · rw [if_neg hk]
    · intro n hn
      rw [hValues]
      unfold Namespaces.set
      by_cases hk : k = m ∧ n = name
      · rw [if_pos hk]
        simp
      · rw [if_neg hk]
        exact hn
  have hWf' : ∀ k, IsModule (w'.modules k) := by
    intro k
    rw [hModules]
    by_cases hk : k = m
    · rw [if_pos hk]
      refine ⟨hWf, ?_⟩
      simp only [SlotObject.set_shape]
      exact hModule.shape
    · rw [if_neg hk]
      exact h.modules k
  have hCurrent : ∀ k cell,
      (w.modules k).moduleBuiltinsValidityCell = some cell →
      w.isValid cell = true →
      currentBuiltins w' k = currentBuiltins w k := by
    intro k cell hCell hIs
    have hBinding : currentBuiltins w' k =
        w.builtinsOf (ownValue w' k "__builtins__") := by
      unfold currentBuiltins World.getBuiltinsBinding
      rw [(hWf' k).get_builtinsLocation]
      rfl
    rw [hBinding, hValues]
    unfold Namespaces.set
    by_cases hk : k = m ∧ "__builtins__" = name
    · obtain ⟨hkm, hName⟩ := hk
      rw [if_pos ⟨hkm, hName⟩]
      rw [hkm] at hCell ⊢
      exact hBuiltins hName.symm cell hCell hIs
    · rw [if_neg hk, h.currentBuiltins_eq]
      rfl
  refine ⟨w', ?_, ?_, ?_, rfl, hValues⟩
  · unfold World.writeStorageLocation
    simp only [hWrite]
    rfl
  · refine
      { modules := hWf'
        globals_lt := ?_
        builtins_lt := ?_
        attached_lt := ?_
        attached := ?_ }
    · intro k cell hCell
      rw [hGlobals] at hCell
      exact h.globals_lt k cell hCell
    · intro k cell hCell
      rw [hCells] at hCell
      exact h.builtins_lt k cell hCell
    · intro k cell hCell
      rw [hAttached] at hCell
      exact h.attached_lt k cell hCell
    · intro k cell hCell hIs
      rw [hCells] at hCell
      obtain ⟨b, hb, hMem⟩ := h.attached k cell hCell hIs
      refine ⟨b, (hCurrent k cell hCell hIs).trans hb, ?_⟩
      rw [hAttached]
      exact hMem
  · refine
      { nextObject := Nat.le_refl _
        valid := fun _ _ hIs => hIs
        globals := fun k _ hCell _ _ => ⟨(hGlobals k).trans hCell, hStays k⟩
        builtins := fun k cell hCell _ hIs =>
          ⟨(hCells k).trans hCell, hStays k, hCurrent k cell hCell hIs⟩
        attached := ?_ }
    intro k cell hMem _ _
    refine ⟨?_, hStays k⟩
    rw [hAttached]
    exact hMem

/-! ## Plans -/

/-- A module has room for an attribute that it does not have. -/
def AttributeStoreFits (w : World M O) (m : M) (name : String) : Prop :=
  match (shapeOf w m).lookupDescriptorIncludingLatent name with
  | .absent =>
      (shapeOf w m).nextSlotIndex <
        moduleInlineStorageSlotCount + overflowSlotMax
  | _ => True

/-- A plan is one that the shape calls for. -/
def PlanFor (s : Shape) (name : String) : AttributeMutationPlan → Prop
  | .storeExisting loc => s.resolvePresentProperty name = some loc
  | .addOwnProperty next loc =>
      (∀ info, s.lookupDescriptorIncludingLatent name ≠ .present info) ∧
        next = s.withAdded name {} ∧
        (s.insertedInfo name {}).storageLocation = some loc ∧
        loc.kind = .inline
  | .deleteOwnProperty next loc =>
      reserved name = false ∧
        ∃ info, s.lookupDescriptorIncludingLatent name = .present info ∧
          next = s.withDeleted name info ∧ info.storageLocation = some loc
  | .changeClass => name = "__class__"

/-- What an attribute store leaves: nothing when it fails, and the new value
otherwise, but for `__class__`. -/
def StoreResult (w : World M O) (m : M) (name : String)
    (value : GlobalValue M O) (r : Bool × World M O) : Prop :=
  r.1 = false ∧ Becomes w r.2 (ownValue w) ∨
    r.1 = true ∧ Becomes w r.2
      (if name = "__class__" then ownValue w
        else (ownValue w).set m name (some value))

def DeleteResult (w : World M O) (m : M) (name : String)
    (r : Bool × World M O) : Prop :=
  r.1 = false ∧ Becomes w r.2 (ownValue w) ∨
    r.1 = true ∧ Becomes w r.2 ((ownValue w).set m name none)

theorem StoreResult.of_cellStep {w w' : World M O} (h : CellStep w w')
    {m : M} {name : String} {value : GlobalValue M O} {r : Bool × World M O}
    (hResult : StoreResult w' m name value r) :
    StoreResult w m name value r := by
  have hStep := cellStep_becomes h
  have hValues := h.same.ownValue_eq
  unfold StoreResult at hResult ⊢
  rw [hValues] at hResult
  rcases hResult with ⟨hFalse, hBecomes⟩ | ⟨hTrue, hBecomes⟩
  · exact Or.inl ⟨hFalse, hStep.trans hBecomes⟩
  · exact Or.inr ⟨hTrue, hStep.trans hBecomes⟩

theorem DeleteResult.of_cellStep {w w' : World M O} (h : CellStep w w')
    {m : M} {name : String} {r : Bool × World M O}
    (hResult : DeleteResult w' m name r) : DeleteResult w m name r := by
  have hStep := cellStep_becomes h
  have hValues := h.same.ownValue_eq
  unfold DeleteResult at hResult ⊢
  rw [hValues] at hResult
  rcases hResult with ⟨hFalse, hBecomes⟩ | ⟨hTrue, hBecomes⟩
  · exact Or.inl ⟨hFalse, hStep.trans hBecomes⟩
  · exact Or.inr ⟨hTrue, hStep.trans hBecomes⟩

theorem class_not_located {s : Shape} (h : IsModuleShape s) :
    s.resolvePresentProperty "__class__" = none := by
  rw [Shape.resolvePresentProperty_eq, h.dunderClass]
  rfl

omit [DecidableEq M] in
theorem AttributeStoreFits.slots_le {w : World M O} (h : WellFormed w) {m : M}
    {name : String} (hFits : AttributeStoreFits w m name)
    (hNew : ∀ info,
      (shapeOf w m).lookupDescriptorIncludingLatent name ≠ .present info) :
    (shapeOf w m).nextSlotIndexAfterAdd name ≤
      moduleInlineStorageSlotCount + overflowSlotMax := by
  have hModule := h.modules m
  have hSlots := hModule.object.storage.slots_le
  rw [hModule.shape.capacity] at hSlots
  unfold AttributeStoreFits at hFits
  unfold Shape.nextSlotIndexAfterAdd
  cases hLookup : (shapeOf w m).lookupDescriptorIncludingLatent name with
  | absent =>
      rw [hLookup] at hFits
      exact hFits
  | latent info => exact hSlots
  | present info => exact absurd hLookup (hNew info)

/-- A store by a plan that the shape calls for. -/
theorem storeAttrFromPlan_spec {w : World M O} (h : WellFormed w) {m : M}
    {name : String} {plan : AttributeMutationPlan} (value : GlobalValue M O)
    (hPlan : PlanFor (shapeOf w m) name plan)
    (hFits : AttributeStoreFits w m name)
    (hBuiltins : ∀ loc, plan = .storeExisting loc → name = "__builtins__" →
      ∀ cell,
      (w.modules m).moduleBuiltinsValidityCell = some cell →
      w.isValid cell = true →
      w.builtinsOf (some value) = currentBuiltins w m) :
    ∃ r, storeAttrFromPlan w m plan value = .ok r ∧
      StoreResult w m name value r := by
  have hShape := (h.modules m).shape
  cases plan with
  | storeExisting loc =>
      obtain ⟨w', hWrite, hBecomes⟩ := write_spec h value hPlan
        (hBuiltins loc rfl)
      refine ⟨(true, w'), ?_, Or.inr ⟨rfl, ?_⟩⟩
      · unfold storeAttrFromPlan
        simp only [hWrite]
        rfl
      · rw [if_neg]
        · exact hBecomes
        · rintro rfl
          have hLoc : (shapeOf w m).resolvePresentProperty "__class__" =
              some loc := hPlan
          have hNone := class_not_located hShape
          exact Option.some_ne_none loc (hLoc.symm.trans hNone)
  | addOwnProperty next loc =>
      obtain ⟨hNew, rfl, hLoc, hInline⟩ := hPlan
      obtain ⟨w', hStore, hBecomes⟩ := storeAdded_spec h value hNew
        (Or.inr rfl) hLoc (hFits.slots_le h hNew)
      refine ⟨(true, w'), ?_, Or.inr ⟨rfl, ?_⟩⟩
      · unfold storeAttrFromPlan
        simp only [if_pos hInline, hStore]
        rfl
      · rw [if_neg]
        · exact hBecomes
        · rintro rfl
          exact hNew _ hShape.dunderClass
  | deleteOwnProperty next loc =>
      exact ⟨(false, w), rfl, Or.inl ⟨rfl, Becomes.refl h⟩⟩
  | changeClass =>
      have hName : name = "__class__" := hPlan
      obtain ⟨r, hChange, hBecomes⟩ := storeAttrChangeClass_spec h m value
      refine ⟨r, hChange, ?_⟩
      unfold StoreResult
      rw [if_pos hName]
      cases hr : r.1 with
      | false => exact Or.inl ⟨rfl, hBecomes⟩
      | true => exact Or.inr ⟨rfl, hBecomes⟩

theorem deleteAttrFromPlan_spec {w : World M O} (h : WellFormed w) {m : M}
    {name : String} {plan : AttributeMutationPlan}
    (hPlan : PlanFor (shapeOf w m) name plan) :
    ∃ r, deleteAttrFromPlan w m plan = .ok r ∧ DeleteResult w m name r := by
  cases plan with
  | storeExisting loc | addOwnProperty next loc | changeClass =>
      exact ⟨(false, w), rfl, Or.inl ⟨rfl, Becomes.refl h⟩⟩
  | deleteOwnProperty next loc =>
      obtain ⟨hNot, info, hPresent, rfl, hLoc⟩ := hPlan
      obtain ⟨w', hClear, hBecomes⟩ := clearDeleted_spec h hPresent hLoc hNot
      refine ⟨(true, w'), ?_, Or.inr ⟨rfl, hBecomes⟩⟩
      unfold deleteAttrFromPlan
      simp only [hClear]
      rfl

/-! ## Own properties -/

theorem deriveAdded_spec {s : Shape} (h : IsModuleShape s) {name : String}
    (hNew : ∀ info, s.lookupDescriptorIncludingLatent name ≠ .present info) :
    ∃ loc, (s.insertedInfo name {}).storageLocation = some loc ∧
      s.deriveAdded name = .ok (s.withAdded name {}, loc) := by
  have hLoc : ∃ loc, (s.insertedInfo name {}).storageLocation = some loc := by
    unfold Shape.insertedInfo
    rcases h.cases name with ⟨-, -, hLookup⟩ | ⟨info, loc, -, hLookup, hLoc, -⟩ |
      ⟨info, _, -, -, hLookup, -, -, -⟩ | ⟨-, hLookup⟩ |
      ⟨info, -, hLookup, -, -, -⟩
    · rw [hLookup]
      exact ⟨_, rfl⟩
    · rw [hLookup]
      exact ⟨loc, hLoc⟩
    · exact absurd hLookup (hNew _)
    · exact absurd hLookup (hNew _)
    · exact absurd hLookup (hNew _)
  obtain ⟨loc, hLoc⟩ := hLoc
  refine ⟨loc, hLoc, ?_⟩
  unfold Shape.deriveAdded
  rw [Shape.deriveAddTransition_eq_ok hNew]
  have hResolve : (s.withAdded name {}).resolvePresentProperty name =
      some loc := by
    rw [Shape.resolvePresentProperty_eq, Shape.lookup_withAdded hNew,
      if_pos rfl]
    exact hLoc
  simp only [bind, Except.bind, hResolve]
  rfl

theorem lookupPresentDescriptor_eq_none {s : Shape} {name : String}
    (hNew : ∀ info, s.lookupDescriptorIncludingLatent name ≠ .present info) :
    s.lookupPresentDescriptor name = none :=
  Shape.present_lookup_eq_none hNew

theorem lookupPresentDescriptor_eq_some {s : Shape} {name : String}
    {info : DescriptorInfo}
    (h : s.lookupDescriptorIncludingLatent name = .present info) :
    s.lookupPresentDescriptor name = some info := by
  unfold Shape.lookupDescriptorIncludingLatent at h
  unfold Shape.lookupPresentDescriptor
  cases hPresent : s.present.lookup name with
  | some i =>
      simp only [hPresent, DescriptorLookup.present.injEq] at h
      rw [h]
  | none =>
      simp only [hPresent] at h
      cases hLatent : s.latent.lookup name <;> simp [hLatent] at h

theorem addOwnProperty_spec {w : World M O} (h : WellFormed w) {m : M}
    {name : String} (value : GlobalValue M O)
    (hNew : ∀ info,
      (shapeOf w m).lookupDescriptorIncludingLatent name ≠ .present info)
    (hFits : AttributeStoreFits w m name) :
    ∃ r, addOwnProperty w m name value = .ok r ∧
      StoreResult w m name value r := by
  have hShape := (h.modules m).shape
  obtain ⟨loc, hLoc, hDerive⟩ := deriveAdded_spec hShape hNew
  obtain ⟨w', hStore, hBecomes⟩ := storeAdded_spec h value hNew (Or.inr rfl)
    hLoc (hFits.slots_le h hNew)
  refine ⟨(true, w'), ?_, Or.inr ⟨rfl, ?_⟩⟩
  · unfold addOwnProperty
    unfold shapeOf at hNew hStore
    simp only [lookupPresentDescriptor_eq_none hNew, hShape.addDelete, hDerive]
    show (w.storeAdded m _ loc value >>= fun w => _) = _
    rw [hStore]
    rfl
  · rw [if_neg]
    · exact hBecomes
    · rintro rfl
      exact hNew _ hShape.dunderClass

/-- What the lookups for a mutation come to: a found plan is one that the shape
calls for, and the builtins cell is gone when it writes `__builtins__`. -/
structure Resolves (w : World M O) (m : M) (name : String)
    (r : AttributeMutationDescriptor × World M O) : Prop where
  step : CellStep w r.2
  found : ∀ plan, r.1 = .found plan → PlanFor (shapeOf w m) name plan ∧
    (name = "__builtins__" → (r.2.modules m).moduleBuiltinsValidityCell = none)
  notFound : r.1 = .notFound → ∀ info,
    (shapeOf w m).lookupDescriptorIncludingLatent name ≠ .present info

theorem lookupWrite_spec {w : World M O} (h : WellFormed w) (m : M)
    (name : String) :
    Resolves w m name (lookupExistingOwnPropertyWriteDescriptor w m name) := by
  have hShape := (h.modules m).shape
  unfold lookupExistingOwnPropertyWriteDescriptor
  rcases hShape.cases name with ⟨-, -, hLookup⟩ | ⟨_, _, -, hLookup, -, -⟩ |
    ⟨info, loc, -, hNe, hLookup, hLoc, hMutate, hReadOnly⟩ |
    ⟨hName, hLookup⟩ | ⟨info, hReserved, hLookup, hLoc, hMutate, hKind⟩
  iterate 2
    · have hNew := Shape.not_present_of_eq hLookup (by simp)
      simp only [lookupPresentDescriptor_eq_none hNew]
      exact ⟨CellStep.refl h, by simp, fun _ => hNew⟩
  · simp only [lookupPresentDescriptor_eq_some hLookup, hShape.updates,
      hMutate, hReadOnly]
    refine ⟨CellStep.refl h, ?_, by simp⟩
    intro plan hPlan
    obtain rfl := AttributeMutationDescriptor.found.inj hPlan
    refine ⟨?_, fun hName => absurd hName hNe⟩
    show (shapeOf w m).resolvePresentProperty name = _
    unfold shapeOf DescriptorInfo.locationOrFirst
    rw [Shape.resolvePresentProperty_eq, hLookup]
    show info.storageLocation = some (info.storageLocation.getD _)
    rw [hLoc]
    rfl
  · subst hName
    obtain ⟨hStep, hNone⟩ := invalidateBuiltinsBinding_spec h m
    simp only [lookupPresentDescriptor_eq_some hLookup, hShape.updates]
    refine ⟨hStep, ?_, fun hFound =>
      AttributeMutationDescriptor.noConfusion hFound⟩
    intro plan hPlan
    obtain rfl := AttributeMutationDescriptor.found.inj hPlan
    refine ⟨?_, fun _ => hNone⟩
    show (shapeOf w m).resolvePresentProperty _ = _
    unfold shapeOf
    rw [Shape.resolvePresentProperty_eq, hLookup]
    rfl
  · simp only [lookupPresentDescriptor_eq_some hLookup, hShape.updates,
      hMutate, hKind]
    by_cases hName : name = "__class__"
    · simp only [if_pos hName]
      refine ⟨CellStep.refl h, ?_, by simp⟩
      intro plan hPlan
      obtain rfl := AttributeMutationDescriptor.found.inj hPlan
      refine ⟨hName, ?_⟩
      rintro rfl
      exact absurd hName (by decide)
    · simp only [if_neg hName]
      exact ⟨CellStep.refl h, by simp, by simp⟩

/-- A found plan for a deletion is one that the shape calls for. -/
def ResolvesDelete (w : World M O) (m : M) (name : String)
    (resolved : Except AssertionFailure
      (AttributeMutationDescriptor × World M O)) : Prop :=
  ∃ r, resolved = .ok r ∧ CellStep w r.2 ∧
    ∀ plan, r.1 = .found plan → PlanFor (shapeOf w m) name plan ∧
      ∃ next loc, plan = .deleteOwnProperty next loc

theorem lookupDelete_spec {w : World M O} (h : WellFormed w) (m : M)
    (name : String) :
    ResolvesDelete w m name
      (lookupExistingOwnPropertyDeleteDescriptor w m name) := by
  have hShape := (h.modules m).shape
  unfold lookupExistingOwnPropertyDeleteDescriptor
  rcases hShape.cases name with ⟨-, -, hLookup⟩ | ⟨_, _, -, hLookup, -, -⟩ |
    ⟨info, loc, hNot, hNe, hLookup, hLoc, hMutate, hReadOnly⟩ |
    ⟨hName, hLookup⟩ | ⟨info, hReserved, hLookup, hLoc, hMutate, hKind⟩
  iterate 2
    · simp only [lookupPresentDescriptor_eq_none
        (Shape.not_present_of_eq hLookup (by simp)), hShape.addDelete]
      exact ⟨_, rfl, CellStep.refl h, by simp⟩
  · simp only [lookupPresentDescriptor_eq_some hLookup, hShape.addDelete,
      hMutate, hReadOnly, Shape.deriveDeleteTransition_eq_ok hLookup]
    refine ⟨_, rfl, CellStep.refl h, ?_⟩
    intro plan hPlan
    obtain rfl := AttributeMutationDescriptor.found.inj hPlan
    refine ⟨⟨hNot, info, hLookup, rfl, ?_⟩, _, _, rfl⟩
    unfold DescriptorInfo.locationOrFirst
    rw [hLoc]
    rfl
  · subst hName
    obtain ⟨hStep, hNone⟩ := invalidateBuiltinsBinding_spec h m
    simp only [lookupPresentDescriptor_eq_some hLookup, hShape.addDelete,
      Shape.deriveDeleteTransition_eq_ok hLookup]
    refine ⟨_, rfl, hStep, ?_⟩
    intro plan hPlan
    obtain rfl := AttributeMutationDescriptor.found.inj hPlan
    exact ⟨⟨by decide, _, hLookup, rfl, rfl⟩, _, _, rfl⟩
  · simp only [lookupPresentDescriptor_eq_some hLookup, hShape.addDelete,
      hMutate, hKind]
    by_cases hName : name = "__class__"
    · simp only [if_pos hName]
      exact ⟨_, rfl, CellStep.refl h, by simp⟩
    · simp only [if_neg hName]
      exact ⟨_, rfl, CellStep.refl h, by simp⟩

/-! ## The uncached attribute operations -/

/-- A plan found for the world before is carried out in the world with fewer
valid cells. -/
theorem store_found_spec {w w' : World M O} (hStep : CellStep w w') {m : M}
    {name : String} {plan : AttributeMutationPlan} (value : GlobalValue M O)
    (hPlan : PlanFor (shapeOf w m) name plan)
    (hNone : name = "__builtins__" →
      (w'.modules m).moduleBuiltinsValidityCell = none)
    (hFits : AttributeStoreFits w m name) :
    ∃ r, storeAttrFromPlan w' m plan value = .ok r ∧
      StoreResult w m name value r := by
  rw [← hStep.same.shapeOf_eq] at hPlan
  have hFits' : AttributeStoreFits w' m name := by
    unfold AttributeStoreFits
    rw [hStep.same.shapeOf_eq]
    exact hFits
  obtain ⟨r, hr, hResult⟩ := storeAttrFromPlan_spec hStep.wellFormed value
    hPlan hFits' (by
      intro _ _ hName cell hCell
      rw [hNone hName] at hCell
      exact absurd hCell (by simp))
  exact ⟨r, hr, hResult.of_cellStep hStep⟩

theorem add_notFound_spec {w w' : World M O} (hStep : CellStep w w') {m : M}
    {name : String} (value : GlobalValue M O)
    (hNew : ∀ info,
      (shapeOf w m).lookupDescriptorIncludingLatent name ≠ .present info)
    (hFits : AttributeStoreFits w m name) :
    ∃ r, addOwnProperty w' m name value = .ok r ∧
      StoreResult w m name value r := by
  rw [← hStep.same.shapeOf_eq] at hNew
  have hFits' : AttributeStoreFits w' m name := by
    unfold AttributeStoreFits
    rw [hStep.same.shapeOf_eq]
    exact hFits
  obtain ⟨r, hr, hResult⟩ :=
    addOwnProperty_spec hStep.wellFormed value hNew hFits'
  exact ⟨r, hr, hResult.of_cellStep hStep⟩

theorem failed_result {w w' : World M O} (hStep : CellStep w w') (m : M)
    (name : String) (value : GlobalValue M O) :
    StoreResult w m name value (false, w') :=
  Or.inl ⟨rfl, cellStep_becomes hStep⟩

/-- Carrying out what a lookup has resolved. -/
theorem Resolves.store {w : World M O} {m : M} {name : String}
    {r : AttributeMutationDescriptor × World M O} (hr : Resolves w m name r)
    (value : GlobalValue M O) (hFits : AttributeStoreFits w m name) :
    ∃ out, (match r with
        | (.found plan, w') => storeAttrFromPlan w' m plan value
        | (.notFound, w') => addOwnProperty w' m name value
        | (_, w') => .ok (false, w')) = .ok out ∧
      StoreResult w m name value out := by
  split
  · obtain ⟨hPlan, hNone⟩ := hr.found _ rfl
    exact store_found_spec hr.step value hPlan hNone hFits
  · exact add_notFound_spec hr.step value (hr.notFound rfl) hFits
  · exact ⟨_, rfl, failed_result hr.step m name value⟩

theorem setOwnProperty_spec {w : World M O} (h : WellFormed w) {m : M}
    {name : String} (value : GlobalValue M O)
    (hFits : AttributeStoreFits w m name) :
    ∃ r, setOwnProperty w m name value = .ok r ∧
      StoreResult w m name value r :=
  (lookupWrite_spec h m name).store value hFits

/-- Resolving an attribute store, for any answer of the class. -/
theorem resolveAttrWrite_spec {w : World M O} (h : WellFormed w) (m : M)
    (name : String) (lookup : ClassLookup) :
    Resolves w m name (resolveAttrWriteDescriptor w m name lookup) := by
  unfold resolveAttrWriteDescriptor
  by_cases hMutating : lookup.mutatingDescriptor = true
  · simp only [if_pos hMutating]
    exact ⟨CellStep.refl h, by simp, by simp⟩
  · simp only [if_neg hMutating]
    have hSpec := lookupWrite_spec h m name
    split
    · rename_i plan w' hLookup
      rw [hLookup] at hSpec
      exact hSpec
    · rename_i own w' hNotFound hLookup
      rw [hLookup] at hSpec
      by_cases hName : name = "__class__"
      · simp only [if_pos hName]
        refine ⟨hSpec.step, ?_, by simp⟩
        intro plan hPlan
        obtain rfl := AttributeMutationDescriptor.found.inj hPlan
        refine ⟨hName, ?_⟩
        rintro rfl
        exact absurd hName (by decide)
      · simp only [if_neg hName]
        exact hSpec

theorem storeAttr_spec {w : World M O} (h : WellFormed w) {m : M}
    {name : String} (value : GlobalValue M O) (lookup : ClassLookup)
    (hFits : AttributeStoreFits w m name) :
    ∃ r, storeAttr w m name value lookup = .ok r ∧
      StoreResult w m name value r :=
  (resolveAttrWrite_spec h m name lookup).store value hFits

theorem delete_found_spec {w w' : World M O} (hStep : CellStep w w') {m : M}
    {name : String} {plan : AttributeMutationPlan}
    (hPlan : PlanFor (shapeOf w m) name plan) :
    ∃ r, deleteAttrFromPlan w' m plan = .ok r ∧ DeleteResult w m name r := by
  rw [← hStep.same.shapeOf_eq] at hPlan
  obtain ⟨r, hr, hResult⟩ := deleteAttrFromPlan_spec hStep.wellFormed hPlan
  exact ⟨r, hr, hResult.of_cellStep hStep⟩

/-- Carrying out a deletion that a lookup has resolved. -/
theorem ResolvesDelete.delete {w : World M O} {m : M} {name : String}
    {resolved : Except AssertionFailure
      (AttributeMutationDescriptor × World M O)}
    (h : ResolvesDelete w m name resolved) :
    ∃ out, (resolved >>= fun r => match r.1 with
        | .found plan => deleteAttrFromPlan r.2 m plan
        | _ => return (false, r.2)) = .ok out ∧
      DeleteResult w m name out := by
  obtain ⟨r, rfl, hStep, hFound⟩ := h
  show ∃ out, (match r.1 with
    | .found plan => deleteAttrFromPlan r.2 m plan
    | _ => .ok (false, r.2)) = .ok out ∧ _
  split
  · rename_i plan hPlan
    exact delete_found_spec hStep (hFound plan hPlan).1
  · exact ⟨_, rfl, Or.inl ⟨rfl, cellStep_becomes hStep⟩⟩

theorem resolveAttrDelete_spec {w : World M O} (h : WellFormed w) (m : M)
    (name : String) (lookup : ClassLookup) :
    ResolvesDelete w m name (resolveAttrDeleteDescriptor w m name lookup) := by
  unfold resolveAttrDeleteDescriptor
  by_cases hMutating : lookup.mutatingDescriptor = true
  · rw [if_pos hMutating]
    exact ⟨_, rfl, CellStep.refl h, by simp⟩
  · rw [if_neg hMutating]
    exact lookupDelete_spec h m name

theorem deleteOwnProperty_spec {w : World M O} (h : WellFormed w) (m : M)
    (name : String) :
    ∃ r, deleteOwnProperty w m name = .ok r ∧ DeleteResult w m name r :=
  (lookupDelete_spec h m name).delete

theorem deleteAttr_spec {w : World M O} (h : WellFormed w) (m : M)
    (name : String) (lookup : ClassLookup) :
    ∃ r, deleteAttr w m name lookup = .ok r ∧ DeleteResult w m name r :=
  (resolveAttrDelete_spec h m name lookup).delete

/-! ## The binding of builtins -/

theorem writeStorageLocation_eq_rewrite {w : World M O} {m : M}
    {loc : StorageLocation} {value : Option (GlobalValue M O)}
    (h : (w.modules m).object.holds loc = true) :
    w.writeStorageLocation m loc value = .ok (rewrite w m loc value) := by
  unfold World.writeStorageLocation SlotObject.writeStorageLocation
  simp only [if_pos h]
  rfl

/-- A slot may be written before or after the builtins cell goes. -/
theorem invalidate_rewrite (w : World M O) (m : M) (loc : StorageLocation)
    (value : Option (GlobalValue M O)) :
    (rewrite w m loc value).invalidateModuleBuiltinsBindingValidityCell m =
      rewrite (w.invalidateModuleBuiltinsBindingValidityCell m) m loc
        value := by
  unfold World.invalidateModuleBuiltinsBindingValidityCell rewrite World.update
  simp only [if_true]
  congr 1
  funext k
  by_cases hk : k = m
  · simp only [if_pos hk]
  · simp only [if_neg hk]

theorem reshape_rewrite (w : World M O) (m : M) (loc : StorageLocation)
    (value : Option (GlobalValue M O))
    (object : SlotObject (GlobalValue M O)) :
    reshape (rewrite w m loc value) m object = reshape w m object := by
  unfold reshape rewrite World.update
  simp only [if_true]
  congr 1
  funext k
  by_cases hk : k = m
  · rw [if_pos hk, if_pos hk]
  · rw [if_neg hk, if_neg hk, if_neg hk]

theorem setBuiltinsBinding_spec {w : World M O} (h : WellFormed w) (m : M)
    (value : GlobalValue M O) :
    ∃ w', w.setBuiltinsBinding m value = .ok w' ∧
      Becomes w w' ((ownValue w).set m "__builtins__" (some value)) := by
  have hModule := h.modules m
  rcases DescriptorLookup.present_or_latent hModule.shape.dunderBuiltins with
    hPresent | hLatent
  · have hLoc : (w.modules m).object.shape.resolvePresentProperty
        "__builtins__" = some builtinsLocation := by
      rw [Shape.resolvePresentProperty_eq, hPresent]
      rfl
    obtain ⟨hStep, hNone⟩ := invalidateBuiltinsBinding_spec h m
    have hLoc' : (shapeOf (w.invalidateModuleBuiltinsBindingValidityCell m)
        m).resolvePresentProperty "__builtins__" = some builtinsLocation := by
      rw [hStep.same.shapeOf_eq]
      exact hLoc
    obtain ⟨w', hWrite, hBecomes⟩ := write_spec hStep.wellFormed value hLoc' (by
      intro _ cell hCell
      rw [hNone] at hCell
      exact absurd hCell (by simp))
    rw [hStep.same.ownValue_eq] at hBecomes
    refine ⟨w', ?_, (cellStep_becomes hStep).trans hBecomes⟩
    unfold World.setBuiltinsBinding World.ensureModuleBuiltinsDescriptorPresent
    simp only [hLoc]
    show (w.writeStorageLocation m builtinsLocation (some value) >>=
      fun w => _) = _
    rw [writeStorageLocation_eq_rewrite rfl]
    show Except.ok ((rewrite w m builtinsLocation
      (some value)).invalidateModuleBuiltinsBindingValidityCell m) = _
    rw [invalidate_rewrite, ← hWrite, writeStorageLocation_eq_rewrite rfl]
  · have hNew : ∀ info, (w.modules m).object.shape.lookupDescriptorIncludingLatent
        "__builtins__" ≠ .present info := by
      intro info hInfo
      rw [hLatent] at hInfo
      exact absurd hInfo (by simp)
    have hNotFound : (w.modules m).object.shape.resolvePresentProperty
        "__builtins__" = none := by
      rw [Shape.resolvePresentProperty_eq, hLatent]
    have hLoc : ((w.modules m).object.shape.insertedInfo "__builtins__"
        moduleBuiltinsDescriptorFlags).storageLocation =
          some builtinsLocation := by
      unfold Shape.insertedInfo
      rw [hLatent]
      rfl
    have hSlots : (w.modules m).object.shape.nextSlotIndexAfterAdd
        "__builtins__" ≤ (w.modules m).object.shape.inlineSlotCapacity +
          overflowSlotMax := by
      unfold Shape.nextSlotIndexAfterAdd
      rw [hLatent]
      exact hModule.object.storage.slots_le
    obtain ⟨o₁, o', hSet, hWrite, hWf, hShape, hValue⟩ :=
      hModule.object.add value hNew hLoc hSlots
    have hBecomes := @reshape_becomes M O _ w h m "__builtins__" (some value)
      o' hWf (by
        rw [hShape]
        exact hModule.shape.withAdded hNew (Or.inl rfl)) hValue
    obtain ⟨hStep, -⟩ := invalidateBuiltinsBinding_spec hBecomes.wellFormed m
    have hValues := hBecomes.values
    have hLater := cellStep_becomes hStep
    rw [hValues] at hLater
    refine ⟨_, ?_, hBecomes.trans hLater⟩
    unfold World.setBuiltinsBinding World.ensureModuleBuiltinsDescriptorPresent
    simp only [hNotFound, Shape.deriveAddTransition_eq_ok hNew]
    show (w.setShape m _ >>= fun w => _) = _
    rw [setShape_eq_reshape hSet (Shape.withAdded_ne _ _ _)]
    have hWrite' : (reshape w m o₁).writeStorageLocation m builtinsLocation
        (some value) = .ok (reshape w m o') := by
      have hObject : ((reshape w m o₁).modules m).object = o₁ := by
        show (if m = m then ({ object := o₁ } : ModuleObject M O)
          else w.modules m).object = o₁
        rw [if_pos rfl]
      have hSlot : o₁.writeStorageLocation builtinsLocation (some value) =
          .ok o' := by
        unfold SlotObject.writeEmptyStorageLocation at hWrite
        split at hWrite
        · exact absurd hWrite (by simp)
        · exact hWrite
      unfold World.writeStorageLocation
      simp only [hObject, hSlot]
      exact congrArg Except.ok (reshape_update w m o₁ o')
    show ((reshape w m o₁).writeStorageLocation m builtinsLocation
      (some value) >>= fun w => _) = _
    rw [hWrite']
    rfl

theorem deleteBuiltinsBinding_spec {w : World M O} (h : WellFormed w)
    (m : M) :
    ∃ w', w.deleteBuiltinsBinding m = .ok w' ∧
      Becomes w w' ((ownValue w).set m "__builtins__" none) := by
  have hModule := h.modules m
  let o₂ := (w.modules m).object.set builtinsLocation none
  have hRewrite : ((rewrite w m builtinsLocation none).modules m).object =
      o₂ := by
    show (if m = m then ({ w.modules m with object := o₂ } : ModuleObject M O)
      else w.modules m).object = o₂
    rw [if_pos rfl]
  rcases DescriptorLookup.present_or_latent hModule.shape.dunderBuiltins with
    hPresent | hLatent
  · have hLoc : (w.modules m).object.shape.resolvePresentProperty
        "__builtins__" = some builtinsLocation := by
      rw [Shape.resolvePresentProperty_eq, hPresent]
      rfl
    obtain ⟨-, hWf₂, hValue₂⟩ := hModule.object.write none hLoc
    have hEmpty : o₂.get builtinsLocation = none := by
      rw [SlotObject.get_set _ rfl, if_pos rfl]
    obtain ⟨o', hSet, hWf, hShape, hValue⟩ :=
      hWf₂.deleteEmpty hPresent rfl hEmpty
    have hBecomes := @reshape_becomes M O _ w h m "__builtins__" none o' hWf
      (by
        rw [hShape]
        exact hModule.shape.withDeleted hModule.object.shape hPresent
          (by decide))
      (by
        intro k
        rw [hValue, hValue₂]
        by_cases hk : k = "__builtins__"
        · rw [if_pos hk, if_pos hk]
        · rw [if_neg hk, if_neg hk])
    obtain ⟨hStep, -⟩ := invalidateBuiltinsBinding_spec hBecomes.wellFormed m
    have hLater := cellStep_becomes hStep
    rw [hBecomes.values] at hLater
    refine ⟨_, ?_, hBecomes.trans hLater⟩
    unfold World.deleteBuiltinsBinding
    rw [writeStorageLocation_eq_rewrite rfl]
    have hSetShape : (rewrite w m builtinsLocation none).setShape m
        ((w.modules m).object.shape.withDeleted "__builtins__"
          dunderBuiltinsInfo) = .ok (reshape w m o') := by
      have hSet' : ((rewrite w m builtinsLocation none).modules
          m).object.setShape ((w.modules m).object.shape.withDeleted
            "__builtins__" dunderBuiltinsInfo) = .ok o' := by
        rw [hRewrite]
        exact hSet
      have hNe : (w.modules m).object.shape.withDeleted "__builtins__"
          dunderBuiltinsInfo ≠
            shapeOf (rewrite w m builtinsLocation none) m := by
        unfold shapeOf
        rw [hRewrite]
        exact Shape.withDeleted_ne _ _ _
      rw [setShape_eq_reshape hSet' hNe, reshape_rewrite]
    have hAbsent : (rewrite w m builtinsLocation
        none).ensureModuleBuiltinsDescriptorAbsent m =
          .ok (reshape w m o') := by
      have hShape₂ : o₂.shape = (w.modules m).object.shape := rfl
      unfold World.ensureModuleBuiltinsDescriptorAbsent
      simp only [hRewrite, hShape₂, hLoc,
        Shape.deriveDeleteTransition_eq_ok hPresent]
      exact hSetShape
    show ((rewrite w m builtinsLocation
      none).ensureModuleBuiltinsDescriptorAbsent m >>= fun w => _) = _
    rw [hAbsent]
    rfl
  · have hNotFound : (w.modules m).object.shape.resolvePresentProperty
        "__builtins__" = none := by
      rw [Shape.resolvePresentProperty_eq, hLatent]
    have hOwn : ownValue w m "__builtins__" = none := by
      unfold ownValue SlotObject.ownValue
      rw [hNotFound]
      rfl
    have hEmpty : (w.modules m).object.get builtinsLocation = none := by
      rw [hModule.get_builtinsLocation]
      exact hOwn
    have hSlots : o₂ = (w.modules m).object :=
      SlotObject.set_inline_self _ hEmpty
    have hSame : rewrite w m builtinsLocation none = w := by
      unfold rewrite World.update
      congr 1
      funext k
      by_cases hk : k = m
      · rw [if_pos hk, hk]
        show { w.modules m with object := o₂ } = w.modules m
        rw [hSlots]
      · rw [if_neg hk]
    obtain ⟨hStep, -⟩ := invalidateBuiltinsBinding_spec h m
    have hValues : (ownValue w).set m "__builtins__" none = ownValue w :=
      Namespaces.set_self hOwn
    rw [hValues]
    refine ⟨_, ?_, cellStep_becomes hStep⟩
    unfold World.deleteBuiltinsBinding
    rw [writeStorageLocation_eq_rewrite rfl, hSame]
    have hAbsent : w.ensureModuleBuiltinsDescriptorAbsent m = .ok w := by
      unfold World.ensureModuleBuiltinsDescriptorAbsent
      simp only [hNotFound]
    show (w.ensureModuleBuiltinsDescriptorAbsent m >>= fun w => _) = _
    rw [hAbsent]
    rfl

end CloverVM.BuiltinTypes.ModuleWrites
