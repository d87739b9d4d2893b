import Mathlib.Data.List.Basic

/-!
# Shapes

A shape says where an object keeps its attributes.  It lists descriptors by
name: first those of the attributes that are present, then the latent ones,
whose attribute was deleted but whose slot stays theirs.  Adding or deleting
an attribute derives the next shape.

A transition is made once and found again afterwards, so a shape is the same
object as another exactly when both came from one root by the same
transitions.  The model keeps these transitions in the shape.
-/

namespace CloverVM.ObjectModel

inductive StorageKind where
  | inline
  | overflow
deriving DecidableEq, Repr

structure StorageLocation where
  physicalIdx : Nat
  kind : StorageKind
deriving DecidableEq, Repr

structure DescriptorFlags where
  readOnly : Bool := false
  stableSlot : Bool := false
  specialRead : Bool := false
  specialMutate : Bool := false
deriving DecidableEq, Repr

inductive DescriptorSpecialKind where
  | none
  | shapeClass
  | slotDict
  | moduleBuiltins
deriving DecidableEq, Repr

/-- `storageLocation` is none for the location that is not found, `-1`. -/
structure DescriptorInfo where
  storageLocation : Option StorageLocation
  flags : DescriptorFlags := {}
  specialKind : DescriptorSpecialKind := .none
deriving DecidableEq, Repr

/-- `dunder_class_descriptor_flags` and `dunder_dict_descriptor_flags`. -/
def reservedDescriptorFlags : DescriptorFlags :=
  { readOnly := true, stableSlot := true, specialRead := true
    specialMutate := true }

def dunderClassInfo : DescriptorInfo :=
  { storageLocation := none, flags := reservedDescriptorFlags
    specialKind := .shapeClass }

def dunderDictInfo : DescriptorInfo :=
  { storageLocation := none, flags := reservedDescriptorFlags
    specialKind := .slotDict }

/-- The location that a plan carries.  Every descriptor that is written has
one; the first slot stands for `-1`. -/
def DescriptorInfo.locationOrFirst (info : DescriptorInfo) :
    StorageLocation :=
  info.storageLocation.getD ⟨0, .inline⟩

inductive DescriptorLookup where
  | absent
  | present (info : DescriptorInfo)
  | latent (info : DescriptorInfo)
deriving DecidableEq, Repr

/-- The descriptor that was found, present or latent. -/
def DescriptorLookup.info? : DescriptorLookup → Option DescriptorInfo
  | .absent => none
  | .present info => some info
  | .latent info => some info

theorem DescriptorLookup.present_or_latent {l : DescriptorLookup}
    {info : DescriptorInfo} (h : l.info? = some info) :
    l = .present info ∨ l = .latent info := by
  cases l with
  | absent => cases h
  | present i => exact Or.inl (congrArg _ (Option.some.inj h))
  | latent i => exact Or.inr (congrArg _ (Option.some.inj h))

def DescriptorLookup.location? (l : DescriptorLookup) :
    Option StorageLocation :=
  l.info?.bind DescriptorInfo.storageLocation

/-! ## Shapes -/

/-- How a shape was made from the shape before it.  A clone is a new object
each time, told apart by its number. -/
inductive ShapeTransition where
  | add (name : String) (flags : DescriptorFlags)
  | delete (name : String)
  | clone (object : Nat)
deriving DecidableEq, Repr

structure Shape where
  transitions : List ShapeTransition := []
  present : List (String × DescriptorInfo)
  latent : List (String × DescriptorInfo) := []
  nextSlotIndex : Nat
  inlineSlotCapacity : Nat
  disallowAttributeUpdates : Bool := false
  disallowAttributeAddDelete : Bool := false
deriving DecidableEq, Repr

/-- The assertions and fatal errors of the shape and storage code. -/
inductive AssertionFailure where
  | addRequiresNewProperty
  | deleteRequiresExistingProperty
  | locationIsFound
  | locationIsInline
  | slotIsNotPresent
  | overflowSlotExists
  | overflowCapacityFits
deriving DecidableEq, Repr

namespace Shape

def lookupPresentDescriptor (s : Shape) (name : String) :
    Option DescriptorInfo :=
  s.present.lookup name

def lookupDescriptorIncludingLatent (s : Shape) (name : String) :
    DescriptorLookup :=
  match s.present.lookup name with
  | some info => .present info
  | none =>
      match s.latent.lookup name with
      | some info => .latent info
      | none => .absent

def resolvePresentProperty (s : Shape) (name : String) :
    Option StorageLocation :=
  (s.lookupPresentDescriptor name).bind DescriptorInfo.storageLocation

/-- The slot of a new property: inline while there is room. -/
def newStorageLocation (s : Shape) : StorageLocation :=
  if s.nextSlotIndex < s.inlineSlotCapacity then
    ⟨s.nextSlotIndex, .inline⟩
  else
    ⟨s.nextSlotIndex - s.inlineSlotCapacity, .overflow⟩

/-- `inserted_info`: a latent property comes back with its own descriptor,
whatever the flags. -/
def insertedInfo (s : Shape) (name : String) (flags : DescriptorFlags) :
    DescriptorInfo :=
  match s.lookupDescriptorIncludingLatent name with
  | .latent info => info
  | _ => { storageLocation := some s.newStorageLocation, flags }

/-- `next_slot_index_for_shape`. -/
def nextSlotIndexAfterAdd (s : Shape) (name : String) : Nat :=
  match s.lookupDescriptorIncludingLatent name with
  | .latent _ => s.nextSlotIndex
  | _ => s.nextSlotIndex + 1

/-- The shape that `derive_add_transition` makes. -/
def withAdded (s : Shape) (name : String) (flags : DescriptorFlags) : Shape :=
  { s with
    transitions := .add name flags :: s.transitions
    present := s.present ++ [(name, s.insertedInfo name flags)]
    latent := s.latent.filter fun d => d.1 ≠ name
    nextSlotIndex := s.nextSlotIndexAfterAdd name }

def deriveAddTransition (s : Shape) (name : String)
    (flags : DescriptorFlags) : Except AssertionFailure Shape :=
  match s.lookupDescriptorIncludingLatent name with
  | .present _ => .error .addRequiresNewProperty
  | _ => .ok (s.withAdded name flags)

/-- The next shape of a property to add, with the location found in it. -/
def deriveAdded (s : Shape) (name : String) :
    Except AssertionFailure (Shape × StorageLocation) := do
  let nextShape ← s.deriveAddTransition name {}
  match nextShape.resolvePresentProperty name with
  | none => .error .locationIsFound
  | some location => return (nextShape, location)

/-- The shape that `derive_delete_transition` makes: only a property with a
stable slot stays as latent. -/
def withDeleted (s : Shape) (name : String) (info : DescriptorInfo) : Shape :=
  { s with
    transitions := .delete name :: s.transitions
    present := s.present.filter fun d => d.1 ≠ name
    latent :=
      if info.flags.stableSlot then s.latent ++ [(name, info)]
      else s.latent }

def deriveDeleteTransition (s : Shape) (name : String) :
    Except AssertionFailure Shape :=
  match s.lookupDescriptorIncludingLatent name with
  | .present info => .ok (s.withDeleted name info)
  | _ => .error .deleteRequiresExistingProperty

/-- `clone_with_class`, where `object` is the new shape. -/
def cloneWithClass (s : Shape) (object : Nat) : Shape :=
  { s with transitions := .clone object :: s.transitions }

theorem resolvePresentProperty_eq (s : Shape) (name : String) :
    s.resolvePresentProperty name =
      match s.lookupDescriptorIncludingLatent name with
      | .present info => info.storageLocation
      | _ => none := by
  unfold resolvePresentProperty lookupPresentDescriptor
    lookupDescriptorIncludingLatent
  cases s.present.lookup name with
  | some info => rfl
  | none => cases s.latent.lookup name <;> rfl

theorem resolvePresentProperty_eq_some {s : Shape} {name : String}
    {loc : StorageLocation} (h : s.resolvePresentProperty name = some loc) :
    ∃ info, s.lookupDescriptorIncludingLatent name = .present info ∧
      info.storageLocation = some loc := by
  rw [resolvePresentProperty_eq] at h
  cases hLookup : s.lookupDescriptorIncludingLatent name with
  | present info =>
      rw [hLookup] at h
      exact ⟨info, rfl, h⟩
  | latent info | absent =>
      rw [hLookup] at h
      exact absurd h (by simp)

/-- Shapes with the same descriptors find the same. -/
theorem resolvePresentProperty_congr {s s' : Shape} {name : String}
    (h : s'.lookupDescriptorIncludingLatent name =
      s.lookupDescriptorIncludingLatent name) :
    s'.resolvePresentProperty name = s.resolvePresentProperty name := by
  rw [resolvePresentProperty_eq, resolvePresentProperty_eq, h]

theorem lookup_filter_ne (ds : List (String × DescriptorInfo))
    (name k : String) :
    (ds.filter fun d => d.1 ≠ name).lookup k =
      if k = name then none else ds.lookup k := by
  induction ds with
  | nil => simp
  | cons d ds ih =>
      by_cases hd : d.1 = name
      · rw [List.filter_cons_of_neg (by simpa using hd), ih, List.lookup_cons]
        by_cases hk : k = name
        · rw [if_pos hk, if_pos hk]
        · have hNe : (k == d.1) = false := by
            rw [hd]
            exact beq_false_of_ne hk
          rw [if_neg hk, if_neg hk, hNe]
      · rw [List.filter_cons_of_pos (by simpa using hd), List.lookup_cons,
          List.lookup_cons, ih]
        by_cases hk : k = name
        · have hNe : (k == d.1) = false := by
            rw [hk]
            exact beq_false_of_ne fun h => hd h.symm
          simp only [hNe, if_pos hk]
        · simp only [if_neg hk]

theorem lookup_append_singleton (ds : List (String × DescriptorInfo))
    (name k : String) (info : DescriptorInfo) :
    (ds ++ [(name, info)]).lookup k =
      match ds.lookup k with
      | some i => some i
      | none => if k = name then some info else none := by
  induction ds with
  | nil =>
      simp only [List.nil_append, List.lookup_cons, List.lookup_nil]
      by_cases hk : k = name
      · rw [if_pos hk, hk, beq_self_eq_true]
      · rw [if_neg hk, beq_false_of_ne hk]
  | cons d ds ih =>
      rw [List.cons_append, List.lookup_cons, List.lookup_cons, ih]
      cases k == d.1 <;> rfl

/-- A location of one of the slots handed out so far. -/
def Allocated (s : Shape) (loc : StorageLocation) : Prop :=
  match loc.kind with
  | .inline =>
      loc.physicalIdx < s.nextSlotIndex ∧
        loc.physicalIdx < s.inlineSlotCapacity
  | .overflow => s.inlineSlotCapacity + loc.physicalIdx < s.nextSlotIndex

/-- The names of the present and of the latent descriptors are disjoint, and
every location is a slot handed out to one name. -/
structure WellFormed (s : Shape) : Prop where
  disjoint : ∀ name info, s.present.lookup name = some info →
    s.latent.lookup name = none
  allocated : ∀ name loc,
    (s.lookupDescriptorIncludingLatent name).location? = some loc →
    s.Allocated loc
  injective : ∀ name name' loc,
    (s.lookupDescriptorIncludingLatent name).location? = some loc →
    (s.lookupDescriptorIncludingLatent name').location? = some loc →
    name = name'

theorem Allocated.mono {s next : Shape} {loc : StorageLocation}
    (h : s.Allocated loc) (hSlots : s.nextSlotIndex ≤ next.nextSlotIndex)
    (hCapacity : next.inlineSlotCapacity = s.inlineSlotCapacity) :
    next.Allocated loc := by
  unfold Allocated at h ⊢
  rw [hCapacity]
  cases hKind : loc.kind with
  | inline =>
      rw [hKind] at h
      exact ⟨Nat.lt_of_lt_of_le h.1 hSlots, h.2⟩
  | overflow =>
      rw [hKind] at h
      exact Nat.lt_of_lt_of_le h hSlots

theorem not_allocated_newStorageLocation (s : Shape) :
    ¬ s.Allocated s.newStorageLocation := by
  unfold newStorageLocation
  split
  · simp [Allocated]
  · simp only [Allocated]
    omega

theorem WellFormed.latent_eq_none {s : Shape} (h : s.WellFormed)
    {name : String} {info : DescriptorInfo}
    (hPresent : s.lookupDescriptorIncludingLatent name = .present info) :
    s.present.lookup name = some info ∧ s.latent.lookup name = none := by
  have hInfo : s.present.lookup name = some info := by
    unfold lookupDescriptorIncludingLatent at hPresent
    cases hLookup : s.present.lookup name with
    | some i =>
        simp only [hLookup, DescriptorLookup.present.injEq] at hPresent
        rw [hPresent]
    | none =>
        simp only [hLookup] at hPresent
        cases hLatent : s.latent.lookup name <;> simp [hLatent] at hPresent
  exact ⟨hInfo, h.disjoint name info hInfo⟩

/-! ## Adding a property -/

section Add

variable {s : Shape} {name : String} {flags : DescriptorFlags}

theorem deriveAddTransition_eq_ok
    (h : ∀ info, s.lookupDescriptorIncludingLatent name ≠ .present info) :
    s.deriveAddTransition name flags = .ok (s.withAdded name flags) := by
  unfold deriveAddTransition
  cases hLookup : s.lookupDescriptorIncludingLatent name with
  | present info => exact absurd hLookup (h info)
  | latent info | absent => rfl

theorem not_present_of_eq {l : DescriptorLookup}
    (h : s.lookupDescriptorIncludingLatent name = l)
    (hl : ∀ info, l ≠ .present info) (info : DescriptorInfo) :
    s.lookupDescriptorIncludingLatent name ≠ .present info := by
  rw [h]
  exact hl info

theorem present_lookup_eq_none
    (h : ∀ info, s.lookupDescriptorIncludingLatent name ≠ .present info) :
    s.present.lookup name = none := by
  cases hLookup : s.present.lookup name with
  | none => rfl
  | some info =>
      refine absurd ?_ (h info)
      unfold lookupDescriptorIncludingLatent
      rw [hLookup]

/-- Adding makes a property present and leaves the others. -/
theorem lookup_withAdded
    (h : ∀ info, s.lookupDescriptorIncludingLatent name ≠ .present info)
    (k : String) :
    (s.withAdded name flags).lookupDescriptorIncludingLatent k =
      if k = name then .present (s.insertedInfo name flags)
      else s.lookupDescriptorIncludingLatent k := by
  have hPresent := present_lookup_eq_none h
  unfold lookupDescriptorIncludingLatent withAdded
  simp only [lookup_append_singleton, lookup_filter_ne]
  by_cases hk : k = name
  · subst hk
    simp only [hPresent, if_true]
  · simp only [if_neg hk]
    cases s.present.lookup k <;> rfl

theorem le_nextSlotIndexAfterAdd (s : Shape) (name : String) :
    s.nextSlotIndex ≤ s.nextSlotIndexAfterAdd name := by
  unfold nextSlotIndexAfterAdd
  split
  · exact Nat.le_refl _
  · exact Nat.le_succ _

/-- A slot of the shape before is not the slot of a property added under
another name. -/
theorem WellFormed.location_insertedInfo_ne (hWf : s.WellFormed) {k : String}
    {loc : StorageLocation} (hk : k ≠ name)
    (hLoc : (s.lookupDescriptorIncludingLatent k).location? = some loc) :
    (s.insertedInfo name flags).storageLocation ≠ some loc := by
  intro hAdded
  unfold insertedInfo at hAdded
  split at hAdded
  · rename_i info hLatent
    refine hk (hWf.injective k name loc hLoc ?_)
    rw [hLatent]
    exact hAdded
  · simp only [Option.some.injEq] at hAdded
    rw [← hAdded] at hLoc
    exact s.not_allocated_newStorageLocation (hWf.allocated k _ hLoc)

theorem WellFormed.allocated_insertedInfo (hWf : s.WellFormed)
    (h : ∀ info, s.lookupDescriptorIncludingLatent name ≠ .present info)
    {loc : StorageLocation}
    (hLoc : (s.insertedInfo name flags).storageLocation = some loc) :
    (s.withAdded name flags).Allocated loc := by
  unfold insertedInfo at hLoc
  cases hLookup : s.lookupDescriptorIncludingLatent name with
  | present info => exact absurd hLookup (h info)
  | latent info =>
      simp only [hLookup] at hLoc
      refine (hWf.allocated name loc ?_).mono (s.le_nextSlotIndexAfterAdd name)
        rfl
      rw [hLookup]
      exact hLoc
  | absent =>
      simp only [hLookup, Option.some.injEq] at hLoc
      subst hLoc
      have hNext : (s.withAdded name flags).nextSlotIndex =
          s.nextSlotIndex + 1 := by
        show s.nextSlotIndexAfterAdd name = _
        rw [nextSlotIndexAfterAdd, hLookup]
      have hCapacity : (s.withAdded name flags).inlineSlotCapacity =
          s.inlineSlotCapacity := rfl
      unfold Allocated newStorageLocation
      rw [hNext, hCapacity]
      by_cases hRoom : s.nextSlotIndex < s.inlineSlotCapacity
      · simp only [if_pos hRoom]
        omega
      · simp only [if_neg hRoom]
        omega

theorem WellFormed.withAdded (hWf : s.WellFormed)
    (h : ∀ info, s.lookupDescriptorIncludingLatent name ≠ .present info) :
    (s.withAdded name flags).WellFormed := by
  refine { disjoint := ?_, allocated := ?_, injective := ?_ }
  · intro k info hInfo
    unfold Shape.withAdded at hInfo ⊢
    simp only [lookup_append_singleton, lookup_filter_ne] at hInfo ⊢
    by_cases hk : k = name
    · rw [if_pos hk]
    · rw [if_neg hk]
      cases hPresent : s.present.lookup k with
      | some i => exact hWf.disjoint k i hPresent
      | none => simp [hPresent, hk] at hInfo
  · intro k loc hLoc
    rw [lookup_withAdded h] at hLoc
    by_cases hk : k = name
    · rw [if_pos hk] at hLoc
      exact hWf.allocated_insertedInfo h hLoc
    · rw [if_neg hk] at hLoc
      exact (hWf.allocated k loc hLoc).mono (s.le_nextSlotIndexAfterAdd name)
        rfl
  · intro k k' loc hLoc hLoc'
    rw [lookup_withAdded h] at hLoc hLoc'
    by_cases hk : k = name
    · by_cases hk' : k' = name
      · rw [hk, hk']
      · rw [if_pos hk] at hLoc
        rw [if_neg hk'] at hLoc'
        exact absurd hLoc (hWf.location_insertedInfo_ne hk' hLoc')
    · rw [if_neg hk] at hLoc
      by_cases hk' : k' = name
      · rw [if_pos hk'] at hLoc'
        exact absurd hLoc' (hWf.location_insertedInfo_ne hk hLoc)
      · rw [if_neg hk'] at hLoc'
        exact hWf.injective k k' loc hLoc hLoc'

end Add

/-! ## Deleting a property -/

section Delete

variable {s : Shape} {name : String} {info : DescriptorInfo}

theorem deriveDeleteTransition_eq_ok
    (h : s.lookupDescriptorIncludingLatent name = .present info) :
    s.deriveDeleteTransition name = .ok (s.withDeleted name info) := by
  unfold deriveDeleteTransition
  rw [h]

/-- Deleting leaves the descriptor latent if its slot is stable. -/
theorem WellFormed.lookup_withDeleted (hWf : s.WellFormed)
    (h : s.lookupDescriptorIncludingLatent name = .present info)
    (k : String) :
    (s.withDeleted name info).lookupDescriptorIncludingLatent k =
      if k = name then
        if info.flags.stableSlot then .latent info else .absent
      else s.lookupDescriptorIncludingLatent k := by
  obtain ⟨-, hLatent⟩ := hWf.latent_eq_none h
  unfold lookupDescriptorIncludingLatent withDeleted
  simp only [lookup_filter_ne]
  by_cases hk : k = name
  · subst hk
    by_cases hStable : info.flags.stableSlot = true
    · simp [hStable, lookup_append_singleton, hLatent]
    · simp [hStable, hLatent]
  · simp only [if_neg hk]
    by_cases hStable : info.flags.stableSlot = true
    · simp only [hStable, if_true, lookup_append_singleton, if_neg hk]
      cases s.present.lookup k with
      | some i => rfl
      | none => cases s.latent.lookup k <;> rfl
    · simp only [hStable]
      rfl

/-- What is found after deleting was found before, at the same place. -/
theorem WellFormed.location_withDeleted (hWf : s.WellFormed)
    (h : s.lookupDescriptorIncludingLatent name = .present info)
    {k : String} {loc : StorageLocation}
    (hLoc : ((s.withDeleted name info).lookupDescriptorIncludingLatent
      k).location? = some loc) :
    (s.lookupDescriptorIncludingLatent k).location? = some loc := by
  rw [hWf.lookup_withDeleted h] at hLoc
  by_cases hk : k = name
  · rw [if_pos hk] at hLoc
    subst hk
    rw [h]
    by_cases hStable : info.flags.stableSlot = true
    · rw [if_pos hStable] at hLoc
      exact hLoc
    · rw [if_neg hStable] at hLoc
      exact absurd hLoc (by simp [DescriptorLookup.location?,
        DescriptorLookup.info?])
  · rw [if_neg hk] at hLoc
    exact hLoc

theorem WellFormed.withDeleted (hWf : s.WellFormed)
    (h : s.lookupDescriptorIncludingLatent name = .present info) :
    (s.withDeleted name info).WellFormed := by
  refine { disjoint := ?_, allocated := ?_, injective := ?_ }
  · intro k i hInfo
    unfold Shape.withDeleted at hInfo ⊢
    simp only [lookup_filter_ne] at hInfo ⊢
    by_cases hk : k = name
    · rw [if_pos hk] at hInfo
      exact absurd hInfo (by simp)
    · rw [if_neg hk] at hInfo
      have hNone := hWf.disjoint k i hInfo
      split
      · simp only [lookup_append_singleton, hNone, if_neg hk]
      · exact hNone
  · intro k loc hLoc
    exact hWf.allocated k loc (hWf.location_withDeleted h hLoc)
  · intro k k' loc hLoc hLoc'
    exact hWf.injective k k' loc (hWf.location_withDeleted h hLoc)
      (hWf.location_withDeleted h hLoc')

end Delete

theorem WellFormed.cloneWithClass {s : Shape} (h : s.WellFormed)
    (object : Nat) : (s.cloneWithClass object).WellFormed :=
  ⟨h.disjoint, h.allocated, h.injective⟩

theorem withAdded_ne (s : Shape) (name : String) (flags : DescriptorFlags) :
    s.withAdded name flags ≠ s := by
  intro h
  exact List.cons_ne_self _ _ (congrArg Shape.transitions h)

theorem withDeleted_ne (s : Shape) (name : String) (info : DescriptorInfo) :
    s.withDeleted name info ≠ s := by
  intro h
  exact List.cons_ne_self _ _ (congrArg Shape.transitions h)

theorem cloneWithClass_ne (s : Shape) (object : Nat) :
    s.cloneWithClass object ≠ s := by
  intro h
  exact List.cons_ne_self _ _ (congrArg Shape.transitions h)

end Shape

end CloverVM.ObjectModel
