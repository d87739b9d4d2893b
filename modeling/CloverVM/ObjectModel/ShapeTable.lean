import CloverVM.ObjectModel.Shape
import Mathlib.Data.List.Nodup
import Mathlib.Order.Nat

/-!
# The table of shapes

Shapes as objects that many objects share.  Each shape lists the transitions
that were derived from it, by name, verb and descriptor flags, with the shape
each leads to, so that the same transition leads to the same shape again.
-/

namespace CloverVM.ObjectModel.ShapeTable

open CloverVM.ObjectModel

inductive ShapeTransitionVerb where
  | add
  | delete
deriving DecidableEq, Repr

structure Transition where
  name : String
  verb : ShapeTransitionVerb
  descriptorFlags : DescriptorFlags
  nextShape : Nat
deriving DecidableEq, Repr

/-- A shape object: `shape` has its descriptors, its slot counts and the flags
about attribute writes. -/
structure ShapeObject (V : Type) where
  classValue : V
  previousShape : Option Nat := none
  shape : Shape
  isImmutable : Bool := false
  transitions : List Transition := []

/-- The shape objects made so far, by the order they were made in. -/
structure Shapes (V : Type) where
  get : Nat → ShapeObject V
  count : Nat := 0

/-- The assertions of the code, and what is unreachable in it. -/
inductive Failure where
  | assertion (a : AssertionFailure)
  | specialFlagsNeedKind
  | shapeIsMutable
  | shapeFlagsAreValid
  | inlineSlotCountFits
  | slotIsInitialized
  | slotIsAllocated
  | pointerIsValid
  | unreachable
deriving DecidableEq, Repr

/-- A failure of the code that works on one shape. -/
def lift {α : Type} : Except AssertionFailure α → Except Failure α
  | .ok a => .ok a
  | .error a => .error (.assertion a)

namespace Shapes

variable {V : Type}

def allocate (s : Shapes V) (o : ShapeObject V) : Nat × Shapes V :=
  (s.count, { get := Function.update s.get s.count o, count := s.count + 1 })

def addTransition (s : Shapes V) (i : Nat) (t : Transition) : Shapes V :=
  { s with
    get := Function.update s.get i
      { s.get i with transitions := (s.get i).transitions ++ [t] } }

def lookupTransition (s : Shapes V) (i : Nat) (name : String)
    (verb : ShapeTransitionVerb) (descriptorFlags : DescriptorFlags) :
    Option Nat :=
  ((s.get i).transitions.find? fun t =>
    t.verb = verb ∧ t.descriptorFlags = descriptorFlags ∧
      name = t.name).map Transition.nextShape

/-- The shape after one more property; a descriptor that is made has no
special kind, so `DescriptorInfo::make` asserts that it has no special
flag. -/
def deriveAddTransition (s : Shapes V) (i : Nat) (name : String)
    (descriptorFlags : DescriptorFlags) : Except Failure Shape :=
  let shape := (s.get i).shape
  match shape.lookupDescriptorIncludingLatent name with
  | .absent =>
      if descriptorFlags.specialRead || descriptorFlags.specialMutate then
        .error .specialFlagsNeedKind
      else lift (shape.deriveAddTransition name descriptorFlags)
  | _ => lift (shape.deriveAddTransition name descriptorFlags)

def deriveDeleteTransition (s : Shapes V) (i : Nat) (name : String) :
    Except Failure Shape :=
  lift ((s.get i).shape.deriveDeleteTransition name)

/-- The switch of `derive_transition`. -/
def makeTransition (s : Shapes V) (i : Nat) (name : String)
    (verb : ShapeTransitionVerb) (descriptorFlags : DescriptorFlags) :
    Except Failure Shape :=
  match verb with
  | .add => s.deriveAddTransition i name descriptorFlags
  | .delete => s.deriveDeleteTransition i name

def deriveTransition (s : Shapes V) (i : Nat) (name : String)
    (verb : ShapeTransitionVerb) (descriptorFlags : DescriptorFlags) :
    Except Failure (Nat × Shapes V) :=
  match s.lookupTransition i name verb descriptorFlags with
  | some existing => .ok (existing, s)
  | none => do
      let shape ← s.makeTransition i name verb descriptorFlags
      let (nextShape, s) := s.allocate
        { s.get i with
          previousShape := some i
          shape
          transitions := [] }
      return (nextShape,
        s.addTransition i ⟨name, verb, descriptorFlags, nextShape⟩)

def cloneWithClass (s : Shapes V) (i : Nat) (newClass : V) :
    Except Failure (Nat × Shapes V) :=
  let this := s.get i
  if this.isImmutable then .error .shapeIsMutable
  else
    .ok (s.allocate
      { this with
        classValue := newClass
        shape := this.shape.cloneWithClass s.count
        transitions := [] })

end Shapes

/-! ## Roots -/

/-- A descriptor for an inline slot. -/
def slotDescriptor (name : String) (slotIndex : Nat)
    (flags : DescriptorFlags := { stableSlot := true }) :
    String × DescriptorInfo :=
  (name, { storageLocation := some ⟨slotIndex, .inline⟩, flags })

def dunderClass : String × DescriptorInfo := ("__class__", dunderClassInfo)

def dunderDict : String × DescriptorInfo := ("__dict__", dunderDictInfo)

def classMetadataFlags : DescriptorFlags :=
  { readOnly := true, stableSlot := true }

def dunderBuiltins : String × DescriptorInfo :=
  ("__builtins__",
    { storageLocation := some ⟨1, .inline⟩
      flags := { stableSlot := true, specialMutate := true }
      specialKind := .moduleBuiltins })

/-- The shapes that no transition leads to: those of values that are no
objects, of classes, and of the instances of a class. -/
inductive RootKind where
  | inlineValue
  | classObject
  | defaultInstance (inlineSlotCapacity : Nat)
      (disallowAttributeUpdates disallowAttributeAddDelete : Bool)
  | exception
  | stopIteration
  | module
  | function
  | moduleSpec
  | moduleLoader
  | slice
deriving DecidableEq, Repr

/-- The descriptors as the builders list them.  The ones of `__new__` and
`__init__` of a class start latent. -/
def RootKind.shape : RootKind → Shape
  | .inlineValue =>
      { present := [dunderClass], nextSlotIndex := 0, inlineSlotCapacity := 0
        disallowAttributeUpdates := true, disallowAttributeAddDelete := true }
  | .classObject =>
      { present :=
          [dunderClass, dunderDict,
            slotDescriptor "__name__" 0 classMetadataFlags,
            slotDescriptor "__bases__" 1 classMetadataFlags,
            slotDescriptor "__mro__" 2 classMetadataFlags]
        latent := [slotDescriptor "__new__" 3, slotDescriptor "__init__" 4]
        nextSlotIndex := 5, inlineSlotCapacity := 48 }
  | .defaultInstance inlineSlotCapacity disallowAttributeUpdates
      disallowAttributeAddDelete =>
      { present := [dunderClass, dunderDict], nextSlotIndex := 0
        inlineSlotCapacity, disallowAttributeUpdates
        disallowAttributeAddDelete }
  | .exception =>
      { present := [dunderClass, dunderDict, slotDescriptor "message" 0]
        nextSlotIndex := 1, inlineSlotCapacity := 1 }
  | .stopIteration =>
      { present :=
          [dunderClass, dunderDict, slotDescriptor "message" 0,
            slotDescriptor "value" 1]
        nextSlotIndex := 2, inlineSlotCapacity := 2 }
  | .module =>
      { present :=
          [dunderClass, dunderDict, slotDescriptor "__name__" 0,
            dunderBuiltins]
        nextSlotIndex := 2, inlineSlotCapacity := 256 }
  | .function =>
      { present :=
          [dunderClass, dunderDict,
            slotDescriptor "__code__" 0 classMetadataFlags,
            slotDescriptor "__doc__" 2]
        nextSlotIndex := 3, inlineSlotCapacity := 3
        disallowAttributeAddDelete := true }
  | .moduleSpec =>
      { present :=
          [dunderClass, dunderDict, slotDescriptor "name" 0,
            slotDescriptor "loader" 1, slotDescriptor "origin" 2,
            slotDescriptor "submodule_search_locations" 3,
            slotDescriptor "has_location" 4, slotDescriptor "parent" 5]
        nextSlotIndex := 6, inlineSlotCapacity := 6
        disallowAttributeAddDelete := true }
  | .moduleLoader =>
      { present :=
          [dunderClass, dunderDict, slotDescriptor "kind" 0,
            slotDescriptor "name" 1, slotDescriptor "path" 2]
        nextSlotIndex := 3, inlineSlotCapacity := 3
        disallowAttributeAddDelete := true }
  | .slice =>
      { present :=
          [slotDescriptor "start" 0 classMetadataFlags,
            slotDescriptor "stop" 1 classMetadataFlags,
            slotDescriptor "step" 2 classMetadataFlags]
        nextSlotIndex := 3, inlineSlotCapacity := 3
        disallowAttributeUpdates := true, disallowAttributeAddDelete := true }

/-! ## Well-formed shapes -/

/-- Names and locations are distinct, and a descriptor without a location is
one that writes treat specially. -/
structure WellFormedShape (s : Shape) : Prop where
  wellFormed : s.WellFormed
  names : ((s.present ++ s.latent).map Prod.fst).Nodup
  stored : ∀ name info,
    (s.lookupDescriptorIncludingLatent name).info? = some info →
    info.flags.specialMutate = false → info.storageLocation.isSome = true
  special : ∀ name info,
    (s.lookupDescriptorIncludingLatent name).info? = some info →
    info.flags.specialMutate = true → info.specialKind ≠ .none ∧
      (info.specialKind = .moduleBuiltins →
        info.storageLocation.isSome = true)

theorem mem_of_lookup {ds : List (String × DescriptorInfo)} {name : String}
    {info : DescriptorInfo} (h : ds.lookup name = some info) :
    (name, info) ∈ ds := by
  induction ds with
  | nil => exact absurd h nofun
  | cons d ds ih =>
      rw [List.lookup_cons] at h
      by_cases hd : name = d.1
      · rw [beq_iff_eq.mpr hd] at h
        rw [hd, ← Option.some.inj h]
        exact List.mem_cons_self
      · rw [beq_false_of_ne hd] at h
        exact List.mem_cons_of_mem _ (ih h)

theorem lookup_eq_none_iff (ds : List (String × DescriptorInfo))
    (name : String) :
    ds.lookup name = none ↔ name ∉ ds.map Prod.fst := by
  induction ds with
  | nil => simp
  | cons d ds ih =>
      rw [List.lookup_cons, List.map_cons, List.mem_cons]
      by_cases hd : name = d.1
      · rw [beq_iff_eq.mpr hd]
        simp [hd]
      · rw [beq_false_of_ne hd, ih]
        simp [hd]

namespace WellFormedShape

variable {s : Shape} {name : String}

/-- A new property gets its own latent descriptor, or a new one. -/
theorem insertedInfo_cases (s : Shape) (name : String)
    (flags : DescriptorFlags)
    (hNew : ∀ info, s.lookupDescriptorIncludingLatent name ≠ .present info) :
    (s.lookupDescriptorIncludingLatent name).info? =
        some (s.insertedInfo name flags) ∨
      s.lookupDescriptorIncludingLatent name = .absent ∧
        s.insertedInfo name flags =
          { storageLocation := some s.newStorageLocation, flags } := by
  rw [Shape.insertedInfo]
  cases hFound : s.lookupDescriptorIncludingLatent name with
  | absent => exact Or.inr ⟨rfl, rfl⟩
  | present info => exact absurd hFound (hNew info)
  | latent info => exact Or.inl rfl

theorem names_withAdded (h : WellFormedShape s) {flags : DescriptorFlags}
    (hNew : ∀ info, s.lookupDescriptorIncludingLatent name ≠ .present info) :
    (((s.withAdded name flags).present ++
      (s.withAdded name flags).latent).map Prod.fst).Nodup := by
  have hNone := (lookup_eq_none_iff _ _).mp (Shape.present_lookup_eq_none hNew)
  have hNames := h.names
  rw [List.map_append] at hNames
  obtain ⟨hPresent, hLatent, hApart⟩ := List.nodup_append.mp hNames
  have hKept : (s.latent.filter fun d => d.1 ≠ name).Sublist s.latent :=
    List.filter_sublist
  show (((s.present ++ [(name, s.insertedInfo name flags)]) ++
    s.latent.filter fun d => d.1 ≠ name).map Prod.fst).Nodup
  rw [List.map_append, List.map_append, List.append_assoc]
  refine List.nodup_append.mpr ⟨hPresent, ?_, ?_⟩
  · refine List.nodup_cons.mpr ⟨?_, hLatent.sublist (hKept.map _)⟩
    intro hMem
    obtain ⟨d, hd, hEq⟩ := List.mem_map.mp hMem
    have hNe := (List.mem_filter.mp hd).2
    simp only [hEq] at hNe
    exact absurd rfl (of_decide_eq_true hNe)
  · intro a ha b hb
    rcases List.mem_cons.mp hb with rfl | hRest
    · rintro rfl
      exact hNone ha
    · exact hApart a ha b ((hKept.map Prod.fst).subset hRest)

theorem withAdded (h : WellFormedShape s) {flags : DescriptorFlags}
    (hNew : ∀ info, s.lookupDescriptorIncludingLatent name ≠ .present info)
    (hFlags : s.lookupDescriptorIncludingLatent name = .absent →
      flags.specialMutate = false) :
    WellFormedShape (s.withAdded name flags) := by
  have hLookup := @Shape.lookup_withAdded s name flags hNew
  refine
    { wellFormed := h.wellFormed.withAdded hNew
      names := h.names_withAdded hNew
      stored := fun k info hInfo hPlain => ?_
      special := fun k info hInfo hSpecial => ?_ }
  · rw [hLookup] at hInfo
    by_cases hk : k = name
    · rw [if_pos hk] at hInfo
      rw [← Option.some.inj hInfo] at hPlain ⊢
      rcases insertedInfo_cases s name flags hNew with hOld | ⟨-, hMade⟩
      · exact h.stored name _ hOld hPlain
      · rw [hMade]
        rfl
    · rw [if_neg hk] at hInfo
      exact h.stored k info hInfo hPlain
  · rw [hLookup] at hInfo
    by_cases hk : k = name
    · rw [if_pos hk] at hInfo
      rw [← Option.some.inj hInfo] at hSpecial ⊢
      rcases insertedInfo_cases s name flags hNew with hOld | ⟨hAbsent, hMade⟩
      · exact h.special name _ hOld hSpecial
      · rw [hMade, hFlags hAbsent] at hSpecial
        exact absurd hSpecial Bool.false_ne_true
    · rw [if_neg hk] at hInfo
      exact h.special k info hInfo hSpecial

theorem names_withDeleted (h : WellFormedShape s) {info : DescriptorInfo}
    (hPresent : s.lookupDescriptorIncludingLatent name = .present info) :
    (((s.withDeleted name info).present ++
      (s.withDeleted name info).latent).map Prod.fst).Nodup := by
  obtain ⟨-, hLatentNone⟩ := h.wellFormed.latent_eq_none hPresent
  have hNone := (lookup_eq_none_iff _ _).mp hLatentNone
  have hNames := h.names
  rw [List.map_append] at hNames
  obtain ⟨hPresentNames, hLatent, hApart⟩ := List.nodup_append.mp hNames
  have hKept : (s.present.filter fun d => d.1 ≠ name).Sublist s.present :=
    List.filter_sublist
  have hGone : name ∉
      (s.present.filter fun d => d.1 ≠ name).map Prod.fst := by
    intro hMem
    obtain ⟨d, hd, hEq⟩ := List.mem_map.mp hMem
    have hNe := (List.mem_filter.mp hd).2
    simp only [hEq] at hNe
    exact absurd rfl (of_decide_eq_true hNe)
  rw [List.map_append]
  refine List.nodup_append.mpr ⟨hPresentNames.sublist (hKept.map _), ?_, ?_⟩
  · rw [Shape.withDeleted]
    split
    · rw [List.map_append]
      refine List.nodup_append.mpr ⟨hLatent, List.nodup_singleton _, ?_⟩
      intro a ha b hb
      rw [List.map_singleton, List.mem_singleton] at hb
      rw [hb]
      rintro rfl
      exact hNone ha
    · exact hLatent
  · intro a ha b hb
    have hOld : b ∈ s.latent.map Prod.fst ∨ b = name := by
      rw [Shape.withDeleted] at hb
      split at hb
      · rw [List.map_append, List.mem_append, List.map_singleton,
          List.mem_singleton] at hb
        exact hb
      · exact Or.inl hb
    rcases hOld with hMem | rfl
    · exact hApart a ((hKept.map Prod.fst).subset ha) b hMem
    · rintro rfl
      exact hGone ha

/-- What is found after deleting was found before. -/
theorem info_withDeleted (h : WellFormedShape s) {info i : DescriptorInfo}
    (hPresent : s.lookupDescriptorIncludingLatent name = .present info)
    {k : String} (hInfo : ((s.withDeleted name
      info).lookupDescriptorIncludingLatent k).info? = some i) :
    (s.lookupDescriptorIncludingLatent k).info? = some i := by
  rw [h.wellFormed.lookup_withDeleted hPresent] at hInfo
  split at hInfo
  · rename_i hk
    split at hInfo
    · rw [hk, hPresent]
      exact hInfo
    · exact absurd hInfo nofun
  · exact hInfo

theorem withDeleted (h : WellFormedShape s) {info : DescriptorInfo}
    (hPresent : s.lookupDescriptorIncludingLatent name = .present info) :
    WellFormedShape (s.withDeleted name info) where
  wellFormed := h.wellFormed.withDeleted hPresent
  names := h.names_withDeleted hPresent
  stored k i hInfo := h.stored k i (h.info_withDeleted hPresent hInfo)
  special k i hInfo := h.special k i (h.info_withDeleted hPresent hInfo)

theorem cloneWithClass (h : WellFormedShape s) (object : Nat) :
    WellFormedShape (s.cloneWithClass object) :=
  ⟨h.wellFormed.cloneWithClass object, h.names, h.stored, h.special⟩

end WellFormedShape

/-! ## Well-formed tables -/

section Table

variable {V : Type}

/-- What a transition of a shape leads to. -/
def Describes (shape : Shape) (name : String) (flags : DescriptorFlags)
    (next : Shape) : ShapeTransitionVerb → Prop
  | .add =>
      (∀ info, shape.lookupDescriptorIncludingLatent name ≠ .present info) ∧
        next = shape.withAdded name flags
  | .delete =>
      ∃ info, shape.lookupDescriptorIncludingLatent name = .present info ∧
        next = shape.withDeleted name info

/-- The shape that a transition leads to is the one it describes. -/
structure Derived (s : Shapes V) (i : Nat) (t : Transition) : Prop where
  lt : t.nextShape < s.count
  classValue : (s.get t.nextShape).classValue = (s.get i).classValue
  isImmutable : (s.get t.nextShape).isImmutable = (s.get i).isImmutable
  shape : Describes (s.get i).shape t.name t.descriptorFlags
    (s.get t.nextShape).shape t.verb

structure WellFormed (s : Shapes V) : Prop where
  shapes : ∀ i, i < s.count → WellFormedShape (s.get i).shape
  transitions : ∀ i, i < s.count → ∀ t ∈ (s.get i).transitions, Derived s i t

/-- Later, every shape that existed is the same and has its transitions. -/
structure Extends (s s' : Shapes V) : Prop where
  count : s.count ≤ s'.count
  shape : ∀ i, i < s.count → (s'.get i).shape = (s.get i).shape
  classValue : ∀ i, i < s.count → (s'.get i).classValue = (s.get i).classValue
  isImmutable : ∀ i, i < s.count →
    (s'.get i).isImmutable = (s.get i).isImmutable
  transitions : ∀ i, i < s.count →
    (s.get i).transitions <+: (s'.get i).transitions

theorem Extends.refl (s : Shapes V) : Extends s s :=
  ⟨Nat.le_refl _, fun _ _ => rfl, fun _ _ => rfl, fun _ _ => rfl,
    fun _ _ => List.prefix_refl _⟩

theorem Extends.trans {s₁ s₂ s₃ : Shapes V} (h : Extends s₁ s₂)
    (h' : Extends s₂ s₃) : Extends s₁ s₃ where
  count := h.count.trans h'.count
  shape i hi := (h'.shape i (hi.trans_le h.count)).trans (h.shape i hi)
  classValue i hi :=
    (h'.classValue i (hi.trans_le h.count)).trans (h.classValue i hi)
  isImmutable i hi :=
    (h'.isImmutable i (hi.trans_le h.count)).trans (h.isImmutable i hi)
  transitions i hi :=
    (h.transitions i hi).trans (h'.transitions i (hi.trans_le h.count))

theorem Derived.mono {s s' : Shapes V} {i : Nat} {t : Transition}
    (h : Derived s i t) (hExtends : Extends s s') (hi : i < s.count) :
    Derived s' i t := by
  refine
    { lt := h.lt.trans_le hExtends.count
      classValue := ?_
      isImmutable := ?_
      shape := ?_ }
  · rw [hExtends.classValue _ h.lt, hExtends.classValue _ hi, h.classValue]
  · rw [hExtends.isImmutable _ h.lt, hExtends.isImmutable _ hi, h.isImmutable]
  · have hShape := h.shape
    rw [hExtends.shape _ h.lt, hExtends.shape _ hi]
    exact hShape

namespace Shapes

theorem allocate_new (s : Shapes V) (o : ShapeObject V) :
    (s.allocate o).2.get s.count = o := Function.update_self ..

theorem allocate_old (s : Shapes V) (o : ShapeObject V) {i : Nat}
    (hi : i < s.count) : (s.allocate o).2.get i = s.get i :=
  Function.update_of_ne (Nat.ne_of_lt hi) ..

theorem allocate_extends (s : Shapes V) (o : ShapeObject V) :
    Extends s (s.allocate o).2 where
  count := Nat.le_succ _
  shape i hi := by rw [s.allocate_old o hi]
  classValue i hi := by rw [s.allocate_old o hi]
  isImmutable i hi := by rw [s.allocate_old o hi]
  transitions i hi := by
    have hSame := congrArg ShapeObject.transitions (s.allocate_old o hi)
    exact hSame ▸ List.prefix_refl _

theorem allocate_wellFormed {s : Shapes V} (h : WellFormed s)
    {o : ShapeObject V} (hShape : WellFormedShape o.shape)
    (hNone : o.transitions = []) : WellFormed (s.allocate o).2 := by
  have hCount : (s.allocate o).2.count = s.count + 1 := rfl
  constructor
  · intro i hi
    rcases Nat.lt_succ_iff_lt_or_eq.mp hi with hOld | rfl
    · rw [s.allocate_old o hOld]
      exact h.shapes i hOld
    · rw [s.allocate_new o]
      exact hShape
  · intro i hi t ht
    rcases Nat.lt_succ_iff_lt_or_eq.mp hi with hOld | rfl
    · rw [s.allocate_old o hOld] at ht
      exact (h.transitions i hOld t ht).mono (s.allocate_extends o) hOld
    · rw [s.allocate_new o, hNone] at ht
      exact absurd ht List.not_mem_nil

/-- Listing a transition only adds to the transitions of one shape. -/
theorem addTransition_get (s : Shapes V) (i j : Nat) (t : Transition) :
    (s.addTransition i t).get j =
      if j = i then
        { s.get i with transitions := (s.get i).transitions ++ [t] }
      else s.get j := Function.update_apply ..

theorem addTransition_field {α : Type} (field : ShapeObject V → α)
    (hField : ∀ o l, field { o with transitions := l } = field o)
    (s : Shapes V) (i j : Nat) (t : Transition) :
    field ((s.addTransition i t).get j) = field (s.get j) := by
  rw [addTransition_get]
  split
  · rename_i h
    rw [hField, h]
  · rfl

theorem addTransition_extends (s : Shapes V) (i : Nat) (t : Transition) :
    Extends s (s.addTransition i t) where
  count := Nat.le_refl _
  shape j _ := s.addTransition_field ShapeObject.shape (fun _ _ => rfl) i j t
  classValue j _ :=
    s.addTransition_field ShapeObject.classValue (fun _ _ => rfl) i j t
  isImmutable j _ :=
    s.addTransition_field ShapeObject.isImmutable (fun _ _ => rfl) i j t
  transitions j _ := by
    rw [addTransition_get]
    split
    · rename_i h
      rw [h]
      exact List.prefix_append _ _
    · exact List.prefix_refl _

theorem addTransition_wellFormed {s : Shapes V} (h : WellFormed s) {i : Nat}
    {t : Transition} (ht : Derived s i t) :
    WellFormed (s.addTransition i t) := by
  have hExtends := s.addTransition_extends i t
  constructor
  · intro j hj
    rw [hExtends.shape j hj]
    exact h.shapes j hj
  · intro j hj t' ht'
    have hDerived : Derived s j t' := by
      rw [addTransition_get] at ht'
      split at ht'
      · rename_i hSame
        rw [hSame]
        rcases List.mem_append.mp ht' with hOld | hNew
        · exact h.transitions i (hSame ▸ hj) t' hOld
        · rw [List.mem_singleton.mp hNew]
          exact ht
      · exact h.transitions j hj t' ht'
    exact hDerived.mono hExtends hj

theorem lookupTransition_eq_some {s : Shapes V} {i next : Nat} {name : String}
    {verb : ShapeTransitionVerb} {flags : DescriptorFlags}
    (h : s.lookupTransition i name verb flags = some next) :
    (⟨name, verb, flags, next⟩ : Transition) ∈ (s.get i).transitions := by
  obtain ⟨t, hFind, hNext⟩ := Option.map_eq_some_iff.mp h
  have hMem := List.mem_of_find?_eq_some hFind
  have hSame := List.find?_some hFind
  simp only [decide_eq_true_eq] at hSame
  obtain ⟨hVerb, hFlags, hName⟩ := hSame
  rw [← hVerb, ← hFlags, hName, ← hNext]
  exact hMem

/-- The shape that a transition makes, when it is not found. -/
theorem makeTransition_spec {s : Shapes V} (h : WellFormed s) {i : Nat}
    (hi : i < s.count) {name : String} {verb : ShapeTransitionVerb}
    {flags : DescriptorFlags} {shape : Shape}
    (hShape : s.makeTransition i name verb flags = .ok shape) :
    WellFormedShape shape ∧
      Describes (s.get i).shape name flags shape verb := by
  have hWf := h.shapes i hi
  cases verb with
  | add =>
      simp only [makeTransition, deriveAddTransition,
        Shape.deriveAddTransition] at hShape
      cases hFound : (s.get i).shape.lookupDescriptorIncludingLatent name with
      | present info =>
          rw [hFound] at hShape
          exact absurd hShape nofun
      | latent info =>
          rw [hFound] at hShape
          have hNew : ∀ info',
              (s.get i).shape.lookupDescriptorIncludingLatent name ≠
                .present info' := by
            rw [hFound]
            exact fun _ => nofun
          rw [← Except.ok.inj hShape]
          refine ⟨hWf.withAdded hNew fun hAbsent => ?_, hNew, rfl⟩
          rw [hFound] at hAbsent
          exact absurd hAbsent nofun
      | absent =>
          rw [hFound] at hShape
          have hNew : ∀ info',
              (s.get i).shape.lookupDescriptorIncludingLatent name ≠
                .present info' := by
            rw [hFound]
            exact fun _ => nofun
          simp only at hShape
          split at hShape
          · exact absurd hShape nofun
          · rename_i hPlain
            rw [Bool.or_eq_true, not_or] at hPlain
            rw [← Except.ok.inj hShape]
            exact ⟨hWf.withAdded hNew fun _ =>
              Bool.eq_false_iff.mpr hPlain.2, hNew, rfl⟩
  | delete =>
      simp only [makeTransition, deriveDeleteTransition,
        Shape.deriveDeleteTransition] at hShape
      cases hFound : (s.get i).shape.lookupDescriptorIncludingLatent name with
      | present info =>
          rw [hFound] at hShape
          rw [← Except.ok.inj hShape]
          exact ⟨hWf.withDeleted hFound, info, hFound, rfl⟩
      | latent info | absent =>
          rw [hFound] at hShape
          exact absurd hShape nofun

/-- A transition leads to the shape it describes, found or made. -/
theorem deriveTransition_spec {s s' : Shapes V} (h : WellFormed s)
    {i next : Nat} (hi : i < s.count) {name : String}
    {verb : ShapeTransitionVerb} {flags : DescriptorFlags}
    (hRun : s.deriveTransition i name verb flags = .ok (next, s')) :
    WellFormed s' ∧ Extends s s' ∧ Derived s' i ⟨name, verb, flags, next⟩ := by
  rw [deriveTransition] at hRun
  split at hRun
  · rename_i existing hFound
    obtain ⟨rfl, rfl⟩ := Prod.mk.inj (Except.ok.inj hRun)
    exact ⟨h, Extends.refl s,
      h.transitions i hi _ (lookupTransition_eq_some hFound)⟩
  · cases hShape : s.makeTransition i name verb flags with
    | error e =>
        rw [hShape] at hRun
        exact absurd hRun nofun
    | ok shape =>
        rw [hShape] at hRun
        obtain ⟨hWf, hIs⟩ := makeTransition_spec h hi hShape
        obtain ⟨hNext, hTable⟩ := Prod.mk.inj (Except.ok.inj hRun)
        let o : ShapeObject V :=
          { s.get i with previousShape := some i, shape, transitions := [] }
        have hNew : (s.allocate o).2.get s.count = o := s.allocate_new o
        have hOld : (s.allocate o).2.get i = s.get i := s.allocate_old o hi
        have hDerived : Derived (s.allocate o).2 i
            ⟨name, verb, flags, s.count⟩ := by
          refine
            { lt := Nat.lt_succ_self _
              classValue := ?_
              isImmutable := ?_
              shape := ?_ }
          · rw [hNew, hOld]
          · rw [hNew, hOld]
          · rw [hNew, hOld]
            exact hIs
        have hAllocated := allocate_wellFormed (o := o) h hWf rfl
        have hExtends := (s.allocate o).2.addTransition_extends i
          ⟨name, verb, flags, s.count⟩
        rw [← hTable, ← hNext]
        exact ⟨addTransition_wellFormed hAllocated hDerived,
          (s.allocate_extends o).trans hExtends,
          hDerived.mono hExtends (hi.trans (Nat.lt_succ_self _))⟩

/-- At most one shape is made, and it is the one the transition leads to. -/
theorem deriveTransition_new {s s' : Shapes V} {i next : Nat} {name : String}
    {verb : ShapeTransitionVerb} {flags : DescriptorFlags}
    (hRun : s.deriveTransition i name verb flags = .ok (next, s')) {j : Nat}
    (hj : j < s'.count) : j < s.count ∨ j = next := by
  rw [deriveTransition] at hRun
  split at hRun
  · obtain ⟨rfl, rfl⟩ := Prod.mk.inj (Except.ok.inj hRun)
    exact Or.inl hj
  · cases hShape : s.makeTransition i name verb flags with
    | error e =>
        rw [hShape] at hRun
        exact absurd hRun nofun
    | ok shape =>
        rw [hShape] at hRun
        obtain ⟨hNext, hTable⟩ := Prod.mk.inj (Except.ok.inj hRun)
        rw [← hTable] at hj
        rw [← hNext]
        exact Nat.lt_succ_iff_lt_or_eq.mp hj

/-- Adding a property that is not present can only fail for its flags. -/
theorem deriveTransition_add (s : Shapes V) (i : Nat) {name : String}
    (flags : DescriptorFlags)
    (hNew : ∀ info, (s.get i).shape.lookupDescriptorIncludingLatent name ≠
      .present info) :
    (∃ r, s.deriveTransition i name .add flags = .ok r) ∨
      s.deriveTransition i name .add flags = .error .specialFlagsNeedKind ∧
        (s.get i).shape.lookupDescriptorIncludingLatent name = .absent ∧
        (flags.specialRead || flags.specialMutate) = true := by
  rw [deriveTransition]
  split
  · exact Or.inl ⟨_, rfl⟩
  · simp only [makeTransition, deriveAddTransition,
      Shape.deriveAddTransition]
    cases hFound : (s.get i).shape.lookupDescriptorIncludingLatent name with
    | present info => exact absurd hFound (hNew info)
    | latent info => exact Or.inl ⟨_, rfl⟩
    | absent =>
        by_cases hSpecial : (flags.specialRead || flags.specialMutate) = true
        · simp only [if_pos hSpecial]
          exact Or.inr ⟨rfl, trivial, hSpecial⟩
        · simp only [if_neg hSpecial]
          exact Or.inl ⟨_, rfl⟩

end Shapes

end Table

/-! ## Distinct locations -/

/-- The descriptors of a shape, the latent ones last. -/
def descriptors (s : Shape) : List (String × DescriptorInfo) :=
  s.present ++ s.latent

def location (d : String × DescriptorInfo) : Option StorageLocation :=
  d.2.storageLocation

/-- What is found is one of the descriptors. -/
theorem mem_descriptors_of_lookup {s : Shape} {name : String}
    {info : DescriptorInfo}
    (h : (s.lookupDescriptorIncludingLatent name).info? = some info) :
    (name, info) ∈ descriptors s := by
  rw [Shape.lookupDescriptorIncludingLatent] at h
  cases hPresent : s.present.lookup name with
  | some i =>
      rw [hPresent] at h
      rw [← Option.some.inj h]
      exact List.mem_append_left _ (mem_of_lookup hPresent)
  | none =>
      rw [hPresent] at h
      cases hLatent : s.latent.lookup name with
      | some i =>
          rw [hLatent] at h
          rw [← Option.some.inj h]
          exact List.mem_append_right _ (mem_of_lookup hLatent)
      | none =>
          rw [hLatent] at h
          exact absurd h nofun

theorem eq_of_location {ds : List (String × DescriptorInfo)}
    (h : (ds.filterMap location).Nodup) {a b : String × DescriptorInfo}
    {loc : StorageLocation} (ha : a ∈ ds) (hb : b ∈ ds)
    (hLocA : location a = some loc) (hLocB : location b = some loc) :
    a = b := by
  induction ds with
  | nil => exact absurd ha List.not_mem_nil
  | cons d ds ih =>
      have hRest : (ds.filterMap location).Nodup := by
        rw [List.filterMap_cons] at h
        split at h
        · exact h
        · exact (List.nodup_cons.mp h).2
      have hFirst : ∀ c ∈ ds, location c = some loc →
          location d ≠ some loc := by
        intro c hc hLocC hLocD
        rw [List.filterMap_cons, hLocD] at h
        exact (List.nodup_cons.mp h).1
          (List.mem_filterMap.mpr ⟨c, hc, hLocC⟩)
      rcases List.mem_cons.mp ha with rfl | haRest
      · rcases List.mem_cons.mp hb with rfl | hbRest
        · rfl
        · exact absurd hLocA (hFirst b hbRest hLocB)
      · rcases List.mem_cons.mp hb with rfl | hbRest
        · exact absurd hLocB (hFirst a haRest hLocA)
        · exact ih hRest haRest hbRest

/-- What the builder of a root asserts, with distinct names. -/
structure RootDescriptors (s : Shape) : Prop where
  names : ((descriptors s).map Prod.fst).Nodup
  locations : ((descriptors s).filterMap location).Nodup
  inline : ∀ loc ∈ (descriptors s).filterMap location,
    loc.kind = .inline ∧ loc.physicalIdx < s.nextSlotIndex
  capacity : s.nextSlotIndex ≤ s.inlineSlotCapacity
  stored : ∀ d ∈ descriptors s, d.2.flags.specialMutate = false →
    d.2.storageLocation.isSome = true
  special : ∀ d ∈ descriptors s, d.2.flags.specialMutate = true →
    d.2.specialKind ≠ .none ∧ (d.2.specialKind = .moduleBuiltins →
      d.2.storageLocation.isSome = true)

theorem RootDescriptors.wellFormedShape {s : Shape} (h : RootDescriptors s) :
    WellFormedShape s := by
  have hFound : ∀ name loc,
      (s.lookupDescriptorIncludingLatent name).location? = some loc →
      ∃ info, (name, info) ∈ descriptors s ∧
        location (name, info) = some loc := by
    intro name loc hLoc
    rw [DescriptorLookup.location?] at hLoc
    obtain ⟨info, hInfo, hLoc⟩ := Option.bind_eq_some_iff.mp hLoc
    exact ⟨info, mem_descriptors_of_lookup hInfo, hLoc⟩
  have hNames := h.names
  rw [descriptors, List.map_append] at hNames
  refine
    { wellFormed :=
        { disjoint := fun name info hPresent => ?_
          allocated := fun name loc hLoc => ?_
          injective := fun name name' loc hLoc hLoc' => ?_ }
      names := h.names
      stored := fun name info hInfo =>
        h.stored _ (mem_descriptors_of_lookup hInfo)
      special := fun name info hInfo =>
        h.special _ (mem_descriptors_of_lookup hInfo) }
  · rw [lookup_eq_none_iff]
    intro hLatent
    exact (List.nodup_append.mp hNames).2.2 name
      (List.mem_map.mpr ⟨_, mem_of_lookup hPresent, rfl⟩) name hLatent rfl
  · obtain ⟨info, hMem, hIs⟩ := hFound name loc hLoc
    obtain ⟨hKind, hLt⟩ := h.inline loc
      (List.mem_filterMap.mpr ⟨_, hMem, hIs⟩)
    rw [Shape.Allocated, hKind]
    exact ⟨hLt, hLt.trans_le h.capacity⟩
  · obtain ⟨info, hMem, hIs⟩ := hFound name loc hLoc
    obtain ⟨info', hMem', hIs'⟩ := hFound name' loc hLoc'
    exact congrArg Prod.fst (eq_of_location h.locations hMem hMem' hIs hIs')

theorem RootKind.rootDescriptors (kind : RootKind) :
    RootDescriptors kind.shape := by
  cases kind with
  | defaultInstance capacity updates addDelete =>
      have hEmpty : RootDescriptors
          (RootKind.defaultInstance 0 false false).shape :=
        ⟨by decide, by decide, by decide, by decide, by decide, by decide⟩
      exact ⟨hEmpty.names, hEmpty.locations, hEmpty.inline, Nat.zero_le _,
        hEmpty.stored, hEmpty.special⟩
  | inlineValue | classObject | exception | stopIteration | module | function
    | moduleSpec | moduleLoader | slice =>
      exact ⟨by decide, by decide, by decide, by decide, by decide, by decide⟩

theorem RootKind.wellFormed (kind : RootKind) : WellFormedShape kind.shape :=
  kind.rootDescriptors.wellFormedShape

end CloverVM.ObjectModel.ShapeTable
