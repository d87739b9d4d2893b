import CloverVM.ObjectModel.ClassObject
import CloverVM.Machine.Assertion

/-!
# Validity cells of classes

A class hands out two kinds of validity cells, one for what a lookup on its
instances depends on and one for what a lookup on the class itself depends
on.  A cell is attached to the classes that it depends on when it is made, and
a change of such a class invalidates it.
-/

namespace CloverVM.ObjectModel.ValidityCells

open CloverVM.Machine
open CloverVM.ObjectModel.ClassObject (attachAlongMro attachAlongMro_spec)

/-! ## Classes and cells -/

/-- The shape of a class; the serial tells shapes apart that are alike. -/
structure Shape (V : Type) where
  serial : Nat
  cls : V
  isImmutable : Bool := false
deriving DecidableEq, Repr

inductive DependencyMutability where
  | isMutable
  | isImmutable
deriving DecidableEq, Repr

structure ValidityCell where
  valid : Bool
  dependencyMutability : DependencyMutability
deriving DecidableEq, Repr

/-- `MroValidityCellInstallMode`. -/
inductive InstallMode where
  | includeSelf
  | skipSelf
deriving DecidableEq, Repr

/-- `MroValidityCellDependency`. -/
inductive Dependency where
  | shapeOnly
  | shapeAndContents
deriving DecidableEq, Repr

/-- The two cells that a class hands out. -/
inductive CellKind where
  | mroShapeAndContents
  | mroShapeAndMetaclassMroShapeAndContents
deriving DecidableEq, Repr

/-- The part of a class object that lookups depend on.  A slot is none when
it is not present. -/
structure ClassObject (V : Type) where
  shape : Shape V
  mro : List V
  slots : Nat → Option V := fun _ => none
  mroShapeAndContentsValidityCell : Option Nat := none
  mroShapeAndMetaclassMroShapeAndContentsValidityCell : Option Nat := none
  attachedMroShapeValidityCells : List Nat := []
  attachedMroShapeAndContentsValidityCells : List Nat := []
  constructorThunk : Option V := none

namespace ClassObject

variable {V : Type}

def current (c : ClassObject V) : CellKind → Option Nat
  | .mroShapeAndContents => c.mroShapeAndContentsValidityCell
  | .mroShapeAndMetaclassMroShapeAndContents =>
      c.mroShapeAndMetaclassMroShapeAndContentsValidityCell

def attachedCells (c : ClassObject V) : Dependency → List Nat
  | .shapeOnly => c.attachedMroShapeValidityCells
  | .shapeAndContents => c.attachedMroShapeAndContentsValidityCells

def withAttachedCells (c : ClassObject V) (cells : List Nat) :
    Dependency → ClassObject V
  | .shapeOnly => { c with attachedMroShapeValidityCells := cells }
  | .shapeAndContents =>
      { c with attachedMroShapeAndContentsValidityCells := cells }

end ClassObject

/-- The classes of a program and the validity cells made so far. -/
structure World (V : Type) where
  classes : V → ClassObject V
  cells : List ValidityCell := []

namespace World

variable {V : Type}

def isValid (w : World V) (cell : Nat) : Bool :=
  match w.cells[cell]? with
  | some c => c.valid
  | none => false

def invalidate (w : World V) (cell : Nat) : World V :=
  { w with cells := w.cells.modify cell fun c => { c with valid := false } }

def update [DecidableEq V] (w : World V) (cls : V) (c : ClassObject V) :
    World V :=
  { w with classes := fun v => if v = cls then c else w.classes v }

theorem isValid_invalidate (w : World V) (cell k : Nat) :
    (w.invalidate cell).isValid k = (decide (k ≠ cell) && w.isValid k) := by
  rw [isValid, isValid, invalidate, List.getElem?_modify]
  by_cases h : cell = k
  · subst h
    cases w.cells[cell]? <;> simp
  · have hNe : k ≠ cell := fun hEq => h hEq.symm
    cases w.cells[k]? <;> simp [h, hNe]

theorem lt_of_isValid {w : World V} {cell : Nat}
    (h : w.isValid cell = true) : cell < w.cells.length := by
  by_contra hOut
  rw [isValid, List.getElem?_eq_none (by omega)] at h
  exact Bool.false_ne_true h

end World

variable {V : Type} [DecidableEq V]

@[simp] theorem World.update_classes (w : World V) (cls : V)
    (c : ClassObject V) (v : V) :
    (w.update cls c).classes v = if v = cls then c else w.classes v := rfl

/-- A field that an update leaves is the same for every class. -/
theorem World.update_field {α : Type} (field : ClassObject V → α)
    {w : World V} {cls : V} {c : ClassObject V}
    (h : field c = field (w.classes cls)) (v : V) :
    field ((w.update cls c).classes v) = field (w.classes v) := by
  rw [World.update_classes]
  split
  · rename_i hv
    rw [hv, h]
  · rfl

/-- `mro_dependency_mutability`. -/
def mroDependencyMutability (w : World V) (cls : V) : DependencyMutability :=
  if (w.classes cls).mro.all fun c => (w.classes c).shape.isImmutable then
    .isImmutable
  else .isMutable

def InstallMode.startIdx : InstallMode → Nat
  | .includeSelf => 0
  | .skipSelf => 1

def installValidityCellAlongMro (w : World V) (cls : V) (cell : Nat)
    (mode : InstallMode) (dependency : Dependency) : World V :=
  let mro := (w.classes cls).mro.drop mode.startIdx
  { w with
    classes := fun v =>
      (w.classes v).withAttachedCells
        (attachAlongMro w.isValid cell mro
          (fun c => (w.classes c).attachedCells dependency) v) dependency }

/-- A new valid cell. -/
def makeCell (w : World V) (mutability : DependencyMutability) :
    Nat × World V :=
  (w.cells.length, { w with cells := w.cells ++ [⟨true, mutability⟩] })

def createMroShapeAndContentsValidityCellSlow (w : World V) (cls : V) :
    Nat × World V :=
  let (cell, w) := makeCell w (mroDependencyMutability w cls)
  let w := w.update cls
    { w.classes cls with
      constructorThunk := none
      mroShapeAndContentsValidityCell := some cell }
  (cell, installValidityCellAlongMro w cls cell .skipSelf .shapeAndContents)

def createMroShapeAndMetaclassMroShapeAndContentsValidityCellSlow
    (w : World V) (cls : V) : Nat × World V :=
  let metaclass := (w.classes cls).shape.cls
  let mutability :=
    if mroDependencyMutability w cls = .isImmutable ∧ metaclass ≠ cls then
      mroDependencyMutability w metaclass
    else mroDependencyMutability w cls
  let (cell, w) := makeCell w mutability
  let w := w.update cls
    { w.classes cls with
      mroShapeAndMetaclassMroShapeAndContentsValidityCell := some cell }
  let w := installValidityCellAlongMro w cls cell .skipSelf .shapeOnly
  if metaclass ≠ cls then
    (cell, installValidityCellAlongMro w metaclass cell .includeSelf
      .shapeAndContents)
  else (cell, w)

def createSlow (w : World V) (cls : V) : CellKind → Nat × World V
  | .mroShapeAndContents => createMroShapeAndContentsValidityCellSlow w cls
  | .mroShapeAndMetaclassMroShapeAndContents =>
      createMroShapeAndMetaclassMroShapeAndContentsValidityCellSlow w cls

/-- The two `get_or_create_*_validity_cell`. -/
def getOrCreate (w : World V) (cls : V) (kind : CellKind) : Nat × World V :=
  match (w.classes cls).current kind with
  | some cell => if w.isValid cell then (cell, w) else createSlow w cls kind
  | none => createSlow w cls kind

/-! ## Changes of a class -/

def invalidateAttachedCells (w : World V) (cells : List Nat) : World V :=
  cells.foldl World.invalidate w

/-- Invalidate the cell that a pointer of the class leads to. -/
def invalidateCurrent (w : World V) : Option Nat → World V
  | some cell => w.invalidate cell
  | none => w

def invalidateLookupValidityCellsForContentsChange (w : World V) (cls : V) :
    World V :=
  let c := w.classes cls
  let w := invalidateAttachedCells w c.attachedMroShapeAndContentsValidityCells
  let w := invalidateCurrent w c.mroShapeAndContentsValidityCell
  w.update cls
    { c with
      constructorThunk := none
      attachedMroShapeAndContentsValidityCells := []
      mroShapeAndContentsValidityCell := none }

def invalidateLookupValidityCellsForShapeChange (w : World V) (cls : V) :
    World V :=
  let c := w.classes cls
  let w := invalidateAttachedCells w c.attachedMroShapeValidityCells
  let w := w.update cls { c with attachedMroShapeValidityCells := [] }
  let w := invalidateLookupValidityCellsForContentsChange w cls
  let c := w.classes cls
  let w :=
    invalidateCurrent w c.mroShapeAndMetaclassMroShapeAndContentsValidityCell
  w.update cls
    { c with mroShapeAndMetaclassMroShapeAndContentsValidityCell := none }

/-- `Object::set_shape` of a class object. -/
def setShape (w : World V) (cls : V) (newShape : Shape V) :
    Option (World V) := do
  let oldShape := (w.classes cls).shape
  check (oldShape.isImmutable = false ∨ oldShape = newShape)
  let w := w.update cls { w.classes cls with shape := newShape }
  if oldShape ≠ newShape then
    some (invalidateLookupValidityCellsForShapeChange w cls)
  else some w

def writeSlot (w : World V) (cls : V) (slot : Nat) (value : Option V) :
    World V :=
  let c := w.classes cls
  w.update cls
    { c with slots := fun i => if i = slot then value else c.slots i }

/-- An operation on classes.  The next shape of a transition is another one
than the shape it is derived from. -/
inductive Operation (V : Type) where
  | getOrCreate (cls : V) (kind : CellKind)
  | setShape (cls : V) (newShape : Shape V)
  | transition (cls : V) (nextShape : Shape V) (slot : Nat)
      (value : Option V)
  | storeExisting (cls : V) (slot : Nat) (value : V)
deriving DecidableEq

/-- A transition is what `add_own_property` and a plan that adds or deletes
do; to store is what a plan for an existing property does. -/
def step (w : World V) : Operation V → Option (World V)
  | .getOrCreate cls kind => some (getOrCreate w cls kind).2
  | .setShape cls newShape => setShape w cls newShape
  | .transition cls nextShape slot value => do
      check (nextShape ≠ (w.classes cls).shape)
      let w ← setShape w cls nextShape
      some (writeSlot w cls slot value)
  | .storeExisting cls slot value =>
      some (invalidateLookupValidityCellsForContentsChange
        (writeSlot w cls slot (some value)) cls)

def run (w : World V) : List (Operation V) → Option (World V)
  | [] => some w
  | op :: ops => do
      let w ← step w op
      run w ops

/-- The operation gives the class another shape. -/
def ChangesShape (w : World V) : Operation V → V → Prop
  | .setShape cls newShape, c => c = cls ∧ newShape ≠ (w.classes cls).shape
  | .transition cls _ _ _, c => c = cls
  | _, _ => False

/-- The operation stores to an existing property of the class. -/
def ChangesContents : Operation V → V → Prop
  | .storeExisting cls _ _, c => c = cls
  | _, _ => False

/-- No operation of the run does this in the state before it. -/
def Never (p : World V → Operation V → Prop) (w : World V)
    (ops : List (Operation V)) : Prop :=
  ∀ before op after u, ops = before ++ op :: after →
    run w before = some u → ¬ p u op

/-- The classes of a program, each with its shape and its MRO, and no cells
yet.  A class that is made later is one that no operation names before. -/
structure Hierarchy (V : Type) where
  shape : V → Shape V
  mro : V → List V
  slots : V → Nat → Option V
  head : ∀ cls, (mro cls).head? = some cls

def Hierarchy.start (h : Hierarchy V) : World V where
  classes cls :=
    { shape := h.shape cls, mro := h.mro cls, slots := h.slots cls }

/-! ## What an invalidation does -/

theorem invalidateAttachedCells_spec (cells : List Nat) :
    ∀ w : World V,
      (invalidateAttachedCells w cells).classes = w.classes ∧
      (invalidateAttachedCells w cells).cells.length = w.cells.length ∧
      ∀ k, (invalidateAttachedCells w cells).isValid k = true ↔
        w.isValid k = true ∧ k ∉ cells := by
  induction cells with
  | nil =>
      intro w
      exact ⟨rfl, rfl, fun k => by simp [invalidateAttachedCells]⟩
  | cons cell cells ih =>
      intro w
      obtain ⟨hClasses, hLength, hValid⟩ := ih (w.invalidate cell)
      refine ⟨hClasses, ?_, fun k => ?_⟩
      · rw [invalidateAttachedCells, List.foldl_cons, ← invalidateAttachedCells,
          hLength, World.invalidate, List.length_modify]
      · rw [invalidateAttachedCells, List.foldl_cons, ← invalidateAttachedCells,
          hValid, World.isValid_invalidate, Bool.and_eq_true,
          decide_eq_true_eq, List.mem_cons, not_or]
        tauto

theorem invalidateCurrent_spec (w : World V) (pointer : Option Nat) :
    (invalidateCurrent w pointer).classes = w.classes ∧
      (invalidateCurrent w pointer).cells.length = w.cells.length ∧
      ∀ k, (invalidateCurrent w pointer).isValid k = true ↔
        w.isValid k = true ∧ pointer ≠ some k := by
  cases pointer with
  | none => exact ⟨rfl, rfl, fun k => by simp [invalidateCurrent]⟩
  | some cell =>
      refine ⟨rfl, ?_, fun k => ?_⟩
      · rw [invalidateCurrent, World.invalidate, List.length_modify]
      · rw [invalidateCurrent, World.isValid_invalidate, Bool.and_eq_true,
          decide_eq_true_eq, ne_eq, ne_eq, Option.some.injEq]
        tauto

theorem contentsChange_spec (w : World V) (cls : V) :
    let w' := invalidateLookupValidityCellsForContentsChange w cls
    (∀ v, w'.classes v =
      if v = cls then
        { w.classes cls with
          constructorThunk := none
          attachedMroShapeAndContentsValidityCells := []
          mroShapeAndContentsValidityCell := none }
      else w.classes v) ∧
      w'.cells.length = w.cells.length ∧
      ∀ k, w'.isValid k = true ↔ w.isValid k = true ∧
        k ∉ (w.classes cls).attachedMroShapeAndContentsValidityCells ∧
        (w.classes cls).mroShapeAndContentsValidityCell ≠ some k := by
  intro w'
  obtain ⟨hClasses, hLength, hValid⟩ := invalidateAttachedCells_spec
    (w.classes cls).attachedMroShapeAndContentsValidityCells w
  obtain ⟨hClasses', hLength', hValid'⟩ := invalidateCurrent_spec
    (invalidateAttachedCells w
      (w.classes cls).attachedMroShapeAndContentsValidityCells)
    (w.classes cls).mroShapeAndContentsValidityCell
  refine ⟨fun v => ?_, hLength'.trans hLength, fun k => ?_⟩
  · show (if v = cls then _ else _) = _
    rw [hClasses', hClasses]
  · show (invalidateCurrent _ _).isValid k = true ↔ _
    rw [hValid', hValid, and_assoc]

theorem shapeChange_spec (w : World V) (cls : V) :
    let w' := invalidateLookupValidityCellsForShapeChange w cls
    (∀ v, w'.classes v =
      if v = cls then
        { w.classes cls with
          constructorThunk := none
          attachedMroShapeValidityCells := []
          attachedMroShapeAndContentsValidityCells := []
          mroShapeAndContentsValidityCell := none
          mroShapeAndMetaclassMroShapeAndContentsValidityCell := none }
      else w.classes v) ∧
      w'.cells.length = w.cells.length ∧
      ∀ k, w'.isValid k = true ↔ w.isValid k = true ∧
        (∀ dependency, k ∉ (w.classes cls).attachedCells dependency) ∧
        ∀ kind, (w.classes cls).current kind ≠ some k := by
  intro w'
  obtain ⟨hClasses₁, hLength₁, hValid₁⟩ := invalidateAttachedCells_spec
    (w.classes cls).attachedMroShapeValidityCells w
  let w₁ := (invalidateAttachedCells w
    (w.classes cls).attachedMroShapeValidityCells).update cls
      { w.classes cls with attachedMroShapeValidityCells := [] }
  have hSelf₁ : w₁.classes cls =
      { w.classes cls with attachedMroShapeValidityCells := [] } := if_pos rfl
  obtain ⟨hClasses₂, hLength₂, hValid₂⟩ := contentsChange_spec w₁ cls
  let w₂ := invalidateLookupValidityCellsForContentsChange w₁ cls
  have hSelf₂ : w₂.classes cls =
      { w.classes cls with
        constructorThunk := none
        attachedMroShapeValidityCells := []
        attachedMroShapeAndContentsValidityCells := []
        mroShapeAndContentsValidityCell := none } := by
    rw [hClasses₂, if_pos rfl, hSelf₁]
  have hOther : ∀ v, v ≠ cls → w₂.classes v = w.classes v := by
    intro v hv
    rw [hClasses₂, if_neg hv, World.update_classes, if_neg hv, hClasses₁]
  obtain ⟨hClasses₃, hLength₃, hValid₃⟩ := invalidateCurrent_spec w₂
    (w₂.classes cls).mroShapeAndMetaclassMroShapeAndContentsValidityCell
  refine ⟨fun v => ?_, hLength₃.trans (hLength₂.trans hLength₁), fun k => ?_⟩
  · show (if v = cls then _ else _) = _
    by_cases hv : v = cls
    · rw [if_pos hv, if_pos hv]
      show { w₂.classes cls with
        mroShapeAndMetaclassMroShapeAndContentsValidityCell := none } = _
      rw [hSelf₂]
    · rw [if_neg hv, if_neg hv]
      show (invalidateCurrent w₂ _).classes v = _
      rw [hClasses₃, hOther v hv]
  · have hAttached : (∀ dependency,
        k ∉ (w.classes cls).attachedCells dependency) ↔
        k ∉ (w.classes cls).attachedMroShapeValidityCells ∧
        k ∉ (w.classes cls).attachedMroShapeAndContentsValidityCells := by
      constructor
      · intro h
        exact ⟨h .shapeOnly, h .shapeAndContents⟩
      · rintro ⟨hShape, hContents⟩ dependency
        cases dependency with
        | shapeOnly => exact hShape
        | shapeAndContents => exact hContents
    have hCurrent : (∀ kind, (w.classes cls).current kind ≠ some k) ↔
        (w.classes cls).mroShapeAndContentsValidityCell ≠ some k ∧
        (w.classes cls).mroShapeAndMetaclassMroShapeAndContentsValidityCell ≠
          some k := by
      constructor
      · intro h
        exact ⟨h .mroShapeAndContents,
          h .mroShapeAndMetaclassMroShapeAndContents⟩
      · rintro ⟨hContents, hCombined⟩ kind
        cases kind with
        | mroShapeAndContents => exact hContents
        | mroShapeAndMetaclassMroShapeAndContents => exact hCombined
    show (invalidateCurrent w₂ _).isValid k = true ↔ _
    have hFirst : w₁.isValid k = true ↔ w.isValid k = true ∧
        k ∉ (w.classes cls).attachedMroShapeValidityCells := hValid₁ k
    rw [hValid₃, hValid₂, hSelf₂, hSelf₁, hFirst, hAttached, hCurrent]
    tauto

/-! ## The cells in order -/

/-- The classes that a cell of a class is attached to.  The class itself
reaches its cells by its own pointers. -/
def watched (w : World V) (cls : V) : CellKind → Dependency → List V
  | .mroShapeAndContents, .shapeAndContents => (w.classes cls).mro.tail
  | .mroShapeAndContents, .shapeOnly => []
  | .mroShapeAndMetaclassMroShapeAndContents, .shapeOnly =>
      (w.classes cls).mro.tail
  | .mroShapeAndMetaclassMroShapeAndContents, .shapeAndContents =>
      if (w.classes cls).shape.cls ≠ cls then
        (w.classes (w.classes cls).shape.cls).mro
      else []

/-- Every MRO starts with its class, and a valid cell that a class points to
is attached to the classes it depends on. -/
structure WellFormed (w : World V) : Prop where
  head : ∀ cls, (w.classes cls).mro.head? = some cls
  fresh : ∀ cls kind cell, (w.classes cls).current kind = some cell →
    cell < w.cells.length
  attached : ∀ cls kind cell dependency base,
    (w.classes cls).current kind = some cell → w.isValid cell = true →
    base ∈ watched w cls kind dependency →
      cell ∈ (w.classes base).attachedCells dependency

omit [DecidableEq V] in
/-- The MRO is the class and what follows it. -/
theorem mem_mro_iff {w : World V} {cls : V}
    (h : (w.classes cls).mro.head? = some cls) (base : V) :
    base ∈ (w.classes cls).mro ↔
      base = cls ∨ base ∈ (w.classes cls).mro.tail := by
  cases hMro : (w.classes cls).mro with
  | nil =>
      rw [hMro] at h
      exact absurd h nofun
  | cons first rest =>
      rw [hMro] at h
      rw [Option.some.inj h, List.mem_cons, List.tail_cons]

/-- What one class watches depends on its MRO, its shape and the MRO of its
metaclass. -/
theorem watched_congr {w w' : World V} {cls : V}
    (hMro : ∀ v, (w'.classes v).mro = (w.classes v).mro)
    (hShape : (w'.classes cls).shape = (w.classes cls).shape)
    (kind : CellKind) (dependency : Dependency) :
    watched w' cls kind dependency = watched w cls kind dependency := by
  cases kind <;> cases dependency <;> simp only [watched, hMro, hShape]

/-- A change of one class: the cells only lose validity, and the class only
lets go of a cell that is invalid afterwards. -/
structure Settled (w w' : World V) (cls : V) : Prop where
  others : ∀ v, v ≠ cls → w'.classes v = w.classes v
  mro : (w'.classes cls).mro = (w.classes cls).mro
  length : w'.cells.length = w.cells.length
  valid : ∀ k, w'.isValid k = true → w.isValid k = true
  current : ∀ kind k, (w'.classes cls).current kind = some k →
    (w.classes cls).current kind = some k
  kept : ∀ kind k, (w.classes cls).current kind = some k →
    w'.isValid k = true → (w'.classes cls).current kind = some k
  attached : ∀ dependency k,
    k ∈ (w.classes cls).attachedCells dependency → w'.isValid k = true →
      k ∈ (w'.classes cls).attachedCells dependency
  shape : (w'.classes cls).shape = (w.classes cls).shape ∨
    ∀ kind, (w'.classes cls).current kind = none

section Settled

variable {w w' : World V} {cls : V}

theorem Settled.mro_eq (h : Settled w w' cls) (v : V) :
    (w'.classes v).mro = (w.classes v).mro := by
  by_cases hv : v = cls
  · rw [hv, h.mro]
  · rw [h.others v hv]

theorem Settled.current_of (h : Settled w w' cls) {v : V} {kind : CellKind}
    {k : Nat} (hCurrent : (w'.classes v).current kind = some k) :
    (w.classes v).current kind = some k := by
  by_cases hv : v = cls
  · rw [hv] at hCurrent ⊢
    exact h.current kind k hCurrent
  · rwa [h.others v hv] at hCurrent

theorem Settled.kept_of (h : Settled w w' cls) {v : V} {kind : CellKind}
    {k : Nat} (hCurrent : (w.classes v).current kind = some k)
    (hValid : w'.isValid k = true) :
    (w'.classes v).current kind = some k := by
  by_cases hv : v = cls
  · rw [hv] at hCurrent ⊢
    exact h.kept kind k hCurrent hValid
  · rwa [h.others v hv]

theorem Settled.shape_eq (h : Settled w w' cls) {v : V} {kind : CellKind}
    {k : Nat} (hCurrent : (w'.classes v).current kind = some k) :
    (w'.classes v).shape = (w.classes v).shape := by
  by_cases hv : v = cls
  · rw [hv] at hCurrent ⊢
    rcases h.shape with hSame | hNone
    · exact hSame
    · rw [hNone kind] at hCurrent
      exact absurd hCurrent nofun
  · rw [h.others v hv]

theorem Settled.wellFormed (h : Settled w w' cls) (hw : WellFormed w) :
    WellFormed w' := by
  refine
    { head := fun v => ?_
      fresh := fun v kind k hCurrent => ?_
      attached := fun v kind k dependency base hCurrent hValid hBase => ?_ }
  · rw [h.mro_eq]
    exact hw.head v
  · rw [h.length]
    exact hw.fresh v kind k (h.current_of hCurrent)
  · rw [watched_congr h.mro_eq (h.shape_eq hCurrent)] at hBase
    have hAttached := hw.attached v kind k dependency base
      (h.current_of hCurrent) (h.valid k hValid) hBase
    by_cases hb : base = cls
    · rw [hb] at hAttached ⊢
      exact h.attached dependency k hAttached hValid
    · rwa [h.others base hb]

end Settled

/-! ## Each change is settled -/

theorem Settled.trans {w w₁ w₂ : World V} {cls : V} (h : Settled w w₁ cls)
    (h' : Settled w₁ w₂ cls) : Settled w w₂ cls where
  others v hv := (h'.others v hv).trans (h.others v hv)
  mro := h'.mro.trans h.mro
  length := h'.length.trans h.length
  valid k hk := h.valid k (h'.valid k hk)
  current kind k hk := h.current kind k (h'.current kind k hk)
  kept kind k hk hValid :=
    h'.kept kind k (h.kept kind k hk (h'.valid k hValid)) hValid
  attached dependency k hk hValid :=
    h'.attached dependency k (h.attached dependency k hk (h'.valid k hValid))
      hValid
  shape := by
    rcases h.shape with hSame | hNone
    · rcases h'.shape with hSame' | hNone'
      · exact Or.inl (hSame'.trans hSame)
      · exact Or.inr hNone'
    · refine Or.inr fun kind => ?_
      cases hCurrent : (w₂.classes cls).current kind with
      | none => rfl
      | some k =>
          have hOld := h'.current kind k hCurrent
          rw [hNone kind] at hOld
          exact absurd hOld nofun

theorem writeSlot_settled (w : World V) (cls : V) (slot : Nat)
    (value : Option V) : Settled w (writeSlot w cls slot value) cls := by
  have hField : ∀ {α : Type} (field : ClassObject V → α),
      field { w.classes cls with
        slots := fun i => if i = slot then value
          else (w.classes cls).slots i } = field (w.classes cls) →
      field ((writeSlot w cls slot value).classes cls) =
        field (w.classes cls) := fun field h => World.update_field field h cls
  refine
    { others := fun v hv => if_neg hv
      mro := hField ClassObject.mro rfl
      length := rfl
      valid := fun k hk => hk
      current := fun kind k hk => ?_
      kept := fun kind k hk _ => ?_
      attached := fun dependency k hk _ => ?_
      shape := Or.inl (hField ClassObject.shape rfl) }
  · rwa [hField (fun c => c.current kind) (by cases kind <;> rfl)] at hk
  · rwa [hField (fun c => c.current kind) (by cases kind <;> rfl)]
  · rwa [hField (fun c => c.attachedCells dependency)
      (by cases dependency <;> rfl)]

theorem contentsChange_settled (w : World V) (cls : V) :
    Settled w (invalidateLookupValidityCellsForContentsChange w cls) cls := by
  obtain ⟨hClasses, hLength, hValid⟩ := contentsChange_spec w cls
  have hSelf := (hClasses cls).trans (if_pos rfl)
  refine
    { others := fun v hv => (hClasses v).trans (if_neg hv)
      mro := by rw [hSelf]
      length := hLength
      valid := fun k hk => ((hValid k).mp hk).1
      current := fun kind k hk => ?_
      kept := fun kind k hk hAfter => ?_
      attached := fun dependency k hk hAfter => ?_
      shape := Or.inl (by rw [hSelf]) }
  · rw [hSelf] at hk
    cases kind with
    | mroShapeAndContents => exact absurd hk nofun
    | mroShapeAndMetaclassMroShapeAndContents => exact hk
  · rw [hSelf]
    cases kind with
    | mroShapeAndContents => exact absurd hk ((hValid k).mp hAfter).2.2
    | mroShapeAndMetaclassMroShapeAndContents => exact hk
  · rw [hSelf]
    cases dependency with
    | shapeOnly => exact hk
    | shapeAndContents => exact absurd hk ((hValid k).mp hAfter).2.1

/-- What is left after a class got another shape. -/
theorem shapeChange_settled (w : World V) (cls : V) (newShape : Shape V) :
    let w' := invalidateLookupValidityCellsForShapeChange
      (w.update cls { w.classes cls with shape := newShape }) cls
    Settled w w' cls ∧
      ∀ k, w'.isValid k = true →
        (∀ dependency, k ∉ (w.classes cls).attachedCells dependency) ∧
        ∀ kind, (w.classes cls).current kind ≠ some k := by
  intro w'
  obtain ⟨hClasses, hLength, hValid⟩ := shapeChange_spec
    (w.update cls { w.classes cls with shape := newShape }) cls
  have hSelf := (hClasses cls).trans (if_pos rfl)
  have hCurrent : ∀ kind,
      ((w.update cls { w.classes cls with shape := newShape }).classes
        cls).current kind = (w.classes cls).current kind := fun kind =>
    World.update_field (fun c => c.current kind) (by cases kind <;> rfl) cls
  have hAttached : ∀ dependency,
      ((w.update cls { w.classes cls with shape := newShape }).classes
        cls).attachedCells dependency =
        (w.classes cls).attachedCells dependency := fun dependency =>
    World.update_field (fun c => c.attachedCells dependency)
      (by cases dependency <;> rfl) cls
  have hAfter : ∀ k, w'.isValid k = true → w.isValid k = true ∧
      (∀ dependency, k ∉ (w.classes cls).attachedCells dependency) ∧
      ∀ kind, (w.classes cls).current kind ≠ some k := by
    intro k hk
    obtain ⟨hOld, hLists, hPointers⟩ := (hValid k).mp hk
    simp only [hAttached] at hLists
    simp only [hCurrent] at hPointers
    exact ⟨hOld, hLists, hPointers⟩
  refine ⟨?_, fun k hk => (hAfter k hk).2⟩
  have hNone : ∀ kind, (w'.classes cls).current kind = none := by
    intro kind
    rw [hSelf]
    cases kind <;> rfl
  refine
    { others := fun v hv => ?_
      mro := ?_
      length := hLength
      valid := fun k hk => (hAfter k hk).1
      current := fun kind k hk => ?_
      kept := fun kind k hk hNew => absurd hk ((hAfter k hNew).2.2 kind)
      attached := fun dependency k hk hNew =>
        absurd hk ((hAfter k hNew).2.1 dependency)
      shape := Or.inr hNone }
  · rw [hClasses, if_neg hv, World.update_classes, if_neg hv]
  · rw [hSelf, World.update_classes, if_pos rfl]
  · rw [hNone kind] at hk
    exact absurd hk nofun

/-! ## Attaching a cell -/

/-- Only cells were attached, and no valid one was dropped. -/
structure Attaches (w w' : World V) : Prop where
  cells : w'.cells = w.cells
  shape : ∀ v, (w'.classes v).shape = (w.classes v).shape
  slots : ∀ v, (w'.classes v).slots = (w.classes v).slots
  mro : ∀ v, (w'.classes v).mro = (w.classes v).mro
  current : ∀ v kind, (w'.classes v).current kind = (w.classes v).current kind
  kept : ∀ v dependency k, k ∈ (w.classes v).attachedCells dependency →
    w.isValid k = true → k ∈ (w'.classes v).attachedCells dependency

omit [DecidableEq V] in
theorem Attaches.isValid {w w' : World V} (h : Attaches w w') (k : Nat) :
    w'.isValid k = w.isValid k := by
  rw [World.isValid, World.isValid, h.cells]

theorem installValidityCellAlongMro_spec {w : World V} (cls : V) {cell : Nat}
    (mode : InstallMode) (dependency : Dependency)
    (hValid : w.isValid cell = true) :
    let w' := installValidityCellAlongMro w cls cell mode dependency
    Attaches w w' ∧ ∀ base ∈ (w.classes cls).mro.drop mode.startIdx,
      cell ∈ (w'.classes base).attachedCells dependency := by
  intro w'
  obtain ⟨hKept, hAll⟩ := attachAlongMro_spec hValid
    ((w.classes cls).mro.drop mode.startIdx)
    fun c => (w.classes c).attachedCells dependency
  cases dependency with
  | shapeOnly | shapeAndContents =>
      refine ⟨⟨rfl, fun _ => rfl, fun _ => rfl, fun _ => rfl,
        fun v kind => by cases kind <;> rfl, fun v d k hk hk' => ?_⟩, hAll⟩
      cases d with
      | shapeOnly | shapeAndContents =>
          first
            | exact hKept v k hk hk'
            | exact hk

/-! ## Making a cell keeps the cells in order -/

/-- A class points to a new valid cell. -/
structure Points (w w' : World V) (cls : V) (kind : CellKind) : Prop where
  length : w'.cells.length = w.cells.length + 1
  new : w'.isValid w.cells.length = true
  valid : ∀ k, k ≠ w.cells.length → w'.isValid k = w.isValid k
  shape : ∀ v, (w'.classes v).shape = (w.classes v).shape
  slots : ∀ v, (w'.classes v).slots = (w.classes v).slots
  mro : ∀ v, (w'.classes v).mro = (w.classes v).mro
  current : ∀ v kind', (w'.classes v).current kind' =
    if v = cls ∧ kind' = kind then some w.cells.length
    else (w.classes v).current kind'
  kept : ∀ v dependency k, k ∈ (w.classes v).attachedCells dependency →
    w.isValid k = true → k ∈ (w'.classes v).attachedCells dependency

theorem Points.attach {w w₁ w₂ : World V} {cls : V} {kind : CellKind}
    (h : Points w w₁ cls kind) (h' : Attaches w₁ w₂) :
    Points w w₂ cls kind where
  length := by rw [h'.cells, h.length]
  new := (h'.isValid _).trans h.new
  valid k hk := (h'.isValid k).trans (h.valid k hk)
  shape v := (h'.shape v).trans (h.shape v)
  slots v := (h'.slots v).trans (h.slots v)
  mro v := (h'.mro v).trans (h.mro v)
  current v kind' := (h'.current v kind').trans (h.current v kind')
  kept v dependency k hk hValid := by
    refine h'.kept v dependency k (h.kept v dependency k hk hValid) ?_
    rw [h.valid k (Nat.ne_of_lt (World.lt_of_isValid hValid))]
    exact hValid

/-- Once the new cell is attached as well, the cells are in order. -/
theorem Points.wellFormed {w w' : World V} {cls : V} {kind : CellKind}
    (h : Points w w' cls kind) (hw : WellFormed w)
    (hNew : ∀ dependency, ∀ base ∈ watched w cls kind dependency,
      w.cells.length ∈ (w'.classes base).attachedCells dependency) :
    WellFormed w' := by
  refine
    { head := fun v => ?_
      fresh := fun v kind' k hCurrent => ?_
      attached := fun v kind' k dependency base hCurrent hValid hBase => ?_ }
  · rw [h.mro]
    exact hw.head v
  · rw [h.current] at hCurrent
    rw [h.length]
    split at hCurrent
    · rw [← Option.some.inj hCurrent]
      exact Nat.lt_succ_self _
    · exact (hw.fresh v kind' k hCurrent).trans (Nat.lt_succ_self _)
  · rw [watched_congr h.mro (h.shape v)] at hBase
    rw [h.current] at hCurrent
    split at hCurrent
    · rename_i hSame
      rw [hSame.1, hSame.2] at hBase
      rw [← Option.some.inj hCurrent]
      exact hNew dependency base hBase
    · have hOld : w.isValid k = true := by
        rw [h.valid k (Nat.ne_of_lt (hw.fresh v kind' k hCurrent))] at hValid
        exact hValid
      exact h.kept base dependency k
        (hw.attached v kind' k dependency base hCurrent hOld hBase) hOld

/-- Making a cell and pointing to it, before it is attached. -/
theorem points_of_makeCell {w : World V} {cls : V} {kind : CellKind}
    {mutability : DependencyMutability} {c : ClassObject V}
    (hShape : c.shape = (w.classes cls).shape)
    (hSlots : c.slots = (w.classes cls).slots)
    (hMro : c.mro = (w.classes cls).mro)
    (hCurrent : ∀ kind', c.current kind' =
      if kind' = kind then some w.cells.length
      else (w.classes cls).current kind')
    (hAttached : ∀ dependency,
      c.attachedCells dependency = (w.classes cls).attachedCells dependency) :
    Points w ((makeCell w mutability).2.update cls c) cls kind := by
  refine
    { length := by simp [makeCell, World.update]
      new := by simp [makeCell, World.update, World.isValid]
      valid := fun k hk => ?_
      shape := fun v =>
        World.update_field (w := (makeCell w mutability).2) ClassObject.shape
          hShape v
      slots := fun v =>
        World.update_field (w := (makeCell w mutability).2) ClassObject.slots
          hSlots v
      mro := fun v =>
        World.update_field (w := (makeCell w mutability).2) ClassObject.mro
          hMro v
      current := fun v kind' => ?_
      kept := fun v dependency k hk _ => ?_ }
  · show (match (w.cells ++ [_])[k]? with
      | some c => c.valid
      | none => false) = _
    rw [World.isValid]
    by_cases hLt : k < w.cells.length
    · rw [List.getElem?_append_left hLt]
    · have hGe : w.cells.length + 1 ≤ k := by omega
      rw [List.getElem?_eq_none (by simpa using hGe),
        List.getElem?_eq_none (by omega)]
  · rw [World.update_classes]
    by_cases hv : v = cls
    · rw [if_pos hv, hCurrent, hv]
      simp only [true_and]
    · rw [if_neg hv, if_neg fun h => hv h.1]
      rfl
  · rw [World.update_field (w := (makeCell w mutability).2)
      (fun c => c.attachedCells dependency) (hAttached dependency) v]
    exact hk

theorem createSlow_spec (w : World V) (cls : V) (kind : CellKind) :
    let r := createSlow w cls kind
    r.1 = w.cells.length ∧ Points w r.2 cls kind ∧
      ∀ dependency, ∀ base ∈ watched w cls kind dependency,
        w.cells.length ∈ (r.2.classes base).attachedCells dependency := by
  cases kind with
  | mroShapeAndContents =>
      let c : ClassObject V :=
        { w.classes cls with
          constructorThunk := none
          mroShapeAndContentsValidityCell := some w.cells.length }
      let w₁ := (makeCell w (mroDependencyMutability w cls)).2.update cls c
      have hPoints : Points w w₁ cls .mroShapeAndContents :=
        points_of_makeCell (c := c) rfl rfl rfl
          (fun kind' => by cases kind' <;> rfl)
          (fun dependency => by cases dependency <;> rfl)
      obtain ⟨hAttaches, hAll⟩ := installValidityCellAlongMro_spec cls
        .skipSelf .shapeAndContents hPoints.new
      refine ⟨rfl, hPoints.attach hAttaches, fun dependency base hBase => ?_⟩
      cases dependency with
      | shapeOnly => exact absurd hBase List.not_mem_nil
      | shapeAndContents =>
          refine hAll base ?_
          rw [hPoints.mro]
          rwa [watched, ← List.drop_one] at hBase
  | mroShapeAndMetaclassMroShapeAndContents =>
      let metaclass := (w.classes cls).shape.cls
      let mutability :=
        if mroDependencyMutability w cls = .isImmutable ∧ metaclass ≠ cls then
          mroDependencyMutability w metaclass
        else mroDependencyMutability w cls
      let c : ClassObject V :=
        { w.classes cls with
          mroShapeAndMetaclassMroShapeAndContentsValidityCell :=
            some w.cells.length }
      let w₁ := (makeCell w mutability).2.update cls c
      have hPoints : Points w w₁ cls .mroShapeAndMetaclassMroShapeAndContents :=
        points_of_makeCell (c := c) rfl rfl rfl
          (fun kind' => by cases kind' <;> rfl)
          (fun dependency => by cases dependency <;> rfl)
      obtain ⟨hShapes, hOwn⟩ := installValidityCellAlongMro_spec cls
        .skipSelf .shapeOnly hPoints.new
      have hPoints₂ := hPoints.attach hShapes
      have hOwn' : ∀ base ∈ watched w cls
          .mroShapeAndMetaclassMroShapeAndContents .shapeOnly, _ :=
        fun base hBase => hOwn base (by
          rw [hPoints.mro]
          rwa [watched, ← List.drop_one] at hBase)
      obtain ⟨hContents, hMeta⟩ := installValidityCellAlongMro_spec
        metaclass .includeSelf .shapeAndContents hPoints₂.new
      by_cases hSelf : metaclass = cls
      · have hResult : createSlow w cls
            .mroShapeAndMetaclassMroShapeAndContents =
            (w.cells.length, installValidityCellAlongMro w₁ cls w.cells.length
              .skipSelf .shapeOnly) := if_neg (not_not.mpr hSelf)
        rw [hResult]
        refine ⟨rfl, hPoints₂, fun dependency base hBase => ?_⟩
        cases dependency with
        | shapeOnly => exact hOwn' base hBase
        | shapeAndContents =>
            rw [watched, if_neg (not_not.mpr hSelf)] at hBase
            exact absurd hBase List.not_mem_nil
      · have hResult : createSlow w cls
            .mroShapeAndMetaclassMroShapeAndContents =
            (w.cells.length, installValidityCellAlongMro
              (installValidityCellAlongMro w₁ cls w.cells.length .skipSelf
                .shapeOnly) metaclass w.cells.length .includeSelf
              .shapeAndContents) := if_pos hSelf
        rw [hResult]
        refine ⟨rfl, hPoints₂.attach hContents,
          fun dependency base hBase => ?_⟩
        cases dependency with
        | shapeOnly =>
            exact hContents.kept base .shapeOnly _ (hOwn' base hBase)
              hPoints₂.new
        | shapeAndContents =>
            rw [watched, if_pos hSelf] at hBase
            refine hMeta base ?_
            rwa [hPoints₂.mro, InstallMode.startIdx, List.drop_zero]

/-- A cell that is handed out is valid, in any state. -/
theorem getOrCreate_valid (w : World V) (cls : V) (kind : CellKind) :
    (getOrCreate w cls kind).2.isValid (getOrCreate w cls kind).1 = true := by
  obtain ⟨hCell, hPoints, -⟩ := createSlow_spec w cls kind
  have hSlow : (createSlow w cls kind).2.isValid
      (createSlow w cls kind).1 = true := by
    rw [hCell]
    exact hPoints.new
  rw [getOrCreate]
  split
  · split
    · assumption
    · exact hSlow
  · exact hSlow

/-- The class points to the cell that it hands out; whatever is valid and
pointed to stays so. -/
structure HandedOut (w : World V) (cls : V) (kind : CellKind) (cell : Nat)
    (w' : World V) : Prop where
  wellFormed : WellFormed w'
  length : w.cells.length ≤ w'.cells.length
  current : (w'.classes cls).current kind = some cell
  shape : ∀ v, (w'.classes v).shape = (w.classes v).shape
  slots : ∀ v, (w'.classes v).slots = (w.classes v).slots
  mro : ∀ v, (w'.classes v).mro = (w.classes v).mro
  valid : ∀ k, k < w.cells.length → w'.isValid k = w.isValid k
  kept : ∀ v kind' k, (w.classes v).current kind' = some k →
    w.isValid k = true → (w'.classes v).current kind' = some k

theorem getOrCreate_spec {w : World V} (hw : WellFormed w) (cls : V)
    (kind : CellKind) :
    HandedOut w cls kind (getOrCreate w cls kind).1
      (getOrCreate w cls kind).2 := by
  obtain ⟨hCell, hPoints, hNew⟩ := createSlow_spec w cls kind
  have hSlow : (∀ k, (w.classes cls).current kind = some k →
      w.isValid k = false) →
      HandedOut w cls kind (createSlow w cls kind).1
        (createSlow w cls kind).2 := by
    intro hInvalid
    refine
      { wellFormed := hPoints.wellFormed hw hNew
        length := ?_
        current := ?_
        shape := hPoints.shape
        slots := hPoints.slots
        mro := hPoints.mro
        valid := fun k hk => hPoints.valid k (Nat.ne_of_lt hk)
        kept := fun v kind' k hCurrent hValid => ?_ }
    · rw [hPoints.length]
      exact Nat.le_succ _
    · rw [hPoints.current, if_pos ⟨rfl, rfl⟩, hCell]
    · rw [hPoints.current]
      split
      · rename_i hSame
        rw [hSame.1, hSame.2] at hCurrent
        rw [hInvalid k hCurrent] at hValid
        exact absurd hValid Bool.false_ne_true
      · exact hCurrent
  rw [getOrCreate]
  split
  · rename_i k hCurrent
    split
    · exact ⟨hw, le_refl _, hCurrent, fun _ => rfl, fun _ => rfl, fun _ => rfl,
        fun _ _ => rfl, fun _ _ _ h _ => h⟩
    · rename_i hOld
      refine hSlow fun k' hCurrent' => ?_
      rw [hCurrent] at hCurrent'
      rw [← Option.some.inj hCurrent']
      exact Bool.eq_false_iff.mpr hOld
  · rename_i hCurrent
    refine hSlow fun k' hCurrent' => ?_
    rw [hCurrent] at hCurrent'
    exact absurd hCurrent' nofun

/-! ## One operation -/

/-- The classes that a cell of a class stands for. -/
def depends (w : World V) (cls : V) : CellKind → Dependency → List V
  | .mroShapeAndContents, .shapeAndContents => (w.classes cls).mro
  | .mroShapeAndContents, .shapeOnly => []
  | .mroShapeAndMetaclassMroShapeAndContents, .shapeOnly =>
      (w.classes cls).mro
  | .mroShapeAndMetaclassMroShapeAndContents, .shapeAndContents =>
      if (w.classes cls).shape.cls ≠ cls then
        (w.classes (w.classes cls).shape.cls).mro
      else []

/-- The operation changes the class in what the dependency is about. -/
def Changes (w : World V) (op : Operation V) (dependency : Dependency)
    (cls : V) : Prop :=
  ChangesShape w op cls ∨
    dependency = .shapeAndContents ∧ ChangesContents op cls

theorem depends_congr {w w' : World V} {cls : V}
    (hMro : ∀ v, (w'.classes v).mro = (w.classes v).mro)
    (hShape : (w'.classes cls).shape = (w.classes cls).shape)
    (kind : CellKind) (dependency : Dependency) :
    depends w' cls kind dependency = depends w cls kind dependency := by
  cases kind <;> cases dependency <;> simp only [depends, hMro, hShape]

/-- A class that a cell stands for has the cell attached, or is the class of
the cell. -/
theorem WellFormed.attached_or_current {w : World V} (hw : WellFormed w)
    {cls : V} {kind : CellKind} {k : Nat} {dependency : Dependency} {base : V}
    (hCurrent : (w.classes cls).current kind = some k)
    (hValid : w.isValid k = true)
    (hBase : base ∈ depends w cls kind dependency) :
    k ∈ (w.classes base).attachedCells dependency ∨
      (w.classes base).current kind = some k ∧
        (dependency = .shapeAndContents → kind = .mroShapeAndContents) := by
  have hAttached := hw.attached cls kind k dependency base hCurrent hValid
  have hMro := (mem_mro_iff (hw.head cls) base).mp
  cases kind with
  | mroShapeAndContents =>
      cases dependency with
      | shapeOnly => exact absurd hBase List.not_mem_nil
      | shapeAndContents =>
          rcases hMro hBase with rfl | hTail
          · exact Or.inr ⟨hCurrent, fun _ => rfl⟩
          · exact Or.inl (hAttached hTail)
  | mroShapeAndMetaclassMroShapeAndContents =>
      cases dependency with
      | shapeOnly =>
          rcases hMro hBase with rfl | hTail
          · exact Or.inr ⟨hCurrent, nofun⟩
          · exact Or.inl (hAttached hTail)
      | shapeAndContents => exact Or.inl (hAttached hBase)

/-- What an operation does to the cells. -/
structure Stepped (w : World V) (op : Operation V) (w' : World V) : Prop where
  wellFormed : WellFormed w'
  length : w.cells.length ≤ w'.cells.length
  mro : ∀ v, (w'.classes v).mro = (w.classes v).mro
  valid : ∀ k, k < w.cells.length → w'.isValid k = true →
    w.isValid k = true
  kept : ∀ v kind k, (w.classes v).current kind = some k →
    w'.isValid k = true → (w'.classes v).current kind = some k
  shape : ∀ v, ¬ ChangesShape w op v →
    (w'.classes v).shape = (w.classes v).shape
  slots : ∀ v, ¬ Changes w op .shapeAndContents v →
    (w'.classes v).slots = (w.classes v).slots
  quiet : ∀ v kind k, (w.classes v).current kind = some k →
    w'.isValid k = true → ∀ dependency,
      ∀ base ∈ depends w v kind dependency, ¬ Changes w op dependency base

/-- A shape change is seen by every cell that stands for the class. -/
theorem setShape_spec {w w' : World V} {cls : V} {newShape : Shape V}
    (hw : WellFormed w) (hRun : setShape w cls newShape = some w') :
    Settled w w' cls ∧
      (∀ v, (v = cls → newShape = (w.classes cls).shape) →
        w'.classes v = w.classes v) ∧
      (newShape ≠ (w.classes cls).shape → ∀ v kind k,
        (w.classes v).current kind = some k → w'.isValid k = true →
          ∀ dependency, cls ∉ depends w v kind dependency) := by
  rw [setShape] at hRun
  obtain ⟨-, hRun⟩ := check_bind_eq_some.mp hRun
  by_cases hSame : newShape = (w.classes cls).shape
  · rw [if_neg (not_not.mpr hSame.symm)] at hRun
    have hUpdate : w' = w := by
      rw [← Option.some.inj hRun, hSame, World.update]
      congr
      funext v
      split
      · rename_i hv
        rw [hv]
      · rfl
    rw [hUpdate]
    exact ⟨⟨fun _ _ => rfl, rfl, rfl, fun _ h => h, fun _ _ h => h,
      fun _ _ h _ => h, fun _ _ h _ => h, Or.inl rfl⟩, fun _ _ => rfl,
      fun h => absurd hSame h⟩
  · rw [if_pos fun h => hSame h.symm] at hRun
    obtain ⟨hSettled, hNotified⟩ := shapeChange_settled w cls newShape
    rw [Option.some.inj hRun] at hSettled hNotified
    refine ⟨hSettled, fun v hv => ?_, fun _ v kind k hCurrent hValid
      dependency hMem => ?_⟩
    · exact hSettled.others v fun h => hSame (hv h)
    · obtain ⟨hLists, hPointers⟩ := hNotified k hValid
      rcases hw.attached_or_current hCurrent (hSettled.valid k hValid) hMem
        with hAttached | ⟨hOwn, -⟩
      · exact hLists dependency hAttached
      · exact hPointers kind hOwn

theorem Settled.stepped {w w' : World V} {cls : V} {op : Operation V}
    (h : Settled w w' cls) (hw : WellFormed w)
    (hShape : ∀ v, ¬ ChangesShape w op v →
      (w'.classes v).shape = (w.classes v).shape)
    (hSlots : ∀ v, ¬ Changes w op .shapeAndContents v →
      (w'.classes v).slots = (w.classes v).slots)
    (hQuiet : ∀ v kind k, (w.classes v).current kind = some k →
      w'.isValid k = true → ∀ dependency,
        ∀ base ∈ depends w v kind dependency,
          ¬ Changes w op dependency base) :
    Stepped w op w' where
  wellFormed := h.wellFormed hw
  length := h.length.ge
  mro := h.mro_eq
  valid k _ hk := h.valid k hk
  kept _ _ _ := h.kept_of
  shape := hShape
  slots := hSlots
  quiet := hQuiet

/-- What one operation does to the cells in order. -/
theorem step_spec {w w' : World V} {op : Operation V} (hw : WellFormed w)
    (hStep : step w op = some w') : Stepped w op w' := by
  cases op with
  | getOrCreate cls kind =>
      have hSpec := getOrCreate_spec hw cls kind
      rw [step, Option.some.injEq] at hStep
      rw [hStep] at hSpec
      have hNone : ∀ dependency base,
          ¬ Changes w (.getOrCreate cls kind) dependency base := by
        rintro dependency base (hFalse | ⟨-, hFalse⟩)
        · exact hFalse
        · exact hFalse
      refine
        { wellFormed := hSpec.wellFormed
          length := hSpec.length
          mro := hSpec.mro
          valid := fun k hk hValid => (hSpec.valid k hk).symm.trans hValid
          kept := fun v kind' k hCurrent hValid => ?_
          shape := fun v _ => hSpec.shape v
          slots := fun v _ => hSpec.slots v
          quiet := fun _ _ _ _ _ dependency base _ => hNone dependency base }
      refine hSpec.kept v kind' k hCurrent ?_
      rwa [← hSpec.valid k (hw.fresh v kind' k hCurrent)]
  | setShape cls newShape =>
      obtain ⟨hSettled, hShape, hQuiet⟩ := setShape_spec hw hStep
      have hSame : ∀ v, ¬ ChangesShape w (.setShape cls newShape) v →
          w'.classes v = w.classes v := by
        intro v hv
        refine hShape v fun hEq => ?_
        by_contra hNe
        exact hv ⟨hEq, hNe⟩
      refine hSettled.stepped hw (fun v hv => by rw [hSame v hv])
        (fun v hv => by rw [hSame v fun h => hv (Or.inl h)])
        fun v kind k hCurrent hValid dependency base hBase hChanges => ?_
      · rcases hChanges with ⟨rfl, hNe⟩ | ⟨-, hFalse⟩
        · exact hQuiet hNe v kind k hCurrent hValid dependency hBase
        · exact hFalse
  | transition cls nextShape slot value =>
      obtain ⟨hNe, hStep⟩ := check_bind_eq_some.mp hStep
      obtain ⟨w₁, hSet, hStep⟩ := exists_of_bind hStep
      obtain ⟨hSettled, hShape, hQuiet⟩ := setShape_spec hw hSet
      have hWrite := writeSlot_settled w₁ cls slot value
      rw [Option.some.inj hStep] at hWrite
      have hSame : ∀ v, v ≠ cls → w'.classes v = w.classes v :=
        (hSettled.trans hWrite).others
      refine (hSettled.trans hWrite).stepped hw
        (fun v hv => by rw [hSame v hv])
        (fun v hv => by rw [hSame v fun h => hv (Or.inl h)])
        fun v kind k hCurrent hValid dependency base hBase hChanges => ?_
      · rcases hChanges with rfl | ⟨-, hFalse⟩
        · exact hQuiet hNe v kind k hCurrent (hWrite.valid k hValid)
            dependency hBase
        · exact hFalse
  | storeExisting cls slot value =>
      rw [step, Option.some.injEq] at hStep
      have hWrite := writeSlot_settled w cls slot (some value)
      have hChange := contentsChange_settled
        (writeSlot w cls slot (some value)) cls
      obtain ⟨hClasses, -, hValid⟩ := contentsChange_spec
        (writeSlot w cls slot (some value)) cls
      rw [hStep] at hChange hClasses hValid
      have hWrittenShape : ∀ v,
          ((writeSlot w cls slot (some value)).classes v).shape =
            (w.classes v).shape := World.update_field ClassObject.shape rfl
      have hSettled := hWrite.trans hChange
      refine hSettled.stepped hw (fun v _ => ?_)
        (fun v hv => by
          rw [hSettled.others v fun h => hv (Or.inr ⟨rfl, h⟩)])
        fun v kind k hCurrent hAfter dependency base hBase hChanges => ?_
      · rw [← hWrittenShape v, hClasses]
        split
        · rename_i hv
          rw [hv]
        · rfl
      · rcases hChanges with hFalse | ⟨hContents, rfl⟩
        · exact hFalse
        · have hw₁ := hWrite.wellFormed hw
          obtain ⟨hWritten, hNotAttached, hNotCurrent⟩ := (hValid k).mp hAfter
          rw [← depends_congr hWrite.mro_eq (hWrittenShape v)] at hBase
          rcases hw₁.attached_or_current (hWrite.kept_of hCurrent hWritten)
              hWritten hBase with hAttached | ⟨hOwn, hKind⟩
          · rw [hContents] at hAttached
            exact hNotAttached hAttached
          · rw [hKind hContents] at hOwn
            exact hNotCurrent hOwn

/-! ## Runs -/

theorem Hierarchy.start_wellFormed (h : Hierarchy V) :
    WellFormed h.start where
  head := h.head
  fresh _ kind _ hCurrent := by
    cases kind <;> exact absurd hCurrent nofun
  attached _ kind _ _ _ hCurrent _ _ := by
    cases kind <;> exact absurd hCurrent nofun

theorem run_wellFormed {ops : List (Operation V)} :
    ∀ {w w' : World V}, WellFormed w → run w ops = some w' →
      WellFormed w' := by
  induction ops with
  | nil =>
      intro w w' hw hRun
      rwa [← Option.some.inj hRun]
  | cons op ops ih =>
      intro w w' hw hRun
      obtain ⟨w₁, hStep, hRest⟩ := exists_of_bind hRun
      exact ih (step_spec hw hStep).wellFormed hRest

/-- Validity is never regained. -/
theorem run_valid {ops : List (Operation V)} :
    ∀ {w w' : World V} {k : Nat}, WellFormed w → run w ops = some w' →
      k < w.cells.length → w'.isValid k = true → w.isValid k = true := by
  induction ops with
  | nil =>
      intro w w' k _ hRun _ hValid
      rwa [Option.some.inj hRun]
  | cons op ops ih =>
      intro w w' k hw hRun hLt hValid
      obtain ⟨w₁, hStep, hRest⟩ := exists_of_bind hRun
      have hSpec := step_spec hw hStep
      exact hSpec.valid k hLt
        (ih hSpec.wellFormed hRest (hLt.trans_le hSpec.length) hValid)

/-- A cell that is pointed to and valid after a run has seen every operation
leave the classes it stands for. -/
theorem run_quiet {ops : List (Operation V)} :
    ∀ {w w' : World V} {cls : V} {kind : CellKind} {k : Nat},
      WellFormed w → run w ops = some w' →
      (w.classes cls).current kind = some k → w'.isValid k = true →
      ∀ dependency, ∀ base ∈ depends w cls kind dependency,
        Never (fun u op => Changes u op dependency base) w ops := by
  induction ops with
  | nil =>
      intro w w' cls kind k _ _ _ _ dependency base _ before op after u hSplit
      exact absurd hSplit (by simp)
  | cons op ops ih =>
      intro w w' cls kind k hw hRun hCurrent hValid dependency base hBase
      obtain ⟨w₁, hStep, hRest⟩ := exists_of_bind hRun
      have hSpec := step_spec hw hStep
      have hLt := hw.fresh cls kind k hCurrent
      have hValid₁ := run_valid hSpec.wellFormed hRest
        (hLt.trans_le hSpec.length) hValid
      have hQuiet := hSpec.quiet cls kind k hCurrent hValid₁
      -- the shape of the class is one of the things its cells stand for
      have hShape : (w₁.classes cls).shape = (w.classes cls).shape := by
        refine hSpec.shape cls fun hChanges => ?_
        have hSelf := (mem_mro_iff (hw.head cls) cls).mpr (Or.inl rfl)
        cases kind with
        | mroShapeAndContents =>
            exact hQuiet .shapeAndContents cls hSelf (Or.inl hChanges)
        | mroShapeAndMetaclassMroShapeAndContents =>
            exact hQuiet .shapeOnly cls hSelf (Or.inl hChanges)
      intro before op' after u hSplit hBefore hChanges
      cases before with
      | nil =>
          obtain ⟨rfl, rfl⟩ := List.cons.inj hSplit
          rw [← Option.some.inj hBefore] at hChanges
          exact hQuiet dependency base hBase hChanges
      | cons first before =>
          obtain ⟨rfl, rfl⟩ := List.cons.inj hSplit
          obtain ⟨w₂, hStep₂, hBefore⟩ := exists_of_bind hBefore
          rw [hStep] at hStep₂
          rw [← Option.some.inj hStep₂] at hBefore
          refine ih hSpec.wellFormed hRest
            (hSpec.kept cls kind k hCurrent hValid₁) hValid dependency base ?_
            before op' after u rfl hBefore hChanges
          rwa [depends_congr hSpec.mro hShape]

/-- While the cell is valid, no operation changes the class in what the
dependency is about. -/
def Guards (w : World V) (cell : Nat) (dependency : Dependency) (base : V) :
    Prop :=
  ∀ ops w', run w ops = some w' → w'.isValid cell = true →
    Never (fun u op => Changes u op dependency base) w ops

/-- The cell that a class hands out guards the classes it stands for. -/
theorem getOrCreate_guards {w w₁ : World V} {cls : V} {kind : CellKind}
    {cell : Nat} (hw : WellFormed w)
    (hOut : getOrCreate w cls kind = (cell, w₁)) :
    w₁.isValid cell = true ∧
      ∀ dependency, ∀ base ∈ depends w cls kind dependency,
        Guards w₁ cell dependency base := by
  have hValid := getOrCreate_valid w cls kind
  have hSpec := getOrCreate_spec hw cls kind
  rw [hOut] at hValid hSpec
  refine ⟨hValid, fun dependency base hBase ops w' hRun hAfter => ?_⟩
  refine run_quiet hSpec.wellFormed hRun hSpec.current hAfter dependency base ?_
  rwa [depends_congr hSpec.mro (hSpec.shape cls)]

/-- In every state of a program, a class hands out valid cells.  While the
cell for shape and contents is valid no class of the MRO changes.  While the
combined cell is valid no class of the MRO changes shape, and no class of the
MRO of the metaclass changes, unless the class is its own metaclass. -/
theorem validity_cells_sound (h : Hierarchy V) {ops : List (Operation V)}
    {w : World V} (hRun : run h.start ops = some w) (cls : V) :
    (∀ cell w₁, getOrCreate w cls .mroShapeAndContents = (cell, w₁) →
      w₁.isValid cell = true ∧
        ∀ base ∈ (w.classes cls).mro,
          Guards w₁ cell .shapeAndContents base) ∧
    ∀ cell w₁,
      getOrCreate w cls .mroShapeAndMetaclassMroShapeAndContents =
        (cell, w₁) →
      w₁.isValid cell = true ∧
        (∀ base ∈ (w.classes cls).mro, Guards w₁ cell .shapeOnly base) ∧
        ((w.classes cls).shape.cls ≠ cls →
          ∀ base ∈ (w.classes (w.classes cls).shape.cls).mro,
            Guards w₁ cell .shapeAndContents base) := by
  have hw := run_wellFormed h.start_wellFormed hRun
  constructor
  · intro cell w₁ hOut
    obtain ⟨hValid, hGuards⟩ := getOrCreate_guards hw hOut
    exact ⟨hValid, hGuards .shapeAndContents⟩
  · intro cell w₁ hOut
    obtain ⟨hValid, hGuards⟩ := getOrCreate_guards hw hOut
    refine ⟨hValid, hGuards .shapeOnly, fun hMeta base hBase => ?_⟩
    refine hGuards .shapeAndContents base ?_
    rwa [depends, if_pos hMeta]

/-- The two classes that the bootstrap makes first. -/
inductive BootstrapClass where
  | typeClass
  | objectClass
deriving DecidableEq, Repr

/-- Before they are frozen; `type` is its own metaclass. -/
def bootstrapHierarchy : Hierarchy BootstrapClass where
  shape
    | .typeClass => { serial := 0, cls := .typeClass }
    | .objectClass => { serial := 1, cls := .typeClass }
  mro
    | .typeClass => [.typeClass, .objectClass]
    | .objectClass => [.objectClass]
  slots _ _ := none
  head := by
    intro cls
    cases cls <;> rfl

/-- The combined cell of `object` guards `type`, its metaclass. -/
theorem validity_cells_sound_at_object :
    (bootstrapHierarchy.shape .objectClass).cls ≠ .objectClass ∧
      Guards (getOrCreate bootstrapHierarchy.start .objectClass
        .mroShapeAndMetaclassMroShapeAndContents).2 0 .shapeAndContents
        BootstrapClass.typeClass := by
  have hSound := (validity_cells_sound bootstrapHierarchy
    (show run _ [] = some _ from rfl) .objectClass).2
  refine ⟨by decide, ?_⟩
  exact (hSound 0 _ rfl).2.2 (by decide) _ (by decide)

/-- The combined cell of `type` stays valid when the contents of `type`
change, though `type` is in the MRO of its metaclass. -/
theorem combined_cell_of_type_survives_store :
    ∃ w', run (getOrCreate bootstrapHierarchy.start .typeClass
        .mroShapeAndMetaclassMroShapeAndContents).2
        [.storeExisting .typeClass 5 .objectClass] = some w' ∧
      w'.isValid (getOrCreate bootstrapHierarchy.start .typeClass
        .mroShapeAndMetaclassMroShapeAndContents).1 = true ∧
      .typeClass ∈ (bootstrapHierarchy.mro
        (bootstrapHierarchy.shape .typeClass).cls) ∧
      ChangesContents (.storeExisting .typeClass 5 .objectClass)
        BootstrapClass.typeClass := by
  refine ⟨_, rfl, ?_, by decide, rfl⟩
  decide

end CloverVM.ObjectModel.ValidityCells
