import CloverVM.Runtime.ConstructorThunk

/-!
# Classes and their constructors

A class keeps the thunk that constructs its instances and a validity cell that
stands for everything the thunk was made from.  The cell is attached to the
classes of the MRO, and a write to any of them invalidates it.
-/

namespace CloverVM.ObjectModel.ClassObject

open CloverVM.ObjectModel
open CloverVM.Runtime
open CloverVM.Runtime.ConstructorThunk

/-- A class attribute as the constructor lookup sees it: a function, or a
value with `__get__` or that is no function. -/
inductive Attribute (V : Type) where
  | function (f : Function V)
  | unsupported

/-- `bases` is the MRO after the class itself. -/
structure ClassObject (V : Type) where
  bases : List V := []
  standardMetaclass : Bool := true
  attributes : String → Option (Attribute V) := fun _ => none
  mroShapeAndContentsValidityCell : Option Nat := none
  attachedCells : List Nat := []
  constructorThunk : Option (ConstructorFunction V) := none

/-- The classes of a program and the validity cells made so far. -/
structure World (V : Type) where
  classes : V → ClassObject V
  isValid : Nat → Bool := fun _ => false
  nextCell : Nat := 0

variable {V : Type} [DecidableEq V]

def World.update (w : World V) (cls : V) (c : ClassObject V) : World V :=
  { w with classes := fun v => if v = cls then c else w.classes v }

@[simp] theorem World.update_classes (w : World V) (cls : V)
    (c : ClassObject V) (v : V) :
    (w.update cls c).classes v = if v = cls then c else w.classes v := rfl

section Constructor

variable (noneValue : V)

/-- `lookup_class_attribute_read_descriptor`: the first class of the MRO that
has the attribute. -/
def lookupClassAttribute (w : World V) (cls : V) (name : String) :
    Option (Attribute V) :=
  (cls :: (w.classes cls).bases).findSome? fun c => (w.classes c).attributes name

/-- The thunk of a class with neither method, which takes no argument. -/
def createInstanceThunk : ConstructorFunction V :=
  { function :=
      { codeObject :=
          { functionSignature :=
              { nParameters := 0, nPositionalParameters := 0
                nPosonlyParameters := 0, nPosOrKwParameters := 0
                nKwonlyParameters := 0 }
            functionKeywordRemap := [] } }
    code := .createInstance }

/-- The thunk for a method found on the class, none when it has no
support. -/
def thunkOfAttribute (methodName firstParameter : String)
    (code : CodeObject → ThunkCode) :
    Attribute V → Except BuiltinException (Option (ConstructorFunction V))
  | .unsupported => .ok none
  | .function f =>
      match makeConstructorThunkFunction noneValue methodName firstParameter f
        with
      | .error e => .error e
      | .ok function => .ok (some ⟨function, code f.codeObject⟩)

/-- The part of `create_constructor_thunk_slow` after the cells: the thunk
that the attributes of the class call for. -/
def resolveConstructor (w : World V) (cls : V) :
    Except BuiltinException (Option (ConstructorFunction V)) :=
  match lookupClassAttribute w cls "__new__",
    lookupClassAttribute w cls "__init__" with
  | none, none => .ok (some createInstanceThunk)
  | some new, none =>
      thunkOfAttribute noneValue "__new__" "cls" .callNew new
  | some _, some _ => .ok none
  | none, some init =>
      thunkOfAttribute noneValue "__init__" "self" .callInit init

/-- What a class call finds when nothing has been cached. -/
def constructorOf (w : World V) (cls : V) :
    Except BuiltinException (Option (ConstructorFunction V)) :=
  if (w.classes cls).standardMetaclass then resolveConstructor noneValue w cls
  else .ok none

end Constructor

/-! ## Validity cells -/

def kMaxAttachedValidityCellReuseScan : Nat := 8

/-- `attach_mro_validity_cell`: the cell takes the place of an invalid one
among the first, or comes last. -/
def attachCell (isValid : Nat → Bool) (cells : List Nat) (cell : Nat) :
    List Nat :=
  match (cells.take kMaxAttachedValidityCellReuseScan).findIdx?
    fun k => !isValid k with
  | some idx => cells.set idx cell
  | none => cells ++ [cell]

/-- `install_validity_cell_along_mro`, on the lists of attached cells. -/
def attachAlongMro (isValid : Nat → Bool) (cell : Nat) (mro : List V)
    (attached : V → List Nat) : V → List Nat :=
  mro.foldl (fun attached base =>
    Function.update attached base (attachCell isValid (attached base) cell))
      attached

/-- Without the class itself. -/
def installValidityCellAlongMro (cell : Nat) (bases : List V) (w : World V) :
    World V :=
  { w with
    classes := fun v =>
      { w.classes v with
        attachedCells :=
          attachAlongMro w.isValid cell bases
            (fun c => (w.classes c).attachedCells) v } }

/-- `create_mro_shape_and_contents_validity_cell_slow`. -/
def createValidityCellSlow (w : World V) (cls : V) : Nat × World V :=
  let cell := w.nextCell
  let c := w.classes cls
  let w :=
    w.update cls
      { c with
        constructorThunk := none
        mroShapeAndContentsValidityCell := some cell }
  let w :=
    { w with
      isValid := fun k => decide (k = cell) || w.isValid k
      nextCell := cell + 1 }
  (cell, installValidityCellAlongMro cell c.bases w)

/-- `get_or_create_mro_shape_and_contents_validity_cell`. -/
def getOrCreateValidityCell (w : World V) (cls : V) : Nat × World V :=
  match (w.classes cls).mroShapeAndContentsValidityCell with
  | some cell => if w.isValid cell then (cell, w) else createValidityCellSlow w cls
  | none => createValidityCellSlow w cls

/-- `create_constructor_thunk_slow`. -/
def createConstructorThunkSlow (noneValue : V) (w : World V) (cls : V) :
    Except BuiltinException (Option (ConstructorFunction V × Nat)) × World V :=
  if (w.classes cls).standardMetaclass = false then (.ok none, w)
  else
    let (lookupCell, w) := getOrCreateValidityCell w cls
    let c := w.classes cls
    match c.constructorThunk with
    | some existing => (.ok (some (existing, lookupCell)), w)
    | none =>
        match resolveConstructor noneValue w cls with
        | .error e => (.error e, w)
        | .ok none => (.ok none, w)
        | .ok (some thunk) =>
            (.ok (some (thunk, lookupCell)),
              w.update cls { c with constructorThunk := some thunk })

/-- `get_or_create_constructor_thunk`. -/
def getOrCreateConstructorThunk (noneValue : V) (w : World V) (cls : V) :
    Except BuiltinException (Option (ConstructorFunction V × Nat)) × World V :=
  let c := w.classes cls
  match c.constructorThunk, c.mroShapeAndContentsValidityCell with
  | some thunk, some cell =>
      if w.isValid cell then (.ok (some (thunk, cell)), w)
      else createConstructorThunkSlow noneValue w cls
  | _, _ => createConstructorThunkSlow noneValue w cls

/-- `invalidate_lookup_validity_cells_for_contents_change`. -/
def invalidateLookupValidityCells (w : World V) (cls : V) : World V :=
  let c := w.classes cls
  { w.update cls
      { c with
        constructorThunk := none
        attachedCells := []
        mroShapeAndContentsValidityCell := none } with
    isValid := fun k =>
      !decide (k ∈ c.attachedCells) &&
        !decide (c.mroShapeAndContentsValidityCell = some k) && w.isValid k }

/-- Write or delete a class attribute. -/
def setAttribute (w : World V) (cls : V) (name : String)
    (value : Option (Attribute V)) : World V :=
  let c := w.classes cls
  invalidateLookupValidityCells
    (w.update cls
      { c with
        attributes := fun n => if n = name then value else c.attributes n })
    cls

/-- A cell belongs to one class and, while it is valid, is attached to every
class the class inherits from and vouches for the thunk. -/
structure WellFormed (noneValue : V) (w : World V) : Prop where
  fresh : ∀ cls cell,
    (w.classes cls).mroShapeAndContentsValidityCell = some cell →
      cell < w.nextCell
  owner : ∀ cls cls' cell,
    (w.classes cls).mroShapeAndContentsValidityCell = some cell →
    (w.classes cls').mroShapeAndContentsValidityCell = some cell → cls = cls'
  attached : ∀ cls cell base,
    (w.classes cls).mroShapeAndContentsValidityCell = some cell →
    w.isValid cell = true → base ∈ (w.classes cls).bases →
      cell ∈ (w.classes base).attachedCells
  thunk : ∀ cls cell t,
    (w.classes cls).mroShapeAndContentsValidityCell = some cell →
    w.isValid cell = true → (w.classes cls).constructorThunk = some t →
      constructorOf noneValue w cls = .ok (some t)

/-- What the constructor lookup reads is the same. -/
structure SameContents (w w' : World V) : Prop where
  attributes : ∀ c, (w'.classes c).attributes = (w.classes c).attributes
  bases : ∀ c, (w'.classes c).bases = (w.classes c).bases
  standardMetaclass : ∀ c,
    (w'.classes c).standardMetaclass = (w.classes c).standardMetaclass

theorem SameContents.trans {w w' w'' : World V} (h : SameContents w w')
    (h' : SameContents w' w'') : SameContents w w'' where
  attributes c := (h'.attributes c).trans (h.attributes c)
  bases c := (h'.bases c).trans (h.bases c)
  standardMetaclass c :=
    (h'.standardMetaclass c).trans (h.standardMetaclass c)

/-- The constructor depends on the attributes along the MRO. -/
theorem constructorOf_congr {noneValue : V} {w w' : World V} {cls : V}
    (hAttributes : ∀ c ∈ cls :: (w.classes cls).bases,
      (w'.classes c).attributes = (w.classes c).attributes)
    (hBases : (w'.classes cls).bases = (w.classes cls).bases)
    (hMetaclass : (w'.classes cls).standardMetaclass =
      (w.classes cls).standardMetaclass) :
    constructorOf noneValue w' cls = constructorOf noneValue w cls := by
  have hLookup : ∀ name, lookupClassAttribute w' cls name =
      lookupClassAttribute w cls name := by
    intro name
    rw [lookupClassAttribute, lookupClassAttribute, hBases]
    have hEach : ∀ cs : List V, (∀ c ∈ cs,
        (w'.classes c).attributes = (w.classes c).attributes) →
        (cs.findSome? fun c => (w'.classes c).attributes name) =
          cs.findSome? fun c => (w.classes c).attributes name := by
      intro cs
      induction cs with
      | nil =>
          intro _
          rfl
      | cons c cs ih =>
          intro hSame
          rw [List.findSome?_cons, List.findSome?_cons,
            hSame c List.mem_cons_self,
            ih fun c' hMem => hSame c' (List.mem_cons_of_mem _ hMem)]
    exact hEach _ hAttributes
  rw [constructorOf, constructorOf, hMetaclass, resolveConstructor,
    resolveConstructor, hLookup, hLookup]

theorem SameContents.constructorOf_eq {w w' : World V}
    (h : SameContents w w') (noneValue cls : V) :
    constructorOf noneValue w' cls = constructorOf noneValue w cls :=
  constructorOf_congr (fun c _ => h.attributes c) (h.bases cls)
    (h.standardMetaclass cls)

/-! ## Attaching a cell -/

theorem mem_attachCell_self (isValid : Nat → Bool) (cells : List Nat)
    (cell : Nat) : cell ∈ attachCell isValid cells cell := by
  rw [attachCell]
  split
  · rename_i idx h
    have hLt := (List.findIdx?_eq_some_iff_getElem.mp h).1
    rw [List.length_take] at hLt
    exact List.mem_set (by omega) _
  · exact List.mem_append_right _ (List.mem_singleton.mpr rfl)

/-- A valid cell is not replaced. -/
theorem mem_attachCell_of_valid {isValid : Nat → Bool} {cells : List Nat}
    {cell k : Nat} (hMem : k ∈ cells) (hValid : isValid k = true) :
    k ∈ attachCell isValid cells cell := by
  rw [attachCell]
  split
  · rename_i idx h
    obtain ⟨hLt, hInvalid, -⟩ := List.findIdx?_eq_some_iff_getElem.mp h
    obtain ⟨j, hj, rfl⟩ := List.getElem_of_mem hMem
    have hNe : idx ≠ j := by
      rintro rfl
      rw [List.getElem_take, hValid] at hInvalid
      exact Bool.false_ne_true hInvalid
    refine List.mem_iff_getElem.mpr ⟨j, by rwa [List.length_set], ?_⟩
    rw [List.getElem_set_ne hNe]
  · exact List.mem_append_left _ hMem

/-- The cell ends up attached to every class of the list, and no valid one is
dropped. -/
theorem attachAlongMro_spec {isValid : Nat → Bool} {cell : Nat}
    (hValid : isValid cell = true) (mro : List V) :
    ∀ attached : V → List Nat,
      (∀ c k, k ∈ attached c → isValid k = true →
        k ∈ attachAlongMro isValid cell mro attached c) ∧
      ∀ base ∈ mro, cell ∈ attachAlongMro isValid cell mro attached base := by
  induction mro with
  | nil => exact fun _ => ⟨fun _ _ h _ => h, fun _ h => nomatch h⟩
  | cons base mro ih =>
      intro attached
      obtain ⟨hKept, hAll⟩ := ih (Function.update attached base
        (attachCell isValid (attached base) cell))
      refine ⟨fun c k hMem hk => hKept c k ?_ hk, fun b hb => ?_⟩
      · by_cases hc : c = base
        · rw [hc] at hMem ⊢
          rw [Function.update_self]
          exact mem_attachCell_of_valid hMem hk
        · rwa [Function.update_of_ne hc]
      · rcases List.mem_cons.mp hb with rfl | hRest
        · refine hKept _ _ ?_ hValid
          rw [Function.update_self]
          exact mem_attachCell_self _ _ _
        · exact hAll b hRest

/-- Installing a cell only attaches it. -/
structure OnlyAttaches (w w' : World V) : Prop where
  contents : SameContents w w'
  isValid : w'.isValid = w.isValid
  nextCell : w'.nextCell = w.nextCell
  cells : ∀ c, (w'.classes c).mroShapeAndContentsValidityCell =
    (w.classes c).mroShapeAndContentsValidityCell
  thunks : ∀ c, (w'.classes c).constructorThunk =
    (w.classes c).constructorThunk
  kept : ∀ c k, k ∈ (w.classes c).attachedCells → w.isValid k = true →
    k ∈ (w'.classes c).attachedCells

theorem installValidityCellAlongMro_attaches {cell : Nat} {bases : List V}
    {w : World V} (hValid : w.isValid cell = true) :
    OnlyAttaches w (installValidityCellAlongMro cell bases w) ∧
      ∀ base ∈ bases, cell ∈
        ((installValidityCellAlongMro cell bases w).classes
          base).attachedCells := by
  obtain ⟨hKept, hAll⟩ := attachAlongMro_spec hValid bases
    fun c => (w.classes c).attachedCells
  exact ⟨⟨⟨fun _ => rfl, fun _ => rfl, fun _ => rfl⟩, rfl, rfl, fun _ => rfl,
    fun _ => rfl, hKept⟩, hAll⟩

/-! ## Lookups keep the cells in order -/

/-- The world after a fresh cell has been given to a class. -/
theorem createValidityCellSlow_spec {noneValue : V} {w : World V} {cls : V}
    (hw : WellFormed noneValue w) :
    let r := createValidityCellSlow w cls
    WellFormed noneValue r.2 ∧ SameContents w r.2 ∧
      (r.2.classes cls).mroShapeAndContentsValidityCell = some r.1 ∧
      r.2.isValid r.1 = true ∧
      (r.2.classes cls).constructorThunk = none ∧
      r.2.nextCell = w.nextCell + 1 ∧
      (∀ k, k ≠ w.nextCell → r.2.isValid k = w.isValid k) ∧
      ∀ c, c ≠ cls → (r.2.classes c).mroShapeAndContentsValidityCell =
        (w.classes c).mroShapeAndContentsValidityCell := by
  intro r
  -- the world in which the cell is installed
  let start : World V :=
    { w.update cls
        { w.classes cls with
          constructorThunk := none
          mroShapeAndContentsValidityCell := some w.nextCell } with
      isValid := fun k => decide (k = w.nextCell) || w.isValid k
      nextCell := w.nextCell + 1 }
  have hStartClass : ∀ c, start.classes c =
      if c = cls then
        { w.classes cls with
          constructorThunk := none
          mroShapeAndContentsValidityCell := some w.nextCell }
      else w.classes c := fun c => rfl
  have hStartValid : start.isValid w.nextCell = true := by
    simp only [start, decide_true, Bool.true_or]
  have hSame : SameContents w start := by
    refine ⟨fun c => ?_, fun c => ?_, fun c => ?_⟩ <;>
    · rw [hStartClass]
      split
      · rename_i h
        rw [h]
      · rfl
  obtain ⟨hOnly, hAll⟩ := @installValidityCellAlongMro_attaches V _ w.nextCell
    (w.classes cls).bases start hStartValid
  have hResult : r =
      (w.nextCell, installValidityCellAlongMro w.nextCell
        (w.classes cls).bases start) := rfl
  have hOther : ∀ k, k ≠ w.nextCell → start.isValid k = w.isValid k := by
    intro k hk
    simp only [start, decide_eq_false hk, Bool.false_or]
  have hCells : ∀ c cell,
      (start.classes c).mroShapeAndContentsValidityCell = some cell →
        (c = cls ∧ cell = w.nextCell) ∨
          (c ≠ cls ∧ cell < w.nextCell ∧
            (w.classes c).mroShapeAndContentsValidityCell = some cell) := by
    intro c cell hCell
    rw [hStartClass] at hCell
    split at hCell
    · rename_i h
      exact Or.inl ⟨h, (Option.some.inj hCell).symm⟩
    · rename_i h
      exact Or.inr ⟨h, hw.fresh c cell hCell, hCell⟩
  rw [hResult]
  refine ⟨?_, hSame.trans hOnly.contents, ?_, ?_, ?_, ?_, ?_, ?_⟩
  · refine
      { fresh := fun c cell hCell => ?_
        owner := fun c c' cell hCell hCell' => ?_
        attached := fun c cell base hCell hValid hBase => ?_
        thunk := fun c cell t hCell hValid hThunk => ?_ }
    · rw [hOnly.cells] at hCell
      rw [hOnly.nextCell]
      rcases hCells c cell hCell with ⟨-, rfl⟩ | ⟨-, hLt, -⟩
      · exact Nat.lt_succ_self _
      · exact Nat.lt_succ_of_lt hLt
    · rw [hOnly.cells] at hCell hCell'
      rcases hCells c cell hCell with ⟨hc, hEq⟩ | ⟨-, hLt, hOld⟩ <;>
        rcases hCells c' cell hCell' with ⟨hc', hEq'⟩ | ⟨-, hLt', hOld'⟩
      · rw [hc, hc']
      · omega
      · omega
      · exact hw.owner c c' cell hOld hOld'
    · rw [hOnly.cells] at hCell
      rw [hOnly.isValid] at hValid
      rw [hOnly.contents.bases] at hBase
      rcases hCells c cell hCell with ⟨rfl, rfl⟩ | ⟨hNe, hLt, hOld⟩
      · rw [hSame.bases] at hBase
        exact hAll base hBase
      · refine hOnly.kept base cell ?_ hValid
        rw [hOther cell (Nat.ne_of_lt hLt)] at hValid
        rw [hSame.bases] at hBase
        have hAttached := hw.attached c cell base hOld hValid hBase
        rw [hStartClass]
        split
        · rename_i h
          rw [h] at hAttached
          exact hAttached
        · exact hAttached
    · rw [hOnly.cells] at hCell
      rw [hOnly.isValid] at hValid
      rw [hOnly.thunks] at hThunk
      rw [(hSame.trans hOnly.contents).constructorOf_eq]
      rcases hCells c cell hCell with ⟨rfl, rfl⟩ | ⟨hNe, hLt, hOld⟩
      · rw [hStartClass, if_pos rfl] at hThunk
        exact nomatch hThunk
      · rw [hOther cell (Nat.ne_of_lt hLt)] at hValid
        rw [hStartClass, if_neg hNe] at hThunk
        exact hw.thunk c cell t hOld hValid hThunk
  · rw [hOnly.cells, hStartClass, if_pos rfl]
  · rw [hOnly.isValid]
    exact hStartValid
  · rw [hOnly.thunks, hStartClass, if_pos rfl]
  · exact hOnly.nextCell
  · intro k hk
    rw [hOnly.isValid]
    exact hOther k hk
  · intro c hc
    rw [hOnly.cells, hStartClass, if_neg hc]

/-- Cells are made or kept, never taken from a class while valid. -/
structure Later (w w' : World V) : Prop where
  contents : SameContents w w'
  nextCell : w.nextCell ≤ w'.nextCell
  valid : ∀ k, k < w.nextCell → w'.isValid k = w.isValid k
  cells : ∀ c cell,
    (w.classes c).mroShapeAndContentsValidityCell = some cell →
    w.isValid cell = true →
      (w'.classes c).mroShapeAndContentsValidityCell = some cell

omit [DecidableEq V] in
theorem Later.refl (w : World V) : Later w w :=
  ⟨⟨fun _ => rfl, fun _ => rfl, fun _ => rfl⟩, Nat.le_refl _, fun _ _ => rfl,
    fun _ _ h _ => h⟩

theorem getOrCreateValidityCell_spec {noneValue : V} {w : World V} {cls : V}
    (hw : WellFormed noneValue w) :
    let r := getOrCreateValidityCell w cls
    WellFormed noneValue r.2 ∧ Later w r.2 ∧
      (r.2.classes cls).mroShapeAndContentsValidityCell = some r.1 ∧
      r.2.isValid r.1 = true := by
  obtain ⟨hWell, hSame, hCell, hValid, -, hNext, hOther, hKept⟩ :=
    @createValidityCellSlow_spec V _ noneValue w cls hw
  have hCreate : (∀ cell,
      (w.classes cls).mroShapeAndContentsValidityCell = some cell →
        w.isValid cell = false) →
      Later w (createValidityCellSlow w cls).2 := by
    intro hNone
    refine ⟨hSame, ?_, fun k hk => hOther k (Nat.ne_of_lt hk), ?_⟩
    · rw [hNext]
      exact Nat.le_succ _
    · intro c cell hOld hOldValid
      by_cases hc : c = cls
      · rw [hc] at hOld
        rw [hNone cell hOld] at hOldValid
        exact nomatch hOldValid
      · rw [hKept c hc]
        exact hOld
  intro r
  cases hOld : (w.classes cls).mroShapeAndContentsValidityCell with
  | none =>
      have hResult : r = createValidityCellSlow w cls := by
        simp only [r, getOrCreateValidityCell, hOld]
      rw [hResult]
      refine ⟨hWell, hCreate fun cell h => ?_, hCell, hValid⟩
      rw [hOld] at h
      exact nomatch h
  | some cell =>
      by_cases hOldValid : w.isValid cell = true
      · have hResult : r = (cell, w) := by
          simp only [r, getOrCreateValidityCell, hOld, hOldValid, if_true]
        rw [hResult]
        exact ⟨hw, Later.refl w, hOld, hOldValid⟩
      · have hResult : r = createValidityCellSlow w cls := by
          simp only [r, getOrCreateValidityCell, hOld, if_neg hOldValid]
        rw [hResult]
        refine ⟨hWell, hCreate fun k h => ?_, hCell, hValid⟩
        rw [hOld] at h
        rw [← Option.some.inj h]
        exact Bool.eq_false_iff.mpr hOldValid

theorem Later.trans {w w' w'' : World V} {noneValue : V}
    (hw : WellFormed noneValue w) (h : Later w w') (h' : Later w' w'') :
    Later w w'' where
  contents := h.contents.trans h'.contents
  nextCell := Nat.le_trans h.nextCell h'.nextCell
  valid k hk := (h'.valid k (Nat.lt_of_lt_of_le hk h.nextCell)).trans
    (h.valid k hk)
  cells c cell hCell hValid := by
    refine h'.cells c cell (h.cells c cell hCell hValid) ?_
    rw [h.valid cell (hw.fresh c cell hCell)]
    exact hValid

/-- Storing the thunk of a class only affects that class. -/
theorem storeThunk_spec {noneValue : V} {w : World V} {cls : V} {cell : Nat}
    {t : ConstructorFunction V} (hw : WellFormed noneValue w)
    (hCell : (w.classes cls).mroShapeAndContentsValidityCell = some cell)
    (hThunk : constructorOf noneValue w cls = .ok (some t)) :
    let w' := w.update cls
      { w.classes cls with constructorThunk := some t }
    WellFormed noneValue w' ∧ Later w w' ∧
      (w'.classes cls).mroShapeAndContentsValidityCell = some cell := by
  intro w'
  have hClass : ∀ c, w'.classes c =
      if c = cls then { w.classes cls with constructorThunk := some t }
      else w.classes c := fun c => rfl
  have hField : ∀ {α : Type} (field : ClassObject V → α) (c : V),
      field { w.classes cls with constructorThunk := some t } =
        field (w.classes cls) →
      field (w'.classes c) = field (w.classes c) := by
    intro α field c hSame
    rw [hClass]
    split
    · rename_i h
      rw [hSame, h]
    · rfl
  have hContents : SameContents w w' :=
    { attributes := fun c => hField _ c rfl
      bases := fun c => hField _ c rfl
      standardMetaclass := fun c => hField _ c rfl }
  have hCells : ∀ c, (w'.classes c).mroShapeAndContentsValidityCell =
      (w.classes c).mroShapeAndContentsValidityCell :=
    fun c => hField _ c rfl
  have hAttached : ∀ c, (w'.classes c).attachedCells =
      (w.classes c).attachedCells := fun c => hField _ c rfl
  refine ⟨?_, ⟨hContents, Nat.le_refl _, fun _ _ => rfl,
    fun c k h _ => (hCells c).trans h⟩, (hCells cls).trans hCell⟩
  refine
    { fresh := fun c k h => hw.fresh c k ((hCells c).symm.trans h)
      owner := fun c c' k h h' => hw.owner c c' k
        ((hCells c).symm.trans h) ((hCells c').symm.trans h')
      attached := fun c k base h hValid hBase => ?_
      thunk := fun c k t' h hValid hStored => ?_ }
  · rw [hContents.bases] at hBase
    rw [hAttached]
    exact hw.attached c k base ((hCells c).symm.trans h) hValid hBase
  · rw [hContents.constructorOf_eq]
    rw [hClass] at hStored
    split at hStored
    · rename_i hc
      rw [hc, hThunk, Option.some.inj hStored]
    · exact hw.thunk c k t' ((hCells c).symm.trans h) hValid hStored

/-- A lookup finds the constructor that the attributes call for, with a valid
cell of the class. -/
structure FindsConstructor (noneValue : V) (w : World V) (cls : V)
    (r : Except BuiltinException (Option (ConstructorFunction V × Nat)) ×
      World V) : Prop where
  wellFormed : WellFormed noneValue r.2
  later : Later w r.2
  answer : match constructorOf noneValue w cls with
    | .error e => r.1 = .error e
    | .ok none => r.1 = .ok none
    | .ok (some t) => ∃ cell, r.1 = .ok (some (t, cell)) ∧
        (r.2.classes cls).mroShapeAndContentsValidityCell = some cell ∧
        r.2.isValid cell = true

theorem createConstructorThunkSlow_spec {noneValue : V} {w : World V}
    {cls : V} (hw : WellFormed noneValue w) :
    FindsConstructor noneValue w cls
      (createConstructorThunkSlow noneValue w cls) := by
  rw [createConstructorThunkSlow]
  by_cases hMetaclass : (w.classes cls).standardMetaclass = true
  · obtain ⟨hWell, hLater, hCell, hValid⟩ :=
      @getOrCreateValidityCell_spec V _ noneValue w cls hw
    have hConstructor := hLater.contents.constructorOf_eq noneValue cls
    have hStandard := hLater.contents.standardMetaclass cls
    have hResolve : constructorOf noneValue w cls =
        resolveConstructor noneValue (getOrCreateValidityCell w cls).2 cls := by
      rw [← hConstructor, constructorOf, hStandard, if_pos hMetaclass]
    have hGuard : ¬ (w.classes cls).standardMetaclass = false := by
      rw [hMetaclass]
      exact Bool.noConfusion
    rw [if_neg hGuard]
    generalize getOrCreateValidityCell w cls = new
      at hWell hLater hCell hValid hConstructor hResolve ⊢
    obtain ⟨lookupCell, w'⟩ := new
    simp only at hWell hLater hCell hValid hConstructor hResolve ⊢
    cases hThunk : (w'.classes cls).constructorThunk with
    | some existing =>
        refine ⟨hWell, hLater, ?_⟩
        rw [← hConstructor,
          hWell.thunk cls lookupCell existing hCell hValid hThunk]
        exact ⟨lookupCell, rfl, hCell, hValid⟩
    | none =>
        cases hFound : resolveConstructor noneValue w' cls with
        | error e =>
            refine ⟨hWell, hLater, ?_⟩
            rw [hResolve, hFound]
        | ok found =>
            cases found with
            | none =>
                refine ⟨hWell, hLater, ?_⟩
                rw [hResolve, hFound]
            | some t =>
                obtain ⟨hWellStored, hLaterStored, hCellStored⟩ :=
                  storeThunk_spec hWell hCell (hConstructor.trans
                    (hResolve.trans hFound))
                refine ⟨hWellStored, hLater.trans hw hLaterStored, ?_⟩
                rw [hResolve, hFound]
                exact ⟨lookupCell, rfl, hCellStored, hValid⟩
  · rw [if_pos (Bool.eq_false_iff.mpr hMetaclass)]
    refine ⟨hw, Later.refl w, ?_⟩
    rw [constructorOf, if_neg hMetaclass]

theorem getOrCreateConstructorThunk_spec {noneValue : V} {w : World V}
    {cls : V} (hw : WellFormed noneValue w) :
    FindsConstructor noneValue w cls
      (getOrCreateConstructorThunk noneValue w cls) := by
  have hSlow := @createConstructorThunkSlow_spec V _ noneValue w cls hw
  simp only [getOrCreateConstructorThunk]
  split
  · rename_i thunk cell hThunk hCell
    split
    · rename_i hValid
      refine ⟨hw, Later.refl w, ?_⟩
      rw [hw.thunk cls cell thunk hCell hValid hThunk]
      exact ⟨cell, rfl, hCell, hValid⟩
    · exact hSlow
  · exact hSlow

/-! ## Writes keep the cells in order -/

/-- The contents of a class whose cell is still valid after a write are
unchanged. -/
theorem setAttribute_spec {noneValue : V} {w : World V} {cls : V}
    {name : String} {value : Option (Attribute V)}
    (hw : WellFormed noneValue w) :
    let w' := setAttribute w cls name value
    WellFormed noneValue w' ∧ w'.nextCell = w.nextCell ∧
      (∀ k, w'.isValid k = true → w.isValid k = true) ∧
      ∀ c cell, (w.classes c).mroShapeAndContentsValidityCell = some cell →
        w'.isValid cell = true →
          (w'.classes c).mroShapeAndContentsValidityCell = some cell ∧
          constructorOf noneValue w' c = constructorOf noneValue w c := by
  intro w'
  have hClass : ∀ c, w'.classes c =
      if c = cls then
        { w.classes cls with
          attributes := fun n =>
            if n = name then value else (w.classes cls).attributes n
          constructorThunk := none
          attachedCells := []
          mroShapeAndContentsValidityCell := none }
      else w.classes c := by
    intro c
    simp only [w', setAttribute, invalidateLookupValidityCells,
      World.update_classes, if_true]
    split
    · rfl
    · rfl
  have hIsValid : ∀ k, w'.isValid k =
      (!decide (k ∈ (w.classes cls).attachedCells) &&
        !decide ((w.classes cls).mroShapeAndContentsValidityCell = some k) &&
        w.isValid k) := by
    intro k
    simp only [w', setAttribute, invalidateLookupValidityCells,
      World.update_classes, if_true]
    rfl
  have hWas : ∀ k, w'.isValid k = true → w.isValid k = true := by
    intro k hk
    rw [hIsValid] at hk
    exact (Bool.and_eq_true_iff.mp hk).2
  have hNotWritten : ∀ c cell,
      (w.classes c).mroShapeAndContentsValidityCell = some cell →
      w'.isValid cell = true → c ≠ cls ∧ cls ∉ (w.classes c).bases := by
    intro c cell hCell hValid
    have hOld := hWas cell hValid
    rw [hIsValid] at hValid
    simp only [Bool.and_eq_true, Bool.not_eq_true', decide_eq_false_iff_not]
      at hValid
    refine ⟨?_, fun hBase => ?_⟩
    · rintro rfl
      exact hValid.1.2 hCell
    · exact hValid.1.1 (hw.attached c cell cls hCell hOld hBase)
  have hSame : ∀ c cell,
      (w.classes c).mroShapeAndContentsValidityCell = some cell →
      w'.isValid cell = true →
        constructorOf noneValue w' c = constructorOf noneValue w c := by
    intro c cell hCell hValid
    obtain ⟨hNe, hBases⟩ := hNotWritten c cell hCell hValid
    have hSelf : w'.classes c = w.classes c := by rw [hClass, if_neg hNe]
    refine constructorOf_congr (fun c' hMem => ?_) (by rw [hSelf])
      (by rw [hSelf])
    rw [hClass, if_neg]
    rintro rfl
    rcases List.mem_cons.mp hMem with h | h
    · exact hNe h.symm
    · exact hBases h
  have hCells : ∀ c cell,
      (w'.classes c).mroShapeAndContentsValidityCell = some cell →
        c ≠ cls ∧
          (w.classes c).mroShapeAndContentsValidityCell = some cell := by
    intro c cell hCell
    rw [hClass] at hCell
    split at hCell
    · exact nomatch hCell
    · rename_i h
      exact ⟨h, hCell⟩
  refine ⟨?_, rfl, hWas, fun c cell hCell hValid => ?_⟩
  · refine
      { fresh := fun c cell hCell => hw.fresh c cell (hCells c cell hCell).2
        owner := fun c c' cell hCell hCell' =>
          hw.owner c c' cell (hCells c cell hCell).2 (hCells c' cell hCell').2
        attached := fun c cell base hCell hValid hBase => ?_
        thunk := fun c cell t hCell hValid hThunk => ?_ }
    · obtain ⟨hNe, hOld⟩ := hCells c cell hCell
      rw [hClass, if_neg hNe] at hBase
      have hNotBase := (hNotWritten c cell hOld hValid).2
      have hAttached := hw.attached c cell base hOld (hWas cell hValid) hBase
      rw [hClass, if_neg]
      · exact hAttached
      · rintro rfl
        exact hNotBase hBase
    · obtain ⟨hNe, hOld⟩ := hCells c cell hCell
      rw [hClass, if_neg hNe] at hThunk
      rw [hSame c cell hOld hValid]
      exact hw.thunk c cell t hOld (hWas cell hValid) hThunk
  · obtain ⟨hNe, -⟩ := hNotWritten c cell hCell hValid
    refine ⟨?_, hSame c cell hCell hValid⟩
    rw [hClass, if_neg hNe]
    exact hCell

end CloverVM.ObjectModel.ClassObject
