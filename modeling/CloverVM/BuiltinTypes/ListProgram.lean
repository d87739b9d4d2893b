import CloverVM.BuiltinTypes.ListObject

/-!
# Programs over lists

A program is a run of list operations on a heap of lists: methods that change
a list, and expressions that make a new one.  The native code works on arrays
of values; the reference works on Python's lists, which are just their items.
The native run answers what the reference answers and keeps representing its
heap.  It never does anything undefined, and it is ended early only where a
list would grow past the SMI range.
-/

namespace CloverVM.BuiltinTypes.ListObject

open CloverVM.Machine CloverVM.ObjectModel CloverVM.Runtime
open CloverVM.ObjectModel.ValueArray
open CloverVM.BuiltinTypes.Slice

/-- Lists by their identity; a new list gets the next one. -/
structure Heap (α : Type) where
  lists : Nat → α
  next : Nat

section Heaps

variable {α : Type}

def Heap.write (h : Heap α) (id : Nat) (list : α) : Heap α :=
  { h with lists := Function.update h.lists id list }

def Heap.allocate (h : Heap α) (list : α) : Heap α :=
  { h with lists := Function.update h.lists h.next list, next := h.next + 1 }

end Heaps

/-- An index that fits an SMI. -/
abbrev SmiIndex := { i : Int // SmiRange i }

/-- The operations, on lists by their identity. -/
inductive Operation where
  | append (self : Nat) (value : Value)
  | insert (self : Nat) (index : SmiIndex) (value : Value)
  | pop (self : Nat) (index : SmiIndex)
  | getItem (self : Nat) (index : SmiIndex)
  | setItem (self : Nat) (index : SmiIndex) (value : Value)
  | delItem (self : Nat) (index : SmiIndex)
  | slice (self : Nat) (start stop step : Option SmiIndex)
  | extendList (self other : Nat)
  | extendTuple (self : Nat) (other : TupleObject)
  | reverse (self : Nat)
  | copy (self : Nat)
  | concat (self other : Nat)
  | clear (self : Nat)

inductive Answer where
  | none
  | value (value : Value)
  | list (id : Nat)
deriving DecidableEq, Repr

/-! ## Native code -/

/-- `extend_from_list`: the lists may be the same one. -/
def extendFromList (h : Heap ValueArray) (self other : Nat) :
    Except Halt (Heap ValueArray) :=
  let originalSize := (h.lists other).size
  forUp
    (fun idx h => do
      let item ← (h.lists other).get idx
      let list ← append (h.lists self) item
      .ok (h.write self list))
    originalSize 0 h

/-- A field of a slice. -/
def sliceField : Option SmiIndex → IndexValue
  | none => .none
  | some i => .integer (.smi (Value.ofInt i.1))

/-- The native function behind an operation. -/
def step (h : Heap ValueArray) : Operation →
    Except Halt (Heap ValueArray × Except BuiltinException Answer)
  | .append self value => do
      let list ← append (h.lists self) value
      .ok (h.write self list, .ok .none)
  | .insert self index value => do
      let list ← insertItem (h.lists self) index.1 value
      .ok (h.write self list, .ok .none)
  | .pop self index => do
      match ← popItem (h.lists self) index.1 with
      | .error e => .ok (h, .error e)
      | .ok (removed, list) => .ok (h.write self list, .ok (.value removed))
  | .getItem self index => do
      match ← getItem (h.lists self) index.1 with
      | .error e => .ok (h, .error e)
      | .ok item => .ok (h, .ok (.value item))
  | .setItem self index value => do
      match ← setItem (h.lists self) index.1 value with
      | .error e => .ok (h, .error e)
      | .ok list => .ok (h.write self list, .ok .none)
  | .delItem self index => do
      match ← popItem (h.lists self) index.1 with
      | .error e => .ok (h, .error e)
      | .ok (_, list) => .ok (h.write self list, .ok .none)
  | .slice self start stop step => do
      match ← getSlice (h.lists self)
          (makeSlice (sliceField start) (sliceField stop) (sliceField step))
        with
      | .error e => .ok (h, .error e)
      | .ok list => .ok (h.allocate list, .ok (.list h.next))
  | .extendList self other => do
      let h ← extendFromList h self other
      .ok (h, .ok .none)
  | .extendTuple self other => do
      let list ← extendFromTuple (h.lists self) other
      .ok (h.write self list, .ok .none)
  | .reverse self => do
      let list ← reverse (h.lists self)
      .ok (h.write self list, .ok .none)
  | .copy self => do
      let list ← copy (h.lists self)
      .ok (h.allocate list, .ok (.list h.next))
  | .concat self other => do
      let list ← concat (h.lists self) (h.lists other)
      .ok (h.allocate list, .ok (.list h.next))
  | .clear self => do
      let list ← (h.lists self).clear
      .ok (h.write self list, .ok .none)

/-- The heap and the answers of a program. -/
def run : List Operation → Heap ValueArray →
    Except Halt (Heap ValueArray × List (Except BuiltinException Answer))
  | [], h => .ok (h, [])
  | op :: ops, h => do
      let first ← step h op
      let rest ← run ops first.1
      .ok (rest.1, first.2 :: rest.2)

/-- An answer, with an exception by the name of its class. -/
abbrev PythonAnswer := Except String Answer

/-- The operation on Python's lists. -/
def pythonStep (p : Heap (List Value)) : Operation →
    Heap (List Value) × PythonAnswer
  | .append self value => (p.write self (p.lists self ++ [value]), .ok .none)
  | .insert self index value =>
      let items := p.lists self
      (p.write self
        (items.insertIdx (pythonInsertionIndex items.length index.1) value),
        .ok .none)
  | .pop self index =>
      let items := p.lists self
      match (pythonIndex items.length index.1).bind
          fun k => items[k]?.map (k, ·) with
      | none => (p, .error "IndexError")
      | some (k, item) =>
          (p.write self (items.eraseIdx k), .ok (.value item))
  | .getItem self index =>
      let items := p.lists self
      match (pythonIndex items.length index.1).bind (items[·]?) with
      | none => (p, .error "IndexError")
      | some item => (p, .ok (.value item))
  | .setItem self index value =>
      let items := p.lists self
      match pythonIndex items.length index.1 with
      | none => (p, .error "IndexError")
      | some k => (p.write self (items.set k value), .ok .none)
  | .delItem self index =>
      let items := p.lists self
      match pythonIndex items.length index.1 with
      | none => (p, .error "IndexError")
      | some k => (p.write self (items.eraseIdx k), .ok .none)
  | .slice self start stop step =>
      if step.map Subtype.val = some 0 then (p, .error "ValueError")
      else
        (p.allocate (pythonSlice (p.lists self) (start.map Subtype.val)
          (stop.map Subtype.val) (step.map Subtype.val)), .ok (.list p.next))
  | .extendList self other =>
      (p.write self (p.lists self ++ p.lists other), .ok .none)
  | .extendTuple self other =>
      (p.write self (p.lists self ++ other.items), .ok .none)
  | .reverse self => (p.write self (p.lists self).reverse, .ok .none)
  | .copy self => (p.allocate (p.lists self), .ok (.list p.next))
  | .concat self other =>
      (p.allocate (p.lists self ++ p.lists other), .ok (.list p.next))
  | .clear self => (p.write self [], .ok .none)

def pythonRun : List Operation → Heap (List Value) →
    Heap (List Value) × List PythonAnswer
  | [], p => (p, [])
  | op :: ops, p =>
      let first := pythonStep p op
      let rest := pythonRun ops first.1
      (rest.1, first.2 :: rest.2)

/-- Every list has a size that is an SMI. -/
def SizesFit (p : Heap (List Value)) : Prop :=
  ∀ id, (p.lists id).length ≤ arraySizeMax

/-- So it is after every operation of a program. -/
def SizesFitThroughout : List Operation → Heap (List Value) → Prop
  | [], _ => True
  | op :: ops, p => SizesFit (pythonStep p op).1 ∧
      SizesFitThroughout ops (pythonStep p op).1

/-! ## Representation -/

/-- Every array holds the items of the list with its identity. -/
structure Represents (h : Heap ValueArray) (p : Heap (List Value)) :
    Prop where
  next : h.next = p.next
  lists : ∀ id, (h.lists id).Holds (p.lists id)

/-- The answer of native code as Python tells it. -/
def pythonAnswer : Except BuiltinException Answer → PythonAnswer
  | .ok answer => .ok answer
  | .error e => .error e.typeName

/-- Native code from `h` ends as Python does; an exception changes nothing. -/
structure StepAgrees (h : Heap ValueArray)
    (native : Heap ValueArray × Except BuiltinException Answer)
    (python : Heap (List Value) × PythonAnswer) : Prop where
  represents : Represents native.1 python.1
  answer : pythonAnswer native.2 = python.2
  unchanged : ∀ e, native.2 = .error e → native.1 = h

/-- The process is ended, and a list would have been too large. -/
def Overflows (p : Heap (List Value)) (reason : Halt) : Prop :=
  reason = arraySizeError ∧ ¬ SizesFit p

section Steps

variable {h : Heap ValueArray} {p : Heap (List Value)}

theorem Represents.write (hr : Represents h p) (id : Nat) {list : ValueArray}
    {items : List Value} (hList : list.Holds items) :
    Represents (h.write id list) (p.write id items) where
  next := hr.next
  lists := by
    intro other
    by_cases hSame : other = id
    · subst hSame
      simp only [Heap.write, Function.update_self]
      exact hList
    · simp only [Heap.write, Function.update_of_ne hSame]
      exact hr.lists other

theorem Represents.allocate (hr : Represents h p) {list : ValueArray}
    {items : List Value} (hList : list.Holds items) :
    Represents (h.allocate list) (p.allocate items) where
  next := congrArg (· + 1) hr.next
  lists := by
    intro other
    simp only [Heap.allocate, ← hr.next]
    by_cases hSame : other = h.next
    · subst hSame
      simp only [Function.update_self]
      exact hList
    · simp only [Function.update_of_ne hSame]
      exact hr.lists other

/-- A list that is represented has a size that fits. -/
theorem Represents.sizesFit (hr : Represents h p) : SizesFit p :=
  fun id => (hr.lists id).length_le

theorem sizesFit_write (hFit : SizesFit p) (id : Nat) {items : List Value}
    (hSize : items.length ≤ arraySizeMax) : SizesFit (p.write id items) := by
  intro other
  by_cases hSame : other = id
  · subst hSame
    simp only [Heap.write, Function.update_self]
    exact hSize
  · simp only [Heap.write, Function.update_of_ne hSame]
    exact hFit other

theorem overflows_write (p : Heap (List Value)) (id : Nat)
    {items : List Value} {reason : Halt} (h : TooLarge items.length reason) :
    Overflows (p.write id items) reason := by
  refine ⟨h.1, fun hFit => ?_⟩
  have hSize := hFit id
  simp only [Heap.write, Function.update_self] at hSize
  have hLarge := h.2
  omega

theorem overflows_allocate (p : Heap (List Value)) {items : List Value}
    {reason : Halt} (h : TooLarge items.length reason) :
    Overflows (p.allocate items) reason := by
  refine ⟨h.1, fun hFit => ?_⟩
  have hSize := hFit p.next
  simp only [Heap.allocate, Function.update_self] at hSize
  have hLarge := h.2
  omega

/-- An operation that changes a list. -/
theorem write_ends (hr : Represents h p) (id : Nat)
    {change : Except Halt ValueArray} {items : List Value}
    (hChange : Ends change (Holds · items) (TooLarge items.length)) :
    Ends (change >>= fun list => .ok (h.write id list, .ok .none))
      (StepAgrees h · (p.write id items, .ok .none))
      (Overflows (p.write id items)) := by
  have hChange := hChange.mono (fun _ hl => hl)
    fun _ he => overflows_write p id he
  exact hChange.bind fun list hList => ⟨hr.write id hList, rfl, nofun⟩

/-- An operation that makes a list. -/
theorem allocate_ends (hr : Represents h p)
    {make : Except Halt ValueArray} {items : List Value}
    (hMake : Ends make (Holds · items) (TooLarge items.length)) :
    Ends (make >>= fun list => .ok (h.allocate list, .ok (.list h.next)))
      (StepAgrees h · (p.allocate items, .ok (.list p.next)))
      (Overflows (p.allocate items)) := by
  have hMake := hMake.mono (fun _ hl => hl)
    fun _ he => overflows_allocate p he
  refine hMake.bind fun list hList => ⟨hr.allocate hList, ?_, nofun⟩
  rw [hr.next]
  rfl

/-- An operation that raises an exception. -/
theorem raises_agrees (hr : Represents h p) (e : BuiltinException) :
    StepAgrees h (h, .error e) (p, .error e.typeName) :=
  ⟨hr, rfl, fun _ _ => rfl⟩

/-- The item that a turn of `extend_from_list` reads, also where the list that
is read is the one that grows. -/
theorem item_of_extended (p : Heap (List Value)) (self other : Nat)
    {idx : Nat} (hIdx : idx < (p.lists other).length) :
    ((p.write self (p.lists self ++ (p.lists other).take idx)).lists
      other)[idx]? = (p.lists other)[idx]? := by
  by_cases hSame : other = self
  · subst hSame
    simp only [Heap.write, Function.update_self]
    exact List.getElem?_append_left hIdx
  · simp only [Heap.write, Function.update_of_ne hSame]

theorem extendFromList_ends (hr : Represents h p) (self other : Nat) :
    Ends (extendFromList h self other)
      (Represents · (p.write self (p.lists self ++ p.lists other)))
      (Overflows (p.write self (p.lists self ++ p.lists other))) := by
  unfold extendFromList
  dsimp only
  rw [(hr.lists other).size]
  refine (@forUp_ends _ _ _ (fun idx => (Represents ·
    (p.write self (p.lists self ++ (p.lists other).take idx)))) _ 0
    (p.lists other).length ?_ (p.lists other).length 0 h (Nat.le_refl _)
    (Nat.zero_add _) ?_).mono ?_ fun _ he => he
  · intro idx current _ hIdx hCurrent
    have hItem := List.getElem?_eq_getElem hIdx
    rw [bind_ok ((hCurrent.lists other).get
      ((item_of_extended p self other hIdx).trans hItem))]
    have hAppend := (hCurrent.lists self).pushBack_ends (p.lists other)[idx]
    simp only [Heap.write, Function.update_self] at hAppend
    refine (hAppend.mono (fun _ hl => hl) ?_).bind ?_
    · rintro e ⟨rfl, hLarge⟩
      refine overflows_write p self ⟨rfl, ?_⟩
      rw [List.length_append, List.length_take_of_le hIdx.le] at hLarge
      rw [List.length_append]
      omega
    · intro list hList
      have hNext := hCurrent.write self hList
      rw [List.append_assoc, ← Option.toList_some, ← hItem,
        ← List.take_add_one] at hNext
      simp only [Heap.write, Function.update_idem] at hNext ⊢
      exact hNext
  · rw [List.take_zero, List.append_nil]
    have hSame := hr.write self (hr.lists self)
    simp only [Heap.write, Function.update_eq_self] at hSame ⊢
    exact hSame
  · intro last hLast
    rwa [List.take_length] at hLast

theorem integral_sliceField (i : Option SmiIndex) :
    Integral (sliceField i) (i.map Subtype.val) := by
  cases i with
  | none => exact .omitted
  | some i =>
      have hSmi := Integral.smi (Value.ofInt i.1)
      rwa [smi_ofInt i.2] at hSmi

theorem fitSmi_val (start stop step : Option SmiIndex) :
    FitSmi (start.map Subtype.val) (stop.map Subtype.val)
      (step.map Subtype.val) := by
  have hFits : ∀ (bound : Option SmiIndex),
      ∀ i ∈ bound.map Subtype.val, SmiRange i := by
    intro bound i hi
    obtain ⟨index, -, rfl⟩ := Option.map_eq_some_iff.mp hi
    exact index.2
  exact ⟨hFits start, hFits stop, hFits step⟩

/-- **One operation** answers what Python answers. -/
theorem step_ends (hr : Represents h p) (op : Operation) :
    Ends (step h op) (StepAgrees h · (pythonStep p op))
      (Overflows (pythonStep p op).1) := by
  cases op with
  | append self value =>
      have hAppend := (hr.lists self).pushBack_ends value
      rw [← List.length_singleton (a := value), ← List.length_append]
        at hAppend
      exact write_ends hr self hAppend
  | insert self index value =>
      have hInsert := insertItem_ends (hr.lists self) index.2 value
      rw [← List.length_insertIdx_of_le_length
        (pythonInsertionIndex_le _ index.1) value] at hInsert
      exact write_ends hr self hInsert
  | pop self index =>
      have hList := hr.lists self
      rw [step, pythonStep]
      cases hk : pythonIndex (p.lists self).length index.1 with
      | none =>
          rw [bind_ok (popItem_none hList index.2 hk)]
          exact raises_agrees hr listIndexError
      | some k =>
          have hItem := List.getElem?_eq_getElem (pythonIndex_lt hk)
          rw [Option.bind_some, hItem]
          refine (popItem_some hList index.2 hk hItem).bind ?_
          rintro answer ⟨list, rfl, hPopped⟩
          exact ⟨hr.write self hPopped, rfl, nofun⟩
  | getItem self index =>
      have hList := hr.lists self
      rw [step, pythonStep]
      cases hk : pythonIndex (p.lists self).length index.1 with
      | none =>
          rw [bind_ok (getItem_none hList index.2 hk)]
          exact raises_agrees hr listIndexError
      | some k =>
          have hItem := List.getElem?_eq_getElem (pythonIndex_lt hk)
          rw [Option.bind_some, hItem,
            bind_ok (getItem_some hList index.2 hk hItem)]
          exact ⟨hr, rfl, nofun⟩
  | setItem self index value =>
      have hList := hr.lists self
      rw [step, pythonStep]
      cases hk : pythonIndex (p.lists self).length index.1 with
      | none =>
          rw [bind_ok (setItem_none hList index.2 value hk)]
          exact raises_agrees hr listIndexError
      | some k =>
          refine (setItem_some hList index.2 value hk).bind ?_
          rintro answer ⟨list, rfl, hSet⟩
          exact ⟨hr.write self hSet, rfl, nofun⟩
  | delItem self index =>
      have hList := hr.lists self
      rw [step, pythonStep]
      cases hk : pythonIndex (p.lists self).length index.1 with
      | none =>
          rw [bind_ok (popItem_none hList index.2 hk)]
          exact raises_agrees hr listIndexError
      | some k =>
          have hItem := List.getElem?_eq_getElem (pythonIndex_lt hk)
          refine (popItem_some hList index.2 hk hItem).bind ?_
          rintro answer ⟨list, rfl, hPopped⟩
          exact ⟨hr.write self hPopped, rfl, nofun⟩
  | slice self start stop step =>
      have hStepField := integral_sliceField step
      rw [ListObject.step, pythonStep]
      by_cases hZero : step.map Subtype.val = some 0
      · rw [if_pos hZero]
        rw [hZero] at hStepField
        rw [bind_ok (getSlice_zero _ _ _ hStepField)]
        exact raises_agrees hr sliceStepZeroError
      · rw [if_neg hZero]
        have hSlice := getSlice_ends (hr.lists self)
          (integral_sliceField start) (integral_sliceField stop) hStepField
          hZero (fitSmi_val start stop step)
        refine (hSlice.mono (fun _ hl => hl)
          fun _ he => overflows_allocate p he).bind ?_
        rintro answer ⟨list, rfl, hList⟩
        refine ⟨hr.allocate hList, ?_, nofun⟩
        rw [← hr.next]
        rfl
  | extendList self other =>
      exact (extendFromList_ends hr self other).bind fun next hNext =>
        ⟨hNext, rfl, nofun⟩
  | extendTuple self other =>
      exact write_ends hr self (extendFromTuple_ends (hr.lists self) other)
  | reverse self => exact write_ends hr self (reverse_ends (hr.lists self))
  | copy self => exact allocate_ends hr (copy_ends (hr.lists self))
  | concat self other =>
      exact allocate_ends hr (concat_ends (hr.lists self) (hr.lists other))
  | clear self => exact write_ends hr self (hr.lists self).clear_ends

end Steps

/-! ## Programs -/

section Programs

variable {h : Heap ValueArray} {p : Heap (List Value)}

theorem run_ends : ∀ (ops : List Operation) {h : Heap ValueArray}
    {p : Heap (List Value)}, Represents h p →
    Ends (run ops h)
      (fun r => Represents r.1 (pythonRun ops p).1 ∧
        r.2.map pythonAnswer = (pythonRun ops p).2 ∧
        SizesFitThroughout ops p)
      (fun e => e = arraySizeError ∧ ¬ SizesFitThroughout ops p) := by
  intro ops
  induction ops with
  | nil => exact fun hr => ⟨hr, rfl, trivial⟩
  | cons op ops ih =>
      intro h p hr
      rw [run, pythonRun]
      have hStep := step_ends hr op
      refine (hStep.mono (fun _ hr => hr) ?_).bind fun first hFirst => ?_
      · rintro e ⟨rfl, hLarge⟩
        exact ⟨rfl, fun hFit => hLarge hFit.1⟩
      · have hRest := ih hFirst.represents
        refine (hRest.mono (fun _ hr => hr) ?_).bind fun rest hRest => ?_
        · rintro e ⟨rfl, hLarge⟩
          exact ⟨rfl, fun hFit => hLarge hFit.2⟩
        · obtain ⟨hHeap, hAnswers, hSizes⟩ := hRest
          refine ⟨hHeap, ?_, hFirst.represents.sizesFit, hSizes⟩
          rw [List.map_cons, hFirst.answer, hAnswers]

/-- **Programs over lists**: the native run answers what Python answers and
represents its lists, with every access inside the arrays; it is ended early
exactly when a list would grow past the SMI range.  An operation that raises
an exception, as `IndexError` where Python does, changes nothing. -/
theorem run_refines_python (hr : Represents h p) (ops : List Operation) :
    (SizesFitThroughout ops p →
      ∃ h' answers, run ops h = .ok (h', answers) ∧
        Represents h' (pythonRun ops p).1 ∧
        answers.map pythonAnswer = (pythonRun ops p).2) ∧
    (¬ SizesFitThroughout ops p → run ops h = .error arraySizeError) ∧
    ∀ before op after h₁ answers h₂ e, ops = before ++ op :: after →
      run before h = .ok (h₁, answers) → step h₁ op = .ok (h₂, .error e) →
      h₂ = h₁ := by
  have hRun := run_ends ops hr
  refine ⟨?_, ?_, ?_⟩
  · intro hFit
    obtain ⟨⟨h', answers⟩, hOk, hHeap, hAnswers, -⟩ :=
      (hRun.mono (fun _ h => h) fun e he => he.2 hFit).exists_ok
    exact ⟨h', answers, hOk, hHeap, hAnswers⟩
  · intro hLarge
    cases hResult : run ops h with
    | ok r =>
        rw [hResult] at hRun
        exact absurd hRun.2.2 hLarge
    | error e =>
        rw [hResult] at hRun
        rw [hRun.1]
  · intro before op after h₁ answers h₂ e _ hBefore hStep
    have hReached := run_ends before hr
    rw [hBefore] at hReached
    have hAgrees := step_ends hReached.1 op
    rw [hStep] at hAgrees
    exact hAgrees.unchanged e rfl

end Programs

/-- A list that is extended with itself, and read past its end. -/
def selfExtension : List Operation :=
  [.append 0 (Value.ofInt 7), .extendList 0 0,
    .insert 0 ⟨-1, by decide⟩ (Value.ofInt 8), .pop 0 ⟨3, by decide⟩]

theorem run_refines_python_selfExtension :
    ∃ h' answers,
      run selfExtension ⟨fun _ => ValueArray.empty, 1⟩ = .ok (h', answers) ∧
      (h'.lists 0).Holds [Value.ofInt 7, Value.ofInt 8, Value.ofInt 7] ∧
      answers.map pythonAnswer =
        [.ok .none, .ok .none, .ok .none, .error "IndexError"] := by
  have hEmpty : Represents ⟨fun _ => ValueArray.empty, 1⟩
      ⟨fun _ => [], 1⟩ := ⟨rfl, fun _ => holds_empty⟩
  have hFirst := sizesFit_write hEmpty.sizesFit 0
    (show [Value.ofInt 7].length ≤ arraySizeMax by decide)
  have hSecond := sizesFit_write hFirst 0
    (show [Value.ofInt 7, Value.ofInt 7].length ≤ arraySizeMax by decide)
  have hThird := sizesFit_write hSecond 0
    (show [Value.ofInt 7, Value.ofInt 8, Value.ofInt 7].length ≤
      arraySizeMax by decide)
  have hSmall : SizesFitThroughout selfExtension ⟨fun _ => [], 1⟩ :=
    ⟨hFirst, hSecond, hThird, hThird, trivial⟩
  obtain ⟨h', answers, hRun, hHeap, hAnswers⟩ :=
    (run_refines_python hEmpty selfExtension).1 hSmall
  exact ⟨h', answers, hRun, hHeap.lists 0, hAnswers⟩

end CloverVM.BuiltinTypes.ListObject
