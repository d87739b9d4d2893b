import CloverVM.BuiltinTypes.ListObject

/-!
# Searching lists and tuples

`count`, `index` and `remove` of lists and tuples compare the words of two
values.  The `in` operator finds no `__contains__` on them and falls back to a
loop in Python, which asks `==`.  Python's own methods take an item that is
identical or equal to the value searched for.  So the methods are right, and
agree with `in`, exactly for a value that the items are equal to only when they
are identical to it, and that is equal to itself where it is an item: a `True`
or a large integer in the sequence, or a value that is not equal to itself,
breaks them.
-/

namespace CloverVM.BuiltinTypes.SequenceSearch

open CloverVM.Machine CloverVM.ObjectModel CloverVM.Runtime
open CloverVM.ObjectModel.ValueArray
open CloverVM.BuiltinTypes.ListObject

def valuePtrMask : BitVec 64 := 0x18#64

def isPtr (v : Value) : Bool := !(v.integer &&& valuePtrMask == 0#64)

/-- `op_eq`, as the truth of its result.  Where a heap object is compared, the
`__eq__` methods are asked. -/
def opEq (dispatch : Value → Value → Bool) (a b : Value) : Bool :=
  if !isPtr a && !isPtr b then
    (a.integer ^^^ b.integer) &&& valueBooleanToIntegerMask == 0#64
  else dispatch a b

/-! ## Sequences -/

/-- The size of a list or tuple, and the reading of an item. -/
structure Container where
  size : Nat
  itemUnchecked : Nat → Except Halt Value

def listContainer (self : ValueArray) : Container := ⟨self.size, self.get⟩

def tupleContainer (self : TupleObject) : Container :=
  ⟨self.items.length, self.itemUnchecked⟩

/-- A next step of `list_iterator` or `tuple_iterator`: the item and the index
after it, until there is none. -/
def iteratorNext (c : Container) (index : Nat) :
    Except Halt (Option (Value × Nat)) :=
  if c.size ≤ index then .ok none
  else do
    let item ← c.itemUnchecked index
    .ok (some (item, index + 1))

/-- `__clover_iter_membership_fallback`, the `in` of lists and tuples, with so
many turns at most. -/
def iterMembershipFallback (equal : Value → Value → Bool) (c : Container)
    (needle : Value) : Nat → Nat → Except Halt (Option Bool)
  | 0, _ => .ok none
  | fuel + 1, index => do
      match ← iteratorNext c index with
      | none => .ok (some false)
      | some (item, index) =>
          if equal item needle then .ok (some true)
          else iterMembershipFallback equal c needle fuel index

/-- `x in s` -/
def contains (equal : Value → Value → Bool) (c : Container)
    (needle : Value) : Except Halt (Option Bool) :=
  iterMembershipFallback equal c needle (c.size + 1) 0

/-- `List::count` and `Tuple::count`. -/
def count (c : Container) (needle : Value) : Except Halt Nat :=
  forUp
    (fun idx result => do
      let item ← c.itemUnchecked idx
      .ok (if item = needle then result + 1 else result))
    c.size 0 0

/-- `normalize_list_search_bound` and `normalize_tuple_search_bound`. -/
def normalizeSearchBound (pyIdx : Int) (size : Nat) : Except Halt Nat := do
  let normalized ← (if pyIdx < 0 then signed (pyIdx + size) else .ok pyIdx)
  .ok (min (max 0 normalized) size).toNat

/-- The loops that return the first index of the needle. -/
def findIdentical (c : Container) (needle : Value) :
    Nat → Nat → Except Halt (Option Nat)
  | 0, _ => .ok none
  | count + 1, idx => do
      let item ← c.itemUnchecked idx
      if item = needle then .ok (some idx)
      else findIdentical c needle count (idx + 1)

/-- `List::index` and `Tuple::index`, with the error of each. -/
def index (notFound : BuiltinException) (c : Container) (needle : Value)
    (startPyIdx stopPyIdx : Int) :
    Except Halt (Except BuiltinException Int) := do
  let start ← normalizeSearchBound startPyIdx c.size
  let stop ← normalizeSearchBound stopPyIdx c.size
  match ← findIdentical c needle (stop - start) start with
  | some idx => .ok (.ok idx)
  | none => .ok (.error notFound)

def listIndexNotFound : BuiltinException :=
  { typeName := "ValueError", message := "list.index(x): x not in list" }

def tupleIndexNotFound : BuiltinException :=
  { typeName := "ValueError", message := "tuple.index(x): x not in tuple" }

def listRemoveNotFound : BuiltinException :=
  { typeName := "ValueError", message := "list.remove(x): x not in list" }

/-- The default bounds of `index`. -/
def defaultStart : Int := 0
def defaultStop : Int := valueSmiMax

/-- `List::remove`: the list after it, and its answer. -/
def remove (self : ValueArray) (needle : Value) :
    Except Halt (ValueArray × Except BuiltinException Unit) := do
  match ← findIdentical (listContainer self) needle self.size 0 with
  | some idx => do
      let (_, self) ← popItemUnchecked self idx
      .ok (self, .ok ())
  | none => .ok (self, .error listRemoveNotFound)

/-- An item that Python takes for the needle. -/
def IsMatch (equal : Value → Value → Bool) (needle item : Value) : Prop :=
  item = needle ∨ equal item needle = true

instance (equal : Value → Value → Bool) (needle item : Value) :
    Decidable (IsMatch equal needle item) :=
  inferInstanceAs (Decidable (_ ∨ _))

/-- The first item from `start` on and before `stop` that has a property. -/
structure IsFirst (P : Value → Prop) (items : List Value)
    (start stop idx : Nat) : Prop where
  start_le : start ≤ idx
  lt_stop : idx < stop
  item : ∃ item, items[idx]? = some item ∧ P item
  earlier : ∀ j, start ≤ j → j < idx → ∀ item, items[j]? = some item →
    ¬ P item

/-- No item from `start` on and before `stop` has a property. -/
def HasNone (P : Value → Prop) (items : List Value) (start stop : Nat) :
    Prop :=
  ∀ j, start ≤ j → j < stop → ∀ item, items[j]? = some item → ¬ P item

/-- `in`, `count` and `index` of a sequence with these items are right. -/
structure SearchAgrees (equal : Value → Value → Bool) (c : Container)
    (notFound : BuiltinException) (items : List Value) (x : Value) :
    Prop where
  count_pos : contains equal c x = .ok (some true) ↔
    ∃ n, count c x = .ok n ∧ 1 ≤ n
  index_ok : contains equal c x = .ok (some true) ↔
    ∃ i, index notFound c x defaultStart defaultStop = .ok (.ok i)
  count_eq : count c x = .ok (items.countP fun item => IsMatch equal x item)
  index_eq : ∀ start stop, SmiRange start → SmiRange stop →
    (∃ idx : Nat, index notFound c x start stop = .ok (.ok idx) ∧
      IsFirst (IsMatch equal x) items
        (pythonInsertionIndex items.length start)
        (pythonInsertionIndex items.length stop) idx) ∨
    (index notFound c x start stop = .ok (.error notFound) ∧
      HasNone (IsMatch equal x) items
        (pythonInsertionIndex items.length start)
        (pythonInsertionIndex items.length stop))

/-- `remove` deletes the first match, or raises and changes nothing. -/
def RemoveAgrees (equal : Value → Value → Bool) (self : ValueArray)
    (items : List Value) (x : Value) : Prop :=
  (∃ idx list, remove self x = .ok (list, .ok ()) ∧
    list.Holds (items.eraseIdx idx) ∧
    IsFirst (IsMatch equal x) items 0 items.length idx) ∨
  (remove self x = .ok (self, .error listRemoveNotFound) ∧
    HasNone (IsMatch equal x) items 0 items.length)

/-! ## The loops -/

/-- The container has these items. -/
structure Reads (c : Container) (items : List Value) : Prop where
  size : c.size = items.length
  length_le : items.length ≤ arraySizeMax
  item : ∀ {idx item}, items[idx]? = some item →
    c.itemUnchecked idx = .ok item

theorem reads_list {self : ValueArray} {items : List Value}
    (h : self.Holds items) : Reads (listContainer self) items :=
  ⟨h.size, h.length_le, h.get⟩

theorem reads_tuple (self : TupleObject) :
    Reads (tupleContainer self) self.items where
  size := rfl
  length_le := self.size_le
  item := by
    intro idx item hItem
    show readCell self.items idx = .ok item
    rw [readCell, hItem]

section Loops

variable {equal : Value → Value → Bool} {c : Container} {items : List Value}

/-- A turn of the loop over the items. -/
theorem iteratorNext_some (h : Reads c items) {idx : Nat} {item : Value}
    (hItem : items[idx]? = some item) :
    iteratorNext c idx = .ok (some (item, idx + 1)) := by
  have hIdx : idx < items.length := (List.getElem?_eq_some_iff.mp hItem).1
  rw [iteratorNext, if_neg (by rw [h.size]; omega), bind_ok (h.item hItem)]

theorem iteratorNext_none (h : Reads c items) :
    iteratorNext c items.length = .ok none :=
  if_pos (by rw [h.size])

/-- With a turn for each item and one more, `in` answers whether an item is
equal. -/
theorem iterMembershipFallback_eq (h : Reads c items) (x : Value) :
    ∀ fuel idx, idx ≤ items.length → items.length < idx + fuel →
      iterMembershipFallback equal c x fuel idx =
        .ok (some ((items.drop idx).any (equal · x))) := by
  intro fuel
  induction fuel with
  | zero =>
      intro idx _ hFuel
      omega
  | succ fuel ih =>
      intro idx hIdx hFuel
      rw [iterMembershipFallback]
      by_cases hLess : idx < items.length
      · have hItem := List.getElem?_eq_getElem hLess
        rw [bind_ok (iteratorNext_some h hItem),
          List.drop_eq_getElem_cons hLess, List.any_cons]
        dsimp only
        cases hEqual : equal items[idx] x with
        | true => rfl
        | false =>
            rw [if_neg (by simp), Bool.false_or]
            exact ih (idx + 1) hLess (by omega)
      · obtain rfl : idx = items.length := by omega
        rw [bind_ok (iteratorNext_none h), List.drop_length]
        rfl

theorem contains_eq (h : Reads c items) (x : Value) :
    contains equal c x = .ok (some (items.any (equal · x))) := by
  rw [contains, iterMembershipFallback_eq h x _ 0 (Nat.zero_le _)
    (by rw [h.size]; omega), List.drop_zero]

theorem contains_iff (h : Reads c items) (x : Value) :
    contains equal c x = .ok (some true) ↔
      ∃ item ∈ items, equal item x = true := by
  rw [contains_eq h, Except.ok.injEq, Option.some.injEq, List.any_eq_true]

/-- The methods count identical items. -/
theorem count_eq (h : Reads c items) (x : Value) :
    count c x = .ok (items.count x) := by
  have hLoop := @forUp_ends Halt Nat
    (fun idx result => do
      let item ← c.itemUnchecked idx
      .ok (if item = x then result + 1 else result))
    (fun idx result => result = (items.take idx).count x) (fun _ => False)
    0 items.length ?_ items.length 0 0 (Nat.le_refl _) (Nat.zero_add _) rfl
  · obtain ⟨result, hResult, rfl⟩ := hLoop.exists_ok
    rw [count, h.size, hResult, List.take_length]
  · rintro idx result - hIdx rfl
    have hItem := List.getElem?_eq_getElem hIdx
    rw [bind_ok (h.item hItem)]
    show _ = (items.take (idx + 1)).count x
    rw [List.take_add_one, hItem, Option.toList_some, List.count_append,
      List.count_singleton]
    by_cases hSame : items[idx] = x
    · rw [if_pos hSame, if_pos (by simpa using hSame)]
    · rw [if_neg hSame, if_neg (by simpa using hSame), Nat.add_zero]

theorem normalizeSearchBound_eq {i : Int} (hi : SmiRange i)
    (hSize : items.length ≤ arraySizeMax) :
    normalizeSearchBound i items.length =
      .ok (pythonInsertionIndex items.length i) := by
  rw [normalizeSearchBound, bind_ok (wrapped_eq hi hSize)]
  unfold pythonInsertionIndex
  congr 2
  split <;> omega

/-- The loops find the first identical item, or go past all items. -/
theorem findIdentical_spec (h : Reads c items) (x : Value) :
    ∀ count idx, idx + count ≤ items.length →
      (∃ k, findIdentical c x count idx = .ok (some k) ∧
        IsFirst (· = x) items idx (idx + count) k) ∨
      (findIdentical c x count idx = .ok none ∧
        HasNone (· = x) items idx (idx + count)) := by
  intro count
  induction count with
  | zero =>
      intro idx _
      exact .inr ⟨rfl, fun j hLow hHigh => by omega⟩
  | succ count ih =>
      intro idx hBound
      have hItem : items[idx]? = some items[idx] :=
        List.getElem?_eq_getElem (by omega)
      rw [findIdentical, bind_ok (h.item hItem)]
      by_cases hSame : items[idx] = x
      · rw [if_pos hSame]
        refine .inl ⟨idx, rfl, Nat.le_refl _, by omega,
          ⟨_, hItem, hSame⟩, ?_⟩
        intro j hLow hHigh
        omega
      · rw [if_neg hSame]
        have hHere : ∀ item, items[idx]? = some item → ¬ item = x := by
          intro item hRead
          rw [hItem, Option.some.injEq] at hRead
          exact hRead ▸ hSame
        rcases ih (idx + 1) (by omega) with ⟨k, hFind, hFirst⟩ |
          ⟨hFind, hNone⟩
        · refine .inl ⟨k, hFind, ?_, ?_, hFirst.item, ?_⟩
          · have hStart := hFirst.start_le
            omega
          · have hStop := hFirst.lt_stop
            omega
          · intro j hLow hHigh item hRead
            by_cases hAt : j = idx
            · subst hAt
              exact hHere item hRead
            · exact hFirst.earlier j (by omega) hHigh item hRead
        · refine .inr ⟨hFind, fun j hLow hHigh item hRead => ?_⟩
          by_cases hAt : j = idx
          · subst hAt
            exact hHere item hRead
          · exact hNone j (by omega) (by omega) item hRead

/-- The same search, up to a bound that may lie before its start. -/
theorem findIdentical_range (h : Reads c items) (x : Value)
    {start stop : Nat} (hStart : start ≤ items.length)
    (hStop : stop ≤ items.length) :
    (∃ k, findIdentical c x (stop - start) start = .ok (some k) ∧
      IsFirst (· = x) items start stop k) ∨
    (findIdentical c x (stop - start) start = .ok none ∧
      HasNone (· = x) items start stop) := by
  by_cases hOrder : start ≤ stop
  · have hSpec := findIdentical_spec h x (stop - start) start (by omega)
    rwa [show start + (stop - start) = stop by omega] at hSpec
  · rw [show stop - start = 0 by omega]
    exact .inr ⟨rfl, fun j hLow hHigh => by omega⟩

/-- `index` answers the first identical item in the clamped range. -/
theorem index_spec (h : Reads c items) (x : Value)
    (notFound : BuiltinException) {start stop : Int} (hStart : SmiRange start)
    (hStop : SmiRange stop) :
    (∃ idx : Nat, index notFound c x start stop = .ok (.ok idx) ∧
      IsFirst (· = x) items (pythonInsertionIndex items.length start)
        (pythonInsertionIndex items.length stop) idx) ∨
    (index notFound c x start stop = .ok (.error notFound) ∧
      HasNone (· = x) items (pythonInsertionIndex items.length start)
        (pythonInsertionIndex items.length stop)) := by
  rw [index, h.size, bind_ok (normalizeSearchBound_eq hStart h.length_le),
    bind_ok (normalizeSearchBound_eq hStop h.length_le)]
  rcases findIdentical_range h x (pythonInsertionIndex_le _ start)
    (pythonInsertionIndex_le _ stop) with ⟨k, hFind, hFirst⟩ | ⟨hFind, hNone⟩
  · exact .inl ⟨k, bind_ok hFind _, hFirst⟩
  · exact .inr ⟨bind_ok hFind _, hNone⟩

/-- `remove` deletes the first identical item. -/
theorem remove_spec {self : ValueArray} (h : self.Holds items) (x : Value) :
    (∃ idx list, remove self x = .ok (list, .ok ()) ∧
      list.Holds (items.eraseIdx idx) ∧
      IsFirst (· = x) items 0 items.length idx) ∨
    (remove self x = .ok (self, .error listRemoveNotFound) ∧
      HasNone (· = x) items 0 items.length) := by
  have hFind := findIdentical_range (reads_list h) x (Nat.zero_le _)
    (Nat.le_refl items.length)
  rw [Nat.sub_zero] at hFind
  rw [remove, h.size]
  rcases hFind with ⟨k, hFind, hFirst⟩ | ⟨hFind, hNone⟩
  · obtain ⟨item, hItem, -⟩ := hFirst.item
    obtain ⟨⟨removed, list⟩, hPop, -, hList⟩ :=
      (@popItemUnchecked_ends self items (fun _ => False) h k item
        hItem).exists_ok
    refine .inl ⟨k, list, ?_, hList, hFirst⟩
    rw [bind_ok hFind]
    dsimp only
    rw [bind_ok hPop]
  · exact .inr ⟨by rw [bind_ok hFind], hNone⟩

end Loops

/-! ## When the search is right -/

/-- The items that are equal to the needle are the identical ones. -/
def EqualAsIdentical (equal : Value → Value → Bool) (items : List Value)
    (x : Value) : Prop :=
  ∀ item ∈ items, equal item x = true ↔ item = x

section Congruence

variable {P Q : Value → Prop} {items : List Value} {start stop idx : Nat}

theorem IsFirst.congr (h : IsFirst P items start stop idx)
    (hSame : ∀ item ∈ items, P item ↔ Q item) :
    IsFirst Q items start stop idx where
  start_le := h.start_le
  lt_stop := h.lt_stop
  item := by
    obtain ⟨item, hItem, hP⟩ := h.item
    exact ⟨item, hItem, (hSame item (List.mem_of_getElem? hItem)).mp hP⟩
  earlier := by
    intro j hLow hHigh item hItem hQ
    exact h.earlier j hLow hHigh item hItem
      ((hSame item (List.mem_of_getElem? hItem)).mpr hQ)

theorem HasNone.congr (h : HasNone P items start stop)
    (hSame : ∀ item ∈ items, P item ↔ Q item) :
    HasNone Q items start stop := by
  intro j hLow hHigh item hItem hQ
  exact h j hLow hHigh item hItem
    ((hSame item (List.mem_of_getElem? hItem)).mpr hQ)

end Congruence

/-- Where a weaker test counts no more items, it holds of no other item. -/
theorem imp_of_countP_eq {p q : Value → Bool} : ∀ {items : List Value},
    (∀ item ∈ items, p item = true → q item = true) →
    items.countP q = items.countP p →
    ∀ item ∈ items, q item = true → p item = true := by
  intro items
  induction items with
  | nil => nofun
  | cons first rest ih =>
      intro hImp hCount item hItem hq
      have hRestImp : ∀ item ∈ rest, p item = true → q item = true :=
        fun item hItem => hImp item (List.mem_cons_of_mem _ hItem)
      have hLe : rest.countP p ≤ rest.countP q :=
        List.countP_mono_left hRestImp
      rw [List.countP_cons, List.countP_cons] at hCount
      have hFirst := hImp first List.mem_cons_self
      rcases List.mem_cons.mp hItem with rfl | hRest
      · by_contra hp
        rw [if_pos hq, if_neg hp] at hCount
        omega
      · refine ih hRestImp ?_ item hRest hq
        by_cases hp : p first = true
        · rw [if_pos hp, if_pos (hFirst hp)] at hCount
          omega
        · rw [if_neg hp] at hCount
          split at hCount <;> omega

section Agreement

variable {equal : Value → Value → Bool} {c : Container} {items : List Value}
  {x : Value}

theorem isMatch_iff (hSame : EqualAsIdentical equal items x) :
    ∀ item ∈ items, item = x ↔ IsMatch equal x item := by
  intro item hItem
  constructor
  · exact Or.inl
  · rintro (hIdentical | hEqual)
    · exact hIdentical
    · exact (hSame item hItem).mp hEqual

theorem count_pos_iff (h : Reads c items) :
    (∃ n, count c x = .ok n ∧ 1 ≤ n) ↔ x ∈ items := by
  rw [count_eq h]
  constructor
  · rintro ⟨n, hn, hPos⟩
    cases hn
    exact List.count_pos_iff.mp hPos
  · exact fun hx => ⟨_, rfl, List.count_pos_iff.mpr hx⟩

/-- With the default bounds `index` looks at every item. -/
theorem index_default_iff (h : Reads c items)
    (notFound : BuiltinException) :
    (∃ i, index notFound c x defaultStart defaultStop = .ok (.ok i)) ↔
      x ∈ items := by
  have hStart : pythonInsertionIndex items.length defaultStart = 0 := by
    unfold pythonInsertionIndex defaultStart
    rw [if_neg (by omega)]
    omega
  have hStop : pythonInsertionIndex items.length defaultStop =
      items.length := by
    have hLength := h.length_le
    unfold pythonInsertionIndex defaultStop
    rw [← arraySizeMax_eq, if_neg (by omega)]
    omega
  have hSpec := index_spec h x notFound
    (show SmiRange defaultStart by decide) (show SmiRange defaultStop by decide)
  rw [hStart, hStop] at hSpec
  rcases hSpec with ⟨idx, hIndex, hFirst⟩ | ⟨hIndex, hNone⟩
  · obtain ⟨item, hItem, rfl⟩ := hFirst.item
    exact ⟨fun _ => List.mem_of_getElem? hItem, fun _ => ⟨_, hIndex⟩⟩
  · constructor
    · rintro ⟨i, hi⟩
      rw [hIndex] at hi
      cases hi
    · intro hx
      obtain ⟨j, hj, hItem⟩ := List.mem_iff_getElem.mp hx
      exact absurd hItem (hNone j (Nat.zero_le _) hj _
        (List.getElem?_eq_getElem hj))

/-- The search is right exactly when the equal items are the identical
ones. -/
theorem searchAgrees_iff (h : Reads c items) (notFound : BuiltinException) :
    SearchAgrees equal c notFound items x ↔ EqualAsIdentical equal items x := by
  constructor
  · intro hAgrees item hItem
    have hCount := hAgrees.count_eq
    rw [count_eq h, Except.ok.injEq] at hCount
    have hIdentical : ∀ item ∈ items, equal item x = true → item = x := by
      intro item hItem hEqual
      have hImp := @imp_of_countP_eq (· == x)
        (fun item => decide (IsMatch equal x item)) items
        (fun item _ hSame => decide_eq_true (.inl (by simpa using hSame)))
        hCount.symm item hItem (decide_eq_true (.inr hEqual))
      simpa using hImp
    refine ⟨hIdentical item hItem, ?_⟩
    rintro rfl
    have hFound := hAgrees.count_pos.mpr ((count_pos_iff h).mpr hItem)
    obtain ⟨other, hOther, hEqual⟩ := (contains_iff h item).mp hFound
    exact hIdentical other hOther hEqual ▸ hEqual
  · intro hSame
    have hMatch := isMatch_iff hSame
    have hMember : contains equal c x = .ok (some true) ↔ x ∈ items := by
      rw [contains_iff h]
      constructor
      · rintro ⟨item, hItem, hEqual⟩
        exact (hSame item hItem).mp hEqual ▸ hItem
      · exact fun hx => ⟨x, hx, (hSame x hx).mpr rfl⟩
    refine ⟨?_, ?_, ?_, ?_⟩
    · rw [hMember, count_pos_iff h]
    · rw [hMember, index_default_iff h]
    · rw [count_eq h, Except.ok.injEq]
      refine List.countP_congr fun item hItem => ?_
      rw [decide_eq_true_iff, ← hMatch item hItem, beq_iff_eq]
    · intro start stop hStart hStop
      rcases index_spec h x notFound hStart hStop with
        ⟨idx, hIndex, hFirst⟩ | ⟨hIndex, hNone⟩
      · exact .inl ⟨idx, hIndex, hFirst.congr hMatch⟩
      · exact .inr ⟨hIndex, hNone.congr hMatch⟩

theorem removeAgrees_of_same {self : ValueArray} (h : self.Holds items)
    (hSame : EqualAsIdentical equal items x) :
    RemoveAgrees equal self items x := by
  have hMatch := isMatch_iff hSame
  rcases remove_spec h x with ⟨idx, list, hRemove, hList, hFirst⟩ |
    ⟨hRemove, hNone⟩
  · exact .inl ⟨idx, list, hRemove, hList, hFirst.congr hMatch⟩
  · exact .inr ⟨hRemove, hNone.congr hMatch⟩

end Agreement

/-- **Searching a sequence**: for a value and a pure equality, `in`, `count`,
`index` and `remove` of a list, and of a tuple the first three, are right
exactly when `==` holds of the value and an item just where the two are
identical. -/
theorem search_agrees_iff (dispatch : Value → Value → Bool) (x : Value) :
    (∀ (self : ValueArray) (items : List Value), self.Holds items →
      (SearchAgrees (opEq dispatch) (listContainer self) listIndexNotFound
          items x ∧ RemoveAgrees (opEq dispatch) self items x ↔
        EqualAsIdentical (opEq dispatch) items x)) ∧
    ∀ self : TupleObject,
      SearchAgrees (opEq dispatch) (tupleContainer self) tupleIndexNotFound
          self.items x ↔
        EqualAsIdentical (opEq dispatch) self.items x := by
  constructor
  · intro self items h
    have hSearch := @searchAgrees_iff (opEq dispatch) _ items x (reads_list h)
      listIndexNotFound
    constructor
    · exact fun hAgrees => hSearch.mp hAgrees.1
    · exact fun hSame =>
        ⟨hSearch.mpr hSame, removeAgrees_of_same h hSame⟩
  · exact fun self => searchAgrees_iff (reads_tuple self) tupleIndexNotFound

/-- Objects that compare by identity. -/
def samePointers (left right : Value) : Bool := left == right

def repeatedItems : List Value := [5, 3, 8, 3].map Value.ofInt

theorem search_agrees_iff_repeated :
    SearchAgrees (opEq samePointers)
        (listContainer ⟨4, 4, some repeatedItems⟩) listIndexNotFound
        repeatedItems (Value.ofInt 3) ∧
      RemoveAgrees (opEq samePointers) ⟨4, 4, some repeatedItems⟩
        repeatedItems (Value.ofInt 3) := by
  have hHolds : ValueArray.Holds ⟨4, 4, some repeatedItems⟩ repeatedItems :=
    ⟨rfl, rfl, by decide, fun _ _ => rfl⟩
  exact ((search_agrees_iff samePointers (Value.ofInt 3)).1 _ _ hHolds).mpr
    (by unfold EqualAsIdentical; decide)

/-- `Value::True()` -/
def valueTrue : Value := ⟨0x24#64⟩

/-- `[True].count(1)` is zero although `1 in [True]`. -/
theorem count_true_one :
    contains (opEq samePointers) (listContainer ⟨1, 1, some [valueTrue]⟩)
        (Value.ofInt 1) = .ok (some true) ∧
      count (listContainer ⟨1, 1, some [valueTrue]⟩) (Value.ofInt 1) =
        .ok 0 ∧
      ¬ SearchAgrees (opEq samePointers)
        (listContainer ⟨1, 1, some [valueTrue]⟩) listIndexNotFound
        [valueTrue] (Value.ofInt 1) := by
  have hZero : count (listContainer ⟨1, 1, some [valueTrue]⟩)
      (Value.ofInt 1) = .ok 0 := rfl
  refine ⟨rfl, hZero, fun hAgrees => ?_⟩
  obtain ⟨n, hCount, hPos⟩ := hAgrees.count_pos.mp rfl
  rw [hZero] at hCount
  cases hCount
  exact absurd hPos (by decide)

end CloverVM.BuiltinTypes.SequenceSearch
