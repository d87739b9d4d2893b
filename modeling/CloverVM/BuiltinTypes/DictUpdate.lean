import CloverVM.BuiltinTypes.DictIteration
import CloverVM.Runtime.ConstructorThunk
import CloverVM.Stdlib.Exceptions

/-!
# Updating and constructing a dict

`dict.update` and `dict.__new__` are written in Python, in
`bootstrap/builtins.py`.  An update stores the pairs of its source, which has
`keys()` or is an iterable of iterables of length two, and then its keywords.
The source may be the dict that is updated: its key iterator then runs while
values are stored, which may compact the entries under it.

The parameters of the two functions are named `self` and `cls`.  The thunk that
constructs a dict leaves `cls` out, so that a keyword of this name is one as
every other; an update has bound `self` when it meets a keyword `self`, and
raises `TypeError`.
-/

namespace CloverVM.BuiltinTypes.Dict

open CloverVM.Collections CloverVM.Runtime
open CloverVM.Runtime.ArgumentBinding CloverVM.Runtime.CallEntry
open CloverVM.Runtime.CallBinding CloverVM.Runtime.ConstructorThunk
open CloverVM.ObjectModel
open CloverVM.Compiler.FunctionDefinition
open CloverVM.Stdlib (valueError)

variable {O T : Type} [DecidableEq O] [DecidableEq T]

/-- An iterable, as the steps of the iterator that `iter` makes of it. -/
structure Element (O : Type) where
  State : Type
  start : State
  next : State → Option (O × State)

/-- A positional source: an object with `keys()`, another dict, or an iterable
of iterables. -/
inductive Source (O : Type) where
  | mapping (keys : List O) (item : O → O)
  | dict (other : Dict O O)
  | iterable (elements : List (Element O))

/-- A source of an update, which may be the dict itself. -/
inductive UpdateSource (O : Type) where
  | itself
  | source (source : Source O)

/-- The string objects of keyword names. -/
structure KeywordNames (P : KeyProtocol O T) where
  key : String → O
  characters : String → T
  text_key : ∀ name, P.text (key name) = some (characters name)
  injective : ∀ name name', characters name = characters name' → name = name'

/-! ## The loops -/

section Loops

variable (P : KeyProtocol O T)

/-- What a statement leaves: the dict, and an exception if it raises one. -/
abbrev Updated (O : Type) := Dict O O × Except BuiltinException Unit

/-- One element of an iterable source. -/
def updateElement (self : Dict O O) (element : Element O) :
    Option (Updated O) :=
  match element.next element.start with
  | none => some (self, .error valueError)
  | some (key, iterator) =>
      match element.next iterator with
      | none => some (self, .error valueError)
      | some (value, iterator) =>
          match element.next iterator with
          | none => do
              let self ← setItem P self key value
              some (self, .ok ())
          | some _ => some (self, .error valueError)

def updateElements : List (Element O) → Dict O O → Option (Updated O)
  | [], self => some (self, .ok ())
  | element :: elements, self => do
      match ← updateElement P self element with
      | (self, .error e) => some (self, .error e)
      | (self, .ok ()) => updateElements elements self

/-- The loop over the keys of an object with `keys()`. -/
def updateMapping (item : O → O) : List O → Dict O O → Option (Updated O)
  | [], self => some (self, .ok ())
  | key :: keys, self => do
      let self ← setItem P self key (item key)
      updateMapping item keys self

/-- `source[key]`, with the dict after the look-up. -/
def subscript (source : Dict O O) (key : O) :
    Option (Dict O O × Except BuiltinException O) := do
  match ← getItem P source key with
  | (source, .ok value) => some (source, .ok value)
  | (source, .error _) =>
      some (source, .error { typeName := "KeyError", message := "" })

/-- The loop over the keys of another dict, for so many turns at most. -/
def updateKeys : Nat → DictIterator → (source self : Dict O O) →
    Option (Updated O)
  | 0, _, _, _ => none
  | fuel + 1, it, source, self =>
      match nativeDictKeyIteratorNext source it with
      | (_, .stop) => some (self, .ok ())
      | (_, .error e) => some (self, .error e)
      | (it, .yield (.key key)) => do
          match ← subscript P source key with
          | (_, .error e) => some (self, .error e)
          | (source, .ok value) =>
              let self ← setItem P self key value
              updateKeys fuel it source self
      | (_, .yield _) => none

/-- The same loop over the dict's own keys. -/
def updateOwnKeys : Nat → DictIterator → Dict O O → Option (Updated O)
  | 0, _, _ => none
  | fuel + 1, it, self =>
      match nativeDictKeyIteratorNext self it with
      | (_, .stop) => some (self, .ok ())
      | (_, .error e) => some (self, .error e)
      | (it, .yield (.key key)) => do
          match ← subscript P self key with
          | (self, .error e) => some (self, .error e)
          | (self, .ok value) =>
              let self ← setItem P self key value
              updateOwnKeys fuel it self
      | (_, .yield _) => none

/-- `for key in source.keys(): self[key] = source[key]` -/
def updateFromKeys (source self : Dict O O) : Option (Updated O) :=
  updateKeys P (source.entries.length + 1) (.make source) source self

def updateFromOwnKeys (self : Dict O O) : Option (Updated O) :=
  updateOwnKeys P (self.entries.length + 1) (.make self) self

def updateFromSource : Source O → Dict O O → Option (Updated O)
  | .mapping keys item, self => updateMapping P item keys self
  | .dict source, self => updateFromKeys P source self
  | .iterable elements, self => updateElements P elements self

def updateFrom : UpdateSource O → Dict O O → Option (Updated O)
  | .itself, self => updateFromOwnKeys P self
  | .source source, self => updateFromSource P source self

/-- The source is looked at if there is one. -/
def updateFromArgs (args : Option (UpdateSource O)) (self : Dict O O) :
    Option (Updated O) :=
  match args with
  | none => some (self, .ok ())
  | some source => updateFrom P source self

/-- The body of `__clover_dict_update`, with at most one positional argument
besides `self`. -/
def dictUpdate (self : Dict O O) (args : Option (UpdateSource O))
    (kwargs : Dict O O) : Option (Updated O) := do
  match ← updateFromArgs P args self with
  | (self, .error e) => some (self, .error e)
  | (self, .ok ()) => updateFromKeys P kwargs self

end Loops

/-! ## Calls -/

/-- `def __clover_dict_update(self, *args, **kwargs)` -/
def updateSignature : ParameterSignature Unit where
  posOrKw := [⟨"self", none⟩]
  vararg := some "args"
  kwarg := some "kwargs"

/-- `def __clover_dict_new(cls, *args, **kwargs)` -/
def newSignature : ParameterSignature Unit where
  posOrKw := [⟨"cls", none⟩]
  vararg := some "args"
  kwarg := some "kwargs"

def updateFunction : Function Unit :=
  { codeObject := codegenFunction updateSignature }

def newFunction : Function Unit :=
  { codeObject := codegenFunction newSignature }

section Calls

variable (P : KeyProtocol O T) (names : KeywordNames P)

/-- The `**kwargs` dict of a call: the keywords that name no parameter. -/
def makeKwargs (f : Function Unit) (keywords : List (String × O)) :
    Option (Dict O O) :=
  (keywords.filter fun kw => (namedParameter f kw.1).isNone).foldlM
    (fun dict kw => setItem P dict (names.key kw.1) kw.2) empty

/-- `self.update(*args, **keywords)` -/
def callUpdate (self : Dict O O) (args : Option (UpdateSource O))
    (keywords : List (String × O)) : Option (Updated O) :=
  match buildKeywordCall updateFunction (keywords.map Prod.fst)
      (1 + args.toList.length) with
  | .error e => some (self, .error e)
  | .ok _ => do
      let kwargs ← makeKwargs P names updateFunction keywords
      dictUpdate P self args kwargs

/-- The body of `__clover_dict_new`. -/
def dictNew (args : Option (Source O)) (kwargs : Dict O O) :
    Option (Except BuiltinException (Dict O O)) :=
  match args with
  | none => some (.ok kwargs)
  | some source => do
      match ← callUpdate P names empty (some (.source source)) [] with
      | (_, .error e) => some (.error e)
      | (result, .ok ()) =>
          match ← callUpdate P names result
              (some (.source (.dict kwargs))) [] with
          | (_, .error e) => some (.error e)
          | (result, .ok ()) => some (.ok result)

/-- `dict(*args, **keywords)`, through the constructor thunk of `__new__`. -/
def callDict (args : Option (Source O)) (keywords : List (String × O)) :
    Option (Except BuiltinException (Dict O O)) :=
  match makeConstructorThunkFunction () "__new__" "cls" newFunction with
  | .error e => some (.error e)
  | .ok thunk =>
      match buildKeywordCall thunk (keywords.map Prod.fst)
          args.toList.length with
      | .error e => some (.error e)
      | .ok _ => do
          let kwargs ← makeKwargs P names thunk keywords
          dictNew P names args kwargs

end Calls

/-- The key and the value of an element of length two. -/
def Element.pair (element : Element O) : Option (O × O) :=
  match element.next element.start with
  | none => none
  | some (key, iterator) =>
      match element.next iterator with
      | none => none
      | some (value, iterator) =>
          match element.next iterator with
          | none => some (key, value)
          | some _ => none

/-- The pairs before the first element of another length, and whether there is
such an element. -/
def pairsOf : List (Element O) → OrderedMap O O × Bool
  | [] => ([], false)
  | element :: elements =>
      match element.pair with
      | none => ([], true)
      | some pair => (pair :: (pairsOf elements).1, (pairsOf elements).2)

/-- The pairs of a source for a dict that stands for `m`, and whether an
element of another length ends them. -/
inductive SourcePairs (P : KeyProtocol O T) (m : OrderedMap O O) :
    Option (UpdateSource O) → OrderedMap O O → Bool → Prop
  | absent : SourcePairs P m none [] false
  | itself : SourcePairs P m (some .itself) m false
  | mapping (keys : List O) (item : O → O) :
      SourcePairs P m (some (.source (.mapping keys item)))
        (keys.map fun key => (key, item key)) false
  | dict {other : Dict O O} {n : OrderedMap O O} (h : Represents P other n) :
      SourcePairs P m (some (.source (.dict other))) n false
  | iterable (elements : List (Element O)) :
      SourcePairs P m (some (.source (.iterable elements)))
        (pairsOf elements).1 (pairsOf elements).2

/-! ## The loops store the pairs -/

section Specs

variable {P : KeyProtocol O T} {d source self : Dict O O} {it : DictIterator}
  {m n : OrderedMap O O} {visited : Nat}

theorem Follows.start (h : Represents P d m) :
    Follows P d (.make d) m 0 where
  represents := h
  expectedSize_eq := by
    show (d.size : Int) = _
    rw [h.size_eq]
  place := (Nat.zero_min _).symm

/-- A look-up leaves the entries where they are. -/
theorem getItemIfPresent_entries {key : O} {d' : Dict O O} {value : Option O}
    (h : getItemIfPresent P d key = some (d', value)) :
    d'.entries = d.entries := by
  unfold getItemIfPresent at h
  split at h
  · obtain ⟨hashIdx, -, hEnd⟩ := Option.bind_eq_some_iff.mp h
    cases hEnd
    rfl
  · obtain ⟨answer, -, hEnd⟩ := Option.bind_eq_some_iff.mp h
    cases hEnd
    exact maybePromote_entries d

/-- The value of an item is found under its key, and the iterator stays where
it is. -/
theorem Follows.subscript (hP : Lawful P) (h : Follows P d it m visited)
    {item : O × O} (hItem : item ∈ m) :
    ∃ d', subscript P d item.1 = some (d', .ok item.2) ∧
      Follows P d' it m visited := by
  obtain ⟨d', hGet, hRep⟩ :=
    getItemIfPresent_represents hP h.represents item.1
  have hEntries := getItemIfPresent_entries hGet
  have hFind : OrderedMap.find P.keyEqual m item.1 = some item.2 := by
    have hDistinct := h.represents.distinct
    obtain ⟨before, after, rfl⟩ := List.append_of_mem hItem
    exact OrderedMap.find_split hP.equivalence hDistinct
      (hP.equivalence.refl item.1)
  refine ⟨d', ?_, hRep, h.expectedSize_eq, ?_⟩
  · unfold Dict.subscript getItem
    rw [hGet, hFind]
    rfl
  · have hPlace := h.place
    unfold liveBefore at hPlace ⊢
    rw [hEntries]
    exact hPlace

/-- A next step of the key iterator. -/
theorem Follows.nextKey (h : Follows P d it m visited) :
    (∃ it' item, m[visited]? = some item ∧
      nativeDictKeyIteratorNext d it = (it', .yield (.key item.1)) ∧
      Follows P d it' m (visited + 1)) ∨
    ∃ it', m.length ≤ visited ∧
      nativeDictKeyIteratorNext d it = (it', .stop) := by
  obtain ⟨hAnswer, hNext⟩ := h.next fun key _ => .key key
  unfold Collections.IteratorRun.itemAnswer views at hAnswer
  rw [List.getElem?_map] at hAnswer
  cases hItem : m[visited]? with
  | some item =>
      rw [hItem] at hAnswer
      exact .inl ⟨_, item, rfl, Prod.ext rfl hAnswer, hNext⟩
  | none =>
      rw [hItem] at hAnswer
      exact .inr ⟨_, List.getElem?_eq_none_iff.mp hItem,
        Prod.ext rfl hAnswer⟩

/-- The loop over the keys of another dict stores its items in order. -/
theorem updateKeys_spec (hP : Lawful P) :
    ∀ (fuel visited : Nat) (it : DictIterator) (source self : Dict O O)
      (m : OrderedMap O O), Follows P source it n visited →
      Represents P self m → n.length < min visited n.length + fuel →
      ∃ self', updateKeys P fuel it source self = some (self', .ok ()) ∧
        Represents P self'
          (OrderedMap.update P.keyEqual m (n.drop visited)) := by
  intro fuel
  induction fuel with
  | zero =>
      intro visited it source self m _ _ hFuel
      omega
  | succ fuel ih =>
      intro visited it source self m hFollows hSelf hFuel
      rw [updateKeys]
      rcases hFollows.nextKey with ⟨it', item, hItem, hNext, hFollows'⟩ |
        ⟨it', hEnd, hNext⟩
      · obtain ⟨source', hGet, hSource'⟩ :=
          hFollows'.subscript hP (List.mem_of_getElem? hItem)
        obtain ⟨self', hSet, hSelf'⟩ :=
          setItem_represents hP hSelf item.1 item.2
        obtain ⟨hLess, hAt⟩ := List.getElem?_eq_some_iff.mp hItem
        have hDrop : n.drop visited = item :: n.drop (visited + 1) := by
          rw [List.drop_eq_getElem_cons hLess, hAt]
        simp only [hNext, hGet, hSet, Option.bind_eq_bind, Option.bind_some]
        rw [hDrop]
        exact ih (visited + 1) it' source' self' _ hSource' hSelf' (by omega)
      · simp only [hNext]
        rw [List.drop_eq_nil_of_le hEnd]
        exact ⟨self, rfl, hSelf⟩

/-- The loop over the dict's own keys changes nothing: where a store compacts
the entries, the items that are skipped keep the values that they have. -/
theorem updateOwnKeys_spec (hP : Lawful P) :
    ∀ (fuel visited : Nat) (it : DictIterator) (self : Dict O O),
      Follows P self it m visited →
      m.length < min visited m.length + fuel →
      ∃ self', updateOwnKeys P fuel it self = some (self', .ok ()) ∧
        Represents P self' m := by
  intro fuel
  induction fuel with
  | zero =>
      intro visited it self _ hFuel
      omega
  | succ fuel ih =>
      intro visited it self hFollows hFuel
      rw [updateOwnKeys]
      rcases hFollows.nextKey with ⟨it', item, hItem, hNext, hFollows'⟩ |
        ⟨it', hEnd, hNext⟩
      · have hMem := List.mem_of_getElem? hItem
        have hLess := (List.getElem?_eq_some_iff.mp hItem).1
        obtain ⟨read, hGet, hRead⟩ := hFollows'.subscript hP hMem
        have hSame := OrderedMap.set_of_mem hP.equivalence
          hRead.represents.distinct hMem
        have hHolds : OrderedMap.holds P.keyEqual m item.1 = true :=
          List.any_eq_true.mpr ⟨item, hMem, hP.equivalence.refl item.1⟩
        have hStore : ∃ self' passed, setItem P read item.1 item.2 =
            some self' ∧ Follows P self' it' m passed ∧
            visited + 1 ≤ passed := by
          by_cases hDisturbs : Disturbs read it'
          · obtain ⟨self', passed, hSet, hPassed, hMore, -⟩ :=
              hRead.overwrite_disturbed hP hHolds item.2 hDisturbs
            rw [hSame] at hPassed
            exact ⟨self', passed, hSet, hPassed, by omega⟩
          · obtain ⟨self', hSet, hStays⟩ :=
              hRead.overwrite hP hHolds item.2 hDisturbs
            rw [hSame] at hStays
            exact ⟨self', visited + 1, hSet, hStays, Nat.le_refl _⟩
        obtain ⟨self', passed, hSet, hPassed, hMore⟩ := hStore
        simp only [hNext, hGet, hSet, Option.bind_eq_bind, Option.bind_some]
        exact ih passed it' self' hPassed (by omega)
      · simp only [hNext]
        exact ⟨self, rfl, hFollows.represents⟩

/-- There are no more items than entries. -/
theorem Represents.length_le (h : Represents P d m) :
    m.length ≤ d.entries.length := by
  rw [← h.live_length]
  exact List.length_filterMap_le _ _

theorem updateFromKeys_spec (hP : Lawful P) (hSource : Represents P source n)
    (hSelf : Represents P self m) :
    ∃ self', updateFromKeys P source self = some (self', .ok ()) ∧
      Represents P self' (OrderedMap.update P.keyEqual m n) := by
  have hLength := hSource.length_le
  exact updateKeys_spec hP (source.entries.length + 1) 0 _ source self m
    (.start hSource) hSelf (by omega)

theorem updateFromOwnKeys_spec (hP : Lawful P) (hSelf : Represents P self m) :
    ∃ self', updateFromOwnKeys P self = some (self', .ok ()) ∧
      Represents P self' m := by
  have hLength := hSelf.length_le
  exact updateOwnKeys_spec hP (self.entries.length + 1) 0 _ self
    (.start hSelf) (by omega)

theorem updateMapping_spec (hP : Lawful P) (item : O → O) :
    ∀ (keys : List O) (self : Dict O O) (m : OrderedMap O O),
      Represents P self m →
      ∃ self', updateMapping P item keys self = some (self', .ok ()) ∧
        Represents P self' (OrderedMap.update P.keyEqual m
          (keys.map fun key => (key, item key))) := by
  intro keys
  induction keys with
  | nil => exact fun self m h => ⟨self, rfl, h⟩
  | cons key keys ih =>
      intro self m h
      obtain ⟨self', hSet, hSelf'⟩ := setItem_represents hP h key (item key)
      rw [updateMapping, hSet]
      exact ih self' _ hSelf'

/-- The exception of a source, if one of its elements has another length. -/
def sourceAnswer (failed : Bool) : Except BuiltinException Unit :=
  if failed then .error valueError else .ok ()

/-- An element of length two is stored; every other is refused. -/
theorem updateElement_spec (hP : Lawful P) (element : Element O)
    (h : Represents P self m) :
    match element.pair with
    | some pair => ∃ self', updateElement P self element =
        some (self', .ok ()) ∧
        Represents P self' (OrderedMap.set P.keyEqual m pair.1 pair.2)
    | none => updateElement P self element = some (self, .error valueError) := by
  unfold updateElement Element.pair
  cases element.next element.start with
  | none => rfl
  | some first =>
      obtain ⟨key, iterator⟩ := first
      dsimp only
      cases element.next iterator with
      | none => rfl
      | some second =>
          obtain ⟨value, iterator⟩ := second
          dsimp only
          cases element.next iterator with
          | some third => rfl
          | none =>
              obtain ⟨self', hSet, hSelf'⟩ :=
                setItem_represents hP h key value
              exact ⟨self', by rw [hSet]; rfl, hSelf'⟩

theorem updateElements_spec (hP : Lawful P) :
    ∀ (elements : List (Element O)) (self : Dict O O) (m : OrderedMap O O),
      Represents P self m →
      ∃ self', updateElements P elements self =
          some (self', sourceAnswer (pairsOf elements).2) ∧
        Represents P self'
          (OrderedMap.update P.keyEqual m (pairsOf elements).1) := by
  intro elements
  induction elements with
  | nil => exact fun self m h => ⟨self, rfl, h⟩
  | cons element elements ih =>
      intro self m h
      have hElement := updateElement_spec hP element h
      rw [updateElements, pairsOf]
      cases hPair : element.pair with
      | none =>
          rw [hPair] at hElement
          rw [hElement]
          exact ⟨self, rfl, h⟩
      | some pair =>
          rw [hPair] at hElement
          obtain ⟨self', hStored, hSelf'⟩ := hElement
          rw [hStored]
          exact ih self' _ hSelf'

end Specs

/-! ## Binding the arguments -/

section Binding

theorem updateFunction_implements :
    Implements updateFunction updateSignature :=
  codegenFunctionDefinition_implements (show
    codegenFunctionDefinition () updateSignature = .ok updateFunction from rfl)

theorem newFunction_implements : Implements newFunction newSignature :=
  codegenFunctionDefinition_implements (show
    codegenFunctionDefinition () newSignature = .ok newFunction from rfl)

/-- The shape of a call: how many positional arguments, and which keywords. -/
def callShape (nPositional : Nat) (keywordNames : List String) :
    Arguments Unit where
  positional := List.replicate nPositional ()
  keywords := keywordNames.map fun name => (name, ())

@[simp] theorem keywords_callShape (n : Nat) (keywordNames : List String) :
    (callShape n keywordNames).keywords.map Prod.fst = keywordNames := by
  rw [callShape, List.map_map]
  exact List.map_id keywordNames

@[simp] theorem length_callShape (n : Nat) (keywordNames : List String) :
    (callShape n keywordNames).positional.length = n :=
  List.length_replicate

theorem keywordTarget_update (name : String) :
    keywordTarget updateSignature name =
      if name = "self" then some 0 else none := by
  unfold keywordTarget updateSignature
  by_cases hSelf : name = "self"
  · rw [if_pos hSelf, hSelf]
    rfl
  · rw [if_neg hSelf, List.findIdx?_cons,
      if_neg (by simpa using Ne.symm hSelf)]
    rfl

theorem keywordTarget_new (name : String) :
    keywordTarget (dropFirst newSignature) name = none := rfl

/-- A call of an update binds unless a keyword is `self`. -/
theorem accepts_update_iff (n : Nat) {keywordNames : List String}
    (hNodup : keywordNames.Nodup) :
    Accepts updateSignature (callShape (1 + n) keywordNames) ↔
      "self" ∉ keywordNames := by
  constructor
  · intro h hSelf
    have hMem : ("self", ()) ∈ (callShape (1 + n) keywordNames).keywords :=
      List.mem_map.mpr ⟨"self", hSelf, rfl⟩
    have hOnce := h.once _ hMem 0 (keywordTarget_update "self") (by decide)
    rw [length_callShape] at hOnce
    omega
  · intro hSelf
    refine ⟨.inr rfl, by rwa [keywords_callShape], fun _ _ _ => rfl, ?_, ?_⟩
    · intro kw hkw i hTarget _
      obtain ⟨name, hName, rfl⟩ := List.mem_map.mp hkw
      have hOther : name ≠ "self" := fun hEq => hSelf (hEq ▸ hName)
      rw [keywordTarget_update, if_neg hOther] at hTarget
      cases hTarget
    · intro i hi
      have hCount : i < 3 := hi
      obtain rfl | rfl | rfl : i = 0 ∨ i = 1 ∨ i = 2 := by omega
      · rw [Nat.add_comm]
        exact nofun
      · exact nofun
      · exact nofun

/-- The constructor binds any keywords. -/
theorem accepts_new (n : Nat) {keywordNames : List String}
    (hNodup : keywordNames.Nodup) :
    Accepts (dropFirst newSignature) (callShape n keywordNames) := by
  refine ⟨.inr rfl, by rwa [keywords_callShape], fun _ _ _ => rfl, nofun, ?_⟩
  intro i hi
  have hCount : i < 2 := hi
  obtain rfl | rfl : i = 0 ∨ i = 1 := by omega
  · exact nofun
  · exact nofun

end Binding

/-! ## Calls -/

section CallSpecs

variable {P : KeyProtocol O T} {self : Dict O O} {m : OrderedMap O O}

/-- The keywords as items, in the order of the call. -/
def keywordItems (names : KeywordNames P) (keywords : List (String × O)) :
    OrderedMap O O :=
  keywords.map fun kw => (names.key kw.1, kw.2)

/-- The strings of two names are equal only if the names are. -/
theorem KeywordNames.keyEqual_iff (names : KeywordNames P)
    (name name' : String) :
    P.keyEqual (names.key name) (names.key name') = true ↔ name = name' := by
  unfold KeyProtocol.keyEqual KeyProtocol.testEqual
  rw [names.text_key, names.text_key, Bool.or_eq_true, decide_eq_true_iff,
    decide_eq_true_iff]
  constructor
  · rintro (hKey | hText)
    · have hText := congrArg P.text hKey
      rw [names.text_key, names.text_key, Option.some.injEq] at hText
      exact names.injective _ _ hText
    · exact names.injective _ _ hText
  · rintro rfl
    exact .inl rfl

theorem keywordItems_distinct (names : KeywordNames P)
    {keywords : List (String × O)} (h : (keywords.map Prod.fst).Nodup) :
    OrderedMap.Distinct P.keyEqual (keywordItems names keywords) := by
  unfold OrderedMap.Distinct keywordItems
  rw [List.pairwise_map]
  refine (List.pairwise_map.mp h).imp fun hNe => ?_
  rw [← Bool.not_eq_true]
  exact mt (names.keyEqual_iff _ _).mp hNe

/-- Storing items whose keys are all new puts them at the end. -/
theorem update_of_distinct {eqv : O → O → Bool} : ∀ (items m : OrderedMap O O),
    OrderedMap.Distinct eqv (m ++ items) →
    OrderedMap.update eqv m items = m ++ items := by
  intro items
  induction items with
  | nil => exact fun m _ => (List.append_nil m).symm
  | cons item items ih =>
      intro m hDistinct
      have hAbsent : ∀ other ∈ m, eqv other.1 item.1 = false :=
        fun other hOther => (List.pairwise_append.mp hDistinct).2.2 other
          hOther item List.mem_cons_self
      show OrderedMap.update eqv (OrderedMap.set eqv m item.1 item.2) items = _
      rw [OrderedMap.set_of_absent hAbsent]
      exact (ih (m ++ [item]) (by rwa [← List.append_cons])).trans
        (List.append_cons m item items).symm

/-- Stores in a row. -/
theorem foldlM_setItem_spec (hP : Lawful P) (names : KeywordNames P) :
    ∀ (keywords : List (String × O)) (d : Dict O O) (m : OrderedMap O O),
      Represents P d m →
      ∃ d', keywords.foldlM
          (fun dict kw => setItem P dict (names.key kw.1) kw.2) d = some d' ∧
        Represents P d' (OrderedMap.update P.keyEqual m
          (keywordItems names keywords)) := by
  intro keywords
  induction keywords with
  | nil => exact fun d m h => ⟨d, rfl, h⟩
  | cons kw keywords ih =>
      intro d m h
      obtain ⟨d', hSet, hd'⟩ := setItem_represents hP h (names.key kw.1) kw.2
      rw [List.foldlM_cons, hSet]
      exact ih d' _ hd'

/-- The `**kwargs` dict holds the keywords in the order of the call. -/
theorem makeKwargs_spec (hP : Lawful P) (names : KeywordNames P)
    {f : Function Unit} {keywords : List (String × O)}
    (hNodup : (keywords.map Prod.fst).Nodup)
    (hSurplus : ∀ name ∈ keywords.map Prod.fst, namedParameter f name = none) :
    ∃ kwargs, makeKwargs P names f keywords = some kwargs ∧
      Represents P kwargs (keywordItems names keywords) := by
  obtain ⟨kwargs, hFold, hKwargs⟩ :=
    foldlM_setItem_spec hP names keywords empty [] represents_empty
  have hAll : (keywords.filter fun kw => (namedParameter f kw.1).isNone) =
      keywords := by
    refine List.filter_eq_self.mpr fun kw hkw => ?_
    rw [hSurplus kw.1 (List.mem_map_of_mem hkw)]
    rfl
  rw [update_of_distinct (keywordItems names keywords) []
    (keywordItems_distinct names hNodup)] at hKwargs
  refine ⟨kwargs, ?_, hKwargs⟩
  rw [makeKwargs, hAll]
  exact hFold

theorem updateFromArgs_spec (hP : Lawful P) {args : Option (UpdateSource O)}
    {pairs : OrderedMap O O} {failed : Bool}
    (hSource : SourcePairs P m args pairs failed) (hSelf : Represents P self m) :
    ∃ self', updateFromArgs P args self =
        some (self', sourceAnswer failed) ∧
      Represents P self' (OrderedMap.update P.keyEqual m pairs) := by
  cases hSource with
  | absent => exact ⟨self, rfl, hSelf⟩
  | itself =>
      rw [OrderedMap.update_self hP.equivalence hSelf.distinct]
      exact updateFromOwnKeys_spec hP hSelf
  | mapping keys item => exact updateMapping_spec hP item keys self m hSelf
  | dict hOther => exact updateFromKeys_spec hP hOther hSelf
  | iterable elements => exact updateElements_spec hP elements self m hSelf

/-- What an update should leave: the pairs of the source, and then the
keywords unless the source failed. -/
def updatedMap (P : KeyProtocol O T) (m pairs : OrderedMap O O)
    (failed : Bool) (keywords : OrderedMap O O) : OrderedMap O O :=
  let updated := OrderedMap.update P.keyEqual m pairs
  if failed then updated else OrderedMap.update P.keyEqual updated keywords

theorem dictUpdate_spec (hP : Lawful P) {args : Option (UpdateSource O)}
    {pairs items : OrderedMap O O} {failed : Bool} {kwargs : Dict O O}
    (hSource : SourcePairs P m args pairs failed) (hSelf : Represents P self m)
    (hKwargs : Represents P kwargs items) :
    ∃ self', dictUpdate P self args kwargs =
        some (self', sourceAnswer failed) ∧
      Represents P self' (updatedMap P m pairs failed items) := by
  obtain ⟨first, hFirst, hFirstRep⟩ := updateFromArgs_spec hP hSource hSelf
  rw [dictUpdate, hFirst]
  cases failed with
  | true => exact ⟨first, rfl, hFirstRep⟩
  | false => exact updateFromKeys_spec hP hKwargs hFirstRep

/-- A call without a keyword `self` updates. -/
theorem callUpdate_spec (hP : Lawful P) (names : KeywordNames P)
    {args : Option (UpdateSource O)} {pairs : OrderedMap O O} {failed : Bool}
    {keywords : List (String × O)}
    (hSource : SourcePairs P m args pairs failed) (hSelf : Represents P self m)
    (hNodup : (keywords.map Prod.fst).Nodup)
    (hNames : "self" ∉ keywords.map Prod.fst) :
    ∃ self', callUpdate P names self args keywords =
        some (self', sourceAnswer failed) ∧
      Represents P self' (updatedMap P m pairs failed
        (keywordItems names keywords)) := by
  have hAccepts := (accepts_update_iff args.toList.length hNodup).mpr hNames
  have hBound := buildKeywordCall_of_accepts updateFunction_implements hAccepts
  rw [keywords_callShape, length_callShape] at hBound
  obtain ⟨kwargs, hMake, hKwargs⟩ :=
    @makeKwargs_spec _ _ _ _ P hP names updateFunction keywords hNodup (by
      intro name hName
      have hOther : name ≠ "self" := fun hEq => hNames (hEq ▸ hName)
      rw [namedParameter_eq updateFunction_implements, keywordTarget_update,
        if_neg hOther])
  obtain ⟨self', hUpdate, hSelf'⟩ := dictUpdate_spec hP hSource hSelf hKwargs
  refine ⟨self', ?_, hSelf'⟩
  rw [callUpdate, hBound]
  dsimp only
  rw [hMake]
  exact hUpdate

/-- A keyword `self` is refused, and nothing is stored. -/
theorem callUpdate_self (names : KeywordNames P)
    {args : Option (UpdateSource O)} {keywords : List (String × O)}
    (hNodup : (keywords.map Prod.fst).Nodup)
    (hNames : "self" ∈ keywords.map Prod.fst) :
    ∃ message, callUpdate P names self args keywords =
      some (self, .error ⟨"TypeError", message⟩) := by
  have hRejects := mt (accepts_update_iff args.toList.length hNodup).mp
    (not_not.mpr hNames)
  obtain ⟨message, hBound⟩ :=
    buildKeywordCall_of_not_accepts updateFunction_implements hRejects
  rw [keywords_callShape, length_callShape] at hBound
  exact ⟨message, by rw [callUpdate, hBound]⟩

/-- What a construction answers: the dict, or `ValueError` where the source
fails. -/
def Constructed (P : KeyProtocol O T) (failed : Bool) (m : OrderedMap O O) :
    Option (Except BuiltinException (Dict O O)) → Prop
  | some (.ok d) => failed = false ∧ Represents P d m
  | some (.error e) => failed = true ∧ e = valueError
  | none => False

/-- A construction with a source: an update of an empty dict from it, and
another from the keywords. -/
theorem dictNew_source (hP : Lawful P) (names : KeywordNames P)
    {source : Source O} {pairs items : OrderedMap O O} {failed : Bool}
    {kwargs : Dict O O}
    (hSource : SourcePairs P [] (some (.source source)) pairs failed)
    (hKwargs : Represents P kwargs items) :
    Constructed P failed (updatedMap P [] pairs false items)
      (dictNew P names (some source) kwargs) := by
  obtain ⟨result, hFirst, hResult⟩ := @callUpdate_spec _ _ _ _ P empty [] hP
    names _ pairs failed [] hSource represents_empty List.nodup_nil
    List.not_mem_nil
  cases failed with
  | true =>
      rw [dictNew, hFirst]
      exact ⟨rfl, rfl⟩
  | false =>
      obtain ⟨d, hSecond, hd⟩ := @callUpdate_spec _ _ _ _ P result _ hP names
        _ items false [] (.dict hKwargs) hResult List.nodup_nil
        List.not_mem_nil
      rw [dictNew, hFirst]
      dsimp only [sourceAnswer, Option.bind_eq_bind, Option.bind_some]
      rw [if_neg Bool.false_ne_true]
      dsimp only
      rw [hSecond]
      exact ⟨rfl, hd⟩

/-- A construction, with any keywords. -/
theorem callDict_spec (hP : Lawful P) (names : KeywordNames P)
    {args : Option (Source O)} {pairs : OrderedMap O O} {failed : Bool}
    {keywords : List (String × O)}
    (hSource : SourcePairs P [] (args.map .source) pairs failed)
    (hNodup : (keywords.map Prod.fst).Nodup) :
    Constructed P failed
      (updatedMap P [] pairs false (keywordItems names keywords))
      (callDict P names args keywords) := by
  obtain ⟨thunk, hThunk, hImplements⟩ := @makeConstructorThunkFunction_implements
    Unit newSignature newFunction () "__new__" "cls" newFunction_implements
    (by decide)
  have hBound := buildKeywordCall_of_accepts hImplements
    (accepts_new args.toList.length hNodup)
  rw [keywords_callShape, length_callShape] at hBound
  obtain ⟨kwargs, hMake, hKwargs⟩ :=
    @makeKwargs_spec _ _ _ _ P hP names thunk keywords hNodup (fun name _ =>
      (namedParameter_eq hImplements name).trans (keywordTarget_new name))
  have hCall : callDict P names args keywords =
      dictNew P names args kwargs := by
    rw [callDict, hThunk]
    dsimp only
    rw [hBound]
    dsimp only
    rw [hMake]
    rfl
  rw [hCall]
  cases args with
  | some source => exact dictNew_source hP names hSource hKwargs
  | none =>
      cases hSource
      refine ⟨rfl, ?_⟩
      rw [show updatedMap P [] [] false (keywordItems names keywords) =
        OrderedMap.update P.keyEqual [] (keywordItems names keywords) from rfl,
        update_of_distinct (keywordItems names keywords) []
          (keywordItems_distinct names hNodup)]
      exact hKwargs

/-- `self.update(source, **keywords)` leaves the map that it should, and raises
`ValueError` where the source fails. -/
def UpdateAgrees (P : KeyProtocol O T) (names : KeywordNames P)
    (self : Dict O O) (m : OrderedMap O O) (args : Option (UpdateSource O))
    (pairs : OrderedMap O O) (failed : Bool) (keywords : List (String × O)) :
    Prop :=
  ∃ self', callUpdate P names self args keywords =
      some (self', sourceAnswer failed) ∧
    Represents P self' (updatedMap P m pairs failed
      (keywordItems names keywords))

/-- `dict(source, **keywords)` is the dict that it should be, or raises
`ValueError` where the source fails. -/
def NewAgrees (P : KeyProtocol O T) (names : KeywordNames P)
    (args : Option (Source O)) (pairs : OrderedMap O O) (failed : Bool)
    (keywords : List (String × O)) : Prop :=
  Constructed P failed
    (updatedMap P [] pairs false (keywordItems names keywords))
    (callDict P names args keywords)

/-- **Updating and constructing a dict**: an update from any source does what
it should exactly when no keyword is `self`, and the constructor always
does. -/
theorem update_agrees_iff (hP : Lawful P) (names : KeywordNames P)
    {keywords : List (String × O)} (hNodup : (keywords.map Prod.fst).Nodup) :
    (∀ (self : Dict O O) (m : OrderedMap O O) (args : Option (UpdateSource O))
      (pairs : OrderedMap O O) (failed : Bool), Represents P self m →
      SourcePairs P m args pairs failed →
      (UpdateAgrees P names self m args pairs failed keywords ↔
        "self" ∉ keywords.map Prod.fst)) ∧
    ∀ (args : Option (Source O)) (pairs : OrderedMap O O) (failed : Bool),
      SourcePairs P [] (args.map .source) pairs failed →
      NewAgrees P names args pairs failed keywords := by
  constructor
  · intro self m args pairs failed hSelf hSource
    constructor
    · rintro ⟨self', hUpdate, -⟩ hNames
      obtain ⟨message, hRefused⟩ :=
        @callUpdate_self _ _ _ _ P self names args keywords hNodup hNames
      have hAnswer := congrArg Prod.snd
        (Option.some.inj (hUpdate.symm.trans hRefused))
      cases failed with
      | true =>
          have hError : valueError.typeName = "TypeError" :=
            congrArg BuiltinException.typeName (Except.error.inj hAnswer)
          exact absurd hError (by decide)
      | false => cases hAnswer
    · exact callUpdate_spec hP names hSource hSelf hNodup
  · exact fun args pairs failed hSource =>
      callDict_spec hP names hSource hNodup

end CallSpecs

/-- Strings as the keys and values of a dict. -/
def stringKeys : KeyProtocol String String where
  text := some
  stringHashNormalized := fun t => t.length
  otherHash := fun _ => 0
  otherEqual := fun _ _ => false

theorem keyEqual_stringKeys (a b : String) :
    stringKeys.keyEqual a b = true ↔ a = b := by
  rw [KeyProtocol.keyEqual, KeyProtocol.testEqual]
  show (decide (a = b) || decide (a = b)) = true ↔ _
  rw [Bool.or_self, decide_eq_true_iff]

theorem stringKeys_lawful : Lawful stringKeys where
  equivalence := by
    constructor
    · exact fun a => (keyEqual_stringKeys a a).mpr rfl
    · exact fun h => (keyEqual_stringKeys _ _).mpr
        ((keyEqual_stringKeys _ _).mp h).symm
    · exact fun h h' => (keyEqual_stringKeys _ _).mpr
        (((keyEqual_stringKeys _ _).mp h).trans
          ((keyEqual_stringKeys _ _).mp h'))
  hashConsistent := fun a b h => by rw [(keyEqual_stringKeys a b).mp h]

def stringNames : KeywordNames stringKeys where
  key := id
  characters := id
  text_key := fun _ => rfl
  injective := fun _ _ h => h

/-- An iterator over the items of a list. -/
def listElement (items : List String) : Element String where
  State := List String
  start := items
  next
    | [] => none
    | item :: rest => some (item, rest)

theorem update_agrees_iff_pairs :
    ∃ self, setItem stringKeys empty "a" "1" = some self ∧
      UpdateAgrees stringKeys stringNames self [("a", "1")]
        (some (.source (.iterable [listElement ["b", "2"],
          listElement ["a", "3"], listElement ["c"], listElement ["d", "4"]])))
        [("b", "2"), ("a", "3")] true [("cls", "x")] := by
  obtain ⟨self, hSelf, hRep⟩ := setItem_represents stringKeys_lawful
    represents_empty "a" "1"
  exact ⟨self, hSelf, ((update_agrees_iff stringKeys_lawful stringNames
    (by decide : ([("cls", "x")].map Prod.fst).Nodup)).1 self _ _ _ _ hRep
      (.iterable _)).mpr (by decide)⟩

/-- `{}.update(self='x')` raises `TypeError`. -/
theorem update_self_refused :
    callUpdate stringKeys stringNames empty none [("self", "x")] =
        some (empty, .error ⟨"TypeError", "invalid keyword argument"⟩) ∧
      ¬ UpdateAgrees stringKeys stringNames empty [] none [] false
        [("self", "x")] := by
  have hRefused : callUpdate stringKeys stringNames empty none
      [("self", "x")] =
      some (empty, .error ⟨"TypeError", "invalid keyword argument"⟩) := rfl
  refine ⟨hRefused, ?_⟩
  rintro ⟨self', hUpdate, -⟩
  have hAnswer := congrArg Prod.snd
    (Option.some.inj (hUpdate.symm.trans hRefused))
  cases hAnswer

end CloverVM.BuiltinTypes.Dict
