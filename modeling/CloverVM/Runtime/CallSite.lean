import CloverVM.ObjectModel.ClassObject

/-!
# Call sites and their caches

A call site keeps what it found about the last callable it called.  A cache
that still matches enters the callable without looking it up again; its
validity cell says whether the constructor of a class may have changed.
-/

namespace CloverVM.Runtime.CallSite

open CloverVM.Bytecode.Frame
open CloverVM.ObjectModel
open CloverVM.ObjectModel.ClassObject
open CloverVM.Compiler.FunctionDefinition
open CloverVM.Runtime.ArgumentBinding
open CloverVM.Runtime.CallEntry
open CloverVM.Runtime.CallBinding
open CloverVM.Runtime.ConstructorThunk

variable {V : Type} [DecidableEq V]

/-- What a value is to a call. -/
inductive Callable (V : Type) where
  | function (f : Function V)
  | classObject
  | other

/-- The function a call enters; a thunk's code follows when it constructs. -/
structure Callee (V : Type) where
  function : Function V
  thunkCode : Option ThunkCode := none

/-- What the call sites of a program have in common. -/
structure Machine (V : Type) where
  objects : Objects V
  header : FrameHeader V
  callable : V → Callable V
  newInstance : V → V
  noneValue : V

/-- The callee of a value and the cell that vouches for it. -/
def resolveCallee (m : Machine V) (w : World V) (callable : V) :
    Except BuiltinException (Callee V × Option Nat) × World V :=
  match m.callable callable with
  | .other => (.error ⟨"TypeError", "object is not callable"⟩, w)
  | .function f => (.ok ({ function := f }, none), w)
  | .classObject =>
      match getOrCreateConstructorThunk m.noneValue w callable with
      | (.error e, w) => (.error e, w)
      | (.ok none, w) => (.error ⟨"TypeError", "object is not callable"⟩, w)
      | (.ok (some (thunk, cell)), w) =>
          (.ok (⟨thunk.function, some thunk.code⟩, some cell), w)

/-- The frame of the callee, or that of the method its thunk enters; none for
a class whose instances need no method. -/
def enterCallee (m : Machine V) (cls : V) (callee : Callee V)
    (entered : Entered V) : Option (Entered V) :=
  match callee.thunkCode with
  | none => some entered
  | some code =>
      runConstructorThunk m.header (m.newInstance cls) cls
        ⟨callee.function, code⟩ entered

structure FunctionCallInlineCache (V : Type) where
  guardValue : V
  callee : Callee V
  validityCell : Option Nat
  nArgs : Nat
  adaptation : FunctionCallAdaptation

structure KeywordCallInlineCache (V : Type) where
  guardValue : V
  callee : Callee V
  validityCell : Option Nat
  nPosArgs : Nat
  defaultFillStartSlot : Nat
  adaptation : FunctionCallAdaptation
  keywordDestRegs : List Int

/-- The test of a cache's cell. -/
def cellIsValid (w : World V) : Option Nat → Bool
  | none => true
  | some cell => w.isValid cell

/-- `function_call_cache_matches`. -/
def functionCallCacheMatches (w : World V) (cache : FunctionCallInlineCache V)
    (callable : V) (nArgs : Nat) : Bool :=
  decide (cache.nArgs = nArgs ∧ cache.guardValue = callable) &&
    cellIsValid w cache.validityCell

/-- `keyword_call_cache_matches`. -/
def keywordCallCacheMatches (w : World V) (cache : KeywordCallInlineCache V)
    (callable : V) (nPosArgs : Nat) : Bool :=
  decide (cache.nPosArgs = nPosArgs ∧ cache.guardValue = callable) &&
    cellIsValid w cache.validityCell

/-- `populate_positional_call_cache_from_callable`. -/
def populatePositionalCallCacheFromCallable (m : Machine V) (w : World V)
    (callable : V) (nArgs : Nat) :
    Except BuiltinException (FunctionCallInlineCache V) × World V :=
  match resolveCallee m w callable with
  | (.error e, w) => (.error e, w)
  | (.ok (callee, cell), w) =>
      if callee.function.acceptsPositionalOnlyCallArity nArgs then
        (.ok
          { guardValue := callable
            callee := callee
            validityCell := cell
            nArgs := nArgs
            adaptation :=
              functionCallAdaptationForPositionalCall callee.function nArgs },
          w)
      else (.error ⟨"TypeError", "wrong number of arguments"⟩, w)

/-- `populate_keyword_call_cache_from_callable`, with the counts cut to the
widths of the cache's fields. -/
def populateKeywordCallCacheFromCallable (m : Machine V) (w : World V)
    (callable : V) (keywordNames : List String) (nPosArgs : Nat) :
    Except BuiltinException (KeywordCallInlineCache V) × World V :=
  match resolveCallee m w callable with
  | (.error e, w) => (.error e, w)
  | (.ok (callee, cell), w) =>
      match buildKeywordCall callee.function keywordNames nPosArgs with
      | .error e => (.error e, w)
      | .ok (defaultFillStartSlot, keywordDestRegs) =>
          (.ok
            { guardValue := callable
              callee := callee
              validityCell := cell
              nPosArgs := nPosArgs % 2 ^ 8
              defaultFillStartSlot := defaultFillStartSlot % 2 ^ 16
              adaptation :=
                functionCallAdaptationForKeywordCall callee.function
              keywordDestRegs := keywordDestRegs }, w)

/-! ## Calls -/

/-- A call instruction: its arguments are in consecutive registers from
`firstTemporary` on, after the values of its keywords. -/
structure CallSite where
  isMethod : Bool
  nUserArgs : Nat
  keywordNames : Option (List String)
  paddedParameters : Nat
  firstTemporary : Nat

namespace CallSite

variable (site : CallSite)

/-- The registers for keyword values, at least one when there are any. -/
def nKeywordValueRegs : Nat :=
  match site.keywordNames with
  | none => 0
  | some names => max names.length 1

def keywordValueReg (k : Nat) : Nat := site.firstTemporary + k

/-- `call_args`, the first argument or the receiver. -/
def callArgs : Nat :=
  callFrameReg site.paddedParameters
    (site.firstTemporary + site.nKeywordValueRegs)

def userArgReg (i : Nat) : Nat :=
  site.callArgs + (if site.isMethod then 1 else 0) + i

def encode (reg : Nat) : Int := encodeReg site.paddedParameters reg

/-- The registers are temporaries of a frame that a byte can address, and the
counts fit their operands. -/
structure Encodable : Prop where
  temporaries : site.paddedParameters + frameHeaderSize ≤ site.firstTemporary
  registers : -128 ≤
    registerOffset site.paddedParameters (site.userArgReg site.nUserArgs)
  count : site.nUserArgs < 2 ^ 8

end CallSite

/-- The state that calls of a site share. -/
structure CallState (V : Type) where
  world : World V
  functionCache : Option (FunctionCallInlineCache V) := none
  keywordCache : Option (KeywordCallInlineCache V) := none

/-- One execution of a call instruction; a method call has found the callable
and, when it binds, `self`. -/
structure Call (V : Type) where
  callable : V
  self : Option V
  slots : Slots V

/-- `prepare_method_call_argument_slots`. -/
def prepareMethodCallArgumentSlots (receiverReg : Int) (nUserArgs : Nat)
    (self : Option V) (slots : Slots V) : Slots V :=
  match self with
  | some self => store slots receiverReg self
  | none =>
      (List.range nUserArgs).foldl
        (fun (slots : Slots V) (argIdx : Nat) =>
          store slots (receiverReg - argIdx) (slots (receiverReg - argIdx - 1)))
        slots

section Run

variable (m : Machine V) (site : CallSite)

/-- The arguments passed, `self` included. -/
def nArgsOf (call : Call V) : Nat :=
  site.nUserArgs + if call.self.isSome then 1 else 0

def prepareSlots (call : Call V) : Slots V :=
  if site.isMethod then
    prepareMethodCallArgumentSlots (site.encode site.callArgs) site.nUserArgs
      call.self call.slots
  else call.slots

/-- `enter_positional_call_from_cache`. -/
def enterPositionalCallFromCache (cache : FunctionCallInlineCache V)
    (call : Call V) : Option (Entered V) :=
  enterCallee m call.callable cache.callee
    (enterFunctionFrameFromPositionalArgs m.objects m.header
      cache.callee.function (site.encode site.callArgs) (nArgsOf site call)
      cache.adaptation (prepareSlots site call))

def enterKeywordCallFromCache (names : List String)
    (cache : KeywordCallInlineCache V) (call : Call V) : Option (Entered V) :=
  enterCallee m call.callable cache.callee
    (enterFunctionFrameFromKeywordArgs m.objects m.header
      cache.callee.function (site.encode site.callArgs) cache.adaptation
      cache.defaultFillStartSlot cache.keywordDestRegs names
      (nArgsOf site call) (site.encode (site.keywordValueReg 0))
      (prepareSlots site call))

/-- The slow path of a positional call, when the cache does not match. -/
def populateAndEnterPositional (s : CallState V) (call : Call V) :
    Except BuiltinException (Option (Entered V)) × CallState V :=
  match populatePositionalCallCacheFromCallable m s.world call.callable
    (nArgsOf site call) with
  | (.error e, w) => (.error e, { s with world := w })
  | (.ok cache, w) =>
      (.ok (enterPositionalCallFromCache m site cache call),
        { s with world := w, functionCache := some cache })

/-- `CallPositional` and `CallMethodAttrPositional`. -/
def runPositionalCall (s : CallState V) (call : Call V) :
    Except BuiltinException (Option (Entered V)) × CallState V :=
  match s.functionCache with
  | none => populateAndEnterPositional m site s call
  | some cache =>
      if functionCallCacheMatches s.world cache call.callable
        (nArgsOf site call) then
        (.ok (enterPositionalCallFromCache m site cache call), s)
      else populateAndEnterPositional m site s call

/-- The slow path of a keyword call, when the cache does not match. -/
def populateAndEnterKeyword (names : List String) (s : CallState V)
    (call : Call V) :
    Except BuiltinException (Option (Entered V)) × CallState V :=
  match populateKeywordCallCacheFromCallable m s.world call.callable names
    (nArgsOf site call) with
  | (.error e, w) => (.error e, { s with world := w })
  | (.ok cache, w) =>
      (.ok (enterKeywordCallFromCache m site names cache call),
        { s with world := w, keywordCache := some cache })

/-- `CallKeyword` and `CallMethodAttrKeyword`. -/
def runKeywordCall (names : List String) (s : CallState V) (call : Call V) :
    Except BuiltinException (Option (Entered V)) × CallState V :=
  match s.keywordCache with
  | none => populateAndEnterKeyword m site names s call
  | some cache =>
      if keywordCallCacheMatches s.world cache call.callable
        (nArgsOf site call) then
        (.ok (enterKeywordCallFromCache m site names cache call), s)
      else populateAndEnterKeyword m site names s call

def runCall (s : CallState V) (call : Call V) :
    Except BuiltinException (Option (Entered V)) × CallState V :=
  match site.keywordNames with
  | none => runPositionalCall m site s call
  | some names => runKeywordCall m site names s call

/-- What can happen between two calls of a site. -/
inductive Event (V : Type) where
  | setAttribute (cls : V) (name : String) (value : Option (Attribute V))
  | lookupConstructor (cls : V)
  | call (call : Call V)

def step (s : CallState V) : Event V → CallState V
  | .setAttribute cls name value =>
      { s with world := setAttribute s.world cls name value }
  | .lookupConstructor cls =>
      { s with
        world := (getOrCreateConstructorThunk m.noneValue s.world cls).2 }
  | .call call => (runCall m site s call).2

/-- The states of a site in a program whose classes have not been called
yet, after some events. -/
def run (world : World V) (events : List (Event V)) : CallState V :=
  events.foldl (step m site) { world := world }

end Run

/-- Classes before any cell has been made. -/
structure Pristine (w : World V) : Prop where
  cells : ∀ c, (w.classes c).mroShapeAndContentsValidityCell = none
  isValid : ∀ k, w.isValid k = false

section Outcome

variable (m : Machine V) (site : CallSite)

/-- The callee of a class whose constructor this is. -/
def calleeOfConstructor :
    Except BuiltinException (Option (ConstructorFunction V)) →
      Except BuiltinException (Callee V)
  | .error e => .error e
  | .ok none => .error ⟨"TypeError", "object is not callable"⟩
  | .ok (some thunk) => .ok ⟨thunk.function, some thunk.code⟩

/-- The callee that the functions and classes call for now. -/
def calleeOf (w : World V) (callable : V) :
    Except BuiltinException (Callee V) :=
  match m.callable callable with
  | .other => .error ⟨"TypeError", "object is not callable"⟩
  | .function f => .ok { function := f }
  | .classObject =>
      calleeOfConstructor (constructorOf m.noneValue w callable)

/-- Enter a function with the arguments of a call, or reject them. -/
def enterFunction (f : Function V) (call : Call V) :
    Except BuiltinException (Entered V) :=
  match site.keywordNames with
  | none =>
      if f.acceptsPositionalOnlyCallArity (nArgsOf site call) then
        .ok (enterFunctionFrameFromPositionalArgs m.objects m.header f
          (site.encode site.callArgs) (nArgsOf site call)
          (functionCallAdaptationForPositionalCall f (nArgsOf site call))
          (prepareSlots site call))
      else .error ⟨"TypeError", "wrong number of arguments"⟩
  | some names =>
      match buildKeywordCall f names (nArgsOf site call) with
      | .error e => .error e
      | .ok (defaultFillStartSlot, keywordDestRegs) =>
          .ok (enterFunctionFrameFromKeywordArgs m.objects m.header f
            (site.encode site.callArgs)
            (functionCallAdaptationForKeywordCall f)
            (defaultFillStartSlot % 2 ^ 16) keywordDestRegs names
            (nArgsOf site call) (site.encode (site.keywordValueReg 0))
            (prepareSlots site call))

/-- What a call does without any cache. -/
def outcome (w : World V) (call : Call V) :
    Except BuiltinException (Option (Entered V)) :=
  match calleeOf m w call.callable with
  | .error e => .error e
  | .ok callee =>
      match enterFunction m site callee.function call with
      | .error e => .error e
      | .ok entered => .ok (enterCallee m call.callable callee entered)

end Outcome

/-! ## Caches that still hold -/

section Invariant

variable {m : Machine V} {site : CallSite}

/-- A callee found earlier is the right one while its cell is valid. -/
def VouchedFor (m : Machine V) (w : World V) (callable : V)
    (callee : Callee V) : Option Nat → Prop
  | none => calleeOf m w callable = .ok callee ∧
      ∃ f, m.callable callable = .function f
  | some cell => cell < w.nextCell ∧
      (w.isValid cell = true →
        (w.classes callable).mroShapeAndContentsValidityCell = some cell ∧
          calleeOf m w callable = .ok callee)

/-- Between two worlds nothing that a valid cell vouches for has changed. -/
structure Keeps (noneValue : V) (w w' : World V) : Prop where
  nextCell : w.nextCell ≤ w'.nextCell
  wasValid : ∀ cell, cell < w.nextCell → w'.isValid cell = true →
    w.isValid cell = true
  contents : ∀ c cell,
    (w.classes c).mroShapeAndContentsValidityCell = some cell →
    cell < w.nextCell → w'.isValid cell = true →
      (w'.classes c).mroShapeAndContentsValidityCell = some cell ∧
        constructorOf noneValue w' c = constructorOf noneValue w c

theorem keeps_of_later (noneValue : V) {w w' : World V} (h : Later w w') :
    Keeps noneValue w w' where
  nextCell := h.nextCell
  wasValid cell hLt hValid := by
    rw [h.valid cell hLt] at hValid
    exact hValid
  contents c cell hCell hLt hValid := by
    rw [h.valid cell hLt] at hValid
    exact ⟨h.cells c cell hCell hValid, h.contents.constructorOf_eq _ c⟩

theorem keeps_setAttribute {noneValue : V} {w : World V}
    (hw : WellFormed noneValue w) (cls : V) (name : String)
    (value : Option (Attribute V)) :
    Keeps noneValue w (setAttribute w cls name value) := by
  obtain ⟨-, hNext, hWas, hSame⟩ :=
    @setAttribute_spec V _ noneValue w cls name value hw
  exact
    { nextCell := Nat.le_of_eq hNext.symm
      wasValid := fun cell _ => hWas cell
      contents := fun c cell hCell _ => hSame c cell hCell }

theorem calleeOf_congr {w w' : World V} {callable : V}
    (h : constructorOf m.noneValue w' callable =
      constructorOf m.noneValue w callable) :
    calleeOf m w' callable = calleeOf m w callable := by
  rw [calleeOf, calleeOf, h]

theorem VouchedFor.keep {w w' : World V} {callable : V} {callee : Callee V}
    {cell : Option Nat} (h : VouchedFor m w callable callee cell)
    (hKeeps : Keeps m.noneValue w w') :
    VouchedFor m w' callable callee cell := by
  cases cell with
  | none =>
      obtain ⟨hCallee, f, hf⟩ := h
      refine ⟨?_, f, hf⟩
      rw [calleeOf, hf] at hCallee ⊢
      exact hCallee
  | some cell =>
      obtain ⟨hLt, hValid⟩ := h
      refine ⟨Nat.lt_of_lt_of_le hLt hKeeps.nextCell, fun hValid' => ?_⟩
      obtain ⟨hCell, hCallee⟩ := hValid (hKeeps.wasValid cell hLt hValid')
      obtain ⟨hCell', hSame⟩ := hKeeps.contents callable cell hCell hLt hValid'
      exact ⟨hCell', (calleeOf_congr hSame).trans hCallee⟩

theorem VouchedFor.callee {w : World V} {callable : V} {callee : Callee V}
    {cell : Option Nat} (h : VouchedFor m w callable callee cell)
    (hValid : cellIsValid w cell = true) :
    calleeOf m w callable = .ok callee := by
  cases cell with
  | none => exact h.1
  | some cell => exact (h.2 hValid).2

/-- Looking a callee up finds the one the functions and classes call for. -/
theorem resolveCallee_spec {w : World V} (hw : WellFormed m.noneValue w)
    (callable : V) :
    let r := resolveCallee m w callable
    WellFormed m.noneValue r.2 ∧ Keeps m.noneValue w r.2 ∧
      match calleeOf m w callable with
      | .error e => r.1 = .error e
      | .ok callee => ∃ cell, r.1 = .ok (callee, cell) ∧
          VouchedFor m r.2 callable callee cell := by
  have hSelf := keeps_of_later m.noneValue (Later.refl w)
  have hCallee : ∀ {w' : World V}, calleeOf m w' callable =
      match m.callable callable with
      | .other => .error ⟨"TypeError", "object is not callable"⟩
      | .function f => .ok { function := f }
      | .classObject =>
          calleeOfConstructor (constructorOf m.noneValue w' callable) := rfl
  rw [resolveCallee]
  cases hKind : m.callable callable with
  | other =>
      refine ⟨hw, hSelf, ?_⟩
      rw [hCallee, hKind]
  | function f =>
      rw [hKind] at hCallee
      refine ⟨hw, hSelf, ?_⟩
      rw [hCallee]
      exact ⟨none, rfl, hCallee, f, hKind⟩
  | classObject =>
      rw [hKind] at hCallee
      obtain ⟨hWell, hLater, hAnswer⟩ :=
        @getOrCreateConstructorThunk_spec V _ m.noneValue w callable hw
      have hKeeps := keeps_of_later m.noneValue hLater
      have hContents := hLater.contents.constructorOf_eq m.noneValue callable
      generalize getOrCreateConstructorThunk m.noneValue w callable = found
        at hWell hAnswer hKeeps hContents ⊢
      obtain ⟨result, w'⟩ := found
      simp only at hWell hAnswer hKeeps hContents ⊢
      rw [hCallee]
      cases hIs : constructorOf m.noneValue w callable with
      | error e =>
          rw [hIs] at hAnswer
          rw [show result = .error e from hAnswer]
          exact ⟨hWell, hKeeps, rfl⟩
      | ok constructor =>
          cases constructor with
          | none =>
              rw [hIs] at hAnswer
              rw [show result = .ok none from hAnswer]
              exact ⟨hWell, hKeeps, rfl⟩
          | some thunk =>
              rw [hIs] at hAnswer
              obtain ⟨cell, rfl, hCell, hValid⟩ := hAnswer
              refine ⟨hWell, hKeeps, some cell, rfl,
                hWell.fresh callable cell hCell, fun _ => ⟨hCell, ?_⟩⟩
              rw [hCallee, hContents, hIs]
              rfl

/-- The caches of a site hold what was found for a callable that may have
changed since only if the cell is invalid. -/
structure SiteInvariant (m : Machine V) (site : CallSite) (s : CallState V) :
    Prop where
  world : WellFormed m.noneValue s.world
  functionCache : ∀ cache, s.functionCache = some cache →
    VouchedFor m s.world cache.guardValue cache.callee cache.validityCell ∧
      cache.callee.function.acceptsPositionalOnlyCallArity cache.nArgs =
        true ∧
      cache.adaptation =
        functionCallAdaptationForPositionalCall cache.callee.function
          cache.nArgs
  keywordCache : ∀ cache names, s.keywordCache = some cache →
    site.keywordNames = some names →
    VouchedFor m s.world cache.guardValue cache.callee cache.validityCell ∧
      cache.adaptation =
        functionCallAdaptationForKeywordCall cache.callee.function ∧
      ∃ nPosArgs start, site.nUserArgs ≤ nPosArgs ∧
        nPosArgs ≤ site.nUserArgs + 1 ∧ cache.nPosArgs = nPosArgs % 2 ^ 8 ∧
        cache.defaultFillStartSlot = start % 2 ^ 16 ∧
        buildKeywordCall cache.callee.function names nPosArgs =
          .ok (start, cache.keywordDestRegs)

/-- Steps that leave the caches keep the invariant. -/
theorem SiteInvariant.keep {s : CallState V} {w : World V}
    (h : SiteInvariant m site s) (hWell : WellFormed m.noneValue w)
    (hKeeps : Keeps m.noneValue s.world w) :
    SiteInvariant m site { s with world := w } where
  world := hWell
  functionCache cache hCache := by
    obtain ⟨hVouched, hRest⟩ := h.functionCache cache hCache
    exact ⟨hVouched.keep hKeeps, hRest⟩
  keywordCache cache names hCache hNames := by
    obtain ⟨hVouched, hRest⟩ := h.keywordCache cache names hCache hNames
    exact ⟨hVouched.keep hKeeps, hRest⟩

end Invariant

/-! ## Calls with caches -/

section RunCall

variable {m : Machine V} {site : CallSite}

theorem populatePositional_spec {w : World V} (hw : WellFormed m.noneValue w)
    (callable : V) (nArgs : Nat) :
    let r := populatePositionalCallCacheFromCallable m w callable nArgs
    WellFormed m.noneValue r.2 ∧ Keeps m.noneValue w r.2 ∧
      match calleeOf m w callable with
      | .error e => r.1 = .error e
      | .ok callee =>
          if callee.function.acceptsPositionalOnlyCallArity nArgs then
            ∃ cell, VouchedFor m r.2 callable callee cell ∧
              r.1 = .ok
                { guardValue := callable, callee := callee
                  validityCell := cell, nArgs := nArgs
                  adaptation := functionCallAdaptationForPositionalCall
                    callee.function nArgs }
          else r.1 = .error ⟨"TypeError", "wrong number of arguments"⟩ := by
  obtain ⟨hWell, hKeeps, hAnswer⟩ := resolveCallee_spec hw callable
  simp only [populatePositionalCallCacheFromCallable]
  generalize resolveCallee m w callable = r at hWell hKeeps hAnswer ⊢
  obtain ⟨result, w'⟩ := r
  cases hCallee : calleeOf m w callable with
  | error e =>
      rw [hCallee] at hAnswer
      obtain rfl : result = .error e := hAnswer
      exact ⟨hWell, hKeeps, rfl⟩
  | ok callee =>
      rw [hCallee] at hAnswer
      obtain ⟨cell, hResult, hVouched⟩ := hAnswer
      obtain rfl : result = .ok (callee, cell) := hResult
      simp only
      split
      · exact ⟨hWell, hKeeps, cell, hVouched, rfl⟩
      · exact ⟨hWell, hKeeps, rfl⟩

theorem populateKeyword_spec {w : World V} (hw : WellFormed m.noneValue w)
    (callable : V) (names : List String) (nPosArgs : Nat) :
    let r := populateKeywordCallCacheFromCallable m w callable names nPosArgs
    WellFormed m.noneValue r.2 ∧ Keeps m.noneValue w r.2 ∧
      match calleeOf m w callable with
      | .error e => r.1 = .error e
      | .ok callee =>
          match buildKeywordCall callee.function names nPosArgs with
          | .error e => r.1 = .error e
          | .ok (start, dests) =>
              ∃ cell, VouchedFor m r.2 callable callee cell ∧
                r.1 = .ok
                  { guardValue := callable, callee := callee
                    validityCell := cell, nPosArgs := nPosArgs % 2 ^ 8
                    defaultFillStartSlot := start % 2 ^ 16
                    adaptation :=
                      functionCallAdaptationForKeywordCall callee.function
                    keywordDestRegs := dests } := by
  obtain ⟨hWell, hKeeps, hAnswer⟩ := resolveCallee_spec hw callable
  simp only [populateKeywordCallCacheFromCallable]
  generalize resolveCallee m w callable = r at hWell hKeeps hAnswer ⊢
  obtain ⟨result, w'⟩ := r
  cases hCallee : calleeOf m w callable with
  | error e =>
      rw [hCallee] at hAnswer
      obtain rfl : result = .error e := hAnswer
      exact ⟨hWell, hKeeps, rfl⟩
  | ok callee =>
      rw [hCallee] at hAnswer
      obtain ⟨cell, hResult, hVouched⟩ := hAnswer
      obtain rfl : result = .ok (callee, cell) := hResult
      simp only
      cases buildKeywordCall callee.function names nPosArgs with
      | error e => exact ⟨hWell, hKeeps, rfl⟩
      | ok built => exact ⟨hWell, hKeeps, cell, hVouched, rfl⟩

omit [DecidableEq V] in
theorem nArgsOf_bounds (site : CallSite) (call : Call V) :
    site.nUserArgs ≤ nArgsOf site call ∧
      nArgsOf site call ≤ site.nUserArgs + 1 := by
  rw [nArgsOf]
  split <;> omega

theorem populateAndEnterPositional_spec {s : CallState V} (call : Call V)
    (hs : SiteInvariant m site s) (hSite : site.keywordNames = none) :
    let r := populateAndEnterPositional m site s call
    r.1 = outcome m site s.world call ∧ SiteInvariant m site r.2 := by
  obtain ⟨hWell, hKeeps, hAnswer⟩ :=
    populatePositional_spec hs.world call.callable (nArgsOf site call)
  have hKept := hs.keep hWell hKeeps
  simp only [populateAndEnterPositional]
  generalize populatePositionalCallCacheFromCallable m s.world call.callable
    (nArgsOf site call) = p at hWell hAnswer hKept ⊢
  obtain ⟨result, w⟩ := p
  rw [outcome]
  cases hCallee : calleeOf m s.world call.callable with
  | error e =>
      rw [hCallee] at hAnswer
      obtain rfl : result = .error e := hAnswer
      exact ⟨rfl, hKept⟩
  | ok callee =>
      simp only [hCallee, enterFunction, hSite] at hAnswer ⊢
      split at hAnswer
      · rename_i hArity
        obtain ⟨cell, hVouched, rfl⟩ := hAnswer
        simp only [if_pos hArity]
        refine ⟨rfl,
          { world := hWell
            functionCache := fun cache hCache => ?_
            keywordCache := hKept.keywordCache }⟩
        rw [← Option.some.inj hCache]
        exact ⟨hVouched, hArity, rfl⟩
      · rename_i hArity
        rw [hAnswer]
        simp only [if_neg hArity]
        exact ⟨trivial, hKept⟩

theorem runPositionalCall_spec {s : CallState V} (call : Call V)
    (hs : SiteInvariant m site s) (hSite : site.keywordNames = none) :
    (runPositionalCall m site s call).1 = outcome m site s.world call ∧
      SiteInvariant m site (runPositionalCall m site s call).2 := by
  rw [runPositionalCall]
  cases hCache : s.functionCache with
  | none => exact populateAndEnterPositional_spec call hs hSite
  | some cache =>
      simp only
      split
      · rename_i hMatches
        rw [functionCallCacheMatches, Bool.and_eq_true, decide_eq_true_iff]
          at hMatches
        obtain ⟨⟨hCount, hGuard⟩, hValid⟩ := hMatches
        obtain ⟨hVouched, hArity, hAdaptation⟩ := hs.functionCache cache hCache
        rw [hGuard] at hVouched
        rw [hCount] at hArity hAdaptation
        refine ⟨?_, hs⟩
        rw [outcome, hVouched.callee hValid]
        simp only [enterFunction, hSite, hArity, if_true]
        rw [enterPositionalCallFromCache, hAdaptation]
      · exact populateAndEnterPositional_spec call hs hSite

theorem populateAndEnterKeyword_spec {s : CallState V} (call : Call V)
    {names : List String} (hs : SiteInvariant m site s)
    (hSite : site.keywordNames = some names) :
    let r := populateAndEnterKeyword m site names s call
    r.1 = outcome m site s.world call ∧ SiteInvariant m site r.2 := by
  obtain ⟨hWell, hKeeps, hAnswer⟩ :=
    populateKeyword_spec hs.world call.callable names (nArgsOf site call)
  have hBounds := nArgsOf_bounds site call
  have hKept := hs.keep hWell hKeeps
  simp only [populateAndEnterKeyword]
  generalize populateKeywordCallCacheFromCallable m s.world call.callable
    names (nArgsOf site call) = p at hWell hAnswer hKept ⊢
  obtain ⟨result, w⟩ := p
  rw [outcome]
  cases hCallee : calleeOf m s.world call.callable with
  | error e =>
      rw [hCallee] at hAnswer
      obtain rfl : result = .error e := hAnswer
      exact ⟨rfl, hKept⟩
  | ok callee =>
      simp only [hCallee, enterFunction, hSite] at hAnswer ⊢
      cases hBuild : buildKeywordCall callee.function names
          (nArgsOf site call) with
      | error e =>
          rw [hBuild] at hAnswer
          rw [show result = .error e from hAnswer]
          exact ⟨rfl, hKept⟩
      | ok built =>
          rw [hBuild] at hAnswer
          obtain ⟨cell, hVouched, rfl⟩ := hAnswer
          refine ⟨rfl,
            { world := hWell
              functionCache := hKept.functionCache
              keywordCache := fun cache names' hCache hNames => ?_ }⟩
          rw [← Option.some.inj hCache]
          rw [hSite] at hNames
          rw [← Option.some.inj hNames]
          exact ⟨hVouched, rfl, nArgsOf site call, built.1, hBounds.1,
            hBounds.2, rfl, rfl, hBuild⟩

theorem runKeywordCall_spec {s : CallState V} (call : Call V)
    {names : List String} (hs : SiteInvariant m site s)
    (hCount : site.nUserArgs < 2 ^ 8)
    (hSite : site.keywordNames = some names) :
    (runKeywordCall m site names s call).1 = outcome m site s.world call ∧
      SiteInvariant m site (runKeywordCall m site names s call).2 := by
  have hBounds := nArgsOf_bounds site call
  rw [runKeywordCall]
  cases hCache : s.keywordCache with
  | none => exact populateAndEnterKeyword_spec call hs hSite
  | some cache =>
      simp only
      split
      · rename_i hMatches
        rw [keywordCallCacheMatches, Bool.and_eq_true, decide_eq_true_iff]
          at hMatches
        obtain ⟨⟨hSame, hGuard⟩, hValid⟩ := hMatches
        obtain ⟨hVouched, hAdaptation, nPosArgs, start, hLow, hHigh, hCut,
          hStart, hBuild⟩ := hs.keywordCache cache names hCache hSite
        -- a count that differs by one is not the same after the cut
        have hPosArgs : nPosArgs = nArgsOf site call := by omega
        rw [hGuard] at hVouched
        rw [hPosArgs] at hBuild
        refine ⟨?_, hs⟩
        rw [outcome, hVouched.callee hValid]
        simp only [enterFunction, hSite, hBuild]
        rw [enterKeywordCallFromCache, hAdaptation, hStart]
      · exact populateAndEnterKeyword_spec call hs hSite

/-- A call does what it does without caches, and keeps the caches right. -/
theorem runCall_spec {s : CallState V} (call : Call V)
    (hs : SiteInvariant m site s) (hCount : site.nUserArgs < 2 ^ 8) :
    (runCall m site s call).1 = outcome m site s.world call ∧
      SiteInvariant m site (runCall m site s call).2 := by
  rw [runCall]
  cases hSite : site.keywordNames with
  | none => exact runPositionalCall_spec call hs hSite
  | some names => exact runKeywordCall_spec call hs hCount hSite

theorem step_siteInvariant {s : CallState V} (event : Event V)
    (hs : SiteInvariant m site s) (hCount : site.nUserArgs < 2 ^ 8) :
    SiteInvariant m site (step m site s event) := by
  cases event with
  | setAttribute cls name value =>
      have hKeeps := keeps_setAttribute hs.world cls name value
      obtain ⟨hWell, -⟩ := @setAttribute_spec V _ m.noneValue s.world cls name
        value hs.world
      exact hs.keep hWell hKeeps
  | lookupConstructor cls =>
      obtain ⟨hWell, hLater, -⟩ := @getOrCreateConstructorThunk_spec V _
        m.noneValue s.world cls hs.world
      exact hs.keep hWell (keeps_of_later _ hLater)
  | call call => exact (runCall_spec call hs hCount).2

omit [DecidableEq V] in
theorem wellFormed_of_pristine {w : World V} (hw : Pristine w)
    (noneValue : V) : WellFormed noneValue w where
  fresh c cell h := nomatch (hw.cells c).symm.trans h
  owner c _ cell h := nomatch (hw.cells c).symm.trans h
  attached c cell _ h := nomatch (hw.cells c).symm.trans h
  thunk c cell _ h := nomatch (hw.cells c).symm.trans h

theorem run_siteInvariant {world : World V} (hWorld : Pristine world)
    (hCount : site.nUserArgs < 2 ^ 8) (events : List (Event V)) :
    SiteInvariant m site (run m site world events) := by
  have hRun : ∀ (events : List (Event V)) (s : CallState V),
      SiteInvariant m site s →
      SiteInvariant m site (events.foldl (step m site) s) := by
    intro events
    induction events with
    | nil =>
        intro s hs
        exact hs
    | cons event events ih =>
        intro s hs
        exact ih _ (step_siteInvariant event hs hCount)
  refine hRun events _ ?_
  exact
    { world := wellFormed_of_pristine hWorld m.noneValue
      functionCache := (fun _ h => nomatch h)
      keywordCache := (fun _ _ h => nomatch h) }

end RunCall

end CloverVM.Runtime.CallSite
