import CloverVM.ImportSystem.ModuleGlobalCache
import CloverVM.ImportSystem.ModuleGlobalSpec

/-!
# Transparency of the caches of globals

A program on modules with caches does what the namespaces say, as long as each
of its steps meets `StepCondition`.  The condition leaves out

* a global store of a new name when the inline slots are used up, and any store
  of one when an overflow block cannot grow;
* a global store of `__name__` or `__builtins__` after it was deleted;
* a store to `__builtins__` through a matching attribute cache, which writes
  the slot without invalidating the builtins cell, when the cell is valid and
  the new value names other builtins;
* a load or a delete of `__builtins__` that finds the empty slot of a module
  that was made without.
-/

namespace CloverVM.ImportSystem.ModuleGlobalTransparency

open CloverVM.ObjectModel
open CloverVM.BuiltinTypes.ModuleObject
open CloverVM.BuiltinTypes.ModuleInvariant
open CloverVM.BuiltinTypes.ModuleAttribute
open CloverVM.BuiltinTypes.ModuleWrites
open CloverVM.ImportSystem.ModuleNamespace
open CloverVM.ImportSystem.ModuleGlobal
open CloverVM.ImportSystem.ModuleGlobalSpec
open CloverVM.ImportSystem.ModuleGlobalCache

variable {S M O : Type} [DecidableEq M]

/-- Loading a global: its value, or else what a missing one leaves. -/
def loads (machine : M) (ns : Namespaces M O) (m : M) (name : String)
    (missing : Outcome M O) : Outcome M O :=
  match ns.lookup machine m name with
  | some v => .value v
  | none => missing

/-- Storing a global binds it in the module; `__class__` and `__dict__` are no
globals. -/
def stores (ns : Namespaces M O) (m : M) (name : String)
    (value : GlobalValue M O) : Outcome M O × Namespaces M O :=
  if reserved name then (.nameError, ns)
  else (.done, ns.set m name (some value))

/-- Deleting a global takes it out of the module, which must have it. -/
def deletes (ns : Namespaces M O) (m : M) (name : String) :
    Outcome M O × Namespaces M O :=
  match ns m name with
  | none => (.nameError, ns)
  | some _ => (.done, ns.set m name none)

/-- An attribute store fails and changes nothing, or binds the name; a store
to `__class__` binds nothing. -/
def MayStoreAttr (ns : Namespaces M O) (m : M) (name : String)
    (value : GlobalValue M O) (r : Outcome M O × Namespaces M O) : Prop :=
  r = (.failed, ns) ∨
    r = (.done, if name = "__class__" then ns else ns.set m name (some value))

/-- An attribute delete fails and changes nothing, or takes the name out. -/
def MayDeleteAttr (ns : Namespaces M O) (m : M) (name : String)
    (r : Outcome M O × Namespaces M O) : Prop :=
  r = (.failed, ns) ∨ r = (.done, ns.set m name none)

/-- What each operation may leave, and the namespaces after it. -/
def Permits (machine : M) (code : Code S M) (ns : Namespaces M O)
    (op : Operation S M O) (r : Outcome M O × Namespaces M O) : Prop :=
  match op with
  | .ldaGlobal site =>
      r = (loads machine ns (code.definingModule site) (code.name site)
        .nameError, ns)
  | .loadModuleGlobal m name => r = (loads machine ns m name .notPresent, ns)
  | .staGlobal site value =>
      r = stores ns (code.definingModule site) (code.name site) value
  | .storeModuleGlobal m name value => r = stores ns m name value
  | .delGlobal site =>
      r = deletes ns (code.definingModule site) (code.name site)
  | .deleteModuleGlobal m name => r = deletes ns m name
  | .storeAttr site m value _ => MayStoreAttr ns m (code.name site) value r
  | .storeAttrUncached m name value _ => MayStoreAttr ns m name value r
  | .setOwnProperty m name value => MayStoreAttr ns m name value r
  | .delAttr site m _ => MayDeleteAttr ns m (code.name site) r
  | .deleteAttrUncached m name _ => MayDeleteAttr ns m name r
  | .deleteOwnProperty m name => MayDeleteAttr ns m name r
  | .setBuiltinsBinding m value =>
      r = (.done, ns.set m "__builtins__" (some value))
  | .deleteBuiltinsBinding m => r = (.done, ns.set m "__builtins__" none)

/-- The outcomes of a program, and the namespaces after it. -/
inductive PermitsRun (machine : M) (code : Code S M) :
    Namespaces M O → List (Operation S M O) → List (Outcome M O) →
      Namespaces M O → Prop where
  | nil (ns : Namespaces M O) : PermitsRun machine code ns [] [] ns
  | cons {ns ns' ns'' : Namespaces M O} {op : Operation S M O}
      {ops : List (Operation S M O)} {out : Outcome M O}
      {outs : List (Outcome M O)} :
      Permits machine code ns op (out, ns') →
        PermitsRun machine code ns' ops outs ns'' →
          PermitsRun machine code ns (op :: ops) (out :: outs) ns''

/-- Every cache that matches loads and stores what the namespaces say. -/
structure Transparent (code : Code S M) (st : State S M O) : Prop where
  load : ∀ site plan,
    (st.moduleGlobalReadCaches site).hit st.world.isValid = some plan →
    ∃ v, (ownValue st.world).lookup st.world.globalBuiltinsModule
        (code.definingModule site) (code.name site) = some v ∧
      loadModuleGlobalFromSlotPlan st.world plan = .ok (some v)
  store : ∀ site plan value,
    (st.moduleGlobalMutationCaches site).hit st.world.isValid = some plan →
    ∃ w', storeModuleGlobalFromStoreExistingPlan st.world plan value =
        .ok w' ∧
      (.done, ownValue w') = stores (ownValue st.world)
        (code.definingModule site) (code.name site) value

/-- A store to `__builtins__` through a matching attribute cache. -/
def CachedRebind (st : State S M O) (site : S) (m : M)
    (value : GlobalValue M O) (lookup : ClassLookup) : Prop :=
  ∀ loc, (st.attributeMutationCaches site).hit
      (shapeOf st.world m) lookup = some (.storeExisting loc) →
    ∀ cell, (st.world.modules m).moduleBuiltinsValidityCell = some cell →
      st.world.isValid cell = true →
      st.world.builtinsOf (some value) = currentBuiltins st.world m

def StepCondition (code : Code S M) (st : State S M O) :
    Operation S M O → Prop
  | .ldaGlobal site =>
      ¬ LandsOnEmptySlot st.world (code.definingModule site) (code.name site)
  | .loadModuleGlobal m name => ¬ LandsOnEmptySlot st.world m name
  | .staGlobal site _ =>
      GlobalStoreFits st.world (code.definingModule site) (code.name site)
  | .storeModuleGlobal m name _ => GlobalStoreFits st.world m name
  | .delGlobal site =>
      ¬ OwnSlotEmpty st.world (code.definingModule site) (code.name site)
  | .deleteModuleGlobal m name => ¬ OwnSlotEmpty st.world m name
  | .storeAttr site m value lookup =>
      AttributeStoreFits st.world m (code.name site) ∧
        (code.name site = "__builtins__" →
          CachedRebind st site m value lookup)
  | .storeAttrUncached m name _ _ => AttributeStoreFits st.world m name
  | .setOwnProperty m name _ => AttributeStoreFits st.world m name
  | .delAttr _ _ _ => True
  | .deleteAttrUncached _ _ _ => True
  | .deleteOwnProperty _ _ => True
  | .setBuiltinsBinding _ _ => True
  | .deleteBuiltinsBinding _ => True

/-! ## The invariant of the caches -/

/-- A cache of a global whose cell is valid stands for its slot, and a cache of
an attribute has a plan of its shape. -/
structure Sound (code : Code S M) (st : State S M O) : Prop where
  world : WellFormed st.world
  reads : ∀ site cell plan,
    st.moduleGlobalReadCaches site = ⟨some cell, some plan⟩ →
    cell < st.world.nextObject ∧ (st.world.isValid cell = true →
      ReadStands st.world (code.definingModule site) (code.name site) cell
        plan)
  mutations : ∀ site cell plan,
    st.moduleGlobalMutationCaches site = ⟨some cell, some plan⟩ →
    cell < st.world.nextObject ∧ (st.world.isValid cell = true →
      WriteStands st.world (code.definingModule site) (code.name site) cell
        plan)
  attributes : ∀ site s,
    (st.attributeMutationCaches site).receiverShape = some s →
    PlanFor s (code.name site) (st.attributeMutationCaches site).plan

omit [DecidableEq M] in
theorem hit_eq_some {c : ModuleGlobalInlineCache M} {isValid : Nat → Bool}
    {plan : ModuleGlobalSlotPlan M} (h : c.hit isValid = some plan) :
    ∃ cell, c = ⟨some cell, some plan⟩ ∧ isValid cell = true := by
  obtain ⟨cell?, slot⟩ := c
  unfold ModuleGlobalInlineCache.hit at h
  cases cell? with
  | none => exact absurd h (by simp)
  | some cell =>
      by_cases hIs : isValid cell = true
      · simp only [if_pos hIs] at h
        exact ⟨cell, by rw [h], hIs⟩
      · simp only [if_neg hIs] at h
        exact absurd h (by simp)

theorem attribute_hit_eq_some {c : AttributeMutationInlineCache} {s : Shape}
    {lookup : ClassLookup} {plan : AttributeMutationPlan}
    (h : c.hit s lookup = some plan) :
    c.receiverShape = some s ∧ c.plan = plan := by
  unfold AttributeMutationInlineCache.hit at h
  split at h
  · rename_i hMatches
    exact ⟨hMatches.2, Option.some.inj h⟩
  · exact absurd h (by simp)

omit [DecidableEq M] in
/-- The caches stay sound when the world changes under them. -/
theorem Sound.later {code : Code S M} {st : State S M O} (h : Sound code st)
    {w : World M O} (hWf : WellFormed w)
    (hPreserves : Preserves st.world w) :
    Sound code { st with world := w } := by
  refine { world := hWf, reads := ?_, mutations := ?_
           attributes := h.attributes }
  · intro site cell plan hCache
    obtain ⟨hLt, hStands⟩ := h.reads site cell plan hCache
    refine ⟨Nat.lt_of_lt_of_le hLt hPreserves.nextObject, ?_⟩
    intro hIs
    exact (hStands (hPreserves.valid cell hLt hIs)).preserved hPreserves hLt
      hIs
  · intro site cell plan hCache
    obtain ⟨hLt, hStands⟩ := h.mutations site cell plan hCache
    refine ⟨Nat.lt_of_lt_of_le hLt hPreserves.nextObject, ?_⟩
    intro hIs
    exact (hStands (hPreserves.valid cell hLt hIs)).preserved hPreserves hLt
      hIs

omit [DecidableEq M] in
theorem Sound.becomes {code : Code S M} {st : State S M O}
    (h : Sound code st) {w : World M O} {ns : Namespaces M O}
    (hBecomes : Becomes st.world w ns) : Sound code { st with world := w } :=
  h.later hBecomes.wellFormed hBecomes.preserves

variable [DecidableEq S]

omit [DecidableEq M] in
theorem Sound.setReadCache {code : Code S M} {st : State S M O}
    (h : Sound code st) {site : S} {cell : Nat}
    {plan : ModuleGlobalSlotPlan M} (hLt : cell < st.world.nextObject)
    (hStands : ReadStands st.world (code.definingModule site)
      (code.name site) cell plan) :
    Sound code (st.setReadCache site ⟨some cell, some plan⟩) := by
  refine { world := h.world, reads := ?_, mutations := h.mutations
           attributes := h.attributes }
  intro k c p hCache
  have hCache' : (if k = site then ⟨some cell, some plan⟩
      else st.moduleGlobalReadCaches k : ModuleGlobalInlineCache M) =
        ⟨some c, some p⟩ := hCache
  by_cases hk : k = site
  · rw [if_pos hk] at hCache'
    simp only [ModuleGlobalInlineCache.mk.injEq, Option.some.injEq] at hCache'
    obtain ⟨rfl, rfl⟩ := hCache'
    rw [hk]
    exact ⟨hLt, fun _ => hStands⟩
  · rw [if_neg hk] at hCache'
    exact h.reads k c p hCache'

omit [DecidableEq M] in
theorem Sound.setMutationCache {code : Code S M} {st : State S M O}
    (h : Sound code st) {site : S} {cell : Nat}
    {plan : ModuleGlobalSlotPlan M} (hLt : cell < st.world.nextObject)
    (hStands : WriteStands st.world (code.definingModule site)
      (code.name site) cell plan) :
    Sound code (st.setMutationCache site ⟨some cell, some plan⟩) := by
  refine { world := h.world, reads := h.reads, mutations := ?_
           attributes := h.attributes }
  intro k c p hCache
  have hCache' : (if k = site then ⟨some cell, some plan⟩
      else st.moduleGlobalMutationCaches k : ModuleGlobalInlineCache M) =
        ⟨some c, some p⟩ := hCache
  by_cases hk : k = site
  · rw [if_pos hk] at hCache'
    simp only [ModuleGlobalInlineCache.mk.injEq, Option.some.injEq] at hCache'
    obtain ⟨rfl, rfl⟩ := hCache'
    rw [hk]
    exact ⟨hLt, fun _ => hStands⟩
  · rw [if_neg hk] at hCache'
    exact h.mutations k c p hCache'

omit [DecidableEq M] in
theorem Sound.setAttributeCache {code : Code S M} {st : State S M O}
    (h : Sound code st) {site : S} {s : Shape} {plan : AttributeMutationPlan}
    (hPlan : PlanFor s (code.name site) plan) :
    Sound code (st.setAttributeCache site ⟨some s, plan⟩) := by
  refine { world := h.world, reads := h.reads, mutations := h.mutations
           attributes := ?_ }
  intro k s' hShape
  have hShape' : (if k = site then ⟨some s, plan⟩
      else st.attributeMutationCaches k).receiverShape = some s' := hShape
  show PlanFor s' (code.name k) (if k = site then ⟨some s, plan⟩
    else st.attributeMutationCaches k).plan
  by_cases hk : k = site
  · rw [if_pos hk] at hShape' ⊢
    obtain rfl := Option.some.inj hShape'
    rw [hk]
    exact hPlan
  · rw [if_neg hk] at hShape' ⊢
    exact h.attributes k s' hShape'

omit [DecidableEq M] in
theorem Sound.populateAttribute {code : Code S M} {st : State S M O}
    (h : Sound code st) {site : S} {s : Shape} {plan : AttributeMutationPlan}
    (hPlan : PlanFor s (code.name site) plan) (lookup : ClassLookup) :
    Sound code (st.populateAttribute site s plan lookup) := by
  unfold State.populateAttribute
  split
  · exact h
  · exact h.setAttributeCache hPlan

/-! ## Steps -/

/-- What a step leaves: a sound state, and an outcome and namespaces that are
permitted. -/
def StepResult (code : Code S M) (st : State S M O) (op : Operation S M O)
    (r : Outcome M O × State S M O) : Prop :=
  Sound code r.2 ∧
    r.2.world.globalBuiltinsModule = st.world.globalBuiltinsModule ∧
    Permits st.world.globalBuiltinsModule code (ownValue st.world) op
      (r.1, ownValue r.2.world)

omit [DecidableEq M] in
theorem loads_eq_of_some {machine : M} {ns : Namespaces M O} {m : M}
    {name : String} {v : GlobalValue M O} (missing : Outcome M O)
    (h : ns.lookup machine m name = some v) :
    loads machine ns m name missing = .value v := by
  unfold loads
  rw [h]

omit [DecidableEq M] in
theorem loads_eq_of_none {machine : M} {ns : Namespaces M O} {m : M}
    {name : String} (missing : Outcome M O)
    (h : ns.lookup machine m name = none) :
    loads machine ns m name missing = missing := by
  unfold loads
  rw [h]

theorem ldaGlobal_sound {code : Code S M} {st : State S M O}
    (h : Sound code st) {site : S}
    (hLands : ¬ LandsOnEmptySlot st.world (code.definingModule site)
      (code.name site)) :
    ∃ r, State.opLdaGlobal code st site = .ok r ∧
      StepResult code st (.ldaGlobal site) r := by
  unfold State.opLdaGlobal
  cases hHit : (st.moduleGlobalReadCaches site).hit st.world.isValid with
  | some plan =>
      obtain ⟨cell, hCache, hIs⟩ := hit_eq_some hHit
      have hStands := (h.reads site cell plan hCache).2 hIs
      obtain ⟨v, hLookup, hLoad⟩ := hStands.load h.world
      refine ⟨(.value v, st), ?_, h, rfl, ?_⟩
      · simp only [hLoad]
        rfl
      · show (_, _) = (_, _)
        rw [loads_eq_of_some _ hLookup]
  | none =>
      obtain ⟨hStep, hCases⟩ := resolveRead_spec h.world hLands
      have hBecomes := cellStep_becomes hStep
      let r := resolveModuleGlobalReadDescriptor st.world
        (code.definingModule site) (code.name site)
      have hLater : Sound code { st with world := r.2 } := h.becomes hBecomes
      unfold State.opLdaGlobalCacheMiss
      rcases hCases with ⟨plan, cell, hResult, hStands, hLt⟩ |
        ⟨plan, hResult, hLoad, hLookup⟩
      · obtain ⟨v, hLookup, hLoad⟩ := hStands.load hStep.wellFormed
        rw [hBecomes.values, hBecomes.machine] at hLookup
        refine ⟨(.value v, ({ st with world := r.2 } : State S M O).setReadCache
          site ⟨some cell, some plan⟩), ?_, hLater.setReadCache hLt hStands,
          hBecomes.machine, ?_⟩
        · simp only [hResult]
          show (loadModuleGlobalFromSlotPlan r.2 plan >>= fun value => _) = _
          rw [hLoad]
          rfl
        · show (_, ownValue r.2) = (_, _)
          rw [loads_eq_of_some _ hLookup, hBecomes.values]
      · refine ⟨(.nameError, { st with world := r.2 }), ?_, hLater,
          hBecomes.machine, ?_⟩
        · simp only [hResult]
          show (loadModuleGlobalFromPlan r.2 plan >>= fun value => _) = _
          rw [hLoad]
          rfl
        · show (_, ownValue r.2) = (_, _)
          rw [loads_eq_of_none _ hLookup, hBecomes.values]

/-- A slot that a cached store stands for may be written. -/
theorem storeCached_spec {w : World M O} (h : WellFormed w) {m : M}
    {name : String} {cell : Nat} {plan : ModuleGlobalSlotPlan M}
    (value : GlobalValue M O) (hStands : WriteStands w m name cell plan) :
    ∃ w', storeModuleGlobalFromStoreExistingPlan w plan value = .ok w' ∧
      Becomes w w' ((ownValue w).set m name (some value)) := by
  unfold storeModuleGlobalFromStoreExistingPlan
  rw [hStands.owner]
  exact write_spec h value hStands.location
    fun hName => absurd hName hStands.ordinary

omit [DecidableEq S] [DecidableEq M] in
theorem not_reserved_of_located {w : World M O} (h : WellFormed w) {m : M}
    {name : String} {loc : StorageLocation}
    (hLoc : (shapeOf w m).resolvePresentProperty name = some loc) :
    reserved name = false := by
  have hShape := (h.modules m).shape
  rw [Shape.resolvePresentProperty_eq] at hLoc
  unfold shapeOf at hLoc
  rcases hShape.cases name with ⟨hNot, -, -⟩ | ⟨_, _, hNot, -, -, -⟩ |
    ⟨_, _, hNot, -, -, -, -, -⟩ | ⟨rfl, -⟩ | ⟨info, -, hPresent, hNone, -, -⟩
  · exact hNot
  · exact hNot
  · exact hNot
  · decide
  · rw [hPresent] at hLoc
    exact absurd (hNone.symm.trans hLoc) (by simp)

theorem stores_eq {ns : Namespaces M O} {m : M} {name : String}
    {value : GlobalValue M O} (h : reserved name = false) :
    stores ns m name value = (.done, ns.set m name (some value)) := by
  unfold stores
  rw [if_neg (by simp [h])]

theorem stores_eq_of_reserved {ns : Namespaces M O} {m : M} {name : String}
    {value : GlobalValue M O} (h : reserved name = true) :
    stores ns m name value = (.nameError, ns) := by
  unfold stores
  rw [if_pos h]

theorem staGlobal_sound {code : Code S M} {st : State S M O}
    (h : Sound code st) {site : S} (value : GlobalValue M O)
    (hFits : GlobalStoreFits st.world (code.definingModule site)
      (code.name site)) :
    ∃ r, State.opStaGlobal code st site value = .ok r ∧
      StepResult code st (.staGlobal site value) r := by
  unfold State.opStaGlobal
  cases hHit : (st.moduleGlobalMutationCaches site).hit st.world.isValid with
  | some plan =>
      obtain ⟨cell, hCache, hIs⟩ := hit_eq_some hHit
      have hStands := (h.mutations site cell plan hCache).2 hIs
      obtain ⟨w', hStore, hBecomes⟩ := storeCached_spec h.world value hStands
      have hNot := not_reserved_of_located h.world hStands.location
      refine ⟨(.done, { st with world := w' }), ?_, h.becomes hBecomes,
        hBecomes.machine, ?_⟩
      · simp only [hStore]
        rfl
      · show (_, ownValue w') = _
        rw [hBecomes.values, stores_eq hNot]
  | none =>
      obtain ⟨r, hResolve, hStep, hCases⟩ :=
        resolveWrite_spec h.world value hFits
      have hBecomes := cellStep_becomes hStep
      have hLater : Sound code { st with world := r.2 } := h.becomes hBecomes
      unfold State.opStaGlobalCacheMiss
      rcases hCases with ⟨hReserved, hReadOnly⟩ |
        ⟨hNot, plan, cell, hFound, ⟨w', hStore, hStored⟩, hCell⟩
      · refine ⟨(.nameError, { st with world := r.2 }), ?_, hLater,
          hBecomes.machine, ?_⟩
        · simp only [hResolve, bind, Except.bind, hReadOnly]
          rfl
        · show (_, ownValue r.2) = _
          rw [hBecomes.values, stores_eq_of_reserved hReserved]
      · let start : State S M O := { st with world := r.2 }
        have hPopulated : Sound code
            (start.populateMutation site plan cell) := by
          unfold State.populateMutation
          split
          · rename_i c slotPlan
            obtain ⟨slotPlan', hPlan, hStands, hLt⟩ := hCell c rfl
            obtain rfl := ModuleGlobalMutationPlan.storeExisting.inj hPlan
            exact hLater.setMutationCache hLt hStands
          · exact hLater
        have hWorld : (start.populateMutation site plan cell).world = r.2 := by
          unfold State.populateMutation
          split <;> rfl
        have hStored' : Becomes
            (start.populateMutation site plan cell).world w'
            ((ownValue st.world).set (code.definingModule site)
              (code.name site) (some value)) := by
          rw [hWorld]
          exact hStored
        refine ⟨(.done, { start.populateMutation site plan cell with
          world := w' }), ?_, hPopulated.becomes hStored', ?_, ?_⟩
        · rw [← hWorld] at hStore
          simp only [hResolve, bind, Except.bind, hFound]
          simp only [start] at hStore
          simp only [hStore]
          rfl
        · exact hStored.machine.trans hBecomes.machine
        · show (_, ownValue w') = _
          rw [hStored.values, stores_eq hNot]

/-- The outcome of an uncached store of a global. -/
theorem storeModuleGlobal_sound {code : Code S M} {st : State S M O}
    (h : Sound code st) {m : M} {name : String} (value : GlobalValue M O)
    (hFits : GlobalStoreFits st.world m name) :
    ∃ r, State.step code st (.storeModuleGlobal m name value) = .ok r ∧
      StepResult code st (.storeModuleGlobal m name value) r := by
  obtain ⟨r, hStore, hCases⟩ := storeModuleGlobal_spec h.world value hFits
  refine ⟨(State.doneOrNameError r.1, { st with world := r.2 }), ?_, ?_⟩
  · unfold State.step
    simp only [hStore]
    rfl
  · rcases hCases with ⟨hReserved, hFalse, hBecomes⟩ |
      ⟨hNot, hTrue, hBecomes⟩
    · refine ⟨h.becomes hBecomes, hBecomes.machine, ?_⟩
      show (_, ownValue r.2) = _
      rw [hBecomes.values, stores_eq_of_reserved hReserved, hFalse]
      rfl
    · refine ⟨h.becomes hBecomes, hBecomes.machine, ?_⟩
      show (_, ownValue r.2) = _
      rw [hBecomes.values, stores_eq hNot, hTrue]
      rfl

theorem deleteModuleGlobal_permitted {w : World M O} (h : WellFormed w)
    {m : M} {name : String} (hEmpty : ¬ OwnSlotEmpty w m name) :
    ∃ r, deleteModuleGlobal w m name = .ok r ∧
      (∃ ns, Becomes w r.2 ns) ∧
      (State.doneOrNameError r.1, ownValue r.2) =
        deletes (ownValue w) m name := by
  obtain ⟨r, hDelete, hCases⟩ := deleteModuleGlobal_spec h hEmpty
  refine ⟨r, hDelete, ?_⟩
  unfold deletes
  rcases hCases with ⟨hNone, hFalse, hBecomes⟩ | ⟨hSome, hTrue, hBecomes⟩
  · refine ⟨⟨_, hBecomes⟩, ?_⟩
    rw [hNone, hFalse, hBecomes.values]
    rfl
  · refine ⟨⟨_, hBecomes⟩, ?_⟩
    obtain ⟨v, hv⟩ := Option.ne_none_iff_exists'.mp hSome
    rw [hv, hTrue, hBecomes.values]
    rfl

/-- An attribute store that left a permitted result. -/
theorem mayStoreAttr_of_result {w : World M O} {m : M} {name : String}
    {value : GlobalValue M O} {r : Bool × World M O}
    (h : StoreResult w m name value r) :
    (∃ ns, Becomes w r.2 ns) ∧
      MayStoreAttr (ownValue w) m name value
        (State.doneOrFailed r.1, ownValue r.2) := by
  rcases h with ⟨hFalse, hBecomes⟩ | ⟨hTrue, hBecomes⟩
  · refine ⟨⟨_, hBecomes⟩, Or.inl ?_⟩
    rw [hFalse, hBecomes.values]
    rfl
  · refine ⟨⟨_, hBecomes⟩, Or.inr ?_⟩
    rw [hTrue, hBecomes.values]
    rfl

theorem mayDeleteAttr_of_result {w : World M O} {m : M} {name : String}
    {r : Bool × World M O} (h : DeleteResult w m name r) :
    (∃ ns, Becomes w r.2 ns) ∧
      MayDeleteAttr (ownValue w) m name
        (State.doneOrFailed r.1, ownValue r.2) := by
  rcases h with ⟨hFalse, hBecomes⟩ | ⟨hTrue, hBecomes⟩
  · refine ⟨⟨_, hBecomes⟩, Or.inl ?_⟩
    rw [hFalse, hBecomes.values]
    rfl
  · refine ⟨⟨_, hBecomes⟩, Or.inr ?_⟩
    rw [hTrue, hBecomes.values]
    rfl

/-! ## Attributes -/

omit [DecidableEq M] in
@[simp] theorem populateAttribute_world (st : State S M O) (site : S)
    (s : Shape) (plan : AttributeMutationPlan) (lookup : ClassLookup) :
    (st.populateAttribute site s plan lookup).world = st.world := by
  unfold State.populateAttribute
  split <;> rfl

omit [DecidableEq M] in
theorem populateAttribute_with_world (st : State S M O) (site : S)
    (s : Shape) (plan : AttributeMutationPlan) (lookup : ClassLookup)
    (w : World M O) :
    { st.populateAttribute site s plan lookup with world := w } =
      ({ st with world := w } : State S M O).populateAttribute site s plan
        lookup := by
  unfold State.populateAttribute
  split <;> rfl

/-- The end of an operation that cannot fail after its last write. -/
theorem eq_ok_of_done {E A : Type} {x : Except E A} {r : Bool × A}
    (h : (x >>= fun w => pure (true, w)) = .ok r) :
    x = .ok r.2 ∧ r.1 = true := by
  cases x with
  | error e => exact absurd h (by simp [bind, Except.bind])
  | ok w =>
      obtain rfl := Except.ok.inj h
      exact ⟨rfl, rfl⟩

theorem storeAdded_of_storeAttr {w : World M O} {m : M} {next : Shape}
    {loc : StorageLocation} {value : GlobalValue M O} {r : Bool × World M O}
    (hInline : loc.kind = .inline)
    (h : storeAttrFromPlan w m (.addOwnProperty next loc) value = .ok r) :
    w.storeAdded m next loc value = .ok r.2 ∧ r.1 = true := by
  unfold storeAttrFromPlan at h
  simp only [if_pos hInline] at h
  exact eq_ok_of_done h

/-- A new attribute of a module, whichever way it is added. -/
theorem opStoreAttrAdd_sound {code : Code S M} {st : State S M O}
    (h : Sound code st) {site : S} {m : M} (value : GlobalValue M O)
    {w : World M O} (hStep : CellStep st.world w)
    (hNew : ∀ info, (shapeOf st.world m).lookupDescriptorIncludingLatent
      (code.name site) ≠ .present info)
    (hFits : AttributeStoreFits st.world m (code.name site)) :
    ∃ r, State.opStoreAttrAdd { st with world := w } site m (code.name site)
        value = .ok r ∧ Sound code r.2 ∧
      ∃ b, r.1 = State.doneOrFailed b ∧
        StoreResult st.world m (code.name site) value (b, r.2.world) := by
  have hShape := (hStep.wellFormed.modules m).shape
  have hNew' := hNew
  rw [← hStep.same.shapeOf_eq] at hNew'
  obtain ⟨loc, hLoc, hDerive⟩ := deriveAdded_spec hShape hNew'
  obtain ⟨r, hAdd, hResult⟩ := add_notFound_spec hStep value hNew hFits
  have hLater : Sound code { st with world := r.2 } := by
    rcases hResult with ⟨-, hBecomes⟩ | ⟨-, hBecomes⟩
    · exact h.becomes hBecomes
    · exact h.becomes hBecomes
  unfold State.opStoreAttrAdd
  simp only [hShape.addDelete, hDerive]
  by_cases hInline : loc.kind = .inline
  · have hStore := hAdd
    unfold addOwnProperty at hStore
    unfold shapeOf at hNew'
    simp only [lookupPresentDescriptor_eq_none hNew', hShape.addDelete,
      hDerive] at hStore
    obtain ⟨hStore, hTrue⟩ := eq_ok_of_done hStore
    have hPlan : PlanFor (w.modules m).object.shape (code.name site)
        (.addOwnProperty ((w.modules m).object.shape.withAdded
          (code.name site) {}) loc) := ⟨hNew', rfl, hLoc, hInline⟩
    refine ⟨(.done, ({ st with world := r.2 } : State S M O).setAttributeCache
      site _), ?_, hLater.setAttributeCache hPlan, true, rfl, ?_⟩
    · show (if loc.kind = .inline then _ else _) = _
      rw [if_pos hInline]
      show (w.storeAdded m _ loc value >>= fun w => _) = _
      rw [hStore]
      rfl
    · rw [← hTrue]
      exact hResult
  · refine ⟨State.finish { st with world := w } r, ?_, hLater, r.1, rfl,
      hResult⟩
    show (if loc.kind = .inline then _ else _) = _
    rw [if_neg hInline]
    show (addOwnProperty w m (code.name site) value >>= fun r => _) = _
    rw [hAdd]
    rfl

omit [DecidableEq S] in
theorem Sound.storeResult {code : Code S M} {st : State S M O}
    (h : Sound code st) {m : M} {name : String} {value : GlobalValue M O}
    {r : Bool × World M O} (hResult : StoreResult st.world m name value r) :
    Sound code { st with world := r.2 } := by
  rcases hResult with ⟨-, hBecomes⟩ | ⟨-, hBecomes⟩
  · exact h.becomes hBecomes
  · exact h.becomes hBecomes

omit [DecidableEq S] in
theorem Sound.deleteResult {code : Code S M} {st : State S M O}
    (h : Sound code st) {m : M} {name : String} {r : Bool × World M O}
    (hResult : DeleteResult st.world m name r) :
    Sound code { st with world := r.2 } := by
  rcases hResult with ⟨-, hBecomes⟩ | ⟨-, hBecomes⟩
  · exact h.becomes hBecomes
  · exact h.becomes hBecomes

theorem opStoreAttrCacheMiss_sound {code : Code S M} {st : State S M O}
    (h : Sound code st) {site : S} {m : M} (value : GlobalValue M O)
    (lookup : ClassLookup)
    (hFits : AttributeStoreFits st.world m (code.name site)) :
    ∃ r, State.opStoreAttrCacheMiss code st site m value lookup = .ok r ∧
      Sound code r.2 ∧ ∃ b, r.1 = State.doneOrFailed b ∧
        StoreResult st.world m (code.name site) value (b, r.2.world) := by
  obtain ⟨hStep, hFound, hNotFound⟩ :=
    resolveAttrWrite_spec h.world m (code.name site) lookup
  unfold State.opStoreAttrCacheMiss
  split
  · rename_i plan w hResolve
    rw [hResolve] at hStep hFound
    obtain ⟨hPlan, hNone⟩ := hFound plan rfl
    obtain ⟨r, hStore, hResult⟩ :=
      store_found_spec hStep value hPlan hNone hFits
    have hLater := (h.storeResult hResult).populateAttribute hPlan lookup
    refine ⟨(State.doneOrFailed r.1, ({ st with
      world := r.2 } : State S M O).populateAttribute site
        (shapeOf st.world m) plan lookup), ?_, hLater, r.1, rfl, ?_⟩
    · simp only [populateAttribute_world, hStore]
      show Except.ok (State.finish _ r) = _
      unfold State.finish
      rw [populateAttribute_with_world]
      rfl
    · rw [populateAttribute_world]
      exact hResult
  · rename_i w hResolve
    rw [hResolve] at hStep hNotFound
    exact opStoreAttrAdd_sound h value hStep (hNotFound rfl) hFits
  · rename_i d w _ _ hResolve
    rw [hResolve] at hStep
    have hResult := failed_result hStep m (code.name site) value
    exact ⟨_, rfl, h.storeResult hResult, false, rfl, hResult⟩

theorem opStoreAttr_sound {code : Code S M} {st : State S M O}
    (h : Sound code st) {site : S} {m : M} (value : GlobalValue M O)
    (lookup : ClassLookup)
    (hFits : AttributeStoreFits st.world m (code.name site))
    (hRebind : code.name site = "__builtins__" →
      CachedRebind st site m value lookup) :
    ∃ r, State.opStoreAttr code st site m value lookup = .ok r ∧
      Sound code r.2 ∧ ∃ b, r.1 = State.doneOrFailed b ∧
        StoreResult st.world m (code.name site) value (b, r.2.world) := by
  unfold State.opStoreAttr
  split
  · rename_i loc hHit
    obtain ⟨hShape, hPlan⟩ := attribute_hit_eq_some hHit
    have hFor := h.attributes site _ hShape
    rw [hPlan] at hFor
    obtain ⟨r, hStore, hResult⟩ := storeAttrFromPlan_spec h.world value hFor
      hFits (by
        intro _ _ hName cell hCell hIs
        exact hRebind hName loc hHit cell hCell hIs)
    obtain ⟨hWrite, hTrue⟩ := eq_ok_of_done hStore
    refine ⟨(.done, { st with world := r.2 }), ?_, h.storeResult hResult, true,
      rfl, ?_⟩
    · simp only [hWrite]
      rfl
    · rw [← hTrue]
      exact hResult
  · rename_i next loc hHit
    obtain ⟨hShape, hPlan⟩ := attribute_hit_eq_some hHit
    have hFor := h.attributes site _ hShape
    rw [hPlan] at hFor
    obtain ⟨hNew, -, -, hInline⟩ := id hFor
    obtain ⟨r, hStore, hResult⟩ := storeAttrFromPlan_spec h.world value hFor
      hFits (fun _ hExisting => AttributeMutationPlan.noConfusion hExisting)
    obtain ⟨hWrite, hTrue⟩ := storeAdded_of_storeAttr hInline hStore
    refine ⟨(.done, { st with world := r.2 }), ?_, h.storeResult hResult, true,
      rfl, ?_⟩
    · simp only [hWrite]
      rfl
    · rw [← hTrue]
      exact hResult
  · exact opStoreAttrCacheMiss_sound h value lookup hFits

theorem opDelAttr_sound {code : Code S M} {st : State S M O}
    (h : Sound code st) {site : S} {m : M} (lookup : ClassLookup) :
    ∃ r, State.opDelAttr code st site m lookup = .ok r ∧ Sound code r.2 ∧
      ∃ b, r.1 = State.doneOrFailed b ∧
        DeleteResult st.world m (code.name site) (b, r.2.world) := by
  have hMiss : ∃ r, State.opDelAttrCacheMiss code st site m lookup = .ok r ∧
      Sound code r.2 ∧ ∃ b, r.1 = State.doneOrFailed b ∧
        DeleteResult st.world m (code.name site) (b, r.2.world) := by
    obtain ⟨r, hResolve, hStep, hFound⟩ :=
      resolveAttrDelete_spec h.world m (code.name site) lookup
    unfold State.opDelAttrCacheMiss
    rw [hResolve]
    cases hr : r.1 with
    | found plan =>
        obtain ⟨hPlan, next, loc, rfl⟩ := hFound plan hr
        obtain ⟨d, hDelete, hResult⟩ := delete_found_spec hStep hPlan
        obtain ⟨-, hTrue⟩ := eq_ok_of_done hDelete
        have hLater :=
          (h.deleteResult hResult).populateAttribute hPlan lookup
        refine ⟨(.done, ({ st with world := d.2 } : State S M O).populateAttribute
          site (shapeOf st.world m) _ lookup), ?_, hLater, true, rfl, ?_⟩
        · simp only [bind, Except.bind, hr, populateAttribute_world, hDelete]
          rw [populateAttribute_with_world]
          rfl
        · rw [populateAttribute_world, ← hTrue]
          exact hResult
    | notFound | readOnly | disallowed =>
        have hResult : DeleteResult st.world m (code.name site) (false, r.2) :=
          Or.inl ⟨rfl, cellStep_becomes hStep⟩
        simp only [bind, Except.bind, hr]
        exact ⟨_, rfl, h.deleteResult hResult, false, rfl, hResult⟩
  unfold State.opDelAttr
  split
  · rename_i next loc hHit
    obtain ⟨hShape, hPlan⟩ := attribute_hit_eq_some hHit
    have hFor := h.attributes site _ hShape
    rw [hPlan] at hFor
    obtain ⟨r, hDelete, hResult⟩ := deleteAttrFromPlan_spec h.world hFor
    obtain ⟨hClear, hTrue⟩ := eq_ok_of_done hDelete
    refine ⟨(.done, { st with world := r.2 }), ?_, h.deleteResult hResult, true,
      rfl, ?_⟩
    · simp only [hClear]
      rfl
    · rw [← hTrue]
      exact hResult
  · exact hMiss

omit [DecidableEq S] [DecidableEq M] in
theorem finish_eq {x : Except AssertionFailure (Bool × World M O)}
    {st : State S M O} {r : Bool × World M O} (h : x = .ok r) :
    (x >>= fun r => pure (State.finish st r)) =
      .ok (State.finish st r) := by
  rw [h]
  rfl

/-- An uncached attribute store. -/
theorem storeResult_stepResult {code : Code S M} {st : State S M O}
    (h : Sound code st) {m : M} {name : String} {value : GlobalValue M O}
    {r : Bool × World M O} (hResult : StoreResult st.world m name value r) :
    StepResult code st (.setOwnProperty m name value) (State.finish st r) := by
  obtain ⟨⟨ns, hBecomes⟩, hPermits⟩ := mayStoreAttr_of_result hResult
  exact ⟨h.storeResult hResult, hBecomes.machine, hPermits⟩

theorem deleteResult_stepResult {code : Code S M} {st : State S M O}
    (h : Sound code st) {m : M} {name : String} {r : Bool × World M O}
    (hResult : DeleteResult st.world m name r) :
    StepResult code st (.deleteOwnProperty m name) (State.finish st r) := by
  obtain ⟨⟨ns, hBecomes⟩, hPermits⟩ := mayDeleteAttr_of_result hResult
  exact ⟨h.deleteResult hResult, hBecomes.machine, hPermits⟩

/-! ## Runs -/

/-- A step that meets the condition keeps the caches sound and does what is
permitted. -/
theorem step_sound {code : Code S M} {st : State S M O} (h : Sound code st)
    {op : Operation S M O} (hMeets : StepCondition code st op) :
    ∃ r, State.step code st op = .ok r ∧ StepResult code st op r := by
  cases op with
  | ldaGlobal site => exact ldaGlobal_sound h hMeets
  | staGlobal site value => exact staGlobal_sound h value hMeets
  | delGlobal site =>
      obtain ⟨r, hDelete, ⟨ns, hBecomes⟩, hPermits⟩ :=
        deleteModuleGlobal_permitted h.world hMeets
      refine ⟨(State.doneOrNameError r.1, { st with world := r.2 }), ?_,
        h.becomes hBecomes, hBecomes.machine, hPermits⟩
      show (deleteModuleGlobal st.world _ _ >>= fun d => _) = _
      rw [hDelete]
      rfl
  | storeAttr site m value lookup =>
      obtain ⟨r, hStep, hSound, b, hOut, hResult⟩ :=
        opStoreAttr_sound h value lookup hMeets.1 hMeets.2
      obtain ⟨⟨ns, hBecomes⟩, hPermits⟩ := mayStoreAttr_of_result hResult
      refine ⟨r, hStep, hSound, hBecomes.machine, ?_⟩
      rw [hOut]
      exact hPermits
  | delAttr site m lookup =>
      obtain ⟨r, hStep, hSound, b, hOut, hResult⟩ := opDelAttr_sound h lookup
      obtain ⟨⟨ns, hBecomes⟩, hPermits⟩ := mayDeleteAttr_of_result hResult
      refine ⟨r, hStep, hSound, hBecomes.machine, ?_⟩
      rw [hOut]
      exact hPermits
  | loadModuleGlobal m name =>
      obtain ⟨r, hLoad, hStep, hValue⟩ :=
        loadModuleGlobal_spec h.world hMeets
      have hBecomes := cellStep_becomes hStep
      refine ⟨(State.loaded r.1, { st with world := r.2 }), ?_,
        h.becomes hBecomes, hBecomes.machine, ?_⟩
      · show (loadModuleGlobal st.world m name >>= fun r => _) = _
        rw [hLoad]
        rfl
      · show (State.loaded r.1, ownValue r.2) = (_, _)
        rw [hValue, hBecomes.values]
        unfold loads
        cases (ownValue st.world).lookup st.world.globalBuiltinsModule m
          name <;> rfl
  | storeModuleGlobal m name value => exact storeModuleGlobal_sound h value hMeets
  | deleteModuleGlobal m name =>
      obtain ⟨r, hDelete, ⟨ns, hBecomes⟩, hPermits⟩ :=
        deleteModuleGlobal_permitted h.world hMeets
      refine ⟨(State.doneOrNameError r.1, { st with world := r.2 }), ?_,
        h.becomes hBecomes, hBecomes.machine, hPermits⟩
      show (deleteModuleGlobal st.world m name >>= fun d => _) = _
      rw [hDelete]
      rfl
  | storeAttrUncached m name value lookup =>
      obtain ⟨r, hStore, hResult⟩ :=
        storeAttr_spec h.world value lookup hMeets
      exact ⟨_, finish_eq hStore, storeResult_stepResult h hResult⟩
  | deleteAttrUncached m name lookup =>
      obtain ⟨r, hDelete, hResult⟩ := deleteAttr_spec h.world m name lookup
      exact ⟨_, finish_eq hDelete, deleteResult_stepResult h hResult⟩
  | setOwnProperty m name value =>
      obtain ⟨r, hStore, hResult⟩ := setOwnProperty_spec h.world value hMeets
      exact ⟨_, finish_eq hStore, storeResult_stepResult h hResult⟩
  | deleteOwnProperty m name =>
      obtain ⟨r, hDelete, hResult⟩ := deleteOwnProperty_spec h.world m name
      exact ⟨_, finish_eq hDelete, deleteResult_stepResult h hResult⟩
  | setBuiltinsBinding m value =>
      obtain ⟨w, hSet, hBecomes⟩ := setBuiltinsBinding_spec h.world m value
      refine ⟨(.done, { st with world := w }), ?_, h.becomes hBecomes,
        hBecomes.machine, ?_⟩
      · show (st.world.setBuiltinsBinding m value >>= fun w => _) = _
        rw [hSet]
        rfl
      · show (_, ownValue w) = (_, _)
        rw [hBecomes.values]
  | deleteBuiltinsBinding m =>
      obtain ⟨w, hDelete, hBecomes⟩ := deleteBuiltinsBinding_spec h.world m
      refine ⟨(.done, { st with world := w }), ?_, h.becomes hBecomes,
        hBecomes.machine, ?_⟩
      · show (st.world.deleteBuiltinsBinding m >>= fun w => _) = _
        rw [hDelete]
        rfl
      · show (_, ownValue w) = (_, _)
        rw [hBecomes.values]

/-- A cache that matches stands for what the namespaces say. -/
theorem Sound.transparent {code : Code S M} {st : State S M O}
    (h : Sound code st) : Transparent code st := by
  refine { load := ?_, store := ?_ }
  · intro site plan hHit
    obtain ⟨cell, hCache, hIs⟩ := hit_eq_some hHit
    exact ((h.reads site cell plan hCache).2 hIs).load h.world
  · intro site plan value hHit
    obtain ⟨cell, hCache, hIs⟩ := hit_eq_some hHit
    have hStands := (h.mutations site cell plan hCache).2 hIs
    obtain ⟨w', hStore, hBecomes⟩ := storeCached_spec h.world value hStands
    refine ⟨w', hStore, ?_⟩
    rw [hBecomes.values,
      stores_eq (not_reserved_of_located h.world hStands.location)]

/-- Every step of a program meets its condition, in the state that it starts
from. -/
def Meets (code : Code S M) : State S M O → List (Operation S M O) → Prop
  | _, [] => True
  | st, op :: ops =>
      StepCondition code st op ∧
        ∀ r, State.step code st op = .ok r → Meets code r.2 ops

theorem run_sound {code : Code S M} (ops : List (Operation S M O)) :
    ∀ {st : State S M O}, Sound code st → Meets code st ops →
      ∃ outs st', State.run code st ops = .ok (outs, st') ∧ Sound code st' ∧
        PermitsRun st.world.globalBuiltinsModule code (ownValue st.world) ops
          outs (ownValue st'.world) := by
  induction ops with
  | nil =>
      intro st h _
      exact ⟨[], st, rfl, h, .nil _⟩
  | cons op ops ih =>
      intro st h hMeets
      obtain ⟨r, hStep, hSound, hMachine, hPermits⟩ := step_sound h hMeets.1
      obtain ⟨outs, st', hRun, hSound', hRest⟩ :=
        ih hSound (hMeets.2 r hStep)
      rw [hMachine] at hRest
      refine ⟨r.1 :: outs, st', ?_, hSound', .cons hPermits hRest⟩
      show (State.step code st op >>= fun r => _) = _
      rw [hStep]
      show (State.run code r.2 ops >>= fun rest => _) = _
      rw [hRun]
      rfl

theorem start_sound (code : Code S M) (name : M → GlobalValue M O)
    (builtins : M → Option (GlobalValue M O)) (machine : M) :
    Sound code (State.start name builtins machine) := by
  have hNone : ∀ {a : Nat}, (none : Option Nat) ≠ some a := nofun
  refine { world := ?_, reads := ?_, mutations := ?_, attributes := ?_ }
  · refine
      { modules := fun m => isModule_make (name m) (builtins m)
        globals_lt := fun _ _ h => absurd h hNone
        builtins_lt := fun _ _ h => absurd h hNone
        attached_lt := fun _ _ h => absurd h List.not_mem_nil
        attached := fun _ _ h => absurd h hNone }
  · intro site cell plan h
    exact absurd h nofun
  · intro site cell plan h
    exact absurd h nofun
  · intro site s h
    exact absurd h nofun

/-- A program runs without a failed assertion, does what the namespaces permit,
and leaves every cache that matches transparent. -/
def RunsTransparently (code : Code S M) (name : M → GlobalValue M O)
    (builtins : M → Option (GlobalValue M O)) (machine : M)
    (ops : List (Operation S M O)) : Prop :=
  ∃ outs st',
    State.run code (State.start name builtins machine) ops = .ok (outs, st') ∧
      PermitsRun machine code
        (ownValue (State.start (S := S) name builtins machine).world) ops outs
        (ownValue st'.world) ∧
      Transparent code st'

theorem run_transparent (code : Code S M) (name : M → GlobalValue M O)
    (builtins : M → Option (GlobalValue M O)) (machine : M)
    (ops : List (Operation S M O))
    (hMeets : Meets code (State.start name builtins machine) ops) :
    RunsTransparently code name builtins machine ops := by
  obtain ⟨outs, st', hRun, hSound, hPermits⟩ :=
    run_sound ops (start_sound code name builtins machine) hMeets
  exact ⟨outs, st', hRun, hPermits, hSound.transparent⟩

/-! ## Deciding the condition -/

section Decidable

instance (w : World M O) (m : M) (name : String) :
    Decidable (OwnSlotEmpty w m name) :=
  inferInstanceAs (Decidable (_ ∧ _))

instance (w : World M O) (m : M) (name : String) :
    Decidable (LandsOnEmptySlot w m name) :=
  match h : currentBuiltins w m with
  | none =>
      decidable_of_iff (OwnSlotEmpty w m name) (by
        unfold LandsOnEmptySlot
        simp [h])
  | some b =>
      decidable_of_iff (OwnSlotEmpty w m name ∨
        (shapeOf w m).resolvePresentProperty name = none ∧
          OwnSlotEmpty w b name) (by
        unfold LandsOnEmptySlot
        simp [h])

instance (w : World M O) (m : M) (name : String) :
    Decidable (GlobalStoreFits w m name) :=
  match h : (shapeOf w m).lookupDescriptorIncludingLatent name with
  | .absent =>
      decidable_of_iff
        ((shapeOf w m).nextSlotIndex < moduleInlineStorageSlotCount)
        (by simp [GlobalStoreFits, h])
  | .latent _ => isFalse (by simp [GlobalStoreFits, h])
  | .present _ => isTrue (by simp [GlobalStoreFits, h])

instance (w : World M O) (m : M) (name : String) :
    Decidable (AttributeStoreFits w m name) :=
  match h : (shapeOf w m).lookupDescriptorIncludingLatent name with
  | .absent =>
      decidable_of_iff ((shapeOf w m).nextSlotIndex <
        moduleInlineStorageSlotCount + overflowSlotMax)
        (by simp [AttributeStoreFits, h])
  | .latent _ => isTrue (by simp [AttributeStoreFits, h])
  | .present _ => isTrue (by simp [AttributeStoreFits, h])

instance (st : State S M O) (site : S) (m : M) (value : GlobalValue M O)
    (lookup : ClassLookup) : Decidable (CachedRebind st site m value lookup) :=
  match hHit : (st.attributeMutationCaches site).hit (shapeOf st.world m)
    lookup with
  | some (.storeExisting _) =>
      match hCell : (st.world.modules m).moduleBuiltinsValidityCell with
      | none => isTrue (by simp [CachedRebind, hCell])
      | some cell =>
          decidable_of_iff (st.world.isValid cell = true →
            st.world.builtinsOf (some value) = currentBuiltins st.world m)
            (by simp [CachedRebind, hHit, hCell])
  | none | some (.addOwnProperty _ _) | some (.deleteOwnProperty _ _)
  | some .changeClass => isTrue (by simp [CachedRebind, hHit])

instance (code : Code S M) (st : State S M O) :
    (op : Operation S M O) → Decidable (StepCondition code st op)
  | .ldaGlobal _ => inferInstanceAs (Decidable (¬ _))
  | .loadModuleGlobal _ _ => inferInstanceAs (Decidable (¬ _))
  | .staGlobal site _ => inferInstanceAs (Decidable
      (GlobalStoreFits st.world (code.definingModule site) (code.name site)))
  | .storeModuleGlobal m name _ =>
      inferInstanceAs (Decidable (GlobalStoreFits st.world m name))
  | .delGlobal _ => inferInstanceAs (Decidable (¬ _))
  | .deleteModuleGlobal _ _ => inferInstanceAs (Decidable (¬ _))
  | .storeAttr _ _ _ _ => inferInstanceAs (Decidable (_ ∧ (_ → _)))
  | .storeAttrUncached m name _ _ =>
      inferInstanceAs (Decidable (AttributeStoreFits st.world m name))
  | .setOwnProperty m name _ =>
      inferInstanceAs (Decidable (AttributeStoreFits st.world m name))
  | .delAttr _ _ _ | .deleteAttrUncached _ _ _ | .deleteOwnProperty _ _
  | .setBuiltinsBinding _ _ | .deleteBuiltinsBinding _ => instDecidableTrue

instance decidableMeets (code : Code S M) :
    (ops : List (Operation S M O)) → (st : State S M O) →
      Decidable (Meets code st ops)
  | [], _ => instDecidableTrue
  | op :: ops, st =>
      match h : State.step code st op with
      | .error _ =>
          decidable_of_iff (StepCondition code st op) (by simp [Meets, h])
      | .ok r =>
          have := decidableMeets code ops r.2
          decidable_of_iff (StepCondition code st op ∧ Meets code r.2 ops)
            (by simp [Meets, h])

end Decidable

/-- Module 1 has two instructions, on the globals `x` and `__builtins__`. -/
def sampleCode : Code Bool (Fin 3) :=
  { definingModule := fun _ => 1
    name := fun site => if site then "x" else "__builtins__" }

/-- Each module is named by its number, and the builtins of modules 1 and 2
are module 0. -/
def sampleName (m : Fin 3) : GlobalValue (Fin 3) Nat := .other m

def sampleBuiltins (m : Fin 3) : Option (GlobalValue (Fin 3) Nat) :=
  if m = 0 then none else some (.module 0)

theorem run_transparent_sample :
    RunsTransparently sampleCode sampleName sampleBuiltins 0
      [.setOwnProperty 0 "x" (.other 10), .ldaGlobal true,
        .staGlobal true (.other 11), .ldaGlobal true, .delGlobal true,
        .setBuiltinsBinding 1 (.module 2), .ldaGlobal true] :=
  run_transparent sampleCode sampleName sampleBuiltins 0 _ (by decide)

/-- One instruction stores `__builtins__` of module 1 twice, with a load of the
builtin `x` after each; only the first builtins have it. -/
def rebindTwice : List (Operation Bool (Fin 3) Nat) :=
  [.setOwnProperty 0 "x" (.other 10), .storeAttr false 1 (.module 0) {},
    .ldaGlobal true, .storeAttr false 1 (.module 2) {}, .ldaGlobal true]

omit [DecidableEq S] in
theorem MayStoreAttr.of_done {ns ns' : Namespaces M O} {m : M} {name : String}
    {value : GlobalValue M O} (h : MayStoreAttr ns m name value (.done, ns'))
    (hName : name ≠ "__class__") : ns' = ns.set m name (some value) := by
  rcases h with hFailed | hDone
  · exact absurd (Prod.mk.inj hFailed).1 nofun
  · rw [if_neg hName] at hDone
    exact (Prod.mk.inj hDone).2

/-- The second load still takes the matching cache to the first builtins. -/
theorem not_forall_runsTransparently :
    ¬ ∀ {S M O : Type} [DecidableEq S] [DecidableEq M] (code : Code S M)
      (name : M → GlobalValue M O) (builtins : M → Option (GlobalValue M O))
      (machine : M) (ops : List (Operation S M O)),
      RunsTransparently code name builtins machine ops := by
  intro h
  obtain ⟨outs, st', hRun, hPermits, -⟩ :=
    h sampleCode sampleName sampleBuiltins 0 rebindTwice
  have hOuts : (State.run sampleCode (State.start sampleName sampleBuiltins 0)
      rebindTwice).map Prod.fst =
        .ok [.done, .done, .value (.other 10), .done, .value (.other 10)] := rfl
  rw [hRun] at hOuts
  obtain rfl : outs = _ := Except.ok.inj hOuts
  rcases hPermits with _ | ⟨hSet, _ | ⟨hStore, _ | ⟨hLoad, _ | ⟨hStore',
    _ | ⟨hLoad', -⟩⟩⟩⟩⟩
  obtain rfl := hSet.of_done (by decide)
  obtain rfl := hStore.of_done (by decide)
  obtain rfl := (Prod.mk.inj hLoad).2
  obtain rfl := hStore'.of_done (by decide)
  exact absurd (Prod.mk.inj hLoad').1 (by decide)

end CloverVM.ImportSystem.ModuleGlobalTransparency
