import CloverVM.Jit.AArch64Relaxation
import CloverVM.Machine.Layout

/-!
# The machine-code emitter

The emitter of `jit/machine_code_emitter.h`.  Code is collected in fragments,
which may end with a branch whose size is still open, and labels are bound to
the starts of fragments.  A first layout gives every branch its largest size;
with it the form of each branch is selected and the fragments get their final
places; then the bytes are copied, their relocations are applied and the
branches are encoded.

The relocations are the type `ρ`; what one makes of an instruction at an
address is `applyTo`, with the addresses of the constant pool in it.  The pool
itself, and the cache that the code is allocated in, are not part of it.
-/

namespace CloverVM.Jit

open CloverVM.Machine CloverVM.Machine.BranchCode CloverVM.Machine.Layout

structure RelocationEntry (ρ : Type) where
  offset : Nat
  relocation : ρ
deriving Repr

structure Fragment (ρ : Type) where
  bytes : List Byte
  relocations : List (RelocationEntry ρ)
  relaxation : Option AArch64Relaxation
  pessimisticStart : Nat
  finalStart : Nat
deriving Repr

def Fragment.empty (ρ : Type) : Fragment ρ :=
  { bytes := [], relocations := [], relaxation := none
    pessimisticStart := 0, finalStart := 0 }

/-- The vector of fragments is never empty: `current` is its last one. -/
structure MachineCodeEmitter (ρ : Type) where
  finished : List (Fragment ρ)
  current : Fragment ρ
  labelBindings : List (Option Nat)
  finalizationAttempted : Bool
deriving Repr

def addSizes (left right : Nat) : Option Nat := do
  check (right ≤ sizeMax - left)
  return left + right

namespace MachineCodeEmitter

variable {ρ : Type}

def make (ρ : Type) : MachineCodeEmitter ρ :=
  { finished := [], current := Fragment.empty ρ, labelBindings := []
    finalizationAttempted := false }

def fragments (emitter : MachineCodeEmitter ρ) : List (Fragment ρ) :=
  emitter.finished ++ [emitter.current]

/-! ## Building -/

def makeLabel (emitter : MachineCodeEmitter ρ) :
    Option (Label × MachineCodeEmitter ρ) := do
  check (emitter.finalizationAttempted = false)
  check (emitter.labelBindings.length < 2 ^ 32 - 1)
  return (⟨emitter.labelBindings.length⟩,
    { emitter with labelBindings := emitter.labelBindings ++ [none] })

/-- `fragments_.emplace_back()`. -/
def startFragment (emitter : MachineCodeEmitter ρ) : MachineCodeEmitter ρ :=
  { emitter with
    finished := emitter.finished ++ [emitter.current]
    current := Fragment.empty ρ }

def resolve (emitter : MachineCodeEmitter ρ) (label : Label) :
    Option (MachineCodeEmitter ρ) := do
  check (emitter.finalizationAttempted = false)
  check (label.index < emitter.labelBindings.length)
  check (emitter.labelBindings[label.index]? = some none)
  let emitter :=
    if emitter.current.bytes ≠ [] then emitter.startFragment else emitter
  return { emitter with
    labelBindings := emitter.labelBindings.set label.index
      (some (emitter.fragments.length - 1)) }

def emitBytes (emitter : MachineCodeEmitter ρ) (bytes : List Byte) :
    Option (MachineCodeEmitter ρ) := do
  check (emitter.finalizationAttempted = false)
  if bytes.length = 0 then
    return emitter
  else
    return { emitter with
      current := { emitter.current with
        bytes := emitter.current.bytes ++ bytes } }

def addRelocationToLastEmitted (emitter : MachineCodeEmitter ρ) (size : Nat)
    (relocation : ρ) : Option (MachineCodeEmitter ρ) := do
  check (size ≠ 0)
  check (size ≤ emitter.current.bytes.length)
  check (emitter.current.bytes.length ≤ 2 ^ 32 - 1)
  let offset := emitter.current.bytes.length - size
  return { emitter with
    current := { emitter.current with
      relocations := emitter.current.relocations ++ [⟨offset, relocation⟩] } }

def emitRelaxation (emitter : MachineCodeEmitter ρ)
    (relaxation : AArch64Relaxation) : Option (MachineCodeEmitter ρ) := do
  check (emitter.finalizationAttempted = false)
  check (emitter.current.relaxation = none)
  return { emitter with
    current := { emitter.current with relaxation := some relaxation } }
      |>.startFragment

/-- What an assembler asks the emitter for.  A relocation is always for the
instruction that was emitted last, and a branch comes with no form selected. -/
inductive Operation (ρ : Type) where
  | makeLabel
  | resolve (label : Label)
  | emitBytes (bytes : List Byte)
  | addRelocation (relocation : ρ)
  | emitRelaxation (kind : AArch64RelaxationKind)
deriving Repr

def perform (emitter : MachineCodeEmitter ρ) :
    Operation ρ → Option (MachineCodeEmitter ρ)
  | .makeLabel => (emitter.makeLabel).map Prod.snd
  | .resolve label => emitter.resolve label
  | .emitBytes bytes => emitter.emitBytes bytes
  | .addRelocation relocation =>
      emitter.addRelocationToLastEmitted 4 relocation
  | .emitRelaxation kind => emitter.emitRelaxation ⟨kind, .unselected⟩

/-- The emitter that the operations build. -/
def build : List (Operation ρ) → MachineCodeEmitter ρ →
    Option (MachineCodeEmitter ρ)
  | [], emitter => some emitter
  | operation :: rest, emitter => (emitter.perform operation).bind (build rest)

/-! ## The two layouts -/

/-- The end of a fragment whose bytes end at `cursor`. -/
def reserveMaximum (cursor : Nat) :
    Option AArch64Relaxation → Option Nat
  | none => some cursor
  | some relaxation => do
      check (relaxation.minSize ≤ relaxation.maxSize)
      addSizes cursor relaxation.maxSize

def pessimisticLoop : Nat → List (Fragment ρ) →
    Option (List (Fragment ρ) × Nat)
  | cursor, [] => some ([], cursor)
  | cursor, fragment :: rest => do
      let afterBytes ← addSizes cursor fragment.bytes.length
      let next ← reserveMaximum afterBytes fragment.relaxation
      let (rest, size) ← pessimisticLoop next rest
      return ({ fragment with pessimisticStart := cursor } :: rest, size)

def calculatePessimisticLayout (emitter : MachineCodeEmitter ρ) :
    Option (List (Fragment ρ) × Nat) := do
  check (∀ binding ∈ emitter.labelBindings, binding.isSome)
  pessimisticLoop 0 emitter.fragments

def labelFragment (fragments : List (Fragment ρ))
    (labelBindings : List (Option Nat)) (label : Label) :
    Option (Fragment ρ) := do
  let binding ← labelBindings[label.index]?
  fragments[← binding]?

def pessimisticLabelAddress (fragments : List (Fragment ρ))
    (labelBindings : List (Option Nat)) (label : Label)
    (codeAddress : MachineAddress) : Option MachineAddress := do
  codeAddress.offsetBy
    (← labelFragment fragments labelBindings label).pessimisticStart

def finalLabelAddress (fragments : List (Fragment ρ))
    (labelBindings : List (Option Nat)) (label : Label)
    (codeAddress : MachineAddress) : Option MachineAddress := do
  codeAddress.offsetBy
    (← labelFragment fragments labelBindings label).finalStart

def finalTargetAddress (fragments : List (Fragment ρ))
    (labelBindings : List (Option Nat)) (codeAddress : MachineAddress) :
    CodeTarget → Option MachineAddress
  | .label label =>
      finalLabelAddress fragments labelBindings label codeAddress
  | .machineAddress address => some address

/-- The form of the branch of a fragment whose bytes end at `cursor`. -/
def selectIn (fragments : List (Fragment ρ))
    (labelBindings : List (Option Nat)) (codeAddress : MachineAddress)
    (fragment : Fragment ρ) (relaxation : AArch64Relaxation) (cursor : Nat) :
    Option (AArch64Relaxation × Nat) :=
  match relaxation.target with
  | .label label => do
      let pessimisticBranchOffset ←
        addSizes fragment.pessimisticStart fragment.bytes.length
      relaxation.select (← codeAddress.offsetBy pessimisticBranchOffset)
        (← pessimisticLabelAddress fragments labelBindings label codeAddress)
  | .machineAddress address => do
      relaxation.select (← codeAddress.offsetBy cursor) address

/-- The loop over the fragments.  The labels are looked up in `fragments`,
whose pessimistic starts do not change. -/
def selectLoop (fragments : List (Fragment ρ))
    (labelBindings : List (Option Nat)) (codeAddress : MachineAddress) :
    Nat → List (Fragment ρ) → Option (List (Fragment ρ) × Nat)
  | cursor, [] => some ([], cursor)
  | cursor, fragment :: rest => do
      let afterBytes ← addSizes cursor fragment.bytes.length
      match fragment.relaxation with
      | none => do
          let (rest, size) ← selectLoop fragments labelBindings codeAddress
            afterBytes rest
          return ({ fragment with finalStart := cursor } :: rest, size)
      | some relaxation => do
          let (relaxation, selected) ← selectIn fragments labelBindings
            codeAddress fragment relaxation afterBytes
          check (selected ≥ relaxation.minSize)
          check (selected ≤ relaxation.maxSize)
          let next ← addSizes afterBytes selected
          let (rest, size) ← selectLoop fragments labelBindings codeAddress
            next rest
          return ({ fragment with
            finalStart := cursor
            relaxation := some relaxation } :: rest, size)

def selectRelaxations (fragments : List (Fragment ρ))
    (labelBindings : List (Option Nat)) (codeAddress : MachineAddress) :
    Option (List (Fragment ρ) × Nat) :=
  selectLoop fragments labelBindings codeAddress 0 fragments

/-- `memcpy` to a place of the span. -/
def store (memory : List Byte) (offset : Nat) (bytes : List Byte) :
    Option (List Byte) := do
  check (offset + bytes.length ≤ memory.length)
  return writeAt memory offset bytes

/-- The instruction that is stored at a place of the span. -/
def loadWord (memory : List Byte) (offset : Nat) : Option Word32 := do
  return (← memory[offset + 3]?) ++ (← memory[offset + 2]?) ++
    (← memory[offset + 1]?) ++ (← memory[offset]?)

section Encoding

variable (applyTo : ρ → Word32 → MachineAddress → Option Word32)
variable (codeAddress : MachineAddress)

/-- A relocation changes the instruction that is stored at its place. -/
def applyRelocation (fragment : Fragment ρ) (memory : List Byte)
    (entry : RelocationEntry ρ) : Option (List Byte) := do
  check (entry.offset < fragment.bytes.length)
  let instructionOffset ← addSizes fragment.finalStart entry.offset
  let instructionPc ← codeAddress.offsetBy instructionOffset
  let instruction ← applyTo entry.relocation
    (← loadWord memory instructionOffset) instructionPc
  store memory instructionOffset (wordBytes instruction)

def encodeFragment (fragments : List (Fragment ρ))
    (labelBindings : List (Option Nat)) (memory : List Byte)
    (fragment : Fragment ρ) : Option (List Byte) := do
  let copied ← store memory fragment.finalStart fragment.bytes
  let relocated ← fragment.relocations.foldlM
    (applyRelocation applyTo codeAddress fragment) copied
  match fragment.relaxation with
  | none => return relocated
  | some relaxation => do
      let branchOffset ← addSizes fragment.finalStart fragment.bytes.length
      let target ← finalTargetAddress fragments labelBindings codeAddress
        relaxation.target
      let words ← relaxation.encode (← codeAddress.offsetBy branchOffset)
        target
      store relocated branchOffset (codeBytes words)

def encode (fragments : List (Fragment ρ)) (labelBindings : List (Option Nat))
    (memory : List Byte) : Option (List Byte) :=
  fragments.foldlM
    (encodeFragment applyTo codeAddress fragments labelBindings) memory

end Encoding

/-- The code is allocated at `codeAddress`, in a span whose bytes are
`writable size` when `size` of them are asked for. -/
def finalize (applyTo : ρ → Word32 → MachineAddress → Option Word32)
    (emitter : MachineCodeEmitter ρ) (codeAddress : MachineAddress)
    (writable : Nat → List Byte) : Option (List (Fragment ρ) × List Byte) := do
  check (emitter.finalizationAttempted = false)
  let (fragments, pessimisticSize) ← emitter.calculatePessimisticLayout
  check (pessimisticSize ≠ 0)
  check (pessimisticSize ≤ AArch64Relaxation.maximumUnitSize)
  let (fragments, finalSize) ←
    selectRelaxations fragments emitter.labelBindings codeAddress
  let memory ← encode applyTo codeAddress fragments emitter.labelBindings
    (writable finalSize)
  return (fragments, memory)

/-! ## What is built -/

/-- What holds of an emitter that its operations built. -/
structure Built (emitter : MachineCodeEmitter ρ) : Prop where
  notAttempted : emitter.finalizationAttempted = false
  current_relaxation : emitter.current.relaxation = none
  unselected : ∀ fragment ∈ emitter.finished, ∀ relaxation,
    fragment.relaxation = some relaxation → relaxation.mode = .unselected
  bound : ∀ binding, some binding ∈ emitter.labelBindings →
    binding < emitter.fragments.length
  relocations : ∀ fragment ∈ emitter.fragments,
    ∀ entry ∈ fragment.relocations, entry.offset + 4 ≤ fragment.bytes.length

section Building

variable {emitter emitter' : MachineCodeEmitter ρ}

theorem built_make (ρ : Type) : Built (make ρ) where
  notAttempted := rfl
  current_relaxation := rfl
  unselected := nofun
  bound := nofun
  relocations := by
    intro fragment hFragment entry hEntry
    obtain rfl := List.mem_singleton.mp hFragment
    cases hEntry

theorem length_fragments (emitter : MachineCodeEmitter ρ) :
    emitter.fragments.length = emitter.finished.length + 1 := by
  rw [fragments, List.length_append, List.length_singleton]

theorem fragments_startFragment (emitter : MachineCodeEmitter ρ) :
    emitter.startFragment.fragments =
      emitter.fragments ++ [Fragment.empty ρ] := rfl

/-- A fragment is finished when the next one is started. -/
theorem Built.startFragment (h : Built emitter) :
    Built emitter.startFragment where
  notAttempted := h.notAttempted
  current_relaxation := rfl
  unselected := by
    intro fragment hFragment relaxation hRelaxation
    rcases List.mem_append.mp hFragment with hOld | hCurrent
    · exact h.unselected fragment hOld relaxation hRelaxation
    · obtain rfl := List.mem_singleton.mp hCurrent
      rw [h.current_relaxation] at hRelaxation
      cases hRelaxation
  bound := by
    intro binding hBinding
    rw [fragments_startFragment, List.length_append]
    exact Nat.lt_add_right _ (h.bound binding hBinding)
  relocations := by
    intro fragment hFragment entry hEntry
    rw [fragments_startFragment] at hFragment
    rcases List.mem_append.mp hFragment with hOld | hNew
    · exact h.relocations fragment hOld entry hEntry
    · obtain rfl := List.mem_singleton.mp hNew
      cases hEntry

/-- The current fragment may be changed as long as it has no branch and its
relocations stay in its bytes. -/
theorem Built.withCurrent (h : Built emitter) {current : Fragment ρ}
    (hPlain : current.relaxation = none)
    (hInside : ∀ entry ∈ current.relocations,
      entry.offset + 4 ≤ current.bytes.length) :
    Built { emitter with current } where
  notAttempted := h.notAttempted
  current_relaxation := hPlain
  unselected := h.unselected
  bound := by
    intro binding hBinding
    have hLess := h.bound binding hBinding
    rw [length_fragments] at hLess ⊢
    exact hLess
  relocations := by
    intro fragment hFragment entry hEntry
    rcases List.mem_append.mp hFragment with hOld | hCurrent
    · exact h.relocations fragment (List.mem_append_left _ hOld) entry hEntry
    · obtain rfl := List.mem_singleton.mp hCurrent
      exact hInside entry hEntry

theorem Built.current_relocations (h : Built emitter) :
    ∀ entry ∈ emitter.current.relocations,
      entry.offset + 4 ≤ emitter.current.bytes.length :=
  h.relocations _ (List.mem_append_right _ (List.mem_singleton_self _))

theorem Built.makeLabel (h : Built emitter) {label : Label}
    (hMake : emitter.makeLabel = some (label, emitter')) : Built emitter' := by
  unfold MachineCodeEmitter.makeLabel at hMake
  rw [check_bind_eq_some, check_bind_eq_some] at hMake
  obtain ⟨-, -, hMade⟩ := hMake
  obtain ⟨-, rfl⟩ := Prod.mk.inj (Option.some.inj hMade)
  refine { h with bound := fun binding hBinding => ?_ }
  rcases List.mem_append.mp hBinding with hOld | hNew
  · exact h.bound binding hOld
  · cases List.mem_singleton.mp hNew

theorem Built.resolve (h : Built emitter) {label : Label}
    (hResolve : emitter.resolve label = some emitter') : Built emitter' := by
  unfold MachineCodeEmitter.resolve at hResolve
  rw [check_bind_eq_some, check_bind_eq_some, check_bind_eq_some] at hResolve
  obtain ⟨-, -, -, hBound⟩ := hResolve
  obtain rfl := Option.some.inj hBound
  have hReady : Built (if emitter.current.bytes ≠ [] then
      emitter.startFragment else emitter) := by
    split
    · exact h.startFragment
    · exact h
  refine { hReady with bound := fun binding hBinding => ?_ }
  have hSame : (if emitter.current.bytes ≠ [] then emitter.startFragment
      else emitter).labelBindings = emitter.labelBindings := by
    split <;> rfl
  rcases List.mem_or_eq_of_mem_set hBinding with hOld | hNew
  · exact hReady.bound binding hOld
  · obtain rfl := Option.some.inj hNew
    have hLength := length_fragments (if emitter.current.bytes ≠ [] then
      emitter.startFragment else emitter)
    exact Nat.sub_lt (by omega) Nat.one_pos

theorem Built.emitBytes (h : Built emitter) {bytes : List Byte}
    (hEmit : emitter.emitBytes bytes = some emitter') : Built emitter' := by
  unfold MachineCodeEmitter.emitBytes at hEmit
  rw [check_bind_eq_some] at hEmit
  obtain ⟨-, hEmitted⟩ := hEmit
  split at hEmitted
  · obtain rfl := Option.some.inj hEmitted
    exact h
  · obtain rfl := Option.some.inj hEmitted
    refine h.withCurrent h.current_relaxation fun entry hEntry => ?_
    have hInside := h.current_relocations entry hEntry
    show _ ≤ (emitter.current.bytes ++ bytes).length
    rw [List.length_append]
    omega

theorem Built.addRelocation (h : Built emitter) {relocation : ρ}
    (hAdd : emitter.addRelocationToLastEmitted 4 relocation = some emitter') :
    Built emitter' := by
  unfold MachineCodeEmitter.addRelocationToLastEmitted at hAdd
  rw [check_bind_eq_some, check_bind_eq_some, check_bind_eq_some] at hAdd
  obtain ⟨-, hRoom, -, hAdded⟩ := hAdd
  obtain rfl := Option.some.inj hAdded
  refine h.withCurrent h.current_relaxation fun entry hEntry => ?_
  rcases List.mem_append.mp hEntry with hOld | hNew
  · exact h.current_relocations entry hOld
  · obtain rfl := List.mem_singleton.mp hNew
    exact (Nat.sub_add_cancel hRoom).le

theorem Built.emitRelaxation (h : Built emitter)
    {kind : AArch64RelaxationKind}
    (hEmit : emitter.emitRelaxation ⟨kind, .unselected⟩ = some emitter') :
    Built emitter' := by
  unfold MachineCodeEmitter.emitRelaxation at hEmit
  rw [check_bind_eq_some, check_bind_eq_some] at hEmit
  obtain ⟨-, -, hEmitted⟩ := hEmit
  obtain rfl := Option.some.inj hEmitted
  have hStarted := h.startFragment
  refine { hStarted with
    unselected := fun fragment hFragment relaxation hRelaxation => ?_
    bound := fun binding hBinding => ?_
    relocations := fun fragment hFragment entry hEntry => ?_ }
  · rcases List.mem_append.mp hFragment with hOld | hCurrent
    · exact h.unselected fragment hOld relaxation hRelaxation
    · obtain rfl := List.mem_singleton.mp hCurrent
      obtain rfl := Option.some.inj hRelaxation
      rfl
  · have hLess := hStarted.bound binding hBinding
    rw [length_fragments] at hLess ⊢
    simpa [MachineCodeEmitter.startFragment] using hLess
  · rcases List.mem_append.mp hFragment with hOld | hNew
    · rcases List.mem_append.mp hOld with hFinished | hCurrent
      · exact h.relocations fragment (List.mem_append_left _ hFinished) entry
          hEntry
      · obtain rfl := List.mem_singleton.mp hCurrent
        exact h.current_relocations entry hEntry
    · obtain rfl := List.mem_singleton.mp hNew
      cases hEntry

theorem Built.perform (h : Built emitter) {operation : Operation ρ}
    (hStep : emitter.perform operation = some emitter') : Built emitter' := by
  cases operation with
  | makeLabel =>
      obtain ⟨⟨label, made⟩, hMake, rfl⟩ := Option.map_eq_some_iff.mp hStep
      exact h.makeLabel hMake
  | resolve label => exact h.resolve hStep
  | emitBytes bytes => exact h.emitBytes hStep
  | addRelocation relocation => exact h.addRelocation hStep
  | emitRelaxation kind => exact h.emitRelaxation hStep

theorem Built.build {operations : List (Operation ρ)} (h : Built emitter)
    (hBuild : MachineCodeEmitter.build operations emitter = some emitter') :
    Built emitter' := by
  induction operations generalizing emitter with
  | nil =>
      obtain rfl := Option.some.inj hBuild
      exact h
  | cons operation operations ih =>
      obtain ⟨next, hStep, hRest⟩ := Option.bind_eq_some_iff.mp hBuild
      exact ih (h.perform hStep) hRest

end Building

end MachineCodeEmitter

end CloverVM.Jit
