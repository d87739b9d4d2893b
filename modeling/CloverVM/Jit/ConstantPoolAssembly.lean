import CloverVM.Jit.ConstantPoolRelocation

/-!
# Assembling with a constant pool

A sequence of operations on the macro assembler, with what its caller knows
afterwards: the entries that were handed out, each with the bytes it stands
for, and the places where instructions refer to them.

`Assembly.Sound` holds after every operation: each relocation is for the word
that was emitted for it, and the pool has the bytes of every entry.
-/

namespace CloverVM.Jit

open CloverVM.Machine CloverVM.Machine.BranchCode CloverVM.Machine.AddressCode

/-- An entry, with the bytes it was made of. -/
structure PoolItem where
  entry : ConstantPoolEntry
  bytes : List Byte
deriving DecidableEq, Repr

inductive ReferenceForm where
  | load
  | address
deriving DecidableEq, Repr

/-- The first instruction of a reference is at an offset of a fragment. -/
structure Reference where
  form : ReferenceForm
  destination : XRegister
  item : PoolItem
  fragment : Nat
  offset : Nat
deriving DecidableEq, Repr

inductive MacroOperation where
  | makeLabel
  | resolve (label : Label)
  | instruction (word : Word32)
  | emitRelaxation (kind : AArch64RelaxationKind)
  | addValue (value : BitVec 64)
  | addHeapObject (object : BitVec 64)
  | addData (data : List Byte)
  | ldrValue (destination : XRegister) (value : BitVec 64)
  | ldrHeapObject (destination : XRegister) (object : BitVec 64)
  /-- The entry is one that was handed out, by its number. -/
  | adr (destination : XRegister) (item : Nat)
deriving Repr

structure Assembly where
  assembler : AArch64MacroAssembler
  items : List PoolItem
  references : List Reference
deriving Repr

def AArch64MacroAssembler.refer (assembler : AArch64MacroAssembler)
    (destination : XRegister) (entry : ConstantPoolEntry) :
    ReferenceForm → Option AArch64MacroAssembler
  | .load => assembler.ldr destination entry
  | .address => assembler.adr destination entry

namespace Assembly

def pooled (assembly : Assembly) : PooledEmitter := assembly.assembler.pooled

def emitter (assembly : Assembly) : MachineCodeEmitter AArch64Relocation :=
  assembly.pooled.emitter

def withPooled (assembly : Assembly) (pooled : PooledEmitter) : Assembly :=
  { assembly with assembler := { assembly.assembler with pooled } }

/-- A step of the emitter. -/
def emit (assembly : Assembly)
    (operation : MachineCodeEmitter.Operation AArch64Relocation) :
    Option Assembly := do
  return { assembly with assembler := ← assembly.assembler.emitter operation }

/-- An entry of the pool and what it stands for. -/
def add (assembly : Assembly) (bytes : List Byte) :
    Option (ConstantPoolEntry × PooledEmitter) → Option (PoolItem × Assembly)
  | none => none
  | some (entry, pooled) =>
      let item : PoolItem := ⟨entry, bytes⟩
      some (item, { assembly.withPooled pooled with
        items := assembly.items ++ [item] })

def addValue (assembly : Assembly) (value : BitVec 64) :
    Option (PoolItem × Assembly) :=
  assembly.add (longBytes value)
    (assembly.pooled.addValueToConstantPool value)

def addHeapObject (assembly : Assembly) (object : BitVec 64) :
    Option (PoolItem × Assembly) :=
  assembly.add (longBytes object)
    (assembly.pooled.addHeapObjectToConstantPool object)

def addData (assembly : Assembly) (data : List Byte) :
    Option (PoolItem × Assembly) :=
  assembly.add data (assembly.pooled.addDataToConstantPool data)

/-- The instructions of a reference are emitted where the code ends. -/
def refer (assembly : Assembly) (form : ReferenceForm)
    (destination : XRegister) (item : PoolItem) : Option Assembly := do
  let assembler ← assembly.assembler.refer destination item.entry form
  return { assembly with
    assembler
    references := assembly.references ++ [{
      form, destination, item
      fragment := assembly.emitter.finished.length
      offset := assembly.emitter.current.bytes.length }] }

def perform (assembly : Assembly) : MacroOperation → Option Assembly
  | .makeLabel => assembly.emit .makeLabel
  | .resolve label => assembly.emit (.resolve label)
  | .instruction word => assembly.emit (.emitBytes (wordBytes word))
  | .emitRelaxation kind => assembly.emit (.emitRelaxation kind)
  | .addValue value => (assembly.addValue value).map Prod.snd
  | .addHeapObject object => (assembly.addHeapObject object).map Prod.snd
  | .addData data => (assembly.addData data).map Prod.snd
  | .ldrValue destination value => do
      let (item, assembly) ← assembly.addValue value
      assembly.refer .load destination item
  | .ldrHeapObject destination object => do
      let (item, assembly) ← assembly.addHeapObject object
      assembly.refer .load destination item
  | .adr destination item => do
      assembly.refer .address destination (← assembly.items[item]?)

def performAll : List MacroOperation → Assembly → Option Assembly
  | [], assembly => some assembly
  | operation :: rest, assembly =>
      (assembly.perform operation).bind (performAll rest)

end Assembly

/-- A new assembler and its operations. -/
def assemble (mode : AArch64ValuePoolMode)
    (operations : List MacroOperation) : Option Assembly := do
  let assembler ← AArch64MacroAssembler.make mode
  Assembly.performAll operations { assembler, items := [], references := [] }

/-! ## Fragments that can be relocated -/

/-- The kinds of relocations that a mode makes. -/
def AArch64ValuePoolMode.kinds :
    AArch64ValuePoolMode → List AArch64RelocationKind
  | nearLiteral => [.pcRelative19Scaled4, .pcRelative21]
  | farPageRelative =>
      [.pageRelative21, .pageOffset12, .pageOffset12Scaled8]

/-- The instructions of a reference, by their relocations. -/
def AArch64ValuePoolMode.pieces :
    AArch64ValuePoolMode → ReferenceForm → List AArch64RelocationKind
  | nearLiteral, .load => [.pcRelative19Scaled4]
  | nearLiteral, .address => [.pcRelative21]
  | farPageRelative, .load => [.pageRelative21, .pageOffset12Scaled8]
  | farPageRelative, .address => [.pageRelative21, .pageOffset12]

/-- A relocation is for the word that was emitted for it. -/
structure EntryReady (mode : AArch64ValuePoolMode) (items : List PoolItem)
    (bytes : List Byte) (entry : RelocationEntry AArch64Relocation) :
    Prop where
  aligned : 4 ∣ entry.offset
  kind : entry.relocation.kind ∈ mode.kinds
  target : ∃ item ∈ items, item.entry = entry.relocation.target
  word : ∃ register : Fin 31, MachineCodeEmitter.loadWord bytes entry.offset =
    some (entry.relocation.kind.emittedWord register)

structure FragmentReady (mode : AArch64ValuePoolMode) (items : List PoolItem)
    (fragment : Fragment AArch64Relocation) : Prop where
  whole : 4 ∣ fragment.bytes.length
  spaced : Spaced fragment.relocations
  ready : ∀ entry ∈ fragment.relocations,
    EntryReady mode items fragment.bytes entry

/-- A fragment that goes on. -/
structure Grows (fragment fragment' : Fragment AArch64Relocation) : Prop where
  bytes : ∃ more, fragment'.bytes = fragment.bytes ++ more
  relocations : fragment.relocations ⊆ fragment'.relocations

/-- The emitter goes on: its fragments stay where they are. -/
def EmitterGrows (emitter emitter' : MachineCodeEmitter AArch64Relocation) :
    Prop :=
  ∀ (i : Nat) (fragment : Fragment AArch64Relocation),
    emitter.fragments[i]? = some fragment →
      ∃ fragment', emitter'.fragments[i]? = some fragment' ∧
        Grows fragment fragment'

/-- The words of a reference are in a fragment, to be relocated. -/
def Reference.Emitted (reference : Reference) (mode : AArch64ValuePoolMode)
    (fragment : Fragment AArch64Relocation) : Prop :=
  ∀ (k : Nat) (kind : AArch64RelocationKind),
    (mode.pieces reference.form)[k]? = some kind →
      ⟨reference.offset + 4 * k, ⟨reference.item.entry, kind⟩⟩ ∈
          fragment.relocations ∧
        MachineCodeEmitter.loadWord fragment.bytes
            (reference.offset + 4 * k) =
          some (kind.emittedWord reference.destination.registerNumber)

/-- What is loaded is a value. -/
def Reference.Loadable (reference : Reference) : Prop :=
  reference.form = .load →
    ∃ value, reference.item.bytes = longBytes value

section Growing

variable {fragment fragment' fragment'' : Fragment AArch64Relocation}
variable {emitter emitter' emitter'' : MachineCodeEmitter AArch64Relocation}
variable {mode : AArch64ValuePoolMode} {items items' : List PoolItem}
variable {bytes : List Byte} {offset : Nat} {word : Word32}

theorem Grows.refl (fragment : Fragment AArch64Relocation) :
    Grows fragment fragment :=
  ⟨⟨[], (List.append_nil _).symm⟩, List.Subset.refl _⟩

theorem Grows.trans (h : Grows fragment fragment')
    (h' : Grows fragment' fragment'') : Grows fragment fragment'' := by
  obtain ⟨more, hBytes⟩ := h.bytes
  obtain ⟨more', hBytes'⟩ := h'.bytes
  refine ⟨⟨more ++ more', ?_⟩, List.Subset.trans h.relocations h'.relocations⟩
  rw [hBytes', hBytes, List.append_assoc]

theorem EmitterGrows.refl (emitter : MachineCodeEmitter AArch64Relocation) :
    EmitterGrows emitter emitter :=
  fun _ fragment h => ⟨fragment, h, .refl fragment⟩

theorem EmitterGrows.trans (h : EmitterGrows emitter emitter')
    (h' : EmitterGrows emitter' emitter'') : EmitterGrows emitter emitter'' := by
  intro i fragment hFragment
  obtain ⟨fragment', hFragment', hGrows⟩ := h i fragment hFragment
  obtain ⟨fragment'', hFragment'', hGrows'⟩ := h' i fragment' hFragment'
  exact ⟨fragment'', hFragment'', hGrows.trans hGrows'⟩

/-- A word stays when more is emitted behind it. -/
theorem loadWord_append (more : List Byte)
    (h : MachineCodeEmitter.loadWord bytes offset = some word) :
    MachineCodeEmitter.loadWord (bytes ++ more) offset = some word := by
  rw [← h]
  obtain ⟨b3, h3, -⟩ := exists_of_bind h
  have hBound := (List.getElem?_eq_some_iff.mp h3).1
  exact loadWord_congr fun i _ hi =>
    List.getElem?_append_left (by omega)

/-- The word that is emitted last. -/
theorem loadWord_last (bytes : List Byte) (word : Word32) :
    MachineCodeEmitter.loadWord (bytes ++ wordBytes word) bytes.length =
      some word := by
  have h := @loadWord_inside bytes (wordBytes word) [] 0
    (by rw [length_wordBytes])
  rwa [List.append_nil, Nat.add_zero, loadWord_wordBytes] at h

theorem Reference.Emitted.grows {reference : Reference}
    (h : reference.Emitted mode fragment) (hGrows : Grows fragment fragment') :
    reference.Emitted mode fragment' := by
  intro k kind hPiece
  obtain ⟨hMem, hWord⟩ := h k kind hPiece
  obtain ⟨more, hBytes⟩ := hGrows.bytes
  exact ⟨hGrows.relocations hMem, hBytes ▸ loadWord_append more hWord⟩

theorem EntryReady.grows {entry : RelocationEntry AArch64Relocation}
    (h : EntryReady mode items bytes entry) (more : List Byte)
    (hItems : items ⊆ items') :
    EntryReady mode items' (bytes ++ more) entry := by
  obtain ⟨item, hMem, hTarget⟩ := h.target
  obtain ⟨register, hWord⟩ := h.word
  exact ⟨h.aligned, h.kind, ⟨item, hItems hMem, hTarget⟩, register,
    loadWord_append more hWord⟩

theorem FragmentReady.mono (h : FragmentReady mode items fragment)
    (hItems : items ⊆ items') : FragmentReady mode items' fragment := by
  refine ⟨h.whole, h.spaced, fun entry hEntry => ?_⟩
  have hReady := (h.ready entry hEntry).grows [] hItems
  rwa [List.append_nil] at hReady

theorem fragmentReady_empty : FragmentReady mode items
    (Fragment.empty AArch64Relocation) :=
  ⟨Nat.dvd_zero _, .nil, nofun⟩

/-- An instruction behind the others. -/
theorem FragmentReady.instruction (h : FragmentReady mode items fragment)
    (word : Word32) :
    FragmentReady mode items
      { fragment with bytes := fragment.bytes ++ wordBytes word } := by
  refine ⟨?_, h.spaced, fun entry hEntry =>
    (h.ready entry hEntry).grows _ (List.Subset.refl _)⟩
  rw [List.length_append, length_wordBytes]
  exact Nat.dvd_add h.whole (Nat.dvd_refl 4)

/-- A relocation is for the word that its offset is of, and that word is in
the fragment. -/
theorem EntryReady.inside {entry : RelocationEntry AArch64Relocation}
    (h : EntryReady mode items bytes entry) :
    entry.offset + 4 ≤ bytes.length := by
  obtain ⟨register, hWord⟩ := h.word
  obtain ⟨b3, h3, -⟩ := exists_of_bind hWord
  have hBound := (List.getElem?_eq_some_iff.mp h3).1
  omega

theorem FragmentReady.relocated (h : FragmentReady mode items fragment)
    {kind : AArch64RelocationKind} (hKind : kind ∈ mode.kinds)
    {item : PoolItem} (hItem : item ∈ items) (register : Fin 31) :
    FragmentReady mode items
      { fragment with
        bytes := fragment.bytes ++ wordBytes (kind.emittedWord register)
        relocations := fragment.relocations ++
          [⟨fragment.bytes.length, ⟨item.entry, kind⟩⟩] } := by
  refine ⟨(h.instruction _).whole, ?_, ?_⟩
  · refine List.pairwise_append.mpr ⟨h.spaced, List.pairwise_singleton _ _, ?_⟩
    intro entry hEntry last hLast
    obtain rfl := List.mem_singleton.mp hLast
    exact (h.ready entry hEntry).inside
  · intro entry hEntry
    rcases List.mem_append.mp hEntry with hOld | hLast
    · exact (h.ready entry hOld).grows _ (List.Subset.refl _)
    · obtain rfl := List.mem_singleton.mp hLast
      exact ⟨h.whole, hKind, ⟨item, hItem, rfl⟩, register,
        loadWord_last _ _⟩

end Growing

/-! ## The emitter -/

section Emitters

open MachineCodeEmitter

variable {emitter emitter' : MachineCodeEmitter AArch64Relocation}
variable {mode : AArch64ValuePoolMode} {items items' : List PoolItem}

/-- All fragments can be relocated. -/
def Ready (mode : AArch64ValuePoolMode) (items : List PoolItem)
    (emitter : MachineCodeEmitter AArch64Relocation) : Prop :=
  ∀ fragment ∈ emitter.fragments, FragmentReady mode items fragment

theorem getElem?_fragments_current
    (emitter : MachineCodeEmitter AArch64Relocation) :
    emitter.fragments[emitter.finished.length]? = some emitter.current := by
  rw [fragments, List.getElem?_append_right (Nat.le_refl _), Nat.sub_self]
  rfl

/-- The current fragment goes on. -/
theorem EmitterGrows.current {current : Fragment AArch64Relocation}
    (h : Grows emitter.current current) :
    EmitterGrows emitter { emitter with current } := by
  intro i fragment hFragment
  rcases Nat.lt_or_ge i emitter.finished.length with hFinished | hPast
  · refine ⟨fragment, ?_, .refl fragment⟩
    rw [fragments, List.getElem?_append_left hFinished] at hFragment ⊢
    exact hFragment
  · have hLast := (List.getElem?_eq_some_iff.mp hFragment).1
    rw [length_fragments] at hLast
    obtain rfl : i = emitter.finished.length := by omega
    rw [getElem?_fragments_current, Option.some.injEq] at hFragment
    exact ⟨current, getElem?_fragments_current { emitter with current },
      hFragment ▸ h⟩

theorem EmitterGrows.startFragment
    (emitter : MachineCodeEmitter AArch64Relocation) :
    EmitterGrows emitter emitter.startFragment := by
  intro i fragment hFragment
  refine ⟨fragment, ?_, .refl fragment⟩
  rw [fragments_startFragment]
  exact (List.getElem?_append_left
    (List.getElem?_eq_some_iff.mp hFragment).1).trans hFragment

theorem Ready.withCurrent (h : Ready mode items emitter)
    {current : Fragment AArch64Relocation}
    (hCurrent : FragmentReady mode items current) :
    Ready mode items { emitter with current } := by
  intro fragment hFragment
  rcases List.mem_append.mp hFragment with hFinished | hLast
  · exact h fragment (List.mem_append_left _ hFinished)
  · obtain rfl := List.mem_singleton.mp hLast
    exact hCurrent

theorem Ready.current (h : Ready mode items emitter) :
    FragmentReady mode items emitter.current :=
  h _ (List.mem_append_right _ (List.mem_singleton_self _))

theorem Ready.startFragment (h : Ready mode items emitter) :
    Ready mode items emitter.startFragment := by
  intro fragment hFragment
  rw [fragments_startFragment] at hFragment
  rcases List.mem_append.mp hFragment with hOld | hNew
  · exact h fragment hOld
  · obtain rfl := List.mem_singleton.mp hNew
    exact fragmentReady_empty

/-- What the assembler asks of the emitter other than for a relocation. -/
inductive Plain : MachineCodeEmitter.Operation AArch64Relocation → Prop
  | makeLabel : Plain .makeLabel
  | resolve (label : Label) : Plain (.resolve label)
  | instruction (word : Word32) : Plain (.emitBytes (wordBytes word))
  | emitRelaxation (kind : AArch64RelaxationKind) :
      Plain (.emitRelaxation kind)

/-- The emitter goes on, and its fragments can still be relocated. -/
structure Continues (mode : AArch64ValuePoolMode) (items : List PoolItem)
    (emitter emitter' : MachineCodeEmitter AArch64Relocation) : Prop where
  built : emitter'.Built
  grows : EmitterGrows emitter emitter'
  ready : Ready mode items emitter'

theorem Plain.continues
    {operation : MachineCodeEmitter.Operation AArch64Relocation}
    (hPlain : Plain operation) (hBuilt : emitter.Built)
    (hReady : Ready mode items emitter)
    (hStep : emitter.perform operation = some emitter') :
    Continues mode items emitter emitter' := by
  suffices h : EmitterGrows emitter emitter' ∧ Ready mode items emitter' from
    ⟨hBuilt.perform hStep, h.left, h.right⟩
  cases hPlain with
  | makeLabel =>
      obtain ⟨⟨label, made⟩, hMake, rfl⟩ := Option.map_eq_some_iff.mp hStep
      unfold MachineCodeEmitter.makeLabel at hMake
      rw [check_bind_eq_some, check_bind_eq_some] at hMake
      obtain ⟨-, rfl⟩ := Prod.mk.inj (Option.some.inj hMake.2.2)
      exact ⟨.refl emitter, hReady⟩
  | resolve label =>
      have hResolve : emitter.resolve label = some emitter' := hStep
      unfold MachineCodeEmitter.resolve at hResolve
      rw [check_bind_eq_some, check_bind_eq_some, check_bind_eq_some]
        at hResolve
      obtain ⟨-, -, -, hBound⟩ := hResolve
      obtain rfl := Option.some.inj hBound
      by_cases hBytes : emitter.current.bytes ≠ []
      · simp only [if_pos hBytes]
        exact ⟨.startFragment emitter, hReady.startFragment⟩
      · simp only [if_neg hBytes]
        exact ⟨.refl emitter, hReady⟩
  | instruction word =>
      have hEmit : emitter.emitBytes (wordBytes word) = some emitter' := hStep
      unfold MachineCodeEmitter.emitBytes at hEmit
      rw [check_bind_eq_some, if_neg (by rw [length_wordBytes]; decide)]
        at hEmit
      obtain rfl := Option.some.inj hEmit.2
      exact ⟨.current ⟨⟨_, rfl⟩, List.Subset.refl _⟩,
        hReady.withCurrent (hReady.current.instruction word)⟩
  | emitRelaxation kind =>
      have hEmit : emitter.emitRelaxation ⟨kind, .unselected⟩ =
        some emitter' := hStep
      unfold MachineCodeEmitter.emitRelaxation at hEmit
      rw [check_bind_eq_some, check_bind_eq_some] at hEmit
      obtain rfl := Option.some.inj hEmit.2.2
      have hCurrent : FragmentReady mode items { emitter.current with
          relaxation := some ⟨kind, .unselected⟩ } :=
        ⟨hReady.current.whole, hReady.current.spaced, hReady.current.ready⟩
      refine ⟨EmitterGrows.trans (.current ?_) (.startFragment _),
        (hReady.withCurrent hCurrent).startFragment⟩
      exact ⟨⟨[], (List.append_nil _).symm⟩, List.Subset.refl _⟩

/-- An instruction with its relocation behind the others. -/
def appendRelocated (register : Fin 31) (item : PoolItem)
    (emitter : MachineCodeEmitter AArch64Relocation)
    (kind : AArch64RelocationKind) : MachineCodeEmitter AArch64Relocation :=
  { emitter with current := { emitter.current with
      bytes := emitter.current.bytes ++ wordBytes (kind.emittedWord register)
      relocations := emitter.current.relocations ++
        [⟨emitter.current.bytes.length, ⟨item.entry, kind⟩⟩] } }

theorem Continues.appendRelocated {kind : AArch64RelocationKind}
    (h : Continues mode items emitter emitter') (hKind : kind ∈ mode.kinds)
    {item : PoolItem} (hItem : item ∈ items) (register : Fin 31) :
    Continues mode items emitter
      (CloverVM.Jit.appendRelocated register item emitter' kind) := by
  have hReady := h.ready.current.relocated hKind hItem register
  refine ⟨h.built.withCurrent h.built.current_relaxation fun entry hEntry =>
      (hReady.ready entry hEntry).inside, h.grows.trans (.current ?_),
    h.ready.withCurrent hReady⟩
  exact ⟨⟨_, rfl⟩, List.subset_append_left _ _⟩

/-- The instructions of a reference, one after the other. -/
theorem appendAll_spec {kinds : List AArch64RelocationKind}
    (hKinds : kinds ⊆ mode.kinds) {item : PoolItem} (hItem : item ∈ items)
    (register : Fin 31) :
    ∀ {emitter' : MachineCodeEmitter AArch64Relocation},
      Continues mode items emitter emitter' →
      let last := kinds.foldl (CloverVM.Jit.appendRelocated register item)
        emitter'
      Continues mode items emitter last ∧
        last.finished = emitter'.finished ∧
        Grows emitter'.current last.current ∧
        ∀ (k : Nat) (kind : AArch64RelocationKind), kinds[k]? = some kind →
          ⟨emitter'.current.bytes.length + 4 * k, ⟨item.entry, kind⟩⟩ ∈
              last.current.relocations ∧
            loadWord last.current.bytes
                (emitter'.current.bytes.length + 4 * k) =
              some (kind.emittedWord register) := by
  induction kinds with
  | nil => exact fun h => ⟨h, rfl, .refl _, nofun⟩
  | cons kind kinds ih =>
      intro emitter' h
      obtain ⟨hKind, hRest⟩ := List.cons_subset.mp hKinds
      have hStep := h.appendRelocated hKind hItem register
      obtain ⟨hLast, hFinished, hGrows, hPieces⟩ := ih hRest hStep
      have hFirst : Grows emitter'.current (CloverVM.Jit.appendRelocated
          register item emitter' kind).current :=
        ⟨⟨_, rfl⟩, List.subset_append_left _ _⟩
      refine ⟨hLast, hFinished, hFirst.trans hGrows, fun k other hk => ?_⟩
      cases k with
      | zero =>
          obtain rfl := Option.some.inj hk
          obtain ⟨more, hBytes⟩ := hGrows.bytes
          rw [Nat.mul_zero, Nat.add_zero]
          refine ⟨hGrows.relocations (List.mem_append_right _
            (List.mem_singleton_self _)), ?_⟩
          rw [List.foldl_cons, hBytes]
          exact loadWord_append more (loadWord_last _ _)
      | succ k =>
          have hPiece := hPieces k other hk
          have hLength : (CloverVM.Jit.appendRelocated register item emitter'
              kind).current.bytes.length =
                emitter'.current.bytes.length + 4 := by
            rw [CloverVM.Jit.appendRelocated, List.length_append,
              length_wordBytes]
          rw [hLength] at hPiece
          rw [show emitter'.current.bytes.length + 4 * (k + 1) =
            emitter'.current.bytes.length + 4 + 4 * k by omega]
          exact hPiece

end Emitters

/-! ## The pool -/

/-- The pool has the bytes of an item at its entry. -/
inductive PooledEmitter.Has (pooled : PooledEmitter) : PoolItem → Prop
  | value {index : Nat} {value : BitVec 64} :
      pooled.values[index]? = some value →
      Has pooled ⟨⟨.taggedValues, index * 8⟩, longBytes value⟩
  | data {before bytes after : List Byte} :
      pooled.untaggedData = before ++ bytes ++ after → 8 ∣ before.length →
      bytes ≠ [] → Has pooled ⟨⟨.untaggedData, before.length⟩, bytes⟩

/-- The values are found by their raw words, and data comes behind data. -/
structure PoolSound (pooled : PooledEmitter) (items : List PoolItem) :
    Prop where
  indices : ∀ value index, pooled.valueIndicesByRawValue.lookup value =
    some index → pooled.values[index]? = some value
  missing : ∀ value, pooled.valueIndicesByRawValue.lookup value = none →
    value ∉ pooled.values
  nodup : pooled.values.Nodup
  has : ∀ item ∈ items, pooled.Has item
  ordered : items.Pairwise fun item later =>
    item.entry.area = .untaggedData → later.entry.area = .untaggedData →
      item.entry.byteOffset + item.bytes.length ≤ later.entry.byteOffset

section Pools

variable {pooled pooled' : PooledEmitter} {items : List PoolItem}
variable {entry : ConstantPoolEntry} {value : BitVec 64}

theorem poolSound_make {maximumPoolSpan : Nat}
    (h : PooledEmitter.make maximumPoolSpan = some pooled) :
    PoolSound pooled [] := by
  unfold PooledEmitter.make at h
  rw [check_bind_eq_some, check_bind_eq_some] at h
  obtain rfl := Option.some.inj h.2.2
  exact ⟨nofun, fun _ _ => List.not_mem_nil, .nil, nofun, .nil⟩

/-- An item of tagged values is not ordered against the others. -/
theorem PoolSound.push_value (h : PoolSound pooled items) {index : Nat}
    (hValue : pooled.values[index]? = some value) :
    PoolSound pooled
      (items ++ [⟨⟨.taggedValues, index * 8⟩, longBytes value⟩]) := by
  refine { h with has := fun item hItem => ?_, ordered := ?_ }
  · rcases List.mem_append.mp hItem with hOld | hNew
    · exact h.has item hOld
    · obtain rfl := List.mem_singleton.mp hNew
      exact .value hValue
  · refine List.pairwise_append.mpr
      ⟨h.ordered, List.pairwise_singleton _ _, ?_⟩
    intro item _ last hLast _ hArea
    obtain rfl := List.mem_singleton.mp hLast
    cases hArea

theorem PoolSound.addValue (h : PoolSound pooled items)
    (hAdd : pooled.addValueToConstantPool value = some (entry, pooled')) :
    PoolSound pooled' (items ++ [⟨entry, longBytes value⟩]) ∧
      pooled'.emitter = pooled.emitter ∧
      pooled'.maximumPoolSpan = pooled.maximumPoolSpan := by
  unfold PooledEmitter.addValueToConstantPool at hAdd
  rw [check_bind_eq_some] at hAdd
  obtain ⟨-, hAdd⟩ := hAdd
  cases hLookup : pooled.valueIndicesByRawValue.lookup value with
  | some index =>
      rw [hLookup] at hAdd
      obtain ⟨rfl, rfl⟩ := Prod.mk.inj (Option.some.inj hAdd)
      exact ⟨h.push_value (h.indices value index hLookup), rfl, rfl⟩
  | none =>
      rw [hLookup] at hAdd
      dsimp only at hAdd
      rw [check_bind_eq_some] at hAdd
      obtain ⟨rfl, rfl⟩ := Prod.mk.inj (Option.some.inj hAdd.2)
      have hNew := h.missing value hLookup
      refine ⟨PoolSound.push_value ⟨?_, ?_, ?_, ?_, h.ordered⟩
        List.getElem?_concat_length, rfl, rfl⟩
      · intro other index hOther
        rw [List.lookup_cons] at hOther
        split at hOther
        · rename_i hSame
          obtain rfl := eq_of_beq hSame
          obtain rfl := Option.some.inj hOther
          exact List.getElem?_concat_length
        · exact List.getElem?_append_left (List.getElem?_eq_some_iff.mp
            (h.indices other index hOther)).1 |>.trans
              (h.indices other index hOther)
      · intro other hOther hMem
        rw [List.lookup_cons] at hOther
        split at hOther
        · cases hOther
        · rename_i hSame
          rcases List.mem_append.mp hMem with hOld | hLast
          · exact h.missing other hOther hOld
          · rw [List.mem_singleton.mp hLast, beq_self_eq_true] at hSame
            cases hSame
      · refine List.nodup_append.mpr ⟨h.nodup, List.nodup_singleton _, ?_⟩
        rintro other hOther last hLast rfl
        exact hNew (List.mem_singleton.mp hLast ▸ hOther)
      · intro item hItem
        cases h.has item hItem with
        | value hValue =>
            exact .value ((List.getElem?_append_left
              (List.getElem?_eq_some_iff.mp hValue).1).trans hValue)
        | data hData hAligned hBytes => exact .data hData hAligned hBytes

theorem PoolSound.addHeapObject {object : BitVec 64}
    (h : PoolSound pooled items)
    (hAdd : pooled.addHeapObjectToConstantPool object =
      some (entry, pooled')) :
    PoolSound pooled' (items ++ [⟨entry, longBytes object⟩]) ∧
      pooled'.emitter = pooled.emitter ∧
      pooled'.maximumPoolSpan = pooled.maximumPoolSpan := by
  unfold PooledEmitter.addHeapObjectToConstantPool at hAdd
  rw [check_bind_eq_some, check_bind_eq_some] at hAdd
  exact h.addValue hAdd.2.2

theorem alignSize_eq_some {size offset : Nat}
    (h : alignSize size 8 = some offset) : 8 ∣ offset ∧ size ≤ offset := by
  unfold alignSize at h
  rw [check_bind_eq_some, check_bind_eq_some] at h
  obtain ⟨hBit, hRoom, hEq⟩ := h
  obtain rfl := Option.some.inj hEq
  exact ⟨dvd_roundUp hBit (by decide) hRoom, le_roundUp hBit (by decide) hRoom⟩

theorem PoolSound.addData {data : List Byte} (h : PoolSound pooled items)
    (hAdd : pooled.addDataToConstantPool data = some (entry, pooled')) :
    PoolSound pooled' (items ++ [⟨entry, data⟩]) ∧
      pooled'.emitter = pooled.emitter ∧
      pooled'.maximumPoolSpan = pooled.maximumPoolSpan := by
  unfold PooledEmitter.addDataToConstantPool at hAdd
  rw [check_bind_eq_some, check_bind_eq_some] at hAdd
  obtain ⟨-, hData, hAdd⟩ := hAdd
  obtain ⟨offset, hOffset, hAdd⟩ := exists_of_bind hAdd
  obtain ⟨rfl, rfl⟩ := Prod.mk.inj (Option.some.inj hAdd)
  obtain ⟨hAligned, hBehind⟩ := alignSize_eq_some hOffset
  have hLength : (pooled.untaggedData ++ List.replicate
      (offset - pooled.untaggedData.length) 0).length = offset := by
    rw [List.length_append, List.length_replicate]
    omega
  refine ⟨{ h with has := fun item hItem => ?_, ordered := ?_ }, rfl, rfl⟩
  · rcases List.mem_append.mp hItem with hOld | hNew
    · cases h.has item hOld with
      | value hValue => exact .value hValue
      | @data before bytes after hPlace hOldAligned hBytes =>
          refine @PooledEmitter.Has.data _ _ _ (after ++ (List.replicate
            (offset - pooled.untaggedData.length) 0 ++ data)) ?_ hOldAligned
            hBytes
          rw [hPlace]
          simp only [List.append_assoc]
    · obtain rfl := List.mem_singleton.mp hNew
      have hHas := @PooledEmitter.Has.data
        { pooled with
          untaggedData := pooled.untaggedData ++ List.replicate
            (offset - pooled.untaggedData.length) 0 ++ data }
        (pooled.untaggedData ++ List.replicate
          (offset - pooled.untaggedData.length) 0) data []
        (List.append_nil _).symm (hLength.symm ▸ hAligned) hData
      rwa [hLength] at hHas
  · refine List.pairwise_append.mpr
      ⟨h.ordered, List.pairwise_singleton _ _, ?_⟩
    intro item hItem last hLast hArea _
    obtain rfl := List.mem_singleton.mp hLast
    cases h.has item hItem with
    | value hValue => cases hArea
    | @data before bytes after hPlace _ _ =>
        have hLengths := congrArg List.length hPlace
        rw [List.length_append, List.length_append] at hLengths
        show before.length + bytes.length ≤ offset
        omega

end Pools

/-! ## The instructions of a reference -/

section Instructions

variable (destination : XRegister)

def XRegister.toFin : Fin 31 := ⟨destination.registerNumber, destination.lt⟩

theorem word_or_zero (word : Word32) : word ||| (0 : Word32) = word :=
  BitVec.or_zero

theorem emitLdrLiteralImmediate19_zero :
    emitLdrLiteralImmediate19 destination 0 = some
      (AArch64RelocationKind.pcRelative19Scaled4.emittedWord
        destination.toFin) := by
  refine (bind_of_eq_some (show signedImmediate 0 19 2 = some 0 by decide)
    _).trans ?_
  rw [show (0 : Word32) <<< 5 = 0 from rfl, word_or_zero]
  rfl

theorem emitAdrImmediate21_zero :
    emitAdrImmediate21 destination 0 = some
      (AArch64RelocationKind.pcRelative21.emittedWord destination.toFin) := by
  refine (bind_of_eq_some (show signedImmediate 0 21 0 = some 0 by decide)
    _).trans ?_
  dsimp only
  rw [show ((0 : Word32) &&& 3) <<< 29 = 0 from rfl,
    show ((0 : Word32) >>> 2) <<< 5 = 0 from rfl, word_or_zero,
    word_or_zero]
  rfl

theorem emitAdrpPageImmediate21_zero :
    emitAdrpPageImmediate21 destination 0 = some
      (AArch64RelocationKind.pageRelative21.emittedWord
        destination.toFin) := by
  refine (check_bind (by decide) _).trans ((bind_of_eq_some
    (show signedImmediate 0 21 12 = some 0 by decide) _).trans ?_)
  dsimp only
  rw [show ((0 : Word32) &&& 3) <<< 29 = 0 from rfl,
    show ((0 : Word32) >>> 2) <<< 5 = 0 from rfl, word_or_zero,
    word_or_zero]
  rfl

theorem emitLoadStoreUnsignedOffset_zero :
    emitLoadStoreUnsignedOffset .load destination destination 0 = some
      (AArch64RelocationKind.pageOffset12Scaled8.emittedWord
        destination.toFin) := by
  refine (check_bind (by decide) _).trans ((check_bind (by decide) _).trans ?_)
  rw [show BitVec.ofNat 32 (0 / 8) <<< 10 = 0 from rfl, word_or_zero,
    show (0x39000000 : Word32) ||| (3 : Word32) <<< 30 ||| LoadStoreOp.load.bits =
      0xf9400000 from rfl]
  rfl

theorem emitAddImm12_zero :
    emitAddImm12 destination destination 0 = some
      (AArch64RelocationKind.pageOffset12.emittedWord destination.toFin) := by
  refine (check_bind (by decide) _).trans ?_
  rw [show (BitVec.setWidth 32 (0 : BitVec 16)) <<< 10 = 0 from rfl,
    word_or_zero, show (0x11000000 : Word32) ||| (1 : Word32) <<< 31 =
      0x91000000 from rfl]
  rfl

variable {destination} {assembler assembler' : AArch64MacroAssembler}
variable {item : PoolItem} {register : Fin 31}

/-- The assembler with another emitter. -/
def AArch64MacroAssembler.withEmitter (assembler : AArch64MacroAssembler)
    (emitter : MachineCodeEmitter AArch64Relocation) :
    AArch64MacroAssembler :=
  { assembler with pooled := { assembler.pooled with emitter } }

theorem emitRelocated_eq {kind : AArch64RelocationKind}
    (h : assembler.emitRelocated (kind.emittedWord register)
      ⟨item.entry, kind⟩ = some assembler') :
    assembler' = assembler.withEmitter
      (appendRelocated register item assembler.pooled.emitter kind) := by
  obtain ⟨middle, hFirst, hSecond⟩ := exists_of_bind h
  obtain ⟨emitter, hEmit, hFirst⟩ := exists_of_bind hFirst
  obtain rfl := Option.some.inj hFirst
  obtain ⟨last, hAdd, hSecond⟩ := exists_of_bind hSecond
  obtain rfl := Option.some.inj hSecond
  have hBytes : assembler.pooled.emitter.emitBytes
    (wordBytes (kind.emittedWord register)) = some emitter := hEmit
  unfold MachineCodeEmitter.emitBytes at hBytes
  rw [check_bind_eq_some, if_neg (by rw [length_wordBytes]; decide)] at hBytes
  obtain rfl := Option.some.inj hBytes.2
  have hRelocation := hAdd
  unfold MachineCodeEmitter.perform
    MachineCodeEmitter.addRelocationToLastEmitted at hRelocation
  rw [check_bind_eq_some, check_bind_eq_some, check_bind_eq_some]
    at hRelocation
  obtain rfl := Option.some.inj hRelocation.2.2.2
  rw [List.length_append, length_wordBytes, Nat.add_sub_cancel]
  rfl

/-- A reference emits the words of its pieces. -/
theorem refer_eq {form : ReferenceForm}
    (h : assembler.refer destination item.entry form = some assembler') :
    assembler' = assembler.withEmitter
      ((assembler.poolMode.pieces form).foldl
        (appendRelocated destination.toFin item)
        assembler.pooled.emitter) := by
  unfold AArch64MacroAssembler.refer AArch64MacroAssembler.ldr
    AArch64MacroAssembler.adr at h
  cases hMode : assembler.poolMode with
  | nearLiteral =>
      cases form with
      | load =>
          rw [hMode] at h
          dsimp only at h
          rw [bind_of_eq_some (emitLdrLiteralImmediate19_zero destination)]
            at h
          exact emitRelocated_eq h
      | address =>
          rw [hMode] at h
          dsimp only at h
          rw [bind_of_eq_some (emitAdrImmediate21_zero destination)] at h
          exact emitRelocated_eq h
  | farPageRelative =>
      cases form with
      | load =>
          rw [hMode] at h
          dsimp only at h
          rw [bind_of_eq_some (emitAdrpPageImmediate21_zero destination)] at h
          obtain ⟨middle, hFirst, h⟩ := exists_of_bind h
          rw [bind_of_eq_some (emitLoadStoreUnsignedOffset_zero destination)]
            at h
          rw [emitRelocated_eq h, emitRelocated_eq hFirst]
          rfl
      | address =>
          rw [hMode] at h
          dsimp only at h
          rw [bind_of_eq_some (emitAdrpPageImmediate21_zero destination)] at h
          obtain ⟨middle, hFirst, h⟩ := exists_of_bind h
          rw [bind_of_eq_some (emitAddImm12_zero destination)] at h
          rw [emitRelocated_eq h, emitRelocated_eq hFirst]
          rfl

end Instructions

/-! ## The invariant -/

structure Assembly.Sound (mode : AArch64ValuePoolMode) (assembly : Assembly) :
    Prop where
  mode_eq : assembly.assembler.poolMode = mode
  span_eq : assembly.pooled.maximumPoolSpan = mode.maximumPoolSpan
  built : assembly.emitter.Built
  ready : Ready mode assembly.items assembly.emitter
  references : ∀ reference ∈ assembly.references,
    reference.item ∈ assembly.items ∧ reference.Loadable ∧
      ∃ fragment, assembly.emitter.fragments[reference.fragment]? =
          some fragment ∧ reference.Emitted mode fragment
  pool : PoolSound assembly.pooled assembly.items

namespace Assembly

variable {mode : AArch64ValuePoolMode} {assembly assembly' : Assembly}

theorem Sound.continues (h : Sound mode assembly)
    {emitter : MachineCodeEmitter AArch64Relocation}
    (hContinues : Continues mode assembly.items assembly.emitter emitter) :
    Sound mode { assembly with
      assembler := assembly.assembler.withEmitter emitter } where
  mode_eq := h.mode_eq
  span_eq := h.span_eq
  built := hContinues.built
  ready := hContinues.ready
  references := by
    intro reference hMem
    obtain ⟨hItem, hLoadable, fragment, hFragment, hEmitted⟩ :=
      h.references reference hMem
    obtain ⟨fragment', hFragment', hGrows⟩ :=
      hContinues.grows _ fragment hFragment
    exact ⟨hItem, hLoadable, fragment', hFragment', hEmitted.grows hGrows⟩
  pool := { h.pool with
    has := fun item hItem => by
      cases h.pool.has item hItem with
      | value hValue => exact .value hValue
      | data hData hAligned hBytes => exact .data hData hAligned hBytes }

theorem Sound.emit (h : Sound mode assembly)
    {operation : MachineCodeEmitter.Operation AArch64Relocation}
    (hPlain : Plain operation)
    (hEmit : assembly.emit operation = some assembly') :
    Sound mode assembly' := by
  obtain ⟨assembler, hAssembler, hEmit⟩ := exists_of_bind hEmit
  obtain rfl := Option.some.inj hEmit
  obtain ⟨emitter, hStep, hAssembler⟩ := exists_of_bind hAssembler
  obtain rfl := Option.some.inj hAssembler
  exact h.continues (hPlain.continues h.built h.ready hStep)

/-- An entry that is added, by whatever function adds it. -/
theorem Sound.add (h : Sound mode assembly) {bytes : List Byte}
    {added : Option (ConstantPoolEntry × PooledEmitter)}
    (hAdded : ∀ entry pooled, added = some (entry, pooled) →
      PoolSound pooled (assembly.items ++ [⟨entry, bytes⟩]) ∧
        pooled.emitter = assembly.emitter ∧
        pooled.maximumPoolSpan = assembly.pooled.maximumPoolSpan)
    {item : PoolItem} (hAdd : assembly.add bytes added =
      some (item, assembly')) :
    Sound mode assembly' ∧ item ∈ assembly'.items ∧ item.bytes = bytes := by
  cases added with
  | none => cases hAdd
  | some added =>
      obtain ⟨entry, pooled⟩ := added
      obtain ⟨hPool, hEmitter, hSpan⟩ := hAdded entry pooled rfl
      obtain ⟨rfl, rfl⟩ := Prod.mk.inj (Option.some.inj hAdd)
      have hOld : assembly.items ⊆ assembly.items ++ [⟨entry, bytes⟩] :=
        List.subset_append_left _ _
      refine ⟨⟨h.mode_eq, hSpan.trans h.span_eq, ?_, ?_, ?_, hPool⟩,
        List.mem_append_right _ (List.mem_singleton_self _), rfl⟩
      · show pooled.emitter.Built
        rw [hEmitter]
        exact h.built
      · show Ready mode _ pooled.emitter
        rw [hEmitter]
        exact fun fragment hFragment => (h.ready fragment hFragment).mono hOld
      · intro reference hMem
        obtain ⟨hItem, hLoadable, hFragment⟩ := h.references reference hMem
        refine ⟨hOld hItem, hLoadable, ?_⟩
        show ∃ fragment, pooled.emitter.fragments[_]? = some fragment ∧ _
        rw [hEmitter]
        exact hFragment

theorem pieces_subset (mode : AArch64ValuePoolMode) (form : ReferenceForm) :
    mode.pieces form ⊆ mode.kinds := by
  cases mode <;> cases form <;> decide

theorem Sound.refer (h : Sound mode assembly) {form : ReferenceForm}
    {destination : XRegister} {item : PoolItem} (hItem : item ∈ assembly.items)
    (hLoadable : form = .load → ∃ value, item.bytes = longBytes value)
    (hRefer : assembly.refer form destination item = some assembly') :
    Sound mode assembly' := by
  obtain ⟨assembler, hAssembler, hRefer⟩ := exists_of_bind hRefer
  obtain rfl := Option.some.inj hRefer
  obtain rfl := refer_eq hAssembler
  have hStart : Continues mode assembly.items assembly.emitter
      assembly.emitter := ⟨h.built, .refl _, h.ready⟩
  obtain ⟨hContinues, hFinished, -, hPieces⟩ := appendAll_spec
    (pieces_subset mode form) hItem destination.toFin hStart
  rw [h.mode_eq]
  have hSound := h.continues hContinues
  refine { hSound with references := fun reference hMem => ?_ }
  rcases List.mem_append.mp hMem with hOld | hNew
  · exact hSound.references reference hOld
  · obtain rfl := List.mem_singleton.mp hNew
    refine ⟨hItem, hLoadable, _, ?_, hPieces⟩
    have hCurrent := getElem?_fragments_current ((mode.pieces form).foldl
      (appendRelocated destination.toFin item) assembly.emitter)
    rw [hFinished] at hCurrent
    exact hCurrent

theorem Sound.addValue (h : Sound mode assembly) {value : BitVec 64}
    {item : PoolItem}
    (hAdd : assembly.addValue value = some (item, assembly')) :
    Sound mode assembly' ∧ item ∈ assembly'.items ∧
      item.bytes = longBytes value :=
  h.add (fun _ _ hAdded => h.pool.addValue hAdded) hAdd

theorem Sound.addHeapObject (h : Sound mode assembly) {object : BitVec 64}
    {item : PoolItem}
    (hAdd : assembly.addHeapObject object = some (item, assembly')) :
    Sound mode assembly' ∧ item ∈ assembly'.items ∧
      item.bytes = longBytes object :=
  h.add (fun _ _ hAdded => h.pool.addHeapObject hAdded) hAdd

theorem Sound.addData (h : Sound mode assembly) {data : List Byte}
    {item : PoolItem}
    (hAdd : assembly.addData data = some (item, assembly')) :
    Sound mode assembly' ∧ item ∈ assembly'.items ∧
      item.bytes = data :=
  h.add (fun _ _ hAdded => h.pool.addData hAdded) hAdd

/-- One operation keeps the invariant. -/
theorem Sound.perform (h : Sound mode assembly)
    {operation : MacroOperation}
    (hStep : assembly.perform operation = some assembly') :
    Sound mode assembly' := by
  cases operation with
  | makeLabel => exact h.emit .makeLabel hStep
  | resolve label => exact h.emit (.resolve label) hStep
  | instruction word => exact h.emit (.instruction word) hStep
  | emitRelaxation kind => exact h.emit (.emitRelaxation kind) hStep
  | addValue value =>
      obtain ⟨⟨item, last⟩, hAdd, rfl⟩ := Option.map_eq_some_iff.mp hStep
      exact (h.addValue hAdd).left
  | addHeapObject object =>
      obtain ⟨⟨item, last⟩, hAdd, rfl⟩ := Option.map_eq_some_iff.mp hStep
      exact (h.addHeapObject hAdd).left
  | addData data =>
      obtain ⟨⟨item, last⟩, hAdd, rfl⟩ := Option.map_eq_some_iff.mp hStep
      exact (h.addData hAdd).left
  | ldrValue destination value =>
      obtain ⟨⟨item, middle⟩, hAdd, hRefer⟩ := exists_of_bind hStep
      obtain ⟨hSound, hItem, hBytes⟩ := h.addValue hAdd
      exact hSound.refer hItem (fun _ => ⟨value, hBytes⟩) hRefer
  | ldrHeapObject destination object =>
      obtain ⟨⟨item, middle⟩, hAdd, hRefer⟩ := exists_of_bind hStep
      obtain ⟨hSound, hItem, hBytes⟩ := h.addHeapObject hAdd
      exact hSound.refer hItem (fun _ => ⟨object, hBytes⟩) hRefer
  | adr destination index =>
      obtain ⟨item, hItem, hRefer⟩ := exists_of_bind hStep
      have hLoadable : ReferenceForm.address = .load →
        ∃ value, item.bytes = longBytes value := nofun
      exact h.refer (List.mem_of_getElem? hItem) hLoadable hRefer

theorem Sound.performAll {operations : List MacroOperation}
    (h : Sound mode assembly)
    (hRun : Assembly.performAll operations assembly = some assembly') :
    Sound mode assembly' := by
  induction operations generalizing assembly with
  | nil =>
      obtain rfl := Option.some.inj hRun
      exact h
  | cons operation operations ih =>
      obtain ⟨next, hStep, hRest⟩ := Option.bind_eq_some_iff.mp hRun
      exact ih (h.perform hStep) hRest

/-- Whatever is assembled is sound. -/
theorem Sound.assemble {operations : List MacroOperation}
    (hAssemble : CloverVM.Jit.assemble mode operations = some assembly) :
    Sound mode assembly := by
  obtain ⟨assembler, hMake, hRun⟩ := exists_of_bind hAssemble
  obtain ⟨pooled, hPooled, hMake⟩ := exists_of_bind hMake
  obtain rfl := Option.some.inj hMake
  refine Sound.performAll ?_ hRun
  have hPool := poolSound_make hPooled
  unfold PooledEmitter.make at hPooled
  rw [check_bind_eq_some, check_bind_eq_some] at hPooled
  obtain rfl := Option.some.inj hPooled.2.2
  refine ⟨rfl, rfl, MachineCodeEmitter.built_make _, ?_, nofun, hPool⟩
  intro fragment hFragment
  obtain rfl := List.mem_singleton.mp hFragment
  exact fragmentReady_empty

end Assembly

end CloverVM.Jit
