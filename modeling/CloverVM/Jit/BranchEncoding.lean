import CloverVM.Jit.BranchLayout

/-!
# The encoded unit

The bytes of the fragments and of their branches are written one behind the
other, each as long as the layout has room for, and what is written before
stays as it is.  A machine that runs into one of the branches goes to the
final address of its target.
-/

namespace CloverVM.Jit

open CloverVM.Machine CloverVM.Machine.BranchCode CloverVM.Machine.Layout

section Writing

variable {before bytes rest new : List Byte} {offset : Nat}

theorem store_append (h : new.length ≤ rest.length) :
    MachineCodeEmitter.store (before ++ rest) before.length new =
      some (before ++ new ++ rest.drop new.length) := by
  have hRoom : before.length + new.length ≤ (before ++ rest).length := by
    rw [List.length_append]
    omega
  rw [MachineCodeEmitter.store, check_bind hRoom, ← writeAt_append]
  rfl

/-- A word inside a part is written in the part. -/
theorem store_inside (h : offset + new.length ≤ bytes.length) :
    MachineCodeEmitter.store (before ++ bytes ++ rest)
        (before.length + offset) new =
      (MachineCodeEmitter.store bytes offset new).map
        (fun bytes => before ++ bytes ++ rest) := by
  have hRoom : before.length + offset + new.length ≤
      (before ++ bytes ++ rest).length := by
    rw [List.length_append, List.length_append]
    omega
  rw [MachineCodeEmitter.store, MachineCodeEmitter.store, check_bind hRoom,
    check_bind h]
  show some (writeAt _ _ _) = some _
  rw [writeAt, writeAt, List.append_assoc before bytes rest,
    List.take_append, List.take_of_length_le (Nat.le_add_right _ _),
    Nat.add_sub_cancel_left, List.take_append_of_le_length (by omega),
    Nat.add_assoc, List.drop_append, List.drop_of_length_le
      (Nat.le_add_right _ _), Nat.add_sub_cancel_left,
    List.drop_append_of_le_length h]
  simp only [List.append_assoc, List.nil_append]

theorem getElem?_inside (h : offset < bytes.length) :
    (before ++ bytes ++ rest)[before.length + offset]? = bytes[offset]? := by
  rw [List.append_assoc, List.getElem?_append_right (Nat.le_add_right _ _),
    Nat.add_sub_cancel_left, List.getElem?_append_left h]

theorem loadWord_inside (h : offset + 4 ≤ bytes.length) :
    MachineCodeEmitter.loadWord (before ++ bytes ++ rest)
        (before.length + offset) =
      MachineCodeEmitter.loadWord bytes offset := by
  have hByte : ∀ k < 4,
      (before ++ bytes ++ rest)[before.length + offset + k]? =
        bytes[offset + k]? := by
    intro k hk
    rw [Nat.add_assoc]
    exact getElem?_inside (by omega)
  have hFirst := hByte 0 (by decide)
  rw [Nat.add_zero, Nat.add_zero] at hFirst
  unfold MachineCodeEmitter.loadWord
  rw [hByte 3 (by decide), hByte 2 (by decide), hByte 1 (by decide), hFirst]

theorem length_store {stored : List Byte}
    (h : MachineCodeEmitter.store bytes offset new = some stored) :
    stored.length = bytes.length := by
  unfold MachineCodeEmitter.store at h
  rw [check_bind_eq_some] at h
  obtain ⟨hRoom, hStored⟩ := h
  obtain rfl := Option.some.inj hStored
  rw [writeAt, List.length_append, List.length_append, List.length_take,
    List.length_drop]
  omega

end Writing

/-! ## Relocations -/

section Relocations

variable {ρ : Type}

/-- One relocation, in the bytes of a fragment that begins at an offset of the
unit. -/
def relocateEntry (applyTo : ρ → Word32 → MachineAddress → Option Word32)
    (codeAddress : MachineAddress) (start : Nat) (bytes : List Byte)
    (entry : RelocationEntry ρ) : Option (List Byte) := do
  let instructionPc ← codeAddress.offsetBy (start + entry.offset)
  let instruction ← applyTo entry.relocation
    (← MachineCodeEmitter.loadWord bytes entry.offset) instructionPc
  MachineCodeEmitter.store bytes entry.offset (wordBytes instruction)

/-- The bytes of a fragment with all their relocations. -/
def Fragment.relocated (applyTo : ρ → Word32 → MachineAddress → Option Word32)
    (codeAddress : MachineAddress) (start : Nat) (fragment : Fragment ρ) :
    Option (List Byte) :=
  fragment.relocations.foldlM (relocateEntry applyTo codeAddress start)
    fragment.bytes

variable {applyTo : ρ → Word32 → MachineAddress → Option Word32}
variable {codeAddress : MachineAddress} {fragment : Fragment ρ}
variable {before rest : List Byte}

theorem length_relocateEntry {start : Nat} {bytes stored : List Byte}
    {entry : RelocationEntry ρ}
    (h : relocateEntry applyTo codeAddress start bytes entry = some stored) :
    stored.length = bytes.length := by
  obtain ⟨pc, -, h⟩ := exists_of_bind h
  obtain ⟨word, -, h⟩ := exists_of_bind h
  obtain ⟨instruction, -, hStore⟩ := exists_of_bind h
  exact length_store hStore

theorem length_foldlM_relocateEntry {start : Nat}
    {entries : List (RelocationEntry ρ)} {bytes relocated : List Byte}
    (h : entries.foldlM (relocateEntry applyTo codeAddress start) bytes =
      some relocated) : relocated.length = bytes.length := by
  induction entries generalizing bytes with
  | nil =>
      obtain rfl := Option.some.inj h
      rfl
  | cons entry entries ih =>
      rw [List.foldlM_cons] at h
      obtain ⟨stored, hStep, hRest⟩ := exists_of_bind h
      exact (ih hRest).trans (length_relocateEntry hStep)

/-- A relocation changes the bytes of its fragment only. -/
theorem applyRelocation_eq (rest : List Byte)
    (hStart : before.length = fragment.finalStart)
    (hSpace : fragment.finalStart + fragment.bytes.length < 2 ^ 64)
    {entry : RelocationEntry ρ}
    (hInside : entry.offset + 4 ≤ fragment.bytes.length)
    {bytes stored : List Byte} (hLength : bytes.length = fragment.bytes.length)
    (hStep : relocateEntry applyTo codeAddress fragment.finalStart bytes entry =
      some stored) :
    MachineCodeEmitter.applyRelocation applyTo codeAddress fragment
        (before ++ bytes ++ rest) entry = some (before ++ stored ++ rest) := by
  obtain ⟨pc, hPc, hStep⟩ := exists_of_bind hStep
  obtain ⟨word, hWord, hStep⟩ := exists_of_bind hStep
  obtain ⟨instruction, hInstruction, hStore⟩ := exists_of_bind hStep
  have hLoad : MachineCodeEmitter.loadWord (before ++ bytes ++ rest)
      (fragment.finalStart + entry.offset) = some word := by
    rw [← hStart, loadWord_inside (by omega), hWord]
  have hWrite : MachineCodeEmitter.store (before ++ bytes ++ rest)
      (fragment.finalStart + entry.offset) (wordBytes instruction) =
        some (before ++ stored ++ rest) := by
    rw [← hStart, store_inside (by rw [length_wordBytes]; omega), hStore]
    rfl
  unfold MachineCodeEmitter.applyRelocation
  rw [check_bind (by omega), bind_of_eq_some (addSizes_eq (by omega)),
    bind_of_eq_some hPc, bind_of_eq_some hLoad,
    bind_of_eq_some hInstruction, hWrite]

theorem foldlM_applyRelocation (rest : List Byte)
    (hStart : before.length = fragment.finalStart)
    (hSpace : fragment.finalStart + fragment.bytes.length < 2 ^ 64)
    {entries : List (RelocationEntry ρ)} {bytes relocated : List Byte}
    (hInside : ∀ entry ∈ entries, entry.offset + 4 ≤ fragment.bytes.length)
    (hLength : bytes.length = fragment.bytes.length)
    (h : entries.foldlM (relocateEntry applyTo codeAddress
      fragment.finalStart) bytes = some relocated) :
    entries.foldlM
        (MachineCodeEmitter.applyRelocation applyTo codeAddress fragment)
        (before ++ bytes ++ rest) = some (before ++ relocated ++ rest) := by
  induction entries generalizing bytes with
  | nil =>
      obtain rfl := Option.some.inj h
      rfl
  | cons entry entries ih =>
      rw [List.foldlM_cons] at h ⊢
      obtain ⟨stored, hStep, hRest⟩ := exists_of_bind h
      have hFirst := applyRelocation_eq rest hStart hSpace
        (hInside entry (List.mem_cons_self ..)) hLength hStep
      exact (bind_of_eq_some hFirst _).trans (ih
        (fun other hOther => hInside other (List.mem_cons_of_mem _ hOther))
        ((length_relocateEntry hStep).trans hLength) hRest)

end Relocations

/-! ## One fragment -/

section Fragments

variable {ρ : Type} {applyTo : ρ → Word32 → MachineAddress → Option Word32}
variable {codeAddress : MachineAddress} {labelBindings : List (Option Nat)}
variable {placed : List (Fragment ρ)} {fragment : Fragment ρ}
variable {before rest bytes : List Byte}

/-- The bytes of the branch of a placed fragment. -/
def Fragment.encodedBranch (placed : List (Fragment ρ))
    (labelBindings : List (Option Nat)) (codeAddress : MachineAddress)
    (fragment : Fragment ρ) : Option (List Byte) :=
  match fragment.relaxation with
  | none => some []
  | some relaxation => do
      let target ← MachineCodeEmitter.finalTargetAddress placed labelBindings
        codeAddress relaxation.target
      let words ← relaxation.encode
        (codeAt codeAddress (fragment.finalStart + fragment.bytes.length))
        target
      return codeBytes words

/-- What the layout promises of a fragment that is encoded. -/
structure Encodable (applyTo : ρ → Word32 → MachineAddress → Option Word32)
    (placed : List (Fragment ρ)) (labelBindings : List (Option Nat))
    (codeAddress : MachineAddress) (fragment : Fragment ρ)
    (bytes branch : List Byte) : Prop where
  inside : ∀ entry ∈ fragment.relocations,
    entry.offset + 4 ≤ fragment.bytes.length
  relocated : fragment.relocated applyTo codeAddress fragment.finalStart =
    some bytes
  encoded : fragment.encodedBranch placed labelBindings codeAddress =
    some branch
  branch_length : fragment.bytes.length + branch.length = fragment.finalSize
  space : codeAddress.bits.toNat + fragment.finalStart + fragment.finalSize <
    2 ^ 64

theorem Encodable.length_bytes {branch : List Byte}
    (h : Encodable applyTo placed labelBindings codeAddress fragment bytes
      branch) : bytes.length = fragment.bytes.length :=
  length_foldlM_relocateEntry h.relocated

/-- A fragment and its branch are written behind what is written already. -/
theorem encodeFragment_spec {branch : List Byte}
    (h : Encodable applyTo placed labelBindings codeAddress fragment bytes
      branch) (hStart : before.length = fragment.finalStart)
    (hRoom : fragment.finalSize ≤ rest.length) :
    MachineCodeEmitter.encodeFragment applyTo codeAddress placed labelBindings
        (before ++ rest) fragment =
      some (before ++ (bytes ++ branch) ++
        rest.drop (bytes ++ branch).length) := by
  have hLength := h.branch_length
  have hSpace := h.space
  have hKept := h.length_bytes
  have hCopy : MachineCodeEmitter.store (before ++ rest) fragment.finalStart
      fragment.bytes = some (before ++ fragment.bytes ++
        rest.drop fragment.bytes.length) := by
    rw [← hStart]
    exact store_append (by omega)
  have hRelocated := foldlM_applyRelocation (rest.drop fragment.bytes.length)
    hStart (by omega) h.inside rfl h.relocated
  unfold MachineCodeEmitter.encodeFragment
  rw [bind_of_eq_some hCopy, bind_of_eq_some hRelocated]
  have hBranch := h.encoded
  unfold Fragment.encodedBranch at hBranch
  cases hRelaxation : fragment.relaxation with
  | none =>
      rw [hRelaxation] at hBranch
      obtain rfl := Option.some.inj hBranch
      rw [List.append_nil, hKept]
      rfl
  | some relaxation =>
      rw [hRelaxation] at hBranch
      obtain ⟨target, hTarget, hBranch⟩ := exists_of_bind hBranch
      obtain ⟨words, hWords, hBranch⟩ := exists_of_bind hBranch
      obtain rfl := Option.some.inj hBranch
      have hEnd : (before ++ bytes).length =
          fragment.finalStart + fragment.bytes.length := by
        rw [List.length_append, hKept, hStart]
      have hSource : codeAddress.offsetBy
          (fragment.finalStart + fragment.bytes.length) =
          some (codeAt codeAddress
            (fragment.finalStart + fragment.bytes.length)) :=
        offsetBy_codeAt (by omega)
      refine (bind_of_eq_some (addSizes_eq (by omega)) _).trans ?_
      refine (bind_of_eq_some hTarget _).trans ?_
      refine (bind_of_eq_some hSource _).trans ?_
      refine (bind_of_eq_some hWords _).trans ?_
      rw [← hEnd, store_append (by rw [List.length_drop]; omega),
        List.drop_drop, List.length_append, hKept, List.append_assoc before]

/-- What is written for a fragment, with the places of its bytes and of its
branch. -/
def Fragment.pieces (applyTo : ρ → Word32 → MachineAddress → Option Word32)
    (placed : List (Fragment ρ)) (labelBindings : List (Option Nat))
    (codeAddress : MachineAddress) (fragment : Fragment ρ) :
    List (Nat × List Byte) :=
  [(fragment.finalStart,
      (fragment.relocated applyTo codeAddress fragment.finalStart).getD []),
    (fragment.finalStart + fragment.bytes.length,
      (fragment.encodedBranch placed labelBindings codeAddress).getD [])]

/-- The fragments and their branches tile what is written. -/
theorem encodeFragments_tiles {fragments : List (Fragment ρ)}
    (hAll : ∀ fragment ∈ fragments, ∃ bytes branch,
      Encodable applyTo placed labelBindings codeAddress fragment bytes
        branch) :
    ∀ {before rest : List Byte},
      (∀ i (fragment : Fragment ρ), fragments[i]? = some fragment →
        fragment.finalStart =
          before.length + place (fragments.map Fragment.finalSize) i) →
      (fragments.map Fragment.finalSize).sum ≤ rest.length →
      ∃ code, fragments.foldlM (MachineCodeEmitter.encodeFragment applyTo
            codeAddress placed labelBindings) (before ++ rest) =
          some (before ++ code ++ rest.drop code.length) ∧
        code.length = (fragments.map Fragment.finalSize).sum ∧
        Tiles before.length (fragments.flatMap
          (Fragment.pieces applyTo placed labelBindings codeAddress)) code := by
  induction fragments with
  | nil =>
      intro before rest _ _
      refine ⟨[], ?_, rfl, .nil _⟩
      rw [List.append_nil]
      rfl
  | cons fragment fragments ih =>
      intro before rest hStarts hRoom
      rw [List.map_cons, List.sum_cons] at hRoom
      obtain ⟨bytes, branch, hEncodable⟩ :=
        hAll fragment (List.mem_cons_self ..)
      have hStart : before.length = fragment.finalStart :=
        (hStarts 0 fragment rfl).symm
      have hSize : (bytes ++ branch).length = fragment.finalSize := by
        rw [List.length_append, hEncodable.length_bytes,
          hEncodable.branch_length]
      have hFirst := encodeFragment_spec hEncodable hStart
        (show fragment.finalSize ≤ rest.length by omega)
      obtain ⟨code, hCode, hLength, hTiles⟩ :=
        @ih (fun other hOther => hAll other (List.mem_cons_of_mem _ hOther))
          (before ++ (bytes ++ branch)) (rest.drop (bytes ++ branch).length)
          (by
            intro i other hOther
            rw [hStarts (i + 1) other hOther, List.map_cons, place_cons_succ,
              List.length_append, hSize, Nat.add_assoc])
          (by
            rw [List.length_drop, hSize]
            omega)
      refine ⟨bytes ++ (branch ++ code), ?_, ?_, ?_⟩
      · rw [List.foldlM_cons]
        refine (bind_of_eq_some hFirst _).trans (hCode.trans ?_)
        rw [List.drop_drop, ← List.length_append]
        simp only [List.append_assoc]
      · rw [List.map_cons, List.sum_cons, ← hLength, ← hSize]
        simp only [List.length_append, Nat.add_assoc]
      · rw [List.flatMap_cons, Fragment.pieces, hEncodable.relocated,
          hEncodable.encoded, ← hStart, ← hEncodable.length_bytes]
        refine .cons (.cons ?_)
        rw [List.length_append, List.length_append] at hTiles
        rw [Nat.add_assoc]
        exact hTiles

end Fragments

/-! ## Finishing a unit -/

section Units

variable {ρ : Type} {applyTo : ρ → Word32 → MachineAddress → Option Word32}
variable {emitter : MachineCodeEmitter ρ} {codeAddress : MachineAddress}
variable {placed : List (Fragment ρ)} {code : List Byte}

def MachineCodeEmitter.pessimisticSize (emitter : MachineCodeEmitter ρ) : Nat :=
  (emitter.fragments.map Fragment.pessimisticSize).sum

/-- What is asserted of a unit that is finished at an address: its labels are
resolved, it is not too large, no displacement to an address outside it
overflows, and its relocations are in range wherever among the instructions
their fragment is. -/
structure Finishable (applyTo : ρ → Word32 → MachineAddress → Option Word32)
    (emitter : MachineCodeEmitter ρ) (codeAddress : MachineAddress) :
    Prop where
  resolved : ∀ binding ∈ emitter.labelBindings, binding.isSome
  made : ∀ fragment ∈ emitter.fragments, ∀ relaxation label,
    fragment.relaxation = some relaxation →
      relaxation.target = .label label →
        label.index < emitter.labelBindings.length
  whole : ∀ fragment ∈ emitter.fragments, 4 ∣ fragment.bytes.length
  nonempty : emitter.pessimisticSize ≠ 0
  unit : emitter.pessimisticSize ≤ AArch64Relaxation.maximumUnitSize
  space : codeAddress.bits.toNat + emitter.pessimisticSize < 2 ^ 64
  address : ∀ fragment ∈ emitter.fragments, ∀ relaxation address,
    fragment.relaxation = some relaxation →
      relaxation.target = .machineAddress address → ∀ offset : Nat,
        offset ≤ emitter.pessimisticSize →
          -2 ^ 63 < (address.bits.toNat : Int) -
              (codeAddress.bits.toNat + offset : Nat) ∧
            (address.bits.toNat : Int) -
              (codeAddress.bits.toNat + offset : Nat) < 2 ^ 63
  relocates : ∀ fragment ∈ emitter.fragments, ∀ start, 4 ∣ start →
    start + fragment.bytes.length ≤ emitter.pessimisticSize →
      ∃ bytes, fragment.relocated applyTo codeAddress start = some bytes

/-- The branch of a fragment has its form encoded at its place, in the bytes
that are reserved for it, and a machine that runs into it goes to the final
address of its target; what follows it is the next fragment. -/
def BranchTransfers (emitter : MachineCodeEmitter ρ)
    (codeAddress : MachineAddress) (placed : List (Fragment ρ))
    (code : List Byte) (final : Fragment ρ) (relaxation : AArch64Relaxation) :
    Prop :=
  let source := codeAt codeAddress (final.finalStart + final.bytes.length)
  ∃ target words,
    MachineCodeEmitter.finalTargetAddress placed emitter.labelBindings
      codeAddress relaxation.target = some target ∧
    relaxation.Reaches source target ∧
    relaxation.encode source target = some words ∧
    (codeBytes words).length = relaxation.selectedSize ∧
    ∀ memory, Holds memory codeAddress.bits code →
      ∀ s : State, s.pc = source.bits → ∃ n s', run memory n s = some s' ∧
        relaxation.kind.Executes target.bits
          (codeAt codeAddress (final.finalStart + final.finalSize)).bits s s'

/-- The layout, the encoding and the execution of a unit agree. -/
structure Consistent (applyTo : ρ → Word32 → MachineAddress → Option Word32)
    (emitter : MachineCodeEmitter ρ) (codeAddress : MachineAddress)
    (placed : List (Fragment ρ)) (code : List Byte) : Prop where
  kept : List.Forall₂ (fun fragment final : Fragment ρ =>
    final.bytes = fragment.bytes ∧
      final.relocations = fragment.relocations ∧
      final.relaxation.map AArch64Relaxation.kind =
        fragment.relaxation.map AArch64Relaxation.kind)
    emitter.fragments placed
  size : code.length ≤ emitter.pessimisticSize
  tiles : Tiles 0 (placed.flatMap (Fragment.pieces applyTo placed
    emitter.labelBindings codeAddress)) code
  branch : ∀ final ∈ placed, ∀ relaxation,
    final.relaxation = some relaxation →
      BranchTransfers emitter codeAddress placed code final relaxation

/-- The fragments in the first layout. -/
theorem calculatePessimisticLayout_spec
    (h : Finishable applyTo emitter codeAddress) :
    ∃ fragments, emitter.calculatePessimisticLayout =
        some (fragments, emitter.pessimisticSize) ∧
      fragments.length = emitter.fragments.length ∧
      ∀ i (fragment : Fragment ρ), emitter.fragments[i]? = some fragment →
        fragments[i]? = some { fragment with
          pessimisticStart :=
            place (emitter.fragments.map Fragment.pessimisticSize) i } := by
  have hSpace := h.space
  rw [MachineCodeEmitter.pessimisticSize] at hSpace
  obtain ⟨fragments, hLoop, hLength, hAt⟩ := pessimisticLoop_spec
    (show 0 + (emitter.fragments.map Fragment.pessimisticSize).sum < 2 ^ 64
      by omega)
  rw [Nat.zero_add] at hLoop
  refine ⟨fragments, (check_bind h.resolved _).trans hLoop, hLength, ?_⟩
  intro i fragment hFragment
  rw [hAt i fragment hFragment, Nat.zero_add]

/-- The first layout changes where fragments begin, and nothing else. -/
structure FirstLayout (emitter : MachineCodeEmitter ρ)
    (fragments : List (Fragment ρ)) : Prop where
  before : ∀ (i : Nat) (fragment : Fragment ρ), fragments[i]? = some fragment →
    ∃ start, emitter.fragments[i]? = some { fragment with
      pessimisticStart := start }
  sizes : fragments.map Fragment.pessimisticSize =
    emitter.fragments.map Fragment.pessimisticSize
  start : ∀ (i : Nat) (fragment : Fragment ρ), fragments[i]? = some fragment →
    fragment.pessimisticStart =
      place (fragments.map Fragment.pessimisticSize) i

theorem firstLayout_spec (h : Finishable applyTo emitter codeAddress) :
    ∃ fragments, emitter.calculatePessimisticLayout =
        some (fragments, emitter.pessimisticSize) ∧
      FirstLayout emitter fragments := by
  obtain ⟨fragments, hLayout, hLength, hAt⟩ :=
    calculatePessimisticLayout_spec h
  have hFound : ∀ (i : Nat) (fragment : Fragment ρ),
      fragments[i]? = some fragment →
      ∃ first : Fragment ρ, emitter.fragments[i]? = some first ∧
        fragment = { first with
          pessimisticStart :=
            place (emitter.fragments.map Fragment.pessimisticSize) i } := by
    intro i fragment hFragment
    obtain ⟨hi, -⟩ := List.getElem?_eq_some_iff.mp hFragment
    have hFirst := List.getElem?_eq_getElem (hLength ▸ hi)
    refine ⟨_, hFirst, ?_⟩
    exact Option.some.inj (hFragment.symm.trans (hAt i _ hFirst))
  have hSizes : fragments.map Fragment.pessimisticSize =
      emitter.fragments.map Fragment.pessimisticSize := by
    refine List.ext_getElem? fun i => ?_
    rw [List.getElem?_map, List.getElem?_map]
    cases hFirst : emitter.fragments[i]? with
    | none =>
        rw [List.getElem?_eq_none_iff, ← hLength] at hFirst
        rw [List.getElem?_eq_none_iff.mpr hFirst]
    | some first =>
        rw [hAt i first hFirst]
        rfl
  refine ⟨fragments, hLayout, ⟨?_, hSizes, ?_⟩⟩
  · intro i fragment hFragment
    obtain ⟨first, hFirst, rfl⟩ := hFound i fragment hFragment
    exact ⟨first.pessimisticStart, hFirst⟩
  · intro i fragment hFragment
    obtain ⟨first, -, rfl⟩ := hFound i fragment hFragment
    rw [hSizes]

/-- A built unit that can be finished can be laid out. -/
theorem layable_of_finishable (hBuilt : emitter.Built)
    (h : Finishable applyTo emitter codeAddress)
    {fragments : List (Fragment ρ)} (hFirst : FirstLayout emitter fragments) :
    Layable fragments emitter.labelBindings codeAddress := by
  have hMem : ∀ fragment ∈ fragments, ∃ start,
      { fragment with pessimisticStart := start } ∈ emitter.fragments := by
    intro fragment hFragment
    obtain ⟨i, hi⟩ := List.mem_iff_getElem?.mp hFragment
    obtain ⟨start, hStart⟩ := hFirst.before i fragment hi
    exact ⟨start, List.mem_of_getElem? hStart⟩
  have hSum : (fragments.map Fragment.pessimisticSize).sum =
      emitter.pessimisticSize := congrArg List.sum hFirst.sizes
  have hLength : fragments.length = emitter.fragments.length := by
    simpa using congrArg List.length hFirst.sizes
  refine ⟨hFirst.start, ?_, ?_, ?_, ?_, ?_, ?_⟩
  · intro fragment hFragment relaxation hRelaxation
    obtain ⟨start, hOld⟩ := hMem fragment hFragment
    rcases List.mem_append.mp hOld with hFinished | hCurrent
    · exact hBuilt.unselected _ hFinished relaxation hRelaxation
    · have hPlain := hBuilt.current_relaxation
      rw [← List.mem_singleton.mp hCurrent] at hPlain
      rw [hRelaxation] at hPlain
      cases hPlain
  · intro fragment hFragment
    obtain ⟨start, hOld⟩ := hMem fragment hFragment
    exact h.whole { fragment with pessimisticStart := start } hOld
  · intro fragment hFragment relaxation label hRelaxation hLabel
    obtain ⟨start, hOld⟩ := hMem fragment hFragment
    have hMade := h.made _ hOld relaxation label hRelaxation hLabel
    have hFound := List.getElem?_eq_getElem hMade
    have hResolved := h.resolved _ (List.getElem_mem hMade)
    obtain ⟨i, hi⟩ := Option.isSome_iff_exists.mp hResolved
    rw [hi] at hFound
    exact ⟨i, hLength ▸ hBuilt.bound i (List.mem_of_getElem? hFound), hFound⟩
  · rw [hSum]
    exact h.unit
  · rw [hSum]
    exact h.space
  · intro fragment hFragment relaxation address hRelaxation hAddress
    obtain ⟨start, hOld⟩ := hMem fragment hFragment
    rw [hSum]
    exact h.address _ hOld relaxation address hRelaxation hAddress

/-- Where a fragment of the final layout comes from. -/
theorem LaidOut.origin {fragments : List (Fragment ρ)}
    (hFirst : FirstLayout emitter fragments)
    (hLaid : LaidOut fragments emitter.labelBindings codeAddress placed)
    {k : Nat} {final : Fragment ρ} (hFinal : placed[k]? = some final) :
    ∃ fragment, emitter.fragments[k]? = some fragment ∧
      final.bytes = fragment.bytes ∧
      final.relocations = fragment.relocations ∧
      final.relaxation.map AArch64Relaxation.kind =
        fragment.relaxation.map AArch64Relaxation.kind := by
  obtain ⟨fragment, hFragment, hPlaced⟩ := hLaid.before hFinal
  obtain ⟨start, hOld⟩ := hFirst.before k fragment hFragment
  refine ⟨_, hOld, hPlaced.bytes, hPlaced.relocations, ?_⟩
  cases hRelaxation : fragment.relaxation with
  | none => rw [hPlaced.plain hRelaxation]
  | some relaxation =>
      obtain ⟨selected, hSelected, hChosen⟩ := hPlaced.branch _ hRelaxation
      rw [hSelected]
      exact congrArg some hChosen.kind

section Final

variable {fragments : List (Fragment ρ)}
variable (hLayable : Layable fragments emitter.labelBindings codeAddress)
variable (hLaid : LaidOut fragments emitter.labelBindings codeAddress placed)

include hLayable hLaid

/-- The bytes of a branch at its final place, and what they do. -/
theorem LaidOut.encodedBranch_spec {k : Nat} {final : Fragment ρ}
    {selected : AArch64Relaxation} (hFinal : placed[k]? = some final)
    (hSelected : final.relaxation = some selected) :
    let source := codeAt codeAddress (final.finalStart + final.bytes.length)
    ∃ target words,
      MachineCodeEmitter.finalTargetAddress placed emitter.labelBindings
        codeAddress selected.target = some target ∧
      selected.Reaches source target ∧
      selected.encode source target = some words ∧
      (codeBytes words).length = selected.selectedSize ∧
      final.encodedBranch placed emitter.labelBindings codeAddress =
        some (codeBytes words) ∧
      ∀ memory s, s.pc = source.bits → Holds memory s.pc (codeBytes words) →
        ∃ n s', run memory n s = some s' ∧
          selected.kind.Executes target.bits
            (codeAt codeAddress (final.finalStart + final.finalSize)).bits
            s s' := by
  obtain ⟨target, hTarget, hDisplacement, hReaches⟩ :=
    hLaid.reaches hLayable hFinal hSelected
  obtain ⟨words, hWords, hLength, hRun⟩ :=
    encode_executes hDisplacement hReaches
  have hNext : (codeAt codeAddress (final.finalStart +
      final.bytes.length)).bits + BitVec.ofNat 64 selected.selectedSize =
      (codeAt codeAddress (final.finalStart + final.finalSize)).bits := by
    rw [codeAt, codeAt, BitVec.add_assoc, ← BitVec.ofNat_add,
      Fragment.finalSize,
      hSelected, Nat.add_assoc]
    rfl
  rw [hNext] at hRun
  refine ⟨target, words, hTarget, hReaches, hWords, hLength, ?_, hRun⟩
  rw [Fragment.encodedBranch, hSelected]
  refine (bind_of_eq_some hTarget _).trans ?_
  exact bind_of_eq_some hWords _

/-- Every fragment of the final layout can be encoded. -/
theorem LaidOut.encodable (hBuilt : emitter.Built)
    (h : Finishable applyTo emitter codeAddress)
    (hFirst : FirstLayout emitter fragments) :
    ∀ final ∈ placed, ∃ bytes branch, Encodable applyTo placed
      emitter.labelBindings codeAddress final bytes branch := by
  intro final hMem
  obtain ⟨k, hFinal⟩ := List.mem_iff_getElem?.mp hMem
  obtain ⟨fragment, hFragment, hBytes, hRelocations, -⟩ :=
    hLaid.origin hFirst hFinal
  have hOld := List.mem_of_getElem? hFragment
  have hNext := hLaid.place_succ_eq hFinal
  have hEnd := place_le_sum (placed.map Fragment.finalSize) (k + 1)
  have hSize := hLaid.size_le
  rw [hFirst.sizes] at hSize
  have hUnit : (placed.map Fragment.finalSize).sum ≤ emitter.pessimisticSize :=
    hSize
  have hSpace := h.space
  have hFits : final.bytes.length ≤ final.finalSize := Nat.le_add_right _ _
  have hWhole : 4 ∣ final.finalStart := by
    rw [hLaid.start k final hFinal]
    exact hLaid.dvd_place hLayable k
  obtain ⟨bytes, hRelocated⟩ := h.relocates fragment hOld final.finalStart
    hWhole (by rw [← hBytes]; omega)
  have hSame : final.relocated applyTo codeAddress final.finalStart =
      some bytes := by
    rw [Fragment.relocated, hBytes, hRelocations]
    exact hRelocated
  have hInside : ∀ entry ∈ final.relocations,
      entry.offset + 4 ≤ final.bytes.length := by
    rw [hBytes, hRelocations]
    exact hBuilt.relocations fragment hOld
  cases hSelected : final.relaxation with
  | none =>
      refine ⟨bytes, [], hInside, hSame, ?_, ?_, by omega⟩
      · rw [Fragment.encodedBranch, hSelected]
      · rw [Fragment.finalSize, hSelected]
        rfl
  | some selected =>
      obtain ⟨target, words, -, -, -, hLength, hEncoded, -⟩ :=
        hLaid.encodedBranch_spec hLayable hFinal hSelected
      refine ⟨bytes, codeBytes words, hInside, hSame, hEncoded, ?_, by omega⟩
      rw [hLength, Fragment.finalSize, hSelected]
      rfl

end Final

/-- The final layout keeps the fragments and the kinds of their branches. -/
theorem LaidOut.kept {fragments : List (Fragment ρ)}
    (hFirst : FirstLayout emitter fragments)
    (hLaid : LaidOut fragments emitter.labelBindings codeAddress placed) :
    List.Forall₂ (fun fragment final : Fragment ρ =>
      final.bytes = fragment.bytes ∧
        final.relocations = fragment.relocations ∧
        final.relaxation.map AArch64Relaxation.kind =
          fragment.relaxation.map AArch64Relaxation.kind)
      emitter.fragments placed := by
  have hLength : fragments.length = emitter.fragments.length := by
    simpa using congrArg List.length hFirst.sizes
  refine List.forall₂_iff_get.mpr
    ⟨hLength.symm.trans hLaid.all.length_eq, fun i hFirstBound hBound => ?_⟩
  obtain ⟨fragment, hFragment, hKept⟩ :=
    hLaid.origin hFirst (List.getElem?_eq_getElem hBound)
  rw [List.getElem?_eq_getElem hFirstBound] at hFragment
  obtain rfl := Option.some.inj hFragment
  exact hKept

/-- A branch that is in the code goes to its target. -/
theorem LaidOut.branchTransfers {fragments : List (Fragment ρ)}
    (hLayable : Layable fragments emitter.labelBindings codeAddress)
    (hLaid : LaidOut fragments emitter.labelBindings codeAddress placed)
    (hTiles : Tiles 0 (placed.flatMap (Fragment.pieces applyTo placed
      emitter.labelBindings codeAddress)) code) {final : Fragment ρ}
    {selected : AArch64Relaxation} (hMem : final ∈ placed)
    (hSelected : final.relaxation = some selected) :
    BranchTransfers emitter codeAddress placed code final selected := by
  obtain ⟨k, hFinal⟩ := List.mem_iff_getElem?.mp hMem
  obtain ⟨target, words, hTarget, hReaches, hWords, hLength, hEncoded, hRun⟩ :=
    hLaid.encodedBranch_spec hLayable hFinal hSelected
  refine ⟨target, words, hTarget, hReaches, hWords, hLength, ?_⟩
  intro memory hHolds s hPc
  have hPiece : (final.finalStart + final.bytes.length, codeBytes words) ∈
      placed.flatMap (Fragment.pieces applyTo placed emitter.labelBindings
        codeAddress) := by
    refine List.mem_flatMap.mpr ⟨final, hMem, ?_⟩
    rw [Fragment.pieces, hEncoded]
    exact List.mem_cons_of_mem _ (List.mem_singleton_self _)
  obtain ⟨i, hi⟩ := List.mem_iff_getElem?.mp hPiece
  obtain ⟨before, after, rfl, hAt⟩ := hTiles.piece hi
  refine hRun memory s hPc ?_
  have hBranch := hHolds.right.left
  rw [Nat.zero_add] at hAt
  rw [hAt] at hBranch
  rw [hPc]
  exact hBranch

/-- A code that has a size before its forms are selected has one after. -/
theorem LaidOut.size_ne_zero {fragments : List (Fragment ρ)}
    (hLayable : Layable fragments emitter.labelBindings codeAddress)
    (hLaid : LaidOut fragments emitter.labelBindings codeAddress placed)
    (hSize : (fragments.map Fragment.pessimisticSize).sum ≠ 0) :
    (placed.map Fragment.finalSize).sum ≠ 0 := by
  intro hZero
  rw [List.sum_eq_zero_iff] at hZero
  refine hSize (List.sum_eq_zero fun size hMem => ?_)
  obtain ⟨fragment, hFragment, rfl⟩ := List.mem_map.mp hMem
  obtain ⟨k, hk, hAt⟩ := List.mem_iff_getElem.mp hFragment
  have hPlacedBound : k < placed.length := hLaid.all.length_eq ▸ hk
  have hPlaced := hLaid.all.get hk hPlacedBound
  rw [List.get_eq_getElem, List.get_eq_getElem, hAt] at hPlaced
  have hFinal := hZero _ (List.mem_map_of_mem
    (List.getElem_mem hPlacedBound))
  rw [Fragment.finalSize, hPlaced.bytes, Nat.add_eq_zero_iff] at hFinal
  rw [Fragment.pessimisticSize, hFinal.left, Nat.zero_add]
  cases hRelaxation : fragment.relaxation with
  | none => rfl
  | some relaxation =>
      obtain ⟨selected, hSelected, -⟩ := hPlaced.branch relaxation hRelaxation
      obtain ⟨target, -, -, hReaches⟩ := hLaid.reaches hLayable
        (List.getElem?_eq_getElem hPlacedBound) hSelected
      have hNone := hFinal.right
      rw [hSelected] at hNone
      obtain ⟨kind, mode⟩ := selected
      cases mode with
      | unselected => exact hReaches.elim
      | near => cases hNone
      | far => cases kind <;> cases hNone

/-- A unit that is finishable is laid out and encoded, and what it is encoded
to is consistent. -/
theorem encode_consistent (hBuilt : emitter.Built)
    (h : Finishable applyTo emitter codeAddress) {writable : Nat → List Byte}
    (hWritable : ∀ size, size ≤ emitter.pessimisticSize →
      size ≤ (writable size).length) :
    ∃ fragments placed code,
      emitter.calculatePessimisticLayout =
        some (fragments, emitter.pessimisticSize) ∧
      MachineCodeEmitter.selectRelaxations fragments emitter.labelBindings
        codeAddress = some (placed, code.length) ∧
      MachineCodeEmitter.encode applyTo codeAddress placed
          emitter.labelBindings (writable code.length) =
        some (code ++ (writable code.length).drop code.length) ∧
      code.length ≠ 0 ∧ Consistent applyTo emitter codeAddress placed code ∧
      ∀ final ∈ placed, 4 ∣ final.finalStart ∧ ∃ bytes,
        final.relocated applyTo codeAddress final.finalStart =
          some bytes := by
  obtain ⟨fragments, hLayout, hFirst⟩ := firstLayout_spec h
  have hLayable := layable_of_finishable hBuilt h hFirst
  obtain ⟨placed, hSelect, hLaid⟩ := selectRelaxations_spec hLayable
  have hEncodable := hLaid.encodable hLayable hBuilt h hFirst
  have hSize := hLaid.size_le
  rw [hFirst.sizes] at hSize
  obtain ⟨code, hCode, hLength, hTiles⟩ :=
    @encodeFragments_tiles _ _ _ _ _ placed hEncodable []
      (writable (placed.map Fragment.finalSize).sum)
      (by
        intro i fragment hFragment
        rw [hLaid.start i fragment hFragment, List.length_nil, Nat.zero_add])
      (hWritable _ hSize)
  have hNonempty := hLaid.size_ne_zero hLayable (hFirst.sizes ▸ h.nonempty)
  rw [← hLength] at hSize hSelect hNonempty
  rw [List.nil_append, List.nil_append, ← hLength] at hCode
  refine ⟨fragments, placed, code, hLayout, hSelect, hCode, hNonempty,
    ⟨hLaid.kept hFirst, hSize, hTiles, ?_⟩, fun final hMem => ?_⟩
  · exact fun final hMem relaxation hRelaxation =>
      hLaid.branchTransfers hLayable hTiles hMem hRelaxation
  · obtain ⟨k, hFinal⟩ := List.mem_iff_getElem?.mp hMem
    obtain ⟨bytes, branch, hBytes⟩ := hEncodable final hMem
    refine ⟨?_, bytes, hBytes.relocated⟩
    rw [hLaid.start k final hFinal]
    exact hLaid.dvd_place hLayable k

/-- A unit that the operations built and that passes the assertions of
`finalize` is laid out, encoded and executed consistently: every branch keeps
a form that reaches its target, fills the bytes that are reserved for it, and
goes to the final address of its target, and the fragments and branches tile
the code. -/
theorem finalize_consistent {operations : List (MachineCodeEmitter.Operation ρ)}
    {writable : Nat → List Byte}
    (hBuild : MachineCodeEmitter.build operations (MachineCodeEmitter.make ρ) =
      some emitter)
    (h : Finishable applyTo emitter codeAddress)
    (hWritable : ∀ size, size ≤ (writable size).length) :
    ∃ placed code, emitter.finalize applyTo codeAddress writable =
        some (placed, code ++ (writable code.length).drop code.length) ∧
      Consistent applyTo emitter codeAddress placed code := by
  have hBuilt := (MachineCodeEmitter.built_make ρ).build hBuild
  obtain ⟨fragments, placed, code, hLayout, hSelect, hCode, -, hConsistent,
    -⟩ :=
    encode_consistent hBuilt h fun size _ => hWritable size
  refine ⟨placed, code, ?_, hConsistent⟩
  unfold MachineCodeEmitter.finalize
  rw [check_bind hBuilt.notAttempted, bind_of_eq_some hLayout]
  refine (check_bind h.nonempty _).trans ?_
  refine (check_bind h.unit _).trans ?_
  refine (bind_of_eq_some hSelect _).trans ?_
  exact bind_of_eq_some hCode _

end Units

/-- A loop that is left by a call into other code. -/
def sampleOperations : List (MachineCodeEmitter.Operation Empty) :=
  [.makeLabel, .resolve ⟨0⟩, .emitBytes (wordBytes 0xd503201f),
    .emitRelaxation (.conditionalBranch ⟨0⟩ .equal),
    .emitRelaxation (.call (.machineAddress ⟨0x100000000⟩) ⟨16, by decide⟩)]

def sampleEmitter : MachineCodeEmitter Empty :=
  { finished :=
      [{ Fragment.empty Empty with
          bytes := wordBytes 0xd503201f
          relaxation := some
            ⟨.conditionalBranch ⟨0⟩ .equal, .unselected⟩ },
        { Fragment.empty Empty with
          relaxation := some ⟨.call (.machineAddress ⟨0x100000000⟩)
            ⟨16, by decide⟩, .unselected⟩ }]
    current := Fragment.empty Empty
    labelBindings := [some 0]
    finalizationAttempted := false }

theorem finishable_sample :
    Finishable (fun relocation : Empty => relocation.elim) sampleEmitter
      ⟨0x1000⟩ := by
  have hFragments : ∀ {p : Fragment Empty → Prop},
      p sampleEmitter.fragments[0] → p sampleEmitter.fragments[1] →
        p sampleEmitter.fragments[2] →
          ∀ fragment ∈ sampleEmitter.fragments, p fragment := by
    intro p h0 h1 h2 fragment hFragment
    simp only [MachineCodeEmitter.fragments, sampleEmitter, List.cons_append,
      List.nil_append, List.mem_cons, List.not_mem_nil, or_false] at hFragment
    rcases hFragment with rfl | rfl | rfl
    · exact h0
    · exact h1
    · exact h2
  refine ⟨by decide, ?_, ?_, by decide, by decide, by decide, ?_, ?_⟩
  · refine hFragments ?_ ?_ (by rintro _ _ ⟨⟩)
    · intro relaxation label hRelaxation hLabel
      obtain rfl := Option.some.inj hRelaxation
      obtain rfl := CodeTarget.label.inj hLabel
      decide
    · intro relaxation label hRelaxation hLabel
      obtain rfl := Option.some.inj hRelaxation
      cases hLabel
  · exact hFragments (by decide) (by decide) (by decide)
  · refine hFragments ?_ ?_ (by rintro _ _ ⟨⟩)
    · intro relaxation address hRelaxation hAddress
      obtain rfl := Option.some.inj hRelaxation
      cases hAddress
    · intro relaxation address hRelaxation hAddress offset hOffset
      obtain rfl := Option.some.inj hRelaxation
      obtain rfl := CodeTarget.machineAddress.inj hAddress
      have hSize : sampleEmitter.pessimisticSize = 32 := by decide
      show -2 ^ 63 < ((0x100000000 : Nat) : Int) - (0x1000 + offset : Nat) ∧
        ((0x100000000 : Nat) : Int) - (0x1000 + offset : Nat) < 2 ^ 63
      omega
  · exact hFragments (fun _ _ _ => ⟨_, rfl⟩) (fun _ _ _ => ⟨_, rfl⟩)
      (fun _ _ _ => ⟨_, rfl⟩)

theorem finalize_consistent_sample : ∃ placed code,
    sampleEmitter.finalize (fun relocation : Empty => relocation.elim)
      ⟨0x1000⟩ (fun size => List.replicate size 0) =
        some (placed, code ++
          (List.replicate code.length 0).drop code.length) ∧
      Consistent (fun relocation : Empty => relocation.elim) sampleEmitter
        ⟨0x1000⟩ placed code :=
  finalize_consistent (show MachineCodeEmitter.build sampleOperations _ = _
    from rfl) finishable_sample fun _ => (List.length_replicate ..).ge

end CloverVM.Jit
