import CloverVM.Jit.ConstantPoolReferences

/-!
# Where a constant pool is put

A unit shares its slab with others, so that its pool is up to the size of a
slab away from its code.  In slabs that the instructions of the mode span,
every unit that is accepted finds its entries.  In larger ones the check that
accepts a unit does not see where the unit goes: a single load, the first in a
new slab, cannot be encoded.
-/

namespace CloverVM.Jit

open CloverVM.Machine CloverVM.Machine.BranchCode CloverVM.Machine.AddressCode

/-- The largest slabs that the instructions of a mode span.  Pages of the
instruction set have `2 ^ 12` bytes, and a slab may begin inside of one. -/
def AArch64ValuePoolMode.reach (pageSize : Nat) : AArch64ValuePoolMode → Nat
  | nearLiteral => 2 ^ 20
  | farPageRelative => 2 ^ 32 - (2 ^ 12 - pageSize)

section Placement

variable {cache : CodeCache} {mode : AArch64ValuePoolMode}
variable {codeSize poolSize : Nat} {proposal : CodeAllocationProposal}
variable {slab : CodeCacheSlab}

/-- A slab begins where the rest of its page still has a page of the
machine. -/
theorem page_rest {pageSize base : Nat} (hPage : hasSingleBit pageSize)
    (hLt : pageSize < 2 ^ 64) (hBase : pageSize ∣ base) :
    base % 2 ^ 12 ≤ 2 ^ 12 - pageSize := by
  by_cases hLarge : 2 ^ 12 ≤ pageSize
  · have hDvd : 2 ^ 12 ∣ base :=
      (dvd_of_hasSingleBit (by decide) hPage hLarge).trans hBase
    rw [Nat.mod_eq_zero_of_dvd hDvd]
    exact Nat.zero_le _
  · have hDvd : pageSize ∣ 2 ^ 12 :=
      dvd_of_hasSingleBit hPage (by decide) (by omega)
    obtain ⟨n, hn⟩ := (Nat.dvd_mod_iff hDvd).mpr hBase
    obtain ⟨m, hm⟩ := hDvd
    have hMod := Nat.mod_lt base (show 0 < 2 ^ 12 by decide)
    rw [hn, hm] at hMod ⊢
    have hSucc : n + 1 ≤ m := Nat.lt_of_mul_lt_mul_left hMod
    have hMul := Nat.mul_le_mul_left pageSize hSucc
    rw [Nat.mul_succ] at hMul
    omega

theorem reach_of_slab {base size offset : Nat}
    (hPage : hasSingleBit cache.pageSize) (hLt : cache.pageSize < 2 ^ 64)
    (hBase : cache.pageSize ∣ base) (hSize : size ≤ mode.reach cache.pageSize)
    {source : Nat} (hSource : base ≤ source) (hOffset : offset < size) :
    mode.Reach source (base + offset) := by
  cases mode with
  | nearLiteral =>
      have hNear : size ≤ 2 ^ 20 := hSize
      show base + offset < source + 2 ^ 20
      omega
  | farPageRelative =>
      have hFar : size ≤ 2 ^ 32 - (2 ^ 12 - cache.pageSize) := hSize
      have hRest := page_rest hPage hLt hBase
      show (base + offset) / 2 ^ 12 < source / 2 ^ 12 + 2 ^ 20
      omega

/-- A unit in its slab: the code is before the pool, and the pool is in
reach. -/
theorem placedApart_of_proposed (hServes : cache.Serves)
    (hA : Admissible cache.pageSize cache.codeAllocationGranularity codeSize
      poolSize 8)
    (hP : Proposed cache codeSize poolSize 8 proposal slab)
    (hSpace : slab.platformSlab.base + slab.platformSlab.size < 2 ^ 64)
    (hReach : poolSize ≠ 0 →
      slab.platformSlab.size ≤ mode.reach cache.pageSize) :
    PlacedApart mode
      ⟨BitVec.ofNat 64 (slab.platformSlab.base + slab.codeFrontier)⟩
      ⟨BitVec.ofNat 64 (slab.platformSlab.base + proposal.poolOffset)⟩
      codeSize poolSize ∧
      8 ∣ slab.platformSlab.base + proposal.poolOffset ∧
      slab.platformSlab.base + proposal.poolOffset < 2 ^ 64 := by
  have hG := hServes.wf.geometry
  have hWf := hP.wellFormed hServes.wf
  have hRoom := hP.room hServes.wf hA (Nat.le_refl codeSize)
  have hDown := roundDown_le proposal.poolOffset cache.pageSize
  have hRounds := le_roundUp hG.granularity_bit hG.granularity_lt
    hA.code_rounds
  have hPool := hP.poolOffset_add_le
  have hFrontier := hWf.poolFrontier_le
  have hEight : 8 ∣ slab.platformSlab.base + proposal.poolOffset := by
    refine Nat.dvd_add ((eight_dvd_pageSize hG).trans hWf.base_aligned) ?_
    rw [hP.poolOffset_eq]
    have hSlab := hServes.shared slab (List.mem_of_getElem? hP.slab_eq)
    by_cases hEmpty : poolSize = 0
    · rw [poolPlace, if_pos hEmpty]
      exact hSlab.aligned
    · exact dvd_poolPlace hA.alignment_bit (by decide) (by omega) hEmpty
  have hCode : (BitVec.ofNat 64 (slab.platformSlab.base +
      slab.codeFrontier)).toNat = slab.platformSlab.base +
        slab.codeFrontier := by
    rw [BitVec.toNat_ofNat, Nat.mod_eq_of_lt (by omega)]
  have hPoolBits : (BitVec.ofNat 64 (slab.platformSlab.base +
      proposal.poolOffset)).toNat = slab.platformSlab.base +
        proposal.poolOffset := by
    rw [BitVec.toNat_ofNat, Nat.mod_eq_of_lt (by omega)]
  have hSixteen : 16 ∣ slab.platformSlab.base + slab.codeFrontier :=
    Nat.dvd_add ((hG.sixteen_dvd.trans hG.granularity_dvd).trans
      hWf.base_aligned) (hG.sixteen_dvd.trans hWf.codeFrontier_aligned)
  refine ⟨⟨?_, fun _ => ?_, ?_, ?_, fun offset hOffset => ?_⟩, hEight,
    by omega⟩
  · show 4 ∣ (BitVec.ofNat 64 _).toNat
    rw [hCode]
    exact (show 4 ∣ 16 by decide).trans hSixteen
  · show 8 ∣ (BitVec.ofNat 64 _).toNat
    rw [hPoolBits]
    exact hEight
  · show (BitVec.ofNat 64 _).toNat + codeSize ≤ (BitVec.ofNat 64 _).toNat
    rw [hCode, hPoolBits]
    omega
  · show (BitVec.ofNat 64 _).toNat + poolSize ≤ 2 ^ 64
    rw [hPoolBits]
    omega
  · show mode.Reach (BitVec.ofNat 64 _).toNat
      ((BitVec.ofNat 64 _).toNat + offset)
    rw [hCode, hPoolBits, Nat.add_assoc]
    exact reach_of_slab hG.page_bit hG.page_lt hWf.base_aligned
      (hReach (by omega)) (Nat.le_add_right _ _) (by omega)

end Placement

/-! ## Units that are accepted -/

section Units

variable {cache cache' : CodeCache} {mode : AArch64ValuePoolMode}
variable {assembly : Assembly} {mapped : Option Nat}
variable {proposal : CodeAllocationProposal}

/-- A unit that fits has a pool that is not larger than the span. -/
theorem poolSize_le_of_fits {codeSize poolSize maximumSpan : Nat}
    (hWf : cache.WellFormed)
    (hA : Admissible cache.pageSize cache.codeAllocationGranularity codeSize
      poolSize 8) :
    cache.fitsWithinSpan codeSize poolSize 8 maximumSpan =
        some (decide (poolSize = 0 ∨ minimumSize cache.pageSize
          cache.codeAllocationGranularity codeSize poolSize ≤ maximumSpan)) ∧
      (poolSize ≠ 0 → 2 * cache.pageSize ≤ minimumSize cache.pageSize
        cache.codeAllocationGranularity codeSize poolSize) ∧
      poolSize ≤ minimumSize cache.pageSize cache.codeAllocationGranularity
        codeSize poolSize := by
  obtain ⟨codePages, poolPages, hCode, hCodePages, hPool, hPoolPages, hSum, -,
    hPos⟩ := minimumSize_split hWf.geometry hA
  refine ⟨bind_of_eq_some (minimumSlabSize_eq hWf.geometry hA) _, ?_,
    by omega⟩
  intro hNonempty
  have hCodeLe := Nat.le_of_dvd (by omega) hCodePages
  have hPoolLe := Nat.le_of_dvd (by omega) hPoolPages
  omega

/-- A unit that is accepted, in a slab that the mode spans, is finished with
its references resolved. -/
theorem finalize_resolved (hSound : assembly.Sound mode)
    (hServes : cache.Serves)
    (hFits : cache.fitsWithinSpan assembly.emitter.pessimisticSize
      assembly.pooled.poolSize 8 mode.maximumPoolSpan = some true)
    (hPropose : cache.propose mapped assembly.emitter.pessimisticSize
      assembly.pooled.poolSize 8 = some (cache', .ok proposal))
    {slab : CodeCacheSlab}
    (hP : Proposed cache' assembly.emitter.pessimisticSize
      assembly.pooled.poolSize 8 proposal slab)
    (hSpace : slab.platformSlab.base + slab.platformSlab.size < 2 ^ 64)
    (hReach : assembly.pooled.poolSize ≠ 0 →
      slab.platformSlab.size ≤ mode.reach cache'.pageSize)
    (h : BranchesFinishable assembly.emitter
      ⟨BitVec.ofNat 64 (slab.platformSlab.base + slab.codeFrontier)⟩)
    {memory : Nat → List Byte} (hMemory : ∀ size, (memory size).length = size) :
    ∃ cache'' finished,
      assembly.pooled.finalize cache mapped true memory =
          some (cache'', .ok finished) ∧
        finished.allocation.code.executeAddress =
          slab.platformSlab.base + slab.codeFrontier ∧
        Resolved mode assembly
          ⟨BitVec.ofNat 64 (slab.platformSlab.base + slab.codeFrontier)⟩
          ⟨BitVec.ofNat 64 finished.allocation.constantPoolAddress⟩
          finished := by
  have hA := admissible_of_propose hPropose
  have hIn := propose_slab hServes hPropose
  have hA' : Admissible cache'.pageSize cache'.codeAllocationGranularity
      assembly.emitter.pessimisticSize assembly.pooled.poolSize 8 := by
    rw [hIn.extends_.pageSize_eq, hIn.extends_.granularity_eq]
    exact hA
  have hG := hIn.serves.wf.geometry
  have hRounds := hA'.code_rounds
  obtain ⟨hPlaced, hEight, hLt⟩ := placedApart_of_proposed hIn.serves hA' hP
    hSpace hReach
  obtain ⟨fragments, placed, code, hLayout, hSelect, hEncode, hNonempty,
    hSize, hResolved⟩ := @resolved_of_placed _ _ _ _ hSound h hPlaced
      (fun size => memory (roundUp size cache'.codeAllocationGranularity))
      (fun size hSize => by
        rw [hMemory]
        exact le_roundUp hG.granularity_bit hG.granularity_lt (by omega))
  have hCommit := commit_spec hIn.serves.wf hA' hP hNonempty hSize true
  have hPool := hP.poolOffset_add_le
  have hFrontier := (hP.wellFormed hIn.serves.wf).poolFrontier_le
  have hAddress : proposal.codeAddress cache' = some
      ⟨BitVec.ofNat 64 (slab.platformSlab.base + slab.codeFrontier)⟩ := by
    have hRoom := hP.room hIn.serves.wf hA' (Nat.le_refl _)
    have hDown := roundDown_le proposal.poolOffset cache'.pageSize
    refine (bind_of_eq_some hP.slab_eq _).trans ?_
    rw [PlatformCodeSlab.addressAt, hP.codeOffset_eq, check_bind (by omega)]
    rfl
  have hPoolLt : assembly.pooled.poolSize < 2 ^ 64 := by omega
  have hValues : assembly.pooled.values.length ≤ sizeMax / 8 := by
    have hTagged : assembly.pooled.values.length * 8 ≤
      assembly.pooled.poolSize := Nat.le_add_right _ _
    rw [sizeMax]
    omega
  have hPoolSize : addSizes assembly.pooled.taggedSize
      assembly.pooled.untaggedData.length = some assembly.pooled.poolSize :=
    addSizes_eq hPoolLt
  have hImage := encodePool_eq (hMemory _) hPoolLt
    (Nat.mod_eq_zero_of_dvd hEight)
  let finished : FinishedUnit :=
    { allocation := slab.allocation proposal.slab (roundUp code.length
        cache'.codeAllocationGranularity) code.length proposal.poolOffset
          assembly.pooled.poolSize
      fragments := placed
      code := code ++ (memory (roundUp code.length
        cache'.codeAllocationGranularity)).drop code.length
      pool := assembly.pooled.image }
  refine ⟨cache'.withSlab proposal.slab (slab.after (roundUp code.length
    cache'.codeAllocationGranularity) proposal.poolOffset), finished, ?_,
      rfl, hResolved _⟩
  unfold PooledEmitter.finalize
  refine (check_bind hSound.built.notAttempted _).trans ?_
  refine (bind_of_eq_some hLayout _).trans ?_
  refine (check_bind h.nonempty _).trans ?_
  refine (check_bind h.unit _).trans ?_
  refine (check_bind hValues _).trans ?_
  refine (bind_of_eq_some hPoolSize _).trans ?_
  rw [hSound.span_eq]
  refine (bind_of_eq_some hFits _).trans ?_
  refine (bind_of_eq_some hPropose _).trans ?_
  refine (bind_of_eq_some hAddress _).trans ?_
  refine (bind_of_eq_some hSelect _).trans ?_
  refine (bind_of_eq_some hCommit _).trans ?_
  refine (bind_of_eq_some hEncode _).trans ?_
  exact bind_of_eq_some hImage _

end Units

/-! ## A load in a slab that is too large -/

section Far

/-- The first unit of a cache, in a new slab. -/
theorem propose_fresh {cache : CodeCache} {codeSize poolSize base : Nat}
    (hWf : cache.WellFormed) (hEmpty : cache.slabs = [])
    (hA : Admissible cache.pageSize cache.codeAllocationGranularity codeSize
      poolSize 8)
    (hMinimum : minimumSize cache.pageSize cache.codeAllocationGranularity
      codeSize poolSize ≤ cache.standardSlabSize.toNat)
    (hBase : cache.pageSize ∣ base) :
    cache.propose (some base) codeSize poolSize 8 =
      some ({ cache with slabs := [freshSlab
          ⟨base, cache.standardSlabSize.toNat⟩ cache.pageSize
          cache.codeAllocationGranularity false] },
        .ok ⟨0, 0, codeSize,
          poolPlace cache.standardSlabSize.toNat poolSize 8, poolSize⟩) := by
  have hG := hWf.geometry
  obtain ⟨codePages, poolPages, hCode, hCodePages, hPool, hPoolPages, hSum, -,
    -⟩ := minimumSize_split hG hA
  have hNew := newSlab_mapped hWf.standard_pos hWf.standard_aligned false
    hBase
  unfold CodeCache.propose
  rw [check_bind hA.code_pos, check_bind hA.alignment_bit,
    check_bind hA.alignment_le,
    bind_of_eq_some (alignUp_eq hG.granularity_bit hA.code_rounds),
    bind_of_eq_some (minimumSlabSize_eq hG hA)]
  dsimp only
  rw [decide_eq_true hMinimum, hEmpty]
  refine (bind_of_eq_some (show cache.findCandidate true _ poolSize 8 =
    some none by rw [CodeCache.findCandidate, hEmpty]; rfl) _).trans ?_
  refine (bind_of_eq_some hNew _).trans ?_
  refine (bind_of_eq_some (alignedPoolOffset_eq hA.alignment_bit ?_) _).trans
    rfl
  show poolSize ≤ cache.standardSlabSize.toNat
  omega

variable (mode : AArch64ValuePoolMode)

/-- A unit of one load. -/
def loadOperations : List MacroOperation := [.ldrValue ⟨0, by decide⟩ 0]

def loadItem : PoolItem := ⟨⟨.taggedValues, 0⟩, longBytes 0⟩

def AArch64ValuePoolMode.loadEmitter :
    MachineCodeEmitter AArch64Relocation :=
  (mode.pieces .load).foldl (appendRelocated ⟨0, by decide⟩ loadItem)
    (MachineCodeEmitter.make _)

def loadAssembly : Assembly :=
  { assembler := { poolMode := mode, pooled := {
      emitter := mode.loadEmitter
      values := [0]
      valueIndicesByRawValue := [(0, 0)]
      untaggedData := []
      maximumPoolSpan := mode.maximumPoolSpan } }
    items := [loadItem]
    references := [⟨.load, ⟨0, by decide⟩, loadItem, 0, 0⟩] }

theorem assemble_load :
    assemble mode loadOperations = some (loadAssembly mode) := by
  cases mode <;> rfl

theorem loadSize : (loadAssembly mode).emitter.pessimisticSize =
    4 * (mode.pieces .load).length := by
  cases mode <;> rfl

theorem length_pieces_load : (mode.pieces .load).length = 1 ∨
    (mode.pieces .load).length = 2 := by
  cases mode
  · exact .inl rfl
  · exact .inr rfl

theorem fragments_load : (loadAssembly mode).emitter.fragments =
    [mode.loadEmitter.current] := by
  cases mode <;> rfl

theorem finishable_load {codeAddress : MachineAddress}
    (h : codeAddress.bits.toNat + 8 < 2 ^ 64) :
    BranchesFinishable (loadAssembly mode).emitter codeAddress := by
  have hSound := Assembly.Sound.assemble (assemble_load mode)
  have hSize := loadSize mode
  have hPieces := length_pieces_load mode
  have hPlain : mode.loadEmitter.current.relaxation = none := by
    cases mode <;> rfl
  have hRelaxation : ∀ fragment ∈ (loadAssembly mode).emitter.fragments,
      fragment.relaxation = none := by
    intro fragment hFragment
    rw [fragments_load] at hFragment
    obtain rfl := List.mem_singleton.mp hFragment
    exact hPlain
  refine ⟨?_, ?_, ?_, by omega, ?_, by omega, ?_, ?_⟩
  · cases mode <;> exact nofun
  · intro fragment hFragment relaxation label hBranch
    rw [hRelaxation fragment hFragment] at hBranch
    cases hBranch
  · exact fun fragment hFragment => (hSound.ready fragment hFragment).whole
  · unfold AArch64Relaxation.maximumUnitSize
    omega
  · intro fragment hFragment relaxation address hBranch
    rw [hRelaxation fragment hFragment] at hBranch
    cases hBranch
  · intro fragment hFragment start _ hRoom
    have hReady := hSound.ready fragment hFragment
    have hInside : ∀ entry ∈ fragment.relocations,
        entry.offset + 4 ≤ fragment.bytes.length :=
      fun entry hEntry => (hReady.ready entry hEntry).inside
    have hWords : ∀ entry ∈ fragment.relocations, ∃ word relocated,
        RelocatedWord (fun _ instruction _ => some instruction) codeAddress
          start fragment.bytes entry word relocated := by
      intro entry hEntry
      obtain ⟨register, hWord⟩ := (hReady.ready entry hEntry).word
      have hEntryInside := hInside entry hEntry
      have hPc := @offsetBy_codeAt codeAddress (start + entry.offset)
        (by omega)
      exact ⟨_, _, hWord, _, hPc, rfl⟩
    obtain ⟨result, hResult, -⟩ := foldlM_relocateEntry_spec hReady.spaced
      hWords hInside
    exact ⟨result, hResult⟩

/-- The first relocation of the load cannot be applied where the pool is out
of reach. -/
theorem encode_load_eq_none {codeAddress poolAddress : MachineAddress}
    (hCode : codeAddress.bits.toNat + 8 < 2 ^ 64)
    (hPool : poolAddress.bits.toNat + 8 ≤ 2 ^ 64)
    (hFar : ¬ mode.Reach codeAddress.bits.toNat poolAddress.bits.toNat)
    {memory : List Byte} (hMemory : 8 ≤ memory.length) :
    MachineCodeEmitter.encode ((loadAssembly mode).pooled.applyTo poolAddress)
      codeAddress [mode.loadEmitter.current] [] memory = none := by
  have hBytes : mode.loadEmitter.current.bytes.length =
      4 * (mode.pieces .load).length := by
    cases mode <;> rfl
  have hPieces := length_pieces_load mode
  have hCopy : MachineCodeEmitter.store ([] ++ memory) 0
      mode.loadEmitter.current.bytes = some
        ([] ++ mode.loadEmitter.current.bytes ++
          memory.drop mode.loadEmitter.current.bytes.length) :=
    store_append (by omega)
  have hStart : mode.loadEmitter.current.finalStart = 0 := by
    cases mode <;> rfl
  unfold MachineCodeEmitter.encode
  rw [List.foldlM_cons]
  refine bind_of_eq_none ?_ _
  unfold MachineCodeEmitter.encodeFragment
  rw [hStart]
  refine (bind_of_eq_some hCopy _).trans ?_
  refine bind_of_eq_none ?_ _
  obtain ⟨kind, rest, hRelocations, hWord, hApply⟩ : ∃ kind rest,
      mode.loadEmitter.current.relocations =
          ⟨0, ⟨loadItem.entry, kind⟩⟩ :: rest ∧
        MachineCodeEmitter.loadWord mode.loadEmitter.current.bytes 0 =
          some (kind.emittedWord (0 : Fin 31)) ∧
        kind.apply (kind.emittedWord (0 : Fin 31)) codeAddress poolAddress =
          none := by
    cases mode with
    | nearLiteral =>
        refine ⟨.pcRelative19Scaled4, [], rfl, rfl, ?_⟩
        exact AArch64RelocationKind.apply_pcRelative19Scaled4_eq_none
          (Nat.not_lt.mp hFar)
    | farPageRelative =>
        refine ⟨.pageRelative21, _, rfl, rfl, ?_⟩
        exact AArch64RelocationKind.apply_pageRelative21_eq_none
          (Nat.not_lt.mp hFar)
  rw [hRelocations, List.foldlM_cons]
  refine bind_of_eq_none ?_ _
  have hPc : codeAddress.offsetBy 0 = some codeAddress := by
    rw [offsetBy_codeAt (by omega), codeAt, BitVec.add_zero]
  have hTarget : (loadAssembly mode).pooled.resolveRelocationTarget
      loadItem.entry poolAddress = some poolAddress := by
    have hHas := (Assembly.Sound.assemble (assemble_load mode)).pool.has
      loadItem (List.mem_singleton_self _)
    have hResolve := @PooledEmitter.Has.resolve _ _ hHas poolAddress hPool
    rw [show (loadAssembly mode).pooled.offsetOf loadItem.entry = 0 from rfl,
      BitVec.add_zero] at hResolve
    exact hResolve
  have hLoad : MachineCodeEmitter.loadWord ([] ++
      mode.loadEmitter.current.bytes ++ memory.drop
        mode.loadEmitter.current.bytes.length) 0 =
          some (kind.emittedWord (0 : Fin 31)) :=
    (@loadWord_inside [] _ _ 0 (by omega)).trans hWord
  unfold MachineCodeEmitter.applyRelocation
  rw [hStart, check_bind (by dsimp only; omega)]
  refine (bind_of_eq_some (addSizes_eq (show 0 + 0 < 2 ^ 64 by decide)) _).trans ?_
  refine (bind_of_eq_some hPc _).trans ?_
  refine (bind_of_eq_some hLoad _).trans ?_
  refine bind_of_eq_none ?_ _
  exact (bind_of_eq_some hTarget _).trans hApply

/-- A single load in a slab whose pool is out of its reach. -/
theorem finalize_far_eq_none {cache : CodeCache} {base : Nat}
    (hWf : cache.WellFormed) (hEmpty : cache.slabs = [])
    (hSpan : 2 * cache.pageSize ≤ mode.maximumPoolSpan)
    (hStandard : mode.maximumPoolSpan ≤ cache.standardSlabSize.toNat)
    (hBase : cache.pageSize ∣ base)
    (hSpace : base + cache.standardSlabSize.toNat < 2 ^ 64)
    (hFar : ¬ mode.Reach base (base + (cache.standardSlabSize.toNat - 8)))
    {memory : Nat → List Byte}
    (hMemory : ∀ size, (memory size).length = size) :
    ∃ slab proposed proposal,
      cache.fitsWithinSpan (loadAssembly mode).emitter.pessimisticSize
          (loadAssembly mode).pooled.poolSize 8
          (loadAssembly mode).pooled.maximumPoolSpan = some true ∧
        cache.propose (some base)
            (loadAssembly mode).emitter.pessimisticSize
            (loadAssembly mode).pooled.poolSize 8 =
          some (proposed, .ok proposal) ∧
        proposed.slabs[proposal.slab]? = some slab ∧
        slab.platformSlab = ⟨base, cache.standardSlabSize.toNat⟩ ∧
        proposal.codeAddress proposed = some ⟨BitVec.ofNat 64 base⟩ ∧
        (loadAssembly mode).pooled.finalize cache (some base) true memory =
          none := by
  have hSound := Assembly.Sound.assemble (assemble_load mode)
  have hG := hWf.geometry
  have hPagePos := hG.page_pos
  have hSize := loadSize mode
  have hPieces := length_pieces_load mode
  have hPoolSize : (loadAssembly mode).pooled.poolSize = 8 := rfl
  have hSpanLt : mode.maximumPoolSpan ≤ 2 ^ 27 := by cases mode <;> decide
  have hStandardLt := cache.standardSlabSize.toNat_lt
  have hGranularityLe := hG.granularity_le
  have hSixteen := hG.granularity_ge
  have hUp : roundUp (loadAssembly mode).emitter.pessimisticSize
      cache.codeAllocationGranularity ≤ cache.codeAllocationGranularity :=
    roundUp_le_of_dvd hG.granularity_bit hG.granularity_lt
      (by unfold sizeMax; omega) (Nat.dvd_refl _) (by omega)
  have hPages : roundUp (roundUp (loadAssembly mode).emitter.pessimisticSize
      cache.codeAllocationGranularity) cache.pageSize ≤ cache.pageSize :=
    roundUp_le_of_dvd hG.page_bit hG.page_lt (by unfold sizeMax; omega)
      (Nat.dvd_refl _) (by omega)
  have hPoolPages : roundUp 8 cache.pageSize ≤ cache.pageSize :=
    roundUp_le_of_dvd hG.page_bit hG.page_lt (by unfold sizeMax; omega)
      (Nat.dvd_refl _) (by omega)
  have hA : Admissible cache.pageSize cache.codeAllocationGranularity
      (loadAssembly mode).emitter.pessimisticSize
      (loadAssembly mode).pooled.poolSize 8 := by
    rw [hPoolSize]
    exact
      { code_pos := by omega
        alignment_bit := by decide
        alignment_le := by omega
        code_rounds := by unfold sizeMax; omega
        code_pages := by unfold sizeMax; omega
        pool_rounds := fun _ => by unfold sizeMax; omega
        sum_rounds := fun _ => by unfold sizeMax; omega }
  have hMinimum : minimumSize cache.pageSize cache.codeAllocationGranularity
      (loadAssembly mode).emitter.pessimisticSize
      (loadAssembly mode).pooled.poolSize ≤ 2 * cache.pageSize := by
    rw [hPoolSize, minimumSize, if_neg (by decide)]
    omega
  have hServes : cache.Serves :=
    ⟨hWf, by rw [hEmpty]; exact List.forall_mem_nil _⟩
  have hFits := (@poolSize_le_of_fits _ _ _ mode.maximumPoolSpan hWf
    hA).left
  rw [decide_eq_true (.inr (hMinimum.trans hSpan))] at hFits
  have hPropose := propose_fresh hWf hEmpty hA
    (hMinimum.trans (hSpan.trans hStandard)) hBase
  have hPlace : poolPlace cache.standardSlabSize.toNat
      (loadAssembly mode).pooled.poolSize 8 =
        cache.standardSlabSize.toNat - 8 := by
    have hEight : 8 ∣ cache.standardSlabSize.toNat :=
      (eight_dvd_pageSize hG).trans hWf.standard_aligned
    rw [hPoolSize, poolPlace, if_neg (by decide),
      roundDown_eq (by decide) (by decide) (by omega)]
    omega
  rw [hPlace] at hPropose
  have hAddress : CodeAllocationProposal.codeAddress ⟨0, 0,
      (loadAssembly mode).emitter.pessimisticSize,
      cache.standardSlabSize.toNat - 8, (loadAssembly mode).pooled.poolSize⟩
      { cache with slabs := [freshSlab
        ⟨base, cache.standardSlabSize.toNat⟩ cache.pageSize
        cache.codeAllocationGranularity false] } =
        some ⟨BitVec.ofNat 64 base⟩ := by
    refine (bind_of_eq_some rfl _).trans ?_
    have hAt : PlatformCodeSlab.addressAt
        ⟨base, cache.standardSlabSize.toNat⟩ 0 = some (base + 0) :=
      check_bind (Nat.zero_le _) _
    exact bind_of_eq_some hAt _
  refine ⟨_, _, _, hFits, hPropose, rfl, rfl, hAddress, ?_⟩
  have hIn := propose_slab hServes hPropose
  obtain ⟨slab, hP, -⟩ := hIn.slab _ rfl
  obtain rfl := Option.some.inj (hP.slab_eq.symm.trans rfl)
  have hLayout : (loadAssembly mode).emitter.calculatePessimisticLayout =
      some ([mode.loadEmitter.current],
        (loadAssembly mode).emitter.pessimisticSize) := by
    cases mode <;> rfl
  have hSelect : MachineCodeEmitter.selectRelaxations
      [mode.loadEmitter.current] [] ⟨BitVec.ofNat 64 base⟩ =
        some ([mode.loadEmitter.current],
          (loadAssembly mode).emitter.pessimisticSize) := by
    cases mode <;> rfl
  have hCommit := commit_spec hIn.serves.wf hA hP (by omega) (Nat.le_refl _)
    true
  have hCode : (BitVec.ofNat 64 base).toNat = base := by
    rw [BitVec.toNat_ofNat, Nat.mod_eq_of_lt (by omega)]
  have hPool : (BitVec.ofNat 64 (base + (cache.standardSlabSize.toNat -
      8))).toNat = base + (cache.standardSlabSize.toNat - 8) := by
    rw [BitVec.toNat_ofNat, Nat.mod_eq_of_lt (by omega)]
  have hReserved : cache.codeAllocationGranularity ≤
      roundUp (loadAssembly mode).emitter.pessimisticSize
        cache.codeAllocationGranularity := by
    have hRounds := hA.code_rounds
    have hCodeLe := le_roundUp hG.granularity_bit hG.granularity_lt hRounds
    exact Nat.le_of_dvd (by omega)
      (dvd_roundUp hG.granularity_bit hG.granularity_lt hRounds)
  have hLabels : (loadAssembly mode).pooled.emitter.labelBindings = [] := by
    cases mode <;> rfl
  have hEncode := @encode_load_eq_none mode ⟨BitVec.ofNat 64 base⟩
    ⟨BitVec.ofNat 64 (base + (cache.standardSlabSize.toNat - 8))⟩
    (by rw [hCode]; omega) (by rw [hPool]; omega)
    (by rw [hCode, hPool]; exact hFar)
    (memory (roundUp (loadAssembly mode).emitter.pessimisticSize
      cache.codeAllocationGranularity)) (by rw [hMemory]; omega)
  unfold PooledEmitter.finalize
  rw [hLabels]
  refine (check_bind hSound.built.notAttempted _).trans ?_
  refine (bind_of_eq_some hLayout _).trans ?_
  refine (check_bind (by omega) _).trans ?_
  refine (check_bind (by unfold AArch64Relaxation.maximumUnitSize; omega)
    _).trans ?_
  refine (check_bind (show [0].length ≤ sizeMax / 8 by decide) _).trans ?_
  refine (bind_of_eq_some (addSizes_eq (show 8 + 0 < 2 ^ 64 by decide))
    _).trans ?_
  refine (bind_of_eq_some hFits _).trans ?_
  refine (bind_of_eq_some hPropose _).trans ?_
  refine (bind_of_eq_some hAddress _).trans ?_
  refine (bind_of_eq_some hSelect _).trans ?_
  refine (bind_of_eq_some hCommit _).trans ?_
  exact bind_of_eq_none hEncode _

end Far

/-! ## References that resolve -/

/-- Every unit that a cache takes from the assembler is finished with its
references resolved: for all that the cache has served before, and wherever it
puts the unit in the address space. -/
def PoolReferencesResolve (platformMemory : PlatformCodeMemory)
    (standardSlabSize : UInt64) (mode : AArch64ValuePoolMode) : Prop :=
  ∀ (requests : List Request) (cache : CodeCache) (granted : List Grant),
    (∀ request ∈ requests, request.OfUnit) →
    session platformMemory standardSlabSize requests = some (cache, granted) →
  ∀ (operations : List MacroOperation) (assembly : Assembly),
    assemble mode operations = some assembly →
  ∀ (mapped : Option Nat) (proposed : CodeCache)
    (proposal : CodeAllocationProposal) (slab : CodeCacheSlab)
    (codeAddress : MachineAddress),
    cache.fitsWithinSpan assembly.emitter.pessimisticSize
      assembly.pooled.poolSize 8 assembly.pooled.maximumPoolSpan =
        some true →
    cache.propose mapped assembly.emitter.pessimisticSize
      assembly.pooled.poolSize 8 = some (proposed, .ok proposal) →
    proposed.slabs[proposal.slab]? = some slab →
    slab.platformSlab.base + slab.platformSlab.size < 2 ^ 64 →
    proposal.codeAddress proposed = some codeAddress →
    BranchesFinishable assembly.emitter codeAddress →
  ∀ memory : Nat → List Byte, (∀ size, (memory size).length = size) →
    ∃ cache' finished,
      assembly.pooled.finalize cache mapped true memory =
          some (cache', .ok finished) ∧
        finished.allocation.code.executeAddress = codeAddress.bits.toNat ∧
        Resolved mode assembly codeAddress
          ⟨BitVec.ofNat 64 finished.allocation.constantPoolAddress⟩ finished

section Resolving

variable {platformMemory : PlatformCodeMemory} {standardSlabSize : UInt64}
variable {mode : AArch64ValuePoolMode}

/-- Spans are not larger than the slabs that are in reach of a page. -/
theorem span_le_reach (pageSize : Nat) :
    mode.maximumPoolSpan ≤ mode.reach pageSize := by
  cases mode with
  | nearLiteral => exact Nat.le_refl _
  | farPageRelative =>
      show AArch64Relaxation.maximumUnitSize ≤ 2 ^ 32 - (2 ^ 12 - pageSize)
      unfold AArch64Relaxation.maximumUnitSize
      omega

/-- References resolve in slabs that the mode spans, and where pages are so
large that no unit with a pool is accepted. -/
theorem resolves_of_reach
    (h : standardSlabSize.toNat ≤ mode.reach platformMemory.pageSize.toNat ∨
      mode.maximumPoolSpan < 2 * platformMemory.pageSize.toNat) :
    PoolReferencesResolve platformMemory standardSlabSize mode := by
  intro requests cache granted hUnits hSession operations assembly hAssemble
    mapped proposed proposal slab codeAddress hFits hPropose hSlab hSpace
    hAddress hBranches memory hMemory
  obtain ⟨initial, hMake, hRun⟩ := exists_of_bind hSession
  obtain ⟨hInitial, -, hPage, hStandard⟩ := serves_make hMake
  obtain ⟨hServes, hPage', hStandard'⟩ := hInitial.run hUnits hRun
  rw [hPage] at hPage'
  rw [hStandard] at hStandard'
  have hSound := Assembly.Sound.assemble hAssemble
  rw [hSound.span_eq] at hFits
  have hA := admissible_of_propose hPropose
  have hIn := propose_slab hServes hPropose
  obtain ⟨slab', hP, hSize⟩ := hIn.slab proposal rfl
  obtain rfl := Option.some.inj (hSlab.symm.trans hP.slab_eq)
  -- where the code is
  obtain rfl : codeAddress =
      ⟨BitVec.ofNat 64 (slab.platformSlab.base + slab.codeFrontier)⟩ := by
    obtain ⟨slab', hSlab', hAddress⟩ := exists_of_bind hAddress
    obtain rfl := Option.some.inj (hSlab.symm.trans hSlab')
    obtain ⟨address, hAt, hAddress⟩ := exists_of_bind hAddress
    obtain ⟨-, hAt⟩ := check_bind_eq_some.mp hAt
    obtain rfl := Option.some.inj hAt
    rw [hP.codeOffset_eq] at hAddress
    exact (Option.some.inj hAddress).symm
  have hReach : assembly.pooled.poolSize ≠ 0 →
      slab.platformSlab.size ≤ mode.reach proposed.pageSize := by
    intro hNonempty
    obtain ⟨hAccepted, hTwo, -⟩ :=
      @poolSize_le_of_fits _ _ _ mode.maximumPoolSpan hServes.wf hA
    have hMinimum : minimumSize cache.pageSize
        cache.codeAllocationGranularity assembly.emitter.pessimisticSize
        assembly.pooled.poolSize ≤ mode.maximumPoolSpan := by
      have hTrue := of_decide_eq_true
        (Option.some.inj (hAccepted.symm.trans hFits))
      exact hTrue.resolve_left hNonempty
    have hSpan := @span_le_reach mode proposed.pageSize
    have hTwo := hTwo hNonempty
    rw [hIn.extends_.pageSize_eq, hPage'] at hSpan ⊢
    rw [hPage'] at hTwo
    rw [hStandard'] at hSize
    omega
  obtain ⟨cache', finished, hFinal, hExecute, hResolved⟩ :=
    finalize_resolved hSound hServes hFits hPropose hP hSpace hReach hBranches
      hMemory
  refine ⟨cache', finished, hFinal, ?_, hResolved⟩
  have hFrontier := (hP.wellFormed hIn.serves.wf).codeFrontier_le
  have hDown := roundDown_le slab.poolFrontier proposed.pageSize
  have hPool := (hP.wellFormed hIn.serves.wf).poolFrontier_le
  rw [hExecute, BitVec.toNat_ofNat, Nat.mod_eq_of_lt (by omega)]

/-- A mapping whose pool a load at its start does not reach. -/
theorem not_resolves_of_far {cache : CodeCache} {base : Nat}
    (hMake : CodeCache.make platformMemory standardSlabSize = some cache)
    (hSpan : 2 * platformMemory.pageSize.toNat ≤ mode.maximumPoolSpan)
    (hStandard : mode.maximumPoolSpan ≤ standardSlabSize.toNat)
    (hBase : platformMemory.pageSize.toNat ∣ base)
    (hSpace : base + standardSlabSize.toNat < 2 ^ 64)
    (hFar : ¬ mode.Reach base (base + (standardSlabSize.toNat - 8))) :
    ¬ PoolReferencesResolve platformMemory standardSlabSize mode := by
  intro hResolve
  obtain ⟨hServes, hEmpty, hPage, rfl⟩ := serves_make hMake
  rw [← hPage] at hSpan hBase
  have hSession : session platformMemory cache.standardSlabSize [] =
      some (cache, []) := (bind_of_eq_some hMake _).trans rfl
  obtain ⟨slab, proposed, proposal, hFits, hPropose, hSlab, hPlatform,
    hAddress, hFinal⟩ := finalize_far_eq_none mode hServes.wf hEmpty hSpan
      hStandard hBase hSpace hFar
        (show ∀ size, (List.replicate size (0 : Byte)).length = size from
          fun size => List.length_replicate ..)
  obtain ⟨cache', finished, hFinished, -⟩ := hResolve [] cache []
    (List.forall_mem_nil _) hSession loadOperations (loadAssembly mode)
    (assemble_load mode) (some base) proposed proposal slab _ hFits hPropose
    hSlab (by rw [hPlatform]; exact hSpace) hAddress
    (finishable_load mode (by
      have hSpanGe : 2 ^ 20 ≤ mode.maximumPoolSpan := by
        cases mode <;> decide
      rw [BitVec.toNat_ofNat, Nat.mod_eq_of_lt (by omega)]
      omega)) _ fun size => List.length_replicate ..
  rw [hFinal] at hFinished
  cases hFinished

/-- The next multiple is a page further. -/
theorem add_page_le {pageSize size size' : Nat} (hDvd : pageSize ∣ size)
    (hDvd' : pageSize ∣ size') (hLt : size < size') :
    size + pageSize ≤ size' := by
  have hLe := Nat.le_of_dvd (Nat.sub_pos_of_lt hLt) (Nat.dvd_sub hDvd' hDvd)
  omega

/-- A slab that the mode does not span has a place in the address space where
the end of its last page is out of reach. -/
theorem exists_far_base {pageSize size : Nat} (hPage : hasSingleBit pageSize)
    (hSixteen : 16 ≤ pageSize) (hSpan : 2 * pageSize ≤ mode.maximumPoolSpan)
    (hSize : pageSize ∣ size) (hLt : size < 2 ^ 64)
    (hLarge : mode.reach pageSize < size) :
    ∃ base, pageSize ∣ base ∧ base + size < 2 ^ 64 ∧
      ¬ mode.Reach base (base + (size - 8)) := by
  have hPageLt : pageSize ≤ 2 ^ 26 := by
    have hSpanLt : mode.maximumPoolSpan ≤ 2 ^ 27 := by cases mode <;> decide
    omega
  by_cases hHuge : 2 ^ 63 ≤ size
  · refine ⟨0, Nat.dvd_zero _, by omega, ?_⟩
    cases mode with
    | nearLiteral =>
        show ¬ 0 + (size - 8) < 0 + 2 ^ 20
        omega
    | farPageRelative =>
        show ¬ (0 + (size - 8)) / 2 ^ 12 < 0 / 2 ^ 12 + 2 ^ 20
        omega
  cases mode with
  | nearLiteral =>
      have hNear : 2 ^ 20 < size := hLarge
      have hNext := add_page_le (dvd_of_hasSingleBit hPage (by decide)
        (show pageSize ≤ 2 ^ 20 by change 2 * pageSize ≤ 2 ^ 20 at hSpan
                                   omega)) hSize hNear
      refine ⟨pageSize, Nat.dvd_refl _, by omega, ?_⟩
      show ¬ pageSize + (size - 8) < pageSize + 2 ^ 20
      omega
  | farPageRelative =>
      have hFar : 2 ^ 32 - (2 ^ 12 - pageSize) < size := hLarge
      have hPower : pageSize ∣ 2 ^ 32 :=
        dvd_of_hasSingleBit hPage (by decide) (by omega)
      by_cases hSmall : pageSize < 2 ^ 12
      · have hTwelve : pageSize ∣ 2 ^ 12 :=
          dvd_of_hasSingleBit hPage (by decide) (by omega)
        have hRest : pageSize ∣ 2 ^ 12 - pageSize :=
          Nat.dvd_sub hTwelve (Nat.dvd_refl _)
        have hNext := add_page_le (Nat.dvd_sub hPower hRest) hSize hFar
        refine ⟨2 ^ 12 - pageSize, hRest, by omega, ?_⟩
        show ¬ (2 ^ 12 - pageSize + (size - 8)) / 2 ^ 12 <
          (2 ^ 12 - pageSize) / 2 ^ 12 + 2 ^ 20
        omega
      · have hTwelve : 2 ^ 12 ∣ pageSize :=
          dvd_of_hasSingleBit (by decide) hPage (by omega)
        have hNext := add_page_le hPower hSize (by omega)
        refine ⟨pageSize, Nat.dvd_refl _, by omega, ?_⟩
        show ¬ (pageSize + (size - 8)) / 2 ^ 12 <
          pageSize / 2 ^ 12 + 2 ^ 20
        omega

/-- In which slabs references resolve: in those that the mode spans, and in
all if pages are too large for a unit with a pool to be accepted. -/
theorem poolReferencesResolve_iff {cache : CodeCache}
    (hMake : CodeCache.make platformMemory standardSlabSize = some cache) :
    PoolReferencesResolve platformMemory standardSlabSize mode ↔
      standardSlabSize.toNat ≤ mode.reach platformMemory.pageSize.toNat ∨
        mode.maximumPoolSpan < 2 * platformMemory.pageSize.toNat := by
  refine ⟨fun hResolve => ?_, resolves_of_reach⟩
  by_contra hNot
  obtain ⟨hLarge, hSpan⟩ := not_or.mp hNot
  have hReach := @span_le_reach mode platformMemory.pageSize.toNat
  obtain ⟨hServes, -, hPage, rfl⟩ := serves_make hMake
  have hG := hServes.wf.geometry
  have hAligned := hServes.wf.standard_aligned
  rw [hPage] at hAligned
  have hBit := hPage ▸ hG.page_bit
  have hSixteen := hPage ▸ hG.granularity_ge.trans hG.granularity_le
  obtain ⟨base, hBase, hSpace, hFar⟩ := exists_far_base hBit hSixteen
    (Nat.not_lt.mp hSpan) hAligned cache.standardSlabSize.toNat_lt
    (Nat.not_le.mp hLarge)
  exact not_resolves_of_far hMake (Nat.not_lt.mp hSpan) (by omega) hBase
    hSpace hFar hResolve

/-- Slabs of the size that is the default. -/
theorem poolReferencesResolve_iff_default :
    PoolReferencesResolve sampleMemory 1048576 .nearLiteral :=
  (poolReferencesResolve_iff (show CodeCache.make sampleMemory 1048576 =
    some ⟨sampleMemory, 1048576, []⟩ from rfl)).mpr (.inl (by decide))

/-- In slabs four times as large a single load is accepted that cannot be
encoded. -/
theorem load_not_resolved :
    CodeCache.make sampleMemory 4194304 =
        some ⟨sampleMemory, 4194304, []⟩ ∧
      ¬ PoolReferencesResolve sampleMemory 4194304 .nearLiteral :=
  ⟨rfl, not_resolves_of_far (show CodeCache.make sampleMemory 4194304 =
    some ⟨sampleMemory, 4194304, []⟩ from rfl) (by decide) (by decide)
    (show 4096 ∣ 0x100000000 by decide) (by decide)
    (show ¬ 0x100000000 + 4194296 < 0x100000000 + 2 ^ 20 by decide)⟩

end Resolving

end CloverVM.Jit
