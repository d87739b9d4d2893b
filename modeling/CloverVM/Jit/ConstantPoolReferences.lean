import CloverVM.Jit.CodeCacheSession
import CloverVM.Jit.ConstantPoolAssembly

/-!
# References to the constant pool

A unit that the assembler has built is finished in a code cache that has
served other units before.  The cache first looks whether pages for the code
and for the pool would fit in the span that the instructions reach.  But it
then puts the unit where it has room, the code at one end of a slab and the
pool at the other: what decides is the size of the slab.
-/

namespace CloverVM.Jit

open CloverVM.Machine CloverVM.Machine.BranchCode CloverVM.Machine.AddressCode

/-- Slabs that units share have the standard size, and the pools of units
begin at multiples of eight. -/
structure CodeCacheSlab.Shared (standardSlabSize : Nat)
    (slab : CodeCacheSlab) : Prop where
  size : slab.dedicated = false → slab.platformSlab.size = standardSlabSize
  aligned : 8 ∣ slab.poolFrontier

/-- The cache as units leave it. -/
structure CodeCache.Serves (cache : CodeCache) : Prop where
  wf : cache.WellFormed
  shared : ∀ slab ∈ cache.slabs,
    slab.Shared cache.standardSlabSize.toNat

section Slabs

variable {cache cache' : CodeCache} {codeSize poolSize : Nat}
variable {mapped : Option Nat}

theorem eight_dvd_pageSize {pageSize granularity : Nat}
    (h : Geometry pageSize granularity) : 8 ∣ pageSize :=
  (show 8 ∣ 16 by decide).trans (h.sixteen_dvd.trans h.granularity_dvd)

/-- The cache after a proposal, and the slab that it is made on. -/
structure ProposedIn (cache cache' : CodeCache) (codeSize poolSize : Nat)
    (result : Except JitCodeError CodeAllocationProposal) : Prop where
  extends_ : Extends cache cache'
  serves : cache'.Serves
  slab : ∀ proposal, result = .ok proposal → ∃ slab,
    Proposed cache' codeSize poolSize 8 proposal slab ∧
      (slab.platformSlab.size = cache.standardSlabSize.toNat ∨
        slab.platformSlab.size = minimumSize cache.pageSize
          cache.codeAllocationGranularity codeSize poolSize)

theorem propose_slab (hServes : cache.Serves)
    {result : Except JitCodeError CodeAllocationProposal}
    (h : cache.propose mapped codeSize poolSize 8 = some (cache', result)) :
    ProposedIn cache cache' codeSize poolSize result := by
  rcases propose_spec hServes.wf (admissible_of_propose h) mapped with
    ⟨hStop, -⟩ | ⟨grown, made, hMade, hExtends, hWf, hSlabs, hProposal⟩
  · cases hStop.symm.trans h
  · obtain ⟨rfl, rfl⟩ := Prod.mk.inj (Option.some.inj (hMade.symm.trans h))
    refine ⟨hExtends, ⟨hWf, fun slab hMem => ?_⟩, fun proposal hSame => ?_⟩
    · rw [hExtends.standard_eq]
      rcases hSlabs slab hMem with hOld | hNew
      · exact hServes.shared slab hOld
      · exact ⟨hNew.shared,
          (eight_dvd_pageSize hServes.wf.geometry).trans hNew.page_dvd⟩
    · obtain ⟨slab, hProposed, hSource⟩ := hProposal proposal hSame
      refine ⟨slab, hProposed, ?_⟩
      rcases hSource with ⟨hOld, hShared⟩ | hNew
      · exact .inl ((hServes.shared slab hOld).size hShared)
      · cases hDedicated : slab.dedicated with
        | false => exact .inl (hNew.shared hDedicated)
        | true => exact .inr (hNew.dedicated hDedicated)

/-- A commit that goes through keeps the cache as units leave it. -/
theorem CodeCache.Serves.commit (hServes : cache.Serves)
    {proposal : CodeAllocationProposal} {slab : CodeCacheSlab}
    (hA : Admissible cache.pageSize cache.codeAllocationGranularity codeSize
      poolSize 8)
    (hP : Proposed cache codeSize poolSize 8 proposal slab)
    {encodedCodeSize : Nat} (hle : encodedCodeSize ≤ codeSize) :
    (cache.withSlab proposal.slab (slab.after
      (roundUp encodedCodeSize cache.codeAllocationGranularity)
      proposal.poolOffset)).Serves := by
  refine ⟨hP.wellFormed_after hServes.wf hA hle, fun other hMem => ?_⟩
  rcases List.mem_or_eq_of_mem_set hMem with hOld | rfl
  · exact hServes.shared other hOld
  · have hSlab := hServes.shared slab (List.mem_of_getElem? hP.slab_eq)
    refine ⟨hSlab.size, ?_⟩
    show 8 ∣ proposal.poolOffset
    rw [hP.poolOffset_eq]
    have hWf := hP.wellFormed hServes.wf
    have hFrontier := hWf.poolFrontier_le
    have hLt := hWf.size_lt
    by_cases hEmpty : poolSize = 0
    · rw [poolPlace, if_pos hEmpty]
      exact hSlab.aligned
    · exact dvd_poolPlace hA.alignment_bit (by decide) (by omega) hEmpty

theorem serves_make {platformMemory : PlatformCodeMemory}
    {standardSlabSize : UInt64}
    (h : CodeCache.make platformMemory standardSlabSize = some cache) :
    cache.Serves ∧ cache.slabs = [] ∧
      cache.pageSize = platformMemory.pageSize.toNat ∧
      cache.standardSlabSize = standardSlabSize := by
  have hWf := (sessionInv_make h).wf
  unfold CodeCache.make at h
  dsimp only at h
  simp only [check_bind_eq_some] at h
  obtain ⟨-, -, -, -, -, -, hCache⟩ := h
  obtain rfl := Option.some.inj hCache
  exact ⟨⟨hWf, nofun⟩, rfl, rfl, rfl⟩

/-- The requests of units have their pools aligned for values. -/
def Request.OfUnit (request : Request) : Prop :=
  request.constantPoolAlignment = 8

theorem CodeCache.Serves.serve (hServes : cache.Serves) {request : Request}
    (hUnit : request.OfUnit) {granted : List Grant}
    (h : cache.serve request = some (cache', granted)) :
    cache'.Serves ∧ cache'.pageSize = cache.pageSize ∧
      cache'.standardSlabSize = cache.standardSlabSize := by
  obtain ⟨⟨middle, result⟩, hPropose, h⟩ := exists_of_bind h
  unfold CodeCache.proposeFor at hPropose
  rw [hUnit] at hPropose
  have hA := admissible_of_propose hPropose
  have hIn := propose_slab hServes hPropose
  have hSame : middle.pageSize = cache.pageSize ∧
      middle.standardSlabSize = cache.standardSlabSize :=
    ⟨hIn.extends_.pageSize_eq, hIn.extends_.standard_eq⟩
  cases result with
  | error e =>
      obtain ⟨rfl, -⟩ := Prod.mk.inj (Option.some.inj h)
      exact ⟨hIn.serves, hSame⟩
  | ok proposal =>
      obtain ⟨slab, hP, -⟩ := hIn.slab proposal rfl
      dsimp only at h
      cases hEnding : request.ending with
      | drop =>
          rw [hEnding] at h
          obtain ⟨rfl, -⟩ := Prod.mk.inj (Option.some.inj h)
          exact ⟨hIn.serves, hSame⟩
      | commit encodedCodeSize committed =>
          rw [hEnding] at h
          obtain ⟨⟨last, allocation⟩, hCommit, h⟩ := exists_of_bind h
          have hLast : last = cache' := by
            cases allocation with
            | error e => exact (Prod.mk.inj (Option.some.inj h)).1
            | ok allocation => exact (Prod.mk.inj (Option.some.inj h)).1
          subst hLast
          have hSizes := hCommit
          unfold CodeCache.commit at hSizes
          rw [check_bind_eq_some, check_bind_eq_some, hP.codeSize_eq]
            at hSizes
          obtain ⟨h0, hle, -⟩ := hSizes
          have hAdmissible : Admissible middle.pageSize
              middle.codeAllocationGranularity
              request.pessimisticCodeSize.toNat
              request.constantPoolSize.toNat 8 := by
            rw [hIn.extends_.pageSize_eq, hIn.extends_.granularity_eq]
            exact hA
          rw [commit_spec hIn.serves.wf hAdmissible hP h0 hle committed]
            at hCommit
          obtain ⟨rfl, -⟩ := Prod.mk.inj (Option.some.inj hCommit)
          exact ⟨hIn.serves.commit hAdmissible hP hle, hSame⟩

/-- What units leave behind, however many there are. -/
theorem CodeCache.Serves.run {requests : List Request} :
    ∀ {cache : CodeCache}, cache.Serves →
      (∀ request ∈ requests, request.OfUnit) →
      ∀ {cache' : CodeCache} {granted : List Grant},
        cache.run requests = some (cache', granted) →
          cache'.Serves ∧ cache'.pageSize = cache.pageSize ∧
            cache'.standardSlabSize = cache.standardSlabSize := by
  induction requests with
  | nil =>
      intro cache hServes _ cache' granted h
      obtain ⟨rfl, -⟩ := Prod.mk.inj (Option.some.inj h)
      exact ⟨hServes, rfl, rfl⟩
  | cons request rest ih =>
      intro cache hServes hUnits cache' granted h
      obtain ⟨⟨middle, first⟩, hServe, h⟩ := exists_of_bind h
      obtain ⟨⟨last, later⟩, hRun, h⟩ := exists_of_bind h
      obtain ⟨rfl, -⟩ := Prod.mk.inj (Option.some.inj h)
      obtain ⟨hMiddle, hPage, hStandard⟩ :=
        hServes.serve (hUnits request (List.mem_cons_self ..)) hServe
      obtain ⟨hLast, hPage', hStandard'⟩ := ih hMiddle
        (fun other hMem => hUnits other (List.mem_cons_of_mem _ hMem)) hRun
      exact ⟨hLast, hPage'.trans hPage, hStandard'.trans hStandard⟩

end Slabs

/-! ## The bytes of the pool -/

namespace PooledEmitter

/-- Where an entry is in the pool. -/
def offsetOf (pooled : PooledEmitter) (entry : ConstantPoolEntry) : Nat :=
  match entry.area with
  | .taggedValues => entry.byteOffset
  | .untaggedData => pooled.taggedSize + entry.byteOffset

def poolSize (pooled : PooledEmitter) : Nat :=
  pooled.taggedSize + pooled.untaggedData.length

/-- The values and behind them the other data. -/
def image (pooled : PooledEmitter) : List Byte :=
  pooled.values.flatMap longBytes ++ pooled.untaggedData

end PooledEmitter

section Pools

variable {pooled : PooledEmitter} {item : PoolItem} {items : List PoolItem}

theorem length_flatMap_longBytes (values : List (BitVec 64)) :
    (values.flatMap longBytes).length = values.length * 8 := by
  induction values with
  | nil => rfl
  | cons value values ih =>
      rw [List.flatMap_cons, List.length_append, ih, length_longBytes,
        List.length_cons]
      omega

theorem length_image (pooled : PooledEmitter) :
    pooled.image.length = pooled.poolSize := by
  rw [PooledEmitter.image, List.length_append, length_flatMap_longBytes]
  rfl

/-- The pool has the bytes of an item at its place. -/
theorem PooledEmitter.Has.image (h : pooled.Has item) :
    item.bytes ≠ [] ∧ 8 ∣ pooled.offsetOf item.entry ∧
      ∃ before after, pooled.image = before ++ item.bytes ++ after ∧
        before.length = pooled.offsetOf item.entry := by
  cases h with
  | @value index value hValue =>
      refine ⟨nofun, Nat.dvd_mul_left 8 index,
        (pooled.values.take index).flatMap longBytes,
        (pooled.values.drop (index + 1)).flatMap longBytes ++
          pooled.untaggedData, ?_, ?_⟩
      · obtain ⟨hBound, hAt⟩ := List.getElem?_eq_some_iff.mp hValue
        have hSplit : pooled.values = pooled.values.take index ++
            value :: pooled.values.drop (index + 1) := by
          rw [← hAt, List.getElem_cons_drop, List.take_append_drop]
        rw [PooledEmitter.image]
        conv_lhs => rw [hSplit]
        rw [List.flatMap_append, List.flatMap_cons]
        simp only [List.append_assoc]
      · have hBound := (List.getElem?_eq_some_iff.mp hValue).1
        rw [length_flatMap_longBytes, List.length_take,
          Nat.min_eq_left hBound.le]
        rfl
  | @data before bytes after hData hAligned hBytes =>
      refine ⟨hBytes, Nat.dvd_add (Nat.dvd_mul_left 8 _) hAligned,
        pooled.values.flatMap longBytes ++ before, after, ?_, ?_⟩
      · rw [PooledEmitter.image, hData]
        simp only [List.append_assoc]
      · rw [List.length_append, length_flatMap_longBytes]
        rfl

theorem PooledEmitter.Has.offset_lt (h : pooled.Has item) :
    pooled.offsetOf item.entry + item.bytes.length ≤ pooled.poolSize ∧
      pooled.offsetOf item.entry < pooled.poolSize := by
  obtain ⟨hBytes, -, before, after, hImage, hLength⟩ := h.image
  have hPos := List.length_pos_iff.mpr hBytes
  have hLengths := congrArg List.length hImage
  rw [length_image, List.length_append, List.length_append, hLength]
    at hLengths
  omega

/-- An entry is where the code refers to. -/
theorem PooledEmitter.Has.resolve (h : pooled.Has item)
    {poolAddress : MachineAddress}
    (hSpace : poolAddress.bits.toNat + pooled.poolSize ≤ 2 ^ 64) :
    pooled.resolveRelocationTarget item.entry poolAddress =
      some ⟨poolAddress.bits +
        BitVec.ofNat 64 (pooled.offsetOf item.entry)⟩ := by
  have hOffset := h.offset_lt.right
  have hAddress := @offsetBy_eq poolAddress (pooled.offsetOf item.entry)
    (by omega)
  unfold PooledEmitter.resolveRelocationTarget
  cases h with
  | @value index value hValue =>
      have hBound := (List.getElem?_eq_some_iff.mp hValue).1
      dsimp only
      rw [check_bind (by omega), check_bind (Nat.mul_mod_left index 8)]
      exact hAddress
  | @data before bytes after hData hAligned hBytes =>
      have hPos := List.length_pos_iff.mpr hBytes
      have hLengths := congrArg List.length hData
      rw [List.length_append, List.length_append] at hLengths
      have hSum : pooled.offsetOf ⟨.untaggedData, before.length⟩ =
        pooled.values.length * 8 + before.length := rfl
      rw [hSum] at hAddress hOffset
      dsimp only
      rw [check_bind (by omega), bind_of_eq_some (addSizes_eq (by omega)),
        hAddress, hSum]

/-- Items that are the same have one place, the others have places apart. -/
theorem PoolSound.apart (h : PoolSound pooled items) :
    items.Pairwise fun item later => item = later ∨
      pooled.offsetOf item.entry + item.bytes.length ≤
        pooled.offsetOf later.entry ∨
      pooled.offsetOf later.entry + later.bytes.length ≤
        pooled.offsetOf item.entry := by
  refine h.ordered.imp_of_mem fun {item later} hItem hLater hOrder => ?_
  have hFirst := h.has item hItem
  have hSecond := h.has later hLater
  cases hFirst with
  | @value index value hValue =>
      cases hSecond with
      | @value index' value' hValue' =>
          by_cases hSame : index = index'
          · subst hSame
            rw [hValue] at hValue'
            obtain rfl := Option.some.inj hValue'
            exact .inl rfl
          · right
            show index * 8 + 8 ≤ index' * 8 ∨ index' * 8 + 8 ≤ index * 8
            omega
      | @data before bytes after hData hAligned hBytes =>
          have hBound := (List.getElem?_eq_some_iff.mp hValue).1
          right; left
          show index * 8 + 8 ≤ pooled.values.length * 8 + before.length
          omega
  | @data before bytes after hData hAligned hBytes =>
      cases hSecond with
      | @value index' value' hValue' =>
          have hBound := (List.getElem?_eq_some_iff.mp hValue').1
          right; right
          show index' * 8 + 8 ≤ pooled.values.length * 8 + before.length
          omega
      | @data before' bytes' after' hData' hAligned' hBytes' =>
          have hBelow : before.length + bytes.length ≤ before'.length :=
            hOrder rfl rfl
          right; left
          show pooled.values.length * 8 + before.length + bytes.length ≤
            pooled.values.length * 8 + before'.length
          omega

theorem longBytes_injective {value value' : BitVec 64}
    (h : longBytes value = longBytes value') : value = value' := by
  simp only [longBytes, List.cons.injEq, and_true] at h
  obtain ⟨h0, h1, h2, h3, h4, h5, h6, h7⟩ := h
  refine BitVec.eq_of_toNat_eq ?_
  have hLow := value.isLt
  have hLow' := value'.isLt
  simp only [← BitVec.toNat_inj, BitVec.toNat_setWidth,
    BitVec.toNat_ushiftRight, Nat.shiftRight_eq_div_pow]
    at h0 h1 h2 h3 h4 h5 h6 h7
  omega

/-- A value is in the pool once. -/
theorem PoolSound.deduplicated (h : PoolSound pooled items)
    {later : PoolItem} (hItem : item ∈ items) (hLater : later ∈ items)
    (hArea : item.entry.area = .taggedValues)
    (hArea' : later.entry.area = .taggedValues)
    (hBytes : item.bytes = later.bytes) : item.entry = later.entry := by
  have hFirst := h.has item hItem
  have hSecond := h.has later hLater
  cases hFirst with
  | data => cases hArea
  | @value index value hValue =>
      cases hSecond with
      | data => cases hArea'
      | @value index' value' hValue' =>
          obtain rfl := longBytes_injective hBytes
          obtain ⟨hBound, hAt⟩ := List.getElem?_eq_some_iff.mp hValue
          obtain ⟨hBound', hAt'⟩ := List.getElem?_eq_some_iff.mp hValue'
          obtain rfl : index = index' :=
            (List.Nodup.getElem_inj_iff h.nodup).mp (hAt.trans hAt'.symm)
          rfl

/-- The values are stored one behind the other. -/
theorem storeValues_eq (values : List (BitVec 64)) :
    ∀ {before rest : List Byte} {index : Nat}, before.length = index * 8 →
      values.length * 8 ≤ rest.length →
      PooledEmitter.storeValues (before ++ rest) index values =
        some (before ++ values.flatMap longBytes ++
          rest.drop (values.length * 8)) := by
  induction values with
  | nil =>
      intro before rest index _ _
      rw [List.flatMap_nil, List.append_nil, List.length_nil, Nat.zero_mul,
        List.drop_zero]
      rfl
  | cons value values ih =>
      intro before rest index hBefore hRoom
      rw [List.length_cons] at hRoom ⊢
      have hStore := @store_append before rest (longBytes value)
        (by rw [length_longBytes]; omega)
      have hNext := @ih (before ++ longBytes value)
        (rest.drop (longBytes value).length) (index + 1)
        (by rw [List.length_append, length_longBytes]; omega)
        (by rw [List.length_drop, length_longBytes]; omega)
      rw [hBefore] at hStore
      refine (bind_of_eq_some hStore _).trans (hNext.trans ?_)
      rw [List.flatMap_cons, List.drop_drop, length_longBytes,
        show 8 + values.length * 8 = (values.length + 1) * 8 by omega]
      simp only [List.append_assoc]

theorem encodePool_eq {poolAddress : Nat} {memory : List Byte}
    (hLength : memory.length = pooled.poolSize)
    (hSmall : pooled.poolSize < 2 ^ 64) (hAligned : poolAddress % 8 = 0) :
    pooled.encodePool poolAddress memory = some pooled.image := by
  have hValues : pooled.values.length * 8 ≤ memory.length := by
    rw [hLength]
    exact Nat.le_add_right _ _
  have hStore := @storeValues_eq pooled.values [] memory 0 rfl hValues
  rw [List.nil_append, List.nil_append] at hStore
  have hSum : addSizes (pooled.values.length * 8) pooled.untaggedData.length =
    some pooled.poolSize := addSizes_eq hSmall
  unfold PooledEmitter.encodePool
  dsimp only
  rw [bind_of_eq_some hSum, check_bind hLength, check_bind hAligned,
    bind_of_eq_some hStore]
  have hRest : (memory.drop (pooled.values.length * 8)).length =
      pooled.untaggedData.length := by
    rw [List.length_drop, hLength]
    exact Nat.add_sub_cancel_left _ _
  by_cases hData : pooled.untaggedData = []
  · rw [if_neg (not_not.mpr hData)]
    rw [hData, List.length_nil, List.length_eq_zero_iff] at hRest
    rw [hRest, PooledEmitter.image, hData]
    rfl
  · have hWrite := @store_append (pooled.values.flatMap longBytes) _ _
      hRest.ge
    rw [length_flatMap_longBytes, List.drop_of_length_le hRest.le,
      List.append_nil] at hWrite
    rw [if_pos hData]
    exact hWrite

end Pools

/-! ## Instructions that reach -/

/-- The instructions of a mode reach a target behind them. -/
def AArch64ValuePoolMode.Reach (mode : AArch64ValuePoolMode)
    (source target : Nat) : Prop :=
  match mode with
  | .nearLiteral => target < source + 2 ^ 20
  | .farPageRelative => target / 2 ^ 12 < source / 2 ^ 12 + 2 ^ 20

/-- What an instruction is relocated to. -/
def AArch64RelocationKind.decodedAs (kind : AArch64RelocationKind)
    (register : Nat) (pc target : BitVec 64) : AddressCode.Instruction :=
  match kind with
  | pcRelative19Scaled4 =>
      .ldrLiteral register ((target.toNat : Int) - pc.toNat)
  | pcRelative21 => .adr register ((target.toNat : Int) - pc.toNat)
  | pageRelative21 => .adrp register
      (target.toNat / 2 ^ 12 - pc.toNat / 2 ^ 12 : Nat)
  | pageOffset12 =>
      .addImmediate register register (target.toNat % 2 ^ 12)
  | pageOffset12Scaled8 =>
      .ldrUnsigned register register (target.toNat % 2 ^ 12)

section Reaching

variable {mode : AArch64ValuePoolMode} {kind : AArch64RelocationKind}
variable {pc target : MachineAddress} {register : Fin 31}

theorem relocates_of_reach (hKind : kind ∈ mode.kinds)
    (hPc : 4 ∣ pc.bits.toNat) (hTarget : 8 ∣ target.bits.toNat)
    (hOrder : pc.bits.toNat ≤ target.bits.toNat)
    (hReach : mode.Reach pc.bits.toNat target.bits.toNat) :
    kind.Relocates (kind.emittedWord register) pc target
      (kind.decodedAs register pc.bits target.bits) := by
  have hUnits : (target.bits.toNat : Int) - pc.bits.toNat =
      2 ^ 2 * ((target.bits.toNat - pc.bits.toNat) / 4 : Nat) := by
    omega
  cases mode with
  | nearLiteral =>
      have hNear : target.bits.toNat < pc.bits.toNat + 2 ^ 20 := hReach
      rcases List.mem_pair.mp hKind with rfl | rfl
      · have hLoad := @AArch64RelocationKind.apply_pcRelative19Scaled4 _ _ _
          _ register rfl hUnits (by omega) (by omega)
        rw [Int.mul_comm, show (4 : Int) = 2 ^ 2 from rfl, ← hUnits] at hLoad
        exact hLoad
      · exact AArch64RelocationKind.apply_pcRelative21 rfl (by omega)
          (by omega)
  | farPageRelative =>
      have hFar : target.bits.toNat / 2 ^ 12 <
        pc.bits.toNat / 2 ^ 12 + 2 ^ 20 := hReach
      simp only [AArch64ValuePoolMode.kinds, List.mem_cons, List.not_mem_nil,
        or_false] at hKind
      rcases hKind with rfl | rfl | rfl
      · exact AArch64RelocationKind.apply_pageRelative21 hOrder rfl
          (by omega)
      · exact AArch64RelocationKind.apply_pageOffset12 pc target register
      · exact AArch64RelocationKind.apply_pageOffset12Scaled8 pc register
          hTarget

/-- What a reference does to a machine: it puts the word at its target, or
the address of it, in its register, and goes on. -/
structure Reference.Yields (reference : Reference)
    (memory : BitVec 64 → Byte) (target : BitVec 64) (count : Nat)
    (s s' : State) : Prop where
  pc : s'.pc = s.pc + BitVec.ofNat 64 (4 * count)
  destination : s'.x reference.destination.toFin = match reference.form with
    | .load => fetchLong memory target
    | .address => target
  others : ∀ r, r ≠ reference.destination.toFin → s'.x r = s.x r
  flags : s'.flags = s.flags

theorem add_displacement (source target : BitVec 64) :
    source + BitVec.ofInt 64 ((target.toNat : Int) - source.toNat) =
      target := by
  refine BitVec.eq_of_toNat_eq ?_
  rw [BitVec.toNat_add, BitVec.toNat_ofInt]
  have hSource := source.isLt
  have hTarget := target.isLt
  omega

theorem pageOf_add_pages {source target : BitVec 64}
    (hOrder : source.toNat ≤ target.toNat) :
    pageOf source + BitVec.ofInt 64 (((target.toNat / 2 ^ 12 -
        source.toNat / 2 ^ 12 : Nat) : Int) * 2 ^ 12) +
      BitVec.ofNat 64 (target.toNat % 2 ^ 12) = target := by
  refine BitVec.eq_of_toNat_eq ?_
  rw [BitVec.toNat_add, BitVec.toNat_add, BitVec.toNat_ofInt, pageOf,
    BitVec.toNat_ofNat, BitVec.toNat_ofNat]
  have hPages := Nat.div_le_div_right (c := 2 ^ 12) hOrder
  have hSource := source.isLt
  have hTarget := target.isLt
  omega

/-- A register that is written on the way to the next instructions. -/
theorem yields_write {reference : Reference} {memory : BitVec 64 → Byte}
    {target value : BitVec 64} {s : State} {count : Nat} {s' : State}
    (hState : s' = s.write reference.destination.registerNumber value)
    (hValue : value = match reference.form with
      | .load => fetchLong memory target
      | .address => target) :
    reference.Yields memory target count s
      (s'.goTo (s.pc + BitVec.ofNat 64 (4 * count))) := by
  subst hState
  refine ⟨rfl, ?_, fun r hr => ?_, ?_⟩
  · rw [x_goTo, XRegister.toFin, x_write_self, hValue]
  · rw [x_goTo]
    exact x_write_ne fun hSame => hr (Fin.ext hSame)
  · rw [flags_goTo, flags_write]

/-- The instructions of a reference, relocated for its target. -/
theorem run_reference {reference : Reference} {memory : BitVec 64 → Byte}
    {s : State} (hOrder : s.pc.toNat ≤ target.bits.toNat)
    (hDecode : ∀ (k : Nat) (kind : AArch64RelocationKind),
      (mode.pieces reference.form)[k]? = some kind →
        AddressCode.decode (fetch memory
            (s.pc + BitVec.ofNat 64 (4 * k))) =
          some (kind.decodedAs reference.destination.registerNumber
            (s.pc + BitVec.ofNat 64 (4 * k)) target.bits)) :
    ∃ s', AddressCode.run memory (mode.pieces reference.form).length s =
        some s' ∧
      reference.Yields memory target.bits
        (mode.pieces reference.form).length s s' := by
  have hHere : s.pc + BitVec.ofNat 64 (4 * 0) = s.pc := BitVec.add_zero _
  have hOne : ∀ value, (s.write reference.destination.registerNumber
      value).next = (s.write reference.destination.registerNumber
        value).goTo (s.pc + BitVec.ofNat 64 (4 * 1)) := by
    intro value
    rw [State.next, pc_write]
    rfl
  cases mode with
  | nearLiteral =>
      cases hForm : reference.form with
      | load =>
          rw [hForm] at hDecode
          have hFirst := hDecode 0 .pcRelative19Scaled4 rfl
          rw [hHere] at hFirst
          refine ⟨_, runWith_one (stepWith_of_fetch rfl hFirst), ?_⟩
          rw [AArch64RelocationKind.decodedAs, AddressCode.execute,
            add_displacement, hOne]
          exact yields_write rfl (by rw [hForm])
      | address =>
          rw [hForm] at hDecode
          have hFirst := hDecode 0 .pcRelative21 rfl
          rw [hHere] at hFirst
          refine ⟨_, runWith_one (stepWith_of_fetch rfl hFirst), ?_⟩
          rw [AArch64RelocationKind.decodedAs, AddressCode.execute,
            add_displacement, hOne]
          exact yields_write rfl (by rw [hForm])
  | farPageRelative =>
      have hPage := pageOf_add_pages hOrder
      have hNext : ∀ value, ((s.write reference.destination.registerNumber
          value).next.next) = (s.write reference.destination.registerNumber
            value).goTo (s.pc + BitVec.ofNat 64 (4 * 2)) := by
        intro value
        rw [State.next, State.next, pc_goTo, pc_write, BitVec.add_assoc]
        rfl
      have hFirst := hDecode 0 .pageRelative21 (by cases reference.form <;> rfl)
      rw [hHere] at hFirst
      have hStep := @stepWith_of_fetch _ _ (AddressCode.execute memory) _ _ _ _
        rfl hFirst
      have hPc : ∀ value, ((s.write reference.destination.registerNumber
          value).next).pc = s.pc + BitVec.ofNat 64 (4 * 1) := by
        intro value
        rw [hOne, pc_goTo]
      cases hForm : reference.form with
      | load =>
          rw [hForm] at hDecode
          have hSecond := hDecode 1 .pageOffset12Scaled8 rfl
          have hLast := @stepWith_of_fetch _ _ (AddressCode.execute memory) _ _ _
            _ (congrArg (fetch memory) (hPc
            (pageOf s.pc + BitVec.ofInt 64 (((target.bits.toNat / 2 ^ 12 -
              s.pc.toNat / 2 ^ 12 : Nat) : Int) * 2 ^ 12)))) hSecond
          refine ⟨_, (runWith_succ hStep 1).trans
            (runWith_one hLast), ?_⟩
          rw [AArch64RelocationKind.decodedAs, AddressCode.execute,
            read_next_write reference.destination.lt, hPage,
            write_next_write, hNext]
          exact yields_write rfl (by rw [hForm])
      | address =>
          rw [hForm] at hDecode
          have hSecond := hDecode 1 .pageOffset12 rfl
          have hLast := @stepWith_of_fetch _ _ (AddressCode.execute memory) _ _ _
            _ (congrArg (fetch memory) (hPc
            (pageOf s.pc + BitVec.ofInt 64 (((target.bits.toNat / 2 ^ 12 -
              s.pc.toNat / 2 ^ 12 : Nat) : Int) * 2 ^ 12)))) hSecond
          refine ⟨_, (runWith_succ hStep 1).trans
            (runWith_one hLast), ?_⟩
          rw [AArch64RelocationKind.decodedAs, AddressCode.execute,
            read_next_write reference.destination.lt, hPage,
            write_next_write, hNext]
          exact yields_write rfl (by rw [hForm])

end Reaching

/-! ## Fragments where they are put -/

/-- Where the cache has put the code and the pool of a unit. -/
structure PlacedApart (mode : AArch64ValuePoolMode)
    (codeAddress poolAddress : MachineAddress) (codeSize poolSize : Nat) :
    Prop where
  code_aligned : 4 ∣ codeAddress.bits.toNat
  pool_aligned : poolSize ≠ 0 → 8 ∣ poolAddress.bits.toNat
  apart : codeAddress.bits.toNat + codeSize ≤ poolAddress.bits.toNat
  space : poolAddress.bits.toNat + poolSize ≤ 2 ^ 64
  reach : ∀ offset, offset < poolSize →
    mode.Reach codeAddress.bits.toNat (poolAddress.bits.toNat + offset)

/-- The bytes of a fragment with its immediates in place: no other bit is
changed. -/
structure PatchedFragment (final : Fragment AArch64Relocation)
    (relocated : List Byte) : Prop where
  length : relocated.length = final.bytes.length
  beside : ∀ i, (∀ entry ∈ final.relocations,
    i < entry.offset ∨ entry.offset + 4 ≤ i) →
      relocated[i]? = final.bytes[i]?
  immediate : ∀ entry ∈ final.relocations, ∃ word word',
    MachineCodeEmitter.loadWord final.bytes entry.offset = some word ∧
      MachineCodeEmitter.loadWord relocated entry.offset = some word' ∧
      word' &&& ~~~entry.relocation.kind.immediateMask =
        word &&& ~~~entry.relocation.kind.immediateMask

section Fragments

variable {mode : AArch64ValuePoolMode} {items : List PoolItem}
variable {pooled : PooledEmitter} {fragment : Fragment AArch64Relocation}
variable {codeAddress poolAddress : MachineAddress} {codeSize start : Nat}

theorem AArch64ValuePoolMode.Reach.mono {source source' target : Nat}
    (h : mode.Reach source target) (hLe : source ≤ source') :
    mode.Reach source' target := by
  cases mode with
  | nearLiteral => exact Nat.lt_of_lt_of_le h (by omega)
  | farPageRelative =>
      exact Nat.lt_of_lt_of_le h
        (Nat.add_le_add_right (Nat.div_le_div_right hLe) _)

/-- The word that an entry is relocated to, wherever its fragment is. -/
theorem EntryReady.relocates {entry : RelocationEntry AArch64Relocation}
    {bytes : List Byte} (hReady : EntryReady mode items bytes entry)
    (hPool : PoolSound pooled items)
    (hPlaced : PlacedApart mode codeAddress poolAddress codeSize
      pooled.poolSize) (hStart : 4 ∣ start)
    (hRoom : start + bytes.length ≤ codeSize) {item : PoolItem}
    (hItem : item ∈ items) (hEntry : item.entry = entry.relocation.target)
    {register : Fin 31}
    (hWord : MachineCodeEmitter.loadWord bytes entry.offset =
      some (entry.relocation.kind.emittedWord register)) :
    ∃ word, RelocatedWord (pooled.applyTo poolAddress) codeAddress start bytes
        entry (entry.relocation.kind.emittedWord register) word ∧
      AddressCode.decode word = some (entry.relocation.kind.decodedAs register
        (codeAt codeAddress (start + entry.offset)).bits
        (poolAddress.bits + BitVec.ofNat 64 (pooled.offsetOf item.entry))) ∧
      word &&& ~~~entry.relocation.kind.immediateMask =
        entry.relocation.kind.emittedWord register &&&
          ~~~entry.relocation.kind.immediateMask := by
  have hHas := hPool.has item hItem
  have hOffset := hHas.offset_lt.right
  have hInside := hReady.inside
  have hApart := hPlaced.apart
  have hSpace := hPlaced.space
  obtain ⟨-, hEight, -⟩ := hHas.image
  have hPc := @toNat_codeAt codeAddress (start + entry.offset) (by omega)
  have hTarget := @toNat_add_ofNat poolAddress.bits
    (pooled.offsetOf item.entry) (by omega)
  obtain ⟨word, hApply, hDecode, hMask⟩ := @relocates_of_reach _ _
    (codeAt codeAddress (start + entry.offset))
    ⟨poolAddress.bits + BitVec.ofNat 64 (pooled.offsetOf item.entry)⟩
    register hReady.kind
    (by
      rw [hPc]
      exact Nat.dvd_add hPlaced.code_aligned
        (Nat.dvd_add hStart hReady.aligned))
    (by
      rw [hTarget]
      exact Nat.dvd_add (hPlaced.pool_aligned (by omega)) hEight)
    (by rw [hPc, hTarget]; omega)
    (by
      rw [hPc, hTarget]
      exact (hPlaced.reach _ hOffset).mono (by omega))
  refine ⟨word, ⟨hWord, _, offsetBy_codeAt (by omega), ?_⟩, hDecode, hMask⟩
  have hResolve := hHas.resolve hSpace
  rw [hEntry] at hResolve hApply
  exact (bind_of_eq_some hResolve _).trans hApply

/-- A fragment is relocated, and its words reach their entries. -/
theorem FragmentReady.relocates (hReady : FragmentReady mode items fragment)
    (hPool : PoolSound pooled items)
    (hPlaced : PlacedApart mode codeAddress poolAddress codeSize
      pooled.poolSize) (hStart : 4 ∣ start)
    (hRoom : start + fragment.bytes.length ≤ codeSize) :
    ∃ relocated, fragment.relocated (pooled.applyTo poolAddress) codeAddress
        start = some relocated ∧ PatchedFragment fragment relocated ∧
      ∀ entry ∈ fragment.relocations, ∀ item ∈ items,
        item.entry = entry.relocation.target → ∀ register : Fin 31,
          MachineCodeEmitter.loadWord fragment.bytes entry.offset =
              some (entry.relocation.kind.emittedWord register) →
            ∃ word, MachineCodeEmitter.loadWord relocated entry.offset =
                some word ∧
              AddressCode.decode word =
                some (entry.relocation.kind.decodedAs register
                  (codeAt codeAddress (start + entry.offset)).bits
                  (poolAddress.bits +
                    BitVec.ofNat 64 (pooled.offsetOf item.entry))) := by
  have hEach : ∀ entry ∈ fragment.relocations, ∃ word relocated,
      RelocatedWord (pooled.applyTo poolAddress) codeAddress start
          fragment.bytes entry word relocated ∧
        relocated &&& ~~~entry.relocation.kind.immediateMask =
          word &&& ~~~entry.relocation.kind.immediateMask := by
    intro entry hEntry
    have hEntryReady := hReady.ready entry hEntry
    obtain ⟨item, hItem, hTarget⟩ := hEntryReady.target
    obtain ⟨register, hWord⟩ := hEntryReady.word
    obtain ⟨word, hRelocated, -, hMask⟩ := hEntryReady.relocates hPool hPlaced
      hStart hRoom hItem hTarget hWord
    exact ⟨_, word, hRelocated, hMask⟩
  obtain ⟨relocated, hFold, hWords, hBeside⟩ := foldlM_relocateEntry_spec
    hReady.spaced
    (fun entry hEntry => by
      obtain ⟨word, word', hWord, -⟩ := hEach entry hEntry
      exact ⟨word, word', hWord⟩)
    (fun entry hEntry => (hReady.ready entry hEntry).inside)
  refine ⟨relocated, hFold, ⟨length_foldlM_relocateEntry hFold, hBeside,
    fun entry hEntry => ?_⟩, ?_⟩
  · obtain ⟨word, word', hWord, hMask⟩ := hEach entry hEntry
    exact ⟨word, word', hWord.load, hWords entry hEntry word word' hWord,
      hMask⟩
  · intro entry hEntry item hItem hTarget register hWord
    obtain ⟨word, hRelocated, hDecode, -⟩ :=
      (hReady.ready entry hEntry).relocates hPool hPlaced hStart hRoom hItem
        hTarget hWord
    exact ⟨word, hWords entry hEntry _ word hRelocated, hDecode⟩

end Fragments

/-! ## Units -/

/-- What is asserted of the labels and branches of a unit and of its size,
whatever its relocations are. -/
def BranchesFinishable (emitter : MachineCodeEmitter AArch64Relocation)
    (codeAddress : MachineAddress) : Prop :=
  Finishable (fun _ instruction _ => some instruction) emitter codeAddress

/-- The references of a unit find their entries, and the entries are what they
were made of. -/
structure Resolved (mode : AArch64ValuePoolMode) (assembly : Assembly)
    (codeAddress poolAddress : MachineAddress) (finished : FinishedUnit) :
    Prop where
  code : ∃ code rest, finished.code = code ++ rest ∧
    Consistent (assembly.pooled.applyTo poolAddress) assembly.emitter
      codeAddress finished.fragments code
  patched : ∀ final ∈ finished.fragments, ∃ before relocated after,
    finished.code = before ++ (relocated ++ after) ∧
      before.length = final.finalStart ∧ PatchedFragment final relocated
  references : ∀ reference ∈ assembly.references, ∃ final,
    finished.fragments[reference.fragment]? = some final ∧
      ∀ memory, Holds memory codeAddress.bits finished.code →
        Holds memory poolAddress.bits finished.pool → ∀ s : State,
          s.pc = (codeAt codeAddress
              (final.finalStart + reference.offset)).bits →
            ∃ s', AddressCode.run memory (mode.pieces reference.form).length
                s = some s' ∧
              reference.Yields memory (poolAddress.bits + BitVec.ofNat 64
                (assembly.pooled.offsetOf reference.item.entry))
                (mode.pieces reference.form).length s s' ∧
              (reference.form = .load →
                longBytes (s'.x reference.destination.toFin) =
                  reference.item.bytes)
  contents : ∀ item ∈ assembly.items,
    8 ∣ poolAddress.bits.toNat + assembly.pooled.offsetOf item.entry ∧
      ∃ before after, finished.pool = before ++ item.bytes ++ after ∧
        before.length = assembly.pooled.offsetOf item.entry
  apart : assembly.items.Pairwise fun item later => item = later ∨
    assembly.pooled.offsetOf item.entry + item.bytes.length ≤
      assembly.pooled.offsetOf later.entry ∨
    assembly.pooled.offsetOf later.entry + later.bytes.length ≤
      assembly.pooled.offsetOf item.entry
  deduplicated : ∀ item ∈ assembly.items, ∀ later ∈ assembly.items,
    item.entry.area = .taggedValues → later.entry.area = .taggedValues →
      item.bytes = later.bytes → item.entry = later.entry

section Units

variable {mode : AArch64ValuePoolMode} {assembly : Assembly}
variable {codeAddress poolAddress : MachineAddress}

/-- What is asserted of relocations holds where the pool is in reach. -/
theorem finishable_of_placed (hSound : assembly.Sound mode)
    (h : BranchesFinishable assembly.emitter codeAddress)
    (hPlaced : PlacedApart mode codeAddress poolAddress
      assembly.emitter.pessimisticSize assembly.pooled.poolSize) :
    Finishable (assembly.pooled.applyTo poolAddress) assembly.emitter
      codeAddress where
  resolved := h.resolved
  made := h.made
  whole := h.whole
  nonempty := h.nonempty
  unit := h.unit
  space := h.space
  address := h.address
  relocates := by
    intro fragment hFragment start hStart hRoom
    obtain ⟨relocated, hRelocated, -⟩ := (hSound.ready fragment
      hFragment).relocates hSound.pool hPlaced hStart hRoom
    exact ⟨relocated, hRelocated⟩

/-- A unit in reach of its pool, as it is encoded. -/
theorem resolved_of_placed (hSound : assembly.Sound mode)
    (h : BranchesFinishable assembly.emitter codeAddress)
    (hPlaced : PlacedApart mode codeAddress poolAddress
      assembly.emitter.pessimisticSize assembly.pooled.poolSize)
    {writable : Nat → List Byte}
    (hWritable : ∀ size, size ≤ assembly.emitter.pessimisticSize →
      size ≤ (writable size).length) :
    ∃ fragments placed code,
      assembly.emitter.calculatePessimisticLayout =
        some (fragments, assembly.emitter.pessimisticSize) ∧
      MachineCodeEmitter.selectRelaxations fragments
        assembly.emitter.labelBindings codeAddress =
          some (placed, code.length) ∧
      MachineCodeEmitter.encode (assembly.pooled.applyTo poolAddress)
          codeAddress placed assembly.emitter.labelBindings
          (writable code.length) =
        some (code ++ (writable code.length).drop code.length) ∧
      code.length ≠ 0 ∧ code.length ≤ assembly.emitter.pessimisticSize ∧
      ∀ allocation, Resolved mode assembly codeAddress poolAddress
        { allocation, fragments := placed
          code := code ++ (writable code.length).drop code.length
          pool := assembly.pooled.image } := by
  obtain ⟨fragments, placed, code, hLayout, hSelect, hEncode, hNonempty,
    hConsistent, hRelocated⟩ := encode_consistent hSound.built
      (finishable_of_placed hSound h hPlaced) hWritable
  have hSize := hConsistent.size
  -- where the bytes of a fragment are, and what they are
  have hPieces : ∀ {k : Nat} {final : Fragment AArch64Relocation},
      placed[k]? = some final → ∃ fragment before relocated after,
        assembly.emitter.fragments[k]? = some fragment ∧
          final.bytes = fragment.bytes ∧
          final.relocations = fragment.relocations ∧
          code = before ++ (relocated ++ after) ∧
          before.length = final.finalStart ∧ 4 ∣ final.finalStart ∧
          final.relocated (assembly.pooled.applyTo poolAddress) codeAddress
            final.finalStart = some relocated ∧
          final.finalStart + final.bytes.length ≤
            assembly.emitter.pessimisticSize := by
    intro k final hFinal
    obtain ⟨hk, hAt⟩ := List.getElem?_eq_some_iff.mp hFinal
    have hFragmentBound : k < assembly.emitter.fragments.length :=
      hConsistent.kept.length_eq ▸ hk
    have hKept := hConsistent.kept.get hFragmentBound hk
    rw [List.get_eq_getElem, List.get_eq_getElem, hAt] at hKept
    have hMem := List.mem_of_getElem? hFinal
    obtain ⟨hAligned, relocated, hBytes⟩ := hRelocated final hMem
    have hPiece : ∀ piece ∈ final.pieces (assembly.pooled.applyTo poolAddress)
        placed assembly.emitter.labelBindings codeAddress,
        ∃ before after, code = before ++ (piece.2 ++ after) ∧
          before.length = piece.1 := by
      intro piece hPiece
      obtain ⟨i, hi⟩ := List.mem_iff_getElem?.mp
        (List.mem_flatMap.mpr ⟨final, hMem, hPiece⟩)
      obtain ⟨before, after, hCode, hLength⟩ := hConsistent.tiles.piece hi
      exact ⟨before, after, hCode, by omega⟩
    obtain ⟨before, after, hCode, hBefore⟩ :=
      hPiece _ (List.mem_cons_self ..)
    obtain ⟨before', after', hCode', hBefore'⟩ :=
      hPiece _ (List.mem_cons_of_mem _ (List.mem_singleton_self _))
    rw [hBytes] at hCode
    refine ⟨_, before, relocated, after,
      List.getElem?_eq_getElem hFragmentBound, hKept.1, hKept.2.1, hCode,
      hBefore, hAligned, hBytes, ?_⟩
    have hLength := congrArg List.length hCode'
    rw [List.length_append] at hLength
    dsimp only at hBefore'
    omega
  refine ⟨fragments, placed, code, hLayout, hSelect, hEncode, hNonempty,
    hSize, fun allocation => ⟨⟨code, _, rfl, hConsistent⟩, ?_, ?_, ?_,
      hSound.pool.apart, ?_⟩⟩
  · intro final hMem
    obtain ⟨k, hFinal⟩ := List.mem_iff_getElem?.mp hMem
    obtain ⟨fragment, before, relocated, after, hFragment, hBytes,
      hRelocations, hCode, hBefore, hAligned, hRun, hRoom⟩ := hPieces hFinal
    have hReady := hSound.ready fragment (List.mem_of_getElem? hFragment)
    obtain ⟨relocated', hRun', hPatched, -⟩ := hReady.relocates hSound.pool
      hPlaced hAligned (hBytes ▸ hRoom)
    rw [Fragment.relocated, hBytes, hRelocations] at hRun
    obtain rfl := Option.some.inj (hRun.symm.trans hRun')
    refine ⟨before, relocated, after ++ (writable code.length).drop
      code.length, ?_, hBefore, ?_⟩
    · dsimp only
      rw [hCode]
      simp only [List.append_assoc]
    · exact ⟨hBytes ▸ hPatched.length, hBytes ▸ hRelocations ▸ hPatched.beside,
        hBytes ▸ hRelocations ▸ hPatched.immediate⟩
  · intro reference hReference
    obtain ⟨hItem, hLoadable, kept, hKept, hEmitted⟩ :=
      hSound.references reference hReference
    have hIndex : reference.fragment < placed.length :=
      hConsistent.kept.length_eq ▸ (List.getElem?_eq_some_iff.mp hKept).1
    obtain ⟨final, hFinal⟩ : ∃ final,
        placed[reference.fragment]? = some final :=
      ⟨_, List.getElem?_eq_getElem hIndex⟩
    obtain ⟨fragment, before, relocated, after, hFragment, hBytes,
      hRelocations, hCode, hBefore, hAligned, hRun, hRoom⟩ := hPieces hFinal
    obtain rfl := Option.some.inj (hKept.symm.trans hFragment)
    have hReady := hSound.ready kept (List.mem_of_getElem? hFragment)
    obtain ⟨relocated', hRun', -, hWords⟩ := hReady.relocates hSound.pool
      hPlaced hAligned (hBytes ▸ hRoom)
    rw [Fragment.relocated, hBytes, hRelocations] at hRun
    obtain rfl := Option.some.inj (hRun.symm.trans hRun')
    refine ⟨final, hFinal, fun memory hHolds hPool s hPc => ?_⟩
    have hHere : Holds memory (codeAt codeAddress final.finalStart).bits
        relocated := by
      have hAll : Holds memory codeAddress.bits
          (before ++ (relocated ++ after)) := hCode ▸ hHolds.left
      rw [← hBefore]
      exact hAll.right.left
    have hAt : ∀ offset, s.pc + BitVec.ofNat 64 (4 * offset) =
        (codeAt codeAddress (final.finalStart +
          (reference.offset + 4 * offset))).bits := by
      intro offset
      rw [hPc, codeAt, codeAt, BitVec.add_assoc, ← BitVec.ofNat_add,
        Nat.add_assoc]
    have hDecode : ∀ (k : Nat) (kind : AArch64RelocationKind),
        (mode.pieces reference.form)[k]? = some kind →
          AddressCode.decode (fetch memory
              (s.pc + BitVec.ofNat 64 (4 * k))) =
            some (kind.decodedAs reference.destination.registerNumber
              (s.pc + BitVec.ofNat 64 (4 * k))
              (poolAddress.bits + BitVec.ofNat 64
                (assembly.pooled.offsetOf reference.item.entry))) := by
      intro k kind hKind
      obtain ⟨hEntry, hWord⟩ := hEmitted k kind hKind
      obtain ⟨word, hLoad, hDecoded⟩ := hWords _ hEntry reference.item hItem
        rfl reference.destination.toFin hWord
      have hFetch := fetch_of_loadWord hHere hLoad
      rw [codeAt, BitVec.add_assoc, ← BitVec.ofNat_add] at hFetch
      rw [hAt, codeAt, hFetch]
      exact hDecoded
    have hHas := hSound.pool.has reference.item hItem
    have hOffset := hHas.offset_lt.right
    have hApart := hPlaced.apart
    have hSpace := hPlaced.space
    have hTarget := @toNat_add_ofNat poolAddress.bits
      (assembly.pooled.offsetOf reference.item.entry) (by omega)
    have hFirst : reference.offset < kept.bytes.length := by
      obtain ⟨kind, hKind⟩ : ∃ kind,
          (mode.pieces reference.form)[0]? = some kind := by
        cases mode <;> cases reference.form <;> exact ⟨_, rfl⟩
      have hInside := (hReady.ready _ (hEmitted 0 kind hKind).1).inside
      dsimp only at hInside
      omega
    rw [hBytes] at hRoom
    have hSource := @toNat_codeAt codeAddress
      (final.finalStart + reference.offset) (by omega)
    obtain ⟨s', hRunned, hYields⟩ := @run_reference _
      ⟨poolAddress.bits + BitVec.ofNat 64
        (assembly.pooled.offsetOf reference.item.entry)⟩ _ _ _
      (by rw [hPc, hSource, hTarget]; omega) hDecode
    refine ⟨s', hRunned, hYields, fun hForm => ?_⟩
    obtain ⟨value, hValue⟩ := hLoadable hForm
    obtain ⟨-, -, before', after', hImage, hLength⟩ := hHas.image
    have hHeld : Holds memory (poolAddress.bits + BitVec.ofNat 64
        (assembly.pooled.offsetOf reference.item.entry)) (longBytes value) := by
      have hAll : Holds memory poolAddress.bits
          (before' ++ reference.item.bytes ++ after') := hImage ▸ hPool
      rw [← hValue, ← hLength]
      exact hAll.left.right
    have hLoaded := hYields.destination
    rw [hForm] at hLoaded
    rw [hLoaded, hValue]
    exact congrArg longBytes (fetchLong_of_holds hHeld)
  · intro item hItem
    have hHas := hSound.pool.has item hItem
    obtain ⟨-, hEight, before, after, hImage, hLength⟩ := hHas.image
    have hOffset := hHas.offset_lt.right
    exact ⟨Nat.dvd_add (hPlaced.pool_aligned (by omega)) hEight, before,
      after, hImage, hLength⟩
  · exact fun item hItem later hLater hArea hArea' hBytes =>
      hSound.pool.deduplicated hItem hLater hArea hArea' hBytes

end Units

end CloverVM.Jit
