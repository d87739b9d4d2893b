import CloverVM.Jit.MachineCodeEmitter

/-!
# The form of every branch fits the final layout

The forms are selected from distances in the first layout, in which every
branch is as long as it can be.  In the final layout no distance is longer:
a distance that fits an immediate still does, and a far branch reaches
everything in a unit of the largest size.
-/

namespace CloverVM.Jit

open CloverVM.Machine CloverVM.Machine.BranchCode CloverVM.Machine.Layout

theorem addSizes_eq {left right : Nat} (h : left + right < 2 ^ 64) :
    addSizes left right = some (left + right) := by
  have hRoom : right ≤ sizeMax - left := by
    rw [sizeMax]
    omega
  rw [addSizes, check_bind hRoom]
  rfl

section Sizes

variable {ρ : Type}

/-- The size of a fragment with the largest form of its branch. -/
def Fragment.pessimisticSize (fragment : Fragment ρ) : Nat :=
  fragment.bytes.length + fragment.relaxation.elim 0 AArch64Relaxation.maxSize

/-- The size of a fragment with the selected form of its branch. -/
def Fragment.finalSize (fragment : Fragment ρ) : Nat :=
  fragment.bytes.length +
    fragment.relaxation.elim 0 AArch64Relaxation.selectedSize

theorem AArch64Relaxation.minSize_le_maxSize (relaxation : AArch64Relaxation) :
    relaxation.minSize ≤ relaxation.maxSize := by
  obtain ⟨kind, mode⟩ := relaxation
  cases kind with
  | unconditionalBranch => exact (by decide : 4 ≤ 20)
  | call => exact (by decide : 4 ≤ 20)
  | conditionalBranch => exact (by decide : 4 ≤ 8)

end Sizes

section Pessimistic

variable {ρ : Type} {fragments : List (Fragment ρ)} {cursor : Nat}

theorem reserveMaximum_spec {fragment : Fragment ρ}
    (h : cursor + fragment.pessimisticSize < 2 ^ 64) :
    MachineCodeEmitter.reserveMaximum (cursor + fragment.bytes.length)
        fragment.relaxation =
      some (cursor + fragment.pessimisticSize) := by
  rw [Fragment.pessimisticSize, ← Nat.add_assoc] at h ⊢
  cases hRelaxation : fragment.relaxation with
  | none => rfl
  | some relaxation =>
      rw [hRelaxation] at h
      exact (check_bind relaxation.minSize_le_maxSize _).trans (addSizes_eq h)

/-- Every fragment begins where the sizes before it end. -/
theorem pessimisticLoop_spec
    (hSpace : cursor + (fragments.map Fragment.pessimisticSize).sum < 2 ^ 64) :
    ∃ placed, MachineCodeEmitter.pessimisticLoop cursor fragments =
        some (placed,
          cursor + (fragments.map Fragment.pessimisticSize).sum) ∧
      placed.length = fragments.length ∧
      ∀ i (fragment : Fragment ρ), fragments[i]? = some fragment →
        placed[i]? = some { fragment with
          pessimisticStart :=
            cursor + place (fragments.map Fragment.pessimisticSize) i } := by
  induction fragments generalizing cursor with
  | nil => exact ⟨[], rfl, rfl, nofun⟩
  | cons fragment rest ih =>
      rw [List.map_cons, List.sum_cons] at hSpace ⊢
      have hBytes : fragment.bytes.length ≤ fragment.pessimisticSize :=
        Nat.le_add_right _ _
      obtain ⟨placed, hPlaced, hLength, hAt⟩ :=
        @ih (cursor + fragment.pessimisticSize) (by omega)
      refine ⟨{ fragment with pessimisticStart := cursor } :: placed, ?_,
        congrArg Nat.succ hLength, ?_⟩
      · rw [MachineCodeEmitter.pessimisticLoop,
          bind_of_eq_some (addSizes_eq (by omega)),
          bind_of_eq_some (reserveMaximum_spec (by omega)),
          bind_of_eq_some hPlaced, Nat.add_assoc]
        rfl
      · intro i found hFound
        cases i with
        | zero =>
            obtain rfl := Option.some.inj hFound
            rfl
        | succ i =>
            rw [List.getElem?_cons_succ, hAt i found hFound, place_cons_succ,
              ← Nat.add_assoc]

end Pessimistic

namespace AArch64Relaxation

/-- What the selected form says about the distance it was selected for. -/
def Suits (relaxation : AArch64Relaxation) (displacement : Int) : Prop :=
  match relaxation.mode, relaxation.kind with
  | .unselected, _ => False
  | .near, .conditionalBranch _ _ => Fits 19 displacement
  | .near, _ => Fits 26 displacement
  | .far, _ => True

/-- What the assertion of a conditional branch needs. -/
def InnerReach (relaxation : AArch64Relaxation) (source : MachineAddress)
    (displacement : Int) : Prop :=
  ∀ label condition, relaxation.kind = .conditionalBranch label condition →
    Fits 26 (displacement - 4) ∧ source.bits.toNat + 4 < 2 ^ 64

end AArch64Relaxation

/-- One of the forms is selected, with the size it has. -/
theorem select_spec {relaxation : AArch64Relaxation}
    {source target : MachineAddress} {displacement : Int}
    (hMode : relaxation.mode = .unselected)
    (hTo : (target.bits.toNat : Int) - source.bits.toNat = displacement)
    (hLow : -2 ^ 63 < displacement) (hHigh : displacement < 2 ^ 63)
    (hInner : relaxation.InnerReach source displacement) :
    ∃ selected, relaxation.select source target =
        some (selected, selected.selectedSize) ∧
      selected.kind = relaxation.kind ∧ selected.Suits displacement ∧
      4 ∣ selected.selectedSize ∧ relaxation.minSize ≤ selected.selectedSize ∧
      selected.selectedSize ≤ relaxation.maxSize := by
  have hDisplacement := displacementTo_eq hTo hLow hHigh
  have hFits := fitsSignedScaledDisplacement_iff displacement
  obtain ⟨kind, mode⟩ := relaxation
  unfold AArch64Relaxation.select
  rw [check_bind hMode, bind_of_eq_some hDisplacement]
  cases kind with
  | unconditionalBranch label scratch =>
      dsimp only
      split_ifs with hNear
      · exact ⟨_, rfl, rfl, (hFits 26).mp hNear, (by decide : 4 ∣ 4),
          (by decide : 4 ≤ 4), (by decide : 4 ≤ 20)⟩
      · exact ⟨_, rfl, rfl, trivial, (by decide : 4 ∣ 20),
          (by decide : 4 ≤ 20), (by decide : 20 ≤ 20)⟩
  | call label scratch =>
      dsimp only
      split_ifs with hNear
      · exact ⟨_, rfl, rfl, (hFits 26).mp hNear, (by decide : 4 ∣ 4),
          (by decide : 4 ≤ 4), (by decide : 4 ≤ 20)⟩
      · exact ⟨_, rfl, rfl, trivial, (by decide : 4 ∣ 20),
          (by decide : 4 ≤ 20), (by decide : 20 ≤ 20)⟩
  | conditionalBranch label condition =>
      obtain ⟨hInnerFits, hRoom⟩ := hInner label condition rfl
      dsimp only
      split_ifs with hNear
      · exact ⟨_, rfl, rfl, (hFits 19).mp hNear, (by decide : 4 ∣ 4),
          (by decide : 4 ≤ 4), (by decide : 4 ≤ 8)⟩
      · subst hTo
        refine ⟨⟨.conditionalBranch label condition, .far⟩, ?_, rfl, trivial,
          (by decide : 4 ∣ 8), (by decide : 4 ≤ 8), (by decide : 8 ≤ 8)⟩
        refine (bind_of_eq_some (offsetBy_eq hRoom) _).trans ?_
        refine (bind_of_eq_some (inner_displacement hRoom hInnerFits) _).trans
          ?_
        exact check_bind
          ((fitsSignedScaledDisplacement_iff _ 26).mpr hInnerFits) _

/-! ## Selecting the forms of a unit -/

/-- What the selection relies on: the fragments have their first layout, and
every label and every address is where it has to be. -/
structure Layable {ρ : Type} (fragments : List (Fragment ρ))
    (labelBindings : List (Option Nat)) (codeAddress : MachineAddress) :
    Prop where
  start : ∀ i (fragment : Fragment ρ), fragments[i]? = some fragment →
    fragment.pessimisticStart =
      place (fragments.map Fragment.pessimisticSize) i
  unselected : ∀ fragment ∈ fragments, ∀ relaxation,
    fragment.relaxation = some relaxation → relaxation.mode = .unselected
  whole : ∀ fragment ∈ fragments, 4 ∣ fragment.bytes.length
  label : ∀ fragment ∈ fragments, ∀ relaxation label,
    fragment.relaxation = some relaxation →
      relaxation.target = .label label → ∃ i < fragments.length,
        labelBindings[label.index]? = some (some i)
  unit : (fragments.map Fragment.pessimisticSize).sum ≤
    AArch64Relaxation.maximumUnitSize
  space : codeAddress.bits.toNat +
    (fragments.map Fragment.pessimisticSize).sum < 2 ^ 64
  address : ∀ fragment ∈ fragments, ∀ relaxation address,
    fragment.relaxation = some relaxation →
      relaxation.target = .machineAddress address → ∀ offset : Nat,
        offset ≤ (fragments.map Fragment.pessimisticSize).sum →
        -2 ^ 63 < (address.bits.toNat : Int) -
            (codeAddress.bits.toNat + offset : Nat) ∧
          (address.bits.toNat : Int) -
            (codeAddress.bits.toNat + offset : Nat) < 2 ^ 63

section Selection

variable {ρ : Type} {fragments : List (Fragment ρ)}
variable {labelBindings : List (Option Nat)} {codeAddress : MachineAddress}
variable {placed : List (Fragment ρ)}

/-- The address of an offset in the unit. -/
def codeAt (codeAddress : MachineAddress) (offset : Nat) : MachineAddress :=
  ⟨codeAddress.bits + BitVec.ofNat 64 offset⟩

/-- The selected form of the branch of a fragment, and what it was selected
for: its label in the first layout, or an address from its final place. -/
structure Chosen (fragments : List (Fragment ρ))
    (labelBindings : List (Option Nat)) (codeAddress : MachineAddress)
    (fragment : Fragment ρ) (finalStart : Nat)
    (relaxation selected : AArch64Relaxation) : Prop where
  kind : selected.kind = relaxation.kind
  aligned : 4 ∣ selected.selectedSize
  size_le : selected.selectedSize ≤ relaxation.maxSize
  label : ∀ label i, relaxation.target = .label label →
    labelBindings[label.index]? = some (some i) → selected.Suits
      ((place (fragments.map Fragment.pessimisticSize) i : Int) -
        (fragment.pessimisticStart + fragment.bytes.length : Nat))
  address : ∀ address, relaxation.target = .machineAddress address →
    selected.Suits ((address.bits.toNat : Int) - (codeAddress.bits.toNat +
      (finalStart + fragment.bytes.length) : Nat))

theorem toNat_codeAt {offset : Nat}
    (h : codeAddress.bits.toNat + offset < 2 ^ 64) :
    (codeAt codeAddress offset).bits.toNat = codeAddress.bits.toNat + offset :=
  toNat_add_ofNat h

theorem offsetBy_codeAt {offset : Nat}
    (h : codeAddress.bits.toNat + offset < 2 ^ 64) :
    codeAddress.offsetBy offset = some (codeAt codeAddress offset) :=
  offsetBy_eq h

/-- Two places of a unit are in reach of a branch that is followed by room for
another one. -/
theorem fits_in_unit {a b : Nat} (ha : 4 ∣ a) (hb : 4 ∣ b)
    (haUnit : a ≤ AArch64Relaxation.maximumUnitSize)
    (hbUnit : b + 8 ≤ AArch64Relaxation.maximumUnitSize) :
    Fits 26 ((a : Int) - b - 4) := by
  rw [AArch64Relaxation.maximumUnitSize] at haUnit hbUnit
  exact ⟨((a : Int) - b - 4) / 4, by omega, by omega, by omega⟩

theorem Layable.labelFragment_eq
    (h : Layable fragments labelBindings codeAddress) {label : Label} {i : Nat}
    (hi : i < fragments.length)
    (hLabel : labelBindings[label.index]? = some (some i)) :
    ∃ fragment, fragments[i]? = some fragment ∧
      MachineCodeEmitter.labelFragment fragments labelBindings label =
        some fragment ∧
      fragment.pessimisticStart =
        place (fragments.map Fragment.pessimisticSize) i := by
  have hFound := List.getElem?_eq_getElem hi
  refine ⟨fragments[i], hFound, ?_, h.start i _ hFound⟩
  rw [MachineCodeEmitter.labelFragment, bind_of_eq_some hLabel,
    show (some i >>= fun binding => fragments[binding]?) = fragments[i]?
      from rfl]
  exact hFound

theorem Fragment.dvd_pessimisticSize {fragment : Fragment ρ}
    (h : 4 ∣ fragment.bytes.length) : 4 ∣ fragment.pessimisticSize := by
  refine Nat.dvd_add h ?_
  cases hRelaxation : fragment.relaxation with
  | none => exact Nat.dvd_zero 4
  | some relaxation =>
      obtain ⟨kind, mode⟩ := relaxation
      cases kind with
      | unconditionalBranch => exact (by decide : 4 ∣ 20)
      | call => exact (by decide : 4 ∣ 20)
      | conditionalBranch => exact (by decide : 4 ∣ 8)

theorem Layable.dvd_place (h : Layable fragments labelBindings codeAddress)
    (i : Nat) : 4 ∣ place (fragments.map Fragment.pessimisticSize) i := by
  refine Layout.dvd_place (fun size hSize => ?_) i
  obtain ⟨fragment, hFragment, rfl⟩ := List.mem_map.mp hSize
  exact Fragment.dvd_pessimisticSize (h.whole fragment hFragment)

/-- A fragment and its branch are in the unit. -/
theorem Layable.end_le (h : Layable fragments labelBindings codeAddress)
    {k : Nat} {fragment : Fragment ρ} {relaxation : AArch64Relaxation}
    (hFragment : fragments[k]? = some fragment)
    (hRelaxation : fragment.relaxation = some relaxation) :
    fragment.pessimisticStart + fragment.bytes.length + relaxation.maxSize ≤
      (fragments.map Fragment.pessimisticSize).sum := by
  obtain ⟨hk, hAt⟩ := List.getElem?_eq_some_iff.mp hFragment
  have hStart := h.start k fragment hFragment
  have hBound : k < (fragments.map Fragment.pessimisticSize).length := by
    rw [List.length_map]
    exact hk
  have hNext := place_succ hBound
  rw [List.getElem_map, hAt] at hNext
  have hSize : fragment.pessimisticSize =
      fragment.bytes.length + relaxation.maxSize := by
    rw [Fragment.pessimisticSize, hRelaxation]
    rfl
  have hEnd := place_le_sum (fragments.map Fragment.pessimisticSize) (k + 1)
  omega

/-- The form of a branch is selected when its fragment is not placed behind
its first place. -/
theorem selectIn_spec (h : Layable fragments labelBindings codeAddress)
    {k finalStart : Nat} {fragment : Fragment ρ}
    {relaxation : AArch64Relaxation} (hFragment : fragments[k]? = some fragment)
    (hRelaxation : fragment.relaxation = some relaxation)
    (hStart : finalStart ≤ fragment.pessimisticStart) :
    ∃ selected, MachineCodeEmitter.selectIn fragments labelBindings
        codeAddress fragment relaxation
          (finalStart + fragment.bytes.length) =
        some (selected, selected.selectedSize) ∧
      Chosen fragments labelBindings codeAddress fragment finalStart relaxation
        selected ∧
      relaxation.minSize ≤ selected.selectedSize := by
  have hMem := List.mem_of_getElem? hFragment
  have hMode := h.unselected fragment hMem relaxation hRelaxation
  have hEnd := h.end_le hFragment hRelaxation
  have hUnit := h.unit
  have hSpace := h.space
  have hMin := relaxation.minSize_le_maxSize
  generalize hSum : (fragments.map Fragment.pessimisticSize).sum = unit
    at hEnd hUnit hSpace
  unfold MachineCodeEmitter.selectIn
  cases hTarget : relaxation.target with
  | label label =>
      obtain ⟨i, hi, hLabel⟩ :=
        h.label fragment hMem relaxation label hRelaxation hTarget
      obtain ⟨bound, -, hBound, hBoundStart⟩ := h.labelFragment_eq hi hLabel
      have hPlace : place (fragments.map Fragment.pessimisticSize) i ≤ unit :=
        hSum ▸ place_le_sum _ i
      have hAligned := h.dvd_place i
      have hSource : 4 ∣ fragment.pessimisticStart + fragment.bytes.length :=
        Nat.dvd_add (h.start k fragment hFragment ▸ h.dvd_place k)
          (h.whole fragment hMem)
      generalize hb : fragment.pessimisticStart + fragment.bytes.length = b
        at hEnd hSource
      generalize ha : place (fragments.map Fragment.pessimisticSize) i = a
        at hPlace hAligned hBoundStart
      have hSourceAt : (codeAt codeAddress b).bits.toNat =
          codeAddress.bits.toNat + b := toNat_codeAt (by omega)
      have hTargetAt : (codeAt codeAddress a).bits.toNat =
          codeAddress.bits.toNat + a := toNat_codeAt (by omega)
      have hInner : relaxation.InnerReach (codeAt codeAddress b)
          ((a : Int) - b) := by
        intro label condition hKind
        have hMax : relaxation.maxSize = 8 := by
          rw [AArch64Relaxation.maxSize, hKind]
        exact ⟨fits_in_unit hAligned hSource (hPlace.trans hUnit) (by omega),
          by omega⟩
      rw [AArch64Relaxation.maximumUnitSize] at hUnit
      obtain ⟨selected, hSelect, hKind, hSuits, hDvd, hLow, hHigh⟩ :=
        select_spec hMode (show ((codeAt codeAddress a).bits.toNat : Int) -
          (codeAt codeAddress b).bits.toNat = (a : Int) - b by omega)
          (by omega) (by omega) hInner
      refine ⟨selected, ?_, ⟨hKind, hDvd, hHigh, ?_, ?_⟩, hLow⟩
      · have hOffset : addSizes fragment.pessimisticStart
            fragment.bytes.length = some b := by
          rw [← hb]
          exact addSizes_eq (by omega)
        have hAddress : MachineCodeEmitter.pessimisticLabelAddress fragments
            labelBindings label codeAddress = some (codeAt codeAddress a) := by
          rw [MachineCodeEmitter.pessimisticLabelAddress,
            bind_of_eq_some hBound, hBoundStart]
          exact offsetBy_codeAt (by omega)
        refine (bind_of_eq_some hOffset _).trans ?_
        refine (bind_of_eq_some (offsetBy_codeAt (by omega)) _).trans ?_
        exact (bind_of_eq_some hAddress _).trans hSelect
      · intro label' i' hTarget' hLabel'
        obtain rfl := CodeTarget.label.inj (hTarget.symm.trans hTarget')
        obtain rfl := Option.some.inj
          (Option.some.inj (hLabel.symm.trans hLabel'))
        rw [ha, hb]
        exact hSuits
      · intro address hAddress
        rw [hTarget] at hAddress
        cases hAddress
  | machineAddress address =>
      have hOffset : finalStart + fragment.bytes.length ≤ unit := by omega
      obtain ⟨hLow, hHigh⟩ := h.address fragment hMem relaxation address
        hRelaxation hTarget _ (hSum ▸ hOffset)
      have hSourceAt : (codeAt codeAddress
          (finalStart + fragment.bytes.length)).bits.toNat =
            codeAddress.bits.toNat + (finalStart + fragment.bytes.length) :=
        toNat_codeAt (by omega)
      have hInner : relaxation.InnerReach
          (codeAt codeAddress (finalStart + fragment.bytes.length))
          ((address.bits.toNat : Int) - (codeAddress.bits.toNat +
            (finalStart + fragment.bytes.length) : Nat)) := by
        intro label condition hKind
        rw [AArch64Relaxation.target, hKind] at hTarget
        cases hTarget
      obtain ⟨selected, hSelect, hKind, hSuits, hDvd, hMinimum, hMaximum⟩ :=
        select_spec hMode (congrArg (fun n : Nat =>
          (address.bits.toNat : Int) - n) hSourceAt) hLow hHigh hInner
      refine ⟨selected, ?_, ⟨hKind, hDvd, hMaximum, ?_, ?_⟩, hMinimum⟩
      · refine (bind_of_eq_some (offsetBy_codeAt (by omega)) _).trans ?_
        exact hSelect
      · intro label i hLabel
        rw [hTarget] at hLabel
        cases hLabel
      · intro address' hAddress
        obtain rfl := CodeTarget.machineAddress.inj
          (hTarget.symm.trans hAddress)
        exact hSuits

/-- A fragment in the final layout. -/
structure PlacedFragment (fragments : List (Fragment ρ))
    (labelBindings : List (Option Nat)) (codeAddress : MachineAddress)
    (fragment placed : Fragment ρ) : Prop where
  bytes : placed.bytes = fragment.bytes
  relocations : placed.relocations = fragment.relocations
  plain : fragment.relaxation = none → placed.relaxation = none
  branch : ∀ relaxation, fragment.relaxation = some relaxation →
    ∃ selected, placed.relaxation = some selected ∧
      Chosen fragments labelBindings codeAddress fragment placed.finalStart
        relaxation selected

theorem PlacedFragment.finalSize_le {fragment placed : Fragment ρ}
    (h : PlacedFragment fragments labelBindings codeAddress fragment placed) :
    placed.finalSize ≤ fragment.pessimisticSize := by
  rw [Fragment.finalSize, Fragment.pessimisticSize, h.bytes]
  refine Nat.add_le_add_left ?_ _
  cases hRelaxation : fragment.relaxation with
  | none =>
      rw [h.plain hRelaxation]
      exact Nat.le_refl 0
  | some relaxation =>
      obtain ⟨selected, hSelected, hChosen⟩ := h.branch relaxation hRelaxation
      rw [hSelected]
      exact hChosen.size_le

theorem PlacedFragment.dvd_finalSize {fragment placed : Fragment ρ}
    (h : PlacedFragment fragments labelBindings codeAddress fragment placed)
    (hWhole : 4 ∣ fragment.bytes.length) : 4 ∣ placed.finalSize := by
  rw [Fragment.finalSize, h.bytes]
  refine Nat.dvd_add hWhole ?_
  cases hRelaxation : fragment.relaxation with
  | none =>
      rw [h.plain hRelaxation]
      exact Nat.dvd_zero 4
  | some relaxation =>
      obtain ⟨selected, hSelected, hChosen⟩ := h.branch relaxation hRelaxation
      rw [hSelected]
      exact hChosen.aligned

/-- A fragment in front of placed ones. -/
theorem starts_cons {cursor : Nat} {head : Fragment ρ}
    {placed : List (Fragment ρ)} (hHead : head.finalStart = cursor)
    (hRest : ∀ i (fragment : Fragment ρ), placed[i]? = some fragment →
      fragment.finalStart = cursor + head.finalSize +
        place (placed.map Fragment.finalSize) i) :
    ∀ i (fragment : Fragment ρ), (head :: placed)[i]? = some fragment →
      fragment.finalStart =
        cursor + place ((head :: placed).map Fragment.finalSize) i := by
  intro i fragment hFragment
  cases i with
  | zero =>
      obtain rfl := Option.some.inj hFragment
      exact hHead
  | succ i =>
      rw [hRest i fragment hFragment, List.map_cons, place_cons_succ,
        Nat.add_assoc]

/-- The loop places every fragment and selects every form. -/
theorem selectLoop_spec (h : Layable fragments labelBindings codeAddress)
    {rest : List (Fragment ρ)} : ∀ {k cursor : Nat},
      fragments.drop k = rest →
      cursor ≤ place (fragments.map Fragment.pessimisticSize) k →
      ∃ placed, MachineCodeEmitter.selectLoop fragments labelBindings
          codeAddress cursor rest =
          some (placed, cursor + (placed.map Fragment.finalSize).sum) ∧
        List.Forall₂ (PlacedFragment fragments labelBindings codeAddress) rest
          placed ∧
        ∀ i (fragment : Fragment ρ), placed[i]? = some fragment →
          fragment.finalStart =
            cursor + place (placed.map Fragment.finalSize) i := by
  induction rest with
  | nil => exact fun _ _ => ⟨[], rfl, .nil, nofun⟩
  | cons fragment rest ih =>
      intro k cursor hDrop hCursor
      have hFragment : fragments[k]? = some fragment := by
        rw [← List.head?_drop, hDrop]
        rfl
      have hRest : fragments.drop (k + 1) = rest := by
        rw [← List.tail_drop, hDrop]
        rfl
      obtain ⟨hk, hAt⟩ := List.getElem?_eq_some_iff.mp hFragment
      have hNext := place_succ (show
        k < (fragments.map Fragment.pessimisticSize).length by
          rw [List.length_map]
          exact hk)
      rw [List.getElem_map, hAt] at hNext
      have hSum :=
        place_le_sum (fragments.map Fragment.pessimisticSize) (k + 1)
      have hSpace := h.space
      have hBytes : fragment.bytes.length ≤ fragment.pessimisticSize :=
        Nat.le_add_right _ _
      rw [MachineCodeEmitter.selectLoop,
        bind_of_eq_some (addSizes_eq (by omega))]
      cases hRelaxation : fragment.relaxation with
      | none =>
          obtain ⟨placed, hLoop, hAll, hStarts⟩ := @ih (k + 1)
            (cursor + fragment.bytes.length) hRest (by omega)
          have hSize : Fragment.finalSize
              { fragment with finalStart := cursor } =
              fragment.bytes.length := by
            rw [Fragment.finalSize, hRelaxation]
            rfl
          refine ⟨{ fragment with finalStart := cursor } :: placed, ?_,
            .cons ⟨rfl, rfl, fun hNone => hNone, ?_⟩ hAll,
            starts_cons rfl (hSize ▸ hStarts)⟩
          · refine (bind_of_eq_some hLoop _).trans ?_
            rw [List.map_cons, List.sum_cons, hSize, ← Nat.add_assoc,
              ← hRelaxation]
            rfl
          · intro relaxation hSome
            rw [hRelaxation] at hSome
            cases hSome
      | some relaxation =>
          have hStart : cursor ≤ fragment.pessimisticStart :=
            (h.start k fragment hFragment) ▸ hCursor
          obtain ⟨selected, hSelect, hChosen, hMinimum⟩ :=
            selectIn_spec h hFragment hRelaxation hStart
          have hMaximum := hChosen.size_le
          have hReserved : fragment.pessimisticSize =
              fragment.bytes.length + relaxation.maxSize := by
            rw [Fragment.pessimisticSize, hRelaxation]
            rfl
          have hSame : selected.maxSize = relaxation.maxSize := by
            rw [AArch64Relaxation.maxSize, hChosen.kind]
            rfl
          obtain ⟨placed, hLoop, hAll, hStarts⟩ := @ih (k + 1)
            (cursor + fragment.bytes.length + selected.selectedSize) hRest
            (by omega)
          have hSize : cursor + Fragment.finalSize { fragment with
              finalStart := cursor
              relaxation := some selected } =
              cursor + fragment.bytes.length + selected.selectedSize :=
            (Nat.add_assoc ..).symm
          refine ⟨{ fragment with
              finalStart := cursor
              relaxation := some selected } :: placed, ?_,
            .cons ⟨rfl, rfl, ?_, ?_⟩ hAll, starts_cons rfl ?_⟩
          · refine (bind_of_eq_some hSelect _).trans ?_
            refine (check_bind hMinimum _).trans ?_
            refine (check_bind (hSame ▸ hMaximum) _).trans ?_
            refine (bind_of_eq_some (addSizes_eq (by omega)) _).trans ?_
            refine (bind_of_eq_some hLoop _).trans ?_
            rw [List.map_cons, List.sum_cons, ← Nat.add_assoc, hSize]
            rfl
          · intro hNone
            rw [hRelaxation] at hNone
            cases hNone
          · intro relaxation' hSome
            obtain rfl := Option.some.inj (hRelaxation.symm.trans hSome)
            exact ⟨selected, rfl, hChosen⟩
          · rw [hSize]
            exact hStarts

/-! ## Reaching the target in the final layout -/

/-- The final layout of a unit. -/
structure LaidOut (fragments : List (Fragment ρ))
    (labelBindings : List (Option Nat)) (codeAddress : MachineAddress)
    (placed : List (Fragment ρ)) : Prop where
  all : List.Forall₂ (PlacedFragment fragments labelBindings codeAddress)
    fragments placed
  start : ∀ i (fragment : Fragment ρ), placed[i]? = some fragment →
    fragment.finalStart = place (placed.map Fragment.finalSize) i

theorem selectRelaxations_spec
    (h : Layable fragments labelBindings codeAddress) :
    ∃ placed, MachineCodeEmitter.selectRelaxations fragments labelBindings
        codeAddress =
        some (placed, (placed.map Fragment.finalSize).sum) ∧
      LaidOut fragments labelBindings codeAddress placed := by
  obtain ⟨placed, hLoop, hAll, hStarts⟩ :=
    selectLoop_spec h (List.drop_zero (l := fragments)) (Nat.zero_le _)
  refine ⟨placed, ?_, hAll, fun i fragment hFragment => ?_⟩
  · rw [MachineCodeEmitter.selectRelaxations, hLoop, Nat.zero_add]
  · rw [hStarts i fragment hFragment, Nat.zero_add]

theorem LaidOut.sizes_le (hLaid : LaidOut fragments labelBindings codeAddress
      placed) :
    List.Forall₂ (· ≤ ·) (placed.map Fragment.finalSize)
      (fragments.map Fragment.pessimisticSize) := by
  rw [List.forall₂_map_left_iff, List.forall₂_map_right_iff]
  exact hLaid.all.flip.imp fun _ _ hPlaced => hPlaced.finalSize_le

/-- The final layout is not longer than the first. -/
theorem LaidOut.size_le (hLaid : LaidOut fragments labelBindings codeAddress
      placed) :
    (placed.map Fragment.finalSize).sum ≤
      (fragments.map Fragment.pessimisticSize).sum :=
  hLaid.sizes_le.sum_le_sum

/-- The fragment that a placed one was. -/
theorem LaidOut.before (hLaid : LaidOut fragments labelBindings codeAddress
      placed) {k : Nat} {final : Fragment ρ}
    (hFinal : placed[k]? = some final) :
    ∃ fragment, fragments[k]? = some fragment ∧
      PlacedFragment fragments labelBindings codeAddress fragment final := by
  obtain ⟨hk, hAt⟩ := List.getElem?_eq_some_iff.mp hFinal
  have hFirst : k < fragments.length := hLaid.all.length_eq ▸ hk
  refine ⟨fragments[k], List.getElem?_eq_getElem hFirst, ?_⟩
  have hPlaced := hLaid.all.get hFirst hk
  rw [List.get_eq_getElem, List.get_eq_getElem, hAt] at hPlaced
  exact hPlaced

theorem LaidOut.dvd_place (h : Layable fragments labelBindings codeAddress)
    (hLaid : LaidOut fragments labelBindings codeAddress placed) (i : Nat) :
    4 ∣ place (placed.map Fragment.finalSize) i := by
  refine Layout.dvd_place (fun size hSize => ?_) i
  obtain ⟨final, hFinal, rfl⟩ := List.mem_map.mp hSize
  obtain ⟨k, hk⟩ := List.mem_iff_getElem?.mp hFinal
  obtain ⟨fragment, hFragment, hPlaced⟩ := hLaid.before hk
  exact hPlaced.dvd_finalSize
    (h.whole fragment (List.mem_of_getElem? hFragment))

/-- A distance that is shortened still fits. -/
theorem Fits.shorten {bits : Nat} {d d' : Int} (h : Fits bits d)
    (hAligned : 4 ∣ d') (hBetween : (0 ≤ d' ∧ d' ≤ d) ∨ (d ≤ d' ∧ d' ≤ 0)) :
    Fits bits d' := by
  obtain ⟨words, rfl, hLow, hHigh⟩ := h
  obtain ⟨words', rfl⟩ := hAligned
  have hHalf : (0 : Int) < 2 ^ (bits - 1) := by positivity
  exact ⟨words', rfl, by omega, by omega⟩

/-- Where a placed fragment and its branch end. -/
theorem LaidOut.place_succ_eq (hLaid : LaidOut fragments labelBindings
      codeAddress placed) {k : Nat} {final : Fragment ρ}
    (hFinal : placed[k]? = some final) :
    place (placed.map Fragment.finalSize) (k + 1) =
      final.finalStart + final.finalSize := by
  obtain ⟨hk, hAt⟩ := List.getElem?_eq_some_iff.mp hFinal
  have hNext := place_succ (show
    k < (placed.map Fragment.finalSize).length by
      rw [List.length_map]
      exact hk)
  rw [hNext, List.getElem_map, hAt, hLaid.start k final hFinal]

/-- A placed fragment and its branch are in the unit. -/
theorem LaidOut.end_le (hLaid : LaidOut fragments labelBindings codeAddress
      placed) {k : Nat} {final : Fragment ρ} {selected : AArch64Relaxation}
    (hFinal : placed[k]? = some final)
    (hSelected : final.relaxation = some selected) :
    final.finalStart + final.bytes.length + selected.selectedSize ≤
      (placed.map Fragment.finalSize).sum := by
  have hNext := hLaid.place_succ_eq hFinal
  have hEnd := place_le_sum (placed.map Fragment.finalSize) (k + 1)
  have hSize : final.finalSize =
      final.bytes.length + selected.selectedSize := by
    rw [Fragment.finalSize, hSelected]
    rfl
  omega

/-- The distance to a label is not longer than the one the form was selected
for, and in the same direction. -/
theorem LaidOut.distance (h : Layable fragments labelBindings codeAddress)
    (hLaid : LaidOut fragments labelBindings codeAddress placed) {k : Nat}
    {fragment final : Fragment ρ} {relaxation selected : AArch64Relaxation}
    (hFragment : fragments[k]? = some fragment)
    (hFinal : placed[k]? = some final)
    (hBytes : final.bytes = fragment.bytes)
    (hRelaxation : fragment.relaxation = some relaxation)
    (hSelected : final.relaxation = some selected)
    (hSize : selected.selectedSize ≤ relaxation.maxSize) (i : Nat) :
    let d : Int := place (fragments.map Fragment.pessimisticSize) i -
      (fragment.pessimisticStart + fragment.bytes.length : Nat)
    let d' : Int := place (placed.map Fragment.finalSize) i -
      (final.finalStart + final.bytes.length : Nat)
    (0 ≤ d' ∧ d' ≤ d) ∨ (d ≤ d' ∧ d' ≤ 0) := by
  have hFirstStart := h.start k fragment hFragment
  have hFinalStart := hLaid.start k final hFinal
  rw [hBytes]
  dsimp only
  rcases Nat.lt_or_ge k i with hForward | hBackward
  · have hShrink := place_distance_le hLaid.sizes_le (show k + 1 ≤ i from
      hForward)
    have hFirstMono :=
      place_mono (fragments.map Fragment.pessimisticSize)
        (show k + 1 ≤ i from hForward)
    have hFinalMono :=
      place_mono (placed.map Fragment.finalSize) (show k + 1 ≤ i from hForward)
    have hFinalNext := hLaid.place_succ_eq hFinal
    obtain ⟨hk, hAt⟩ := List.getElem?_eq_some_iff.mp hFragment
    have hFirstNext := place_succ (show
      k < (fragments.map Fragment.pessimisticSize).length by
        rw [List.length_map]
        exact hk)
    rw [List.getElem_map, hAt] at hFirstNext
    have hFinalSize : final.finalSize =
        fragment.bytes.length + selected.selectedSize := by
      rw [Fragment.finalSize, hSelected, hBytes]
      rfl
    have hFirstSize : fragment.pessimisticSize =
        fragment.bytes.length + relaxation.maxSize := by
      rw [Fragment.pessimisticSize, hRelaxation]
      rfl
    omega
  · have hShrink := place_distance_le hLaid.sizes_le hBackward
    have hFirstMono :=
      place_mono (fragments.map Fragment.pessimisticSize) hBackward
    have hFinalMono :=
      place_mono (placed.map Fragment.finalSize) hBackward
    omega

/-- A form that suits one distance can be encoded for another one that fits
whatever the first one fits. -/
theorem reaches_of_suits {selected : AArch64Relaxation}
    {source target : MachineAddress} {d d' : Int} (hSuits : selected.Suits d)
    (hTo : (target.bits.toNat : Int) - source.bits.toNat = d')
    (hFits : ∀ bits, Fits bits d → Fits bits d')
    (hFar : ∀ label condition,
      selected = ⟨.conditionalBranch label condition, .far⟩ →
        Fits 26 (d' - 4) ∧ source.bits.toNat + 4 < 2 ^ 64) :
    selected.Reaches source target := by
  subst hTo
  obtain ⟨kind, mode⟩ := selected
  cases mode with
  | unselected => exact hSuits.elim
  | near =>
      cases kind with
      | unconditionalBranch => exact hFits 26 hSuits
      | call => exact hFits 26 hSuits
      | conditionalBranch => exact hFits 19 hSuits
  | far =>
      cases kind with
      | unconditionalBranch => trivial
      | call => trivial
      | conditionalBranch label condition => exact hFar label condition rfl

/-- The address of a label in the final layout. -/
theorem LaidOut.finalLabelAddress_eq
    (h : Layable fragments labelBindings codeAddress)
    (hLaid : LaidOut fragments labelBindings codeAddress placed)
    {label : Label} {i : Nat} (hi : i < fragments.length)
    (hLabel : labelBindings[label.index]? = some (some i)) :
    MachineCodeEmitter.finalLabelAddress placed labelBindings label
        codeAddress =
      some (codeAt codeAddress (place (placed.map Fragment.finalSize) i)) := by
  have hBound : i < placed.length := hLaid.all.length_eq ▸ hi
  have hFinal := List.getElem?_eq_getElem hBound
  have hFound : MachineCodeEmitter.labelFragment placed labelBindings label =
      some placed[i] := by
    rw [MachineCodeEmitter.labelFragment, bind_of_eq_some hLabel]
    exact hFinal
  have hStart := hLaid.start i _ hFinal
  have hSpace := h.space
  have hSize := hLaid.size_le
  have hPlace := place_le_sum (placed.map Fragment.finalSize) i
  rw [MachineCodeEmitter.finalLabelAddress, bind_of_eq_some hFound, hStart]
  exact offsetBy_codeAt (by omega)

/-- The selected form of every branch can be encoded at its final place for
the final address of its target. -/
theorem LaidOut.reaches (h : Layable fragments labelBindings codeAddress)
    (hLaid : LaidOut fragments labelBindings codeAddress placed) {k : Nat}
    {final : Fragment ρ} {selected : AArch64Relaxation}
    (hFinal : placed[k]? = some final)
    (hSelected : final.relaxation = some selected) :
    ∃ target, MachineCodeEmitter.finalTargetAddress placed labelBindings
        codeAddress selected.target = some target ∧
      (codeAt codeAddress (final.finalStart +
        final.bytes.length)).displacementTo target =
          some ((target.bits.toNat : Int) - (codeAt codeAddress
            (final.finalStart + final.bytes.length)).bits.toNat) ∧
      selected.Reaches (codeAt codeAddress
        (final.finalStart + final.bytes.length)) target := by
  obtain ⟨fragment, hFragment, hPlaced⟩ := hLaid.before hFinal
  have hMem := List.mem_of_getElem? hFragment
  obtain ⟨relaxation, hRelaxation⟩ : ∃ relaxation,
      fragment.relaxation = some relaxation := by
    refine Option.ne_none_iff_exists'.mp fun hNone => ?_
    rw [hPlaced.plain hNone] at hSelected
    cases hSelected
  obtain ⟨selected', hSelected', hChosen⟩ := hPlaced.branch _ hRelaxation
  obtain rfl := Option.some.inj (hSelected'.symm.trans hSelected)
  have hTarget : selected'.target = relaxation.target := by
    rw [AArch64Relaxation.target, AArch64Relaxation.target, hChosen.kind]
  have hSpace := h.space
  have hUnit := h.unit
  have hSize := hLaid.size_le
  have hRoom := hLaid.end_le hFinal hSelected
  rw [AArch64Relaxation.maximumUnitSize] at hUnit
  have hSourceAt : (codeAt codeAddress
      (final.finalStart + final.bytes.length)).bits.toNat =
        codeAddress.bits.toNat + (final.finalStart + final.bytes.length) :=
    toNat_codeAt (by omega)
  rw [hTarget]
  cases hKind : relaxation.target with
  | label label =>
      obtain ⟨i, hi, hLabel⟩ :=
        h.label fragment hMem relaxation label hRelaxation hKind
      have hAddress := hLaid.finalLabelAddress_eq h hi hLabel
      have hBetween := hLaid.distance h hFragment hFinal hPlaced.bytes
        hRelaxation hSelected hChosen.size_le i
      have hSuits := hChosen.label label i hKind hLabel
      have hSourceAligned : 4 ∣ final.finalStart + final.bytes.length := by
        rw [hLaid.start k final hFinal, hPlaced.bytes]
        exact Nat.dvd_add (hLaid.dvd_place h k) (h.whole fragment hMem)
      have hAligned := hLaid.dvd_place h i
      have hPlace := place_le_sum (placed.map Fragment.finalSize) i
      dsimp only at hBetween
      generalize place (placed.map Fragment.finalSize) i = a at *
      generalize final.finalStart + final.bytes.length = b at *
      have hTargetAt : (codeAt codeAddress a).bits.toNat =
          codeAddress.bits.toNat + a := toNat_codeAt (by omega)
      refine ⟨_, hAddress, displacementTo_eq rfl (by omega) (by omega), ?_⟩
      refine reaches_of_suits hSuits
        (show _ = (a : Int) - b by rw [hTargetAt, hSourceAt]; omega)
        (fun bits hFits => hFits.shorten (by omega) hBetween) ?_
      rintro label condition rfl
      have hEight : b + 8 ≤ (placed.map Fragment.finalSize).sum := hRoom
      exact ⟨fits_in_unit hAligned hSourceAligned
        (by rw [AArch64Relaxation.maximumUnitSize]; omega)
        (by rw [AArch64Relaxation.maximumUnitSize]; omega), by omega⟩
  | machineAddress address =>
      have hSuits := hChosen.address address hKind
      obtain ⟨hLow, hHigh⟩ := h.address fragment hMem relaxation address
        hRelaxation hKind (final.finalStart + final.bytes.length) (by omega)
      rw [← hPlaced.bytes] at hSuits
      have hTo : (address.bits.toNat : Int) - (codeAt codeAddress
          (final.finalStart + final.bytes.length)).bits.toNat =
          (address.bits.toNat : Int) - (codeAddress.bits.toNat +
            (final.finalStart + final.bytes.length) : Nat) := by
        rw [hSourceAt]
      refine ⟨address, rfl, ?_, reaches_of_suits hSuits hTo
        (fun bits hFits => hFits) ?_⟩
      · rw [hTo]
        exact displacementTo_eq hTo hLow hHigh
      · rintro label condition rfl
        rw [← hTarget] at hKind
        cases hKind

end Selection

end CloverVM.Jit
