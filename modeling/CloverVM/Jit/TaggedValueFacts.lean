import CloverVM.ObjectModel.Value

/-!
# Facts about tagged values

The low five bits of a value word are its tag.  A guard tests the tag against
a mask; a fact is a set of tags and, where the value is known to be a pointer
to an object whose shape never changes, that shape.  A set is built only with
the invariants that its constructor asserts, so the operations below keep
them.
-/

namespace CloverVM.Jit

open CloverVM.ObjectModel

/-- The tag of a value; masks over it have the width of a tag too. -/
abbrev Tag := BitVec 5

def tagOf (v : Value) : Tag := v.integer.setWidth 5

def valuePtrMask : Tag := 0x18#5

def isPtr (v : Value) : Bool := tagOf v &&& valuePtrMask != 0#5

def valueNone : Tag := 0x01#5
def valueNotPresent : Tag := 0x02#5
def valueException : Tag := 0x03#5
def valueBooleanTag : Tag := 0x04#5
/-- `value_not_implemented` is `0x25`, and `value_ellipsis` is `0x26`. -/
def valueNotImplemented : Tag := 0x05#5
def valueEllipsis : Tag := 0x06#5
def valueInternedPtrTag : Tag := 0x08#5
def valueRefcountedPtrTag : Tag := 0x10#5

/-- The tags that a guard accepts, by a mask. -/
inductive TaggedValueClass where
  | maskedEqual (mask expected : Tag) (hExpected : expected &&& ~~~mask = 0#5)
  | maskedNonZero (mask : Tag)
deriving DecidableEq

def TaggedValueClass.accepts : TaggedValueClass → Tag → Bool
  | .maskedEqual mask expected _, tag => tag &&& mask == expected
  | .maskedNonZero mask, tag => tag &&& mask != 0#5

/-! ## Sets of tags -/

def taggedValueSetBit (tag : Tag) : BitVec 32 := 1#32 <<< tag.toNat

def validTaggedValueSetBits : BitVec 32 :=
  taggedValueSetBit 0#5 ||| taggedValueSetBit valueNone |||
  taggedValueSetBit valueNotPresent ||| taggedValueSetBit valueException |||
  taggedValueSetBit valueBooleanTag |||
  taggedValueSetBit valueNotImplemented |||
  taggedValueSetBit valueEllipsis ||| taggedValueSetBit valueInternedPtrTag |||
  taggedValueSetBit valueRefcountedPtrTag

def pointerTaggedValueSetBits : BitVec 32 :=
  taggedValueSetBit valueInternedPtrTag |||
  taggedValueSetBit valueRefcountedPtrTag

/-- A tag that values have. -/
def ValidTag (tag : Tag) : Prop :=
  validTaggedValueSetBits.getLsbD tag.toNat = true

instance (tag : Tag) : Decidable (ValidTag tag) :=
  inferInstanceAs (Decidable (_ = true))

/-- A word with a tag that values have. -/
structure TaggedValue where
  value : Value
  valid : ValidTag (tagOf value)
deriving DecidableEq

/-- The constructor of a set takes what it asserts as proofs. -/
structure TaggedValueSet (Shape : Type) where
  bits : BitVec 32
  exactShape : Option Shape
  valid : bits &&& ~~~validTaggedValueSetBits = 0#32
  shaped : exactShape ≠ none →
    bits ≠ 0#32 ∧ bits &&& ~~~pointerTaggedValueSetBits = 0#32
deriving DecidableEq

namespace TaggedValueSet

variable {Shape : Type}

theorem eq_of_bits {x y : TaggedValueSet Shape} (hBits : x.bits = y.bits)
    (hShape : x.exactShape = y.exactShape) : x = y := by
  cases x
  cases y
  simp only at hBits hShape
  subst hBits hShape
  rfl

/-- A set of tags without a shape. -/
def ofBits (bits : BitVec 32)
    (h : bits &&& ~~~validTaggedValueSetBits = 0#32) : TaggedValueSet Shape :=
  { bits := bits
    exactShape := none
    valid := h
    shaped := fun hShape => absurd rfl hShape }

def never : TaggedValueSet Shape := ofBits 0#32 (by decide)

def unknown : TaggedValueSet Shape :=
  ofBits validTaggedValueSetBits (by decide)

def pointer : TaggedValueSet Shape :=
  ofBits pointerTaggedValueSetBits (by decide)

def exactShapeOf (shape : Shape) : TaggedValueSet Shape :=
  { bits := pointerTaggedValueSetBits
    exactShape := some shape
    valid := by decide
    shaped := fun _ => by decide }

def fromInlineTag (tag : Tag)
    (h : taggedValueSetBit tag &&& ~~~validTaggedValueSetBits = 0#32) :
    TaggedValueSet Shape :=
  ofBits (taggedValueSetBit tag) h

def smi : TaggedValueSet Shape := fromInlineTag 0#5 (by decide)

def boolean : TaggedValueSet Shape := fromInlineTag valueBooleanTag (by decide)

/-- The loop over the tags that a class may accept. -/
def acceptedBits (valueClass : TaggedValueClass) : BitVec 32 :=
  (List.range 32).foldl (fun accepted tag =>
    if validTaggedValueSetBits.getLsbD tag = false then accepted
    else if valueClass.accepts (BitVec.ofNat 5 tag) then
      accepted ||| taggedValueSetBit (BitVec.ofNat 5 tag)
    else accepted) 0#32

/-- A class that tests the whole tag accepts its one tag, if values have it. -/
def classBits : TaggedValueClass → BitVec 32
  | .maskedEqual mask expected h =>
      if mask = 0x1f#5 then
        taggedValueSetBit expected &&& validTaggedValueSetBits
      else acceptedBits (.maskedEqual mask expected h)
  | .maskedNonZero mask => acceptedBits (.maskedNonZero mask)

/-! ## The bits of a set -/

theorem and_not_eq_zero_iff {w : Nat} (x y : BitVec w) :
    x &&& ~~~y = 0#w ↔ ∀ i, x.getLsbD i = true → y.getLsbD i = true := by
  constructor
  · intro h i hx
    have hBit := congrArg (fun z : BitVec w => z.getLsbD i) h
    have hi : i < w := BitVec.lt_of_getLsbD hx
    simpa [BitVec.getLsbD_and, BitVec.getLsbD_not, hx, hi] using hBit
  · intro h
    apply BitVec.eq_of_getLsbD_eq
    intro i hi
    rw [BitVec.getLsbD_and, BitVec.getLsbD_not, BitVec.getLsbD_zero]
    cases hx : x.getLsbD i with
    | false => rfl
    | true => simp [h i hx]

theorem and_eq_zero_iff {w : Nat} (x y : BitVec w) :
    x &&& y = 0#w ↔ ∀ i, x.getLsbD i = true → y.getLsbD i = false := by
  have hNot := and_not_eq_zero_iff x (~~~y)
  rw [BitVec.not_not] at hNot
  rw [hNot]
  refine forall_congr' fun i => ?_
  constructor
  · intro h hx
    have hNotBit := h hx
    rw [BitVec.getLsbD_not, Bool.and_eq_true, Bool.not_eq_true'] at hNotBit
    exact hNotBit.2
  · intro h hx
    rw [BitVec.getLsbD_not, h hx, decide_eq_true (BitVec.lt_of_getLsbD hx)]
    rfl

theorem getLsbD_taggedValueSetBit (tag : Tag) (i : Nat) :
    (taggedValueSetBit tag).getLsbD i = decide (i = tag.toNat) := by
  have hTag := tag.isLt
  rw [taggedValueSetBit, BitVec.getLsbD_shiftLeft, BitVec.getLsbD_one]
  by_cases hi : i = tag.toNat
  · subst hi
    simp
    omega
  · simp only [hi, decide_false]
    by_cases hLess : i < tag.toNat
    · simp [hLess]
    · have hDifference : i - tag.toNat ≠ 0 := by omega
      simp [hDifference]

/-- The loop adds the tags that it passes and that the class accepts. -/
theorem getLsbD_acceptedBits_loop (valueClass : TaggedValueClass) (i : Nat) :
    ∀ (tags : List Nat) (accepted : BitVec 32), (∀ tag ∈ tags, tag < 32) →
      (tags.foldl (fun accepted tag =>
        if validTaggedValueSetBits.getLsbD tag = false then accepted
        else if valueClass.accepts (BitVec.ofNat 5 tag) then
          accepted ||| taggedValueSetBit (BitVec.ofNat 5 tag)
        else accepted) accepted).getLsbD i =
      (accepted.getLsbD i || (decide (i ∈ tags) &&
        (validTaggedValueSetBits.getLsbD i &&
          valueClass.accepts (BitVec.ofNat 5 i)))) := by
  intro tags
  induction tags with
  | nil => simp
  | cons tag tags ih =>
      intro accepted hTags
      have hTag : tag < 32 := hTags tag List.mem_cons_self
      have hToNat : (BitVec.ofNat 5 tag).toNat = tag := by
        rw [BitVec.toNat_ofNat]
        omega
      rw [List.foldl_cons,
        ih _ fun next hNext => hTags next (List.mem_cons_of_mem _ hNext)]
      by_cases hi : i = tag
      · subst hi
        cases hValid : validTaggedValueSetBits.getLsbD i <;>
          cases hAccepts : valueClass.accepts (BitVec.ofNat 5 i) <;>
          simp [getLsbD_taggedValueSetBit, hToNat]
      · have hBit : (taggedValueSetBit (BitVec.ofNat 5 tag)).getLsbD i =
            false := by
          rw [getLsbD_taggedValueSetBit, hToNat, decide_eq_false hi]
        split
        · simp [hi]
        · split
          · simp [hi, hBit]
          · simp [hi]

theorem getLsbD_acceptedBits (valueClass : TaggedValueClass) (tag : Tag) :
    (acceptedBits valueClass).getLsbD tag.toNat =
      (validTaggedValueSetBits.getLsbD tag.toNat &&
        valueClass.accepts tag) := by
  rw [acceptedBits, getLsbD_acceptedBits_loop _ _ _ _
    fun tag hTag => List.mem_range.mp hTag]
  have hMem : tag.toNat ∈ List.range 32 := List.mem_range.mpr tag.isLt
  simp [hMem]

/-- The bits of a class are the tags of values that it accepts. -/
theorem getLsbD_classBits (valueClass : TaggedValueClass) (tag : Tag) :
    (classBits valueClass).getLsbD tag.toNat =
      (validTaggedValueSetBits.getLsbD tag.toNat &&
        valueClass.accepts tag) := by
  cases valueClass with
  | maskedNonZero mask => exact getLsbD_acceptedBits _ tag
  | maskedEqual mask expected h =>
      rw [classBits]
      split
      · rename_i hMask
        subst hMask
        have hAccepts : (TaggedValueClass.maskedEqual 0x1f#5 expected
            h).accepts tag = decide (tag.toNat = expected.toNat) := by
          have hAll : tag &&& 0x1f#5 = tag := BitVec.and_allOnes
          rw [TaggedValueClass.accepts, hAll]
          exact decide_eq_decide.mpr BitVec.toNat_inj.symm
        rw [BitVec.getLsbD_and, getLsbD_taggedValueSetBit, hAccepts,
          Bool.and_comm]
      · exact getLsbD_acceptedBits _ tag

theorem classBits_valid (valueClass : TaggedValueClass) :
    classBits valueClass &&& ~~~validTaggedValueSetBits = 0#32 := by
  refine (and_not_eq_zero_iff _ _).mpr fun i hBit => ?_
  have hi : i < 32 := BitVec.lt_of_getLsbD hBit
  have hTag : (BitVec.ofNat 5 i).toNat = i := by
    rw [BitVec.toNat_ofNat]
    omega
  rw [← hTag, getLsbD_classBits, Bool.and_eq_true, hTag] at hBit
  exact hBit.1

def fromClass (valueClass : TaggedValueClass) : TaggedValueSet Shape :=
  ofBits (classBits valueClass) (classBits_valid valueClass)

/-! ## The operations -/

def isNever (x : TaggedValueSet Shape) : Bool := x.bits == 0#32

theorem exactShape_of_isNever {x : TaggedValueSet Shape}
    (h : x.bits = 0#32) : x.exactShape = none := by
  by_contra hShape
  exact (x.shaped hShape).1 h

theorem and_left_subset {w : Nat} {x z : BitVec w} (y : BitVec w)
    (h : x &&& ~~~z = 0#w) : x &&& y &&& ~~~z = 0#w := by
  rw [and_not_eq_zero_iff] at h ⊢
  intro i hi
  rw [BitVec.getLsbD_and, Bool.and_eq_true] at hi
  exact h i hi.1

theorem or_subset {w : Nat} {x y z : BitVec w} (hx : x &&& ~~~z = 0#w)
    (hy : y &&& ~~~z = 0#w) : (x ||| y) &&& ~~~z = 0#w := by
  rw [and_not_eq_zero_iff] at hx hy ⊢
  intro i hi
  rw [BitVec.getLsbD_or, Bool.or_eq_true] at hi
  rcases hi with hLeft | hRight
  · exact hx i hLeft
  · exact hy i hRight

section Operations

variable [DecidableEq Shape]

def isSubsetOf (x other : TaggedValueSet Shape) : Bool :=
  x.isNever || (x.bits &&& ~~~other.bits == 0#32 &&
    (other.exactShape.isNone || x.exactShape == other.exactShape))

def isDisjointFrom (x other : TaggedValueSet Shape) : Bool :=
  x.bits &&& other.bits == 0#32 ||
    (x.exactShape.isSome && other.exactShape.isSome &&
      x.exactShape != other.exactShape)

/-- The values of both sets. -/
def intersect (x other : TaggedValueSet Shape) : TaggedValueSet Shape :=
  if h : x.isDisjointFrom other then never
  else
    { bits := x.bits &&& other.bits
      exactShape := if x.exactShape.isSome then x.exactShape
        else other.exactShape
      valid := and_left_subset _ x.valid
      shaped := by
        intro hShape
        simp only [isDisjointFrom, Bool.or_eq_true, beq_iff_eq, not_or] at h
        refine ⟨h.1, ?_⟩
        by_cases hx : x.exactShape.isSome
        · have hSome : x.exactShape ≠ none := by
            rw [← Option.isSome_iff_ne_none]
            exact hx
          exact and_left_subset _ (x.shaped hSome).2
        · rw [if_neg hx] at hShape
          rw [BitVec.and_comm x.bits]
          exact and_left_subset _ (other.shaped hShape).2 }

/-- The values of either set. -/
def merge (x other : TaggedValueSet Shape) : TaggedValueSet Shape :=
  if hx : x.isNever then other
  else if other.isNever then x
  else
    { bits := x.bits ||| other.bits
      exactShape := if x.exactShape = other.exactShape then x.exactShape
        else none
      valid := or_subset x.valid other.valid
      shaped := by
        intro hShape
        split at hShape
        · rename_i hEq
          refine ⟨?_, or_subset (x.shaped hShape).2
            (other.shaped (hEq ▸ hShape)).2⟩
          intro hZero
          rw [BitVec.or_eq_zero_iff] at hZero
          exact (x.shaped hShape).1 hZero.1
        · exact absurd rfl hShape }

/-! ## The order -/

instance : LE (TaggedValueSet Shape) := ⟨fun x y => x.isSubsetOf y = true⟩

theorem le_iff (x y : TaggedValueSet Shape) :
    x ≤ y ↔ x.bits = 0#32 ∨
      (∀ i, x.bits.getLsbD i = true → y.bits.getLsbD i = true) ∧
        (y.exactShape = none ∨ x.exactShape = y.exactShape) := by
  show x.isSubsetOf y = true ↔ _
  simp only [isSubsetOf, isNever, Bool.or_eq_true, Bool.and_eq_true,
    beq_iff_eq, Option.isNone_iff_eq_none, and_not_eq_zero_iff]

theorem le_refl (x : TaggedValueSet Shape) : x ≤ x :=
  (le_iff x x).mpr (Or.inr ⟨fun _ h => h, Or.inr rfl⟩)

/-- Only the empty set is below the empty set. -/
theorem bits_eq_zero_of_le {x y : TaggedValueSet Shape} (h : x ≤ y)
    (hy : y.bits = 0#32) : x.bits = 0#32 := by
  rcases (le_iff x y).mp h with hZero | ⟨hBits, -⟩
  · exact hZero
  · have hNot := (and_not_eq_zero_iff x.bits y.bits).mpr hBits
    rw [hy, BitVec.not_zero, BitVec.and_allOnes] at hNot
    exact hNot

theorem le_trans {x y z : TaggedValueSet Shape} (hxy : x ≤ y) (hyz : y ≤ z) :
    x ≤ z := by
  rcases (le_iff y z).mp hyz with hZero | ⟨hyzBits, hyzShape⟩
  · exact (le_iff x z).mpr (Or.inl (bits_eq_zero_of_le hxy hZero))
  rcases (le_iff x y).mp hxy with hZero | ⟨hxyBits, hxyShape⟩
  · exact (le_iff x z).mpr (Or.inl hZero)
  refine (le_iff x z).mpr (Or.inr ⟨fun i h => hyzBits i (hxyBits i h), ?_⟩)
  rcases hyzShape with hNone | hEq
  · exact Or.inl hNone
  rcases hxyShape with hNone | hEq'
  · exact Or.inl (hEq ▸ hNone)
  · exact Or.inr (hEq'.trans hEq)

theorem le_antisymm {x y : TaggedValueSet Shape} (hxy : x ≤ y) (hyx : y ≤ x) :
    x = y := by
  by_cases hZero : x.bits = 0#32
  · have hy := bits_eq_zero_of_le hyx hZero
    refine eq_of_bits (hZero.trans hy.symm) ?_
    rw [exactShape_of_isNever hZero, exactShape_of_isNever hy]
  have hyZero : ¬ y.bits = 0#32 := mt (bits_eq_zero_of_le hxy) hZero
  obtain ⟨hxyBits, hxyShape⟩ := ((le_iff x y).mp hxy).resolve_left hZero
  obtain ⟨hyxBits, hyxShape⟩ := ((le_iff y x).mp hyx).resolve_left hyZero
  refine eq_of_bits (BitVec.eq_of_getLsbD_eq fun i _ => ?_) ?_
  · exact Bool.eq_iff_iff.mpr ⟨hxyBits i, hyxBits i⟩
  · rcases hxyShape with hNone | hEq
    · rcases hyxShape with hNone' | hEq'
      · exact hNone'.trans hNone.symm
      · exact hEq'.symm
    · exact hEq

theorem merge_of_ne {x y : TaggedValueSet Shape} (hx : ¬ x.bits = 0#32)
    (hy : ¬ y.bits = 0#32) :
    (x.merge y).bits = x.bits ||| y.bits ∧ (x.merge y).exactShape =
      if x.exactShape = y.exactShape then x.exactShape else none := by
  rw [merge, dif_neg (by simpa [isNever] using hx),
    if_neg (by simpa [isNever] using hy)]
  exact ⟨rfl, rfl⟩

theorem merge_left {x y : TaggedValueSet Shape} (hx : x.bits = 0#32) :
    x.merge y = y := by
  rw [merge, dif_pos (by simpa [isNever] using hx)]

theorem merge_right {x y : TaggedValueSet Shape} (hx : ¬ x.bits = 0#32)
    (hy : y.bits = 0#32) : x.merge y = x := by
  rw [merge, dif_neg (by simpa [isNever] using hx),
    if_pos (by simpa [isNever] using hy)]

theorem le_merge_left (x y : TaggedValueSet Shape) : x ≤ x.merge y := by
  by_cases hx : x.bits = 0#32
  · exact (le_iff _ _).mpr (Or.inl hx)
  by_cases hy : y.bits = 0#32
  · rw [merge_right hx hy]
    exact le_refl x
  obtain ⟨hBits, hShape⟩ := merge_of_ne hx hy
  refine (le_iff _ _).mpr (Or.inr ⟨fun i h => ?_, ?_⟩)
  · rw [hBits, BitVec.getLsbD_or, h, Bool.true_or]
  · rw [hShape]
    split
    · exact Or.inr rfl
    · exact Or.inl rfl

theorem le_merge_right (x y : TaggedValueSet Shape) : y ≤ x.merge y := by
  by_cases hy : y.bits = 0#32
  · exact (le_iff _ _).mpr (Or.inl hy)
  by_cases hx : x.bits = 0#32
  · rw [merge_left hx]
    exact le_refl y
  obtain ⟨hBits, hShape⟩ := merge_of_ne hx hy
  refine (le_iff _ _).mpr (Or.inr ⟨fun i h => ?_, ?_⟩)
  · rw [hBits, BitVec.getLsbD_or, h, Bool.or_true]
  · rw [hShape]
    split
    · rename_i hEq
      exact Or.inr hEq.symm
    · exact Or.inl rfl

theorem merge_le {x y z : TaggedValueSet Shape} (hx : x ≤ z) (hy : y ≤ z) :
    x.merge y ≤ z := by
  by_cases hxZero : x.bits = 0#32
  · rw [merge_left hxZero]
    exact hy
  by_cases hyZero : y.bits = 0#32
  · rw [merge_right hxZero hyZero]
    exact hx
  obtain ⟨hxBits, hxShape⟩ := ((le_iff x z).mp hx).resolve_left hxZero
  obtain ⟨hyBits, hyShape⟩ := ((le_iff y z).mp hy).resolve_left hyZero
  obtain ⟨hBits, hShape⟩ := merge_of_ne hxZero hyZero
  refine (le_iff _ _).mpr (Or.inr ⟨fun i h => ?_, ?_⟩)
  · rw [hBits, BitVec.getLsbD_or, Bool.or_eq_true] at h
    exact h.elim (hxBits i) (hyBits i)
  · rcases hxShape with hNone | hxEq
    · exact Or.inl hNone
    rcases hyShape with hNone | hyEq
    · exact Or.inl hNone
    · rw [hShape, if_pos (hxEq.trans hyEq.symm)]
      exact Or.inr hxEq

instance instSemilatticeSup : SemilatticeSup (TaggedValueSet Shape) where
  le_refl := le_refl
  le_trans _ _ _ := le_trans
  le_antisymm _ _ := le_antisymm
  sup := merge
  le_sup_left := le_merge_left
  le_sup_right := le_merge_right
  sup_le _ _ _ := merge_le

end Operations

/-! ## The height of the order -/

/-- The tags of a set, as numbers. -/
def tags (x : TaggedValueSet Shape) : Finset Nat :=
  (Finset.range 32).filter fun i => x.bits.getLsbD i = true

/-- Twice the number of tags, less one where there is a shape as well. -/
def rank (x : TaggedValueSet Shape) : Nat :=
  2 * x.tags.card - if x.exactShape.isSome then 1 else 0

def maximalRank : Nat := 64

theorem rank_le (x : TaggedValueSet Shape) : x.rank ≤ maximalRank := by
  have hCard := Finset.card_filter_le (Finset.range 32)
    fun i => x.bits.getLsbD i = true
  rw [Finset.card_range] at hCard
  rw [rank, maximalRank, tags]
  omega

theorem mem_tags (x : TaggedValueSet Shape) (i : Nat) :
    i ∈ x.tags ↔ x.bits.getLsbD i = true := by
  rw [tags, Finset.mem_filter, Finset.mem_range]
  exact ⟨fun h => h.2, fun h => ⟨BitVec.lt_of_getLsbD h, h⟩⟩

theorem bits_eq_of_tags {x y : TaggedValueSet Shape} (h : x.tags = y.tags) :
    x.bits = y.bits := by
  refine BitVec.eq_of_getLsbD_eq fun i _ => Bool.eq_iff_iff.mpr ?_
  rw [← mem_tags, ← mem_tags, h]

theorem card_tags_pos {x : TaggedValueSet Shape} (h : ¬ x.bits = 0#32) :
    0 < x.tags.card := by
  rw [Finset.card_pos, Finset.nonempty_iff_ne_empty]
  intro hEmpty
  have hNever : (never : TaggedValueSet Shape).tags = ∅ := by
    refine Finset.eq_empty_of_forall_notMem fun i hi => ?_
    have hBit := (mem_tags never i).mp hi
    rw [show (never : TaggedValueSet Shape).bits = 0#32 from rfl,
      BitVec.getLsbD_zero] at hBit
    cases hBit
  exact h (bits_eq_of_tags (hEmpty.trans hNever.symm))

/-- A set that rises has a greater rank. -/
theorem rank_lt [DecidableEq Shape] {x y : TaggedValueSet Shape} (h : x ≤ y)
    (hne : x ≠ y) : x.rank < y.rank := by
  by_cases hx : x.bits = 0#32
  · have hy : ¬ y.bits = 0#32 := by
      intro hy
      refine hne (eq_of_bits (hx.trans hy.symm) ?_)
      rw [exactShape_of_isNever hx, exactShape_of_isNever hy]
    have hPos := card_tags_pos hy
    have hZero : x.rank = 0 := by
      rw [rank, tags, hx]
      simp
    rw [hZero, rank]
    split
    · omega
    · omega
  · obtain ⟨hBits, hShape⟩ := ((le_iff x y).mp h).resolve_left hx
    have hSubset : x.tags ⊆ y.tags := fun i hi =>
      (mem_tags y i).mpr (hBits i ((mem_tags x i).mp hi))
    have hPos := card_tags_pos hx
    by_cases hEq : x.tags = y.tags
    · have hyShape : y.exactShape = none := hShape.resolve_right
        fun hShapeEq => hne (eq_of_bits (bits_eq_of_tags hEq) hShapeEq)
      have hxShape : x.exactShape.isSome = true := by
        rw [Option.isSome_iff_ne_none]
        intro hxShape
        exact hne (eq_of_bits (bits_eq_of_tags hEq)
          (hxShape.trans hyShape.symm))
      rw [rank, rank, ← hEq, hyShape, hxShape, if_pos rfl]
      simp only [Option.isSome_none, Bool.false_eq_true, if_false]
      omega
    · have hLess := Finset.card_lt_card
        (Finset.ssubset_iff_subset_ne.mpr ⟨hSubset, hEq⟩)
      rw [rank, rank]
      split
      · split
        · omega
        · omega
      · split
        · omega
        · omega

/-! ## The values of a set -/

/-- A value with the tag, and of the shape where it is an object. -/
def Contains (x : TaggedValueSet Shape) (tag : Tag) (shape : Shape) : Prop :=
  x.bits.getLsbD tag.toNat = true ∧
    ∀ exact, x.exactShape = some exact → shape = exact

variable {tag : Tag} {shape : Shape}

theorem taggedValueSetBit_valid (hTag : ValidTag tag) :
    taggedValueSetBit tag &&& ~~~validTaggedValueSetBits = 0#32 := by
  refine (and_not_eq_zero_iff _ _).mpr fun i hBit => ?_
  rw [getLsbD_taggedValueSetBit, decide_eq_true_iff] at hBit
  rw [hBit]
  exact hTag

theorem contains_unknown (hTag : ValidTag tag) :
    (unknown : TaggedValueSet Shape).Contains tag shape :=
  ⟨hTag, fun _ hExact => by cases hExact⟩

theorem contains_fromInlineTag
    (h : taggedValueSetBit tag &&& ~~~validTaggedValueSetBits = 0#32) :
    (fromInlineTag tag h : TaggedValueSet Shape).Contains tag shape := by
  refine ⟨?_, fun _ hExact => by cases hExact⟩
  show (taggedValueSetBit tag).getLsbD tag.toNat = true
  rw [getLsbD_taggedValueSetBit, decide_eq_true rfl]

/-- The set of a class has the values that the guard accepts. -/
theorem contains_fromClass_iff (hTag : ValidTag tag)
    (valueClass : TaggedValueClass) :
    (fromClass valueClass : TaggedValueSet Shape).Contains tag shape ↔
      valueClass.accepts tag = true := by
  have hBits : (fromClass valueClass : TaggedValueSet Shape).bits.getLsbD
      tag.toNat = valueClass.accepts tag := by
    show (classBits valueClass).getLsbD tag.toNat = _
    rw [getLsbD_classBits, hTag, Bool.true_and]
  constructor
  · intro h
    exact hBits.symm.trans h.1
  · intro h
    exact ⟨hBits.trans h, fun _ hExact => by cases hExact⟩

/-- Among the tags of values those of pointers have a bit of the mask. -/
theorem getLsbD_pointerTaggedValueSetBits :
    ∀ tag : Tag, ValidTag tag →
      pointerTaggedValueSetBits.getLsbD tag.toNat =
        (tag &&& valuePtrMask != 0#5) := by
  decide

theorem contains_exactShapeOf (hTag : ValidTag tag)
    (hPtr : (tag &&& valuePtrMask != 0#5) = true) :
    (exactShapeOf shape).Contains tag shape := by
  refine ⟨?_, fun exact hExact => Option.some.inj hExact⟩
  show pointerTaggedValueSetBits.getLsbD tag.toNat = true
  rw [getLsbD_pointerTaggedValueSetBits tag hTag, hPtr]

theorem contains_pointer_iff (hTag : ValidTag tag) :
    (pointer : TaggedValueSet Shape).Contains tag shape ↔
      (tag &&& valuePtrMask != 0#5) = true := by
  rw [← getLsbD_pointerTaggedValueSetBits tag hTag]
  constructor
  · exact fun h => h.1
  · exact fun h => ⟨h, fun _ hExact => by cases hExact⟩

variable [DecidableEq Shape]

theorem Contains.mono {x y : TaggedValueSet Shape} (h : x.Contains tag shape)
    (hLe : x ≤ y) : y.Contains tag shape := by
  have hne : ¬ x.bits = 0#32 := by
    intro hZero
    have hBit := h.1
    rw [hZero, BitVec.getLsbD_zero] at hBit
    cases hBit
  obtain ⟨hBits, hShape⟩ := ((le_iff x y).mp hLe).resolve_left hne
  refine ⟨hBits _ h.1, fun exact hExact => ?_⟩
  rcases hShape with hNone | hEq
  · rw [hNone] at hExact
    cases hExact
  · exact h.2 exact (hEq.trans hExact)

/-- A value of both sets is in their intersection. -/
theorem Contains.intersect {x y : TaggedValueSet Shape}
    (hx : x.Contains tag shape) (hy : y.Contains tag shape) :
    (x.intersect y).Contains tag shape := by
  have hDisjoint : ¬ x.isDisjointFrom y = true := by
    simp only [isDisjointFrom, Bool.or_eq_true, beq_iff_eq, not_or]
    refine ⟨?_, ?_⟩
    · intro hZero
      have hBit := (and_eq_zero_iff _ _).mp hZero _ hx.1
      rw [hy.1] at hBit
      cases hBit
    · cases hxShape : x.exactShape with
      | none => simp
      | some exact =>
          cases hyShape : y.exactShape with
          | none => simp
          | some exact' =>
              have hEq := (hx.2 _ hxShape).symm.trans (hy.2 _ hyShape)
              simp [hEq]
  rw [TaggedValueSet.intersect, dif_neg hDisjoint]
  refine ⟨?_, fun exact hExact => ?_⟩
  · rw [BitVec.getLsbD_and, hx.1, hy.1]
    rfl
  · simp only at hExact
    split at hExact
    · exact hx.2 exact hExact
    · exact hy.2 exact hExact

end TaggedValueSet

end CloverVM.Jit
