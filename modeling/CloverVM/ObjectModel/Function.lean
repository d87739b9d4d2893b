import Mathlib

/-!
# Functions and their signatures

A function is a code object with the values of its defaults.  The defaults
fill a span of parameter slots that may contain slots without one; a mask says
which slots of the span have a default.
-/

namespace CloverVM.ObjectModel

structure FunctionSignature where
  nParameters : Nat
  nPositionalParameters : Nat
  nPosonlyParameters : Nat
  nPosOrKwParameters : Nat
  nKwonlyParameters : Nat
  firstDefaultSlot : Nat := 0
  defaultPresenceMask : BitVec 64 := 0
  hasRequiredKeywordOnlyParameters : Bool := false
  hasVarargs : Bool := false
  hasKwargs : Bool := false
deriving DecidableEq, Repr

/-- The names a keyword may bind, with their parameter indexes. -/
abbrev FunctionKeywordRemap := List (String × Nat)

structure CodeObject where
  functionSignature : FunctionSignature
  functionKeywordRemap : FunctionKeywordRemap
deriving DecidableEq, Repr

structure Function (V : Type) where
  codeObject : CodeObject
  defaultParameters : Option (List V) := none

namespace FunctionSignature

/-- `Function::default_span_size`: the shifts until the mask is zero. -/
def defaultSpanSize (signature : FunctionSignature) : Nat :=
  signature.defaultPresenceMask.toNat.size

/-- `Function::has_default_for_parameter`. -/
def hasDefaultForParameter (signature : FunctionSignature)
    (parameterIdx : Nat) : Bool :=
  if signature.defaultPresenceMask = 0 ∨
      parameterIdx < signature.firstDefaultSlot then false
  else
    let defaultIdx := parameterIdx - signature.firstDefaultSlot
    if defaultIdx ≥ 64 then false
    else
      decide (signature.defaultPresenceMask &&& (1#64 <<< defaultIdx) ≠ 0)

theorem and_one_shiftLeft_ne_zero_iff (x : BitVec 64) {i : Nat} (h : i < 64) :
    x &&& (1#64 <<< i) ≠ 0 ↔ x.getLsbD i = true := by
  have hBit : ∀ j, (x &&& (1#64 <<< i)).getLsbD j =
      (x.getLsbD i && decide (j = i)) := by
    intro j
    rw [BitVec.getLsbD_and, ← BitVec.twoPow_eq, BitVec.getLsbD_twoPow]
    by_cases hj : j = i
    · subst hj
      simp [h]
    · simp [hj, Ne.symm hj]
  constructor
  · intro hne
    by_contra hx
    refine hne (BitVec.eq_of_getLsbD_eq fun j _ => ?_)
    rw [hBit, Bool.eq_false_iff.mpr hx, Bool.false_and]
    exact BitVec.getLsbD_zero.symm
  · intro hx hzero
    have hi := hBit i
    rw [hzero, hx] at hi
    simp at hi

theorem hasDefaultForParameter_iff (signature : FunctionSignature)
    (parameterIdx : Nat) :
    signature.hasDefaultForParameter parameterIdx = true ↔
      signature.firstDefaultSlot ≤ parameterIdx ∧
        signature.defaultPresenceMask.getLsbD
          (parameterIdx - signature.firstDefaultSlot) = true := by
  rw [hasDefaultForParameter]
  split
  · rename_i h
    refine iff_of_false Bool.false_ne_true ?_
    rintro ⟨hFirst, hBit⟩
    rcases h with hZero | hBefore
    · rw [hZero] at hBit
      exact absurd hBit (by simp)
    · omega
  · rename_i h
    rw [not_or, Nat.not_lt] at h
    simp only
    split
    · rename_i hFar
      refine iff_of_false Bool.false_ne_true ?_
      rintro ⟨-, hBit⟩
      rw [BitVec.getLsbD_of_ge _ _ hFar] at hBit
      exact Bool.false_ne_true hBit
    · rename_i hNear
      rw [decide_eq_true_iff, and_one_shiftLeft_ne_zero_iff _ (by omega)]
      exact ⟨fun hBit => ⟨h.2, hBit⟩, fun hBit => hBit.2⟩

/-- Every slot with a default lies in the span. -/
theorem lt_defaultSpanSize {signature : FunctionSignature} {i : Nat}
    (h : signature.defaultPresenceMask.getLsbD i = true) :
    i < signature.defaultSpanSize := by
  rw [defaultSpanSize, Nat.lt_size]
  exact Nat.ge_two_pow_of_testBit h

/-- A mask whose last default is at `n` spans `n + 1` slots. -/
theorem defaultSpanSize_eq {signature : FunctionSignature} {n : Nat}
    (hLast : signature.defaultPresenceMask.getLsbD n = true)
    (hAbove : ∀ i, n < i → signature.defaultPresenceMask.getLsbD i = false) :
    signature.defaultSpanSize = n + 1 := by
  have hLower := lt_defaultSpanSize hLast
  refine le_antisymm ?_ hLower
  rw [defaultSpanSize, Nat.size_le]
  refine Nat.lt_pow_two_of_testBit _ fun i hi => ?_
  exact hAbove i hi

/-- The last slot of a span has a default. -/
theorem getLsbD_defaultSpanSize_sub_one {signature : FunctionSignature}
    (h : signature.defaultSpanSize ≠ 0) :
    signature.defaultPresenceMask.getLsbD
      (signature.defaultSpanSize - 1) = true := by
  by_contra hBit
  have hFits : signature.defaultPresenceMask.toNat <
      2 ^ (signature.defaultSpanSize - 1) := by
    refine Nat.lt_pow_two_of_testBit _ fun j hj => ?_
    rcases Nat.lt_or_ge (signature.defaultSpanSize - 1) j with hGt | hLe
    · refine Bool.eq_false_iff.mpr fun hSet => ?_
      have := lt_defaultSpanSize hSet
      omega
    · rw [Nat.le_antisymm hLe hj]
      exact Bool.eq_false_iff.mpr hBit
  have hSize := Nat.size_le.mpr hFits
  rw [← defaultSpanSize] at hSize
  omega

theorem defaultSpanSize_le (signature : FunctionSignature) :
    signature.defaultSpanSize ≤ 64 := by
  rw [defaultSpanSize, Nat.size_le]
  exact signature.defaultPresenceMask.isLt

theorem defaultSpanSize_eq_zero_iff (signature : FunctionSignature) :
    signature.defaultSpanSize = 0 ↔ signature.defaultPresenceMask = 0 := by
  rw [defaultSpanSize, Nat.size_eq_zero, ← BitVec.toNat_inj]
  rfl

end FunctionSignature

/-! ## Arity -/

namespace Function

variable {V : Type}

def signature (function : Function V) : FunctionSignature :=
  function.codeObject.functionSignature

/-- `min_arity_for_code`: one more than the last positional parameter without
a default. -/
def minPositionalArity (function : Function V) : Nat :=
  match function.defaultParameters with
  | none => function.signature.nPositionalParameters
  | some _ =>
      (List.range function.signature.nPositionalParameters).foldl
        (fun minArity parameterIdx =>
          if function.signature.hasDefaultForParameter parameterIdx then
            minArity
          else parameterIdx + 1) 0

/-- `Function::VarArgs`, the arity of a function without an upper bound. -/
def varArgs : Nat := 2 ^ 32 - 1

/-- `max_arity_for_code`. -/
def maxPositionalArity (function : Function V) : Nat :=
  if function.signature.hasVarargs then varArgs
  else function.signature.nPositionalParameters

def acceptsArity (function : Function V) (nArgs : Nat) : Bool :=
  decide (function.minPositionalArity ≤ nArgs ∧
    nArgs ≤ function.maxPositionalArity)

def acceptsPositionalOnlyCallArity (function : Function V) (nArgs : Nat) :
    Bool :=
  function.acceptsArity nArgs &&
    !function.signature.hasRequiredKeywordOnlyParameters

/-- One more than the last index that fails a test is within a bound when
every index from the bound on passes it. -/
theorem foldl_lastFailing_le_iff (test : Nat → Bool) (n bound : Nat) :
    (List.range n).foldl (fun last i => if test i then last else i + 1) 0 ≤
        bound ↔
      ∀ i, i < n → bound ≤ i → test i = true := by
  induction n with
  | zero => simp
  | succ n ih =>
      rw [List.range_succ, List.foldl_append, List.foldl_cons,
        List.foldl_nil]
      cases hTest : test n with
      | true =>
          simp only [if_true, ih]
          constructor
          · intro h i hi hBound
            rcases Nat.lt_succ_iff_lt_or_eq.mp hi with hLt | rfl
            · exact h i hLt hBound
            · exact hTest
          · intro h i hi hBound
            exact h i (by omega) hBound
      | false =>
          simp only [Bool.false_eq_true, if_false]
          constructor
          · intro h i hi hBound
            omega
          · intro h
            by_contra hBound
            have hPass := h n (Nat.lt_succ_self n) (by omega)
            rw [hTest] at hPass
            exact Bool.false_ne_true hPass

theorem minPositionalArity_le_iff (function : Function V)
    (hNone : function.defaultParameters = none →
      function.signature.defaultPresenceMask = 0) (nArgs : Nat) :
    function.minPositionalArity ≤ nArgs ↔
      ∀ i, i < function.signature.nPositionalParameters → nArgs ≤ i →
        function.signature.hasDefaultForParameter i = true := by
  rw [minPositionalArity]
  cases hDefaults : function.defaultParameters with
  | some defaults => exact foldl_lastFailing_le_iff _ _ _
  | none =>
      have hNoDefault : ∀ i,
          function.signature.hasDefaultForParameter i = false := by
        intro i
        simp only [FunctionSignature.hasDefaultForParameter,
          hNone hDefaults, true_or, if_true]
      simp only
      constructor
      · intro h i hi hBound
        omega
      · intro h
        by_contra hBound
        have hPass := h nArgs (by omega) (Nat.le_refl _)
        rw [hNoDefault] at hPass
        exact Bool.false_ne_true hPass

theorem acceptsPositionalOnlyCallArity_iff (function : Function V)
    (hNone : function.defaultParameters = none →
      function.signature.defaultPresenceMask = 0) {nArgs : Nat}
    (hArgs : nArgs < 2 ^ 32) :
    function.acceptsPositionalOnlyCallArity nArgs = true ↔
      (∀ i, i < function.signature.nPositionalParameters → nArgs ≤ i →
        function.signature.hasDefaultForParameter i = true) ∧
      (nArgs ≤ function.signature.nPositionalParameters ∨
        function.signature.hasVarargs = true) ∧
      function.signature.hasRequiredKeywordOnlyParameters = false := by
  have hMax : nArgs ≤ function.maxPositionalArity ↔
      nArgs ≤ function.signature.nPositionalParameters ∨
        function.signature.hasVarargs = true := by
    rw [maxPositionalArity, varArgs]
    cases function.signature.hasVarargs with
    | true =>
        simp only [if_true, or_true, iff_true]
        omega
    | false => simp
  rw [acceptsPositionalOnlyCallArity, acceptsArity, Bool.and_eq_true,
    decide_eq_true_iff, Bool.not_eq_true', hMax,
    minPositionalArity_le_iff function hNone, and_assoc]

end Function

end CloverVM.ObjectModel
