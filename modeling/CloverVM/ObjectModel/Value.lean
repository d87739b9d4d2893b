import CloverVM.Machine.Fixnum

/-!
# Tagged values

The interpreter's 64-bit `Value` word.  The low five bits are a tag; a zero
tag marks a small integer (SMI) whose payload is the upper 59 bits.  The
constants and predicates follow `object_model/value.h`; words are bit
vectors, so signed overflow wraps as it does on the supported targets.

The fixnum library supplies the arithmetic of SMI words.  `ofInt` is the
canonical word of an integer in the SMI range and `smi` its inverse.
-/

namespace CloverVM.ObjectModel

open CloverVM.Machine

/-- The number of tag bits of a value word. -/
def valueTagBits : Nat := 5

/-- The tag bits, all of which are zero in an SMI. -/
def valueNotSmiMask : BitVec 64 := 0x1f#64

def valueBooleanTag : BitVec 64 := 0x04#64

/-- All bits but the tag of the booleans, so that `True` is as `1`. -/
def valueBooleanToIntegerMask : BitVec 64 := ~~~valueBooleanTag

/-- The least SMI, `-2 ^ 58`. -/
def valueSmiMin : Int := -2 ^ 58

/-- The greatest SMI, `2 ^ 58 - 1`. -/
def valueSmiMax : Int := 2 ^ 58 - 1

/-- A tagged value word. -/
structure Value where
  integer : BitVec 64
deriving DecidableEq, Repr

namespace Value

/-- The SMI word of a 64-bit integer; the top five bits are lost. -/
def fromSmi (v : BitVec 64) : Value := ⟨v <<< valueTagBits⟩

def isSmi (v : Value) : Bool := v.integer &&& valueNotSmiMask == 0#64

/-- The payload of an SMI, by an arithmetic shift. -/
def getSmi (v : Value) : BitVec 64 := v.integer.sshiftRight valueTagBits

def isSmi8 (v : Value) : Bool :=
  v.isSmi && (decide (-128 ≤ v.getSmi.toInt) && decide (v.getSmi.toInt ≤ 127))

def none : Value := ⟨0x1#64⟩
def notPresent : Value := ⟨0x2#64⟩

/-- The canonical word of an integer. -/
def ofInt (a : Int) : Value := fromSmi (BitVec.ofInt 64 a)

/-- The integer of an SMI word. -/
def smi (v : Value) : Int := v.getSmi.toInt

end Value

/-- The integer is in the SMI range. -/
def SmiRange (a : Int) : Prop := valueSmiMin ≤ a ∧ a ≤ valueSmiMax

instance (a : Int) : Decidable (SmiRange a) :=
  inferInstanceAs (Decidable (_ ∧ _))

/-! ## SMI words as fixnums -/

theorem fits_iff_smiRange (a : Int) :
    Fixnum.Fits 64 valueTagBits a ↔ SmiRange a := by
  simp only [Fixnum.Fits, SmiRange, valueTagBits, valueSmiMin, valueSmiMax]
  constructor
  · rintro ⟨hLow, hHigh⟩
    constructor <;> omega
  · rintro ⟨hLow, hHigh⟩
    constructor <;> omega

theorem ofInt_integer (a : Int) :
    (Value.ofInt a).integer = Fixnum.encode 64 valueTagBits a := rfl

theorem tagMask_eq_valueNotSmiMask :
    Fixnum.tagMask 64 valueTagBits = valueNotSmiMask := rfl

@[simp] theorem smi_ofInt {a : Int} (h : SmiRange a) :
    (Value.ofInt a).smi = a :=
  Fixnum.decode_encode (by decide) ((fits_iff_smiRange a).mpr h)

@[simp] theorem isSmi_ofInt (a : Int) : (Value.ofInt a).isSmi = true := by
  rw [Value.isSmi, ofInt_integer, ← tagMask_eq_valueNotSmiMask,
    Fixnum.encode_and_tagMask]
  rfl

/-- The payload of any word is in the SMI range. -/
theorem smiRange_smi (v : Value) : SmiRange v.smi := by
  have hLow := BitVec.le_toInt v.integer
  have hHigh := BitVec.toInt_lt (x := v.integer)
  rw [Value.smi, Value.getSmi, BitVec.toInt_sshiftRight,
    Int.shiftRight_eq_div_pow]
  simp only [SmiRange, valueSmiMin, valueSmiMax, valueTagBits]
  constructor
  · omega
  · omega

/-- An SMI word is the canonical word of its payload. -/
theorem ofInt_smi {v : Value} (h : v.isSmi = true) :
    Value.ofInt v.smi = v := by
  have hTag : v.integer &&& valueNotSmiMask = 0#64 := by
    simpa [Value.isSmi] using h
  have hMod : v.integer.toInt % 2 ^ 5 = 0 := by
    have hNat : v.integer.toNat % 2 ^ 5 = 0 := by
      have hAnd := congrArg BitVec.toNat hTag
      rw [BitVec.toNat_and] at hAnd
      have hMask : valueNotSmiMask.toNat = 2 ^ 5 - 1 := rfl
      rw [hMask, Nat.and_two_pow_sub_one_eq_mod] at hAnd
      exact hAnd
    rw [BitVec.toInt_eq_toNat_cond]
    split
    · omega
    · omega
  have hWord : v.integer = BitVec.ofInt 64 v.integer.toInt := by simp
  have hInteger : (Value.ofInt v.smi).integer = v.integer := by
    rw [ofInt_integer, Fixnum.encode_eq_ofInt, Value.smi, Value.getSmi,
      BitVec.toInt_sshiftRight, Int.shiftRight_eq_div_pow]
    conv_rhs => rw [hWord]
    congr 1
    simp only [valueTagBits]
    omega
  cases v
  exact congrArg Value.mk hInteger

/-- The 64-bit payload of an SMI is its integer. -/
theorem ofInt_toInt_of_smiRange {a : Int} (h : SmiRange a) :
    (BitVec.ofInt 64 a).toInt = a := by
  simp only [SmiRange, valueSmiMin, valueSmiMax] at h
  exact BitVec.toInt_ofInt_eq_self (by decide) (by omega) (by omega)

theorem getSmi_ofInt {a : Int} (h : SmiRange a) :
    (Value.ofInt a).getSmi = BitVec.ofInt 64 a := by
  apply BitVec.eq_of_toInt_eq
  rw [ofInt_toInt_of_smiRange h]
  exact smi_ofInt h

/-- Two integers have one word when they agree modulo the payload. -/
theorem ofInt_eq_ofInt_iff (x y : Int) :
    Value.ofInt x = Value.ofInt y ↔ x % 2 ^ 59 = y % 2 ^ 59 := by
  have hInteger : Value.ofInt x = Value.ofInt y ↔
      (Value.ofInt x).integer = (Value.ofInt y).integer := by
    constructor
    · exact congrArg Value.integer
    · exact congrArg Value.mk
  rw [hInteger, ofInt_integer, ofInt_integer, Fixnum.encode_eq_ofInt,
    Fixnum.encode_eq_ofInt, ← BitVec.toNat_inj, BitVec.toNat_ofInt,
    BitVec.toNat_ofInt]
  simp only [valueTagBits]
  omega

end CloverVM.ObjectModel
