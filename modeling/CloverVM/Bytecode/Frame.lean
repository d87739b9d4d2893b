import Mathlib

/-!
# Frames and register encoding

A frame is addressed relative to its frame pointer: parameters lie above the
four-slot header, locals and temporaries below it.  Instructions name slots by
signed bytes, `encodeReg`, with parameter `0` at the top.
-/

namespace CloverVM.Bytecode.Frame

def frameHeaderPreviousFpOffset : Int := 0
def frameHeaderReturnCodeObjectOffset : Int := 2
def frameHeaderReturnPcOffset : Int := 3
def frameHeaderSizeAboveFp : Int := 4
def frameHeaderSize : Nat := 4

/-- `(value + 1) & ~1`. -/
def roundUpToAbiAlignment (value : Nat) : Nat := (value + 1) / 2 * 2

theorem le_roundUpToAbiAlignment (value : Nat) :
    value ≤ roundUpToAbiAlignment value := by
  rw [roundUpToAbiAlignment]
  omega

theorem roundUpToAbiAlignment_le {value bound : Nat} (h : value ≤ bound)
    (hEven : bound % 2 = 0) : roundUpToAbiAlignment value ≤ bound := by
  rw [roundUpToAbiAlignment]
  omega

/-- `CodeObject::encode_reg`: the offset of a register, cut to a signed
byte. -/
def encodeReg (paddedParameters reg : Nat) : Int :=
  (BitVec.ofInt 8
    (paddedParameters - 1 + frameHeaderSizeAboveFp - reg)).toInt

/-- The offset a register has before it is cut to a byte. -/
def registerOffset (paddedParameters reg : Nat) : Int :=
  paddedParameters - 1 + frameHeaderSizeAboveFp - reg

theorem encodeReg_eq {paddedParameters reg : Nat}
    (hLow : -128 ≤ registerOffset paddedParameters reg)
    (hHigh : registerOffset paddedParameters reg ≤ 127) :
    encodeReg paddedParameters reg = registerOffset paddedParameters reg := by
  rw [encodeReg, ← registerOffset, BitVec.toInt_ofInt]
  exact Int.bmod_eq_of_le (by omega) (by omega)

/-- `is_call_frame_aligned_register`. -/
def isCallFrameAlignedRegister (paddedParameters firstArgReg : Nat) : Bool :=
  decide ((encodeReg paddedParameters firstArgReg + 1 -
    frameHeaderSizeAboveFp) % 2 = 0)

/-- The register `reserve_registers` gives to a call frame from a register
on. -/
def callFrameReg (paddedParameters reg : Nat) : Nat :=
  if isCallFrameAlignedRegister paddedParameters reg then reg else reg + 1

/-- The stack, by offset from a frame pointer. -/
abbrev Slots (V : Type) := Int → V

/-- What a frame header holds besides the compiled return address. -/
structure FrameHeader (V : Type) where
  previousFp : V
  returnCodeObject : V
  returnPc : V

variable {V : Type}

def store (slots : Slots V) (slot : Int) (v : V) : Slots V :=
  fun s => if s = slot then v else slots s

@[simp] theorem store_self (slots : Slots V) (slot : Int) (v : V) :
    store slots slot v slot = v := if_pos rfl

theorem store_of_ne {slots : Slots V} {slot s : Int} {v : V} (h : s ≠ slot) :
    store slots slot v s = slots s := if_neg h

/-- `initialize_frame_header`. -/
def initializeFrameHeader (slots : Slots V) (newFp : Int)
    (header : FrameHeader V) : Slots V :=
  store
    (store
      (store slots (newFp + frameHeaderPreviousFpOffset) header.previousFp)
      (newFp + frameHeaderReturnCodeObjectOffset) header.returnCodeObject)
    (newFp + frameHeaderReturnPcOffset) header.returnPc

/-- The header lies below the parameters. -/
theorem initializeFrameHeader_of_le {slots : Slots V} {newFp s : Int}
    {header : FrameHeader V} (h : newFp + frameHeaderSizeAboveFp ≤ s) :
    initializeFrameHeader slots newFp header s = slots s := by
  simp only [frameHeaderSizeAboveFp] at h
  rw [initializeFrameHeader, frameHeaderReturnPcOffset,
    frameHeaderReturnCodeObjectOffset, frameHeaderPreviousFpOffset,
    store_of_ne (by omega), store_of_ne (by omega), store_of_ne (by omega)]

/-- `new_frame_pointer_from_first_arg`, relative to the caller's frame. -/
def newFramePointerFromFirstArg (paddedParameters : Nat)
    (firstArgReg : Int) : Int :=
  firstArgReg - paddedParameters + 1 - frameHeaderSizeAboveFp

/-- The slot of a parameter of the frame entered at `firstArgReg`, as the code
of that frame addresses it. -/
def parameterSlot (nParameters : Nat) (firstArgReg : Int) (i : Nat) : Int :=
  newFramePointerFromFirstArg (roundUpToAbiAlignment nParameters) firstArgReg +
    encodeReg (roundUpToAbiAlignment nParameters) i

/-- Up to 124 parameters every one of them has an offset that fits. -/
theorem parameterSlot_eq {nParameters i : Nat} (firstArgReg : Int)
    (h : nParameters ≤ 124) (hi : i < nParameters) :
    parameterSlot nParameters firstArgReg i = firstArgReg - i := by
  have hPadded := roundUpToAbiAlignment_le h (by decide)
  have hLe := le_roundUpToAbiAlignment nParameters
  rw [parameterSlot, encodeReg_eq, newFramePointerFromFirstArg, registerOffset]
  · omega
  · simp only [registerOffset, frameHeaderSizeAboveFp]
    omega
  · simp only [registerOffset, frameHeaderSizeAboveFp]
    omega

theorem newFramePointer_add_le {nParameters i : Nat} (firstArgReg : Int)
    (hi : i < nParameters) :
    newFramePointerFromFirstArg (roundUpToAbiAlignment nParameters)
        firstArgReg + frameHeaderSizeAboveFp ≤ firstArgReg - i := by
  have hLe := le_roundUpToAbiAlignment nParameters
  rw [newFramePointerFromFirstArg]
  omega

end CloverVM.Bytecode.Frame
