import CloverVM.Machine.BranchCode

/-!
# Loads and addresses relative to the program counter

The instructions of a 64-bit ARM machine that reach data from where the code
is: the load of a literal, the address near the program counter, and the
address of a page with the addition or the load that takes the rest of the
address.  They are words of the machine of `BranchCode`, with a decoder of
their own.

The stack pointer is not part of the state: an instruction that names it is
not decoded.
-/

namespace CloverVM.Machine.AddressCode

open CloverVM.Machine.BranchCode

/-- The bytes of a word of 64 bits, the low one first. -/
def longBytes (value : BitVec 64) : List Byte :=
  [value.setWidth 8, (value >>> 8).setWidth 8, (value >>> 16).setWidth 8,
    (value >>> 24).setWidth 8, (value >>> 32).setWidth 8,
    (value >>> 40).setWidth 8, (value >>> 48).setWidth 8,
    (value >>> 56).setWidth 8]

/-- The word of 64 bits at an address. -/
def fetchLong (memory : BitVec 64 → Byte) (address : BitVec 64) : BitVec 64 :=
  memory (address + 7) ++ memory (address + 6) ++ memory (address + 5) ++
    memory (address + 4) ++ memory (address + 3) ++ memory (address + 2) ++
    memory (address + 1) ++ memory address

section Longs

variable {memory : BitVec 64 → Byte} {address value : BitVec 64}

@[simp] theorem length_longBytes (value : BitVec 64) :
    (longBytes value).length = 8 := rfl

/-- The word that memory holds is fetched. -/
theorem fetchLong_of_holds (h : Holds memory address (longBytes value)) :
    fetchLong memory address = value := by
  have h0 := h 0 (by decide : 0 < 8)
  rw [show address + BitVec.ofNat 64 0 = address from BitVec.add_zero _] at h0
  rw [fetchLong, h0,
    show memory (address + 1) = _ from h 1 (by decide : 1 < 8),
    show memory (address + 2) = _ from h 2 (by decide : 2 < 8),
    show memory (address + 3) = _ from h 3 (by decide : 3 < 8),
    show memory (address + 4) = _ from h 4 (by decide : 4 < 8),
    show memory (address + 5) = _ from h 5 (by decide : 5 < 8),
    show memory (address + 6) = _ from h 6 (by decide : 6 < 8),
    show memory (address + 7) = _ from h 7 (by decide : 7 < 8)]
  refine BitVec.eq_of_toNat_eq ?_
  simp only [longBytes, List.getElem_cons_zero, List.getElem_cons_succ,
    toNat_append, BitVec.toNat_setWidth, BitVec.toNat_ushiftRight,
    Nat.shiftRight_eq_div_pow]
  have hValue := value.isLt
  omega

end Longs

section Fields

variable {word word' : Word32} {low length : Nat}

theorem testBit_field (word : Word32) (low length i : Nat) :
    (field word low length).testBit i =
      (decide (i < length) && word.getLsbD (low + i)) := by
  rw [field, Nat.testBit_mod_two_pow, Nat.testBit_div_two_pow, Nat.add_comm i]
  rfl

/-- A field depends on its own bits only. -/
theorem field_congr (h : ∀ i, low ≤ i → i < low + length →
      word.getLsbD i = word'.getLsbD i) :
    field word low length = field word' low length := by
  refine Nat.eq_of_testBit_eq fun i => ?_
  rw [testBit_field, testBit_field]
  by_cases hi : i < length
  · rw [h (low + i) (Nat.le_add_right _ _) (Nat.add_lt_add_left hi _)]
  · rw [decide_eq_false hi, Bool.false_and, Bool.false_and]

/-- A field that another word has been moved into. -/
theorem field_eq_of_shifted {value : Word32}
    (h : ∀ i < length, word.getLsbD (low + i) = value.getLsbD i)
    (hValue : value.toNat < 2 ^ length) :
    field word low length = value.toNat := by
  refine Nat.eq_of_testBit_eq fun i => ?_
  rw [testBit_field]
  by_cases hi : i < length
  · rw [decide_eq_true hi, Bool.true_and, h i hi]
    rfl
  · rw [decide_eq_false hi, Bool.false_and,
      Nat.testBit_lt_two_pow (hValue.trans_le
        (Nat.pow_le_pow_right (by decide) (Nat.not_lt.mp hi)))]

end Fields

/-! ## Instructions -/

/-- Offsets are in bytes; those of a page are in pages. -/
inductive Instruction where
  | ldrLiteral (rt : Nat) (offset : Int)
  | adr (rd : Nat) (offset : Int)
  | adrp (rd : Nat) (pages : Int)
  | addImmediate (rd rn imm : Nat)
  | ldrUnsigned (rt rn offset : Nat)
deriving DecidableEq, Repr

def decode (word : Word32) : Option Instruction :=
  if field word 24 8 = 0b01011000 then
    some (.ldrLiteral (field word 0 5) (signedField 19 (field word 5 19) * 4))
  else if field word 24 5 = 0b10000 then
    let offset := signedField 21 (field word 5 19 * 4 + field word 29 2)
    if field word 31 1 = 0 then some (.adr (field word 0 5) offset)
    else some (.adrp (field word 0 5) offset)
  else if field word 22 10 = 0b1001000100 ∧ field word 0 5 < 31 ∧
      field word 5 5 < 31 then
    some (.addImmediate (field word 0 5) (field word 5 5) (field word 10 12))
  else if field word 22 10 = 0b1111100101 ∧ field word 5 5 < 31 then
    some (.ldrUnsigned (field word 0 5) (field word 5 5)
      (field word 10 12 * 8))
  else none

/-- The address of the page that an address is in. -/
def pageOf (address : BitVec 64) : BitVec 64 :=
  BitVec.ofNat 64 (address.toNat / 2 ^ 12 * 2 ^ 12)

def execute (memory : BitVec 64 → Byte) (s : State) : Instruction → State
  | .ldrLiteral rt offset =>
      (s.write rt (fetchLong memory (s.pc + BitVec.ofInt 64 offset))).next
  | .adr rd offset => (s.write rd (s.pc + BitVec.ofInt 64 offset)).next
  | .adrp rd pages =>
      (s.write rd (pageOf s.pc + BitVec.ofInt 64 (pages * 2 ^ 12))).next
  | .addImmediate rd rn imm =>
      (s.write rd (s.read rn + BitVec.ofNat 64 imm)).next
  | .ldrUnsigned rt rn offset =>
      (s.write rt (fetchLong memory (s.read rn + BitVec.ofNat 64 offset))).next

def run (memory : BitVec 64 → Byte) : Nat → State → Option State :=
  runWith decode (execute memory) memory

section Run

variable {s : State} {r : Nat} {value : BitVec 64}

/-- What is written and then used and overwritten by the next instruction. -/
theorem write_next_write (s : State) (r : Nat) (value value' : BitVec 64) :
    ((s.write r value).next.write r value').next =
      (s.write r value').next.next := by
  rw [State.next, State.next, State.next, State.next, ← goTo_write,
    write_write, pc_write, pc_write]

theorem read_next_write (h : r < 31) :
    (s.write r value).next.read r = value := read_write_self h

end Run

end CloverVM.Machine.AddressCode
