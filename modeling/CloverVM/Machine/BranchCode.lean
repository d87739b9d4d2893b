import Mathlib.Data.Nat.Bitwise
import Mathlib.Tactic.IntervalCases

/-!
# Branch instructions of a 64-bit ARM machine

The instructions that direct branches are made of: the near branches with
their immediates, the wide moves that build a full address, and the branches
through a register.  An instruction is a word of 32 bits, kept in memory with
its low byte first; `decode` reads its fields at the places the architecture
gives them, and `step` executes the instruction at the program counter.

Words are written in memory by `wordBytes` and read back by `fetch`, and
`run` takes as many steps as it is told to.
-/

namespace CloverVM.Machine.BranchCode

abbrev Byte := BitVec 8

abbrev Word32 := BitVec 32

/-! ## Words in memory -/

/-- The bytes of a word, the low one first. -/
def wordBytes (word : Word32) : List Byte :=
  [word.setWidth 8, (word >>> 8).setWidth 8, (word >>> 16).setWidth 8,
    (word >>> 24).setWidth 8]

/-- The bytes of the words, one after the other. -/
def codeBytes (words : List Word32) : List Byte := words.flatMap wordBytes

/-- The memory has these bytes from an address on. -/
def Holds (memory : BitVec 64 → Byte) (address : BitVec 64)
    (bytes : List Byte) : Prop :=
  ∀ (i : Nat) (h : i < bytes.length),
    memory (address + BitVec.ofNat 64 i) = bytes[i]

/-- The word at an address. -/
def fetch (memory : BitVec 64 → Byte) (address : BitVec 64) : Word32 :=
  memory (address + 3) ++ memory (address + 2) ++ memory (address + 1) ++
    memory address

section Memory

variable {memory : BitVec 64 → Byte} {address : BitVec 64} {n m : Nat}
variable {before after bytes : List Byte} {word : Word32} {words : List Word32}

@[simp] theorem length_wordBytes (word : Word32) :
    (wordBytes word).length = 4 := rfl

@[simp] theorem codeBytes_nil : codeBytes [] = [] := rfl

@[simp] theorem codeBytes_cons (word : Word32) (words : List Word32) :
    codeBytes (word :: words) = wordBytes word ++ codeBytes words := rfl

theorem length_codeBytes (words : List Word32) :
    (codeBytes words).length = 4 * words.length := by
  induction words with
  | nil => rfl
  | cons word words ih =>
      rw [codeBytes_cons, List.length_append, ih, length_wordBytes,
        List.length_cons]
      omega

/-- What follows is held behind what comes first. -/
theorem Holds.right (h : Holds memory address (before ++ after)) :
    Holds memory (address + BitVec.ofNat 64 before.length) after := by
  intro i hi
  have hBound : before.length + i < (before ++ after).length := by
    rw [List.length_append]
    omega
  have hByte := h (before.length + i) hBound
  rw [List.getElem_append_right (Nat.le_add_right _ _)] at hByte
  simp only [Nat.add_sub_cancel_left] at hByte
  rw [← hByte, BitVec.add_assoc, BitVec.ofNat_add]

theorem Holds.left (h : Holds memory address (before ++ after)) :
    Holds memory address before := by
  intro i hi
  have hBound : i < (before ++ after).length := by
    rw [List.length_append]
    omega
  rw [h i hBound, List.getElem_append_left hi]

theorem toNat_append (x : BitVec n) (y : BitVec m) :
    (x ++ y).toNat = x.toNat * 2 ^ m + y.toNat := by
  rw [BitVec.toNat_append, ← Nat.shiftLeft_add_eq_or_of_lt y.isLt,
    Nat.shiftLeft_eq]

/-- The word that memory holds is fetched. -/
theorem fetch_of_holds (h : Holds memory address (wordBytes word)) :
    fetch memory address = word := by
  have h0 := h 0 (by decide : 0 < 4)
  have h1 := h 1 (by decide : 1 < 4)
  have h2 := h 2 (by decide : 2 < 4)
  have h3 := h 3 (by decide : 3 < 4)
  rw [show address + BitVec.ofNat 64 0 = address from BitVec.add_zero _] at h0
  rw [fetch, h0, show memory (address + 1) = _ from h1,
    show memory (address + 2) = _ from h2,
    show memory (address + 3) = _ from h3]
  refine BitVec.eq_of_toNat_eq ?_
  simp only [wordBytes, List.getElem_cons_zero, List.getElem_cons_succ,
    toNat_append, BitVec.toNat_setWidth, BitVec.toNat_ushiftRight,
    Nat.shiftRight_eq_div_pow]
  have hWord := word.isLt
  omega

end Memory

/-- The number in the `length` bits of a word from bit `low` on. -/
def field (word : Word32) (low length : Nat) : Nat :=
  word.toNat / 2 ^ low % 2 ^ length

/-- A number of `bits` bits, read in two's complement. -/
def signedField (bits n : Nat) : Int :=
  if n < 2 ^ (bits - 1) then n else n - 2 ^ bits

/-- Fields that do not overlap add up. -/
theorem field_or {width : Nat} {high low : BitVec width} {i : Nat}
    (hHigh : 2 ^ i ∣ high.toNat) (hLow : low.toNat < 2 ^ i) :
    (high ||| low).toNat = high.toNat + low.toNat := by
  obtain ⟨k, hk⟩ := hHigh
  rw [BitVec.toNat_or, hk, Nat.two_pow_add_eq_or_of_lt hLow]

/-- The condition flags: negative, zero, carry and overflow. -/
structure Flags where
  n : Bool
  z : Bool
  c : Bool
  v : Bool
deriving DecidableEq, Repr

/-- The condition numbers come in pairs; the low bit negates. -/
def Flags.holds (flags : Flags) (condition : Nat) : Bool :=
  let base := match condition / 2 with
    | 0 => flags.z
    | 1 => flags.c
    | 2 => flags.n
    | 3 => flags.v
    | 4 => flags.c && !flags.z
    | 5 => flags.n == flags.v
    | 6 => flags.n == flags.v && !flags.z
    | _ => true
  if condition % 2 = 1 ∧ condition ≠ 15 then !base else base

/-- Offsets are in bytes, from the instruction's own address. -/
inductive Instruction where
  | b (offset : Int)
  | bl (offset : Int)
  | bCond (condition : Nat) (offset : Int)
  | movz (rd hw imm : Nat)
  | movk (rd hw imm : Nat)
  | br (rn : Nat)
  | blr (rn : Nat)
deriving DecidableEq, Repr

def decode (word : Word32) : Option Instruction :=
  if field word 26 6 = 0b000101 then
    some (.b (signedField 26 (field word 0 26) * 4))
  else if field word 26 6 = 0b100101 then
    some (.bl (signedField 26 (field word 0 26) * 4))
  else if field word 24 8 = 0b01010100 ∧ field word 4 1 = 0 then
    some (.bCond (field word 0 4) (signedField 19 (field word 5 19) * 4))
  else if field word 23 9 = 0b110100101 then
    some (.movz (field word 0 5) (field word 21 2) (field word 5 16))
  else if field word 23 9 = 0b111100101 then
    some (.movk (field word 0 5) (field word 21 2) (field word 5 16))
  else if field word 10 22 = 0b1101011000011111000000 ∧
      field word 0 5 = 0 then
    some (.br (field word 5 5))
  else if field word 10 22 = 0b1101011000111111000000 ∧
      field word 0 5 = 0 then
    some (.blr (field word 5 5))
  else none

/-! ## Execution -/

structure State where
  pc : BitVec 64
  x : Fin 31 → BitVec 64
  flags : Flags

namespace State

/-- Register 31 reads as zero. -/
def read (s : State) (r : Nat) : BitVec 64 :=
  if h : r < 31 then s.x ⟨r, h⟩ else 0

/-- What is written to register 31 is lost. -/
def write (s : State) (r : Nat) (value : BitVec 64) : State :=
  if h : r < 31 then { s with x := Function.update s.x ⟨r, h⟩ value } else s

def goTo (s : State) (pc : BitVec 64) : State := { s with pc }

/-- To the instruction behind this one. -/
def next (s : State) : State := s.goTo (s.pc + 4)

end State

/-- The value with its `hw`-th halfword replaced. -/
def replaceHalfword (value : BitVec 64) (hw imm : Nat) : BitVec 64 :=
  BitVec.ofNat 64 (value.toNat / 2 ^ (16 * (hw + 1)) * 2 ^ (16 * (hw + 1)) +
    imm * 2 ^ (16 * hw) + value.toNat % 2 ^ (16 * hw))

def execute (s : State) : Instruction → State
  | .b offset => s.goTo (s.pc + BitVec.ofInt 64 offset)
  | .bl offset =>
      (s.write 30 (s.pc + 4)).goTo (s.pc + BitVec.ofInt 64 offset)
  | .bCond condition offset =>
      if s.flags.holds condition then s.goTo (s.pc + BitVec.ofInt 64 offset)
      else s.next
  | .movz rd hw imm =>
      (s.write rd (BitVec.ofNat 64 (imm * 2 ^ (16 * hw)))).next
  | .movk rd hw imm =>
      (s.write rd (replaceHalfword (s.read rd) hw imm)).next
  | .br rn => s.goTo (s.read rn)
  | .blr rn => (s.write 30 (s.pc + 4)).goTo (s.read rn)

section Machine

variable {I : Type} (decode : Word32 → Option I) (execute : State → I → State)
variable (memory : BitVec 64 → Byte)

/-- Fetch, decode and execute, for any set of instructions. -/
def stepWith (s : State) : Option State :=
  (decode (fetch memory s.pc)).map (execute s)

def runWith : Nat → State → Option State
  | 0, s => some s
  | n + 1, s => (stepWith decode execute memory s).bind (runWith n)

variable {decode execute memory} {s s' : State} {word : Word32} {i : I}

/-- An instruction in memory is executed. -/
theorem stepWith_of_fetch (h : fetch memory s.pc = word)
    (hDecode : decode word = some i) :
    stepWith decode execute memory s = some (execute s i) := by
  rw [stepWith, h, hDecode]
  rfl

theorem runWith_succ (h : stepWith decode execute memory s = some s')
    (n : Nat) :
    runWith decode execute memory (n + 1) s =
      runWith decode execute memory n s' := by
  rw [runWith, h]
  rfl

theorem runWith_one (h : stepWith decode execute memory s = some s') :
    runWith decode execute memory 1 s = some s' := runWith_succ h 0

end Machine

def run (memory : BitVec 64 → Byte) : Nat → State → Option State :=
  runWith decode execute memory

section Run

variable {memory : BitVec 64 → Byte} {s : State} {r : Nat}
variable {value : BitVec 64}

@[simp] theorem pc_goTo (s : State) (pc : BitVec 64) : (s.goTo pc).pc = pc :=
  rfl

@[simp] theorem x_goTo (s : State) (pc : BitVec 64) : (s.goTo pc).x = s.x :=
  rfl

@[simp] theorem flags_goTo (s : State) (pc : BitVec 64) :
    (s.goTo pc).flags = s.flags := rfl

@[simp] theorem pc_write (s : State) (r : Nat) (value : BitVec 64) :
    (s.write r value).pc = s.pc := by
  unfold State.write
  split <;> rfl

@[simp] theorem flags_write (s : State) (r : Nat) (value : BitVec 64) :
    (s.write r value).flags = s.flags := by
  unfold State.write
  split <;> rfl

theorem x_write_self (h : r < 31) : (s.write r value).x ⟨r, h⟩ = value := by
  rw [State.write, dif_pos h]
  exact Function.update_self ..

/-- The other registers are as before. -/
theorem x_write_ne {other : Fin 31} (h : other.val ≠ r) :
    (s.write r value).x other = s.x other := by
  unfold State.write
  split
  · exact Function.update_of_ne (fun hEq => h (congrArg Fin.val hEq)) ..
  · rfl

theorem read_write_self (h : r < 31) : (s.write r value).read r = value := by
  rw [State.read, dif_pos h, x_write_self h]

theorem goTo_write (s : State) (pc : BitVec 64) (r : Nat)
    (value : BitVec 64) :
    (s.write r value).goTo pc = (s.goTo pc).write r value := by
  unfold State.write
  split <;> rfl

theorem write_write (s : State) (r : Nat) (value value' : BitVec 64) :
    (s.write r value).write r value' = s.write r value' := by
  unfold State.write
  split
  · simp only [Function.update_idem]
  · rfl

/-- Instructions that go on to the one behind them are executed one after the
other; the last may go anywhere. -/
theorem run_of_holds {words : List Word32} {instructions : List Instruction}
    (hDecode : List.Forall₂ (fun word i => decode word = some i) words
      instructions) :
    ∀ s : State, Holds memory s.pc (codeBytes words) →
      (∀ i ∈ instructions.dropLast, ∀ s, (execute s i).pc = s.pc + 4) →
      run memory instructions.length s =
        some (instructions.foldl execute s) := by
  induction hDecode with
  | nil =>
      intro s _ _
      rfl
  | @cons word i words instructions hFirst hRest ih =>
      intro s hHolds hNext
      rw [codeBytes_cons] at hHolds
      rw [List.length_cons, List.foldl_cons, run, runWith_succ
        (stepWith_of_fetch (fetch_of_holds hHolds.left) hFirst)]
      cases hRest with
      | nil => rfl
      | cons =>
          refine ih _ ?_ fun i hi => hNext i (List.mem_cons_of_mem _ hi)
          rw [hNext i (List.mem_cons_self ..) s]
          exact hHolds.right

/-- The condition with its low bit flipped is the opposite one. -/
theorem holds_xor_one (flags : Flags) {condition : Nat}
    (h : condition < 14) :
    flags.holds (condition ^^^ 1) = !flags.holds condition := by
  obtain ⟨n, z, c, v⟩ := flags
  interval_cases condition <;> cases n <;> cases z <;> cases c <;> cases v <;>
    rfl

/-- The wide moves that put an address in a register. -/
def movWide (rd : Nat) (address : BitVec 64) : List Instruction :=
  [.movz rd 0 (address.toNat % 2 ^ 16),
    .movk rd 1 (address.toNat / 2 ^ 16 % 2 ^ 16),
    .movk rd 2 (address.toNat / 2 ^ 32 % 2 ^ 16),
    .movk rd 3 (address.toNat / 2 ^ 48 % 2 ^ 16)]

/-- The halfwords of a value make up the value. -/
theorem replaceHalfword_address (value : BitVec 64) :
    replaceHalfword (replaceHalfword (replaceHalfword
      (BitVec.ofNat 64 (value.toNat % 2 ^ 16 * 2 ^ (16 * 0)))
      1 (value.toNat / 2 ^ 16 % 2 ^ 16)) 2 (value.toNat / 2 ^ 32 % 2 ^ 16))
      3 (value.toNat / 2 ^ 48 % 2 ^ 16) = value := by
  refine BitVec.eq_of_toNat_eq ?_
  have hValue := value.isLt
  simp only [replaceHalfword, BitVec.toNat_ofNat]
  norm_num
  omega

theorem execute_movk_write (h : r < 31) (hw imm : Nat) :
    execute (s.write r value) (.movk r hw imm) =
      s.next.write r (replaceHalfword value hw imm) := by
  rw [execute, read_write_self h, write_write, State.next, pc_write,
    goTo_write]
  rfl

/-- Four wide moves put an address in a register. -/
theorem foldl_movWide (h : r < 31) (s : State) (address : BitVec 64) :
    (movWide r address).foldl execute s =
      s.next.next.next.next.write r address := by
  simp only [movWide, List.foldl_cons, List.foldl_nil]
  rw [show execute s (.movz r 0 (address.toNat % 2 ^ 16)) =
    s.next.write r (BitVec.ofNat 64 (address.toNat % 2 ^ 16 * 2 ^ (16 * 0)))
    from goTo_write .. |>.trans (by rw [pc_write]; rfl)]
  rw [execute_movk_write h, execute_movk_write h, execute_movk_write h,
    replaceHalfword_address]

end Run

end CloverVM.Machine.BranchCode
