import Mathlib.Tactic

/-! The integer computations of RV32I: the instructions of the opcodes OP, OP-IMM, LUI and AUIPC,
    their encoding and the value each of them computes. Beside them the instruction formats, the legal
    encodings of the other opcodes, and where the control transfers go. -/

namespace Rv32i

/-- The ten computations of the opcode OP. -/
inductive Fn where
  | add
  | sub
  | sll
  | slt
  | sltu
  | xor
  | srl
  | sra
  | or
  | and
  deriving DecidableEq, Repr

/-- Shift amounts are the low five bits of the second operand. -/
def Fn.eval (fn : Fn) (x y : BitVec 32) : BitVec 32 :=
  match fn with
  | add => x + y
  | sub => x - y
  | sll => x <<< (y.toNat % 32)
  | slt => if x.toInt < y.toInt then 1 else 0
  | sltu => if x.toNat < y.toNat then 1 else 0
  | xor => x ^^^ y
  | srl => x >>> (y.toNat % 32)
  | sra => x.sshiftRight (y.toNat % 32)
  | or => x ||| y
  | and => x &&& y

/-- The three shifts. -/
def Fn.isShift : Fn → Bool
  | sll | srl | sra => true
  | _ => false

/-- A shift looks at the low five bits of its second operand only. -/
theorem Fn.eval_shift {fn : Fn} (hfn : fn.isShift = true) (x : BitVec 32) {y y' : BitVec 32}
    (h : y.toNat % 32 = y'.toNat % 32) : fn.eval x y = fn.eval x y' := by
  cases fn <;> first | exact absurd hfn (by decide) | simp only [eval, h]

/-- The integer computations. -/
inductive Instr where
  | op (fn : Fn)
  /-- A computation with a 12-bit immediate. -/
  | opImm (fn : Fn) (imm : BitVec 12)
  /-- A shift by a constant. -/
  | shiftImm (fn : Fn) (shamt : BitVec 5)
  | lui (imm : BitVec 20)
  | auipc (imm : BitVec 20)
  deriving DecidableEq, Repr

/-- The second operand of an instruction, `x2` being the second source register. -/
def Instr.operand (x2 : BitVec 32) : Instr → BitVec 32
  | op _ => x2
  | opImm _ imm => imm.signExtend 32
  | shiftImm _ shamt => shamt.setWidth 32
  | lui imm => imm ++ 0#12
  | auipc imm => imm ++ 0#12

/-- The value written to the destination register. -/
def Instr.result (pc x1 x2 : BitVec 32) (i : Instr) : BitVec 32 :=
  match i with
  | op fn => fn.eval x1 (i.operand x2)
  | opImm fn _ => fn.eval x1 (i.operand x2)
  | shiftImm fn _ => fn.eval x1 (i.operand x2)
  | lui _ => i.operand x2
  | auipc _ => pc + i.operand x2

/-! ### Encoding -/

def opcode (w : BitVec 32) : BitVec 7 := w.extractLsb' 0 7
def funct3 (w : BitVec 32) : BitVec 3 := w.extractLsb' 12 3
def funct7 (w : BitVec 32) : BitVec 7 := w.extractLsb' 25 7
def imm12 (w : BitVec 32) : BitVec 12 := w.extractLsb' 20 12
def shamt (w : BitVec 32) : BitVec 5 := w.extractLsb' 20 5
def imm20 (w : BitVec 32) : BitVec 20 := w.extractLsb' 12 20

/-- The computation that `funct3` selects when `funct7` is 0. -/
def baseFn (f3 : BitVec 3) : Fn :=
  match f3.toNat with
  | 0 => .add
  | 1 => .sll
  | 2 => .slt
  | 3 => .sltu
  | 4 => .xor
  | 5 => .srl
  | 6 => .or
  | _ => .and

/-- `funct7` of SUB, SRA and SRAI. -/
def altFunct7 : BitVec 7 := 0b0100000

/-- The words of the opcode OP. -/
def decodeOp (w : BitVec 32) : Option Instr :=
  if funct7 w = 0 then some (.op (baseFn (funct3 w)))
  else if funct7 w = altFunct7 ∧ funct3 w = 0 then some (.op .sub)
  else if funct7 w = altFunct7 ∧ funct3 w = 5 then some (.op .sra)
  else none

/-- The words of the opcode OP-IMM. -/
def decodeOpImm (w : BitVec 32) : Option Instr :=
  if funct3 w = 1 then if funct7 w = 0 then some (.shiftImm .sll (shamt w)) else none
  else if funct3 w = 5 then
    if funct7 w = 0 then some (.shiftImm .srl (shamt w))
    else if funct7 w = altFunct7 then some (.shiftImm .sra (shamt w))
    else none
  else some (.opImm (baseFn (funct3 w)) (imm12 w))

/-- The instruction a word encodes, `none` when the word is not a legal one of these opcodes. -/
def decode (w : BitVec 32) : Option Instr :=
  if opcode w = 0b0110011 then decodeOp w
  else if opcode w = 0b0010011 then decodeOpImm w
  else if opcode w = 0b0110111 then some (.lui (imm20 w))
  else if opcode w = 0b0010111 then some (.auipc (imm20 w))
  else none

/-- An arithmetic shift differs from a logical one exactly for a negative value and a shift by at
    least one place. -/
theorem ushiftRight_eq_sshiftRight_iff (x : BitVec 32) (n : ℕ) :
    x >>> n = x.sshiftRight n ↔ x.msb = false ∨ n = 0 := by
  constructor
  · intro h
    by_contra hc
    push Not at hc
    have hm : x.msb = true := by simpa using hc.1
    have h31 := congrArg (fun v : BitVec 32 => v.msb) h
    simp only [BitVec.msb_ushiftRight, BitVec.msb_sshiftRight, hm] at h31
    simp [hc.2] at h31
  · rintro (hm | rfl)
    · rw [BitVec.sshiftRight_eq_of_msb_false hm]
    · simp

/-- Legal words of the integer opcodes but BRANCH, MISC-MEM and SYSTEM: loads and stores of the
    defined widths, the jumps, and the computations above. -/
def legal (w : BitVec 32) : Bool :=
  if opcode w = 0b0000011 then
    funct3 w == 0 || funct3 w == 1 || funct3 w == 2 || funct3 w == 4 || funct3 w == 5
  else if opcode w = 0b0100011 then funct3 w == 0 || funct3 w == 1 || funct3 w == 2
  else if opcode w = 0b1101111 then true
  else if opcode w = 0b1100111 then funct3 w == 0
  else (decode w).isSome

/-- A multiplication or division of the M extension. -/
def isM (w : BitVec 32) : Bool := opcode w == 0b0110011 && funct7 w == 1

/-! ### Formats -/

/-- The instruction formats, but for that of BRANCH. -/
inductive Format where
  | R
  | I
  | S
  | U
  | J
  deriving DecidableEq, Repr

namespace Format

/-- The instruction reads `rs1`. -/
def hasRs1 : Format → Bool
  | R | I | S => true
  | U | J => false

/-- The instruction reads `rs2`. -/
def hasRs2 : Format → Bool
  | R | S => true
  | I | U | J => false

/-- The instruction writes `rd`. -/
def hasRd : Format → Bool
  | S => false
  | R | I | U | J => true

/-- The immediate, extended to 32 bits. -/
def imm (w : BitVec 32) : Format → Option (BitVec 32)
  | R => none
  | I => some ((imm12 w).signExtend 32)
  | S => some ((w.extractLsb' 25 7 ++ w.extractLsb' 7 5).signExtend 32)
  | U => some (imm20 w ++ 0#12)
  | J => some ((w.extractLsb' 31 1 ++ w.extractLsb' 12 8 ++ w.extractLsb' 20 1 ++
      w.extractLsb' 21 10 ++ 0#1).signExtend 32)

/-- The format of the opcodes LOAD, STORE, JAL, JALR, LUI, AUIPC, OP and OP-IMM. -/
def ofOpcode (opc : BitVec 7) : Option Format :=
  if opc = 0b0000011 then some I
  else if opc = 0b0100011 then some S
  else if opc = 0b1101111 then some J
  else if opc = 0b1100111 then some I
  else if opc = 0b0110111 then some U
  else if opc = 0b0010111 then some U
  else if opc = 0b0110011 then some R
  else if opc = 0b0010011 then some I
  else none

end Format

/-! ### Control transfer -/

/-- The six comparisons of the opcode BRANCH. -/
inductive Cond where
  | eq
  | ne
  | lt
  | ge
  | ltu
  | geu
  deriving DecidableEq, Repr

/-- The comparison of two operands, signed or unsigned. -/
def Cond.holds (c : Cond) (x y : BitVec 32) : Bool :=
  match c with
  | eq => x == y
  | ne => x != y
  | lt => decide (x.toInt < y.toInt)
  | ge => decide (y.toInt ≤ x.toInt)
  | ltu => decide (x.toNat < y.toNat)
  | geu => decide (y.toNat ≤ x.toNat)

/-- The instructions that say where execution goes on. -/
inductive Transfer where
  | branch (c : Cond)
  | jal
  | jalr
  deriving DecidableEq, Repr

/-- The address of the next instruction; `x1` and `x2` are the source operands. -/
def Transfer.nextPc (pc imm x1 x2 : BitVec 32) : Transfer → BitVec 32
  | branch c => if c.holds x1 x2 then pc + imm else pc + 4
  | jal => pc + imm
  | jalr => (x1 + imm) &&& ~~~1#32

theorem eq_clear_iff (v : BitVec 32) : v = v &&& ~~~1#32 ↔ v.getLsbD 0 = false := by
  constructor
  · intro h
    rw [h]
    simp
  · intro h
    apply BitVec.eq_of_getLsbD_eq
    intro i hi
    rw [BitVec.getLsbD_and, BitVec.getLsbD_not, BitVec.getLsbD_one]
    rcases Nat.eq_zero_or_pos i with rfl | hpos
    · rw [h]
      rfl
    · have hne : decide (i = 0) = false := decide_eq_false (by omega)
      simp [hne, hi]

end Rv32i
