import HeliosXCore.Lib.Bits

/-! Widths and encodings of `consts/Consts.vh`, `consts/ALU.vh` and `consts/RV32Opcodes.vh`.

    `DATA_LEN`, `INSN_LEN` and `ADDR_LEN` are 32, `REG_SEL` is 5, `RRF_SEL = ROB_SEL` is 6,
    `ALU_ENT_SEL` is 3 and `LDST_ENT_SEL` is 2. -/

namespace HeliosXCore
open Rtl

/-- `ADDR_LEN`, `DATA_LEN` and `INSN_LEN` bits. -/
abbrev Word := BitVec 32
/-- `REG_SEL` bits: an architectural register number. -/
abbrev RegSel := BitVec 5
/-- `RRF_SEL` (and `ROB_SEL`) bits: a rename tag, at once an address of the ROB. -/
abbrev RrfTag := BitVec 6

/-- `ENTRY_POINT`: where the program counter starts. -/
def entryPoint : Word := 0x80000000

namespace Imm
def I : BitVec 2 := 0
def S : BitVec 2 := 1
def U : BitVec 2 := 2
def J : BitVec 2 := 3
end Imm

namespace SrcA
def rs1 : BitVec 2 := 0
def pc : BitVec 2 := 1
def zero : BitVec 2 := 2
end SrcA

namespace SrcB
def rs2 : BitVec 2 := 0
def imm : BitVec 2 := 1
def four : BitVec 2 := 2
end SrcB

namespace RsEnt
def alu : BitVec 3 := 1
def branch : BitVec 3 := 2
def jal : BitVec 3 := branch
def jalr : BitVec 3 := branch
def mul : BitVec 3 := 3
def ldst : BitVec 3 := 4
end RsEnt

namespace AluOp
def add : BitVec 4 := 0
def sll : BitVec 4 := 1
def xor : BitVec 4 := 4
def srl : BitVec 4 := 5
def or : BitVec 4 := 6
def and : BitVec 4 := 7
def seq : BitVec 4 := 8
def sne : BitVec 4 := 9
def sub : BitVec 4 := 10
def sra : BitVec 4 := 11
def slt : BitVec 4 := 12
def sge : BitVec 4 := 13
def sltu : BitVec 4 := 14
def sgeu : BitVec 4 := 15
end AluOp

namespace MdOp
def mul : BitVec 2 := 0
def div : BitVec 2 := 1
def rem : BitVec 2 := 2
end MdOp

namespace MdOut
def lo : BitVec 2 := 0
def hi : BitVec 2 := 1
def rem : BitVec 2 := 2
end MdOut

namespace Opcode
def load : BitVec 7 := 0b0000011
def store : BitVec 7 := 0b0100011
def branch : BitVec 7 := 0b1100011
def jalr : BitVec 7 := 0b1100111
def jal : BitVec 7 := 0b1101111
def opImm : BitVec 7 := 0b0010011
def op : BitVec 7 := 0b0110011
def auipc : BitVec 7 := 0b0010111
def lui : BitVec 7 := 0b0110111
end Opcode

end HeliosXCore
