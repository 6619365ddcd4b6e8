import HeliosXCore.Rtl.Consts

/-! `IF/IFUnit.v` and `IF/PipelineIF.v`: the program counter, the fetch address and the
    instruction register. -/

namespace HeliosXCore
open Rtl

namespace PipelineIF

/-- `inst_o` of `PipelineIF`: the word that was fetched. -/
def inst (reset : Bool) (idata : Word) : Word := if reset then 0 else idata

/-- `npc_o` of `PipelineIF`: the next word. -/
def npc (reset : Bool) (pc : Word) : Word := if reset then 0 else pc + 4

end PipelineIF

/-- The registers of `IFUnit`; `iaddr_o` is `npc`. -/
structure IFUnit where
  pc : Word
  npc : Word
  inst : Word
  deriving DecidableEq, Repr

namespace IFUnit

/-- `iaddr_o`: the fetch address. -/
def iaddr (s : IFUnit) : Word := s.npc

/-- One edge. A stall goes back to the address before, a kill clears the word. -/
def next (reset stallIF killIF : Bool) (idata : Word) (s : IFUnit) : IFUnit where
  -- the program counter moves on in every cycle, also while the fetch address is held
  pc := if reset then entryPoint else PipelineIF.npc reset s.pc
  npc := if reset then entryPoint
    else if stallIF then s.pc
    else PipelineIF.npc reset s.pc
  inst := if reset || killIF then 0
    else if !stallIF then PipelineIF.inst reset idata
    else s.inst

end IFUnit

end HeliosXCore
