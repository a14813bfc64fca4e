import MachineCode.Bytes
import MachineCode.X64.Register

/-! Memory operands of instructions: `base + index * 2 ^ shift + disp`. -/
namespace MachineCode.X64

inductive MemBase where
  /-- No base register. -/
  | none
  | reg (r : Gpr)
  /-- The end of the instruction. -/
  | rip
  deriving DecidableEq, Repr, Inhabited

structure MemIndex where
  reg : Gpr
  shift : Fin 4
  deriving DecidableEq, Repr

/-- An index beside `rip` is not encoded. -/
structure Mem where
  base : MemBase
  index : Option MemIndex
  disp : Int32
  deriving DecidableEq, Repr

namespace Mem

def based (base : Gpr) (disp : Int32) : Mem := ⟨.reg base, none, disp⟩

def indexed (base index : Gpr) (shift : Fin 4) (disp : Int32) : Mem :=
  ⟨.reg base, some ⟨index, shift⟩, disp⟩

/-- Relative to the end of the instruction. -/
def rip (disp : Int32) : Mem := ⟨.rip, none, disp⟩

def isRip (m : Mem) : Bool := m.base == .rip

/-- The factor of the index; 1 without one. -/
def scale (m : Mem) : Nat := m.index.elim 1 fun i => pow2 i.shift.val

/-- The address is computed from `r`. -/
def uses (m : Mem) (r : Gpr) : Bool := m.base == .reg r || m.index.any (·.reg == r)

end Mem

/-- A register or memory operand, general file. -/
inductive Rm where
  | reg (r : Gpr)
  | mem (m : Mem)
  deriving DecidableEq, Repr

/-- A register or memory operand, floating-point file. -/
inductive Xm where
  | reg (x : Xmm)
  | mem (m : Mem)
  deriving DecidableEq, Repr

end MachineCode.X64
