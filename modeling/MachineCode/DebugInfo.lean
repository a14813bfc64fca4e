import MachineCode.Operand

/-! Labels, and the state the runtime needs to walk or deoptimize a frame at an instruction. -/
namespace MachineCode

/-- A branch target in the code of one method. -/
structure Label where
  index : Nat
  deriving DecidableEq, Repr, Inhabited

instance : ToString Label := ⟨fun l => s!"L{l.index}"⟩

/-- An exception edge out of a call or a trapping instruction; without a type it catches all. -/
structure ExceptionEdge where
  handler : Label
  catchType : Option ObjectId
  deriving DecidableEq, Repr

/-- Bit `i` of `refMap` says that stack slot `i` holds a reference. -/
structure DebugInfo where
  bci : UInt32
  refMap : UInt64
  edges : List ExceptionEdge
  deriving DecidableEq, Repr

namespace DebugInfo

def handlers (info : DebugInfo) : List Label := info.edges.map ExceptionEdge.handler

end DebugInfo

end MachineCode
