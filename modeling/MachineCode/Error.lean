import MachineCode.Bytes
import MachineCode.DebugInfo

/-! What can go wrong while a method is compiled or installed, and the wording. -/
namespace MachineCode

inductive Error where
  /-- No lowering exists for this operation and these operand shapes. -/
  | unhandled (op detail : String)
  /-- A label is bound at two positions. -/
  | redefineLabel (label : Label) (bound position : Nat)
  /-- A short branch cannot reach its target. -/
  | branchOutOfRange (site target : Nat) (displacement : Int)
  /-- A label is referred to and never bound. -/
  | unboundLabel (label : Label)
  | duplicateRecord (table : String) (pc : Nat)
  /-- A relocation lies outside the current instruction. -/
  | midInstructionRelocation (offset : Nat) (mark : Option Nat)
  | missingDebugInfo (what : String)
  /-- More labels than one method may have. -/
  | labelLimit (count limit : Nat)
  | outOfMemory
  /-- A displacement does not fit its 32-bit field. -/
  | displacementOutOfRange (displacement : Int)
  /-- A data-section address reads past the end of the section. -/
  | dataOutOfRange (offset length : Nat)
  | unresolvedCallTarget (target : String)
  | unresolvedObject (object : ObjectId)
  | invalidFrame (detail : String)
  | misalignedInstallBase (base align : Nat)
  /-- A template names an operand that its instantiation does not supply. -/
  | operandIndex (template : String) (index available : Nat)
  deriving DecidableEq, Repr

namespace Error

/-- The name of the cause. -/
def name : Error → String
  | unhandled .. => "Unhandled"
  | redefineLabel .. => "RedefineLabel"
  | branchOutOfRange .. => "BranchOutOfRange"
  | unboundLabel _ => "UnboundLabel"
  | duplicateRecord .. => "DuplicateRecord"
  | midInstructionRelocation .. => "MidInstructionRelocation"
  | missingDebugInfo _ => "MissingDebugInfo"
  | labelLimit .. => "LabelLimit"
  | outOfMemory => "OutOfMemory"
  | displacementOutOfRange _ => "DisplacementOutOfRange"
  | dataOutOfRange .. => "DataOutOfRange"
  | unresolvedCallTarget _ => "UnresolvedCallTarget"
  | unresolvedObject _ => "UnresolvedObject"
  | invalidFrame _ => "InvalidFrame"
  | misalignedInstallBase .. => "MisalignedInstallBase"
  | operandIndex .. => "OperandIndex"

def message : Error → String
  | unhandled op detail => s!"unhandled {op}: {detail}"
  | redefineLabel label bound position =>
    s!"label {label} already bound at {bound}, cannot rebind at {position}"
  | branchOutOfRange site target displacement =>
    s!"short branch at {site} cannot reach {target} (displacement {displacement})"
  | unboundLabel label => s!"label {label} is referenced but never bound"
  | duplicateRecord table pc => s!"duplicate {table} record at pc {pc}"
  | midInstructionRelocation offset mark =>
    s!"relocation at {offset} outside instruction starting at {Text.option mark}"
  | missingDebugInfo what => s!"{what} requires debug info"
  | labelLimit count limit => s!"{count} labels requested, limit is {limit}"
  | outOfMemory => "out of memory growing code buffer"
  | displacementOutOfRange displacement =>
    s!"displacement {displacement} does not fit in 32 bits"
  | dataOutOfRange offset length =>
    s!"data access at {offset} past the {length}-byte data section"
  | unresolvedCallTarget target => s!"no address for call target {target}"
  | unresolvedObject object => s!"no address for object #{object.id.toNat}"
  | invalidFrame detail => s!"invalid frame: {detail}"
  | misalignedInstallBase base align =>
    s!"install base {Text.hex base} is not {align}-byte aligned"
  | operandIndex template index available =>
    s!"template {template} uses operand {index}, only {available} supplied"

end Error

end MachineCode
