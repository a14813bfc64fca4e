import MachineCode.X64.Decoded
import Mathlib.Data.List.Forall2

/-! Which operands an operation has: how many, of which classes and, in memory, of which sizes. The
numbers in the operands may be any bytes; well-formed ones name registers and scales that there
are. -/
namespace MachineCode.X64

/-! ### Classes and sizes -/

inductive OperandClass where
  | gpr | xmm | imm | mem | rel
  deriving DecidableEq, Repr

def RawOperand.cls : RawOperand → OperandClass
  | gpr .. => .gpr
  | xmm _ => .xmm
  | imm _ => .imm
  | mem _ => .mem
  | rel _ => .rel

namespace OperandClass

/-- A general register or memory. -/
def rm : List OperandClass := [gpr, mem]

/-- A floating-point register or memory. -/
def xm : List OperandClass := [xmm, mem]

def source : List OperandClass := imm :: rm

def destination : List OperandClass := rel :: rm

def count : List OperandClass := [imm, gpr]

end OperandClass

namespace Op

open OperandClass

/-- The lists of operands that an operation is executed on, with the classes of each operand. -/
def forms : Op → List (List (List OperandClass))
  | mov | alu _ | test => [[rm, source]]
  | movzx | movsx | bitScan _ | cmov _ => [[[.gpr], rm]]
  | lea => [[[.gpr], [.mem]]]
  | neg | not | mul | div | idiv | setcc _ => [[rm]]
  | imul => [[rm], [[.gpr], rm], [[.gpr], rm, [.imm]]]
  | shift _ => [[rm, count]]
  | jcc _ => [[[.rel]]]
  | jmp | call => [[destination]]
  | push | pop => [[[.gpr]]]
  | movs _ => [[xm, xm]]
  | movap _ | sse .. | ucomis _ | packed .. | cvtFloat _ => [[[.xmm], xm]]
  | cvtFromInt _ | movToXmm => [[[.xmm], rm]]
  | cvtToInt _ => [[[.gpr], xm]]
  | movFromXmm => [[rm, [.xmm]]]
  | cmpxchg _ => [[rm, [.gpr]]]
  | cdq | cqo | ret | nop | int3 | ud2 | pause | mfence => [[]]

/-- The numbers of bytes that a memory operand may have. -/
def sizes : Op → List UInt8
  | lea => [0]
  | movap _ | packed .. => [16]
  | _ => [1, 2, 4, 8]

/-- The operands are as many as in one of the forms, each of a class that stands there. -/
def Takes (op : Op) (xs : List RawOperand) : Prop :=
  ∃ form ∈ op.forms, List.Forall₂ (fun x classes => x.cls ∈ classes) xs form

end Op

/-! ### Well-formed operands -/

/-- Registers are in range, a scale belongs to an index, and `rip` stands alone. -/
structure RawMem.WellFormed (m : RawMem) : Prop where
  base : ∀ r, m.base = some r → r < 16
  index : ∀ r, m.index = some r → r < 16
  scale : m.scale ∈ [1, 2, 4, 8]
  unscaled : m.index = none → m.scale = 1
  rip : m.rip = true → m.base = none ∧ m.index = none

/-- An operand beside a REX byte or without one; in memory it has one of the sizes. -/
def RawOperand.WellFormed (rexed : Prop) (sizes : List UInt8) : RawOperand → Prop
  | gpr reg width => reg < 16 ∧ width ∈ [1, 2, 4, 8] ∧ (width = 1 → 4 ≤ reg → reg < 8 → rexed)
  | xmm num => num < 16
  | mem m => m.WellFormed ∧ m.width ∈ sizes
  | imm _ | rel _ => True

/-- The operation has the operands that it is executed on, all that there are, and one of them at
most is in memory. -/
structure Insn.WellFormed (rexed : Prop) (x : Insn) : Prop where
  operand : ∀ a ∈ x.operands, a.WellFormed rexed x.op.sizes
  takes : x.op.Takes x.operands
  mem : (x.operands.filter fun a => a.cls = .mem).length ≤ 1

/-! ### Operands of typed instructions -/

namespace Arg

open OperandClass

@[simp] theorem cls_gpr (r : Gpr) (w : Width) : (gpr r w).operand.cls = .gpr := rfl

@[simp] theorem cls_xmm (x : Xmm) : (xmm x).operand.cls = .xmm := rfl

@[simp] theorem cls_imm (v : Int) : (imm v).operand.cls = .imm := rfl

@[simp] theorem cls_mem (m : Mem) (size : Nat) : (mem m size).operand.cls = .mem := rfl

@[simp] theorem cls_rel (d : Int32) : (rel d).operand.cls = .rel := rfl

@[simp] theorem cls_ofRm (x : Rm) (w : Width) : (ofRm x w).operand.cls ∈ rm := by
  cases x <;> simp [ofRm, rm]

@[simp] theorem cls_ofXm (x : Xm) (size : Nat) : (ofXm x size).operand.cls ∈ xm := by
  cases x <;> simp [ofXm, xm]

@[simp] theorem cls_ofSource (x : Source) (w : Width) :
    (ofSource x w).operand.cls ∈ source := by
  cases x with
  | rm x => exact List.mem_cons_of_mem _ (cls_ofRm x w)
  | imm v => exact List.mem_cons_self

@[simp] theorem cls_ofDestination (x : Destination) :
    (ofDestination x).operand.cls ∈ destination := by
  cases x with
  | rel d => exact List.mem_cons_self
  | rm x => exact List.mem_cons_of_mem _ (cls_ofRm x .qword)

@[simp] theorem cls_ofCount (n : ShiftCount) : (ofCount n).operand.cls ∈ count := by
  cases n <;> simp [ofCount, count]

end Arg

/-- An instruction has the operands of its operation. -/
theorem Decoded.takes (i : Decoded) : i.insn.op.Takes i.insn.operands := by
  cases i with
  | unary op => cases op <;> simp [insn, op, args, Op.Takes, Op.forms, UnaryOp.op]
  | imul w dst src factor => cases factor <;> simp [insn, op, args, Op.Takes, Op.forms]
  | _ => simp [insn, op, args, Op.Takes, Op.forms]

end MachineCode.X64
