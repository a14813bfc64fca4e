import MachineCode.DebugInfo
import MachineCode.Template

/-! The operations of a method whose values have been assigned to registers and frame slots.
`labels` lists every label that an operation binds or refers to. -/
namespace MachineCode

inductive ArithOp where
  | add | sub | mul | div | rem | udiv | urem
  deriving DecidableEq, Repr, Inhabited

namespace ArithOp

def isCommutative : ArithOp → Bool
  | add | mul => true
  | _ => false

def isDivision : ArithOp → Bool
  | div | rem | udiv | urem => true
  | _ => false

def all : List ArithOp := [add, sub, mul, div, rem, udiv, urem]

def name : ArithOp → String
  | add => "add"
  | sub => "sub"
  | mul => "mul"
  | div => "div"
  | rem => "rem"
  | udiv => "udiv"
  | urem => "urem"

instance : Named ArithOp := ⟨all, name⟩

/-- The name in messages about operations that have no lowering. -/
def title : ArithOp → String
  | add => "Add"
  | sub => "Sub"
  | mul => "Mul"
  | div => "Div"
  | rem => "Rem"
  | udiv => "UDiv"
  | urem => "URem"

end ArithOp

inductive LogicOp where
  | and | or | xor
  deriving DecidableEq, Repr, Inhabited

namespace LogicOp

def all : List LogicOp := [and, or, xor]

def name : LogicOp → String
  | and => "and"
  | or => "or"
  | xor => "xor"

instance : Named LogicOp := ⟨all, name⟩

end LogicOp

/-- `shr` fills with the sign bit and `ushr` with zeros. -/
inductive ShiftOp where
  | shl | shr | ushr
  deriving DecidableEq, Repr, Inhabited

namespace ShiftOp

def all : List ShiftOp := [shl, shr, ushr]

def name : ShiftOp → String
  | shl => "shl"
  | shr => "shr"
  | ushr => "ushr"

instance : Named ShiftOp := ⟨all, name⟩

end ShiftOp

/-- Conversions by source and target: `i`, `l`, `f`, `d` for the kinds and `b`, `c`, `s` for the
narrow integers. The `mov` forms carry raw bits between the register files. -/
inductive ConvertOp where
  | i2l | l2i | i2b | i2c | i2s | i2f | i2d | l2f | l2d | f2d | d2f | f2i | f2l | d2i | d2l
  | movI2F | movF2I | movL2D | movD2L
  deriving DecidableEq, Repr, Inhabited

namespace ConvertOp

def all : List ConvertOp :=
  [i2l, l2i, i2b, i2c, i2s, i2f, i2d, l2f, l2d, f2d, d2f, f2i, f2l, d2i, d2l, movI2F, movF2I,
    movL2D, movD2L]

def name : ConvertOp → String
  | i2l => "i2l"
  | l2i => "l2i"
  | i2b => "i2b"
  | i2c => "i2c"
  | i2s => "i2s"
  | i2f => "i2f"
  | i2d => "i2d"
  | l2f => "l2f"
  | l2d => "l2d"
  | f2d => "f2d"
  | d2f => "d2f"
  | f2i => "f2i"
  | f2l => "f2l"
  | d2i => "d2i"
  | d2l => "d2l"
  | movI2F => "mov_i2f"
  | movF2I => "mov_f2i"
  | movL2D => "mov_l2d"
  | movD2L => "mov_d2l"

instance : Named ConvertOp := ⟨all, name⟩

end ConvertOp

/-- Compares whose result is -1, 0 or 1 in a register. -/
inductive CompareToIntOp where
  | lcmp | fcmpl | fcmpg | dcmpl | dcmpg
  deriving DecidableEq, Repr, Inhabited

namespace CompareToIntOp

def all : List CompareToIntOp := [lcmp, fcmpl, fcmpg, dcmpl, dcmpg]

def name : CompareToIntOp → String
  | lcmp => "lcmp"
  | fcmpl => "fcmpl"
  | fcmpg => "fcmpg"
  | dcmpl => "dcmpl"
  | dcmpg => "dcmpg"

instance : Named CompareToIntOp := ⟨all, name⟩

def isFloatCompare (op : CompareToIntOp) : Bool := op != lcmp

/-- The result on unordered operands. -/
def unorderedResult : CompareToIntOp → Int
  | fcmpg | dcmpg => 1
  | _ => -1

end CompareToIntOp

/-- The memory orders that a barrier has to enforce. -/
structure Barriers where
  bits : UInt8
  deriving DecidableEq, Repr, Inhabited

namespace Barriers

def storeLoad : Barriers := ⟨4⟩
def all : Barriers := ⟨15⟩

def contains (a b : Barriers) : Bool := a.bits &&& b.bits == b.bits

end Barriers

inductive Operation where
  | label (l : Label)
  | move (src dst : Operand)
  | arith (op : ArithOp) (left right result : Operand) (info : Option DebugInfo)
  | logic (op : LogicOp) (left right result : Operand)
  | shift (op : ShiftOp) (value count result : Operand)
  | negate (value result : Operand)
  | abs (value result : Operand)
  | sqrt (value result : Operand)
  | convert (op : ConvertOp) (src dst : Operand)
  /-- Sets the flags that a branch or a conditional move reads. -/
  | compare (left right : Operand)
  | compareToInt (op : CompareToIntOp) (left right result : Operand)
  | branch (cond : Option Condition) (target : Label)
  /-- Branches on the flags of a float compare. -/
  | floatBranch (cond : Condition) (target unordered : Label)
  /-- `targets[i]` is reached for `index = low + i`. The index register is overwritten. -/
  | tableSwitch (index : Operand) (low : Int32) (targets : List Label) (default : Label)
  /-- `unorderedIsTrue` is present after a float compare. -/
  | condMove (cond : Condition) (unorderedIsTrue : Option Bool)
      (trueValue falseValue result : Operand)
  | lea (address result : Operand)
  /-- Reads through `object`, so that a null reference faults. -/
  | nullCheck (object : Operand) (info : DebugInfo)
  | directCall (target : CallTarget) (info : DebugInfo)
  | indirectCall (address : Operand) (info : DebugInfo)
  | nativeCall (symbol : String) (address : Operand) (info : DebugInfo)
  | ret (value : Option Operand)
  | safepoint (info : DebugInfo)
  | monitorAddress (index : Nat) (result : Operand)
  | stackAllocate (block : Nat) (result : Operand)
  /-- The expected value is in the return register, which receives the old value. -/
  | compareAndSwap (address expected newValue : Operand)
  | throw (unwind : Bool) (info : DebugInfo)
  | uncommonTrap (info : DebugInfo)
  | memoryBarrier (barriers : Barriers)
  | breakpoint
  | pause
  | align (n : Nat)
  /-- The index of the highest or lowest set bit, or -1. -/
  | significantBit (most : Bool) (value result : Operand)
  | template (t : Template) (operands : List Operand) (info infoAfter : Option DebugInfo)
  deriving Repr

namespace Operation

def name : Operation → String
  | label _ => "label"
  | move .. => "move"
  | arith .. => "arith"
  | logic .. => "logic"
  | shift .. => "shift"
  | negate .. => "negate"
  | abs .. => "abs"
  | sqrt .. => "sqrt"
  | convert .. => "convert"
  | compare .. => "compare"
  | compareToInt .. => "compare_to_int"
  | branch .. => "branch"
  | floatBranch .. => "float_branch"
  | tableSwitch .. => "table_switch"
  | condMove .. => "cond_move"
  | lea .. => "lea"
  | nullCheck .. => "null_check"
  | directCall .. => "direct_call"
  | indirectCall .. => "indirect_call"
  | nativeCall .. => "native_call"
  | ret _ => "return"
  | safepoint _ => "safepoint"
  | monitorAddress .. => "monitor_address"
  | stackAllocate .. => "stack_allocate"
  | compareAndSwap .. => "compare_and_swap"
  | throw .. => "throw"
  | uncommonTrap _ => "uncommon_trap"
  | memoryBarrier _ => "memory_barrier"
  | breakpoint => "breakpoint"
  | pause => "pause"
  | align _ => "align"
  | significantBit .. => "significant_bit"
  | template .. => "xir"

/-- Labels bound or referred to, exception handlers included. -/
def labels : Operation → List Label
  | label l => [l]
  | branch _ target => [target]
  | floatBranch _ target unordered => [target, unordered]
  | tableSwitch _ _ targets default => targets ++ [default]
  | arith _ _ _ _ (some info) => info.handlers
  | nullCheck _ info | directCall _ info | indirectCall _ info | nativeCall _ _ info
  | throw _ info | uncommonTrap info | safepoint info => info.handlers
  | template _ _ info infoAfter =>
    (info.map DebugInfo.handlers).getD [] ++ (infoAfter.map DebugInfo.handlers).getD []
  | _ => []

end Operation

end MachineCode
