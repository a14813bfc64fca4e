import MachineCode.CallTarget
import MachineCode.Condition
import MachineCode.Operand

/-! Templates: short programs of micro-operations that the runtime supplies for allocation, type
checks and barriers. Operands and labels are indices into what the instantiation supplies. -/
namespace MachineCode

inductive TemplateBinary where
  | add | sub | mul | div | rem | and | or | xor | shl | shr | ushr
  deriving DecidableEq, Repr, Inhabited

namespace TemplateBinary

def all : List TemplateBinary := [add, sub, mul, div, rem, and, or, xor, shl, shr, ushr]

def name : TemplateBinary → String
  | add => "add"
  | sub => "sub"
  | mul => "mul"
  | div => "div"
  | rem => "rem"
  | and => "and"
  | or => "or"
  | xor => "xor"
  | shl => "shl"
  | shr => "shr"
  | ushr => "ushr"

instance : Named TemplateBinary := ⟨all, name⟩

end TemplateBinary

/-- Conditions of a template's compare-and-jump; `jugteq` is unsigned. -/
inductive TemplateCondition where
  | jeq | jneq | jlt | jlteq | jgt | jgteq | jugteq
  deriving DecidableEq, Repr, Inhabited

namespace TemplateCondition

def all : List TemplateCondition := [jeq, jneq, jlt, jlteq, jgt, jgteq, jugteq]

def name : TemplateCondition → String
  | jeq => "jeq"
  | jneq => "jneq"
  | jlt => "jlt"
  | jlteq => "jlteq"
  | jgt => "jgt"
  | jgteq => "jgteq"
  | jugteq => "jugteq"

instance : Named TemplateCondition := ⟨all, name⟩

def condition : TemplateCondition → Condition
  | jeq => .eq
  | jneq => .ne
  | jlt => .lt
  | jlteq => .le
  | jgt => .gt
  | jgteq => .ge
  | jugteq => .ae

end TemplateCondition

/-- A micro-operation. Numbers are operand indices, except for displacements, labels, alignments,
marks and counts. -/
inductive MicroOp where
  | binary (op : TemplateBinary) (x y result : Nat)
  | mov (src dst : Nat)
  /-- `result = [pointer]`. -/
  | pointerLoad (pointer result : Nat) (canTrap : Bool)
  /-- `[pointer] = value`. -/
  | pointerStore (pointer value : Nat) (canTrap : Bool)
  /-- `result = [pointer + index * scale + disp]`; a constant index becomes part of `disp`. -/
  | pointerLoadDisp (pointer index : Nat) (scale : Scale) (disp : Int32) (result : Nat)
      (canTrap : Bool)
  | pointerStoreDisp (pointer index : Nat) (scale : Scale) (disp : Int32) (value : Nat)
      (canTrap : Bool)
  | lea (pointer index : Nat) (scale : Scale) (disp : Int32) (result : Nat)
  /-- The address of this micro-operation. -/
  | here (result : Nat)
  | callStub (stub : String) (args : List Nat) (result : Option Nat)
  | callRuntime (target : RuntimeEntry) (args : List Nat) (result : Option Nat)
      (useInfoAfter : Bool)
  | jmp (label : Nat)
  | jcc (cond : TemplateCondition) (x y : Nat) (target : Nat)
  | bind (label : Nat)
  | safepoint
  | nullCheck (pointer : Nat)
  | align (n : Nat)
  | stackOverflowCheck
  | pushFrame
  | popFrame
  | push (value : Nat)
  | pop (result : Nat)
  | mark (id : UInt32)
  | nop (count : Nat)
  | rawBytes (bytes : List UInt8)
  | shouldNotReachHere (message : Option String)
  deriving Repr

namespace MicroOp

def name : MicroOp → String
  | binary .. => "binary"
  | mov .. => "mov"
  | pointerLoad .. => "pointer_load"
  | pointerStore .. => "pointer_store"
  | pointerLoadDisp .. => "pointer_load_disp"
  | pointerStoreDisp .. => "pointer_store_disp"
  | lea .. => "lea"
  | here .. => "here"
  | callStub .. => "call_stub"
  | callRuntime .. => "call_runtime"
  | jmp _ => "jmp"
  | jcc .. => "jcc"
  | bind _ => "bind"
  | safepoint => "safepoint"
  | nullCheck _ => "null_check"
  | align _ => "align"
  | stackOverflowCheck => "stack_overflow_check"
  | pushFrame => "push_frame"
  | popFrame => "pop_frame"
  | push _ => "push"
  | pop _ => "pop"
  | mark _ => "mark"
  | nop _ => "nop"
  | rawBytes _ => "raw_bytes"
  | shouldNotReachHere _ => "should_not_reach_here"

end MicroOp

/-- The fast path stands where the template is used. The slow path, if there is one, follows the
body of the method; both share the labels `0..labelCount`. -/
structure Template where
  name : String
  fastPath : List MicroOp
  slowPath : Option (List MicroOp)
  labelCount : Nat
  deriving Repr

end MachineCode
