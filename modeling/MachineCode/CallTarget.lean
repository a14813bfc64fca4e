import MachineCode.Named

/-! Destinations of call instructions, known by name until the code is installed. -/
namespace MachineCode

/-- Entry points of the runtime that compiled code may call. -/
inductive RuntimeEntry where
  | unwindException | handleException | deoptimize | throwNullPointerException
  | throwArithmeticException | throwStackOverflow | resolveStaticCall | arithmeticFrem
  | arithmeticDrem | newInstance | newArray | monitorEnter | monitorExit | registerFinalizer
  | debug
  deriving DecidableEq, Repr, Inhabited

namespace RuntimeEntry

def all : List RuntimeEntry :=
  [unwindException, handleException, deoptimize, throwNullPointerException,
    throwArithmeticException, throwStackOverflow, resolveStaticCall, arithmeticFrem,
    arithmeticDrem, newInstance, newArray, monitorEnter, monitorExit, registerFinalizer, debug]

def name : RuntimeEntry → String
  | unwindException => "unwind_exception"
  | handleException => "handle_exception"
  | deoptimize => "deoptimize"
  | throwNullPointerException => "throw_null_pointer_exception"
  | throwArithmeticException => "throw_arithmetic_exception"
  | throwStackOverflow => "throw_stack_overflow"
  | resolveStaticCall => "resolve_static_call"
  | arithmeticFrem => "arithmetic_frem"
  | arithmeticDrem => "arithmetic_drem"
  | newInstance => "new_instance"
  | newArray => "new_array"
  | monitorEnter => "monitor_enter"
  | monitorExit => "monitor_exit"
  | registerFinalizer => "register_finalizer"
  | debug => "debug"

instance : Named RuntimeEntry := ⟨all, name⟩

end RuntimeEntry

inductive CallTarget where
  | method (id : UInt32)
  | runtime (entry : RuntimeEntry)
  | stub (name : String)
  | native (symbol : String)
  deriving DecidableEq, Repr, Inhabited

namespace CallTarget

def text : CallTarget → String
  | method id => s!"method#{id.toNat}"
  | runtime entry => s!"runtime:{entry.name}"
  | stub name => s!"stub:{name}"
  | native symbol => s!"native:{symbol}"

/-- The destination with this text; what follows the first colon may hold further ones. -/
def ofText? (s : String) : Option CallTarget :=
  match s.splitOn ":" with
  | "runtime" :: rest => (Named.ofName? (String.intercalate ":" rest)).map runtime
  | "stub" :: rest => some (stub (String.intercalate ":" rest))
  | "native" :: rest => some (native (String.intercalate ":" rest))
  | _ =>
    match s.splitOn "#" with
    | ["method", n] => n.toNat?.map fun n => method (UInt32.ofNat n)
    | _ => none

instance : ToString CallTarget := ⟨text⟩

end CallTarget

end MachineCode
