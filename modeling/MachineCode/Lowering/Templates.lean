import MachineCode.Lowering.Calls
import MachineCode.Lowering.Branches
import MachineCode.Lowering.Compare

/-! Expansion of templates. The fast path stands at the place of use, and the slow path behind the
body of the method; they share one set of fresh labels. -/
namespace MachineCode.Expansion

open X64

def operand (x : Expansion) (index : Nat) : Lower Operand :=
  match x.operands[index]? with
  | some o => pure o
  | none => throw (.operandIndex x.template.name index x.operands.length)

def label (x : Expansion) (index : Nat) : Lower Label :=
  match x.labels[index]? with
  | some l => pure l
  | none => Lower.unhandled s!"template {x.template.name} label {index} of {x.labels.length}"

def needInfo (x : Expansion) (what : String) : Lower DebugInfo :=
  match x.info with
  | some info => pure info
  | none => throw (.missingDebugInfo what)

end MachineCode.Expansion

namespace MachineCode.Lower

open X64

def templateBinary (op : TemplateBinary) (a b result : Operand) (info : Option DebugInfo) :
    Lower Unit :=
  match op with
  | .add => arith .add a b result none
  | .sub => arith .sub a b result none
  | .mul => arith .mul a b result none
  | .div => arith .div a b result info
  | .rem => arith .rem a b result info
  | .and => logic .and a b result
  | .or => logic .or a b result
  | .xor => logic .xor a b result
  | .shl => shift .shl a b result
  | .shr => shift .shr a b result
  | .ushr => shift .ushr a b result

/-- The cell at `pointer + index * scale + disp`. -/
def cell (x : Expansion) (pointer index : Nat) (scale : Scale) (disp : Int32) : Lower Mem := do
  let index ← x.operand index
  let base ← inGpr (← x.operand pointer)
  match index with
  | .const c =>
    return .based base (← ofExcept (displacement32 (c.folded scale disp).toInt))
  | .reg .. =>
    let index ← gpr index
    if index = .rsp then unhandled "rsp as index"
    else return .indexed base index scale.log2 disp
  | index => unhandled s!"xir index in {index.shape}"

/-- Read a cell into `result`; the result is the offset of the read. -/
def readCell (l : Location) (result : Operand) : Lower Nat := do
  let kind := result.kind
  match result with
  | .reg r _ => load kind r l
  | .const _ => unhandled "xir load into a constant"
  | result =>
    let pc ← loadGpr kind scratch l
    discard (storeGpr kind scratch (← location result))
    return pc

/-- A store of the value goes through the scratch register. -/
def storeNeedsScratch : Operand → Bool
  | .reg .. => false
  | .const c => needsScratch c
  | .stack .. | .addr _ => true

/-- Write a value to a cell; the result is the offset of the write. -/
def writeCell (l : Location) (value : Operand) : Lower Nat := do
  let kind := value.kind
  if storeNeedsScratch value && l.mem.uses scratch then
    unhandled "xir store needs scratch for both pointer and value"
  else
    match value with
    | .reg r _ => store kind r l
    | .const c => constantToMemory c kind l
    | value =>
      discard (loadGpr kind scratch (← location value))
      storeGpr kind scratch l

/-- An access at `pc` that may be made through a null reference. -/
def templateTrap (x : Expansion) (canTrap : Bool) (pc : Nat) : Lower Unit := do
  if canTrap then recordTrap pc (← x.needInfo "trapping xir memory access")

/-- Move arguments to the registers of the calling convention, which are `ints` and `floats`;
`count` is the number of all arguments. -/
def passArguments (x : Expansion) (count : Nat) :
    (args : List Nat) → (ints : List Gpr) → (floats : List Xmm) → Lower Unit
  | [], _, _ => pure ()
  | arg :: args, ints, floats => do
    let arg ← x.operand arg
    if arg.kind.isFloating then
      match floats with
      | [] => unhandled s!"{count} call arguments"
      | r :: floats =>
        mov arg (.reg r.register arg.kind) false
        passArguments x count args ints floats
    else
      match ints with
      | [] => unhandled s!"{count} call arguments"
      | r :: ints =>
        mov arg (.reg r.register arg.kind) false
        passArguments x count args ints floats

def templateCall (x : Expansion) (target : CallTarget) (args : List Nat) (result : Option Nat)
    (info : Option DebugInfo) : Lower Unit := do
  passArguments x args.length args callArguments floatCallArguments
  directCall target info
  match result with
  | none => pure ()
  | some result =>
    let result ← x.operand result
    mov (.reg (resultRegister result.kind) result.kind) result false

/-- Unordered operands are unequal and meet no other condition. -/
def templateFloatJump (cond : Condition) (target : Label) : Lower Unit := do
  if cond = .ne then
    jcc .p target
    jcc .ne target
  else
    let unordered ← newLabel
    jccShort .p unordered
    jcc (.ofCondition cond.toUnsigned) target
    bind unordered

def templateJump (x : Expansion) (cond : Condition) (a b target : Nat) : Lower Unit := do
  let a ← x.operand a
  let b ← x.operand b
  let target ← x.label target
  compare a b
  if a.kind.isFloating then templateFloatJump cond target
  else jcc (.ofCondition cond) target

/-- The address of the instruction itself. -/
def here (res : Gpr) : Lower Unit :=
  let length := (Instr.lea true res (.rip 0)).encode.length
  emitLeaRelative res (-(length : Int))

def pushOperand (value : Operand) : Lower Unit := do emit (.push (← inGpr value))

def popOperand (result : Operand) : Lower Unit := do
  match result with
  | .reg .. => emit (.pop (← gpr result))
  | result =>
    emit (.pop scratch)
    mov (.reg scratch.register result.kind) result false

def microOp (x : Expansion) : MicroOp → Lower Unit
  | .binary op a b result => do
    templateBinary op (← x.operand a) (← x.operand b) (← x.operand result) x.info
  | .mov src dst => do mov (← x.operand src) (← x.operand dst) false
  | .pointerLoad pointer result canTrap => do
    let base ← inGpr (← x.operand pointer)
    let result ← x.operand result
    templateTrap x canTrap (← readCell (.plain (.based base 0)) result)
  | .pointerStore pointer value canTrap => do
    let base ← inGpr (← x.operand pointer)
    let value ← x.operand value
    templateTrap x canTrap (← writeCell (.plain (.based base 0)) value)
  | .pointerLoadDisp pointer index scale disp result canTrap => do
    let mem ← cell x pointer index scale disp
    let result ← x.operand result
    templateTrap x canTrap (← readCell (.plain mem) result)
  | .pointerStoreDisp pointer index scale disp value canTrap => do
    let mem ← cell x pointer index scale disp
    let value ← x.operand value
    templateTrap x canTrap (← writeCell (.plain mem) value)
  | .lea pointer index scale disp result => do
    let mem ← cell x pointer index scale disp
    emit (.lea true (← gpr (← x.operand result)) mem)
  | .here result => do here (← gpr (← x.operand result))
  | .callStub stub args result => templateCall x (.stub stub) args result x.info
  | .callRuntime target args result useInfoAfter =>
    templateCall x (.runtime target) args result (if useInfoAfter then x.infoAfter else x.info)
  | .jmp label => do jmp (← x.label label)
  | .jcc cond a b target => templateJump x cond.condition a b target
  | .bind label => do bind (← x.label label)
  | .safepoint => do safepoint (← x.needInfo "xir safepoint")
  | .nullCheck pointer => do
    let info ← x.needInfo "xir null check"
    nullCheck (← x.operand pointer) info
  | .align n => emitAlign n
  | .stackOverflowCheck => bangStack
  | .pushFrame => pushFrame
  | .popFrame => popFrame
  | .push value => do pushOperand (← x.operand value)
  | .pop result => do popOperand (← x.operand result)
  | .mark id => do
    let pc ← position
    record (SideTables.recordMark pc id)
  | .nop count => emitBytes (List.replicate count 0x90)
  | .rawBytes bytes => emitBytes bytes
  | .shouldNotReachHere message => do
    if let some message := message then log (.unreachable x.template.name message)
    emit .ud2

/-- The fast path; the slow path, if there is one, is put off. -/
def template (t : Template) (operands : List Operand) (info infoAfter : Option DebugInfo) :
    Lower Unit := do
  let labels ← newLabels t.labelCount
  let x : Expansion := ⟨t, operands, labels, info, infoAfter⟩
  t.fastPath.forM (microOp x)
  if t.slowPath.isSome then enqueue (.template x)

/-- The padding behind it keeps the return address of a call at its end inside the slow path. -/
def templateSlowPath (x : Expansion) : Lower Unit := do
  (x.template.slowPath.getD []).forM (microOp x)
  emitBytes (nops 1)

end MachineCode.Lower
