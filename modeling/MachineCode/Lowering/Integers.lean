import MachineCode.Lowering.Moves

/-! Integer arithmetic, logic and shifts. The result register receives the left operand and is then
combined with the right one; when that would destroy the right operand first, the right operand
goes to the scratch register or, in a commutative operation, the operands change places. -/
namespace MachineCode.Lower

open X64

/-- An operation that combines a register with a second operand. -/
inductive Binary where
  | alu (op : AluOp)
  | mul
  deriving DecidableEq, Repr

namespace Binary

def isCommutative : Binary → Bool
  | alu .sub | alu .sbb | alu .cmp => false
  | _ => true

def withRm (op : Binary) (wide : Bool) (dst : Gpr) (src : Rm) : Instr :=
  match op with
  | alu op => .alu op wide dst src
  | mul => .imul wide dst src

def withImm (op : Binary) (wide : Bool) (dst : Gpr) (imm : Int32) : Instr :=
  match op with
  | alu op => .aluImm op wide (.reg dst) imm
  | mul => .imulImm wide dst dst imm

end Binary

/-- The value of a constant at operand size 64 or 32. -/
def constantValue (c : Constant) (wide : Bool) : Int :=
  if wide then c.toInt64.toInt else c.toInt32.toInt

/-- Combine `dst` with a constant. -/
def applyConstant (op : Binary) (wide : Bool) (dst : Gpr) (c : Constant) : Lower Unit := do
  match c.object? with
  | some o =>
    objectToRegister o scratch
    emit (op.withRm wide dst (.reg scratch))
  | none =>
    match int32? (constantValue c wide) with
    | some imm => emit (op.withImm wide dst imm)
    | none =>
      emit (.movImm true scratch c.bits)
      emit (op.withRm wide dst (.reg scratch))

/-- Combine `dst` with a value of any shape. -/
def applyBinary (op : Binary) (wide : Bool) (dst : Gpr) (right : Operand) : Lower Unit := do
  match right with
  | .reg .. => emit (op.withRm wide dst (.reg (← gpr right)))
  | .const c => applyConstant op wide dst c
  | right =>
    if right.kind.size < 4 then emit (op.withRm wide dst (.reg (← toScratch right)))
    else discard (emitAt (← location right) fun m => op.withRm wide dst (.mem m))

/-- The right operand, moved to the scratch register if its address is computed from `res`. -/
def withoutUse (res : Gpr) (right : Operand) : Lower Operand := do
  if right.isMemory then
    if (← location right).mem.uses res then
      return .reg (← toScratch right).register right.kind
  return right

def binary (op : Binary) (left right result : Operand) : Lower Unit := do
  let res ← gpr result
  let wide := result.kind.isWord
  if left.register? = result.register? then
    mov left result false
    applyBinary op wide res right
  else if right.register? = result.register? then
    if op.isCommutative then applyBinary op wide res left
    else
      emit (.mov wide scratch res)
      mov left result false
      emit (op.withRm wide res (.reg scratch))
  else
    let right ← withoutUse res right
    mov left result false
    applyBinary op wide res right

def logic (op : LogicOp) (left right result : Operand) : Lower Unit :=
  binary (.alu (match op with | .and => .and | .or => .or | .xor => .xor)) left right result

/-- The least value of the operand size, which divided by -1 has no quotient: skip the division
for it, with the quotient already in `rax`. -/
def guardDivision (wide rem : Bool) (divisor : Gpr) (done : Label) : Lower Unit := do
  let normal ← newLabel
  if wide then
    emit (.movImm true scratch 0x8000000000000000)
    emit (.alu .cmp true .rax (.reg scratch))
  else emit (.aluImm .cmp false (.reg .rax) Int32.minValue)
  jccShort .ne normal
  if rem then emit (zero .rdx)
  emit (.aluImm .cmp wide (.reg divisor) (-1))
  jccShort .e done
  bind normal

/-- Divide `rax`, signed; the result is the offset of the division. -/
def divideSigned (wide rem : Bool) (divisor : Gpr) : Lower Nat := do
  let done ← newLabel
  if (← get).target.options.genSpecialDivChecks then guardDivision wide rem divisor done
  emit (if wide then .cqo else .cdq)
  let pc ← position
  emit (.idiv wide divisor)
  bind done
  return pc

def divideUnsigned (wide : Bool) (divisor : Gpr) : Lower Nat := do
  emit (zero .rdx)
  let pc ← position
  emit (.div wide divisor)
  return pc

/-- Division takes its dividend in `rax` and leaves the quotient there and the remainder in
`rdx`. -/
def divide (isSigned rem : Bool) (left right result : Operand) (info : Option DebugInfo) :
    Lower Unit := do
  let kind := result.kind
  let divisor ← gpr right
  if divisor = .rax ∨ divisor = .rdx then unhandled s!"divisor in {divisor.title}"
  else
    mov left (.reg Gpr.rax.register kind) false
    let pc ← if isSigned then divideSigned kind.isWord rem divisor
      else divideUnsigned kind.isWord divisor
    if let some info := info then recordTrap pc info
    let out := if rem then Gpr.rdx else Gpr.rax
    mov (.reg out.register kind) result false

def integerArith (op : ArithOp) (left right result : Operand) (info : Option DebugInfo) :
    Lower Unit :=
  match op with
  | .add => binary (.alu .add) left right result
  | .sub => binary (.alu .sub) left right result
  | .mul => binary .mul left right result
  | .div => divide true false left right result info
  | .rem => divide true true left right result info
  | .udiv => divide false false left right result info
  | .urem => divide false true left right result info

def shiftInstr : ShiftOp → Shift
  | .shl => .shl
  | .shr => .sar
  | .ushr => .shr

/-- A count that is not constant has to be in `rcx`. -/
def shift (op : ShiftOp) (value count result : Operand) : Lower Unit := do
  let res ← gpr result
  let wide := result.kind.isWord
  match count with
  | .const c =>
    let n := c.low32.toNat &&& result.kind.shiftMask
    mov value result false
    if n ≠ 0 then emit (.shiftImm (shiftInstr op) wide res (UInt8.ofNat n))
  | .reg .. =>
    let count ← gpr count
    if count ≠ .rcx then unhandled s!"shift count in {count.title}, not rcx"
    else if res = .rcx then unhandled "shift result in rcx"
    else
      mov value result false
      emit (.shiftCl (shiftInstr op) wide res)
  | count => unhandled s!"shift count in {count.shape}"

def negateInteger (value result : Operand) : Lower Unit := do
  let res ← gpr result
  mov value result false
  emit (.neg result.kind.isWord res)

/-- With the sign spread over the scratch register, `(x ^ sign) - sign` is the absolute value. -/
def absInteger (value result : Operand) : Lower Unit := do
  let res ← gpr result
  let wide := result.kind.isWord
  mov value result false
  emit (.mov wide scratch res)
  emit (.shiftImm .sar wide scratch (if wide then 63 else 31))
  emit (.alu .xor wide res (.reg scratch))
  emit (.alu .sub wide res (.reg scratch))

/-- The bit scans leave their destination as it is when no bit is set, so it holds -1 before. -/
def significantBit (most : Bool) (value result : Operand) : Lower Unit := do
  let res ← gpr result
  let src ← inGpr value
  let tmp := if src = res then scratch else res
  emit (.movImm false tmp 0xFFFFFFFF)
  emit (.bitScan most value.kind.isWord tmp src)
  if tmp ≠ res then emit (.mov false res tmp)

end MachineCode.Lower
