import MachineCode.Lowering.Integers

/-! Floating-point arithmetic. Sign changes are packed logic with a mask from the data section. -/
namespace MachineCode.Lower

open X64

/-- Combine `dst` with a value of any shape. -/
def applySse (op : SseOp) (double : Bool) (dst : Xmm) (right : Operand) : Lower Unit := do
  match right with
  | .reg .. => emit (.sse op double dst (.reg (← xmm right)))
  | .const _ => emit (.sse op double dst (.reg (← toFloatScratch right)))
  | right => discard (emitAt (← location right) fun m => .sse op double dst (.mem m))

def sse? : ArithOp → Option SseOp
  | .add => some .add
  | .sub => some .sub
  | .mul => some .mul
  | .div => some .div
  | .rem | .udiv | .urem => none

def floatArith (op : ArithOp) (left right result : Operand) : Lower Unit := do
  match sse? op with
  | none => unhandled s!"{op.title} on {result.kind}"
  | some sse =>
    let res ← xmm result
    let double := result.kind.isDouble
    if right.register? = result.register? ∧ left.register? ≠ result.register? then
      if op.isCommutative then applySse sse double res left
      else
        emit (.movap double floatScratch res)
        mov left result false
        emit (.sse sse double res (.reg floatScratch))
    else
      mov left result false
      applySse sse double res right

def arith (op : ArithOp) (left right result : Operand) (info : Option DebugInfo) : Lower Unit :=
  if result.kind.isFloating then floatArith op left right result
  else integerArith op left right result info

/-- The sign bits of a 64-bit lane. -/
def signBits (double : Bool) : UInt64 := if double then 0x8000000000000000 else 0x8000000080000000

/-- Apply packed logic with a 16-byte mask of two equal lanes. -/
def applyMask (op : PackedOp) (double : Bool) (lane : UInt64) (value result : Operand) :
    Lower Unit := do
  let res ← xmm result
  mov value result false
  let offset ← onData (·.mask128 lane lane)
  discard (emitAt (.ofData offset) fun m => .packed op double res (.mem m))

def negate (value result : Operand) : Lower Unit :=
  let double := result.kind.isDouble
  if result.kind.isFloating then applyMask .xor double (signBits double) value result
  else negateInteger value result

def abs (value result : Operand) : Lower Unit :=
  let double := result.kind.isDouble
  if result.kind.isFloating then applyMask .and double (~~~signBits double) value result
  else absInteger value result

def sqrt (value result : Operand) : Lower Unit := do
  let res ← xmm result
  applySse .sqrt result.kind.isDouble res value

end MachineCode.Lower
