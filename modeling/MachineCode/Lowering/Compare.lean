import MachineCode.Lowering.Floats

/-! Compares: the flags of `left - right`, and three-way compares to -1, 0 or 1. -/
namespace MachineCode.Lower

open X64

def compareFloat (double : Bool) (left right : Operand) : Lower Unit := do
  let l ← xmm left
  match right with
  | .reg .. => emit (.ucomis double l (.reg (← xmm right)))
  | .const _ => emit (.ucomis double l (.reg (← toFloatScratch right)))
  | right => discard (emitAt (← location right) fun m => .ucomis double l (.mem m))

/-- Compare a register with a constant. Only one operand can be in the scratch register. -/
def compareConstant (wide : Bool) (left : Gpr) (c : Constant) : Lower Unit := do
  if c.isZeroBits then emit (.test wide (.reg left) left)
  else
    match c.object?, int32? (constantValue c wide) with
    | none, some imm => emit (.aluImm .cmp wide (.reg left) imm)
    | object, _ =>
      if left = scratch then unhandled "constant needs scratch twice"
      else
        match object with
        | some o => objectToRegister o scratch
        | none => emit (.movImm true scratch c.bits)
        emit (.alu .cmp wide left (.reg scratch))

/-- Compare a register with a value of any shape. -/
def compareRegister (wide : Bool) (left : Gpr) (right : Operand) : Lower Unit := do
  match right with
  | .reg .. => emit (.alu .cmp wide left (.reg (← gpr right)))
  | .const c => compareConstant wide left c
  | right =>
    if right.kind.size < 4 then
      if left = scratch then unhandled "sub-word memory compare against scratch"
      else emit (.alu .cmp false left (.reg (← toScratch right)))
    else discard (emitAt (← location right) fun m => .alu .cmp wide left (.mem m))

/-- Compare memory at `l` with a constant. -/
def compareMemoryConstant (wide : Bool) (l : Location) (c : Constant) : Lower Unit := do
  if needsScratch c then
    match c.object? with
    | some o => objectToRegister o scratch
    | none => emit (.movImm true scratch c.bits)
    discard (emitAt l (.aluStore .cmp wide · scratch))
  else
    let imm := if wide then c.toInt64.toInt32 else c.toInt32
    discard (emitAt l fun m => .aluImm .cmp wide (.mem m) imm)

/-- Compare memory at `l`, which holds a value of `kind`, with a value of any shape. -/
def compareMemory (kind : Kind) (l : Location) (right : Operand) : Lower Unit := do
  let wide := kind.isWord
  if kind.size < 4 then
    discard (loadGpr kind scratch l)
    compareRegister false scratch right
  else
    match right with
    | .reg .. =>
      let r ← gpr right
      discard (emitAt l (.aluStore .cmp wide · r))
    | .const c => compareMemoryConstant wide l c
    | right =>
      discard (loadGpr kind scratch l)
      compareRegister wide scratch right

/-- Set the flags from `left - right`. -/
def compare (left right : Operand) : Lower Unit := do
  let kind := left.kind
  if kind.isFloating then compareFloat kind.isDouble left right
  else
    match left with
    | .reg .. => compareRegister kind.isWord (← gpr left) right
    | .const _ => unhandled "compare with a constant left operand"
    | left => compareMemory kind (← location left) right

/-- -1 in a 32-bit register. -/
def minusOne (r : Gpr) : Instr := .movImm false r 0xFFFFFFFF

/-- Leave for `done` with the result where `left` is less, or where the operands are unordered and
the operation says so. The moves change no flags. -/
def lessOrUnordered (op : CompareToIntOp) (res : Gpr) (done : Label) : Lower Unit := do
  match op with
  | .lcmp =>
    emit (minusOne res)
    jccShort .l done
  | .fcmpl | .dcmpl =>
    emit (minusOne res)
    jccShort .p done
    jccShort .b done
  | .fcmpg | .dcmpg =>
    emit (.movImm false res 1)
    jccShort .p done
    emit (minusOne res)
    jccShort .b done

/-- Three-way compare: what is not less is 1 or, when equal, 0. -/
def compareToInt (op : CompareToIntOp) (left right result : Operand) : Lower Unit := do
  let res ← gpr result
  compare left right
  let done ← newLabel
  lessOrUnordered op res done
  emit (.setcc .ne res)
  emit (.extend .zeroByte res (.reg res))
  bind done

end MachineCode.Lower
