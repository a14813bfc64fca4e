import MachineCode.Machine.Execute

/-! Execution of an operation on a list of operands. The operands are looked up one by one, and a
lookup can fail: the list may be too short, a register number too large, a size not that of a
scalar. -/
namespace MachineCode.Machine

open X64

/-! ### Lookups -/

def operandAt (xs : List RawOperand) (k : Nat) : MachineStep RawOperand := do
  match xs[k]? with
  | some x => return x
  | none => throw (.missingOperand (← get).pc)

def gprAt (num : UInt8) : MachineStep Gpr := do
  if h : num.toNat < 16 then return ⟨⟨num.toNat, h⟩⟩
  else throw (.missingRegister (← get).pc)

def xmmAt (num : UInt8) : MachineStep Xmm := do
  if h : num.toNat < 16 then return ⟨⟨num.toNat, h⟩⟩
  else throw (.missingRegister (← get).pc)

/-- Arithmetic is at the sizes of the scalars. -/
def widthOf (size : UInt8) : MachineStep Width := do
  match Width.ofSize? size with
  | some w => return w
  | none => throw (.oddSize (← get).pc)

/-! ### Operands -/

/-- The low bytes of a word, as many as there are in the operand. -/
def mask (size : UInt8) : Word := if 8 ≤ size then -1 else (1 <<< (8 * size.toNat)) - 1

def loadScalar (addr : Word) (size : UInt8) : MachineStep Word := do
  if size ≤ 8 then loadBytes addr size.toNat
  else
    access addr size.toNat false
    throw (.oddSize (← get).pc)

def storeScalar (addr : Word) (size : UInt8) (v : Word) : MachineStep Unit := do
  if size ≤ 8 then storeBytes addr size.toNat v
  else
    access addr size.toNat true
    throw (.oddSize (← get).pc)

/-- The contents of a register, 0 where there is none. -/
def registerAt : Option UInt8 → MachineStep Word
  | none => return 0
  | some num => do
    let r ← gprAt num
    return (← get).reg r

/-- The address that an operand denotes, in an instruction that ends at `next`. -/
def rawAddress (x : RawMem) (next : Word) : MachineStep Word := do
  let base ← registerAt x.base
  let index ← registerAt x.index
  return BitVec.ofInt 64 x.disp.toInt + (if x.rip then next else 0) + base +
    index * BitVec.ofNat 64 x.scale.toNat

def readOperand (x : RawOperand) (next : Word) : MachineStep Word := do
  match x with
  | .gpr num size =>
    let r ← gprAt num
    return (← get).reg r &&& mask size
  | .imm v => return v.toBitVec
  | .mem m => loadScalar (← rawAddress m next) m.width
  | .xmm num =>
    let x ← xmmAt num
    return ((← get).xmmReg x).setWidth 64
  | .rel d => return next + BitVec.ofInt 64 d.toInt

/-- Constants and displacements are not written to. -/
def writeOperand (x : RawOperand) (v next : Word) : MachineStep Unit := do
  match x with
  | .gpr num size =>
    let r ← gprAt num
    modify fun m => m.setReg r <|
      if size = 8 then v
      else if size = 4 then low v .dword
      else (m.reg r &&& ~~~mask size) ||| (v &&& mask size)
  | .mem m => storeScalar (← rawAddress m next) m.width v
  | .xmm num => writeXmm (← xmmAt num) v
  | .imm _ | .rel _ => return

/-- The low lane of a floating-point register, a scalar in memory, or another operand. -/
def readScalar (x : RawOperand) (double : Bool) (next : Word) : MachineStep Word := do
  match x with
  | .xmm num =>
    let x ← xmmAt num
    return low (((← get).xmmReg x).setWidth 64) (laneWidth double)
  | .mem m => loadBytes (← rawAddress m next) (laneWidth double).bytes
  | x => readOperand x next

def readWide (x : RawOperand) (next : Word) : MachineStep (BitVec 128) := do
  match x with
  | .xmm num =>
    let x ← xmmAt num
    return (← get).xmmReg x
  | .mem m => load128 (← rawAddress m next)
  | x => return (← readOperand x next).setWidth 128

/-- The floating-point register that an operation changes, 0 where the operand is none. -/
def xmmIndex : RawOperand → UInt8
  | .xmm num => num
  | _ => 0

/-- Overwrite the low lane of the operand. -/
def writeScalar (x : RawOperand) (double : Bool) (v : Word) : MachineStep Unit := do
  writeLane (← xmmAt (xmmIndex x)) double v

/-- How wide an operation is that has this operand. -/
def sizeOf : RawOperand → UInt8
  | .gpr _ size => size
  | .mem m => m.width
  | .xmm _ => 16
  | .imm _ | .rel _ => 8

/-! ### Integer operations -/

def interpretAlu (op : AluOp) (xs : List RawOperand) (next : Word) : MachineStep Unit := do
  let dst ← operandAt xs 0
  let w ← widthOf (sizeOf dst)
  let a ← readOperand dst next
  let b ← readOperand (← operandAt xs 1) next
  let (r, f) := aluAt op w a b (← get).flags.cf
  setFlags f
  if op ≠ .cmp then writeOperand dst r next

def interpretTest (xs : List RawOperand) (next : Word) : MachineStep Unit := do
  let x ← operandAt xs 0
  let w ← widthOf (sizeOf x)
  let a ← readOperand x next
  let b ← readOperand (← operandAt xs 1) next
  setFlags (aluAt .and w a b false).2

/-- The carry says whether the operand is not zero. -/
def interpretNeg (x : RawOperand) (next : Word) : MachineStep Unit := do
  let w ← widthOf (sizeOf x)
  let a ← readOperand x next
  let (r, f) := aluAt .sub w 0 a false
  setFlags { f with cf := low a w != 0 }
  writeOperand x r next

/-- The full product of `rax` and the operand, into `rdx` and `rax`. -/
def interpretWideningMul (signed : Bool) (x : RawOperand) (next : Word) : MachineStep Unit := do
  let w ← widthOf (sizeOf x)
  let b ← readOperand x next
  let a ← readReg .rax w
  let product : BitVec 128 :=
    if signed then BitVec.ofInt 128 ((signExtend a w).toInt * (signExtend b w).toInt)
    else BitVec.ofNat 128 (a.toNat * (low b w).toNat)
  writeReg .rax w (product.setWidth 64)
  writeReg .rdx w ((product >>> w.bits).setWidth 64)

/-- One operand is multiplied by `rax`. Of two, the first one is a factor; of three, the last. -/
def interpretImul (xs : List RawOperand) (next : Word) : MachineStep Unit := do
  let dst ← operandAt xs 0
  if xs.length = 1 then interpretWideningMul true dst next
  else
    let w ← widthOf (sizeOf dst)
    let a ← if xs.length = 3 then readOperand (← operandAt xs 1) next else readOperand dst next
    let b ← if xs.length = 3 then readOperand (← operandAt xs 2) next
      else readOperand (← operandAt xs 1) next
    let product := (signExtend a w).toInt * (signExtend b w).toInt
    let r := low (BitVec.ofInt 64 product) w
    let overflow : Bool := (signExtend r w).toInt ≠ product
    modify fun m => { m with flags := { m.flags with cf := overflow, of := overflow } }
    writeOperand dst r next

def interpretDivide (signed : Bool) (x : RawOperand) (next : Word) : MachineStep Unit := do
  let w ← widthOf (sizeOf x)
  let divisor := low (← readOperand x next) w
  let m ← get
  deliver w (quotient signed w (low (m.reg .rdx) w) (low (m.reg .rax) w) divisor m.pc)

def interpretShift (op : Shift) (xs : List RawOperand) (next : Word) : MachineStep Unit := do
  let dst ← operandAt xs 0
  let w ← widthOf (sizeOf dst)
  let a := low (← readOperand dst next) w
  let count ← readOperand (← operandAt xs 1) next
  let n := count.toNat % (if w = .qword then 64 else 32)
  if n ≠ 0 then
    let (r, cf) := shiftBits op w a n
    let old := (← get).flags
    setFlags (shiftFlags op w old r cf)
    writeOperand dst r next

def interpretBitScan (reverse : Bool) (xs : List RawOperand) (next : Word) :
    MachineStep Unit := do
  let dst ← operandAt xs 0
  let w ← widthOf (sizeOf dst)
  let v := low (← readOperand (← operandAt xs 1) next) w
  modify fun m => { m with flags := { m.flags with zf := v == 0 } }
  if v ≠ 0 then
    writeOperand dst (BitVec.ofNat 64 (if reverse then highestBit v else lowestBit v)) next

def interpretCmov (cond : Cond) (xs : List RawOperand) (next : Word) : MachineStep Unit := do
  let v ← readOperand (← operandAt xs 1) next
  let dst ← operandAt xs 0
  if (← get).flags.cond cond then writeOperand dst v next
  else writeOperand dst (← readOperand dst next) next

/-- The accumulator is compared, as wide as the first operand. -/
def interpretCmpxchg (xs : List RawOperand) (next : Word) : MachineStep Unit := do
  let dst ← operandAt xs 0
  let w ← widthOf (sizeOf dst)
  let accumulator := RawOperand.gpr 0 (sizeOf dst)
  let current ← readOperand dst next
  let expected ← readOperand accumulator next
  let f := (aluAt .sub w expected current false).2
  setFlags f
  if f.zf then writeOperand dst (← readOperand (← operandAt xs 1) next) next
  else writeOperand accumulator current next

/-! ### Floating-point operations -/

def interpretMovs (double : Bool) (xs : List RawOperand) (next : Word) : MachineStep Unit := do
  let dst ← operandAt xs 0
  let src ← operandAt xs 1
  let v ← readScalar src double next
  match dst, src with
  | .xmm _, .xmm _ => writeScalar dst double v
  | dst, _ => writeOperand dst v next

def interpretSse (op : SseOp) (double : Bool) (xs : List RawOperand) (next : Word) :
    MachineStep Unit := do
  let dst ← operandAt xs 0
  let a ← readScalar dst double next
  let b ← readScalar (← operandAt xs 1) double next
  writeScalar dst double (BitVec.ofNat 64 (sseResult op (.ofDouble double) a.toNat b.toNat))

def interpretUcomis (double : Bool) (xs : List RawOperand) (next : Word) : MachineStep Unit := do
  let x ← readScalar (← operandAt xs 0) double next
  let y ← readScalar (← operandAt xs 1) double next
  let f := FloatFormat.ofDouble double
  setFlags (orderFlags ((f.decode x.toNat).compare (f.decode y.toNat)))

def interpretPacked (op : PackedOp) (xs : List RawOperand) (next : Word) : MachineStep Unit := do
  let dst ← xmmAt (xmmIndex (← operandAt xs 0))
  let b ← readWide (← operandAt xs 1) next
  modify fun m => m.setXmm dst (op.eval (m.xmmReg dst) b)

def interpretCvtFromInt (double : Bool) (xs : List RawOperand) (next : Word) :
    MachineStep Unit := do
  let src ← operandAt xs 1
  let w ← widthOf (sizeOf src)
  let v := (signExtend (← readOperand src next) w).toInt
  writeScalar (← operandAt xs 0) double
    (BitVec.ofNat 64 ((FloatFormat.ofDouble double).ofInt v))

def interpretCvtToInt (double : Bool) (xs : List RawOperand) (next : Word) :
    MachineStep Unit := do
  let dst ← operandAt xs 0
  let w ← widthOf (sizeOf dst)
  let v ← readScalar (← operandAt xs 1) double next
  writeOperand dst (truncated w ((FloatFormat.ofDouble double).decode v.toNat)) next

def interpretCvtFloat (toDouble : Bool) (xs : List RawOperand) (next : Word) :
    MachineStep Unit := do
  let v ← readScalar (← operandAt xs 1) (!toDouble) next
  let bits := (FloatFormat.ofDouble (!toDouble)).convert (.ofDouble toDouble) v.toNat
  writeScalar (← operandAt xs 0) toDouble (BitVec.ofNat 64 bits)

/-! ### All operations -/

/-- One instruction, which ends at `next`. -/
def interpret (i : Insn) (next : Word) : MachineStep Unit := do
  let xs := i.operands
  match i.op with
  | .mov | .movzx =>
    let v ← readOperand (← operandAt xs 1) next
    writeOperand (← operandAt xs 0) v next
  | .movsx =>
    let src ← operandAt xs 1
    let v ← readOperand src next
    let w ← widthOf (sizeOf src)
    writeOperand (← operandAt xs 0) (signExtend v w) next
  | .lea =>
    match ← operandAt xs 1 with
    | .mem m =>
      let a ← rawAddress m next
      writeOperand (← operandAt xs 0) a next
    | _ => return
  | .alu op => interpretAlu op xs next
  | .test => interpretTest xs next
  | .neg => interpretNeg (← operandAt xs 0) next
  | .not =>
    let x ← operandAt xs 0
    let a ← readOperand x next
    writeOperand x (~~~a) next
  | .mul => interpretWideningMul false (← operandAt xs 0) next
  | .imul => interpretImul xs next
  | .div => interpretDivide false (← operandAt xs 0) next
  | .idiv => interpretDivide true (← operandAt xs 0) next
  | .cdq =>
    modify fun m => m.setReg .rdx (if (low (m.reg .rax) .dword).getLsbD 31 then 0xFFFFFFFF else 0)
  | .cqo => modify fun m => m.setReg .rdx (if (m.reg .rax).msb then -1 else 0)
  | .shift op => interpretShift op xs next
  | .bitScan reverse => interpretBitScan reverse xs next
  | .jcc cond =>
    if (← get).flags.cond cond then setRip (← readOperand (← operandAt xs 0) next)
  | .jmp => setRip (← readOperand (← operandAt xs 0) next)
  | .call => callTo (← readOperand (← operandAt xs 0) next) next
  | .ret => setRip (← pop)
  | .setcc cond =>
    let v : Word := if (← get).flags.cond cond then 1 else 0
    writeOperand (← operandAt xs 0) v next
  | .cmov cond => interpretCmov cond xs next
  | .push => push (← readOperand (← operandAt xs 0) next)
  | .pop =>
    let v ← pop
    writeOperand (← operandAt xs 0) v next
  | .nop | .pause | .mfence => return
  | .int3 => throw (.breakpoint (← get).pc)
  | .ud2 => throw (.invalidOpcode (← get).pc)
  | .movs double => interpretMovs double xs next
  | .movap _ =>
    let v ← readWide (← operandAt xs 1) next
    let dst ← xmmAt (xmmIndex (← operandAt xs 0))
    modify fun m => m.setXmm dst v
  | .sse op double => interpretSse op double xs next
  | .ucomis double => interpretUcomis double xs next
  | .packed op _ => interpretPacked op xs next
  | .cvtFromInt double => interpretCvtFromInt double xs next
  | .cvtToInt double => interpretCvtToInt double xs next
  | .cvtFloat toDouble => interpretCvtFloat toDouble xs next
  | .movToXmm =>
    let v ← readOperand (← operandAt xs 1) next
    writeXmm (← xmmAt (xmmIndex (← operandAt xs 0))) v
  | .movFromXmm =>
    let x ← xmmAt (xmmIndex (← operandAt xs 1))
    let v := ((← get).xmmReg x).setWidth 64
    writeOperand (← operandAt xs 0) v next
  | .cmpxchg _ => interpretCmpxchg xs next

end MachineCode.Machine
