import MachineCode.FloatFormat
import MachineCode.Machine.State
import MachineCode.X64.Decoded

/-! What each instruction does. Operands are read in the order in which the processor's accesses
are recorded, and a fault leaves everything that was done before it. -/
namespace MachineCode.Machine

open X64

/-! ### Operands -/

def readRm (x : Rm) (w : Width) (next : Word) : MachineStep Word := do
  match x with
  | .reg r => readReg r w
  | .mem m => loadBytes (← address m next) w.bytes

def writeRm (x : Rm) (w : Width) (v next : Word) : MachineStep Unit := do
  match x with
  | .reg r => writeReg r w v
  | .mem m => storeBytes (← address m next) w.bytes v

def readSource (x : Source) (w : Width) (next : Word) : MachineStep Word :=
  match x with
  | .rm x => readRm x w next
  | .imm v => return BitVec.ofInt 64 v

def destination (x : Destination) (next : Word) : MachineStep Word :=
  match x with
  | .rel d => return next + BitVec.ofInt 64 d.toInt
  | .rm x => readRm x .qword next

/-- Width of a scalar float. -/
def laneWidth (double : Bool) : Width := .ofWide double

/-- The low lane of a floating-point register, or a scalar in memory. -/
def readLane (x : Xm) (double : Bool) (next : Word) : MachineStep Word := do
  match x with
  | .reg x => return low (((← get).xmmReg x).setWidth 64) (laneWidth double)
  | .mem m => loadBytes (← address m next) (laneWidth double).bytes

/-- Overwrite the low lane; the other bits stay. -/
def writeLane (x : Xmm) (double : Bool) (v : Word) : MachineStep Unit :=
  modify fun m =>
    let mask : BitVec 128 := (low (-1) (laneWidth double)).setWidth 128
    m.setXmm x ((m.xmmReg x &&& ~~~mask) ||| (v.setWidth 128 &&& mask))

/-- Overwrite the register with a zero-extended word. -/
def writeXmm (x : Xmm) (v : Word) : MachineStep Unit := modify fun m => m.setXmm x (v.setWidth 128)

def read128 (x : Xm) (next : Word) : MachineStep (BitVec 128) := do
  match x with
  | .reg x => return (← get).xmmReg x
  | .mem m => load128 (← address m next)

def setFlags (f : Flags) : MachineStep Unit := modify fun m => { m with flags := f }

def setRip (a : Word) : MachineStep Unit := modify fun m => { m with rip := a }

def push (v : Word) : MachineStep Unit := do
  modify fun m => m.setReg .rsp (m.reg .rsp - 8)
  storeBytes ((← get).reg .rsp) 8 v

def pop : MachineStep Word := do
  let v ← loadBytes ((← get).reg .rsp) 8
  modify fun m => m.setReg .rsp (m.reg .rsp + 8)
  return v

/-! ### Integer instructions -/

/-- The operands at width `w`, and the result as a word. -/
def aluAt (op : AluOp) (w : Width) (a b : Word) (cf : Bool) : Word × Flags :=
  let (r, f) := Flags.alu op (a.setWidth w.bits) (b.setWidth w.bits) cf
  (r.setWidth 64, f)

def alu (op : AluOp) (w : Width) (dst : Rm) (src : Source) (next : Word) : MachineStep Unit := do
  let a ← readRm dst w next
  let b ← readSource src w next
  let (r, f) := aluAt op w a b (← get).flags.cf
  setFlags f
  if op ≠ .cmp then writeRm dst w r next

def test (w : Width) (a : Rm) (b : Source) (next : Word) : MachineStep Unit := do
  let x ← readRm a w next
  let y ← readSource b w next
  setFlags (aluAt .and w x y false).2

def neg (w : Width) (x : Rm) (next : Word) : MachineStep Unit := do
  let a ← readRm x w next
  let (r, f) := aluAt .sub w 0 a false
  setFlags f
  writeRm x w r next

def not (w : Width) (x : Rm) (next : Word) : MachineStep Unit := do
  let a ← readRm x w next
  writeRm x w (~~~a) next

/-- The full product of `rax` and the operand, into `rdx` and `rax`. The flags stay. -/
def wideningMul (signed : Bool) (w : Width) (x : Rm) (next : Word) : MachineStep Unit := do
  let b ← readRm x w next
  let a ← readReg .rax w
  let product : BitVec 128 :=
    if signed then BitVec.ofInt 128 ((signExtend a w).toInt * (signExtend b w).toInt)
    else BitVec.ofNat 128 (a.toNat * b.toNat)
  writeReg .rax w (product.setWidth 64)
  writeReg .rdx w ((product >>> w.bits).setWidth 64)

/-- The product at the operand width; carry and overflow say that it does not fit. -/
def imul (w : Width) (dst : Gpr) (a b : Word) : MachineStep Unit := do
  let product := (signExtend a w).toInt * (signExtend b w).toInt
  let r := low (BitVec.ofInt 64 product) w
  let overflow : Bool := (signExtend r w).toInt ≠ product
  modify fun m => { m with flags := { m.flags with cf := overflow, of := overflow } }
  writeReg dst w r

/-- Quotient and remainder of the pair `rdx:rax`, or the fault. -/
def quotient (signed : Bool) (w : Width) (hi lo divisor pc : Word) : Except Fault (Word × Word) :=
  if divisor = 0 then .error (.divideError pc)
  else if signed then
    let pair := BitVec.ofNat (2 * w.bits) (hi.toNat * pow2 w.bits + lo.toNat)
    let n := pair.toInt
    let d := (signExtend divisor w).toInt
    let q := n.tdiv d
    if q = pow2 127 then .error (.quotientOverflow pc)
    else if q < -pow2 (w.bits - 1) ∨ pow2 (w.bits - 1) - 1 < q then .error (.divideError pc)
    else .ok (BitVec.ofInt 64 q, BitVec.ofInt 64 (n.tmod d))
  else
    let n := hi.toNat * pow2 w.bits + lo.toNat
    let q := n / divisor.toNat
    if pow2 w.bits ≤ q then .error (.divideError pc)
    else .ok (BitVec.ofNat 64 q, BitVec.ofNat 64 (n % divisor.toNat))

/-- A quotient and its remainder go to `rax` and `rdx`. -/
def deliver (w : Width) : Except Fault (Word × Word) → MachineStep Unit
  | .error e => throw e
  | .ok (q, r) => do
    writeReg .rax w q
    writeReg .rdx w r

def divide (signed : Bool) (w : Width) (x : Rm) (next : Word) : MachineStep Unit := do
  let divisor ← readRm x w next
  let m ← get
  deliver w (quotient signed w (low (m.reg .rdx) w) (low (m.reg .rax) w) divisor m.pc)

/-- A shifted value and the last bit shifted out, for a count from 1 to 63. -/
def shiftBits (op : Shift) (w : Width) (a : Word) (count : Nat) : Word × Bool :=
  let s := signExtend a w
  let turn := count % w.bits
  let left := low (a <<< turn ||| a >>> (w.bits - turn)) w
  let right := low (a >>> turn ||| a <<< (w.bits - turn)) w
  match op with
  | .shl => (low (a <<< count) w, count ≤ w.bits && a.getLsbD (w.bits - count))
  | .shr => (a >>> count, a.getLsbD (count - 1))
  | .sar => (low (s.sshiftRight count) w, s.getLsbD (count - 1))
  | .rol => let r := if turn = 0 then a else left; (r, r.getLsbD 0)
  | .ror => let r := if turn = 0 then a else right; (r, r.getLsbD (w.bits - 1))

/-- Rotates leave zero, sign and parity. -/
def shiftFlags (op : Shift) (w : Width) (old : Flags) (r : Word) (cf : Bool) : Flags :=
  match op with
  | .rol | .ror => { old with cf, of := false }
  | _ => Flags.ofResult (r.setWidth w.bits) cf false

/-- A count of 0 changes nothing. -/
def shift (op : Shift) (w : Width) (dst : Rm) (count : ShiftCount) (next : Word) :
    MachineStep Unit := do
  let a ← readRm dst w next
  let n ← match count with
    | .imm n => pure n.toNat
    | .cl => BitVec.toNat <$> readReg .rcx .byte
  let n := n % (if w = .qword then 64 else 32)
  if n ≠ 0 then
    let (r, cf) := shiftBits op w a n
    let old := (← get).flags
    setFlags (shiftFlags op w old r cf)
    writeRm dst w r next

/-- Index of the lowest set bit, 64 if there is none. -/
def lowestBit (v : Word) : Nat := ((List.range 64).find? v.getLsbD).getD 64

/-- Index of the highest set bit. -/
def highestBit (v : Word) : Nat := v.toNat.log2

/-- Of a zero value the register stays. -/
def bitScan (reverse : Bool) (w : Width) (dst : Gpr) (src : Rm) (next : Word) :
    MachineStep Unit := do
  let v ← readRm src w next
  modify fun m => { m with flags := { m.flags with zf := v == 0 } }
  if v ≠ 0 then
    writeReg dst w (BitVec.ofNat 64 (if reverse then highestBit v else lowestBit v))

def cmov (cond : Cond) (w : Width) (dst : Gpr) (src : Rm) (next : Word) : MachineStep Unit := do
  let v ← readRm src w next
  if (← get).flags.cond cond then writeReg dst w v
  else writeReg dst w (← readReg dst w)

/-- A stub runs in place; code is entered with the return address on the stack; a call to any
other address is only recorded. -/
def callTo (target next : Word) : MachineStep Unit := do
  modify fun m => { m with calls := m.calls.push target }
  let m ← get
  match m.stubs.lookup target with
  | some s => set (m.runStub s)
  | none =>
    if m.images.any (·.contains target) then
      push next
      setRip target

def cmpxchg (w : Width) (dst : Rm) (src : Gpr) (next : Word) : MachineStep Unit := do
  let current ← readRm dst w next
  let expected ← readReg .rax w
  let f := (aluAt .sub w expected current false).2
  setFlags f
  if f.zf then
    writeRm dst w (← readReg src w) next
  else writeReg .rax w current

/-! ### Floating-point instructions -/

/-- A scalar stored in memory or copied between registers, or a load that clears the rest of the
register. -/
def movs (double : Bool) (dst src : Xm) (next : Word) : MachineStep Unit := do
  let v ← readLane src double next
  match dst, src with
  | .reg d, .reg _ => writeLane d double v
  | .reg d, .mem _ => writeXmm d v
  | .mem m, _ => storeBytes (← address m next) (laneWidth double).bytes v

def sseResult (op : SseOp) (f : FloatFormat) (a b : Nat) : Nat :=
  match op with
  | .add => f.add a b
  | .sub => f.sub a b
  | .mul => f.mul a b
  | .div => f.div a b
  | .sqrt => f.sqrt b

def sse (op : SseOp) (double : Bool) (dst : Xmm) (src : Xm) (next : Word) : MachineStep Unit := do
  let a ← readLane (.reg dst) double next
  let b ← readLane src double next
  writeLane dst double (BitVec.ofNat 64 (sseResult op (.ofDouble double) a.toNat b.toNat))

/-- Flags of a float compare: unordered sets all three, less the carry, equal the zero flag. -/
def orderFlags : FloatOrder → Flags
  | .less => { Flags.clear with cf := true }
  | .equal => { Flags.clear with zf := true }
  | .greater => .clear
  | .unordered => { Flags.clear with cf := true, zf := true, pf := true }

def ucomis (double : Bool) (a : Xmm) (b : Xm) (next : Word) : MachineStep Unit := do
  let x ← readLane (.reg a) double next
  let y ← readLane b double next
  let f := FloatFormat.ofDouble double
  setFlags (orderFlags ((f.decode x.toNat).compare (f.decode y.toNat)))

def packed (op : PackedOp) (dst : Xmm) (src : Xm) (next : Word) : MachineStep Unit := do
  let b ← read128 src next
  modify fun m => m.setXmm dst (op.eval (m.xmmReg dst) b)

/-- Truncation toward zero; the least integer stands for all that does not fit. -/
def truncated (w : Width) (v : FloatValue) : Word :=
  match v.truncate? with
  | some t =>
    if -pow2 (w.bits - 1) ≤ t ∧ t < pow2 (w.bits - 1) then BitVec.ofInt 64 t
    else BitVec.ofNat 64 (pow2 (w.bits - 1))
  | none => BitVec.ofNat 64 (pow2 (w.bits - 1))

/-! ### All instructions -/

/-- One instruction, which ends at `next`. -/
def execute (i : Decoded) (next : Word) : MachineStep Unit := do
  match i with
  | .mov w dst src => writeRm dst w (← readSource src w next) next
  | .movzx w dst v src => writeReg dst w (← readRm src v next)
  | .movsx w dst v src => writeReg dst w (signExtend (← readRm src v next) v)
  | .lea w dst src => writeReg dst w (← address src next)
  | .alu op w dst src => alu op w dst src next
  | .test w a b => test w a b next
  | .unary .not w x => not w x next
  | .unary .neg w x => neg w x next
  | .unary .mul w x => wideningMul false w x next
  | .unary .imul w x => wideningMul true w x next
  | .unary .div w x => divide false w x next
  | .unary .idiv w x => divide true w x next
  | .imul w dst src none =>
    let a ← readReg dst w
    imul w dst a (← readRm src w next)
  | .imul w dst src (some factor) =>
    let a ← readRm src w next
    imul w dst a (BitVec.ofInt 64 factor)
  | .cdq =>
    modify fun m => m.setReg .rdx (if (low (m.reg .rax) .dword).getLsbD 31 then 0xFFFFFFFF else 0)
  | .cqo => modify fun m => m.setReg .rdx (if (m.reg .rax).msb then -1 else 0)
  | .shift op w dst count => shift op w dst count next
  | .bitScan reverse w dst src => bitScan reverse w dst src next
  | .jcc cond d => if (← get).flags.cond cond then setRip (next + BitVec.ofInt 64 d.toInt)
  | .jmp dst => setRip (← destination dst next)
  | .call dst => callTo (← destination dst next) next
  | .ret => setRip (← pop)
  | .setcc cond dst => do
    let v : Word := if (← get).flags.cond cond then 1 else 0
    writeRm dst .byte v next
  | .cmov cond w dst src => cmov cond w dst src next
  | .push r => push (← readReg r .qword)
  | .pop r => writeReg r .qword (← pop)
  | .nop | .pause | .mfence => return
  | .int3 => throw (.breakpoint (← get).pc)
  | .ud2 => throw (.invalidOpcode (← get).pc)
  | .movs double dst src => movs double dst src next
  | .movap _ dst src =>
    let v ← read128 src next
    modify fun m => m.setXmm dst v
  | .sse op double dst src => sse op double dst src next
  | .ucomis double a b => ucomis double a b next
  | .packed op _ dst src => packed op dst src next
  | .cvtFromInt double w dst src =>
    let v := (signExtend (← readRm src w next) w).toInt
    writeLane dst double (BitVec.ofNat 64 ((FloatFormat.ofDouble double).ofInt v))
  | .cvtToInt double w dst src =>
    let v ← readLane src double next
    writeReg dst w (truncated w ((FloatFormat.ofDouble double).decode v.toNat))
  | .cvtFloat toDouble dst src =>
    let v ← readLane src (!toDouble) next
    let bits := (FloatFormat.ofDouble (!toDouble)).convert (.ofDouble toDouble) v.toNat
    writeLane dst toDouble (BitVec.ofNat 64 bits)
  | .movToXmm w dst src => writeXmm dst (← readRm src w next)
  | .movFromXmm w dst src => writeRm dst w (((← get).xmmReg src).setWidth 64) next
  | .cmpxchg _ w dst src => cmpxchg w dst src next

end MachineCode.Machine
