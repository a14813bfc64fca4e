import MachineCode.X64.Decode

/-! Decoding into an operation and its operands, byte for byte: register numbers are put together
from the fields of the bytes, and the opcode says which operands there are. -/
namespace MachineCode.X64

namespace Prefixes

/-- The fourth bit of the register field, where it stands in a register number. -/
def regBit (p : Prefixes) : UInt8 := (p.rex &&& 4) <<< 1

def indexBit (p : Prefixes) : UInt8 := (p.rex &&& 2) <<< 2

def rmBit (p : Prefixes) : UInt8 := (p.rex &&& 1) <<< 3

/-- Operand size of a general instruction, in bytes. -/
def size (p : Prefixes) : UInt8 := if p.wide then 8 else if p.data16 then 2 else 4

/-- Operand size of the general operand of a floating-point instruction. -/
def intSize (p : Prefixes) : UInt8 := if p.wide then 8 else 4

/-- Size of a form with an 8-bit variant. -/
def formSize (p : Prefixes) (byte : Bool) : UInt8 := if byte then 1 else p.size

/-- Bytes of the scalar that the prefix picks. -/
def scalarSize (p : Prefixes) : UInt8 := if p.repne then 8 else 4

end Prefixes

/-- A register or a memory operand whose register file and width are not known yet. -/
inductive RawRm where
  | reg (num : UInt8)
  | mem (m : RawMem)
  deriving DecidableEq, Repr

/-- The ModRM byte with what follows it; `ext` is its register field, without the fourth bit. -/
structure RawModRm where
  reg : UInt8
  ext : UInt8
  rm : RawRm
  deriving DecidableEq, Repr

namespace RawReader

open Reader

/-- The registers of an address. Where there is no base, a displacement follows in mode 0. -/
def base (p : Prefixes) (mode rm : UInt8) : Reader RawMem := do
  let m : RawMem := ⟨none, none, 1, 0, false, 0⟩
  if rm = 4 then
    let sib ← byte
    let index := (sib >>> 3) &&& 7 ||| p.indexBit
    let m := if index ≠ 4 then { m with index := some index, scale := (1 : UInt8) <<< (sib >>> 6) }
      else m
    if sib &&& 7 = 5 ∧ mode = 0 then return { m with disp := ← int32 }
    else return { m with base := some (sib &&& 7 ||| p.rmBit) }
  else if rm = 5 ∧ mode = 0 then return { m with rip := true, disp := ← int32 }
  else return { m with base := some (rm ||| p.rmBit) }

/-- The displacement that a mode asks for; in the others the address stays as it is. -/
def displaced (mode : UInt8) (m : RawMem) : Reader RawMem :=
  if mode = 1 then do return { m with disp := Int32.ofInt (← int8) }
  else if mode = 2 then do return { m with disp := ← int32 }
  else pure m

def mem (p : Prefixes) (mode rm : UInt8) : Reader RawMem := do displaced mode (← base p mode rm)

def modRm (p : Prefixes) : Reader RawModRm := do
  let b ← byte
  let ext := (b >>> 3) &&& 7
  let rm ← if b >>> 6 = 3 then pure (.reg (b &&& 7 ||| p.rmBit))
    else RawRm.mem <$> mem p (b >>> 6) (b &&& 7)
  return ⟨ext ||| p.regBit, ext, rm⟩

/-- A general register. The byte registers 4 to 7 are left out without a REX byte. -/
def gpr (p : Prefixes) (width num : UInt8) : Reader RawOperand :=
  if width = 1 ∧ p.rex = 0 ∧ 4 ≤ num ∧ num < 8 then failure else pure (.gpr num width)

def rm (p : Prefixes) (width : UInt8) : RawRm → Reader RawOperand
  | .reg num => gpr p width num
  | .mem m => pure (.mem { m with width })

def xm (width : UInt8) : RawRm → RawOperand
  | .reg num => .xmm num
  | .mem m => .mem { m with width }

/-- An immediate of the operand size, 32 bits at most. -/
def immediate (size : UInt8) : Reader RawOperand := do
  if size = 2 then return .imm (Int64.ofInt (← int16))
  else return .imm (Int64.ofInt (← int32).toInt)

def immediate8 : Reader RawOperand := do return .imm (Int64.ofInt (← int8))

/-- The 8-bit immediate, or the one of the operand size. -/
def shortImmediate (byte : Bool) (size : UInt8) : Reader RawOperand :=
  if byte then immediate8 else immediate size

/-- A register or memory operand and a register, in this order. -/
def rmReg (p : Prefixes) (width : UInt8) : Reader (List RawOperand) := do
  let m ← modRm p
  return [← rm p width m.rm, ← gpr p width m.reg]

/-- A register, and a register or memory operand of a width of its own. -/
def regRm (p : Prefixes) (width source : UInt8) : Reader (List RawOperand) := do
  let m ← modRm p
  return [← gpr p width m.reg, ← rm p source m.rm]

def xmmXm (p : Prefixes) (width : UInt8) : Reader (List RawOperand) := do
  let m ← modRm p
  return [.xmm m.reg, xm width m.rm]

def shift (p : Prefixes) (count : Reader RawOperand) : Reader Insn := do
  let m ← modRm p
  match Shift.ofCode? m.ext.toNat with
  | some op => return ⟨.shift op, [← rm p p.size m.rm, ← count]⟩
  | none => failure

def group3 (p : Prefixes) : Reader Insn := do
  let m ← modRm p
  let x ← rm p p.size m.rm
  match m.ext.toNat with
  | 0 => return ⟨.test, [x, ← immediate p.size]⟩
  | 2 => return ⟨.not, [x]⟩
  | 3 => return ⟨.neg, [x]⟩
  | 4 => return ⟨.mul, [x]⟩
  | 5 => return ⟨.imul, [x]⟩
  | 6 => return ⟨.div, [x]⟩
  | 7 => return ⟨.idiv, [x]⟩
  | _ => failure

def group5 (p : Prefixes) : Reader Insn := do
  let m ← modRm p
  let x ← rm p 8 m.rm
  match m.ext.toNat with
  | 2 => return ⟨.call, [x]⟩
  | 4 => return ⟨.jmp, [x]⟩
  | _ => failure

/-- The immediate of a move into a register has the operand size; the full word is signed. -/
def moveImmediate (size : UInt8) : Reader RawOperand := do
  if size = 8 then return .imm (Int64.ofNat (← number 8))
  else return .imm (Int64.ofNat (← number (if size = 2 then 2 else 4)))

end RawReader

open RawReader

/-- What follows a one-byte opcode. -/
def OpcodeForm.readInsn (p : Prefixes) : OpcodeForm → Reader Insn
  | .aluStore op => return ⟨.alu op, ← rmReg p p.size⟩
  | .aluLoad op => return ⟨.alu op, ← regRm p p.size p.size⟩
  | .push low => return ⟨.push, [← gpr p 8 (UInt8.ofNat low ||| p.rmBit)]⟩
  | .pop low => return ⟨.pop, [← gpr p 8 (UInt8.ofNat low ||| p.rmBit)]⟩
  | .movsxd => return ⟨.movsx, ← regRm p p.size 4⟩
  | .imulImm byte => do
    let xs ← regRm p p.size p.size
    return ⟨.imul, xs ++ [← shortImmediate byte p.size]⟩
  | .jccShort cond => return ⟨.jcc cond, [.rel (Int32.ofInt (← Reader.int8))]⟩
  | .aluImm byte => do
    let m ← modRm p
    let x ← rm p p.size m.rm
    return ⟨.alu (.ofCode m.ext.toNat), [x, ← shortImmediate byte p.size]⟩
  | .test byte => return ⟨.test, ← rmReg p (p.formSize byte)⟩
  | .movStore byte => return ⟨.mov, ← rmReg p (p.formSize byte)⟩
  | .movLoad byte => return ⟨.mov, ← regRm p (p.formSize byte) (p.formSize byte)⟩
  | .lea => do
    let m ← modRm p
    match m.rm with
    | .mem mem => return ⟨.lea, [← gpr p p.size m.reg, .mem mem]⟩
    | .reg _ => failure
  | .nop => return ⟨if p.rep then .pause else .nop, []⟩
  | .cdq => return ⟨if p.wide then .cqo else .cdq, []⟩
  | .movImm low => do
    let x ← gpr p p.size (UInt8.ofNat low ||| p.rmBit)
    return ⟨.mov, [x, ← moveImmediate p.size]⟩
  | .shiftImm => shift p do return .imm (Int64.ofNat (← Reader.byte).toNat)
  | .shiftOne => shift p (pure (.imm 1))
  | .shiftCl => shift p (pure (.gpr 1 1))
  | .ret => return ⟨.ret, []⟩
  | .movImmRm byte => do
    let m ← modRm p
    Reader.require (m.ext == 0)
    let x ← rm p (p.formSize byte) m.rm
    return ⟨.mov, [x, ← shortImmediate byte (p.formSize byte)]⟩
  | .int3 => return ⟨.int3, []⟩
  | .call => return ⟨.call, [.rel (← Reader.int32)]⟩
  | .jmp => return ⟨.jmp, [.rel (← Reader.int32)]⟩
  | .jmpShort => return ⟨.jmp, [.rel (Int32.ofInt (← Reader.int8))]⟩
  | .group3 => RawReader.group3 p
  | .group5 => RawReader.group5 p

/-- What follows a two-byte opcode. -/
def EscapedForm.readInsn (p : Prefixes) : EscapedForm → Reader Insn
  | .ud2 => return ⟨.ud2, []⟩
  | .movsLoad => do
    Reader.require p.isScalar
    return ⟨.movs p.repne, ← xmmXm p p.scalarSize⟩
  | .movsStore => do
    Reader.require p.isScalar
    let xs ← xmmXm p p.scalarSize
    return ⟨.movs p.repne, xs.reverse⟩
  | .nop => do
    let _ ← modRm p
    return ⟨.nop, []⟩
  | .movap => return ⟨.movap p.data16, ← xmmXm p 16⟩
  | .cvtFromInt => do
    Reader.require p.isScalar
    let m ← modRm p
    return ⟨.cvtFromInt p.repne, [.xmm m.reg, ← rm p p.intSize m.rm]⟩
  | .cvtToInt => do
    Reader.require p.isScalar
    let m ← modRm p
    return ⟨.cvtToInt p.repne, [← gpr p p.intSize m.reg, xm p.scalarSize m.rm]⟩
  | .ucomis => return ⟨.ucomis p.data16, ← xmmXm p (if p.data16 then 8 else 4)⟩
  | .cmov cond => return ⟨.cmov cond, ← regRm p p.size p.size⟩
  | .sse op => do
    Reader.require p.isScalar
    return ⟨.sse op p.repne, ← xmmXm p p.scalarSize⟩
  | .packed op => return ⟨.packed op p.data16, ← xmmXm p 16⟩
  | .cvtFloat => do
    Reader.require p.isScalar
    return ⟨.cvtFloat p.rep, ← xmmXm p (if p.rep then 4 else 8)⟩
  | .movToXmm => do
    Reader.require p.data16
    let m ← modRm p
    return ⟨.movToXmm, [.xmm m.reg, ← rm p p.intSize m.rm]⟩
  | .movFromXmm => do
    Reader.require p.data16
    let m ← modRm p
    return ⟨.movFromXmm, [← rm p p.intSize m.rm, .xmm m.reg]⟩
  | .jcc cond => return ⟨.jcc cond, [.rel (← Reader.int32)]⟩
  | .setcc cond => do
    let m ← modRm p
    return ⟨.setcc cond, [← rm p 1 m.rm]⟩
  | .fence => do
    Reader.require ((← Reader.byte) == 0xF0)
    return ⟨.mfence, []⟩
  | .imul => return ⟨.imul, ← regRm p p.size p.size⟩
  | .cmpxchg => return ⟨.cmpxchg p.lock, ← rmReg p p.size⟩
  | .movx sign word =>
    return ⟨if sign then .movsx else .movzx, ← regRm p p.size (if word then 2 else 1)⟩
  | .bitScan reverse => return ⟨.bitScan reverse, ← regRm p p.size p.size⟩

/-- The opcode and what follows it. -/
def Insn.read (p : Prefixes) : Reader Insn := do
  let b ← Reader.byte
  if b = 0x0F then
    match EscapedForm.ofByte? (← Reader.byte) with
    | some form => form.readInsn p
    | none => failure
  else
    match OpcodeForm.ofByte? b with
    | some form => form.readInsn p
    | none => failure

/-- The instruction at the start of the bytes, with its length. -/
def Insn.decode (bytes : List UInt8) : Option (Insn × Nat) :=
  let (p, c) := Prefixes.empty.legacy 0 bytes
  let (p, c) := p.takeRex c
  (Insn.read p c).map fun (x, c) => (x, c.taken)

end MachineCode.X64
