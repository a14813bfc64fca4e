import MachineCode.Displacement
import MachineCode.X64.Opcode
import MachineCode.X64.Ops

/-! The instructions that compiled code is made of, and their encodings. `wide` asks for operand
size 64 in place of 32, and `double` for the 64-bit float format in place of the 32-bit one. -/
namespace MachineCode.X64

inductive Instr where
  | alu (op : AluOp) (wide : Bool) (dst : Gpr) (src : Rm)
  | aluStore (op : AluOp) (wide : Bool) (dst : Mem) (src : Gpr)
  | aluImm (op : AluOp) (wide : Bool) (dst : Rm) (imm : Int32)
  | neg (wide : Bool) (r : Gpr)
  | not (wide : Bool) (r : Gpr)
  | shiftImm (op : Shift) (wide : Bool) (r : Gpr) (count : UInt8)
  | shiftCl (op : Shift) (wide : Bool) (r : Gpr)
  | mov (wide : Bool) (dst src : Gpr)
  /-- The shortest form that leaves `value` in the register; the flags stay. -/
  | movImm (wide : Bool) (dst : Gpr) (value : UInt64)
  /-- The form with a 64-bit immediate. -/
  | movAbs (dst : Gpr) (value : UInt64)
  | extend (ext : Extension) (dst : Gpr) (src : Rm)
  | load (wide : Bool) (dst : Gpr) (src : Mem)
  | store (wide : Bool) (src : Gpr) (dst : Mem)
  | storeByte (src : Gpr) (dst : Mem)
  | storeWord (src : Gpr) (dst : Mem)
  /-- The full word is the sign extension of the immediate. -/
  | storeImm (width : Width) (dst : Mem) (imm : Int32)
  | lea (wide : Bool) (dst : Gpr) (src : Mem)
  | imul (wide : Bool) (dst : Gpr) (src : Rm)
  | imulImm (wide : Bool) (dst src : Gpr) (imm : Int32)
  | div (wide : Bool) (r : Gpr)
  | idiv (wide : Bool) (r : Gpr)
  | cdq
  | cqo
  /-- The lowest set bit, or with `reverse` the highest. -/
  | bitScan (reverse wide : Bool) (dst src : Gpr)
  /-- A call whose displacement is filled in later. -/
  | call
  | jmpReg (r : Gpr)
  | callReg (r : Gpr)
  | setcc (cond : Cond) (dst : Gpr)
  | cmov (cond : Cond) (wide : Bool) (dst : Gpr) (src : Rm)
  | test (wide : Bool) (a : Rm) (b : Gpr)
  | movsLoad (double : Bool) (dst : Xmm) (src : Mem)
  | movsStore (double : Bool) (src : Xmm) (dst : Mem)
  /-- A copy of the whole register. -/
  | movap (double : Bool) (dst src : Xmm)
  | sse (op : SseOp) (double : Bool) (dst : Xmm) (src : Xm)
  | ucomis (double : Bool) (a : Xmm) (b : Xm)
  | packed (op : PackedOp) (double : Bool) (dst : Xmm) (src : Xm)
  | cvtFromInt (double wide : Bool) (dst : Xmm) (src : Gpr)
  | cvtToInt (double wide : Bool) (dst : Gpr) (src : Xmm)
  | cvtFloat (toDouble : Bool) (dst src : Xmm)
  | movToXmm (wide : Bool) (dst : Xmm) (src : Gpr)
  | movFromXmm (wide : Bool) (dst : Gpr) (src : Xmm)
  | push (r : Gpr)
  | pop (r : Gpr)
  | ret
  /-- Compares with `rax`. -/
  | cmpxchg (lock wide : Bool) (dst : Mem) (src : Gpr)
  | mfence
  | ud2
  | int3
  | pause
  deriving DecidableEq, Repr

namespace Instr

/-- The opcode of a scalar floating-point instruction. -/
def scalar (byte : UInt8) (double : Bool) : Opcode :=
  { Opcode.two byte with rep := some (if double then .f2 else .f3) }

/-- The opcode of a packed or comparing floating-point instruction. -/
def packedOpcode (byte : UInt8) (double : Bool) : Opcode :=
  { Opcode.two byte with data16 := double }

def extensionOpcode : Extension → Opcode
  | .zeroByte => .two 0xB6
  | .zeroWord => .two 0xB7
  | .signByte => .two 0xBE
  | .signWord => .two 0xBF
  | .signDword => (Opcode.one 0x63).withWide true

/-- The immediate fits the sign-extended byte form. -/
def isImm8 (imm : Int32) : Bool := -128 ≤ imm ∧ imm ≤ 127

def imm8 (imm : Int32) : List UInt8 := leBytes 1 imm.toUInt32.toNat

def imm32 (imm : Int32) : List UInt8 := leBytes 4 imm.toUInt32.toNat

/-- The opcode with a byte or a 32-bit immediate, whichever is shorter. -/
def immForm (short long : UInt8) (wide : Bool) (imm : Int32) : Opcode × List UInt8 :=
  if isImm8 imm then ((Opcode.one short).withWide wide, imm8 imm)
  else ((Opcode.one long).withWide wide, imm32 imm)

def encodeMovAbs (dst : Gpr) (value : UInt64) : Encoding :=
  ((((Opcode.one 0xB8).withWide true).plus dst.low3).bare 0 dst.num.val).withImmediate
    (leBytes 8 value.toNat)

/-- A value below 2^32 goes into the low half, which clears the high one; a value that is the sign
extension of its low half takes a 32-bit immediate; the rest take 64 bits. -/
def encodeMovImm (wide : Bool) (dst : Gpr) (value : UInt64) : Encoding :=
  if !wide || value < 0x100000000 then
    (((Opcode.one 0xB8).plus dst.low3).bare 0 dst.num.val).withImmediate (leBytes 4 value.toNat)
  else if (int32? value.toInt64.toInt).isSome then
    (((Opcode.one 0xC7).withWide true).extReg 0 dst.num.val).withImmediate (leBytes 4 value.toNat)
  else encodeMovAbs dst value

def encodeStoreImm (dst : Mem) (imm : Int32) : Width → Encoding
  | .byte => ((Opcode.one 0xC6).regMem 0 dst).withImmediate (imm8 imm)
  | .word =>
    ({ Opcode.one 0xC7 with data16 := true }.regMem 0 dst).withImmediate
      (leBytes 2 imm.toUInt32.toNat)
  | .dword => ((Opcode.one 0xC7).regMem 0 dst).withImmediate (imm32 imm)
  | .qword => (((Opcode.one 0xC7).withWide true).regMem 0 dst).withImmediate (imm32 imm)

/-- The byte forms of the extensions name a byte register. -/
def encodeExtend (ext : Extension) (dst : Gpr) : Rm → Encoding
  | .reg src =>
    { extensionOpcode ext with byteRm := ext.source == Width.byte }.regs dst.num.val src.num.val
  | .mem m => (extensionOpcode ext).regMem dst.num.val m

def encode : Instr → Encoding
  | alu op wide dst src =>
    (((Opcode.one 0x03).plus (op.code * 8)).withWide wide).regRm dst.num.val src
  | aluStore op wide dst src =>
    (((Opcode.one 0x01).plus (op.code * 8)).withWide wide).regMem src.num.val dst
  | aluImm op wide dst imm =>
    let (opcode, bytes) := immForm 0x83 0x81 wide imm
    (opcode.extRm op.code dst).withImmediate bytes
  | neg wide r => ((Opcode.one 0xF7).withWide wide).extReg 3 r.num.val
  | not wide r => ((Opcode.one 0xF7).withWide wide).extReg 2 r.num.val
  | shiftImm op wide r count =>
    if count = 1 then ((Opcode.one 0xD1).withWide wide).extReg op.code r.num.val
    else (((Opcode.one 0xC1).withWide wide).extReg op.code r.num.val).withImmediate [count]
  | shiftCl op wide r => ((Opcode.one 0xD3).withWide wide).extReg op.code r.num.val
  | mov wide dst src => ((Opcode.one 0x89).withWide wide).regs src.num.val dst.num.val
  | movImm wide dst value => encodeMovImm wide dst value
  | movAbs dst value => encodeMovAbs dst value
  | extend ext dst src => encodeExtend ext dst src
  | load wide dst src => ((Opcode.one 0x8B).withWide wide).regMem dst.num.val src
  | store wide src dst => ((Opcode.one 0x89).withWide wide).regMem src.num.val dst
  | storeByte src dst => { Opcode.one 0x88 with byteReg := true }.regMem src.num.val dst
  | storeWord src dst => { Opcode.one 0x89 with data16 := true }.regMem src.num.val dst
  | storeImm width dst imm => encodeStoreImm dst imm width
  | lea wide dst src => ((Opcode.one 0x8D).withWide wide).regMem dst.num.val src
  | imul wide dst src => ((Opcode.two 0xAF).withWide wide).regRm dst.num.val src
  | imulImm wide dst src imm =>
    let (opcode, bytes) := immForm 0x6B 0x69 wide imm
    (opcode.regs dst.num.val src.num.val).withImmediate bytes
  | div wide r => ((Opcode.one 0xF7).withWide wide).extReg 6 r.num.val
  | idiv wide r => ((Opcode.one 0xF7).withWide wide).extReg 7 r.num.val
  | cdq => .plain [0x99]
  | cqo => .plain [0x48, 0x99]
  | bitScan reverse wide dst src =>
    ((Opcode.two (if reverse then 0xBD else 0xBC)).withWide wide).regs dst.num.val src.num.val
  | call => .plain (0xE8 :: leBytes 4 0)
  | jmpReg r => (Opcode.one 0xFF).extReg 4 r.num.val
  | callReg r => (Opcode.one 0xFF).extReg 2 r.num.val
  | setcc cond dst =>
    { (Opcode.two 0x90).plus cond.code with byteRm := true }.extReg 0 dst.num.val
  | cmov cond wide dst src =>
    (((Opcode.two 0x40).plus cond.code).withWide wide).regRm dst.num.val src
  | test wide (.reg a) b => ((Opcode.one 0x85).withWide wide).regs a.num.val b.num.val
  | test wide (.mem a) b => ((Opcode.one 0x85).withWide wide).regMem b.num.val a
  | movsLoad double dst src => (scalar 0x10 double).regMem dst.num.val src
  | movsStore double src dst => (scalar 0x11 double).regMem src.num.val dst
  | movap double dst src => (packedOpcode 0x28 double).regs dst.num.val src.num.val
  | sse op double dst src => (scalar op.byte double).regXm dst.num.val src
  | ucomis double a b => (packedOpcode 0x2E double).regXm a.num.val b
  | packed op double dst src =>
    (packedOpcode (match op with | .and => 0x54 | .xor => 0x57) double).regXm dst.num.val src
  | cvtFromInt double wide dst src =>
    ((scalar 0x2A double).withWide wide).regs dst.num.val src.num.val
  | cvtToInt double wide dst src =>
    ((scalar 0x2C double).withWide wide).regs dst.num.val src.num.val
  | cvtFloat toDouble dst src => (scalar 0x5A (!toDouble)).regs dst.num.val src.num.val
  | movToXmm wide dst src =>
    ((packedOpcode 0x6E true).withWide wide).regs dst.num.val src.num.val
  | movFromXmm wide dst src =>
    ((packedOpcode 0x7E true).withWide wide).regs src.num.val dst.num.val
  | push r => ((Opcode.one 0x50).plus r.low3).bare 0 r.num.val
  | pop r => ((Opcode.one 0x58).plus r.low3).bare 0 r.num.val
  | ret => .plain [0xC3]
  | cmpxchg lock wide dst src =>
    let e := ((Opcode.two 0xB1).withWide wide).regMem src.num.val dst
    if lock then e.behind 0xF0 else e
  | mfence => .plain [0x0F, 0xAE, 0xF0]
  | ud2 => (Opcode.two 0x0B).bare 0 0
  | int3 => .plain [0xCC]
  | pause => .plain [0xF3, 0x90]

/-- Where in the instruction the field stands that installation fills in: the 64-bit immediate of
`movAbs`, the displacement of `call`. -/
def linkField? : Instr → Option Nat
  | i@(movAbs ..) => some (i.encode.length - 8)
  | call => some 1
  | _ => none

end Instr

/-- One padding instruction of `n` bytes, for up to eight bytes. -/
def nop : Nat → List UInt8
  | 0 => []
  | 1 => [0x90]
  | 2 => [0x66, 0x90]
  | 3 => [0x0F, 0x1F, 0x00]
  | 4 => [0x0F, 0x1F, 0x40, 0x00]
  | 5 => [0x0F, 0x1F, 0x44, 0x00, 0x00]
  | 6 => [0x66, 0x0F, 0x1F, 0x44, 0x00, 0x00]
  | 7 => [0x0F, 0x1F, 0x80, 0x00, 0x00, 0x00, 0x00]
  | _ => [0x0F, 0x1F, 0x84, 0x00, 0x00, 0x00, 0x00, 0x00]

/-- `n` bytes of padding: eight at a time, and the rest in one instruction. -/
def nops (n : Nat) : List UInt8 := (List.replicate (n / 8) (nop 8)).flatten ++ nop (n % 8)

/-- The padding from `position` to the next multiple of `align`; alignments 0 and 1 ask for none. -/
def padding (position align : Nat) : List UInt8 :=
  if 1 < align then nops ((align - position % align) % align) else []

@[simp] theorem length_nop (n : Nat) (h : n ≤ 8) : (nop n).length = n := by
  match n, h with
  | 0, _ | 1, _ | 2, _ | 3, _ | 4, _ | 5, _ | 6, _ | 7, _ | 8, _ => rfl

theorem length_nops (n : Nat) : (nops n).length = n := by
  have : n % 8 < 8 := Nat.mod_lt _ (by decide)
  have h8 : (nop 8).length = 8 := rfl
  simp only [nops, List.length_append, List.length_flatten, List.map_replicate, h8,
    List.sum_replicate_nat, length_nop (n % 8) (by omega)]
  omega

end MachineCode.X64
