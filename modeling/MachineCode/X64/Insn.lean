import MachineCode.Bytes
import MachineCode.X64.Ops
import MachineCode.X64.Register

/-! Instructions as an operation and a list of operands, in which registers, scales and widths are
bytes, and their text, with the destination first. Which operands an operation has is up to the
decoder. -/
namespace MachineCode.X64

/-- `base + index * scale + disp`, or `disp` from the end of the instruction. The width is in
bytes, 0 for an address that is only computed. -/
structure RawMem where
  base : Option UInt8
  index : Option UInt8
  scale : UInt8
  disp : Int32
  rip : Bool
  width : UInt8
  deriving DecidableEq, Repr

inductive RawOperand where
  | gpr (reg width : UInt8)
  | xmm (num : UInt8)
  | imm (v : Int64)
  | mem (m : RawMem)
  /-- A displacement from the end of the instruction. -/
  | rel (disp : Int32)
  deriving DecidableEq, Repr

/-- What an instruction does to its operands. The operands themselves say how wide they are, and
their number tells the forms of a multiplication apart. -/
inductive Op where
  | mov
  | movzx
  | movsx
  | lea
  | alu (op : AluOp)
  | test
  | neg
  | not
  | mul
  | imul
  | div
  | idiv
  | cdq
  | cqo
  | shift (op : Shift)
  | bitScan (reverse : Bool)
  | jcc (cond : Cond)
  | jmp
  | call
  | ret
  | setcc (cond : Cond)
  | cmov (cond : Cond)
  | push
  | pop
  | nop
  | int3
  | ud2
  | pause
  | mfence
  | movs (double : Bool)
  | movap (double : Bool)
  | sse (op : SseOp) (double : Bool)
  | ucomis (double : Bool)
  | packed (op : PackedOp) (double : Bool)
  | cvtFromInt (double : Bool)
  | cvtToInt (double : Bool)
  | cvtFloat (toDouble : Bool)
  | movToXmm
  | movFromXmm
  | cmpxchg (lock : Bool)
  deriving DecidableEq, Repr

structure Insn where
  op : Op
  operands : List RawOperand
  deriving DecidableEq, Repr

namespace Gpr

def names64 : Vector String 16 :=
  #v["rax", "rcx", "rdx", "rbx", "rsp", "rbp", "rsi", "rdi",
    "r8", "r9", "r10", "r11", "r12", "r13", "r14", "r15"]

def names32 : Vector String 16 :=
  #v["eax", "ecx", "edx", "ebx", "esp", "ebp", "esi", "edi",
    "r8d", "r9d", "r10d", "r11d", "r12d", "r13d", "r14d", "r15d"]

def names16 : Vector String 16 :=
  #v["ax", "cx", "dx", "bx", "sp", "bp", "si", "di",
    "r8w", "r9w", "r10w", "r11w", "r12w", "r13w", "r14w", "r15w"]

def names8 : Vector String 16 :=
  #v["al", "cl", "dl", "bl", "spl", "bpl", "sil", "dil",
    "r8b", "r9b", "r10b", "r11b", "r12b", "r13b", "r14b", "r15b"]

/-- The name of the part of the register that has this width. -/
def name (r : Gpr) : Width → String
  | .byte => names8.get r.num
  | .word => names16.get r.num
  | .dword => names32.get r.num
  | .qword => names64.get r.num

end Gpr

namespace RawMem

/-- The words in front of an access of this many bytes. -/
def sizeText : UInt8 → String
  | 1 => "byte ptr "
  | 2 => "word ptr "
  | 4 => "dword ptr "
  | 8 => "qword ptr "
  | 16 => "xmmword ptr "
  | _ => ""

def baseText (m : RawMem) : String :=
  (if m.rip then "rip" else "") ++ m.base.elim "" fun r => (Gpr.ofByte r).name .qword

def indexText (m : RawMem) : String :=
  m.index.elim "" fun r => (Gpr.ofByte r).name .qword ++ "*" ++ toString m.scale

/-- Base and index, in this order. -/
def termText (m : RawMem) : String :=
  if m.baseText.isEmpty || m.indexText.isEmpty then m.baseText ++ m.indexText
  else m.baseText ++ " + " ++ m.indexText

/-- A displacement alone is written as an unsigned word, and with a sign behind a term. -/
def dispText (m : RawMem) : String :=
  let d := m.disp.toInt
  if m.termText.isEmpty then Text.hex m.disp.toUInt32.toNat
  else if d < 0 then " - " ++ Text.hex d.natAbs
  else if 0 < d then " + " ++ Text.hex d.natAbs
  else ""

def text (m : RawMem) : String := sizeText m.width ++ "[" ++ m.termText ++ m.dispText ++ "]"

end RawMem

namespace RawOperand

def text : RawOperand → String
  | gpr reg width => (Gpr.ofByte reg).name (.ofBytes width.toNat)
  | xmm num => "xmm" ++ toString num
  | imm v => (if v < 0 then "-" else "") ++ Text.hex v.toInt.natAbs
  | mem m => m.text
  | rel disp => (if disp < 0 then "." else ".+") ++ toString disp.toInt

/-- The width of a register or of memory, else 0. -/
def accessWidth : RawOperand → UInt8
  | gpr _ width => width
  | mem m => m.width
  | _ => 0

end RawOperand

namespace PackedOp

def name : PackedOp → String
  | and => "and"
  | xor => "xor"

end PackedOp

namespace Insn

def scalarName (double : Bool) : String := if double then "sd" else "ss"

def packedName (double : Bool) : String := if double then "pd" else "ps"

/-- The width of the operand at this place, 0 where there is none. -/
def widthAt (x : Insn) (k : Nat) : UInt8 := x.operands[k]?.elim 0 RawOperand.accessWidth

def mnemonic (x : Insn) : String :=
  match x.op with
  | .mov => "mov"
  | .movzx => "movzx"
  | .movsx => if x.widthAt 1 = 4 then "movsxd" else "movsx"
  | .lea => "lea"
  | .alu op => op.name
  | .test => "test"
  | .neg => "neg"
  | .not => "not"
  | .mul => "mul"
  | .imul => "imul"
  | .div => "div"
  | .idiv => "idiv"
  | .cdq => "cdq"
  | .cqo => "cqo"
  | .shift op => op.name
  | .bitScan reverse => if reverse then "bsr" else "bsf"
  | .jcc c => "j" ++ c.name
  | .jmp => "jmp"
  | .call => "call"
  | .ret => "ret"
  | .setcc c => "set" ++ c.name
  | .cmov c => "cmov" ++ c.name
  | .push => "push"
  | .pop => "pop"
  | .nop => "nop"
  | .int3 => "int3"
  | .ud2 => "ud2"
  | .pause => "pause"
  | .mfence => "mfence"
  | .movs d => "mov" ++ scalarName d
  | .movap d => "mova" ++ packedName d
  | .sse op d => op.name ++ scalarName d
  | .ucomis d => "ucomi" ++ scalarName d
  | .packed op d => op.name ++ packedName d
  | .cvtFromInt d => "cvtsi2" ++ scalarName d
  | .cvtToInt d => "cvtt" ++ scalarName d ++ "2si"
  | .cvtFloat toDouble => if toDouble then "cvtss2sd" else "cvtsd2ss"
  | .movToXmm => if x.widthAt 1 = 8 then "movq" else "movd"
  | .movFromXmm => if x.widthAt 0 = 8 then "movq" else "movd"
  | .cmpxchg lock => if lock then "lock cmpxchg" else "cmpxchg"

def text (x : Insn) : String :=
  match x.operands with
  | [] => x.mnemonic
  | operands => x.mnemonic ++ " " ++ String.intercalate ", " (operands.map RawOperand.text)

/-- The memory operand, if there is one. -/
def mem? (x : Insn) : Option RawMem :=
  x.operands.findSome? fun
    | .mem m => some m
    | _ => none

/-- Where a relative jump or call goes that starts at `pc` and is `length` bytes long. -/
def branchTarget? (x : Insn) (pc : BitVec 64) (length : Nat) : Option (BitVec 64) :=
  x.operands.findSome? fun
    | .rel d => some (pc + BitVec.ofNat 64 length + BitVec.ofInt 64 d.toInt)
    | _ => none

end Insn

end MachineCode.X64
