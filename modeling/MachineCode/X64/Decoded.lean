import MachineCode.X64.Insn
import MachineCode.X64.Mem

/-! Decoded instructions with one constructor for each form of operands, and the operation and the
list of operands that each of them stands for. -/
namespace MachineCode.X64

/-- The second operand of a general two-operand instruction. -/
inductive Source where
  | rm (x : Rm)
  | imm (v : Int)
  deriving DecidableEq, Repr

/-- A shift count: a byte of the instruction, or the low byte of `rcx`. -/
inductive ShiftCount where
  | imm (n : UInt8)
  | cl
  deriving DecidableEq, Repr

/-- Where a jump or a call goes: a displacement from the end of the instruction, or a value. -/
inductive Destination where
  | rel (disp : Int32)
  | rm (x : Rm)
  deriving DecidableEq, Repr

/-- An instruction with a single operand of its own. -/
inductive UnaryOp where
  | not | neg | mul | imul | div | idiv
  deriving DecidableEq, Repr

inductive Decoded where
  | mov (w : Width) (dst : Rm) (src : Source)
  | movzx (w : Width) (dst : Gpr) (srcWidth : Width) (src : Rm)
  | movsx (w : Width) (dst : Gpr) (srcWidth : Width) (src : Rm)
  | lea (w : Width) (dst : Gpr) (src : Mem)
  | alu (op : AluOp) (w : Width) (dst : Rm) (src : Source)
  | test (w : Width) (a : Rm) (b : Source)
  | unary (op : UnaryOp) (w : Width) (x : Rm)
  | imul (w : Width) (dst : Gpr) (src : Rm) (factor : Option Int)
  | cdq
  | cqo
  | shift (op : Shift) (w : Width) (dst : Rm) (count : ShiftCount)
  | bitScan (reverse : Bool) (w : Width) (dst : Gpr) (src : Rm)
  | jcc (cond : Cond) (disp : Int32)
  | jmp (dst : Destination)
  | call (dst : Destination)
  | ret
  | setcc (cond : Cond) (dst : Rm)
  | cmov (cond : Cond) (w : Width) (dst : Gpr) (src : Rm)
  | push (r : Gpr)
  | pop (r : Gpr)
  | nop
  | int3
  | ud2
  | pause
  | mfence
  | movs (double : Bool) (dst src : Xm)
  | movap (double : Bool) (dst : Xmm) (src : Xm)
  | sse (op : SseOp) (double : Bool) (dst : Xmm) (src : Xm)
  | ucomis (double : Bool) (a : Xmm) (b : Xm)
  | packed (op : PackedOp) (double : Bool) (dst : Xmm) (src : Xm)
  | cvtFromInt (double : Bool) (w : Width) (dst : Xmm) (src : Rm)
  | cvtToInt (double : Bool) (w : Width) (dst : Gpr) (src : Xm)
  | cvtFloat (toDouble : Bool) (dst : Xmm) (src : Xm)
  | movToXmm (w : Width) (dst : Xmm) (src : Rm)
  | movFromXmm (w : Width) (dst : Rm) (src : Xmm)
  | cmpxchg (lock : Bool) (w : Width) (dst : Rm) (src : Gpr)
  deriving DecidableEq, Repr

/-- An operand as it is written; `size` is the number of bytes accessed, 0 for an address that is
only computed. -/
inductive Arg where
  | gpr (r : Gpr) (w : Width)
  | xmm (x : Xmm)
  | imm (v : Int)
  | mem (m : Mem) (size : Nat)
  | rel (disp : Int32)
  deriving DecidableEq, Repr

namespace Mem

/-- The address as an operand of so many bytes. -/
def raw (m : Mem) (size : Nat) : RawMem where
  base := match m.base with
    | .reg r => some r.byte
    | _ => none
  index := m.index.map fun i => i.reg.byte
  scale := UInt8.ofNat m.scale
  disp := m.disp
  rip := m.isRip
  width := UInt8.ofNat size

end Mem

namespace Arg

def ofRm (x : Rm) (w : Width) : Arg :=
  match x with
  | .reg r => gpr r w
  | .mem m => mem m w.bytes

def ofXm (x : Xm) (size : Nat) : Arg :=
  match x with
  | .reg x => xmm x
  | .mem m => mem m size

def ofSource (x : Source) (w : Width) : Arg :=
  match x with
  | .rm x => ofRm x w
  | .imm v => imm v

/-- A destination that is a value is a full word. -/
def ofDestination : Destination → Arg
  | .rel d => rel d
  | .rm x => ofRm x .qword

def ofCount : ShiftCount → Arg
  | .imm n => imm n.toNat
  | .cl => gpr .rcx .byte

def operand : Arg → RawOperand
  | gpr r w => .gpr r.byte (UInt8.ofNat w.bytes)
  | xmm x => .xmm x.byte
  | imm v => .imm (Int64.ofInt v)
  | mem m size => .mem (m.raw size)
  | rel disp => .rel disp

end Arg

namespace UnaryOp

def op : UnaryOp → Op
  | not => .not
  | neg => .neg
  | mul => .mul
  | imul => .imul
  | div => .div
  | idiv => .idiv

end UnaryOp

namespace Decoded

/-- Bytes of a scalar float. -/
def scalarSize (double : Bool) : Nat := if double then 8 else 4

def op : Decoded → Op
  | mov .. => .mov
  | movzx .. => .movzx
  | movsx .. => .movsx
  | lea .. => .lea
  | alu op .. => .alu op
  | test .. => .test
  | unary op .. => op.op
  | imul .. => .imul
  | cdq => .cdq
  | cqo => .cqo
  | shift op .. => .shift op
  | bitScan reverse .. => .bitScan reverse
  | jcc cond _ => .jcc cond
  | jmp _ => .jmp
  | call _ => .call
  | ret => .ret
  | setcc cond _ => .setcc cond
  | cmov cond .. => .cmov cond
  | push _ => .push
  | pop _ => .pop
  | nop => .nop
  | int3 => .int3
  | ud2 => .ud2
  | pause => .pause
  | mfence => .mfence
  | movs double .. => .movs double
  | movap double .. => .movap double
  | sse op double .. => .sse op double
  | ucomis double .. => .ucomis double
  | packed op double .. => .packed op double
  | cvtFromInt double .. => .cvtFromInt double
  | cvtToInt double .. => .cvtToInt double
  | cvtFloat toDouble .. => .cvtFloat toDouble
  | movToXmm .. => .movToXmm
  | movFromXmm .. => .movFromXmm
  | cmpxchg lock .. => .cmpxchg lock

/-- The operands, destination first. -/
def args : Decoded → List Arg
  | mov w dst src | alu _ w dst src | test w dst src => [.ofRm dst w, .ofSource src w]
  | movzx w dst v src | movsx w dst v src => [.gpr dst w, .ofRm src v]
  | lea w dst src => [.gpr dst w, .mem src 0]
  | unary _ w x => [.ofRm x w]
  | imul w dst src factor => [.gpr dst w, .ofRm src w] ++ (factor.map Arg.imm).toList
  | shift _ w dst count => [.ofRm dst w, .ofCount count]
  | bitScan _ w dst src | cmov _ w dst src => [.gpr dst w, .ofRm src w]
  | jcc _ disp => [.rel disp]
  | jmp dst | call dst => [.ofDestination dst]
  | setcc _ dst => [.ofRm dst .byte]
  | push r | pop r => [.gpr r .qword]
  | movs d dst src => [.ofXm dst (scalarSize d), .ofXm src (scalarSize d)]
  | movap _ dst src | packed _ _ dst src => [.xmm dst, .ofXm src 16]
  | sse _ d dst src | ucomis d dst src => [.xmm dst, .ofXm src (scalarSize d)]
  | cvtFromInt _ w dst src | movToXmm w dst src => [.xmm dst, .ofRm src w]
  | cvtToInt d w dst src => [.gpr dst w, .ofXm src (scalarSize d)]
  | cvtFloat toDouble dst src => [.xmm dst, .ofXm src (scalarSize (!toDouble))]
  | movFromXmm w dst src => [.ofRm dst w, .xmm src]
  | cmpxchg _ w dst src => [.ofRm dst w, .gpr src w]
  | cdq | cqo | ret | nop | int3 | ud2 | pause | mfence => []

def insn (i : Decoded) : Insn := ⟨i.op, i.args.map Arg.operand⟩

def text (i : Decoded) : String := i.insn.text

/-- Where a relative jump or call goes that starts at `pc` and is `length` bytes long. -/
def branchTarget? (i : Decoded) (pc : BitVec 64) (length : Nat) : Option (BitVec 64) :=
  i.insn.branchTarget? pc length

/-- The memory operand with its size, if there is one. -/
def mem? (i : Decoded) : Option (Mem × Nat) :=
  i.args.findSome? fun
    | .mem m size => some (m, size)
    | _ => none

end Decoded

end MachineCode.X64
