import MachineCode.Condition

/-! The families of instructions that differ in one field: condition codes, arithmetic, shifts,
scalar floating point, and operand widths. -/
namespace MachineCode.X64

/-- Operand widths of the general registers. -/
inductive Width where
  | byte | word | dword | qword
  deriving DecidableEq, Repr, Inhabited

namespace Width

def bytes : Width → Nat
  | byte => 1
  | word => 2
  | dword => 4
  | qword => 8

def bits (w : Width) : Nat := 8 * w.bytes

/-- All numbers of bytes but 1, 2 and 4 ask for a full word. -/
def ofBytes : Nat → Width
  | 1 => byte
  | 2 => word
  | 4 => dword
  | _ => qword

/-- The width of a scalar of so many bytes. -/
def ofSize? : UInt8 → Option Width
  | 1 => some byte
  | 2 => some word
  | 4 => some dword
  | 8 => some qword
  | _ => none

/-- Operand size 32 or 64. -/
def ofWide (wide : Bool) : Width := if wide then qword else dword

theorem bits_pos (w : Width) : 0 < w.bits := by cases w <;> decide

theorem bits_le (w : Width) : w.bits ≤ 64 := by cases w <;> decide

end Width

/-- Condition codes, by number: overflow, below, equal, below or equal, sign, parity, less, less or
equal, each followed by its negation. -/
inductive Cond where
  | o | no | b | ae | e | ne | be | a | s | ns | p | np | l | ge | le | g
  deriving DecidableEq, Repr, Inhabited

namespace Cond

def all : List Cond := [o, no, b, ae, e, ne, be, a, s, ns, p, np, l, ge, le, g]

def code (c : Cond) : Nat := all.idxOf c

def table : Vector Cond 16 := #v[o, no, b, ae, e, ne, be, a, s, ns, p, np, l, ge, le, g]

/-- The condition with this code; higher bits do not count. -/
def ofCode (n : Nat) : Cond := table[Fin.ofNat 16 n]

def invert : Cond → Cond
  | o => no
  | no => o
  | b => ae
  | ae => b
  | e => ne
  | ne => e
  | be => a
  | a => be
  | s => ns
  | ns => s
  | p => np
  | np => p
  | l => ge
  | ge => l
  | le => g
  | g => le

def name : Cond → String
  | o => "o"
  | no => "no"
  | b => "b"
  | ae => "ae"
  | e => "e"
  | ne => "ne"
  | be => "be"
  | a => "a"
  | s => "s"
  | ns => "ns"
  | p => "p"
  | np => "np"
  | l => "l"
  | ge => "ge"
  | le => "le"
  | g => "g"

instance : Named Cond := ⟨all, name⟩

/-- The code that tests a condition on the flags of an integer compare. -/
def ofCondition : Condition → Cond
  | .eq => e
  | .ne => ne
  | .lt => l
  | .le => le
  | .ge => ge
  | .gt => g
  | .bt => b
  | .be => be
  | .at => a
  | .ae => ae

theorem ofCondition_negate (c : Condition) : ofCondition c.negate = (ofCondition c).invert := by
  cases c <;> rfl

end Cond

inductive AluOp where
  | add | or | adc | sbb | and | sub | xor | cmp
  deriving DecidableEq, Repr, Inhabited

namespace AluOp

def all : List AluOp := [add, or, adc, sbb, and, sub, xor, cmp]

/-- The number in opcodes and in opcode extensions. -/
def code (op : AluOp) : Nat := all.idxOf op

def table : Vector AluOp 8 := #v[add, or, adc, sbb, and, sub, xor, cmp]

def ofCode (n : Nat) : AluOp := table[Fin.ofNat 8 n]

def name : AluOp → String
  | add => "add"
  | or => "or"
  | adc => "adc"
  | sbb => "sbb"
  | and => "and"
  | sub => "sub"
  | xor => "xor"
  | cmp => "cmp"

instance : Named AluOp := ⟨all, name⟩

@[simp] theorem ofCode_code (op : AluOp) : ofCode op.code = op := by cases op <;> rfl

end AluOp

/-- `shr` fills with zeros and `sar` with the sign bit. -/
inductive Shift where
  | rol | ror | shl | shr | sar
  deriving DecidableEq, Repr, Inhabited

namespace Shift

def all : List Shift := [rol, ror, shl, shr, sar]

/-- The opcode extension. -/
def code : Shift → Nat
  | rol => 0
  | ror => 1
  | shl => 4
  | shr => 5
  | sar => 7

/-- The extension 6 is a second code of `shl`; the rotates through the carry are left out. -/
def ofCode? : Nat → Option Shift
  | 0 => some rol
  | 1 => some ror
  | 4 | 6 => some shl
  | 5 => some shr
  | 7 => some sar
  | _ => none

def name : Shift → String
  | rol => "rol"
  | ror => "ror"
  | shl => "shl"
  | shr => "shr"
  | sar => "sar"

instance : Named Shift := ⟨all, name⟩

@[simp] theorem ofCode?_code (s : Shift) : ofCode? s.code = some s := by cases s <;> rfl

end Shift

/-- Scalar floating-point arithmetic. -/
inductive SseOp where
  | sqrt | add | mul | sub | div
  deriving DecidableEq, Repr, Inhabited

namespace SseOp

def all : List SseOp := [sqrt, add, mul, sub, div]

/-- The opcode byte. -/
def byte : SseOp → UInt8
  | sqrt => 0x51
  | add => 0x58
  | mul => 0x59
  | sub => 0x5C
  | div => 0x5E

def name : SseOp → String
  | sqrt => "sqrt"
  | add => "add"
  | mul => "mul"
  | sub => "sub"
  | div => "div"

instance : Named SseOp := ⟨all, name⟩

end SseOp

/-- Zero or sign extension from a width to 32 bits, and the sign extension from 32 to 64. -/
inductive Extension where
  | zeroByte | zeroWord | signByte | signWord | signDword
  deriving DecidableEq, Repr, Inhabited

namespace Extension

def all : List Extension := [zeroByte, zeroWord, signByte, signWord, signDword]

/-- The letters behind the verb give the extension and the two widths. -/
def name : Extension → String
  | zeroByte => "movzbl"
  | zeroWord => "movzwl"
  | signByte => "movsbl"
  | signWord => "movswl"
  | signDword => "movslq"

instance : Named Extension := ⟨all, name⟩

def source : Extension → Width
  | zeroByte | signByte => .byte
  | zeroWord | signWord => .word
  | signDword => .dword

end Extension

/-- Bitwise logic on whole floating-point registers. -/
inductive PackedOp where
  | and | xor
  deriving DecidableEq, Repr, Inhabited

/-- The operation on bits, at any width. -/
def PackedOp.eval {n : Nat} (op : PackedOp) (a b : BitVec n) : BitVec n :=
  match op with
  | .and => a &&& b
  | .xor => a ^^^ b

end MachineCode.X64
