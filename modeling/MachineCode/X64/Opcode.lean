import MachineCode.Bytes
import MachineCode.X64.Mem

/-! The bytes of an instruction around its opcode: legacy prefixes, the REX byte, the opcode
escape, and the ModRM, SIB and displacement bytes of its operands. -/
namespace MachineCode.X64

/-- The mandatory prefix of a scalar floating-point opcode. -/
inductive RepPrefix where
  | f3 | f2
  deriving DecidableEq, Repr

/-- An opcode byte with the prefixes it asks for. -/
structure Opcode where
  byte : UInt8
  /-- The two-byte opcodes. -/
  escaped : Bool
  /-- Operand size 16, or part of the opcode. -/
  data16 : Bool
  /-- Operand size 64. -/
  wide : Bool
  /-- The register field names a byte register. -/
  byteReg : Bool
  /-- The register in the r/m field is a byte register. -/
  byteRm : Bool
  rep : Option RepPrefix
  deriving DecidableEq, Repr

/-- The bytes of an instruction, and where in them a displacement stands that counts from the end
of the instruction. -/
structure Encoding where
  bytes : List UInt8
  ripField : Option Nat
  deriving DecidableEq, Repr

namespace Encoding

def plain (bytes : List UInt8) : Encoding := ⟨bytes, none⟩

def length (e : Encoding) : Nat := e.bytes.length

/-- The encoding followed by an immediate. -/
def withImmediate (e : Encoding) (bytes : List UInt8) : Encoding :=
  { e with bytes := e.bytes ++ bytes }

/-- The encoding behind a prefix byte. -/
def behind (e : Encoding) (byte : UInt8) : Encoding := ⟨byte :: e.bytes, e.ripField.map (· + 1)⟩

end Encoding

namespace Opcode

def one (byte : UInt8) : Opcode := ⟨byte, false, false, false, false, false, none⟩

def two (byte : UInt8) : Opcode := { one byte with escaped := true }

def withWide (o : Opcode) (wide : Bool) : Opcode := { o with wide := o.wide || wide }

/-- Add a number below the opcode's free low bits. -/
def plus (o : Opcode) (n : Nat) : Opcode := { o with byte := o.byte + UInt8.ofNat n }

/-- An opcode from its packed form: the byte, and flags from bit 8 on. -/
def ofPacked (w : UInt32) : Opcode where
  byte := w.toUInt8
  escaped := w &&& 0x100 != 0
  data16 := w &&& 0x400 != 0
  wide := w &&& 0x1000 != 0
  byteReg := w &&& 0x2000 != 0
  byteRm := w &&& 0x4000 != 0
  rep := if w &&& 0x20000 != 0 then some .f3 else if w &&& 0x40000 != 0 then some .f2 else none

/-- The low half of the REX byte for the register numbers `r`, `index` and `rm`. -/
def rexBits (o : Opcode) (r rm index : Nat) : Nat :=
  (if o.wide then 8 else 0) + (if 8 ≤ r then 4 else 0) + (if 8 ≤ index then 2 else 0) +
    (if 8 ≤ rm then 1 else 0)

/-- The REX byte, if one is needed: for the operand size, for the high registers, or to name a
byte register from 4 on. -/
def rex (o : Opcode) (r rm index : Nat) : List UInt8 :=
  let bits := o.rexBits r rm index
  if bits ≠ 0 ∨ (o.byteReg ∧ 4 ≤ r) ∨ (o.byteRm ∧ 4 ≤ rm) then [UInt8.ofNat (0x40 + bits)] else []

/-- The byte of a mandatory prefix. -/
def repBytes : Option RepPrefix → List UInt8
  | some .f3 => [0xF3]
  | some .f2 => [0xF2]
  | none => []

/-- Prefixes and opcode, for register numbers that are 0 where a field is not used. -/
def bytes (o : Opcode) (r rm index : Nat) : List UInt8 :=
  let size : List UInt8 := if o.data16 then [0x66] else []
  let escape : List UInt8 := if o.escaped then [0x0F] else []
  size ++ repBytes o.rep ++ o.rex r rm index ++ escape ++ [o.byte]

/-- Prefixes and opcode alone. -/
def bare (o : Opcode) (r rm : Nat) : Encoding := .plain (o.bytes r rm 0)

/-- A ModRM or SIB byte from its three fields. -/
def fields (high mid low : Nat) : UInt8 := UInt8.ofNat (high * 64 + mid * 8 + low)

/-- Two registers. -/
def regs (o : Opcode) (r rm : Nat) : Encoding :=
  .plain (o.bytes r rm 0 ++ [fields 3 (r % 8) (rm % 8)])

/-- An opcode extension and a register. -/
def extReg (o : Opcode) (ext rm : Nat) : Encoding :=
  .plain (o.bytes ext rm 0 ++ [0xC0 ||| UInt8.ofNat (ext * 8) ||| UInt8.ofNat (rm % 8)])

/-- The mode of a displacement and its bytes; the bases 5 and 13 have no form without one. -/
def displacement (base : Nat) (disp : Int32) : Nat × List UInt8 :=
  if disp = 0 ∧ base % 8 ≠ 5 then (0, [])
  else if -128 ≤ disp ∧ disp ≤ 127 then (1, leBytes 1 disp.toUInt32.toNat)
  else (2, leBytes 4 disp.toUInt32.toNat)

/-- A register field and a memory operand. The bases 4 and 12 need an SIB byte. -/
def regMem (o : Opcode) (r : Nat) (m : Mem) : Encoding :=
  let disp32 := leBytes 4 m.disp.toUInt32.toNat
  match m.base, m.index with
  | .rip, _ =>
    let head := o.bytes r 0 0 ++ [fields 0 (r % 8) 5]
    ⟨head ++ disp32, some head.length⟩
  | .none, none => .plain (o.bytes r 0 0 ++ [fields 0 (r % 8) 4, fields 0 4 5] ++ disp32)
  | .none, some i =>
    .plain (o.bytes r 0 i.reg.num.val ++
      [fields 0 (r % 8) 4, fields i.shift.val i.reg.low3 5] ++ disp32)
  | .reg base, none =>
    let (mode, disp) := displacement base.num.val m.disp
    let sib := if base.low3 = 4 then [fields 0 4 4] else []
    .plain (o.bytes r base.num.val 0 ++ [fields mode (r % 8) base.low3] ++ sib ++ disp)
  | .reg base, some i =>
    let (mode, disp) := displacement base.num.val m.disp
    .plain (o.bytes r base.num.val i.reg.num.val ++
      [fields mode (r % 8) 4, fields i.shift.val i.reg.low3 base.low3] ++ disp)

/-- A register field and a general register or memory operand. -/
def regRm (o : Opcode) (r : Nat) : Rm → Encoding
  | .reg rm => o.regs r rm.num.val
  | .mem m => o.regMem r m

/-- A register field and a floating-point register or memory operand. -/
def regXm (o : Opcode) (r : Nat) : Xm → Encoding
  | .reg x => o.regs r x.num.val
  | .mem m => o.regMem r m

/-- An opcode extension and a register or memory operand. -/
def extRm (o : Opcode) (ext : Nat) : Rm → Encoding
  | .reg rm => o.extReg ext rm.num.val
  | .mem m => o.regMem ext m

end Opcode

end MachineCode.X64
