import MachineCode.X64.Decoded

/-! Decoding. An instruction is read as legacy prefixes, at most one REX byte, an opcode and the
fields that the opcode's form asks for. -/
namespace MachineCode.X64

/-- Bytes that are left, and how many have been read. -/
structure Cursor where
  rest : List UInt8
  taken : Nat
  deriving DecidableEq, Repr

/-- A reader of a part of an instruction; it fails where the bytes end or make no sense. -/
abbrev Reader := StateT Cursor Option

/-- Legacy prefixes and the REX byte, 0 where there is none. -/
structure Prefixes where
  lock : Bool
  data16 : Bool
  rep : Bool
  repne : Bool
  rex : UInt8
  deriving DecidableEq, Repr

namespace Prefixes

def empty : Prefixes := ⟨false, false, false, false, 0⟩

def wide (p : Prefixes) : Bool := p.rex &&& 8 != 0

/-- The fourth bit of the register field, of the index and of the r/m field. -/
def highReg (p : Prefixes) : Bool := p.rex &&& 4 != 0

def highIndex (p : Prefixes) : Bool := p.rex &&& 2 != 0

def highRm (p : Prefixes) : Bool := p.rex &&& 1 != 0

/-- Operand size of a general instruction. -/
def width (p : Prefixes) : Width := if p.wide then .qword else if p.data16 then .word else .dword

/-- Operand size of the general operand of a floating-point instruction. -/
def intWidth (p : Prefixes) : Width := .ofWide p.wide

/-- A scalar floating-point opcode needs one of these. -/
def isScalar (p : Prefixes) : Bool := p.rep || p.repne

end Prefixes

/-- What the one-byte opcodes stand for. `byte` picks the 8-bit variant of a form. -/
inductive OpcodeForm where
  | aluStore (op : AluOp)
  | aluLoad (op : AluOp)
  | push (low : Nat)
  | pop (low : Nat)
  | movsxd
  | imulImm (byte : Bool)
  | jccShort (cond : Cond)
  | aluImm (byte : Bool)
  | test (byte : Bool)
  | movStore (byte : Bool)
  | movLoad (byte : Bool)
  | lea
  | nop
  | cdq
  | movImm (low : Nat)
  | shiftImm
  | shiftOne
  | shiftCl
  | ret
  | movImmRm (byte : Bool)
  | int3
  | call
  | jmp
  | jmpShort
  | group3
  | group5
  deriving DecidableEq, Repr

/-- What the two-byte opcodes stand for. -/
inductive EscapedForm where
  | ud2
  | movsLoad
  | movsStore
  | nop
  | movap
  | cvtFromInt
  | cvtToInt
  | ucomis
  | cmov (cond : Cond)
  | sse (op : SseOp)
  | packed (op : PackedOp)
  | cvtFloat
  | movToXmm
  | movFromXmm
  | jcc (cond : Cond)
  | setcc (cond : Cond)
  | fence
  | imul
  | cmpxchg
  | movx (sign word : Bool)
  | bitScan (reverse : Bool)
  deriving DecidableEq, Repr

def OpcodeForm.ofByte? (b : UInt8) : Option OpcodeForm :=
  let n := b.toNat
  if n < 0x40 then
    if n % 8 = 1 then some (.aluStore (.ofCode (n / 8)))
    else if n % 8 = 3 then some (.aluLoad (.ofCode (n / 8)))
    else none
  else if 0x50 ≤ n ∧ n < 0x58 then some (.push (n - 0x50))
  else if 0x58 ≤ n ∧ n < 0x60 then some (.pop (n - 0x58))
  else if 0x70 ≤ n ∧ n < 0x80 then some (.jccShort (.ofCode n))
  else if 0xB8 ≤ n ∧ n < 0xC0 then some (.movImm (n - 0xB8))
  else match n with
    | 0x63 => some .movsxd
    | 0x69 => some (.imulImm false)
    | 0x6B => some (.imulImm true)
    | 0x81 => some (.aluImm false)
    | 0x83 => some (.aluImm true)
    | 0x84 => some (.test true)
    | 0x85 => some (.test false)
    | 0x88 => some (.movStore true)
    | 0x89 => some (.movStore false)
    | 0x8A => some (.movLoad true)
    | 0x8B => some (.movLoad false)
    | 0x8D => some .lea
    | 0x90 => some .nop
    | 0x99 => some .cdq
    | 0xC1 => some .shiftImm
    | 0xC3 => some .ret
    | 0xC6 => some (.movImmRm true)
    | 0xC7 => some (.movImmRm false)
    | 0xCC => some .int3
    | 0xD1 => some .shiftOne
    | 0xD3 => some .shiftCl
    | 0xE8 => some .call
    | 0xE9 => some .jmp
    | 0xEB => some .jmpShort
    | 0xF7 => some .group3
    | 0xFF => some .group5
    | _ => none

def EscapedForm.ofByte? (b : UInt8) : Option EscapedForm :=
  let n := b.toNat
  if 0x40 ≤ n ∧ n < 0x50 then some (.cmov (.ofCode n))
  else if 0x80 ≤ n ∧ n < 0x90 then some (.jcc (.ofCode n))
  else if 0x90 ≤ n ∧ n < 0xA0 then some (.setcc (.ofCode n))
  else match n with
    | 0x0B => some .ud2
    | 0x10 => some .movsLoad
    | 0x11 => some .movsStore
    | 0x1F => some .nop
    | 0x28 => some .movap
    | 0x2A => some .cvtFromInt
    | 0x2C => some .cvtToInt
    | 0x2E => some .ucomis
    | 0x51 => some (.sse .sqrt)
    | 0x54 => some (.packed .and)
    | 0x57 => some (.packed .xor)
    | 0x58 => some (.sse .add)
    | 0x59 => some (.sse .mul)
    | 0x5A => some .cvtFloat
    | 0x5C => some (.sse .sub)
    | 0x5E => some (.sse .div)
    | 0x6E => some .movToXmm
    | 0x7E => some .movFromXmm
    | 0xAE => some .fence
    | 0xAF => some .imul
    | 0xB1 => some .cmpxchg
    | 0xB6 => some (.movx false false)
    | 0xB7 => some (.movx false true)
    | 0xBC => some (.bitScan false)
    | 0xBD => some (.bitScan true)
    | 0xBE => some (.movx true false)
    | 0xBF => some (.movx true true)
    | _ => none

namespace Reader

/-- The next byte. -/
def byte : Reader UInt8 := fun c =>
  match c.rest with
  | [] => none
  | b :: rest => some (b, ⟨rest, c.taken + 1⟩)

/-- A little-endian number of `k` bytes. -/
def number : Nat → Reader Nat
  | 0 => pure 0
  | k + 1 => do
    let low ← byte
    let high ← number k
    return low.toNat + 256 * high

def int8 : Reader Int := do return (← byte).toInt8.toInt

def int16 : Reader Int := do return (Int16.ofNat (← number 2)).toInt

def int32 : Reader Int32 := do return Int32.ofNat (← number 4)

/-- The immediate of a general instruction: 16 bits at operand size 16, else 32 bits. -/
def immediate (w : Width) : Reader Int := do
  if w = .word then int16
  else return (← int32).toInt

/-- The 8-bit immediate, or the one of the operand size. -/
def shortImmediate (byte : Bool) (w : Width) : Reader Int := if byte then int8 else immediate w

/-- A register or a memory operand whose register file is not known yet. -/
inductive Operand where
  | reg (num : Fin 16)
  | mem (m : Mem)
  deriving DecidableEq, Repr

/-- The ModRM byte with what follows it; `ext` is its register field, without the fourth bit. -/
structure ModRm where
  reg : Fin 16
  ext : Nat
  rm : Operand
  deriving DecidableEq, Repr

/-- A register number from a three-bit field and a fourth bit. -/
def extended (high : Bool) (low : Nat) : Fin 16 :=
  ⟨low % 8 + if high then 8 else 0, by split <;> omega⟩

/-- The scale of an SIB byte, as a shift. -/
def sibShift (sib : Nat) : Fin 4 := ⟨sib / 64 % 4, Nat.mod_lt _ (by decide)⟩

/-- The displacement that a mode asks for, 0 where there is none. -/
def displacement (mode : Nat) : Reader Int32 :=
  match mode with
  | 1 => do return Int32.ofInt (← int8)
  | 2 => int32
  | _ => pure 0

/-- A memory operand with an SIB byte. The index 4 stands for none; the base 5 stands for none in
mode 0, with a 32-bit displacement. -/
def sibMem (p : Prefixes) (mode : Nat) : Reader Mem := do
  let sib := (← byte).toNat
  let number := extended p.highIndex (sib / 8)
  let index : Option MemIndex :=
    if number.val = 4 then none else some ⟨⟨number⟩, sibShift sib⟩
  if sib % 8 = 5 ∧ mode = 0 then
    return ⟨.none, index, ← int32⟩
  else
    return ⟨.reg ⟨extended p.highRm sib⟩, index, ← displacement mode⟩

def mem (p : Prefixes) (mode rm : Nat) : Reader Mem := do
  if rm = 4 then sibMem p mode
  else if rm = 5 ∧ mode = 0 then return .rip (← int32)
  else return .based ⟨extended p.highRm rm⟩ (← displacement mode)

def modRm (p : Prefixes) : Reader ModRm := do
  let b := (← byte).toNat
  let ext := b / 8 % 8
  let rm ← if b / 64 = 3 then pure (.reg (extended p.highRm b))
    else Operand.mem <$> mem p (b / 64) (b % 8)
  return ⟨extended p.highReg ext, ext, rm⟩

/-- A general register of the given width. Without a REX byte the byte registers 4 to 7 are not
the low bytes of those registers, and are left out. -/
def gpr (p : Prefixes) (w : Width) (num : Fin 16) : Reader Gpr :=
  if w = .byte ∧ p.rex = 0 ∧ 4 ≤ num.val ∧ num.val < 8 then failure else pure ⟨num⟩

def rm (p : Prefixes) (w : Width) : Operand → Reader Rm
  | .reg num => Rm.reg <$> gpr p w num
  | .mem m => pure (.mem m)

def xm : Operand → Xm
  | .reg num => .reg ⟨num⟩
  | .mem m => .mem m

/-- Fail unless a condition holds. -/
def require (b : Bool) : Reader Unit := if b then pure () else failure

/-- A register or memory operand and a register, in this order. -/
def rmReg (p : Prefixes) (w : Width) : Reader (Rm × Gpr) := do
  let m ← modRm p
  return (← rm p w m.rm, ← gpr p w m.reg)

/-- A register of width `w`, and a register or memory operand of width `v`. -/
def regRm (p : Prefixes) (w v : Width) : Reader (Gpr × Rm) := do
  let m ← modRm p
  return (← gpr p w m.reg, ← rm p v m.rm)

def xmmXm (p : Prefixes) : Reader (Xmm × Xm) := do
  let m ← modRm p
  return (⟨m.reg⟩, xm m.rm)

def shift (p : Prefixes) (count : Reader ShiftCount) : Reader Decoded := do
  let m ← modRm p
  match Shift.ofCode? m.ext with
  | some op => return .shift op p.width (← rm p p.width m.rm) (← count)
  | none => failure

def group3 (p : Prefixes) : Reader Decoded := do
  let m ← modRm p
  let x ← rm p p.width m.rm
  match m.ext with
  | 0 => return .test p.width x (.imm (← immediate p.width))
  | 2 => return .unary .not p.width x
  | 3 => return .unary .neg p.width x
  | 4 => return .unary .mul p.width x
  | 5 => return .unary .imul p.width x
  | 6 => return .unary .div p.width x
  | 7 => return .unary .idiv p.width x
  | _ => failure

def group5 (p : Prefixes) : Reader Decoded := do
  let m ← modRm p
  let x ← rm p .qword m.rm
  match m.ext with
  | 2 => return .call (.rm x)
  | 4 => return .jmp (.rm x)
  | _ => failure

/-- The immediate of a move into a register has the operand size; the full word is signed. -/
def moveImmediate (w : Width) : Reader Int :=
  match w with
  | .qword => do return (Int64.ofNat (← number 8)).toInt
  | .word => do return (← number 2 : Nat)
  | _ => do return (← number 4 : Nat)

end Reader

open Reader

/-- Width of a form with an 8-bit variant. -/
def Prefixes.formWidth (p : Prefixes) (byte : Bool) : Width := if byte then .byte else p.width

/-- What follows a one-byte opcode. -/
def OpcodeForm.read (p : Prefixes) : OpcodeForm → Reader Decoded
  | .aluStore op => do
    let (dst, src) ← rmReg p p.width
    return .alu op p.width dst (.rm (.reg src))
  | .aluLoad op => do
    let (dst, src) ← regRm p p.width p.width
    return .alu op p.width (.reg dst) (.rm src)
  | .push low => return .push ⟨extended p.highRm low⟩
  | .pop low => return .pop ⟨extended p.highRm low⟩
  | .movsxd => do
    let (dst, src) ← regRm p p.width .dword
    return .movsx p.width dst .dword src
  | .imulImm byte => do
    let (dst, src) ← regRm p p.width p.width
    return .imul p.width dst src (some (← shortImmediate byte p.width))
  | .jccShort cond => return .jcc cond (Int32.ofInt (← int8))
  | .aluImm byte => do
    let m ← modRm p
    let dst ← Reader.rm p p.width m.rm
    return .alu (.ofCode m.ext) p.width dst (.imm (← shortImmediate byte p.width))
  | .test byte => do
    let w := p.formWidth byte
    let (a, b) ← rmReg p w
    return .test w a (.rm (.reg b))
  | .movStore byte => do
    let w := p.formWidth byte
    let (dst, src) ← rmReg p w
    return .mov w dst (.rm (.reg src))
  | .movLoad byte => do
    let w := p.formWidth byte
    let (dst, src) ← regRm p w w
    return .mov w (.reg dst) (.rm src)
  | .lea => do
    let m ← modRm p
    match m.rm with
    | .mem mem => return .lea p.width (← gpr p p.width m.reg) mem
    | .reg _ => failure
  | .nop => return if p.rep then .pause else .nop
  | .cdq => return if p.wide then .cqo else .cdq
  | .movImm low =>
    return .mov p.width (.reg ⟨extended p.highRm low⟩) (.imm (← moveImmediate p.width))
  | .shiftImm => shift p (ShiftCount.imm <$> byte)
  | .shiftOne => shift p (pure (.imm 1))
  | .shiftCl => shift p (pure .cl)
  | .ret => return .ret
  | .movImmRm byte => do
    let w := p.formWidth byte
    let m ← modRm p
    require (m.ext == 0)
    let dst ← Reader.rm p w m.rm
    return .mov w dst (.imm (← shortImmediate byte w))
  | .int3 => return .int3
  | .call => return .call (.rel (← int32))
  | .jmp => return .jmp (.rel (← int32))
  | .jmpShort => return .jmp (.rel (Int32.ofInt (← int8)))
  | .group3 => Reader.group3 p
  | .group5 => Reader.group5 p

/-- What follows a two-byte opcode. -/
def EscapedForm.read (p : Prefixes) : EscapedForm → Reader Decoded
  | .ud2 => return .ud2
  | .movsLoad => do
    require p.isScalar
    let (dst, src) ← xmmXm p
    return .movs p.repne (.reg dst) src
  | .movsStore => do
    require p.isScalar
    let (src, dst) ← xmmXm p
    return .movs p.repne dst (.reg src)
  | .nop => do
    let _ ← modRm p
    return .nop
  | .movap => do
    let (dst, src) ← xmmXm p
    return .movap p.data16 dst src
  | .cvtFromInt => do
    require p.isScalar
    let m ← modRm p
    return .cvtFromInt p.repne p.intWidth ⟨m.reg⟩ (← Reader.rm p p.intWidth m.rm)
  | .cvtToInt => do
    require p.isScalar
    let m ← modRm p
    return .cvtToInt p.repne p.intWidth (← gpr p p.intWidth m.reg) (xm m.rm)
  | .ucomis => do
    let (a, b) ← xmmXm p
    return .ucomis p.data16 a b
  | .cmov cond => do
    let (dst, src) ← regRm p p.width p.width
    return .cmov cond p.width dst src
  | .sse op => do
    require p.isScalar
    let (dst, src) ← xmmXm p
    return .sse op p.repne dst src
  | .packed op => do
    let (dst, src) ← xmmXm p
    return .packed op p.data16 dst src
  | .cvtFloat => do
    require p.isScalar
    let (dst, src) ← xmmXm p
    return .cvtFloat p.rep dst src
  | .movToXmm => do
    require p.data16
    let m ← modRm p
    return .movToXmm p.intWidth ⟨m.reg⟩ (← Reader.rm p p.intWidth m.rm)
  | .movFromXmm => do
    require p.data16
    let m ← modRm p
    return .movFromXmm p.intWidth (← Reader.rm p p.intWidth m.rm) ⟨m.reg⟩
  | .jcc cond => return .jcc cond (← int32)
  | .setcc cond => do
    let m ← modRm p
    return .setcc cond (← Reader.rm p .byte m.rm)
  | .fence => do
    require ((← byte) == 0xF0)
    return .mfence
  | .imul => do
    let (dst, src) ← regRm p p.width p.width
    return .imul p.width dst src none
  | .cmpxchg => do
    let (dst, src) ← rmReg p p.width
    return .cmpxchg p.lock p.width dst src
  | .movx sign word => do
    let v : Width := if word then .word else .byte
    let (dst, src) ← regRm p p.width v
    return if sign then .movsx p.width dst v src else .movzx p.width dst v src
  | .bitScan reverse => do
    let (dst, src) ← regRm p p.width p.width
    return .bitScan reverse p.width dst src

/-- Take a legacy prefix, if `b` is one. -/
def Prefixes.take? (p : Prefixes) (b : UInt8) : Option Prefixes :=
  if b = 0xF0 then some { p with lock := true }
  else if b = 0x66 then some { p with data16 := true }
  else if b = 0xF3 then some { p with rep := true }
  else if b = 0xF2 then some { p with repne := true }
  else none

/-- Skip over the legacy prefixes. -/
def Prefixes.legacy (p : Prefixes) (taken : Nat) : List UInt8 → Prefixes × Cursor
  | [] => (p, ⟨[], taken⟩)
  | b :: rest =>
    match p.take? b with
    | some p => p.legacy (taken + 1) rest
    | none => (p, ⟨b :: rest, taken⟩)

/-- Skip over a REX byte. -/
def Prefixes.takeRex (p : Prefixes) (c : Cursor) : Prefixes × Cursor :=
  match c.rest with
  | b :: rest =>
    if b &&& 0xF0 = 0x40 then ({ p with rex := b }, ⟨rest, c.taken + 1⟩) else (p, c)
  | [] => (p, c)

/-- The opcode and what follows it. -/
def Decoded.read (p : Prefixes) : Reader Decoded := do
  let b ← byte
  if b = 0x0F then
    match EscapedForm.ofByte? (← byte) with
    | some form => form.read p
    | none => failure
  else
    match OpcodeForm.ofByte? b with
    | some form => form.read p
    | none => failure

/-- The instruction at the start of the bytes, with its length. -/
def decode (bytes : List UInt8) : Option (Decoded × Nat) :=
  let (p, c) := Prefixes.empty.legacy 0 bytes
  let (p, c) := p.takeRex c
  (Decoded.read p c).map fun (i, c) => (i, c.taken)

/-- An item of a listing: an instruction with its length, or a byte that starts none. -/
structure ListingItem where
  offset : Nat
  content : (Decoded × Nat) ⊕ UInt8
  deriving DecidableEq, Repr

/-- Walk over the bytes and skip those of the instruction before. -/
def listingFrom (offset : Nat) : (skip : Nat) → List UInt8 → List ListingItem
  | _, [] => []
  | skip + 1, _ :: rest => listingFrom (offset + 1) skip rest
  | 0, b :: rest =>
    match decode (b :: rest) with
    | some (i, n) => ⟨offset, .inl (i, n)⟩ :: listingFrom (offset + 1) (n - 1) rest
    | none => ⟨offset, .inr b⟩ :: listingFrom (offset + 1) 0 rest

/-- The bytes cut into instructions and into single bytes where no instruction starts. -/
def listing (bytes : List UInt8) : List ListingItem := listingFrom 0 0 bytes

/-- Cut on from `offset`, the first `skip` bytes being those of the instruction before. -/
def decodeFrom (offset : Nat) : (skip : Nat) → List UInt8 → Option (List (Nat × Decoded × Nat))
  | _, [] => some []
  | skip + 1, _ :: rest => decodeFrom (offset + 1) skip rest
  | 0, b :: rest => do
    let (i, n) ← decode (b :: rest)
    let more ← decodeFrom (offset + 1) (n - 1) rest
    return (offset, i, n) :: more

/-- The bytes cut into instructions, if that is possible without a rest. -/
def decodeAll (bytes : List UInt8) : Option (List (Nat × Decoded × Nat)) := decodeFrom 0 0 bytes

end MachineCode.X64
