import MachineCode.Lowering.Floats

/-! Conversions between kinds. Truncation to an integer leaves the fast path only when the
hardware reports a value that it cannot convert. -/
namespace MachineCode.Lower

open X64

/-- The extension of a constant, at compile time. -/
def extendConstant (ext : Extension) (c : Constant) : UInt64 :=
  let v := c.low32
  match ext with
  | .signDword => v.toInt32.toInt64.toUInt64
  | .signByte => v.toUInt8.toInt8.toInt32.toUInt32.toUInt64
  | .signWord => v.toUInt16.toInt16.toInt32.toUInt32.toUInt64
  | .zeroByte => v.toUInt8.toUInt64
  | .zeroWord => v.toUInt16.toUInt64

def extend (ext : Extension) (src dst : Operand) : Lower Unit := do
  let d ← gpr dst
  match src with
  | .reg .. => emit (.extend ext d (.reg (← gpr src)))
  | .const c => emit (.movImm (ext == .signDword) d (extendConstant ext c))
  | src => discard (emitAt (← location src) fun m => .extend ext d (.mem m))

/-- The low half of a long. -/
def narrow (src dst : Operand) : Lower Unit := do
  let d ← gpr dst
  match src with
  | .reg .. => emit (.mov false d (← gpr src))
  | src => discard (emitAt (← location src) (.load false d))

def intToFloat (double long : Bool) (src dst : Operand) : Lower Unit := do
  let d ← xmm dst
  emit (.cvtFromInt double long d (← inGpr src))

def floatToFloat (toDouble : Bool) (src dst : Operand) : Lower Unit := do
  let d ← xmm dst
  emit (.cvtFloat toDouble d (← inXmm src))

/-- The hardware gives the least value for NaN and for values out of range; a slow path makes them
0 and the nearest value. -/
def truncate (double long : Bool) (src dst : Operand) : Lower Unit := do
  let s ← xmm src
  let d ← gpr dst
  emit (.cvtToInt double long d s)
  if long then
    emit (.movImm true scratch 0x8000000000000000)
    emit (.alu .cmp true d (.reg scratch))
  else emit (.aluImm .cmp false (.reg d) Int32.minValue)
  let entry ← newLabel
  let resume ← newLabel
  jcc .e entry
  bind resume
  enqueue (.convertFixup entry resume s d double long)

/-- Negative values out of range already have the least value. -/
def convertFixup (entry resume : Label) (src : Xmm) (dst : Gpr) (double long : Bool) :
    Lower Unit := do
  let nan ← newLabel
  bind entry
  emit (.ucomis double src (.reg src))
  jccShort .p nan
  emit (.packed .xor double floatScratch (.reg floatScratch))
  emit (.ucomis double src (.reg floatScratch))
  jcc .b resume
  emit (.movImm long dst (if long then 0x7FFFFFFFFFFFFFFF else 0x7FFFFFFF))
  jmp resume
  bind nan
  emit (zero dst)
  jmp resume

def bitsToFloat (long : Bool) (src dst : Operand) : Lower Unit := do
  let d ← xmm dst
  emit (.movToXmm long d (← gpr src))

def floatToBits (long : Bool) (src dst : Operand) : Lower Unit := do
  let d ← gpr dst
  emit (.movFromXmm long d (← xmm src))

def convert (op : ConvertOp) (src dst : Operand) : Lower Unit :=
  match op with
  | .i2l => extend .signDword src dst
  | .i2b => extend .signByte src dst
  | .i2c => extend .zeroWord src dst
  | .i2s => extend .signWord src dst
  | .l2i => narrow src dst
  | .i2f => intToFloat false false src dst
  | .i2d => intToFloat true false src dst
  | .l2f => intToFloat false true src dst
  | .l2d => intToFloat true true src dst
  | .f2d => floatToFloat true src dst
  | .d2f => floatToFloat false src dst
  | .f2i => truncate false false src dst
  | .f2l => truncate false true src dst
  | .d2i => truncate true false src dst
  | .d2l => truncate true true src dst
  | .movI2F => bitsToFloat false src dst
  | .movL2D => bitsToFloat true src dst
  | .movF2I => floatToBits false src dst
  | .movD2L => floatToBits true src dst

end MachineCode.Lower
