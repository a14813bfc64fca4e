import MachineCode.Draft

/-! Moves between registers, memory and constants. A move whose source and destination both lie in
memory, or whose constant fits no immediate, goes through the scratch register. -/
namespace MachineCode.Lower

open X64

/-- Stands in the code until the object's address is known. -/
def unresolvedObject : UInt64 := 0xDEADDEADDEADDEAD

/-- Narrow integers are extended to 32 bits; floats are moved as raw bits. -/
def loadInstr (kind : Kind) (dst : Gpr) (src : Mem) : Instr :=
  match kind with
  | .boolean => .extend .zeroByte dst (.mem src)
  | .byte => .extend .signByte dst (.mem src)
  | .char => .extend .zeroWord dst (.mem src)
  | .short => .extend .signWord dst (.mem src)
  | .int | .float => .load false dst src
  | .long | .double | .object => .load true dst src

def storeInstr (kind : Kind) (src : Gpr) (dst : Mem) : Instr :=
  match kind with
  | .boolean | .byte => .storeByte src dst
  | .char | .short => .storeWord src dst
  | .int | .float => .store false src dst
  | .long | .double | .object => .store true src dst

def loadGpr (kind : Kind) (dst : Gpr) (l : Location) : Lower Nat := emitAt l (loadInstr kind dst)

def storeGpr (kind : Kind) (src : Gpr) (l : Location) : Lower Nat := emitAt l (storeInstr kind src)

def loadXmm (kind : Kind) (dst : Xmm) (l : Location) : Lower Nat :=
  if kind.isFloating then emitAt l (.movsLoad kind.isDouble dst)
  else unhandled s!"{kind} load into {dst.title}"

def storeXmm (kind : Kind) (src : Xmm) (l : Location) : Lower Nat :=
  if kind.isFloating then emitAt l (.movsStore kind.isDouble src)
  else unhandled s!"{kind} store from {src.title}"

/-- Load into a register of either file; the result is the offset of the load. -/
def load (kind : Kind) (dst : Register) (l : Location) : Lower Nat :=
  match Gpr.ofRegister? dst, Xmm.ofRegister? dst with
  | some r, _ => loadGpr kind r l
  | none, some x => loadXmm kind x l
  | none, none => unhandled s!"load into {dst}"

/-- Store from a register of either file; the result is the offset of the store. -/
def store (kind : Kind) (src : Register) (l : Location) : Lower Nat :=
  match Gpr.ofRegister? src, Xmm.ofRegister? src with
  | some r, _ => storeGpr kind r l
  | none, some x => storeXmm kind x l
  | none, none => unhandled s!"store from {src}"

/-- Copy within a register file. A register copied to itself needs no code. -/
def registerToRegister (src dst : Register) (kind : Kind) : Lower Unit :=
  if src = dst then pure ()
  else
    match Gpr.ofRegister? src, Gpr.ofRegister? dst with
    | some s, some d => emit (.mov kind.isWord d s)
    | none, none =>
      match Xmm.ofRegister? src, Xmm.ofRegister? dst with
      | some s, some d => emit (.movap kind.isDouble d s)
      | _, _ => unhandled s!"{kind} move {src} -> {dst}"
    | _, _ => unhandled s!"{kind} move {src} -> {dst} across files"

/-- The address of an object, as an immediate or from its slot in the data section. -/
def objectToRegister (o : ObjectId) (dst : Gpr) : Lower Unit := do
  if (← get).target.inlineObjects then
    emitLinked (.movAbs dst unresolvedObject) fun field => SideTables.recordObject field o
  else
    let (offset, fresh) ← onData (·.objectSlot o)
    if fresh then record (SideTables.recordDataObject offset o)
    discard (emitAt (.ofData offset) (.load true dst))

/-- Zero has a short form that changes no flags; the rest comes from the data section. -/
def constantToXmm (c : Constant) (dst : Xmm) : Lower Unit := do
  let double := c.kind.isDouble
  if !c.kind.isFloating then unhandled s!"{c.kind} constant into {dst.title}"
  else if c.isZeroBits then emit (.packed .xor double dst (.reg dst))
  else
    let offset ← onData fun s => if double then s.doubleBits c.bits else s.floatBits c.low32
    discard (emitAt (.ofData offset) (.movsLoad double dst))

/-- Zero has a short form that changes the flags. -/
def zero (r : Gpr) : Instr := .alu .xor false r (.reg r)

/-- With `keepFlags` the flags stay as they are. -/
def constantToRegister (c : Constant) (dst : Register) (keepFlags : Bool) : Lower Unit :=
  match Xmm.ofRegister? dst, Gpr.ofRegister? dst with
  | some x, _ => constantToXmm c x
  | none, none => unhandled s!"constant into {dst}"
  | none, some r =>
    match c.object? with
    | some o => objectToRegister o r
    | none =>
      if c.isZeroBits && !keepFlags then emit (zero r)
      else if c.kind.size = 8 then emit (.movImm true r c.bits)
      else emit (.movImm false r c.low32.toUInt64)

/-- Store at the width of `kind`; the result is the offset of the store. -/
def constantToMemory (c : Constant) (kind : Kind) (l : Location) : Lower Nat :=
  match c.object? with
  | some o => do
    objectToRegister o scratch
    storeGpr .object scratch l
  | none =>
    if kind.size = 8 then
      match int32? c.toInt64.toInt with
      | some imm => emitAt l (.storeImm .qword · imm)
      | none => do
        emit (.movImm true scratch c.bits)
        storeGpr .long scratch l
    else emitAt l (.storeImm (.ofBytes kind.size) · c.toInt32)

/-- Whether a store of the constant needs the scratch register. -/
def needsScratch (c : Constant) : Bool :=
  match c.kind with
  | .object => !c.isNull
  | .long | .double => (int32? c.toInt64.toInt).isNone
  | _ => false

/-- The address lies in the data section, which code does not write to. -/
def inData : Operand → Bool
  | .addr ⟨_, .data _, _, _, _⟩ => true
  | _ => false

/-- Move `src` to `dst`. With `keepFlags` the flags stay as they are. -/
def mov (src dst : Operand) (keepFlags : Bool) : Lower Unit := do
  if inData dst then unhandled "store into the data section"
  else
    match src, dst with
    | _, .const _ => unhandled "move into a constant"
    | .reg s kind, .reg d _ => registerToRegister s d kind
    | .reg s _, dst => discard (store dst.kind s (← location dst))
    | .const c, .reg d _ => constantToRegister c d keepFlags
    | .const c, dst => discard (constantToMemory c dst.kind (← location dst))
    | src, .reg d _ => discard (load src.kind d (← location src))
    | src, dst =>
      let source ← location src
      let target ← location dst
      discard (loadGpr src.kind scratch source)
      discard (storeGpr dst.kind scratch target)

/-- Copy a value into the scratch register. -/
def toScratch (src : Operand) : Lower Gpr := do
  mov src (.reg scratch.register src.kind) false
  return scratch

/-- Copy a value into the floating-point scratch register. -/
def toFloatScratch (src : Operand) : Lower Xmm := do
  mov src (.reg floatScratch.register src.kind) false
  return floatScratch

/-- The general register that holds a value; a value that is in none goes to the scratch
register. -/
def inGpr (o : Operand) : Lower Gpr := if o.isRegister then gpr o else toScratch o

/-- The floating-point register that holds a value, in the same way. -/
def inXmm (o : Operand) : Lower Xmm := if o.isRegister then xmm o else toFloatScratch o

end MachineCode.Lower
