import MachineCode.DataSection
import MachineCode.Frame
import MachineCode.Journal
import MachineCode.Method
import MachineCode.Operation
import MachineCode.X64.Branch

/-! A method while it is compiled. Steps append code, constants and records; a step that fails
leaves the draft it has reached. -/
namespace MachineCode

open X64

/-- One use of a template. Its micro-operations name operands and labels by their index here. -/
structure Expansion where
  template : Template
  operands : List Operand
  labels : List Label
  info : Option DebugInfo
  infoAfter : Option DebugInfo
  deriving Repr

/-- Code that is to follow the body of the method. -/
inductive SlowPath where
  /-- What a truncating conversion does about NaN and values out of range. -/
  | convertFixup (entry resume : Label) (src : Xmm) (dst : Gpr) (double long : Bool)
  | template (x : Expansion)
  deriving Repr

/-- `current` names the operation that is being lowered, for error reports. -/
structure Draft where
  target : Target
  frame : Frame
  buffer : CodeBuffer
  data : DataSection
  tables : SideTables
  pending : Array SlowPath
  journal : Journal
  current : String

/-- A step of lowering. -/
abbrev Lower := EStateM Error Draft

/-- A memory operand, with the data-section offset it refers to if there is one. -/
structure Location where
  mem : Mem
  data : Option Nat
  deriving DecidableEq, Repr

namespace Location

def plain (mem : Mem) : Location := ⟨mem, none⟩

/-- The data-section bytes at `offset`. -/
def ofData (offset : Nat) : Location := ⟨.rip 0, some offset⟩

end Location

namespace Draft

/-- An empty method, unless its frame or the processor is unusable. -/
def start (target : Target) (frame : Frame) (name : String) (id : Option UInt32) :
    Except Error Draft :=
  match frame.fault? with
  | some detail => .error (.invalidFrame detail)
  | none =>
    if target.features.sse2 then
      let journal := (Journal.start name id target.options.traceMethodIds).log
        (.compiling name id frame.size frame.saved.registers.length)
      .ok ⟨target, frame, .empty, .empty, .empty, #[], journal, "prologue"⟩
    else .error (.unhandled "prologue" "target without SSE2")

def name (d : Draft) : String := d.journal.name

end Draft

namespace Lower

def position : Lower Nat := return (← get).buffer.position

def log (e : Event) : Lower Unit := modify fun d => { d with journal := d.journal.log e }

/-- Fail because the current operation has no such lowering. -/
def unhandled {α : Type} (detail : String) : Lower α := do
  throw (.unhandled (← get).current detail)

def ofExcept {α : Type} (x : Except Error α) : Lower α := fun d =>
  match x with
  | .ok a => .ok a d
  | .error e => .error e d

/-- Run a step on the code buffer. The draft lets go of the buffer meanwhile, so that the buffer
can be changed in place. -/
def onBuffer {α : Type} (x : BufferStep α) : Lower α := fun d =>
  let buffer := d.buffer
  let d := { d with buffer := .empty }
  match x buffer with
  | .ok a buffer => .ok a { d with buffer }
  | .error e buffer => .error e { d with buffer }

/-- Add to the side tables. -/
def record (x : RecordStep Unit) : Lower Unit := fun d =>
  match x d.tables with
  | .ok _ tables => .ok () { d with tables }
  | .error e tables => .error e { d with tables }

/-- Add to the data section. -/
def onData {α : Type} (f : DataSection → α × DataSection) : Lower α := modifyGet fun d =>
  let (a, data) := f d.data
  (a, { d with data })

def emitBytes (bytes : List UInt8) : Lower Unit := onBuffer (CodeBuffer.emit bytes)

def emit (i : Instr) : Lower Unit := emitBytes i.encode.bytes

/-- Emit an instruction with the field that installation fills in; the result is the field's
offset, which lies in the instruction. -/
def emitLinked (i : Instr) (recordField : Nat → RecordStep Unit) :
    Lower Unit := do
  let start ← position
  modify fun d => { d with buffer := d.buffer.setMark }
  emit i
  let field := start + i.linkField?.getD 0
  ofExcept ((← get).buffer.checkInInstruction field)
  record (recordField field)
  modify fun d => { d with buffer := d.buffer.clearMark }

/-- Emit an instruction with a memory operand, and record its reference to the data section. The
result is the offset of the instruction. -/
def emitAt (l : Location) (i : Mem → Instr) : Lower Nat := do
  let start ← position
  modify fun d => { d with buffer := d.buffer.setMark }
  let e := (i l.mem).encode
  emitBytes e.bytes
  match l.data with
  | none => pure ()
  | some offset =>
    match e.ripField with
    | none => throw (.midInstructionRelocation start (some start))
    | some k =>
      ofExcept ((← get).buffer.checkInInstruction (start + k))
      let stop ← position
      record (SideTables.recordData start (start + k) stop offset)
  modify fun d => { d with buffer := d.buffer.clearMark }
  return start

/-! ### Labels and branches -/

def newLabel : Lower Label := modifyGet fun d =>
  let (l, buffer) := d.buffer.newLabel
  (l, { d with buffer })

def newLabels (n : Nat) : Lower (List Label) := modifyGet fun d =>
  let (ls, buffer) := d.buffer.newLabels n
  (ls, { d with buffer })

def reserveLabels (count : Nat) : Lower Unit := onBuffer (CodeBuffer.reserveLabels count)

def bind (l : Label) : Lower Unit := do
  if ← onBuffer (CodeBuffer.bind l) then log (.bound l (← position))

def jcc (cond : Cond) (l : Label) : Lower Unit := onBuffer (CodeBuffer.jcc cond l)

def jccShort (cond : Cond) (l : Label) : Lower Unit := onBuffer (CodeBuffer.jccShort cond l)

def jmp (l : Label) : Lower Unit := onBuffer (CodeBuffer.jmp l)

/-- Put off code until the body of the method is complete. -/
def enqueue (path : SlowPath) : Lower Unit := modify fun d =>
  { d with pending := d.pending.push path }

/-! ### Padding -/

def emitAlign (align : Nat) : Lower Unit := do emitBytes (padding (← position) align)

/-! ### Operands -/

/-- The general register of an operand, if it is one. -/
def gpr? : Operand → Option Gpr
  | .reg r _ => Gpr.ofRegister? r
  | _ => none

def gpr (o : Operand) : Lower Gpr :=
  match o with
  | .reg r _ =>
    match Gpr.ofRegister? r with
    | some g => pure g
    | none => unhandled s!"{r} is not a general register"
  | o => unhandled s!"expected a register, got {o.shape}"

def xmm (o : Operand) : Lower Xmm :=
  match o with
  | .reg r _ =>
    match Xmm.ofRegister? r with
    | some x => pure x
    | none => unhandled s!"{r} is not a float register"
  | o => unhandled s!"expected a float register, got {o.shape}"

/-- A frame slot or another place at a fixed distance from the stack pointer. -/
def stackMem (offset : Nat) : Lower Mem := do
  return .based .rsp (← ofExcept (displacement32 offset))

/-- The memory operand of an address. A data-section address has no index and stays in the section,
at the width of its kind. -/
def address (a : Address) : Lower Location := do
  match a.base with
  | .register base =>
    match Gpr.ofRegister? base with
    | none => unhandled s!"address base {base}"
    | some base =>
      match a.index with
      | none => return .plain (.based base a.disp)
      | some index =>
        match (Gpr.ofRegister? index).filter (· != .rsp) with
        | none => unhandled s!"address index {index}"
        | some index => return .plain (.indexed base index a.scale.log2 a.disp)
  | .data start =>
    if a.index.isSome then unhandled "data-section address with an index"
    else
      let offset : Int := start + a.disp.toInt
      let length := (← get).data.size
      if offset < 0 ∨ 0x100000000 ≤ offset then throw (.displacementOutOfRange offset)
      else if length < offset.toNat + a.kind.size then throw (.dataOutOfRange offset.toNat length)
      else return .ofData offset.toNat

/-- The memory operand of a frame slot or an address. -/
def location (o : Operand) : Lower Location := do
  match o with
  | .stack slot _ => return .plain (← stackMem ((← get).frame.slotOffset slot))
  | .addr a => address a
  | o => unhandled s!"expected memory, got {o.shape}"

/-! ### Records -/

/-- An instruction at `pc` that may fault on purpose, with its exception edges. -/
def recordTrap (pc : Nat) (info : DebugInfo) : Lower Unit := do
  record (SideTables.recordImplicitException pc info)
  record (SideTables.recordHandlers pc info)

/-- Put a constant into the data section; the result is its address. -/
def dataConstant (bytes : List UInt8) (align : Nat) (kind : Kind) : Lower Address := do
  let offset ← onData (·.constant bytes align)
  log (.dataConstant (← get).name bytes.length offset)
  return .ofData kind offset

end Lower

end MachineCode
