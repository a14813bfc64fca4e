import MachineCode.CallTarget
import MachineCode.Error

/-! The tables beside the code: fields to fill in at installation, and what the runtime needs to
walk, unwind and deoptimize frames. A record is refused when its key has been claimed. -/
namespace MachineCode

/-- What a field is filled with at installation. -/
inductive RelocationKind where
  /-- A 64-bit immediate, with the address of an object. -/
  | object (o : ObjectId)
  /-- The displacement of a call, counted from the end of the field. -/
  | call (target : CallTarget)
  /-- The displacement of a data-section entry, counted from the end of the instruction. -/
  | data (dataOffset instructionEnd : Nat)
  deriving DecidableEq, Repr

/-- The field at `offset` of the code. -/
structure Relocation where
  offset : Nat
  kind : RelocationKind
  deriving DecidableEq, Repr

/-- A data-section slot that receives an object's address. -/
structure DataObject where
  dataOffset : Nat
  object : ObjectId
  deriving DecidableEq, Repr

/-- `pc` is the return address; a call through a register may have no target. -/
structure CallSite where
  pc : Nat
  size : Nat
  target : Option CallTarget
  info : Option DebugInfo
  direct : Bool
  deriving DecidableEq, Repr

structure Safepoint where
  pc : Nat
  info : DebugInfo
  deriving DecidableEq, Repr

/-- An instruction that may fault on purpose. -/
structure ImplicitException where
  pc : Nat
  info : DebugInfo
  deriving DecidableEq, Repr

/-- `handlerOffset` is known once the code is finished. -/
structure ExceptionHandler where
  pc : Nat
  handler : Label
  handlerOffset : Option Nat
  catchType : Option ObjectId
  deriving DecidableEq, Repr

structure JumpTable where
  position : Nat
  low : Int32
  high : Int32
  entrySize : Nat
  deriving DecidableEq, Repr

structure Mark where
  pc : Nat
  id : UInt32
  deriving DecidableEq, Repr

/-- The tables, and the keys that have been claimed. A key is a position under the name of its
table. -/
structure SideTables where
  relocations : Array Relocation
  dataObjects : Array DataObject
  callSites : Array CallSite
  safepoints : Array Safepoint
  implicitExceptions : Array ImplicitException
  exceptionHandlers : Array ExceptionHandler
  jumpTables : Array JumpTable
  marks : Array Mark
  seen : List (String × Nat)
  deriving DecidableEq, Repr

/-- Adding to the tables. A step that fails leaves the tables it has reached. -/
abbrev RecordStep := EStateM Error SideTables

namespace SideTables

def empty : SideTables := ⟨#[], #[], #[], #[], #[], #[], #[], #[], []⟩

/-- Claim a key, which is refused if it has been claimed before. -/
def claim (table : String) (pc : Nat) : RecordStep Unit := do
  if (table, pc) ∈ (← get).seen then
    throw (.duplicateRecord table pc)
  modify fun t => { t with seen := (table, pc) :: t.seen }

/-- The end of a 4-byte field. Offsets are 64-bit numbers, and the sum wraps around. -/
def fieldEnd (patch : Nat) : Nat := (UInt64.ofNat patch + 4).toNat

/-- The 4-byte field at `patch` lies in the instruction from `start` to `stop` and refers to
`dataOffset`. -/
def recordData (start patch stop dataOffset : Nat) : RecordStep Unit := do
  if patch < start ∨ stop < fieldEnd patch then
    throw (.midInstructionRelocation patch (some start))
  claim "data reference" patch
  modify fun t => { t with relocations := t.relocations.push ⟨patch, .data dataOffset stop⟩ }

def recordObject (offset : Nat) (o : ObjectId) : RecordStep Unit := do
  claim "embedded object" offset
  modify fun t => { t with relocations := t.relocations.push ⟨offset, .object o⟩ }

def recordDataObject (dataOffset : Nat) (o : ObjectId) : RecordStep Unit := do
  claim "data object" dataOffset
  modify fun t => { t with dataObjects := t.dataObjects.push ⟨dataOffset, o⟩ }

def recordCallTarget (offset : Nat) (target : CallTarget) : RecordStep Unit := do
  claim "call target" offset
  modify fun t => { t with relocations := t.relocations.push ⟨offset, .call target⟩ }

def recordCall (site : CallSite) : RecordStep Unit := do
  claim "call site" site.pc
  modify fun t => { t with callSites := t.callSites.push site }

def recordSafepoint (pc : Nat) (info : DebugInfo) : RecordStep Unit := do
  claim "safepoint" pc
  modify fun t => { t with safepoints := t.safepoints.push ⟨pc, info⟩ }

def recordImplicitException (pc : Nat) (info : DebugInfo) : RecordStep Unit := do
  claim "implicit exception" pc
  modify fun t => { t with implicitExceptions := t.implicitExceptions.push ⟨pc, info⟩ }

/-- The exception edges of `info` at `pc`; where the handlers are is not known yet. -/
def handlerRows (pc : Nat) (info : DebugInfo) : List ExceptionHandler :=
  info.edges.map fun e => ⟨pc, e.handler, none, e.catchType⟩

/-- All exception edges of `info`, under one key; without edges nothing is recorded. -/
def recordHandlers (pc : Nat) (info : DebugInfo) : RecordStep Unit := do
  if info.edges.isEmpty then
    return
  claim "exception handlers" pc
  modify fun t => { t with exceptionHandlers := t.exceptionHandlers ++ handlerRows pc info }

def recordJumpTable (table : JumpTable) : RecordStep Unit := do
  claim "jump table" table.position
  modify fun t => { t with jumpTables := t.jumpTables.push table }

/-- Marks claim no key. They are looked up, and those of different identifiers may share a
position. -/
def recordMark (pc : Nat) (id : UInt32) : RecordStep Unit := do
  if ⟨pc, id⟩ ∈ (← get).marks then
    throw (.duplicateRecord "mark" pc)
  modify fun t => { t with marks := t.marks.push ⟨pc, id⟩ }

end SideTables

end MachineCode
