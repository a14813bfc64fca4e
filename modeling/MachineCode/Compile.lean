import MachineCode.Lowering.Conversions
import MachineCode.Lowering.Templates

/-! Compilation of a method: the prologue, its operations in order, the code that was put off, and
the finished tables. -/
namespace MachineCode

/-- A method to compile. Its constants stand in the data section in front of those that the
operations need. -/
structure MethodSource where
  name : String
  id : Option UInt32
  frame : Frame
  constants : List DataConstant
  ops : List Operation

namespace Lower

open X64

/-- The code of an operation. -/
def lower : Operation → Lower Unit
  | .label l => bind l
  | .move src dst => mov src dst false
  | .arith op left right result info => arith op left right result info
  | .logic op left right result => logic op left right result
  | .shift op value count result => shift op value count result
  | .negate value result => negate value result
  | .abs value result => abs value result
  | .sqrt value result => sqrt value result
  | .convert op src dst => convert op src dst
  | .compare left right => compare left right
  | .compareToInt op left right result => compareToInt op left right result
  | .branch cond target => branch cond target
  | .floatBranch cond target unordered => floatBranch cond target unordered
  | .tableSwitch index low targets default => tableSwitch index low targets default
  | .condMove cond unorderedIsTrue trueValue falseValue result =>
    condMove cond unorderedIsTrue trueValue falseValue result
  | .lea address result => lea address result
  | .nullCheck object info => nullCheck object info
  | .directCall target info => directCall target (some info)
  | .indirectCall address info => indirectCall address none info
  | .nativeCall symbol address info => indirectCall address (some (.native symbol)) info
  | .ret value => ret value
  | .safepoint info => safepoint info
  | .monitorAddress index result => monitorAddress index result
  | .stackAllocate block result => stackAllocate block result
  | .compareAndSwap address expected newValue => compareAndSwap address expected newValue
  | .throw unwind info => throwException unwind info
  | .uncommonTrap info => uncommonTrap info
  | .memoryBarrier barriers => memoryBarrier barriers
  | .breakpoint => emit .int3
  | .pause => emit .pause
  | .align n => emitAlign n
  | .significantBit most value result => significantBit most value result
  | .template t operands info infoAfter => template t operands info infoAfter

/-- Name the operation that is being lowered. -/
def setCurrent (op : String) : Lower Unit := modify fun d => { d with current := op }

/-- The entry of the method: stack check, frame and saved registers. -/
def prologue : Lower Unit := do
  setCurrent "prologue"
  let start ← position
  let d ← get
  if d.target.options.useStackBanging then bangStack
  pushFrame
  let stop ← position
  if let some id := d.target.options.verifiedEntryMark then record (SideTables.recordMark stop id)
  log (.prologue d.name start stop)

def operation (op : Operation) : Lower Unit := do
  setCurrent op.name
  let start ← position
  lower op
  let stop ← position
  modify fun d => { d with journal := d.journal.operation op.name start stop }

def slowPath (path : SlowPath) : Lower Unit := do
  let start ← position
  let name ← match path with
    | .convertFixup entry resume src dst double long => do
      setCurrent "convert"
      convertFixup entry resume src dst double long
      pure "convert"
    | .template x => do
      setCurrent "xir"
      templateSlowPath x
      pure x.template.name
  let stop ← position
  modify fun d => { d with journal := d.journal.slowPath name start stop }

/-- The code that was put off, in the order in which it was. -/
def slowPaths : Lower Unit := do
  let paths := (← get).pending
  modify fun d => { d with pending := #[] }
  paths.toList.forM slowPath

/-- The exception handlers with their offsets. -/
def resolveHandlers (buffer : CodeBuffer) (handlers : Array ExceptionHandler) :
    Except Error (Array ExceptionHandler) :=
  handlers.mapM fun h =>
    match buffer.labelOffset h.handler with
    | some offset => .ok { h with handlerOffset := some offset }
    | none => .error (.unboundLabel h.handler)

/-- Complete the method. -/
def finish : Lower Method := do
  slowPaths
  let d ← get
  let handlers ← ofExcept (resolveHandlers d.buffer d.tables.exceptionHandlers)
  let code ← ofExcept d.buffer.finish
  let journal := d.journal.finished code.toList d.data.size
  set { d with journal }
  return {
    name := d.name
    code
    data := d.data.bytes
    frameSize := d.frame.size
    entryAlignment := d.target.options.codeEntryAlignment
    tables := { d.tables with exceptionHandlers := handlers }
    ops := journal.ops
    slowPaths := journal.slowPaths }

/-- The number of labels that operations name: one more than the highest. -/
def labelCount (ops : List Operation) : Nat :=
  (ops.flatMap Operation.labels).foldl (fun n l => max n (l.index + 1)) 0

/-- Put constants into the data section, one after the other. -/
def addConstants (constants : List DataConstant) : Lower Unit :=
  constants.forM fun c => discard (dataConstant c.bytes c.align .int)

def method (constants : List DataConstant) (ops : List Operation) : Lower Method := do
  addConstants constants
  reserveLabels (labelCount ops)
  prologue
  ops.forM operation
  slowPaths
  finish

end Lower

/-- The compiled method or the first error, with what happened on the way. -/
def compile (target : Target) (source : MethodSource) : Except Error Method × Array Event :=
  match Draft.start target source.frame source.name source.id with
  | .error e => (.error e, #[])
  | .ok draft =>
    match Lower.method source.constants source.ops draft with
    | .ok m draft => (.ok m, draft.journal.events)
    | .error e draft => (.error e, draft.journal.events)

/-- The event that the method has been installed at `base`. -/
def Method.installed (m : Method) (base : Word) : Event :=
  .installed m.name base m.code.size m.data.size
    (m.tables.relocations.size + m.tables.dataObjects.size)

end MachineCode
