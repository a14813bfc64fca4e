import MachineCode.DebugInfo
import MachineCode.X64.Decode

/-! What is told about a compilation: events in order, and the lines they stand for at the levels
`debug` and `trace`. -/
namespace MachineCode

inductive LogLevel where
  | debug | trace
  deriving DecidableEq, Repr

structure LogRecord where
  level : LogLevel
  message : String
  deriving DecidableEq, Repr

namespace LogRecord

def line (r : LogRecord) : String :=
  match r.level with
  | .debug => "DEBUG " ++ r.message
  | .trace => "TRACE " ++ r.message

end LogRecord

namespace X64.ListingItem

/-- The instruction, or the byte that starts none. -/
def text (item : ListingItem) : String :=
  match item.content with
  | .inl (i, _) => i.text
  | .inr b => ".byte 0x" ++ Text.hexByte b

/-- The line of the item in a dump of finished code. -/
def line (item : ListingItem) : String :=
  "  " ++ Text.padLeft 6 (Text.hexDigits item.offset) ++ ": " ++ item.text

end X64.ListingItem

/-- Ranges of code are given by their first offset and the one behind the last. -/
inductive Event where
  | compiling (name : String) (id : Option UInt32) (frameSize saved : Nat)
  | bound (label : Label) (position : Nat)
  | prologue (name : String) (start stop : Nat)
  | operation (name : String) (number : Nat) (op : String) (start stop : Nat)
  | slowPath (name template : String) (start stop : Nat)
  | dataConstant (name : String) (size offset : Nat)
  | unreachable (template message : String)
  | compiled (name : String) (id : Option UInt32) (ops slowPaths codeSize dataSize : Nat)
  | dump (code : List UInt8)
  | installed (name : String) (base : Word) (codeSize dataSize relocations : Nat)
  deriving DecidableEq, Repr

namespace Event

def idText (id : Option UInt32) : String := Text.option (id.map UInt32.toNat)

def records : Event → List LogRecord
  | compiling name id frameSize saved =>
    [⟨.debug, s!"compiling {name} (id {idText id}): frame {frameSize} bytes, {saved} callee-saved"⟩]
  | bound label position => [⟨.trace, s!"bind {label} at {position}"⟩]
  | prologue name start stop => [⟨.trace, s!"{name}: prologue [{start}, {stop})"⟩]
  | operation name number op start stop =>
    [⟨.trace, s!"{name}#{number}: {op} -> [{start}, {stop})"⟩]
  | slowPath name template start stop =>
    [⟨.trace, s!"{name}: slow path for {template} at [{start}, {stop})"⟩]
  | dataConstant name size offset =>
    [⟨.trace, s!"{name}: data constant of {size} bytes at {offset}"⟩]
  | unreachable template message => [⟨.trace, s!"{template}: unreachable: {message}"⟩]
  | compiled name id ops slowPaths codeSize dataSize =>
    [⟨.debug, s!"compiled {name} (id {idText id}): {ops} ops, {slowPaths} slow paths, " ++
      s!"{codeSize} code bytes, {dataSize} data bytes"⟩]
  | dump code => (X64.listing code).map fun item => ⟨.trace, item.line⟩
  | installed name base codeSize dataSize relocations =>
    [⟨.debug, s!"installed {name} at {Text.hex base.toNat}: {codeSize} code + {dataSize} data " ++
      s!"bytes, {relocations} relocations"⟩]

end Event

/-- The running account of one compilation. `selected` says that its finished code is listed. -/
structure Journal where
  name : String
  id : Option UInt32
  selected : Bool
  ops : Nat
  slowPaths : Nat
  events : Array Event
  deriving DecidableEq, Repr

namespace Journal

/-- No identifiers to trace select every method. -/
def start (name : String) (id : Option UInt32) (traceIds : List UInt32) : Journal :=
  ⟨name, id, traceIds.isEmpty || id.any traceIds.contains, 0, 0, #[]⟩

def log (j : Journal) (e : Event) : Journal := { j with events := j.events.push e }

/-- Count an operation and the code it has produced. -/
def operation (j : Journal) (op : String) (start stop : Nat) : Journal :=
  { j.log (.operation j.name j.ops op start stop) with ops := j.ops + 1 }

def slowPath (j : Journal) (template : String) (start stop : Nat) : Journal :=
  { j.log (.slowPath j.name template start stop) with slowPaths := j.slowPaths + 1 }

def finished (j : Journal) (code : List UInt8) (dataSize : Nat) : Journal :=
  let j := j.log (.compiled j.name j.id j.ops j.slowPaths code.length dataSize)
  if j.selected then j.log (.dump code) else j

end Journal

end MachineCode
