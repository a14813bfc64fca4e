import MachineCode.Compile
import MachineCode.Proofs.Effects.Effect

/-! The steps that lowering is made of. Whatever is lowered, what happens to the draft is that some
of these actions are performed, one after the other. -/
namespace MachineCode

open X64

/-- The error that a side table has a record under its key already. -/
def Error.isDuplicate : Error → Bool
  | .duplicateRecord .. => true
  | _ => false

/-- The error is about what is to be lowered, and not about what has been written for it. -/
def Error.isRefusal : Error → Bool
  | .duplicateRecord .. | .redefineLabel .. | .branchOutOfRange
    .. | .midInstructionRelocation .. => false
  | _ => true

theorem Error.isDuplicate_of_isRefusal {e : Error}
    (h : e.isRefusal = true) : e.isDuplicate = false := by
  cases e <;> first | rfl | cases h

/-- One instruction. -/
inductive Emission where
  | emit (i : Instr)
  /-- An instruction with a memory operand. -/
  | at (l : Location) (i : Mem → Instr)

/-- What may stand between an instruction that may fault and the record about it. -/
inductive Trailer where
  | none
  | store (x : Emission)
  | bind (l : Label)
  | refuse (e : Error)

inductive Action where
  | instr (x : Emission)
  /-- A move of an object's address, as an immediate. -/
  | embed (o : ObjectId) (dst : Gpr)
  /-- A slot of the data section for an object's address. -/
  | slot (o : ObjectId)
  | constant (bytes : List UInt8) (align : Nat)
  | reserve (count : Nat)
  | fresh (n : Nat)
  | bind (l : Label)
  | jump (cond : Option Cond) (l : Label)
  | jumpShort (cond : Cond) (l : Label)
  | pad (n : Nat)
  | raw (bytes : List UInt8)
  /-- The jump of a switch with its table behind it. No label is bound in between. -/
  | table (low high : Int32) (targets : List Label)
  | directCall (target : CallTarget) (info : Option DebugInfo)
  | indirectCall (r : Gpr) (target : Option CallTarget) (info : DebugInfo)
  | safepoint (info : DebugInfo)
  /-- An instruction that may fault on purpose, and the record about it. -/
  | trap (x : Emission) (after : Trailer) (info : DebugInfo)
  | mark (id : UInt32)
  | enqueue (path : SlowPath)
  | log (event : Event)
  /-- The journal counts an operation, or code that was put off. -/
  | report (f : Journal → Journal)
  | name (op : String)
  | refuse (e : Error)

def Emission.perform : Emission → Lower Unit
  | emit i => Lower.emit i
  | .at l i => discard (Lower.emitAt l i)

def Trailer.perform : Trailer → Lower Unit
  | none => pure ()
  | store x => x.perform
  | bind l => Lower.bind l
  | refuse e => throw e

namespace Action

open Lower in
def perform : Action → Lower Unit
  | instr x => x.perform
  | embed o dst =>
    emitLinked (.movAbs dst unresolvedObject) fun field => SideTables.recordObject field o
  | slot o => do
    let (offset, isNew) ← onData (·.objectSlot o)
    if isNew then record (SideTables.recordDataObject offset o)
  | constant bytes align => discard (onData (·.constant bytes align))
  | reserve count => reserveLabels count
  | fresh n => discard (newLabels n)
  | bind l => Lower.bind l
  | jump none l => jmp l
  | jump (some cond) l => jcc cond l
  | jumpShort cond l => jccShort cond l
  | pad n => emitBytes (nops n)
  | raw bytes => emitBytes bytes
  | table low high targets => do
    emit (.jmpReg scratch)
    emitAlign tableEntrySize
    let table ← position
    targets.forM fun l => onBuffer (CodeBuffer.reference l (.table table))
    record (SideTables.recordJumpTable ⟨table, low, high, tableEntrySize⟩)
  | directCall target info => do
    let start ← position
    emitLinked .call fun field => SideTables.recordCallTarget field target
    recordCall start (some target) info true
    nopAfterCall
  | indirectCall r target info => do
    let start ← position
    emit (.callReg r)
    recordCall start target (some info) false
    nopAfterCall
  | safepoint info => Lower.safepoint info
  | trap x after info => do
    let pc ← position
    x.perform
    after.perform
    recordTrap pc info
  | mark id => do
    let pc ← position
    record (SideTables.recordMark pc id)
  | enqueue path => Lower.enqueue path
  | log event => Lower.log event
  | report f => modify fun d => { d with journal := f d.journal }
  | name op => setCurrent op
  | refuse e => throw e

end Action

/-- The trailer as actions of its own. -/
def Trailer.actions : Trailer → List Action
  | none => []
  | store x => [.instr x]
  | bind l => [.bind l]
  | refuse e => [.refuse e]

/-- One action after the other, up to the first that fails. -/
def performAll (as : List Action) : Lower Unit := as.forM Action.perform

/-! ### Actions within an effect -/

def Emission.Within (e : Effect) : Emission → Prop
  | emit i => i.Encodable ∧ e.Admits i.footprint .plain
  | .at l i => l.Valid ∧ (∀ m, (i m).mem? = some m) ∧ e.Admits (i l.mem).footprint fun _ => l

def Trailer.Within (e : Effect) : Trailer → Prop
  | none => True
  | refuse err => err.isRefusal = true
  | store x => x.Within e
  | bind l => e.binds l

/-- All exception edges are allowed. -/
def DebugInfo.Within (e : Effect) (info : DebugInfo) : Prop := ∀ l ∈ info.handlers, e.handlers l

def Action.Within (e : Effect) : Action → Prop
  | instr x => x.Within e
  | embed _ dst => e.gprs dst
  | slot _ | constant .. | reserve _ | fresh _ | pad _ | safepoint _ | log _ | name _ => True
  | report _ => e.accounts
  | refuse err => err.isRefusal = true
  | bind l => e.binds l
  | jump _ l | jumpShort _ l => e.refers l
  | raw _ => e.raws
  | table low high targets => e.leaves ∧ (∀ l ∈ targets, e.refers l) ∧
    high.toInt - low.toInt + 1 = targets.length
  | directCall _ info => e.leaves ∧ ∀ i ∈ info, i.Within e
  | indirectCall _ _ info => e.leaves ∧ info.Within e
  | trap x after info => x.Within e ∧ after.Within e ∧ info.Within e
  | mark _ => e.marks
  | enqueue path => e.paths path

end MachineCode
