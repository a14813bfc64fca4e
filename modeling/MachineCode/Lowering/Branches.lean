import MachineCode.Lowering.Moves

/-! Branches, switches and conditional moves. After a float compare the flags are those of the
unsigned conditions, and the parity flag stands for unordered operands. -/
namespace MachineCode.Lower

open X64

def branch (cond : Option Condition) (target : Label) : Lower Unit :=
  match cond with
  | none => jmp target
  | some cond => jcc (.ofCondition cond) target

def floatBranch (cond : Condition) (target unordered : Label) : Lower Unit := do
  jcc .p unordered
  jcc (.ofCondition cond.toUnsigned) target

/-- Bytes of an entry of a jump table. -/
def tableEntrySize : Nat := 4

/-- Emit an address computation whose operand is the place `distance` bytes from its end. -/
def emitLeaRelative (dst : Gpr) (distance : Int) : Lower Unit :=
  emit (.lea true dst (.rip (Int32.ofInt distance)))

/-- Load the entry that the index selects of the table at the scratch register. -/
def tableLoad (index : Gpr) : Instr :=
  .extend .signDword index (.mem (.indexed scratch index Scale.times4.log2 0))

/-- Add to the address of the table in the scratch register the entry that the index selects, and
jump there. -/
def tableJump (index : Gpr) : List Instr :=
  [tableLoad index, .alu .add true scratch (.reg index), .jmpReg scratch]

/-- The number of bytes that the instructions are encoded in. -/
def codeSize (is : List Instr) : Nat := is.foldr (fun i size => i.encode.length + size) 0

/-- The distance from the end of the address computation to the table, which stands behind the
jump at the next multiple of the entry size. -/
def tableDistance (stop : Nat) (jump : List Instr) : Nat :=
  let behind := stop + codeSize jump
  behind + (padding behind tableEntrySize).length - stop

/-- A jump through a table of 32-bit offsets from the table's start, which stands in the code. -/
def tableSwitch (index : Operand) (low : Int32) (targets : List Label) (default : Label) :
    Lower Unit := do
  let idx ← gpr index
  if idx = scratch ∨ idx = .rsp then unhandled s!"switch index in {idx.title}"
  else if targets.isEmpty then jmp default
  else
    match int32? (targets.length - 1 : Nat) with
    | none => unhandled s!"{targets.length} switch targets"
    | some span =>
      match int32? (low.toInt + span.toInt) with
      | none => unhandled s!"switch range {low.toInt} + {span.toInt}"
      | some high =>
        if low = 0 then emit (.mov false idx idx)
        else emit (.aluImm .sub false (.reg idx) low)
        emit (.aluImm .cmp false (.reg idx) span)
        jcc .a default
        let address : Instr := .lea true scratch (.rip 0)
        let jump := tableJump idx
        let stop := (← position) + address.encode.length
        emitLeaRelative scratch (tableDistance stop jump)
        jump.forM emit
        emitAlign tableEntrySize
        let table ← position
        targets.forM fun l => onBuffer (CodeBuffer.reference l (.table table))
        record (SideTables.recordJumpTable ⟨table, low, high, tableEntrySize⟩)

/-! ### Conditional moves -/

/-- A conditional move with its values in the order in which they are moved: `first`
unconditionally, then `second` where `takeSecond` holds. -/
structure Selection where
  first : Operand
  second : Operand
  takeSecond : Condition
  swapped : Bool

/-- The false value comes first where it already is in the result register. -/
def selection (cond : Condition) (trueValue falseValue result : Operand) : Selection :=
  if result.isRegister ∧ falseValue.register? = result.register? ∧ trueValue ≠ falseValue then
    ⟨falseValue, trueValue, cond, true⟩
  else ⟨trueValue, falseValue, cond.negate, false⟩

/-- The second value, loaded early if the move of the first changes a register that its address
is computed from. Loads change no flags. -/
def preloaded (second result : Operand) : Lower Operand := do
  match gpr? result with
  | none => return second
  | some res =>
    if second.isMemory then
      if (← location second).mem.uses res then
        return .reg (← toScratch second).register second.kind
    return second

/-- The width at which the conditional move instruction can take a value. -/
def cmovWide? : Operand → Option Bool
  | .reg r kind => if r.isGeneral then some kind.isWord else none
  | .stack _ kind | .addr ⟨kind, _, _, _, _⟩ =>
    match kind with
    | .int => some false
    | .long | .object => some true
    | _ => none
  | .const _ => none

def cmov (cond : Cond) (wide : Bool) (dst : Gpr) (src : Operand) : Lower Unit := do
  match src with
  | .reg .. => emit (.cmov cond wide dst (.reg (← gpr src)))
  | src => discard (emitAt (← location src) fun m => .cmov cond wide dst (.mem m))

/-- Branch around the move of the second value. -/
def selectByBranch (s : Selection) (second : Operand) (unorderedIsTrue : Option Bool)
    (result : Operand) : Lower Unit := do
  let skip ← newLabel
  let keepFirst := s.takeSecond.negate
  match unorderedIsTrue with
  | some unorderedIsTrue =>
    let move ← newLabel
    jcc .p (if unorderedIsTrue != s.swapped then skip else move)
    jcc (.ofCondition keepFirst.toUnsigned) skip
    bind move
  | none => jcc (.ofCondition keepFirst) skip
  mov second result false
  bind skip

def condMove (cond : Condition) (unorderedIsTrue : Option Bool)
    (trueValue falseValue result : Operand) : Lower Unit := do
  let s := selection cond trueValue falseValue result
  let second ← preloaded s.second result
  mov s.first result true
  let hasCmov := (← get).target.features.cmov && unorderedIsTrue.isNone
  match gpr? result, cmovWide? second with
  | some res, some wide =>
    if hasCmov then cmov (.ofCondition s.takeSecond) wide res second
    else selectByBranch s second unorderedIsTrue result
  | _, _ => selectByBranch s second unorderedIsTrue result

end MachineCode.Lower
