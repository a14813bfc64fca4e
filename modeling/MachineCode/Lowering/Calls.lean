import MachineCode.Lowering.FrameCode

/-! Calls, with what the runtime has to know about them, and the checks that end in the runtime
by a fault. -/
namespace MachineCode.Lower

open X64

/-- Padding in front of a direct call that puts its displacement on a multiple of 4. -/
def callPadding (position : Nat) : Nat := (4 - (position + 1) % 4) % 4

/-- The call that ends here: its record and its exception edges. -/
def recordCall (start : Nat) (target : Option CallTarget) (info : Option DebugInfo)
    (direct : Bool) : Lower Unit := do
  let pc ← position
  record (SideTables.recordCall ⟨pc, pc - start, target, info, direct⟩)
  if let some info := info then record (SideTables.recordHandlers pc info)

def nopAfterCall : Lower Unit := do
  if (← get).target.options.emitNopAfterCall then emitBytes (nops 1)

/-- A call to a target whose address is known at installation. -/
def directCall (target : CallTarget) (info : Option DebugInfo) : Lower Unit := do
  if (← get).target.options.alignDirectCalls then emitBytes (nops (callPadding (← position)))
  let start ← position
  emitLinked .call fun field => SideTables.recordCallTarget field target
  recordCall start (some target) info true
  nopAfterCall

/-- A call through a register. -/
def indirectCall (address : Operand) (target : Option CallTarget) (info : DebugInfo) :
    Lower Unit := do
  let r ← inGpr address
  let start ← position
  emit (.callReg r)
  recordCall start target (some info) false
  nopAfterCall

/-- The return address of a call that does not return must not be the next operation. -/
def throwException (unwind : Bool) (info : DebugInfo) : Lower Unit := do
  directCall (.runtime (if unwind then .unwindException else .handleException)) (some info)
  if !(← get).target.options.emitNopAfterCall then emitBytes (nops 1)

def uncommonTrap (info : DebugInfo) : Lower Unit := directCall (.runtime .deoptimize) (some info)

/-- Read the safepoint page, which the runtime protects to stop threads. -/
def safepoint (info : DebugInfo) : Lower Unit := do
  let pc ← position
  record (SideTables.recordSafepoint pc info)
  emit (.test false (.mem (.based safepointLatch 0)) .rax)

/-- Read through the object, so that a null reference faults here. -/
def nullCheck (object : Operand) (info : DebugInfo) : Lower Unit := do
  let r ← gpr object
  let pc ← position
  emit (.test false (.mem (.based r 0)) .rax)
  recordTrap pc info

def lea (address result : Operand) : Lower Unit := do
  let res ← gpr result
  discard (emitAt (← location address) (.lea true res))

/-- The width of an atomic exchange of a value of this kind, if there is one. -/
def exchangeWide? : Kind → Option Bool
  | .int => some false
  | .long | .object => some true
  | _ => none

/-- The zero flag tells the outcome. -/
def compareAndSwap (cell expected newValue : Operand) : Lower Unit := do
  match exchangeWide? cell.kind with
  | none => unhandled s!"compare-and-swap of {cell.kind}"
  | some wide =>
    if (← gpr expected) ≠ .rax then unhandled "compare-and-swap expects the old value in rax"
    else
      let new ← gpr newValue
      let l ← location cell
      if new = .rax ∨ l.mem.uses .rax ∨ l.mem.uses new then
        unhandled "compare-and-swap operands overlap"
      else discard (emitAt l (.cmpxchg true wide · new))

/-- The processor reorders stores only with later loads. -/
def memoryBarrier (barriers : Barriers) : Lower Unit :=
  if barriers.contains .storeLoad then emit .mfence else pure ()

end MachineCode.Lower
