import MachineCode.Machine.Interpret
import MachineCode.X64.InsnDecode

/-! Running installed code: fetch, decode, execute, until control returns to the caller. -/
namespace MachineCode.Machine

open X64

/-- Bytes fetched for an instruction; none is longer. -/
def fetchLength : Nat := 15

/-- The instruction that starts at `pc`. -/
def fetchInsn (m : Machine) (pc : Word) : Option (Insn × Nat) :=
  Insn.decode (m.memory.read pc fetchLength)

/-- One instruction. -/
def step : MachineStep Unit := do
  modify fun m => { m with pc := m.rip }
  let m ← get
  match m.fetchInsn m.pc with
  | none => throw (.undecodable m.pc)
  | some (x, n) =>
    let next := m.pc + BitVec.ofNat 64 n
    modify fun m => { m with rip := next, executed := m.executed.push (m.pc, x) }
    interpret x next

/-- At most `limit` instructions. -/
def runFor : (limit : Nat) → MachineStep Unit
  | 0 => throw .stepLimit
  | limit + 1 => do
    if (← get).rip ≠ returnSentinel then
      step
      runFor limit

/-- Instructions that one call may take. -/
def stepLimit : Nat := 1000000

/-- Call `entry` and run until it returns. -/
def call (entry : Word) : MachineStep Unit := do
  modify fun m =>
    let sp := m.reg .rsp - 8
    { m.setReg .rsp sp with memory := m.memory.writeWord sp 8 returnSentinel, rip := entry }
  runFor stepLimit

/-- Call `entry`; the result is the fault, if there was one, and the state after it. -/
def run (m : Machine) (entry : Word) : Option Fault × Machine :=
  match call entry m with
  | .ok _ m => (none, m)
  | .error e m => (some e, m)

/-- Log lines of the instructions that have been executed. -/
def trace (m : Machine) : List String :=
  m.executed.toList.map fun (pc, x) => Text.hex pc.toNat ++ ": " ++ x.text

end MachineCode.Machine
