import MachineCode.Machine.Flags
import MachineCode.Machine.Memory
import MachineCode.X64.Insn
import MachineCode.X64.Mem

/-! The processor's state: registers, flags, memory, and a record of what has happened. A step
that faults leaves the state it has reached. -/
namespace MachineCode

/-- Why a run stops before it returns. -/
inductive Fault where
  | divideError (pc : Word)
  | segv (pc addr : Word)
  | invalidOpcode (pc : Word)
  | breakpoint (pc : Word)
  | undecodable (pc : Word)
  /-- The quotient of the least 128-bit dividend by -1 has no 128-bit form. -/
  | quotientOverflow (pc : Word)
  /-- An operand that the instruction does not have. -/
  | missingOperand (pc : Word)
  /-- A register number outside the register file. -/
  | missingRegister (pc : Word)
  /-- An operand of a size that no scalar has. -/
  | oddSize (pc : Word)
  | stepLimit
  deriving DecidableEq, Repr

namespace Fault

def name : Fault → String
  | divideError _ => "divide_error"
  | segv .. => "segv"
  | invalidOpcode _ => "invalid_opcode"
  | breakpoint _ => "breakpoint"
  | undecodable _ => "undecodable"
  | quotientOverflow _ => "quotient_overflow"
  | missingOperand _ => "missing_operand"
  | missingRegister _ => "missing_register"
  | oddSize _ => "odd_size"
  | stepLimit => "step_limit"

/-- The instruction that faults. -/
def pc? : Fault → Option Word
  | divideError pc | segv pc _ | invalidOpcode pc | breakpoint pc | undecodable pc
  | quotientOverflow pc | missingOperand pc | missingRegister pc | oddSize pc => some pc
  | stepLimit => none

/-- The address of an access that is refused. -/
def addr? : Fault → Option Word
  | segv _ addr => some addr
  | _ => none

/-- An operand of the instruction cannot be looked up. -/
def isLookup : Fault → Bool
  | missingOperand _ | missingRegister _ | oddSize _ => true
  | _ => false

/-- The machine itself cannot go on. -/
def isPanic : Fault → Bool
  | quotientOverflow _ => true
  | e => e.isLookup

end Fault

structure Access where
  pc : Word
  addr : Word
  width : Nat
  write : Bool
  deriving DecidableEq, Repr

/-- The addresses from `start` up to `stop`. -/
structure AddressRange where
  start : Word
  stop : Word
  deriving DecidableEq, Repr

namespace AddressRange

def contains (r : AddressRange) (a : Word) : Bool := r.start ≤ a && a < r.stop

end AddressRange

/-- Routines that run in place of a call to their address. -/
inductive Stub where
  /-- `rax = rdi + 1`. -/
  | inc
  /-- `xmm0 = 2.5`. -/
  | f64
  /-- Overwrites the registers that a call may change. -/
  | clobber
  deriving DecidableEq, Repr

namespace Stub

def all : List Stub := [inc, f64, clobber]

def name : Stub → String
  | inc => "inc"
  | f64 => "f64"
  | clobber => "clobber"

instance : Named Stub := ⟨all, name⟩

end Stub

/-- `protectedRanges` fault on access; `images` hold code that calls may enter. -/
structure Machine where
  gpr : Vector Word 16
  xmm : Vector (BitVec 128) 16
  flags : Flags
  rip : Word
  pc : Word
  memory : Memory
  protectedRanges : List AddressRange
  images : List AddressRange
  stubs : List (Word × Stub)
  accesses : Array Access
  calls : Array Word
  executed : Array (Word × X64.Insn)
  deriving Repr

/-- A step of the machine. -/
abbrev MachineStep := EStateM Fault Machine

namespace Machine

open X64

/-- The stack pointer before the first call. -/
def stackTop : Word := 0x7fff00000000

/-- The return address under which a run ends. -/
def returnSentinel : Word := 0xdead00000000

/-- Accesses below fault. -/
def nullGuard : Word := 0x10000

/-- The address in the safepoint latch. -/
def safepointPage : Word := 0x20000000

def initial : Machine where
  gpr := ((Vector.replicate 16 0).set Gpr.rsp.num stackTop).set safepointLatch.num safepointPage
  xmm := Vector.replicate 16 0
  flags := .clear
  rip := 0
  pc := 0
  memory := .empty
  protectedRanges := []
  images := []
  stubs := []
  accesses := #[]
  calls := #[]
  executed := #[]

def reg (m : Machine) (r : Gpr) : Word := m.gpr[r.num]

def setReg (m : Machine) (r : Gpr) (v : Word) : Machine := { m with gpr := m.gpr.set r.num v }

def xmmReg (m : Machine) (x : Xmm) : BitVec 128 := m.xmm[x.num]

def setXmm (m : Machine) (x : Xmm) (v : BitVec 128) : Machine := { m with xmm := m.xmm.set x.num v }

/-- Make an installed image executable at `base`. -/
def load (m : Machine) (base : Word) (image : Array UInt8) : Machine :=
  { m with
    memory := m.memory.write base image
    images := m.images ++ [⟨base, base + BitVec.ofNat 64 image.size⟩] }

def writeBytes (m : Machine) (start : Word) (bytes : Array UInt8) : Machine :=
  { m with memory := m.memory.write start bytes }

/-- A later stub for an address takes the place of an earlier one. -/
def setStub (m : Machine) (addr : Word) (s : Stub) : Machine :=
  { m with stubs := (addr, s) :: m.stubs }

def protect (m : Machine) (r : AddressRange) : Machine :=
  { m with protectedRanges := m.protectedRanges ++ [r] }

/-- Forget what has been recorded. -/
def clearRecord (m : Machine) : Machine := { m with accesses := #[], calls := #[], executed := #[] }

/-- The low `w` bits of a word. -/
def low (v : Word) (w : Width) : Word := (v.setWidth w.bits).setWidth 64

/-- The low `w` bits of a word, signed. -/
def signExtend (v : Word) (w : Width) : Word := (v.setWidth w.bits).signExtend 64

/-- A register after a write of the given width: 32-bit writes clear the high half, narrower ones
keep the bits above. -/
def merge (old new : Word) (w : Width) : Word :=
  match w with
  | .qword => new
  | .dword => low new .dword
  | w => (old &&& ~~~(low (-1) w)) ||| low new w

def writeReg (r : Gpr) (w : Width) (v : Word) : MachineStep Unit :=
  modify fun m => m.setReg r (merge (m.reg r) v w)

def readReg (r : Gpr) (w : Width) : MachineStep Word := return low ((← get).reg r) w

/-- Whether an access of `n` bytes at `addr` faults. -/
def faultsAt (m : Machine) (addr : Word) (n : Nat) : Bool :=
  addr < nullGuard ||
    m.protectedRanges.any fun r => addr < r.stop && r.start < addr + BitVec.ofNat 64 n

/-- Check and record an access. -/
def access (addr : Word) (n : Nat) (write : Bool) : MachineStep Unit := do
  let m ← get
  if m.faultsAt addr n then throw (.segv m.pc addr)
  modify fun m => { m with accesses := m.accesses.push ⟨m.pc, addr, n, write⟩ }

def loadBytes (addr : Word) (n : Nat) : MachineStep Word := do
  access addr n false
  return BitVec.ofNat 64 ((← get).memory.readWord addr n)

def storeBytes (addr : Word) (n : Nat) (v : Word) : MachineStep Unit := do
  access addr n true
  modify fun m => { m with memory := m.memory.writeWord addr n v }

/-- Sixteen bytes, in two accesses. -/
def load128 (addr : Word) : MachineStep (BitVec 128) := do
  let lo ← loadBytes addr 8
  let hi ← loadBytes (addr + 8) 8
  return hi ++ lo

/-- The address that an operand denotes, in an instruction that ends at `next`. -/
def effectiveAddress (m : Machine) (x : Mem) (next : Word) : Word :=
  let base := match x.base with
    | .none => 0
    | .reg r => m.reg r
    | .rip => next
  let index := match x.index with
    | none => 0
    | some i => m.reg i.reg <<< i.shift.val
  BitVec.ofInt 64 x.disp.toInt + base + index

def address (x : Mem) (next : Word) : MachineStep Word := return (← get).effectiveAddress x next

/-- Registers and memory after a stub has run. -/
def runStub (m : Machine) : Stub → Machine
  | .inc => m.setReg .rax (m.reg .rdi + 1)
  | .f64 => m.setXmm floatReturnRegister 0x4004000000000000
  | .clobber =>
    [Gpr.rax, .rcx, .rdx, .rsi, .rdi, .r8, .r9, .r10, .r11].foldl
      (fun m r => m.setReg r 0xC1C1C1C1C1C1C1C1) m

@[simp] theorem reg_setReg_self (m : Machine) (r : Gpr) (v : Word) : (m.setReg r v).reg r = v := by
  simp [reg, setReg]

theorem reg_setReg_of_ne {m : Machine} {r s : Gpr} {v : Word} (h : r ≠ s) :
    (m.setReg r v).reg s = m.reg s := by
  have hn : r.num.val ≠ s.num.val := fun he => h (by cases r; cases s; simp_all [Fin.ext_iff])
  simp only [reg, setReg, Fin.getElem_fin]
  exact Vector.getElem_set_ne _ _ hn

@[simp] theorem low_low (v : Word) (w : Width) : low (low v w) w = low v w := by
  cases w <;> simp [low, Width.bits, Width.bytes]

end Machine

end MachineCode
