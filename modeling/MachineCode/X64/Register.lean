import MachineCode.Register
import MachineCode.Target

/-! The two register files of the processor and the roles of their registers. -/
namespace MachineCode.X64

/-- A general register by its number. -/
structure Gpr where
  num : Fin 16
  deriving DecidableEq, Repr, Inhabited

/-- A floating-point register by its number. -/
structure Xmm where
  num : Fin 16
  deriving DecidableEq, Repr, Inhabited

namespace Gpr

def rax : Gpr := ⟨0, by decide⟩
def rcx : Gpr := ⟨1, by decide⟩
def rdx : Gpr := ⟨2, by decide⟩
def rbx : Gpr := ⟨3, by decide⟩
def rsp : Gpr := ⟨4, by decide⟩
def rbp : Gpr := ⟨5, by decide⟩
def rsi : Gpr := ⟨6, by decide⟩
def rdi : Gpr := ⟨7, by decide⟩
def r8 : Gpr := ⟨8, by decide⟩
def r9 : Gpr := ⟨9, by decide⟩
def r10 : Gpr := ⟨10, by decide⟩
def r11 : Gpr := ⟨11, by decide⟩
def r12 : Gpr := ⟨12, by decide⟩
def r13 : Gpr := ⟨13, by decide⟩
def r14 : Gpr := ⟨14, by decide⟩
def r15 : Gpr := ⟨15, by decide⟩

/-- All general registers, by number. -/
def all : List Gpr := (List.finRange 16).map Gpr.mk

def titles : Vector String 16 :=
  #v["Rax", "Rcx", "Rdx", "Rbx", "Rsp", "Rbp", "Rsi", "Rdi",
    "R8", "R9", "R10", "R11", "R12", "R13", "R14", "R15"]

def title (r : Gpr) : String := titles.get r.num

/-- The register whose number is the low half of the byte. -/
def ofByte (b : UInt8) : Gpr := ⟨b.toNat % 16, Nat.mod_lt _ (by decide)⟩

/-- The number as an operand has it. -/
def byte (r : Gpr) : UInt8 := UInt8.ofNat r.num.val

/-- The general register that the allocator's name denotes, if the processor has it. -/
def ofRegister? (r : Register) : Option Gpr :=
  match r.file with
  | .general => if h : r.encoding.toNat < 16 then some ⟨⟨r.encoding.toNat, h⟩⟩ else none
  | .floating => none

def register (r : Gpr) : Register := .general (UInt8.ofNat r.num.val)

/-- The part of the number that goes into a three-bit field. -/
def low3 (r : Gpr) : Nat := r.num.val % 8

@[simp] theorem ofRegister?_register (r : Gpr) : ofRegister? r.register = some r := by
  obtain ⟨n⟩ := r
  revert n
  decide

end Gpr

namespace Xmm

/-- All floating-point registers, by number. -/
def all : List Xmm := (List.finRange 16).map Xmm.mk

def title (x : Xmm) : String := s!"Xmm{x.num.val}"

def ofByte (b : UInt8) : Xmm := ⟨b.toNat % 16, Nat.mod_lt _ (by decide)⟩

def byte (x : Xmm) : UInt8 := UInt8.ofNat x.num.val

def ofRegister? (r : Register) : Option Xmm :=
  match r.file with
  | .floating => if h : r.encoding.toNat < 16 then some ⟨⟨r.encoding.toNat, h⟩⟩ else none
  | .general => none

def register (x : Xmm) : Register := .floating (UInt8.ofNat x.num.val)

def low3 (x : Xmm) : Nat := x.num.val % 8

/-- Whether the number needs a fourth bit, outside the three-bit field. -/
def needsExtension (x : Xmm) : Bool := 8 ≤ x.num.val

@[simp] theorem ofRegister?_register (x : Xmm) : ofRegister? x.register = some x := by
  obtain ⟨n⟩ := x
  revert n
  decide

end Xmm

/-- For moves between memory cells and for addresses that are made on the way. -/
def scratch : Gpr := .r11

def floatScratch : Xmm := ⟨15, by decide⟩

/-- Holds the address of the safepoint page. -/
def safepointLatch : Gpr := .r14

def calleeSaved : List Gpr := [.rbx, .rbp, .r12, .r13, .r14, .r15]

def callArguments : List Gpr := [.rdi, .rsi, .rdx, .rcx, .r8, .r9]

def floatCallArguments : List Xmm := (List.finRange 8).map fun n => ⟨n.castLE (by decide)⟩

def returnRegister : Gpr := .rax

def floatReturnRegister : Xmm := ⟨0, by decide⟩

/-- Never handed out by the allocator. -/
def reserved : List Gpr := [.rsp, scratch, safepointLatch]

/-- Registers that the allocator may hand out. -/
def allocatable : List Register :=
  (Gpr.all.filter fun r => !reserved.contains r).map Gpr.register ++
    (Xmm.all.filter fun x => x != floatScratch).map Xmm.register

def isAllocatable (r : Register) : Bool := allocatable.contains r

/-- The processor every such machine has. -/
def baseline : CpuFeatures := ⟨true, true⟩

def arch : String := "x86_64"

def wordSize : Nat := 8

end MachineCode.X64
