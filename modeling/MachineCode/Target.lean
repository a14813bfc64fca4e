import MachineCode.Named
import MachineCode.Register

/-! Code generation switches and the processor features that code may rely on. -/
namespace MachineCode

/-- How an object's address reaches the code: as a 64-bit immediate or from a data-section slot.
Both are filled in when the code is installed. -/
inductive ObjectPolicy where
  | inline | dataSection
  deriving DecidableEq, Repr, Inhabited

namespace ObjectPolicy

def all : List ObjectPolicy := [inline, dataSection]

def name : ObjectPolicy → String
  | inline => "inline"
  | dataSection => "data_section"

instance : Named ObjectPolicy := ⟨all, name⟩

end ObjectPolicy

structure Options where
  objectPolicy : ObjectPolicy
  /-- Touch the pages below the stack pointer in the prologue. -/
  useStackBanging : Bool
  /-- Pages between the usable stack and the guard zone. -/
  stackShadowPages : Nat
  /-- Fill a fresh frame with a recognisable word. -/
  zapStackOnEntry : Bool
  /-- Guard the least value divided by -1. -/
  genSpecialDivChecks : Bool
  emitNopAfterCall : Bool
  /-- Pad direct calls so that their displacement is 4-byte aligned. -/
  alignDirectCalls : Bool
  codeEntryAlignment : Nat
  /-- Mark recorded once the prologue has set up the frame. -/
  verifiedEntryMark : Option UInt32
  /-- Methods whose finished code is listed in the log; none means all. -/
  traceMethodIds : List UInt32
  deriving Repr, DecidableEq

namespace Options

def standard : Options :=
  { objectPolicy := .dataSection
    useStackBanging := true
    stackShadowPages := 2
    zapStackOnEntry := false
    genSpecialDivChecks := true
    emitNopAfterCall := false
    alignDirectCalls := true
    codeEntryAlignment := 16
    verifiedEntryMark := none
    traceMethodIds := [] }

end Options

/-- Without `cmov` every conditional move branches; `sse2` is required. -/
structure CpuFeatures where
  cmov : Bool
  sse2 : Bool
  deriving Repr, DecidableEq

structure Target where
  options : Options
  features : CpuFeatures
  pageSize : Nat
  deriving Repr, DecidableEq

namespace Target

def inlineObjects (t : Target) : Bool := t.options.objectPolicy == .inline

end Target

end MachineCode
