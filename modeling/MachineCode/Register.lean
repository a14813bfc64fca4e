/-! Registers as the allocator names them: a register file and an encoding. -/
namespace MachineCode

inductive RegisterFile where
  | general | floating
  deriving DecidableEq, Repr, Inhabited

/-- The encoding is the number the instruction format uses; numbers the target does not have
can be named, and are refused where they are used. -/
structure Register where
  file : RegisterFile
  encoding : UInt8
  deriving DecidableEq, Repr, Inhabited

namespace Register

def general (encoding : UInt8) : Register := ⟨.general, encoding⟩

def floating (encoding : UInt8) : Register := ⟨.floating, encoding⟩

def isGeneral (r : Register) : Bool := r.file == .general

def name (r : Register) : String :=
  match r.file with
  | .general => s!"r{r.encoding.toNat}"
  | .floating => s!"f{r.encoding.toNat}"

/-- The register with this name. -/
def ofName? (s : String) : Option Register :=
  match s.toList with
  | 'r' :: digits => (String.ofList digits).toNat?.map fun n => general (UInt8.ofNat n)
  | 'f' :: digits => (String.ofList digits).toNat?.map fun n => floating (UInt8.ofNat n)
  | _ => none

instance : ToString Register := ⟨name⟩

end Register

end MachineCode
