import MachineCode.CodeBuffer
import MachineCode.SideTables

/-! Finished methods and their installation: code, then data at the next multiple of 16, with every
symbolic reference replaced by its address. -/
namespace MachineCode

/-- Alignment of the data section in the image, and the least alignment of the image. -/
def dataAlign : Nat := 16

structure Method where
  name : String
  code : Array UInt8
  data : Array UInt8
  frameSize : Nat
  entryAlignment : Nat
  tables : SideTables
  /-- Operations lowered, the prologue not counted. -/
  ops : Nat
  slowPaths : Nat
  deriving Repr

/-- Addresses of the symbols that code refers to. -/
structure Resolver where
  call : CallTarget → Option Word
  object : ObjectId → Option Word

namespace Resolver

/-- The last entry for a symbol counts. -/
def ofTables (calls : List (CallTarget × Word)) (objects : List (ObjectId × Word)) : Resolver where
  call target := calls.reverse.lookup target
  object o := objects.reverse.lookup o

def callAddress (r : Resolver) (target : CallTarget) : Except Error Word :=
  match r.call target with
  | some a => .ok a
  | none => .error (.unresolvedCallTarget target.text)

def objectAddress (r : Resolver) (o : ObjectId) : Except Error Word :=
  match r.object o with
  | some a => .ok a
  | none => .error (.unresolvedObject o)

end Resolver

namespace Method

/-- Offset of the data section in the image. -/
def dataStart (m : Method) : Nat := alignUp m.code.size dataAlign

def imageSize (m : Method) : Nat := m.dataStart + m.data.size

/-- The alignment that the base of the image has to have. -/
def installAlign (m : Method) : Nat := max m.entryAlignment dataAlign

/-- Code and data as they lie in the image, before relocation. -/
def layout (m : Method) : Array UInt8 :=
  m.code ++ Array.replicate (m.dataStart - m.code.size) (0 : UInt8) ++ m.data

/-- The displacement of a call from the field at `offset`. One that does not fit is reported as a
signed 64-bit number. -/
def callDisplacement (base : Word) (offset : Nat) (address : Word) : Except Error Int32 :=
  let disp : Int := address.toNat - (base.toNat + offset + 4)
  match int32? disp with
  | some d => .ok d
  | none => .error (.displacementOutOfRange (disp.bmod (pow2 64)))

/-- What a relocation writes. -/
def relocated (m : Method) (base : Word) (r : Resolver) (x : Relocation) :
    Except Error (List UInt8) := do
  match x.kind with
  | .object o => return leBytes 8 (← r.objectAddress o).toNat
  | .call target =>
    let d ← callDisplacement base x.offset (← r.callAddress target)
    return leBytes 4 d.toUInt32.toNat
  | .data dataOffset stop =>
    let d ← displacement32 ((m.dataStart : Int) + dataOffset - stop)
    return leBytes 4 d.toUInt32.toNat

def applyRelocation (m : Method) (base : Word) (r : Resolver) (image : Array UInt8)
    (x : Relocation) : Except Error (Array UInt8) := do
  return CodeBuffer.overwrite image x.offset (← m.relocated base r x)

def fillSlot (m : Method) (r : Resolver) (image : Array UInt8) (x : DataObject) :
    Except Error (Array UInt8) := do
  let address ← r.objectAddress x.object
  return CodeBuffer.overwrite image (m.dataStart + x.dataOffset) (leBytes 8 address.toNat)

/-- The image of the method at `base`. -/
def install (m : Method) (base : Word) (r : Resolver) : Except Error (Array UInt8) := do
  if base.toNat % m.installAlign ≠ 0 then
    throw (.misalignedInstallBase base.toNat m.installAlign)
  let image ← m.tables.relocations.toList.foldlM (m.applyRelocation base r) m.layout
  m.tables.dataObjects.toList.foldlM (m.fillSlot r) image

end Method

end MachineCode
