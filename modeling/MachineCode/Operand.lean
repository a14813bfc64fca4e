import MachineCode.Kind
import MachineCode.Register

/-! Where a value lives at its point of use: a register, a frame slot, a constant or an address. -/
namespace MachineCode

/-- A heap object that code refers to; its address is known when the code is installed. -/
structure ObjectId where
  id : UInt32
  deriving DecidableEq, Repr, Inhabited

/-- A word of the frame: a spill slot, an outgoing argument or an argument of the caller. -/
inductive StackSlot where
  | spill (n : Nat)
  | outgoing (n : Nat)
  | incoming (n : Nat)
  deriving DecidableEq, Repr, Inhabited

namespace StackSlot

/-- The `n`-th slot of the area with this name. -/
def inArea? (area : String) (n : Nat) : Option StackSlot :=
  match area with
  | "spill" => some (spill n)
  | "outgoing" => some (outgoing n)
  | "incoming" => some (incoming n)
  | _ => none

end StackSlot

inductive Scale where
  | times1 | times2 | times4 | times8
  deriving DecidableEq, Repr, Inhabited

namespace Scale

def value : Scale → Nat
  | times1 => 1
  | times2 => 2
  | times4 => 4
  | times8 => 8

def log2 : Scale → Fin 4
  | times1 => 0
  | times2 => 1
  | times4 => 2
  | times8 => 3

def ofBytes? : Nat → Option Scale
  | 1 => some times1
  | 2 => some times2
  | 4 => some times4
  | 8 => some times8
  | _ => none

end Scale

/-- The base of an address: a register, or an offset in the method's data section. -/
inductive Base where
  | register (r : Register)
  | data (offset : Nat)
  deriving DecidableEq, Repr, Inhabited

/-- The memory cell at `base + index * scale + disp` that holds a value of `kind`. -/
structure Address where
  kind : Kind
  base : Base
  index : Option Register
  scale : Scale
  disp : Int32
  deriving DecidableEq, Repr

namespace Address

/-- The data-section entry at `offset`. -/
def ofData (kind : Kind) (offset : Nat) : Address := ⟨kind, .data offset, none, .times1, 0⟩

def withKind (a : Address) (kind : Kind) : Address := { a with kind }

end Address

/-- A constant as a bit pattern: floats by their encoding, so that the two zeros differ, and
objects by their identifier, 0 for the null reference. -/
structure Constant where
  kind : Kind
  bits : UInt64
  deriving DecidableEq, Repr, Inhabited

namespace Constant

/-- A constant of one of the kinds that are 32-bit values in registers. -/
def ofInt32 (kind : Kind) (v : Int32) : Constant := ⟨kind, v.toUInt32.toUInt64⟩

def int (v : Int32) : Constant := ofInt32 .int v

def long (v : Int64) : Constant := ⟨.long, v.toUInt64⟩

def float (bits : UInt32) : Constant := ⟨.float, bits.toUInt64⟩

def double (bits : UInt64) : Constant := ⟨.double, bits⟩

def object (o : ObjectId) : Constant := ⟨.object, o.id.toUInt64⟩

def null : Constant := ⟨.object, 0⟩

def low32 (c : Constant) : UInt32 := c.bits.toUInt32

def toInt32 (c : Constant) : Int32 := c.low32.toInt32

def toInt64 (c : Constant) : Int64 := c.bits.toInt64

/-- The displacement of a cell that has the constant as its index. The product and the sum wrap
around, as 64-bit numbers do where nothing checks them. -/
def folded (c : Constant) (scale : Scale) (disp : Int32) : Int64 :=
  disp.toInt64 + c.toInt64 * Int64.ofNat scale.value

def isNull (c : Constant) : Bool := c.kind.isObject && c.bits == 0

/-- All bits that the kind has are clear; the negative zero is no such pattern. -/
def isZeroBits (c : Constant) : Bool :=
  match c.kind with
  | .long | .double | .object => c.bits == 0
  | _ => c.low32 == 0

/-- The identifier in the low half, unless all bits are clear. -/
def objectBits? (c : Constant) : Option ObjectId :=
  if c.bits == 0 then none else some ⟨c.low32⟩

/-- The object of a constant of kind `object` that is not null. -/
def object? (c : Constant) : Option ObjectId := if c.kind.isObject then c.objectBits? else none

end Constant

/-- A value at its point of use. -/
inductive Operand where
  | reg (r : Register) (kind : Kind)
  | stack (slot : StackSlot) (kind : Kind)
  | const (c : Constant)
  | addr (a : Address)
  deriving DecidableEq, Repr

namespace Operand

def kind : Operand → Kind
  | reg _ k | stack _ k => k
  | const c => c.kind
  | addr a => a.kind

def isRegister : Operand → Bool
  | reg .. => true
  | _ => false

def isStack : Operand → Bool
  | stack .. => true
  | _ => false

def isConstant : Operand → Bool
  | const _ => true
  | _ => false

def isAddress : Operand → Bool
  | addr _ => true
  | _ => false

/-- A frame slot or an address. -/
def isMemory (o : Operand) : Bool := o.isStack || o.isAddress

def register? : Operand → Option Register
  | reg r _ => some r
  | _ => none

def constant? : Operand → Option Constant
  | const c => some c
  | _ => none

/-- The word for the shape in messages. -/
def shape : Operand → String
  | reg .. => "register"
  | stack .. => "stack"
  | const _ => "constant"
  | addr _ => "address"

end Operand

end MachineCode
