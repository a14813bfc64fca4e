import MachineCode.Named

/-! Value kinds. The kinds narrower than `int` are 32-bit values in registers and in arithmetic;
their width matters for memory only. -/
namespace MachineCode

inductive Kind where
  | boolean | byte | char | short | int | long | float | double | object
  deriving DecidableEq, Repr, Inhabited

namespace Kind

def all : List Kind := [boolean, byte, char, short, int, long, float, double, object]

/-- Position in `all`. -/
def ordinal (k : Kind) : Nat := all.idxOf k

/-- Width in memory, in bytes. -/
def size : Kind → Nat
  | boolean | byte => 1
  | char | short => 2
  | int | float => 4
  | long | double | object => 8

def bits (k : Kind) : Nat := k.size * 8

/-- The kind of the value once it is in a register. -/
def stackKind : Kind → Kind
  | boolean | byte | char | short => int
  | k => k

def isInt : Kind → Bool
  | boolean | byte | char | short | int => true
  | _ => false

def isDouble (k : Kind) : Bool := k == double

/-- Kinds that live in the floating-point register file. -/
def isFloating : Kind → Bool
  | float | double => true
  | _ => false

def isObject (k : Kind) : Bool := k == object

/-- Kinds that fill a 64-bit general register. -/
def isWord : Kind → Bool
  | long | object => true
  | _ => false

/-- Mask applied to shift counts. -/
def shiftMask (k : Kind) : Nat := if k.isWord then 63 else 31

def name : Kind → String
  | boolean => "boolean"
  | byte => "byte"
  | char => "char"
  | short => "short"
  | int => "int"
  | long => "long"
  | float => "float"
  | double => "double"
  | object => "object"

instance : Named Kind := ⟨all, name⟩

instance : ToString Kind := ⟨name⟩

theorem size_pos (k : Kind) : 0 < k.size := by cases k <;> decide

end Kind

end MachineCode
