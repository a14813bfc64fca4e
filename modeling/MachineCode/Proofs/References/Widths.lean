import MachineCode.Lowering.Templates
import MachineCode.Proofs.Decoding.Forms

/-! Widths of accesses to the data section. An address is checked at the width of its kind, and it
is the operation that decides how many bytes are read. Both agree except where an operation reads a
memory operand at a width of its own. -/
namespace MachineCode

open X64 Lower

theorem Kind.size_le (kind : Kind) : kind.size ≤ 8 := by cases kind <;> decide

theorem Kind.scalarSize_isDouble {kind : Kind} (h : kind.isFloating = true) :
    Decoded.scalarSize kind.isDouble = kind.size := by
  cases kind <;> first | rfl | cases h

/-- An integer that fills a register is read by as many bytes. -/
theorem Kind.bytes_isWord {kind : Kind} (h : ¬ kind.size < 4) :
    (Width.ofWide kind.isWord).bytes ≤ kind.size := by
  revert h
  cases kind <;> decide

/-- If the operand lies in the data section, its kind has at least `width` bytes. -/
def Operand.Supplies (o : Operand) (width : Nat) : Prop := inData o = true → width ≤ o.kind.size

/-- The same for integer arithmetic, which moves operands of fewer than four bytes to a register by
their own width. -/
def Operand.SuppliesInteger (o : Operand) (wide : Bool) : Prop :=
  o.kind.size < 4 ∨ o.Supplies (Width.ofWide wide).bytes

/-- The operand that is combined with the result register, after the other one has been moved
there. -/
def combined (left right result : Operand) : Operand :=
  if right.register? = result.register? ∧ left.register? ≠ result.register? then left else right

/-- The bytes that a conversion reads at an operand in memory, if it is a width of its own. -/
def ConvertOp.readSize : ConvertOp → Nat
  | i2l | l2i => 4
  | i2c | i2s => 2
  | i2b => 1
  | _ => 0

/-- Arithmetic reads at the width of its result. A divisor is in a register. -/
def ArithOp.Agrees (op : ArithOp) (left right result : Operand) : Prop :=
  if result.kind.isFloating then
    (combined left right result).Supplies (Decoded.scalarSize result.kind.isDouble)
  else op.isDivision = true ∨ (combined left right result).SuppliesInteger result.kind.isWord

def LogicOp.Agrees (left right result : Operand) : Prop :=
  (combined left right result).SuppliesInteger result.kind.isWord

/-- A compare reads its right operand at the width of the left one. -/
def CompareAgrees (left right : Operand) : Prop :=
  if left.kind.isFloating then right.Supplies (Decoded.scalarSize left.kind.isDouble)
  else right.SuppliesInteger left.kind.isWord

def TemplateBinary.Agrees (a b result : Operand) : TemplateBinary → Prop
  | add | sub | mul => ArithOp.add.Agrees a b result
  | div | rem => ArithOp.div.Agrees a b result
  | and | or | xor => LogicOp.Agrees a b result
  | shl | shr | ushr => True

def MicroOp.Agrees (operands : List Operand) : MicroOp → Prop
  | .binary op x y result => ∀ a ∈ operands[x]?, ∀ b ∈ operands[y]?, ∀ r ∈ operands[result]?,
    op.Agrees a b r
  | .jcc _ x y _ => ∀ a ∈ operands[x]?, ∀ b ∈ operands[y]?, CompareAgrees a b
  | _ => True

/-- Operands in the data section are as wide as the operation reads them. -/
def Operation.Agrees : Operation → Prop
  | .arith op left right result _ => op.Agrees left right result
  | .logic _ left right result => LogicOp.Agrees left right result
  | .sqrt value result => value.Supplies (Decoded.scalarSize result.kind.isDouble)
  | .convert op src _ => src.Supplies op.readSize
  | .compare left right | .compareToInt _ left right _ => CompareAgrees left right
  | .template t operands _ _ => ∀ op ∈ t.fastPath ++ t.slowPath.getD [], op.Agrees operands
  | _ => True

/-- The slow path of a template agrees with its operands. -/
def SlowPath.Agrees : SlowPath → Prop
  | .template x => ∀ op ∈ x.template.slowPath.getD [], op.Agrees x.operands
  | .convertFixup .. => True

end MachineCode
