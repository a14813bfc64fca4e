import MachineCode.Bytes
import MachineCode.X64.Ops

/-! The condition flags and how integer arithmetic sets them, at any width. -/
namespace MachineCode

/-- Carry, zero, sign, overflow and parity. -/
structure Flags where
  cf : Bool
  zf : Bool
  sf : Bool
  of : Bool
  pf : Bool
  deriving DecidableEq, Repr, Inhabited

namespace Flags

def clear : Flags := ⟨false, false, false, false, false⟩

/-- An even number of bits is set. -/
def evenParity (b : BitVec 8) : Bool :=
  !(List.range 8).foldl (fun odd i => odd ^^ b.getLsbD i) false

/-- Zero, sign and parity of a result; the low byte alone counts for the parity. -/
def ofResult {w : Nat} (r : BitVec w) (cf of : Bool) : Flags :=
  ⟨cf, r == 0, r.msb, of, evenParity (r.setWidth 8)⟩

/-- `a + b + carry`. -/
def add {w : Nat} (a b : BitVec w) (carry : Bool) : BitVec w × Flags :=
  let r := a + b + BitVec.ofNat w carry.toNat
  (r, ofResult r (pow2 w ≤ a.toNat + b.toNat + carry.toNat) ((a ^^^ r) &&& (b ^^^ r)).msb)

/-- `a - b - borrow`. -/
def sub {w : Nat} (a b : BitVec w) (borrow : Bool) : BitVec w × Flags :=
  let r := a - b - BitVec.ofNat w borrow.toNat
  (r, ofResult r (a.toNat < b.toNat + borrow.toNat) ((a ^^^ b) &&& (a ^^^ r)).msb)

/-- Bitwise results clear carry and overflow. -/
def logic {w : Nat} (r : BitVec w) : Flags := ofResult r false false

/-- The operation with its flags. `cf` is the carry that comes in. -/
def alu {w : Nat} (op : X64.AluOp) (a b : BitVec w) (cf : Bool) : BitVec w × Flags :=
  match op with
  | .add => add a b false
  | .adc => add a b cf
  | .sub | .cmp => sub a b false
  | .sbb => sub a b cf
  | .and => (a &&& b, logic (a &&& b))
  | .or => (a ||| b, logic (a ||| b))
  | .xor => (a ^^^ b, logic (a ^^^ b))

/-- One letter for each flag that is set. -/
def text (f : Flags) : String :=
  let letter (set : Bool) (c : Char) : Char := if set then c else '-'
  String.ofList [letter f.cf 'c', letter f.zf 'z', letter f.sf 's', letter f.of 'o',
    letter f.pf 'p']

def cond (f : Flags) : X64.Cond → Bool
  | .o => f.of
  | .no => !f.of
  | .b => f.cf
  | .ae => !f.cf
  | .e => f.zf
  | .ne => !f.zf
  | .be => f.cf || f.zf
  | .a => !f.cf && !f.zf
  | .s => f.sf
  | .ns => !f.sf
  | .p => f.pf
  | .np => !f.pf
  | .l => f.sf != f.of
  | .ge => f.sf == f.of
  | .le => f.zf || f.sf != f.of
  | .g => !f.zf && f.sf == f.of

theorem cond_invert (f : Flags) (c : X64.Cond) : f.cond c.invert = !f.cond c := by
  obtain ⟨cf, zf, sf, of, pf⟩ := f
  cases c <;> cases cf <;> cases zf <;> cases sf <;> cases of <;> cases pf <;> rfl

end Flags

end MachineCode
