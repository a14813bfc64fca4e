import MachineCode.Named

/-! Conditions on the outcome of a compare: equality, the signed orders and the unsigned orders.
`negate` and `swap` agree with the negation and with the exchange of the operands. -/
namespace MachineCode

/-- `lt` to `gt` are signed orders; `bt`, `be`, `at`, `ae` are the unsigned ones. A float compare
reports through the unsigned forms. -/
inductive Condition where
  | eq | ne | lt | le | ge | gt | bt | be | at | ae
  deriving DecidableEq, Repr, Inhabited

namespace Condition

def all : List Condition := [eq, ne, lt, le, ge, gt, bt, be, .at, ae]

def negate : Condition → Condition
  | eq => ne
  | ne => eq
  | lt => ge
  | le => gt
  | ge => lt
  | gt => le
  | bt => ae
  | be => .at
  | .at => be
  | ae => bt

/-- The condition with the operands exchanged. -/
def swap : Condition → Condition
  | eq => eq
  | ne => ne
  | lt => gt
  | le => ge
  | ge => le
  | gt => lt
  | bt => .at
  | be => ae
  | .at => bt
  | ae => be

def isUnsigned : Condition → Bool
  | bt | be | .at | ae => true
  | _ => false

/-- The unsigned counterpart, for flags that come from a float compare. -/
def toUnsigned : Condition → Condition
  | lt => bt
  | le => be
  | ge => ae
  | gt => .at
  | c => c

/-- Truth on two 64-bit words. -/
def eval (c : Condition) (a b : BitVec 64) : Bool :=
  match c with
  | eq => a == b
  | ne => a != b
  | lt => a.slt b
  | le => a.sle b
  | ge => b.sle a
  | gt => b.slt a
  | bt => a.ult b
  | be => a.ule b
  | .at => b.ult a
  | ae => b.ule a

def name : Condition → String
  | eq => "eq"
  | ne => "ne"
  | lt => "lt"
  | le => "le"
  | ge => "ge"
  | gt => "gt"
  | bt => "bt"
  | be => "be"
  | .at => "at"
  | ae => "ae"

instance : Named Condition := ⟨all, name⟩

instance : ToString Condition := ⟨name⟩

theorem eval_negate (c : Condition) (a b : BitVec 64) : c.negate.eval a b = !c.eval a b := by
  cases c <;>
    simp [negate, eval, bne, BitVec.slt_eq_decide, BitVec.sle_eq_decide, BitVec.ult_eq_decide,
      BitVec.ule_eq_decide, ← decide_not]

end Condition

end MachineCode
