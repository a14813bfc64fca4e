/-! Finite families whose members are known by name. -/
namespace MachineCode

class Named (α : Type) where
  all : List α
  name : α → String

namespace Named

variable {α : Type} [Named α]

/-- The first member with this name. -/
def ofName? (s : String) : Option α := (all : List α).find? fun a => name a == s

end Named

end MachineCode
