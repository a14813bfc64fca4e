import MachineCode.Draft
import MachineCode.Proofs.Effects.Footprint

/-! Effects: bounds on what the code of an operation overwrites and on the labels that it names. -/
namespace MachineCode

open X64

/-- What code may do. The scratch registers may always be overwritten. -/
structure Effect where
  /-- Labels that may be bound. -/
  binds : Label → Prop
  /-- Labels that branches and jump tables may refer to. -/
  refers : Label → Prop
  /-- Labels that exception edges may lead to. -/
  handlers : Label → Prop
  gprs : Gpr → Prop
  xmms : Xmm → Prop
  /-- Places in memory that may be overwritten, with the number of bytes. -/
  stores : Location → Nat → Prop
  /-- Control may leave by calls, returns and jumps through registers, and the stack may move. -/
  leaves : Prop
  /-- Bytes of a template's own. -/
  raws : Prop
  /-- Marks of a template. -/
  marks : Prop
  /-- Code that may be put off. -/
  paths : SlowPath → Prop
  /-- Operations and code that was put off may be counted. -/
  accounts : Prop := True
  scratch : gprs scratch
  floatScratch : xmms floatScratch

namespace Effect

variable {e : Effect}

/-- The registers that an allocator's register stands for may be overwritten. -/
structure Overwrites (e : Effect) (r : Register) : Prop where
  gpr : ∀ g, Gpr.ofRegister? r = some g → e.gprs g
  xmm : ∀ x, Xmm.ofRegister? r = some x → e.xmms x

/-- The register of an operand, if it is one, may be overwritten. -/
def Sets (e : Effect) (o : Operand) : Prop := ∀ r, o.register? = some r → e.Overwrites r

/-- Labels numbered from `n` on may be bound and referred to. -/
structure Fresh (e : Effect) (n : Nat) : Prop where
  binds : ∀ l : Label, n ≤ l.index → e.binds l
  refers : ∀ l : Label, n ≤ l.index → e.refers l

/-- All registers may be overwritten and all of memory but the data section, and control may
leave. -/
structure Open (e : Effect) : Prop where
  gprs : ∀ g, e.gprs g
  xmms : ∀ x, e.xmms x
  stores : ∀ m n, e.stores (.plain m) n
  leaves : e.leaves

theorem overwrites_scratch : e.Overwrites X64.scratch.register where
  gpr g hg := by
    rw [Gpr.ofRegister?_register] at hg
    cases hg
    exact e.scratch
  xmm x hx := by cases hx

theorem overwrites_floatScratch : e.Overwrites X64.floatScratch.register where
  gpr g hg := by cases hg
  xmm x hx := by
    rw [Xmm.ofRegister?_register] at hx
    cases hx
    exact e.floatScratch

theorem overwrites_gpr {g : Gpr} (h : e.gprs g) : e.Overwrites g.register where
  gpr g' hg := by
    rw [Gpr.ofRegister?_register] at hg
    cases hg
    exact h
  xmm x hx := by cases hx

/-- The effect covers what an instruction overwrites. A store goes to the place that `place` gives
for its memory operand. -/
structure Admits (e : Effect) (f : Footprint) (place : Mem → Location) : Prop where
  gprs : ∀ g ∈ f.gprs, e.gprs g
  xmms : ∀ x ∈ f.xmms, e.xmms x
  stores : ∀ m n, f.store? = some (m, n) → e.stores (place m) n
  leaves : f.leaves = true → e.leaves

variable {place : Mem → Location}

theorem Open.overwrites (h : e.Open) (r : Register) : e.Overwrites r :=
  ⟨fun g _ => h.gprs g, fun x _ => h.xmms x⟩

theorem Open.sets (h : e.Open) (o : Operand) : e.Sets o := fun r _ => h.overwrites r

theorem Open.admits (h : e.Open) (f : Footprint) : e.Admits f .plain where
  gprs g _ := h.gprs g
  xmms x _ := h.xmms x
  stores m n _ := h.stores m n
  leaves _ := h.leaves

theorem admits_nothing : e.Admits .nothing place := by
  constructor <;> simp [Footprint.nothing]

theorem admits_gpr {g : Gpr} (h : e.gprs g) : e.Admits (.gpr g) place := by
  constructor <;> simp [Footprint.gpr, h]

theorem admits_xmm {x : Xmm} (h : e.xmms x) : e.Admits (.xmm x) place := by
  constructor <;> simp [Footprint.xmm, h]

theorem admits_memory {m : Mem} {n : Nat} (h : e.stores (place m) n) :
    e.Admits (.memory m n) place := by
  constructor <;> simp [Footprint.memory, h]

theorem admits_transfer (h : e.leaves) : e.Admits .transfer place := by
  constructor <;> simp [Footprint.transfer, h]

end Effect

/-- The memory operand can be encoded, and data is addressed relative to the instruction. -/
structure Location.Valid (l : Location) : Prop where
  encodable : l.mem.Encodable
  data : l.data.isSome → l.mem = .rip 0

end MachineCode
