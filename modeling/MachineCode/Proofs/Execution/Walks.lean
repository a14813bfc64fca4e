import MachineCode.Proofs.Execution.Regions

/-! Ways of the machine through code. What instructions compute with is the core of the machine; the
instruction pointer and the records of what has happened are apart from it. -/
namespace MachineCode.Machine

open X64

/-- What instructions compute with: all but the instruction pointer and the records. -/
def core (machine : Machine) : Machine :=
  { machine with rip := 0, pc := 0, accesses := #[], calls := #[], executed := #[] }

section Core

variable {machine : Machine} {g : Gpr} {x : Xmm}

@[simp] theorem reg_core : machine.core.reg g = machine.reg g := rfl

@[simp] theorem flags_core : machine.core.flags = machine.flags := rfl

@[simp] theorem core_fetched (machine : Machine) (i : Decoded) (n : Nat) :
    (machine.fetched i n).core = machine.core := rfl

theorem loaded_core {base : Word} {image : Array UInt8} :
    machine.core.Loaded base image ↔ machine.Loaded base image := Iff.rfl

/-- A register that receives what it holds stays as it is. -/
@[simp] theorem setReg_self (machine : Machine) (g : Gpr) :
    machine.setReg g (machine.reg g) = machine := by
  simp [setReg, reg]

@[simp] theorem setXmm_self (machine : Machine) (x : Xmm) :
    machine.setXmm x (machine.xmmReg x) = machine := by
  simp [setXmm, xmmReg]

@[simp] theorem xmmReg_setXmm_self (machine : Machine) (x : Xmm) (v : BitVec 128) :
    (machine.setXmm x v).xmmReg x = v := by
  simp [setXmm, xmmReg]

end Core

/-! ### Ways -/

/-- Steps lead from one state to the other, and all of them are taken from inside. -/
inductive Walks (inside : Word → Prop) : Machine → Machine → Prop
  | refl (machine : Machine) : Walks inside machine machine
  | step {machine machine' machine'' : Machine} (h : inside machine.rip)
    (hstep : Machine.step machine = .ok () machine') (hrest : Walks inside machine' machine'') :
    Walks inside machine machine''

namespace Walks

variable {inside inside' : Word → Prop} {machine machine' machine'' : Machine} {stop : Word}

theorem trans (h : machine.Walks inside machine') (h' : machine'.Walks inside machine'') :
    machine.Walks inside machine'' := by
  induction h with
  | refl => exact h'
  | step hinside hstep hrest ih => exact .step hinside hstep (ih h')

theorem mono (h : machine.Walks inside machine') (hsub : ∀ a, inside a → inside' a) :
    machine.Walks inside' machine' := by
  induction h with
  | refl => exact .refl _
  | step hinside hstep hrest ih => exact .step (hsub _ hinside) hstep ih

/-- A way that does not pass `stop` gets there for the first time at its end. -/
theorem runsTo (h : machine.Walks inside machine') (hstop : ∀ a, inside a → a ≠ stop)
    (hend : machine'.rip = stop) : machine.RunsTo stop machine' := by
  induction h with
  | refl => exact .done hend
  | step hinside hstep hrest ih => exact .next (hstop _ hinside) hstep (ih hend)

end Walks

/-- The same with one step at least. -/
def Advances (inside : Word → Prop) (machine machine' : Machine) : Prop :=
  ∃ m₁, inside machine.rip ∧ Machine.step machine = .ok () m₁ ∧ m₁.Walks inside machine'

namespace Advances

variable {inside inside' : Word → Prop} {machine machine' machine'' : Machine}

theorem mono (h : machine.Advances inside machine') (hsub : ∀ a, inside a → inside' a) :
    machine.Advances inside' machine' := by
  obtain ⟨m₁, hinside, hstep, hrest⟩ := h
  exact ⟨m₁, hsub _ hinside, hstep, hrest.mono hsub⟩

/-- Some steps, and then one at least. -/
theorem of_walks (h : machine.Walks inside machine') (h' : machine'.Advances inside machine'') :
    machine.Advances inside machine'' := by
  cases h with
  | refl => exact h'
  | step hinside hstep hrest =>
    obtain ⟨m₁, hinside', hstep', hrest'⟩ := h'
    exact ⟨_, hinside, hstep, hrest.trans (.step hinside' hstep' hrest')⟩

end Advances

theorem RunsTo.rip {stop : Word} {machine machine' : Machine}
    (h : machine.RunsTo stop machine') : machine'.rip = stop := by
  induction h with
  | done h => exact h
  | next _ _ _ ih => exact ih

/-- There is only one state in which control gets to `stop`. -/
theorem RunsTo.unique {stop : Word} {machine a b : Machine} (ha : machine.RunsTo stop a)
    (hb : machine.RunsTo stop b) : a = b := by
  induction ha with
  | done h =>
    cases hb with
    | done => rfl
    | next hne => exact absurd h hne
  | next hne hstep hrest ih =>
    cases hb with
    | done h => exact absurd h hne
    | next _ hstep' hrest' =>
      cases hstep.symm.trans hstep'
      exact ih hrest'

end MachineCode.Machine
