import MachineCode.Lowering.Moves
import MachineCode.Proofs.Execution.Computing

/-! Instructions that fault. Registers, flags and memory are then as they have been before the
instruction. -/
namespace MachineCode.Machine

open X64

variable {α β : Type} {s : Machine} {next a : Word} {n : Nat} {e : Word → Fault}

/-- From the core `s` the computation ends with a fault of its instruction, and the core stays. -/
def Refuses (x : MachineStep α) (s : Machine) (e : Word → Fault) : Prop :=
  ∀ machine, machine.core = s →
    ∃ machine', x machine = .error (e machine.pc) machine' ∧ machine'.core = s

namespace Refuses

variable {x : MachineStep α} {f : α → MachineStep β}

/-- What would come after a fault does not count. -/
theorem bind (hx : Refuses x s e) : Refuses (x >>= f) s e := by
  intro machine hcore
  obtain ⟨machine', hrun, hcore'⟩ := hx machine hcore
  exact ⟨machine', Step.bind_of_error hrun, hcore'⟩

/-- Operands have been read before the fault. -/
theorem after {v : α} (hx : Yields x s fun a c => a = v ∧ c = s) (hf : Refuses (f v) s e) :
    Refuses (x >>= f) s e := by
  intro machine hcore
  obtain ⟨_, m₁, hrun, ⟨rfl, hcore₁⟩, -, hpc⟩ := hx machine hcore
  obtain ⟨machine', hrun', hcore'⟩ := hf m₁ hcore₁
  exact ⟨machine', by rw [Step.bind_of_ok hrun, hrun', hpc], hcore'⟩

end Refuses

/-! ### Accesses -/

/-- The fault of an access to `n` bytes, if there is one. -/
def segv? (s : Machine) (a : Word) (n : Nat) : Option (Word → Fault) :=
  if s.faultsAt a n then some (.segv · a) else none

theorem segv?_eq_some : s.segv? a n = some e ↔ s.faultsAt a n = true ∧ e = (.segv · a) := by
  rw [segv?, Option.ite_none_right_eq_some, Option.some.injEq, eq_comm (a := e)]

theorem segv?_eq_none : s.segv? a n = none ↔ s.faultsAt a n = false := by
  simp [segv?]

theorem refuses_access (h : s.faultsAt a n = true) (write : Bool) :
    Refuses (access a n write) s (.segv · a) := by
  rintro machine rfl
  have hcheck : machine.faultsAt a n = true := h
  refine ⟨machine, ?_, rfl⟩
  unfold access
  rw [Step.get_bind, hcheck]
  rfl

theorem refuses_loadBytes (h : s.faultsAt a n = true) : Refuses (loadBytes a n) s (.segv · a) :=
  (refuses_access h false).bind

theorem refuses_storeBytes (h : s.faultsAt a n = true) (v : Word) :
    Refuses (storeBytes a n v) s (.segv · a) :=
  (refuses_access h true).bind

section Operands

variable {m : Mem} {w : Width}

theorem refuses_readMem (ha : s.effectiveAddress m next = a) (h : s.faultsAt a w.bytes = true) :
    Refuses (readRm (.mem m) w next) s (.segv · a) := by
  subst ha
  exact .after (yields_address m) (refuses_loadBytes h)

theorem refuses_writeMem (ha : s.effectiveAddress m next = a) (h : s.faultsAt a w.bytes = true)
    (v : Word) :
    Refuses (writeRm (.mem m) w v next) s (.segv · a) :=
  .after (yields_address m) (ha ▸ refuses_storeBytes h v)

theorem refuses_readLane {double : Bool} (ha : s.effectiveAddress m next = a)
    (h : s.faultsAt a (laneWidth double).bytes = true) :
    Refuses (readLane (.mem m) double next) s (.segv · a) := by
  subst ha
  exact .after (yields_address m) (refuses_loadBytes h)

end Operands

/-! ### Instructions -/

section Instructions

variable {m : Mem} {w : Width}

theorem refuses_test {b : Source} (ha : s.effectiveAddress m next = a)
    (h : s.faultsAt a w.bytes = true) :
    Refuses (execute (.test w (.mem m) b) next) s (.segv · a) :=
  (refuses_readMem ha h).bind

/-- A test that does not fault sets the flags. -/
theorem executes_test {v v' : Word} {x : Rm} {b : Source} (hx : s.ReadsRm next w v x)
    (hb : s.ReadsSource next w v' b) :
    Executes (.test w x b) next s fun c => ∃ f, c = { s with flags := f } :=
  (yields_readRm hx).after
    ((yields_readSource hb).after ((yields_setFlags _).mono fun _ _ h => ⟨_, h⟩))

theorem refuses_store {v : Word} {src : Source} (hsrc : s.ReadsSource next w v src)
    (ha : s.effectiveAddress m next = a) (h : s.faultsAt a w.bytes = true) :
    Refuses (execute (.mov w (.mem m) src) next) s (.segv · a) :=
  .after (yields_readSource hsrc) (refuses_writeMem ha h v)

theorem refuses_movsLoad {double : Bool} {dst : Xmm} (ha : s.effectiveAddress m next = a)
    (h : s.faultsAt a (laneWidth double).bytes = true) :
    Refuses (execute (.movs double (.reg dst) (.mem m)) next) s (.segv · a) :=
  (refuses_readLane ha h).bind

theorem refuses_movsStore {double : Bool} {src : Xmm} (ha : s.effectiveAddress m next = a)
    (h : s.faultsAt a (laneWidth double).bytes = true) :
    Refuses (execute (.movs double (.mem m) (.reg src)) next) s (.segv · a) :=
  .after (yields_readLane (x := .reg src) rfl)
    (.after (yields_address m) (ha ▸ refuses_storeBytes h _))

/-- A load faults at the width of its kind. -/
theorem refuses_loadInstr (kind : Kind) {dst : Gpr} (ha : s.effectiveAddress m next = a)
    (h : s.faultsAt a kind.size = true) :
    Refuses (execute (Lower.loadInstr kind dst m).decoded next) s (.segv · a) := by
  have hread : ∀ w : Width, w.bytes = kind.size → Refuses (readRm (.mem m) w next) s (.segv · a) :=
    fun w hw => refuses_readMem ha (hw ▸ h)
  cases kind with
  | boolean | byte => exact (hread .byte rfl).bind
  | char | short => exact (hread .word rfl).bind
  | int | float => exact (hread .dword rfl).bind
  | long | double | object => exact (hread .qword rfl).bind

/-- A store, likewise. -/
theorem refuses_storeInstr (kind : Kind) (src : Gpr) (ha : s.effectiveAddress m next = a)
    (h : s.faultsAt a kind.size = true) :
    Refuses (execute (Lower.storeInstr kind src m).decoded next) s (.segv · a) := by
  have hwrite : ∀ w : Width, w.bytes = kind.size →
      Refuses (execute (.mov w (.mem m) (.rm (.reg src))) next) s (.segv · a) :=
    fun w hw => refuses_store (readsRm_reg src w).source ha (hw ▸ h)
  cases kind with
  | boolean | byte => exact hwrite .byte rfl
  | char | short => exact hwrite .word rfl
  | int | float => exact hwrite .dword rfl
  | long | double | object => exact hwrite .qword rfl

/-- A division without a quotient. -/
theorem refuses_divide {signed : Bool} {x : Rm} {d : Word} (hx : s.ReadsRm next w d x)
    (h : ∀ pc, quotient signed w (low (s.reg .rdx) w) (low (s.reg .rax) w) d pc = .error (e pc)) :
    Refuses (divide signed w x next) s e := by
  refine .after (yields_readRm hx) ?_
  rintro machine rfl
  have hquotient :
      quotient signed w (low (machine.reg .rdx) w) (low (machine.reg .rax) w) d machine.pc =
      .error (e machine.pc) := h machine.pc
  refine ⟨machine, ?_, rfl⟩
  rw [Step.get_bind, hquotient]
  rfl

end Instructions

/-! ### Runs that stop -/

/-- From inside, the machine gets to an instruction that faults, and there nothing changes any
more. -/
def Stops (inside : Word → Prop) (e : Fault) (machine : Machine) : Prop :=
  ∃ m₁ m₂, machine.Walks inside m₁ ∧ inside m₁.rip ∧ step m₁ = .error e m₂ ∧ m₂.core = m₁.core

theorem Stops.mono {inside inside' : Word → Prop} {e : Fault} {machine : Machine}
    (h : machine.Stops inside e) (hsub : ∀ a, inside a → inside' a) : machine.Stops inside' e := by
  obtain ⟨m₁, m₂, hwalks, hinside, hstep, hcore⟩ := h
  exact ⟨m₁, m₂, hwalks.mono hsub, hsub _ hinside, hstep, hcore⟩

theorem Stops.walks {inside : Word → Prop} {e : Fault} {machine machine' : Machine}
    (hwalks : machine.Walks inside machine')
    (h : machine'.Stops inside e) : machine.Stops inside e := by
  obtain ⟨m₁, m₂, hrest, hinside, hstep, hcore⟩ := h
  exact ⟨m₁, m₂, hwalks.trans hrest, hinside, hstep, hcore⟩

end MachineCode.Machine
