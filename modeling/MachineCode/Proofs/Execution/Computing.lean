import MachineCode.Proofs.Execution.Walks

/-! What instructions compute. A computation of the machine starts from a core and leads to another
one; operands are read first, and then a result is written. -/
namespace MachineCode.Machine

open X64

variable {α β : Type} {s : Machine} {next : Word}

/-- From the core `s` the computation succeeds, with a result and a core as `R` says. -/
def Yields (x : MachineStep α) (s : Machine) (R : α → Machine → Prop) : Prop :=
  ∀ machine, machine.core = s → ∃ a machine', x machine = .ok a machine' ∧ R a machine'.core ∧
    machine'.rip = machine.rip ∧ machine'.pc = machine.pc

/-- From the core `s` the instruction leads to a core as `R` says. -/
abbrev Executes (i : Decoded) (next : Word) (s : Machine) (R : Machine → Prop) : Prop :=
  Yields (execute i next) s fun _ => R

namespace Yields

variable {x : MachineStep α} {f : α → MachineStep β} {R R' : α → Machine → Prop}
  {Q : β → Machine → Prop}

theorem mono (h : Yields x s R) (hR : ∀ a c, R a c → R' a c) : Yields x s R' := by
  intro machine hcore
  obtain ⟨a, machine', hrun, hpost, hrip, hpc⟩ := h machine hcore
  exact ⟨a, machine', hrun, hR a _ hpost, hrip, hpc⟩

theorem bind (hx : Yields x s R) (hf : ∀ a c, R a c → Yields (f a) c Q) : Yields (x >>= f) s Q := by
  intro machine hcore
  obtain ⟨a, m₁, hrun, hpost, hrip, hpc⟩ := hx machine hcore
  obtain ⟨b, m₂, hrun', hpost', hrip', hpc'⟩ := hf a _ hpost m₁ rfl
  exact ⟨b, m₂, Step.bind_eq_ok.mpr ⟨a, m₁, hrun, hrun'⟩, hpost', hrip'.trans hrip, hpc'.trans hpc⟩

/-- A computation that only reads is followed by what is done with the value. -/
theorem after {v : α} (hx : Yields x s fun a c => a = v ∧ c = s) (hf : Yields (f v) s Q) :
    Yields (x >>= f) s Q :=
  hx.bind fun a c h => by
    obtain ⟨rfl, rfl⟩ := h
    exact hf

end Yields

/-! ### Registers and memory -/

theorem yields_pure (a : α) : Yields (pure a) s fun b c => b = a ∧ c = s :=
  fun machine hcore => ⟨a, machine, rfl, ⟨rfl, hcore⟩, rfl, rfl⟩

theorem yields_get : Yields get s fun machine c => machine.core = s ∧ c = s :=
  fun machine hcore => ⟨machine, machine, rfl, ⟨hcore, hcore⟩, rfl, rfl⟩

/-- What is computed from the state depends on the core. -/
theorem yields_gets {g : Machine → α} (hg : ∀ machine, g machine = g machine.core) :
    Yields (do return g (← get)) s fun a c => a = g s ∧ c = s := by
  intro machine hcore
  exact ⟨g machine, machine, rfl, ⟨(hg machine).trans (by rw [hcore]), hcore⟩, rfl, rfl⟩

theorem yields_modify {f : Machine → Machine} {c : Machine}
    (hf : ∀ machine, machine.core = s → (f machine).core = c ∧ (f machine).rip = machine.rip ∧
      (f machine).pc = machine.pc) : Yields (modify f) s fun _ c' => c' = c :=
  fun machine hcore => ⟨⟨⟩, f machine, rfl, hf machine hcore⟩

theorem yields_setReg {f : Machine → Word} (g : Gpr) (hf : ∀ machine, f machine = f machine.core) :
    Yields (modify fun m => m.setReg g (f m)) s fun _ c => c = s.setReg g (f s) := by
  refine yields_modify fun machine hcore => ⟨?_, rfl, rfl⟩
  subst hcore
  rw [hf machine]
  rfl

theorem yields_setXmm {f : Machine → BitVec 128} (x : Xmm)
    (hf : ∀ machine, f machine = f machine.core) :
    Yields (modify fun m => m.setXmm x (f m)) s fun _ c => c = s.setXmm x (f s) := by
  refine yields_modify fun machine hcore => ⟨?_, rfl, rfl⟩
  subst hcore
  rw [hf machine]
  rfl

theorem yields_writeReg (g : Gpr) (w : Width) (v : Word) :
    Yields (writeReg g w v) s fun _ c => c = s.setReg g (merge (s.reg g) v w) :=
  yields_setReg g fun _ => rfl

theorem yields_modifyFlags (f : Flags → Flags) :
    Yields (modify fun m => { m with flags := f m.flags }) s fun _ c =>
      c = { s with flags := f s.flags } := by
  refine yields_modify fun machine hcore => ⟨?_, rfl, rfl⟩
  subst hcore
  rfl

theorem yields_setFlags (f : Flags) : Yields (setFlags f) s fun _ c => c = { s with flags := f } :=
  yields_modifyFlags fun _ => f

theorem yields_readReg (g : Gpr) (w : Width) :
    Yields (readReg g w) s fun v c => v = low (s.reg g) w ∧ c = s :=
  yields_gets (g := fun m => low (m.reg g) w) fun _ => rfl

theorem yields_address (m : Mem) :
    Yields (address m next) s fun a c => a = s.effectiveAddress m next ∧ c = s :=
  yields_gets (g := fun machine => machine.effectiveAddress m next) fun _ => rfl

theorem yields_access {a : Word} {n : Nat} (h : s.faultsAt a n = false) (write : Bool) :
    Yields (access a n write) s fun _ c => c = s := by
  rintro machine rfl
  have hcheck : machine.faultsAt a n = false := h
  let recorded : Machine :=
    { machine with accesses := machine.accesses.push ⟨machine.pc, a, n, write⟩ }
  refine ⟨⟨⟩, recorded, ?_, rfl, rfl, rfl⟩
  unfold access
  rw [Step.get_bind, hcheck]
  rfl

/-- The number that stands in `n` bytes, as a word. -/
def loaded (s : Machine) (a : Word) (n : Nat) : Word := BitVec.ofNat 64 (s.memory.readWord a n)

theorem yields_loadBytes {a : Word} {n : Nat} (h : s.faultsAt a n = false) :
    Yields (loadBytes a n) s fun v c => v = s.loaded a n ∧ c = s :=
  (yields_access h false).bind fun _ _ hc => hc ▸
    yields_gets (g := fun m => m.loaded a n) fun _ => rfl

/-- The machine after a store. -/
def stored (s : Machine) (a : Word) (n : Nat) (v : Word) : Machine :=
  { s with memory := s.memory.writeWord a n v }

theorem yields_storeBytes {a : Word} {n : Nat} (h : s.faultsAt a n = false) (v : Word) :
    Yields (storeBytes a n v) s fun _ c => c = s.stored a n v := by
  refine (yields_access h true).bind fun _ _ hc => hc ▸
    yields_modify fun machine hcore => ⟨?_, rfl, rfl⟩
  subst hcore
  rfl

/-! ### Operands -/

/-- The operand can be read at this width, and gives `v`. -/
def ReadsRm (s : Machine) (next : Word) (w : Width) (v : Word) : Rm → Prop
  | .reg g => v = low (s.reg g) w
  | .mem m => s.faultsAt (s.effectiveAddress m next) w.bytes = false ∧
    v = s.loaded (s.effectiveAddress m next) w.bytes

theorem yields_readRm {x : Rm} {w : Width} {v : Word} (h : s.ReadsRm next w v x) :
    Yields (readRm x w next) s fun a c => a = v ∧ c = s := by
  cases x with
  | reg g =>
    cases h
    exact yields_readReg g w
  | mem m =>
    obtain ⟨hfaults, rfl⟩ := h
    exact (yields_address m).after (yields_loadBytes hfaults)

def ReadsSource (s : Machine) (next : Word) (w : Width) (v : Word) : Source → Prop
  | .rm x => s.ReadsRm next w v x
  | .imm n => v = BitVec.ofInt 64 n

theorem readsRm_reg (g : Gpr) (w : Width) : s.ReadsRm next w (low (s.reg g) w) (.reg g) := rfl

theorem readsRm_mem {m : Mem} {w : Width} {a : Word} (ha : s.effectiveAddress m next = a)
    (h : s.faultsAt a w.bytes = false) : s.ReadsRm next w (s.loaded a w.bytes) (.mem m) := by
  subst ha
  exact ⟨h, rfl⟩

theorem ReadsRm.source {x : Rm} {w : Width} {v : Word} (h : s.ReadsRm next w v x) :
    s.ReadsSource next w v (.rm x) := h

theorem readsSource_imm (n : Int) (w : Width) : s.ReadsSource next w (BitVec.ofInt 64 n) (.imm n) :=
  rfl

theorem yields_readSource {x : Source} {w : Width} {v : Word} (h : s.ReadsSource next w v x) :
    Yields (readSource x w next) s fun a c => a = v ∧ c = s := by
  cases x with
  | rm x => exact yields_readRm h
  | imm n =>
    cases h
    exact yields_pure _

/-- A write to memory at this width. -/
theorem yields_writeMem {m : Mem} {w : Width} {a : Word} (ha : s.effectiveAddress m next = a)
    (h : s.faultsAt a w.bytes = false) (v : Word) :
    Yields (writeRm (.mem m) w v next) s fun _ c => c = s.stored a w.bytes v :=
  (yields_address m).after (ha ▸ yields_storeBytes h v)

/-- The operand can be read as a scalar float, and gives `v`. -/
def ReadsLane (s : Machine) (next : Word) (double : Bool) (v : Word) : Xm → Prop
  | .reg x => v = low ((s.xmmReg x).setWidth 64) (laneWidth double)
  | .mem m => s.faultsAt (s.effectiveAddress m next) (laneWidth double).bytes = false ∧
    v = s.loaded (s.effectiveAddress m next) (laneWidth double).bytes

theorem readsLane_mem {m : Mem} {double : Bool} {a : Word} (ha : s.effectiveAddress m next = a)
    (h : s.faultsAt a (laneWidth double).bytes = false) :
    s.ReadsLane next double (s.loaded a (laneWidth double).bytes) (.mem m) := by
  subst ha
  exact ⟨h, rfl⟩

theorem yields_readLane {x : Xm} {double : Bool} {v : Word} (h : s.ReadsLane next double v x) :
    Yields (readLane x double next) s fun a c => a = v ∧ c = s := by
  cases x with
  | reg x =>
    cases h
    exact yields_gets (g := fun m => low ((m.xmmReg x).setWidth 64) (laneWidth double)) fun _ => rfl
  | mem m =>
    obtain ⟨hfaults, rfl⟩ := h
    exact (yields_address m).after (yields_loadBytes hfaults)

/-! ### Moves -/

section Moves

variable {w w' : Width} {v a : Word} {dst : Gpr} {m : Mem}

theorem executes_mov {src : Source} (h : s.ReadsSource next w v src) :
    Executes (.mov w (.reg dst) src) next s fun c => c = s.setReg dst (merge (s.reg dst) v w) :=
  (yields_readSource h).after (yields_writeReg dst w v)

theorem executes_store {src : Source} (h : s.ReadsSource next w v src)
    (ha : s.effectiveAddress m next = a) (hfaults : s.faultsAt a w.bytes = false) :
    Executes (.mov w (.mem m) src) next s fun c => c = s.stored a w.bytes v :=
  (yields_readSource h).after (yields_writeMem ha hfaults v)

theorem executes_movzx {src : Rm} (h : s.ReadsRm next w' v src) :
    Executes (.movzx w dst w' src) next s fun c => c = s.setReg dst (merge (s.reg dst) v w) :=
  (yields_readRm h).after (yields_writeReg dst w v)

theorem executes_movsx {src : Rm} (h : s.ReadsRm next w' v src) :
    Executes (.movsx w dst w' src) next s fun c =>
      c = s.setReg dst (merge (s.reg dst) (signExtend v w') w) :=
  (yields_readRm h).after (yields_writeReg dst w _)

theorem executes_lea :
    Executes (.lea .qword dst m) next s fun c => c = s.setReg dst (s.effectiveAddress m next) :=
  (yields_address m).after (yields_writeReg dst .qword _)

/-- The move that the condition asks for is made; at operand size 32 the high half is cleared
anyway. -/
theorem executes_cmov {cond : Cond} {src : Rm} (h : s.ReadsRm next w v src) :
    Executes (.cmov cond w dst src) next s fun c =>
      c = s.setReg dst
        (merge (s.reg dst) (if s.flags.cond cond then v else low (s.reg dst) w) w) := by
  refine (yields_readRm h).after (yields_get.bind fun machine c hc => ?_)
  obtain ⟨rfl, rfl⟩ := hc
  rw [flags_core]
  by_cases hcond : machine.flags.cond cond = true
  · rw [if_pos hcond, if_pos hcond]
    exact yields_writeReg dst w v
  · rw [if_neg hcond, if_neg hcond]
    exact (yields_readReg dst w).after (yields_writeReg dst w _)

end Moves

/-! ### Arithmetic -/

section Arithmetic

variable {w : Width} {v : Word} {dst : Gpr}

/-- An operation that writes its result. -/
theorem executes_alu {op : AluOp} {src : Source} (hop : op ≠ .cmp)
    (h : s.ReadsSource next w v src) :
    Executes (.alu op w (.reg dst) src) next s fun c =>
      ∃ flags, c = { s with flags := flags }.setReg dst
      (merge (s.reg dst) (aluAt op w (low (s.reg dst) w) v s.flags.cf).1 w) := by
  refine (yields_readReg dst w).after
    ((yields_readSource h).after (yields_get.bind fun machine c hc => ?_))
  obtain ⟨rfl, rfl⟩ := hc
  refine (yields_setFlags _).bind fun _ c hc => ?_
  subst hc
  rw [if_pos hop]
  exact (yields_writeReg dst w _).mono fun _ c hc => ⟨_, hc⟩

/-- A compare sets the flags. -/
theorem executes_cmp {a : Word} {x : Rm} {src : Source} (ha : s.ReadsRm next w a x)
    (h : s.ReadsSource next w v src) : Executes (.alu .cmp w x src) next s fun c =>
      c = { s with flags := (aluAt .cmp w a v s.flags.cf).2 } := by
  refine (yields_readRm ha).after
    ((yields_readSource h).after (yields_get.bind fun machine c hc => ?_))
  obtain ⟨rfl, rfl⟩ := hc
  refine (yields_setFlags _).bind fun _ c hc => ?_
  rw [if_neg (not_not_intro rfl)]
  exact (yields_pure ()).mono fun _ c' hc' => hc'.2.trans hc

/-- The product at operand size. -/
def product (w : Width) (a b : Word) : Word :=
  low (BitVec.ofInt 64 ((signExtend a w).toInt * (signExtend b w).toInt)) w

theorem yields_imul (a b : Word) : Yields (imul w dst a b) s fun _ c => ∃ flags,
    c = { s with flags := flags }.setReg dst (merge (s.reg dst) (product w a b) w) := by
  let overflow : Bool :=
    (signExtend (product w a b) w).toInt ≠ (signExtend a w).toInt * (signExtend b w).toInt
  refine (yields_modifyFlags fun f => { f with cf := overflow, of := overflow }).bind
    fun _ c hc => ?_
  subst hc
  exact (yields_writeReg dst w _).mono fun _ c hc => ⟨_, hc⟩

theorem executes_imul {src : Rm} (h : s.ReadsRm next w v src) :
    Executes (.imul w dst src none) next s fun c =>
      ∃ flags, c = { s with flags := flags }.setReg dst
      (merge (s.reg dst) (product w (low (s.reg dst) w) v) w) :=
  (yields_readReg dst w).after ((yields_readRm h).after (yields_imul _ _))

theorem executes_imulImm {src : Rm} (h : s.ReadsRm next w v src) (factor : Int) :
    Executes (.imul w dst src (some factor)) next s fun c =>
      ∃ flags, c = { s with flags := flags }.setReg dst
      (merge (s.reg dst) (product w v (BitVec.ofInt 64 factor)) w) :=
  (yields_readRm h).after (yields_imul _ _)

end Arithmetic

/-! ### Scalar floats -/

section Floats

variable {double : Bool} {v a : Word} {dst src : Xmm} {m : Mem}

/-- A load clears what is above the scalar. -/
theorem executes_movsLoad (h : s.ReadsLane next double v (.mem m)) :
    Executes (.movs double (.reg dst) (.mem m)) next s fun c => c = s.setXmm dst (v.setWidth 128) :=
  (yields_readLane h).after (yields_setXmm dst fun _ => rfl)

theorem executes_movsStore (ha : s.effectiveAddress m next = a)
    (hfaults : s.faultsAt a (laneWidth double).bytes = false) :
    Executes (.movs double (.mem m) (.reg src)) next s fun c =>
      c = s.stored a (laneWidth double).bytes
      (low ((s.xmmReg src).setWidth 64) (laneWidth double)) :=
  (yields_readLane (x := .reg src) rfl).after
    ((yields_address m).after (ha ▸ yields_storeBytes hfaults _))

theorem executes_movap : Executes (.movap double dst (.reg src)) next s fun c =>
    c = s.setXmm dst (s.xmmReg src) :=
  (yields_gets (g := fun m => m.xmmReg src) fun _ => rfl).after (yields_setXmm dst fun _ => rfl)

/-- Exclusive or with itself clears a register. -/
theorem executes_clearXmm : Executes (.packed .xor double dst (.reg dst)) next s fun c =>
    c = s.setXmm dst 0 := by
  refine (yields_gets (g := fun m => m.xmmReg dst) fun _ => rfl).after ?_
  refine (yields_setXmm dst (f := fun m => m.xmmReg dst ^^^ s.xmmReg dst) fun _ => rfl).mono
    fun _ c hc => ?_
  rw [hc, BitVec.xor_self]
  rfl

end Floats

end MachineCode.Machine
