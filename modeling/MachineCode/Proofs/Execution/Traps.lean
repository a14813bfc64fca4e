import MachineCode.Proofs.Execution.Cells
import MachineCode.Proofs.Execution.Dividing
import MachineCode.Proofs.Execution.Expansions

/-! Traps of installed methods. What may fault on purpose faults at the instruction that has been
recorded for it, and it does so if and only if there is reason to. -/
namespace MachineCode

open X64 Chunk

/-- What code may fault on, on purpose. -/
inductive Trap where
  | null (object : Operand)
  /-- The safepoint page is protected. -/
  | latch
  | division (isSigned : Bool) (left right result : Operand)
  | load (cell : Cell) (result : Operand)
  | store (cell : Cell) (value : Operand)

namespace Trap

/-- The fault there is reason to. A check reads four bytes of the object. -/
def hazard (S : Site) (frame : Frame) : Trap → Machine.Hazard
  | null object => fun s => (S.word? frame s object).bind (s.segv? · 4)
  | latch => fun s => s.segv? (s.reg safepointLatch) 4
  | division _ _ right result => fun s =>
    (S.word? frame s right).bind (Lower.divideError? (.ofWide result.kind.isWord))
  | load cell result => fun s => (cell.address? S frame s).bind (s.segv? · result.kind.size)
  | store cell value => fun s => (cell.address? S frame s).bind (s.segv? · value.kind.size)

/-- All other memory can be accessed, and a signed division that is not checked has a quotient that
fits. -/
def Ready (S : Site) (target : Target) (frame : Frame) : Trap → Machine → Prop
  | null _ | latch => fun _ => True
  | division isSigned left right result => Lower.CanDivide S target frame isSigned left right result
  | load cell o | store cell o =>
    fun s => S.Readable s ∧ S.Accessible frame s cell.pointer ∧ S.Accessible frame s o

/-- The operands are not made of registers that the code overwrites before it needs them. -/
def Intact (target : Target) (frame : Frame) : Trap → Prop
  | null _ | latch => True
  | division isSigned _ right result =>
    (∀ g, result.AddressedBy frame g →
      ¬ Lower.Overwrites (Lower.isChecked target isSigned result) g) ∧
      (Lower.isChecked target isSigned result = true → Lower.gpr? right ≠ some scratch)
  | load cell result => cell.Intact ∧ ¬ result.AddressedBy frame scratch
  | store cell _ => cell.Intact

/-- The row for an instruction, and outside of safepoints the rows for its exception edges. -/
def RecordedIn (t : SideTables) : Trap → Nat → DebugInfo → Prop
  | latch => fun pc info => ⟨pc, info⟩ ∈ t.safepoints
  | _ => t.HasTrap

/-- A division whose result is in the floating registers does not trap. -/
def ofArith? (op : ArithOp) (left right result : Operand) : Option Trap :=
  if result.kind.isFloating then none
  else match op with
    | .div | .rem => some (division true left right result)
    | .udiv | .urem => some (division false left right result)
    | .add | .sub | .mul => none

end Trap

/-- What the operation may fault on, and its debug information. -/
def Operation.trap? : Operation → Option (Trap × DebugInfo)
  | nullCheck object info => some (.null object, info)
  | safepoint info => some (.latch, info)
  | arith op left right result (some info) => (Trap.ofArith? op left right result).map (·, info)
  | _ => none

namespace Expansion

/-- What the micro-operation may fault on. -/
def trap? (x : Expansion) : MicroOp → Option (Trap × DebugInfo)
  | .binary .div a b result => do
    return (← Trap.ofArith? .div (← x.operands[a]?) (← x.operands[b]?)
      (← x.operands[result]?), ← x.info)
  | .binary .rem a b result => do
    return (← Trap.ofArith? .rem (← x.operands[a]?) (← x.operands[b]?)
      (← x.operands[result]?), ← x.info)
  | .pointerLoad pointer result true => do
    return (.load ⟨← x.operands[pointer]?, none⟩ (← x.operands[result]?), ← x.info)
  | .pointerStore pointer value true => do
    return (.store ⟨← x.operands[pointer]?, none⟩ (← x.operands[value]?), ← x.info)
  | .pointerLoadDisp pointer index scale disp result true => do
    return (.load ⟨← x.operands[pointer]?, some (← x.operands[index]?, scale, disp)⟩
      (← x.operands[result]?), ← x.info)
  | .pointerStoreDisp pointer index scale disp value true => do
    return (.store ⟨← x.operands[pointer]?, some (← x.operands[index]?, scale, disp)⟩
      (← x.operands[value]?), ← x.info)
  | .safepoint => x.info.map (.latch, ·)
  | .nullCheck pointer => do return (.null (← x.operands[pointer]?), ← x.info)
  | _ => none

end Expansion

namespace Lower

open Machine

variable {S : Site} {C : Context} {trap : Trap} {info : DebugInfo}

/-- One instruction may fault on this, and it is recorded. -/
def TrapsOn (S : Site) (C : Context) (x : Lower Unit) (trap : Trap) (info : DebugInfo) : Prop :=
  Lays S C x fun _ pre new final =>
    ∃ pc, S.Traps (trap.Ready S C.target C.frame) (trap.hazard S C.frame)
    (fun _ _ => True) pc pre new ∧ trap.RecordedIn final.tables pc info

/-! ### Tests -/

section Probes

variable {r : Gpr} {c : Machine} {next : Word}

theorem effectiveAddress_based : c.effectiveAddress (.based r 0) next = c.reg r := by
  simp [effectiveAddress, Mem.based]

theorem refuses_probe {e : Word → Fault} (h : c.segv? (c.reg r) 4 = some e) :
    Machine.Refuses (execute (Instr.test false (.mem (.based r 0)) .rax).decoded next) c e := by
  obtain ⟨hfaults, rfl⟩ := segv?_eq_some.mp h
  exact refuses_test effectiveAddress_based hfaults

theorem executes_probe (h : c.segv? (c.reg r) 4 = none) :
    Executes (Instr.test false (.mem (.based r 0)) .rax).decoded next c fun _ => True := by
  have hfaults : c.faultsAt (c.reg r) Width.dword.bytes = false := segv?_eq_none.mp h
  exact (executes_test (readsRm_mem effectiveAddress_based hfaults)
    (readsRm_reg .rax .dword).source).mono
    fun _ _ _ => trivial

theorem encodable_probe : (Instr.test false (.mem (.based r 0)) .rax).Encodable :=
  Instr.encodable_of_some rfl (encodable_based _ _)

end Probes

theorem trapsOn_nullCheck {object : Operand} :
    TrapsOn S C (nullCheck object info) (.null object) info := by
  refine (finds_gpr object).lays_bind fun r hr => ?_
  have hprobe : Points S C (position >>= fun pc => emit (.test false (.mem (.based r 0)) .rax) >>=
      fun _ => pure pc) _ :=
    points_emit (A := fun _ => True) (Q := fun _ _ => True) encodable_probe
      (fun _ _ _ _ => refuses_probe)
      fun _ _ _ => executes_probe
  have hlays := hprobe.record info
  simp only [bind_assoc, pure_bind] at hlays
  refine hlays.mono fun _ _ _ _ _ _ ⟨pc, htrap, hhas⟩ =>
    ⟨pc, htrap.mono fun s _ _ => ⟨trivial, ?_, fun _ => id⟩, hhas⟩
  change _ = (S.word? C.frame s object).bind _
  rw [Site.word?_gpr hr]
  rfl

/-- The row of a safepoint is written in front of its instruction. -/
theorem trapsOn_safepoint : TrapsOn S C (safepoint info) .latch info := by
  refine lays_action (.safepoint info) (e := .anything) trivial nofun rfl fun pre d d' hs hrun => ?_
  obtain ⟨hs', hrow⟩ := sound_safepoint hs hrun
  exact ⟨_, hs', fun post final hhosts hfinal =>
    ⟨_, hhosts.traps encodable_probe (fun _ _ _ _ => refuses_probe)
    fun _ _ _ => executes_probe, hfinal.tables.safepoints _ hrow⟩⟩

/-! ### Operations -/

theorem trapsOn_arith {op : ArithOp} {left right result : Operand}
    (h : Trap.ofArith? op left right result = some trap) (hintact : trap.Intact C.target C.frame) :
    TrapsOn S C (arith op left right result (some info)) trap info := by
  unfold Trap.ofArith? at h
  split at h
  · cases h
  rename_i hfloat
  rw [arith, if_neg hfloat]
  cases op with
  | div | rem | udiv | urem =>
    cases h
    exact traps_divide hintact.1 hintact.2
  | add | sub | mul => cases h

theorem trapsOn_lower {op : Operation} (h : op.trap? = some (trap, info))
    (hintact : trap.Intact C.target C.frame) :
    TrapsOn S C (lower op) trap info := by
  cases op with
  | nullCheck object i =>
    cases h
    exact trapsOn_nullCheck
  | safepoint i =>
    cases h
    exact trapsOn_safepoint
  | arith op left right result i =>
    cases i with
    | none => cases h
    | some i =>
      obtain ⟨_, htrap, ⟨⟩⟩ := Option.map_eq_some_iff.mp h
      exact trapsOn_arith htrap hintact
  | _ => cases h

/-! ### Micro-operations -/

section Micros

variable {x : Expansion}

theorem operand_of {i : Nat} {o : Operand}
    (h : x.operands[i]? = some o) : x.operand i = pure o := by
  rw [Expansion.operand, h]

theorem needInfo_of (h : x.info = some info) (what : String) : x.needInfo what = pure info := by
  rw [Expansion.needInfo, h]

theorem templateTrap_of (h : x.info = some info) (pc : Nat) :
    templateTrap x true pc = recordTrap pc info := by
  rw [templateTrap, if_pos rfl, needInfo_of h, pure_bind]

theorem cell_of {pointer index : Nat} {p i : Operand} {scale : Scale} {disp : Int32}
    (hp : x.operands[pointer]? = some p) (hi : x.operands[index]? = some i) :
    cell x pointer index scale disp = inGpr p >>= fun base =>
      Cell.mem ⟨p, some (i, scale, disp)⟩ base := by
  rw [cell, operand_of hi, operand_of hp]
  simp only [pure_bind]
  cases i <;> rfl

theorem trapsOn_microOp {op : MicroOp} (h : x.trap? op = some (trap, info))
    (hintact : trap.Intact C.target C.frame) :
    TrapsOn S C (microOp x op) trap info := by
  cases op with
  | binary op a b result =>
    cases op with
    | div | rem =>
      simp only [Expansion.trap?, Option.bind_eq_bind, Option.bind_eq_some_iff] at h
      obtain ⟨left, hleft, right, hright, res, hresult, t, htrap, i, hinfo, ⟨⟩⟩ := h
      rw [microOp, operand_of hleft, operand_of hright, operand_of hresult, hinfo]
      exact trapsOn_arith htrap hintact
    | _ => cases h
  | pointerLoad pointer result canTrap =>
    cases canTrap with
    | false => cases h
    | true =>
      simp only [Expansion.trap?, Option.bind_eq_bind, Option.bind_eq_some_iff] at h
      obtain ⟨p, hp, r, hr, i, hinfo, ⟨⟩⟩ := h
      simp only [microOp, operand_of hp, operand_of hr, templateTrap_of hinfo, pure_bind]
      exact traps_readCell hintact.1 hintact.2
  | pointerStore pointer value canTrap =>
    cases canTrap with
    | false => cases h
    | true =>
      simp only [Expansion.trap?, Option.bind_eq_bind, Option.bind_eq_some_iff] at h
      obtain ⟨p, hp, v, hv, i, hinfo, ⟨⟩⟩ := h
      simp only [microOp, operand_of hp, operand_of hv, templateTrap_of hinfo, pure_bind]
      exact traps_writeCell hintact
  | pointerLoadDisp pointer index scale disp result canTrap =>
    cases canTrap with
    | false => cases h
    | true =>
      simp only [Expansion.trap?, Option.bind_eq_bind, Option.bind_eq_some_iff] at h
      obtain ⟨p, hp, k, hk, r, hr, i, hinfo, ⟨⟩⟩ := h
      simp only [microOp, cell_of hp hk, operand_of hr, templateTrap_of hinfo,
        pure_bind, bind_assoc]
      exact traps_readCell hintact.1 hintact.2
  | pointerStoreDisp pointer index scale disp value canTrap =>
    cases canTrap with
    | false => cases h
    | true =>
      simp only [Expansion.trap?, Option.bind_eq_bind, Option.bind_eq_some_iff] at h
      obtain ⟨p, hp, k, hk, v, hv, i, hinfo, ⟨⟩⟩ := h
      simp only [microOp, cell_of hp hk, operand_of hv, templateTrap_of hinfo,
        pure_bind, bind_assoc]
      exact traps_writeCell hintact
  | safepoint =>
    obtain ⟨i, hinfo, ⟨⟩⟩ := Option.map_eq_some_iff.mp h
    rw [microOp, needInfo_of hinfo, pure_bind]
    exact trapsOn_safepoint
  | nullCheck pointer =>
    simp only [Expansion.trap?, Option.bind_eq_bind, Option.bind_eq_some_iff] at h
    obtain ⟨p, hp, i, hinfo, ⟨⟩⟩ := h
    simp only [microOp, needInfo_of hinfo, operand_of hp, pure_bind]
    exact trapsOn_nullCheck
  | _ => cases h

end Micros

end Lower

/-! ### Methods -/

namespace Trap

variable {trap : Trap} {info : DebugInfo} {pc : Nat}

/-- What has been recorded is in the tables of the method. -/
theorem RecordedIn.completed {m : Method} {d : Draft} (h : trap.RecordedIn d.tables pc info)
    (hm : Completed m d) :
    trap.RecordedIn m.tables pc info := by
  have hhas : d.tables.HasTrap pc info → m.tables.HasTrap pc info := by
    rintro ⟨hexception, hhandlers⟩
    refine ⟨?_, fun edge hedge => ?_⟩
    · rw [hm.tables]
      exact hexception
    · obtain ⟨_, hrow⟩ := hhandlers edge hedge
      obtain ⟨offset, -, hrow⟩ := resolveHandlers_eq_ok hm.handlers hrow
      exact ⟨some offset, hrow⟩
  cases trap with
  | latch =>
    change _ ∈ m.tables.safepoints
    rw [hm.tables]
    exact h
  | null | division | load | store => exact hhas h

@[simp] theorem hazard_core (S : Site) (frame : Frame) (trap : Trap) (machine : Machine) :
    trap.hazard S frame machine.core = trap.hazard S frame machine := by
  cases trap with
  | null | division => exact congrArg (Option.bind · _) (Site.word?_core machine _)
  | latch => rfl
  | load | store => exact congrArg (Option.bind · _) (Cell.address?_core ..)

theorem Ready.core {S : Site} {target : Target} {frame : Frame} {machine : Machine}
    (h : trap.Ready S target frame machine) : trap.Ready S target frame machine.core := by
  cases trap with
  | division =>
    refine ⟨h.readable, h.dividend, h.quotient, ?_⟩
    simp only [Site.word?_core]
    exact h.fits
  | null | latch | load | store => exact h

end Trap

namespace Installation

variable {I : Installation} {trap : Trap} {info : DebugInfo} {start stop : Nat}

/-- Between these positions is the code of an operation or a micro-operation that may fault on
this. -/
inductive HasTrap (I : Installation) (trap : Trap) (info : DebugInfo) (start stop : Nat) : Prop
  | operation {op : Operation} (hcode : I.HasCode op start stop) (h : op.trap? = some (trap, info))
  | micro {x : Expansion} {op : MicroOp} (hcode : I.HasMicro x op start stop)
    (h : x.trap? op = some (trap, info))

theorem HasTrap.hosts (h : I.HasTrap trap info start stop)
    (hintact : trap.Intact I.target I.source.frame) :
    ∃ pre new post final pc, I.site.Hosts (pre ++ (new ++ post)) final ∧
    trap.RecordedIn I.method.tables pc info ∧
      I.site.Traps (trap.Ready I.site I.target I.source.frame)
        (trap.hazard I.site I.source.frame) (fun _ _ => True)
        pc pre new ∧ extent pre = start ∧ extent (pre ++ new) = stop := by
  obtain ⟨pre, new, post, final, hhosts, hcompleted, ⟨pc, htraps, hrecorded⟩, hstart, hstop⟩ :
      ∃ pre new post final, I.site.Hosts (pre ++ (new ++ post)) final ∧ Completed I.method final ∧
        (∃ pc, I.site.Traps (trap.Ready I.site I.target I.source.frame)
          (trap.hazard I.site I.source.frame)
          (fun _ _ => True) pc pre new ∧ trap.RecordedIn final.tables pc info) ∧
        extent pre = start ∧ extent (pre ++ new) = stop := by
    cases h with
    | operation hcode h =>
      exact hcode.hosts fun C hframe htarget => htarget ▸ hframe ▸
        Lower.trapsOn_lower h (by rwa [hframe, htarget])
    | micro hcode h =>
      exact hcode.hosts fun C hframe htarget => htarget ▸ hframe ▸
        Lower.trapsOn_microOp h (by rwa [hframe, htarget])
  exact ⟨pre, new, post, final, pc, hhosts, hrecorded.completed hcompleted, htraps, hstart, hstop⟩

end Installation

/-- Of the code that may fault on purpose, one instruction is recorded, with its exception edges.
From any state in which all other memory can be accessed, the machine stops at that instruction with
the fault there is reason to, and nothing has changed since the instruction before it; if there is
no reason, the code runs to its end. -/
theorem exists_trap {I : Installation} {trap : Trap} {info : DebugInfo} {start stop : Nat}
    (h : I.HasTrap trap info start stop) (hintact : trap.Intact I.target I.source.frame) :
    ∃ pc, start ≤ pc ∧ pc < stop ∧ trap.RecordedIn I.method.tables pc info ∧ ∀ machine : Machine,
      machine.Loaded I.base I.image → machine.rip = I.base + BitVec.ofNat 64 start →
      trap.Ready I.site I.target I.source.frame machine →
      (∀ e, trap.hazard I.site I.source.frame machine = some e →
        machine.Stops (I.site.Span start stop) (e (I.base + BitVec.ofNat 64 pc))) ∧
      (trap.hazard I.site I.source.frame machine = none →
        ∃ machine', machine.RunsTo (I.base + BitVec.ofNat 64 stop) machine') := by
  obtain ⟨pre, new, post, final, pc, hhosts, hrecorded, htraps, rfl, rfl⟩ := h.hosts hintact
  refine ⟨pc, htraps.le, htraps.lt, hrecorded, fun machine hloaded hrip hready => ?_⟩
  have hrun := Installation.run_of_traps hhosts htraps hloaded hrip hready.core
  rw [Trap.hazard_core] at hrun
  exact ⟨hrun.1, fun hnone => (hrun.2 hnone).imp fun _ => And.left⟩

/-- A load through a null pointer, with a handler for it. -/
theorem exists_trap_load :
    let pointer : Operand := .reg Gpr.rbx.register .object
    let index : Operand := .const (.int 3)
    let result : Operand := .reg Gpr.rax.register .int
    let op : MicroOp := .pointerLoadDisp 0 1 .times4 16 2 true
    let info : DebugInfo := ⟨7, 0, [⟨⟨0⟩, none⟩]⟩
    ∃ (I : Installation) (x : Expansion) (start stop pc : Nat), x.operands =
      [pointer, index, result] ∧
      I.HasMicro x op start stop ∧ I.method.tables.HasTrap pc info ∧
      (I.enter (Machine.initial.setReg .rbx 0) start).Stops (I.site.Span start stop)
        (.segv (I.base + BitVec.ofNat 64 pc) 28) := by
  intro pointer index result op info
  let target : Target := ⟨{ Options.standard with useStackBanging := false }, ⟨true, true⟩, 4096⟩
  let t : Template := ⟨"load", [op], none, 0⟩
  obtain ⟨I, -, hsource, -, hlow, hhigh⟩ := Installation.exists_installed target
    ⟨"test", none, .empty, [],
      [.template t [pointer, index, result] (some info) none, .label ⟨0⟩, .ret none]⟩
    0x10000000 (by decide +kernel)
  have ht : .template t [pointer, index, result] (some info) none ∈ I.source.ops := by
    simp [hsource]
  obtain ⟨labels, start, stop, hcode⟩ := I.exists_hasMicro ht (List.mem_singleton_self op)
  have htrap : I.HasTrap (.load ⟨pointer, some (index, .times4, 16)⟩ result) info start stop :=
    .micro hcode rfl
  obtain ⟨pc, -, -, hrecorded, hrun⟩ := exists_trap htrap ⟨nofun, fun ⟨l, hl, _⟩ => by cases hl⟩
  have hfault :=
    (hrun (I.enter (Machine.initial.setReg .rbx 0) start) (Installation.loaded_enter _ start) rfl
    ⟨Site.readable_of_unprotected rfl hlow hhigh, nofun, nofun⟩).1 (.segv · 28) rfl
  exact ⟨I, _, start, stop, pc, rfl, hcode, hrecorded, hfault⟩

end MachineCode
