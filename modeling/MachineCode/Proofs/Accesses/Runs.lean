import MachineCode.Proofs.Execution.Traps

/-! Micro-operations that use a cell: they load it, store to it, or compute its address. Their
installed code does so at the address that the cell has when the code is entered, and changes
nothing else. -/
namespace MachineCode

open X64 Lower Machine

/-- What a cell is used for. -/
inductive Use where
  | load
  | store
  | address

/-- The use of a cell. The operand receives its value or its address, or is the value that is
stored. -/
structure CellAccess where
  use : Use
  cell : Cell
  operand : Operand

/-- The instruction that uses the cell is recorded as one that may fault. -/
def MicroOp.canTrap : MicroOp → Bool
  | .pointerLoad _ _ canTrap | .pointerStore _ _ canTrap | .pointerLoadDisp _ _ _ _ _ canTrap
  | .pointerStoreDisp _ _ _ _ _ canTrap => canTrap
  | _ => false

/-- The use that the micro-operation makes of a cell. -/
def Expansion.access? (x : Expansion) : MicroOp → Option CellAccess
  | .pointerLoad pointer result _ =>
    do return ⟨.load, ⟨← x.operands[pointer]?, none⟩, ← x.operands[result]?⟩
  | .pointerStore pointer value _ =>
    do return ⟨.store, ⟨← x.operands[pointer]?, none⟩, ← x.operands[value]?⟩
  | .pointerLoadDisp pointer index scale disp result _ => do
    return ⟨.load, ⟨← x.operands[pointer]?, some (← x.operands[index]?, scale, disp)⟩,
      ← x.operands[result]?⟩
  | .pointerStoreDisp pointer index scale disp value _ => do
    return ⟨.store, ⟨← x.operands[pointer]?, some (← x.operands[index]?, scale, disp)⟩,
      ← x.operands[value]?⟩
  | .lea pointer index scale disp result => do
    return ⟨.address, ⟨← x.operands[pointer]?, some (← x.operands[index]?, scale, disp)⟩,
      ← x.operands[result]?⟩
  | _ => none

namespace CellAccess

variable (access : CellAccess)

/-- The code that uses the cell, with its memory operand. -/
def codeAt (m : Mem) : Lower Nat :=
  match access.use with
  | .load => readCell (.plain m) access.operand
  | .store => writeCell (.plain m) access.operand
  | .address => do
    let g ← gpr access.operand
    let pc ← position
    emit (.lea true g m)
    return pc

/-- The code of the access. -/
def code : Lower Nat :=
  inGpr access.cell.pointer >>= fun base => access.cell.mem base >>= access.codeAt

/-- No operand is made of the scratch register. -/
structure Spares (frame : Frame) : Prop where
  pointer : ¬ access.cell.pointer.Uses frame scratch
  index : ∀ x ∈ access.cell.offset, ¬ x.1.Uses frame scratch
  operand : ¬ access.operand.Uses frame scratch

/-- No operand is in the scratch register or addressed from there when the code needs that
register. -/
structure Undisturbed (frame : Frame) : Prop where
  cell : access.cell.Intact
  result : access.use = .load → ¬ access.operand.AddressedBy frame scratch
  value : access.use = .store → access.cell.pointer.isRegister = false →
    gpr? access.operand ≠ some scratch

variable {access} in
theorem Spares.undisturbed {frame : Frame}
    (h : access.Spares frame) : access.Undisturbed frame where
  cell _ x hx hg := h.index x hx (.inl hg)
  result _ hg := h.operand (.inr hg)
  value _ _ hg := h.operand (.inl hg)

/-- The image and the operands can be read or written. -/
structure Ready (S : Site) (frame : Frame) (s : Machine) : Prop where
  readable : S.Readable s
  pointer : S.Accessible frame s access.cell.pointer
  operand : S.Accessible frame s access.operand

/-- The fault of the access. The computation of an address does not fault. -/
def hazard (S : Site) (frame : Frame) : Hazard :=
  match access.use with
  | .load | .store =>
    fun s => (access.cell.address? S frame s).bind (s.segv? · access.operand.kind.size)
  | .address => fun _ => none

/-- The operand has received the value of the cell or its address, or the cell has received the
value of the operand. -/
def Done (S : Site) (frame : Frame) : Assertion :=
  match access.use with
  | .load => access.cell.ReadTo S frame access.operand
  | .store => access.cell.WrittenFrom S frame access.operand
  | .address => access.cell.LocatedBy S frame access.operand

end CellAccess

namespace Lower

variable {S : Site} {C : Context} {x : Expansion} {op : MicroOp} {access : CellAccess}
  {K : Nat → Site.Claim} {y : Lower Nat}

theorem microOp_of_access (h : x.access? op = some access) :
    microOp x op = access.code >>= templateTrap x op.canTrap := by
  cases op with
  | pointerLoad | pointerStore =>
    simp only [Expansion.access?, Option.bind_eq_bind, Option.bind_eq_some_iff] at h
    obtain ⟨p, hp, o, ho, ⟨⟩⟩ := h
    simp only [microOp, operand_of hp, operand_of ho, pure_bind, CellAccess.code,
      Cell.mem, bind_assoc]
    rfl
  | pointerLoadDisp | pointerStoreDisp =>
    simp only [Expansion.access?, Option.bind_eq_bind, Option.bind_eq_some_iff] at h
    obtain ⟨p, hp, i, hi, o, ho, ⟨⟩⟩ := h
    simp only [microOp, cell_of hp hi, operand_of ho, pure_bind, CellAccess.code, bind_assoc]
    rfl
  | lea =>
    simp only [Expansion.access?, Option.bind_eq_bind, Option.bind_eq_some_iff] at h
    obtain ⟨p, hp, i, hi, o, ho, ⟨⟩⟩ := h
    simp only [microOp, cell_of hp hi, operand_of ho, pure_bind, CellAccess.code,
      CellAccess.codeAt, bind_assoc, templateTrap, MicroOp.canTrap, Bool.false_eq_true, if_false]
    rfl
  | _ => cases h

/-- An access may be recorded or not. -/
theorem Points.trapping (hy : Points S C y K) (canTrap : Bool) :
    Lays S C (y >>= templateTrap x canTrap) fun _ pre new final => ∃ pc, K pc pre new final := by
  cases canTrap with
  | false => exact hy.lays
  | true =>
    cases hinfo : x.info with
    | some info =>
      rw [funext (templateTrap_of hinfo)]
      exact (hy.record info).mono fun _ _ _ _ _ _ ⟨pc, h, _⟩ => ⟨pc, h⟩
    | none =>
      intro pre d u d' hd hs hrun
      obtain ⟨pc, d₁, -, hrun⟩ := Step.bind_eq_ok.mp hrun
      rw [templateTrap, if_pos rfl, Expansion.needInfo, hinfo] at hrun
      cases hrun

theorem points_access (h : access.Undisturbed C.frame) : Points S C access.code fun pc pre new _ =>
    S.Traps (access.Ready S C.frame) (access.hazard S C.frame)
      (access.Done S C.frame) pc pre new := by
  obtain ⟨use, cell, operand⟩ := access
  have hready : ∀ s, CellAccess.Ready ⟨use, cell, operand⟩ S C.frame s →
      S.Readable s ∧ S.Accessible C.frame s cell.pointer ∧ S.Accessible C.frame s operand :=
    fun _ hs => ⟨hs.readable, hs.pointer, hs.operand⟩
  cases use with
  | load =>
    exact (points_readCell h.cell (h.result rfl)).mono fun _ _ _ _ _ _ htraps =>
      htraps.mono fun s _ hs => ⟨hready s hs, rfl, fun _ => id⟩
  | store =>
    exact (points_writeCell h.cell).mono fun _ _ _ _ _ _ htraps =>
      htraps.mono fun s _ hs => ⟨hready s hs, rfl, fun _ hc => hc (h.value rfl)⟩
  | address =>
    exact (points_lea h.cell).mono fun _ _ _ _ _ _ htraps => htraps.mono fun s _ hs =>
      ⟨hready s hs, rfl, fun _ => id⟩

end Lower

namespace CellAccess

variable {S : Site} {frame : Frame} {access : CellAccess} {s : Machine}

@[simp] theorem hazard_core : access.hazard S frame s.core = access.hazard S frame s := by
  obtain ⟨use, cell, operand⟩ := access
  cases use with
  | load | store => exact congrArg (Option.bind · _) (Cell.address?_core ..)
  | address => rfl

end CellAccess

/-- The code of an access has one instruction that faults when the access does. Otherwise the code
gets to its end, and has done what it is for. -/
theorem Installation.HasMicro.exists_trap_or_run {I : Installation} {x : Expansion} {op : MicroOp}
    {access : CellAccess} {start stop : Nat} (hcode : I.HasMicro x op start stop)
    (hop : x.access? op = some access) (haccess : access.Undisturbed I.source.frame) :
    ∃ pc, start ≤ pc ∧ pc < stop ∧ ∀ machine : Machine, machine.Loaded I.base I.image →
      machine.rip = I.base + BitVec.ofNat 64 start → access.Ready I.site I.source.frame machine →
      (∀ e, access.hazard I.site I.source.frame machine = some e →
        machine.Stops (I.site.Span start stop) (e (I.base + BitVec.ofNat 64 pc))) ∧
      (access.hazard I.site I.source.frame machine = none →
        ∃ machine', machine.RunsTo (I.base + BitVec.ofNat 64 stop) machine' ∧
          access.Done I.site I.source.frame machine.core machine'.core) := by
  obtain ⟨pre, new, post, final, hhosts, -, ⟨pc, htraps⟩, rfl, rfl⟩ :=
    hcode.hosts (K := fun pre new _ => ∃ pc,
      I.site.Traps (access.Ready I.site I.source.frame) (access.hazard I.site I.source.frame)
        (access.Done I.site I.source.frame) pc pre new) fun C hframe _ => by
    rw [microOp_of_access hop, ← hframe]
    exact Points.trapping (points_access (hframe ▸ haccess)) op.canTrap
  refine ⟨pc, htraps.le, htraps.lt, fun machine hloaded hrip hready => ?_⟩
  have hrun :=
    run_of_traps hhosts htraps hloaded hrip ⟨hready.readable, hready.pointer, hready.operand⟩
  rwa [CellAccess.hazard_core] at hrun

end MachineCode
