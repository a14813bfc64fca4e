import MachineCode.Proofs.Accesses.Acceptance

/-! Accesses through pointers: what their code does where it is lowered, and which stores are
refused. One scratch register serves the pointer and the value, so that a store is refused that
needs it for both. -/
namespace MachineCode

open X64 Lower

/-- The micro-operation is refused, and the method with it. -/
def Rejects (target : Target) (source : MethodSource) (x : Expansion) (op : MicroOp)
    (before : Draft) : Prop :=
  ∃ name detail d', microOp x op before = .error (.unhandled name detail) d' ∧
    (compile target source).1 = .error (.unhandled name detail)

section

variable {target : Target} {source : MethodSource} {x : Expansion} {op : MicroOp}
  {access : CellAccess} {before : Draft}

theorem Attempts.rejects_iff (h : Attempts target source x op before) :
    Rejects target source x op before ↔
    ∃ err d', microOp x op before = .error err d' ∧ err.isUnhandled = true := by
  constructor
  · rintro ⟨name, detail, d', hrun, -⟩
    exact ⟨_, d', hrun, rfl⟩
  · rintro ⟨err, d', hrun, hunhandled⟩
    obtain ⟨name, detail, rfl⟩ := Error.exists_of_isUnhandled hunhandled
    exact ⟨name, detail, d', hrun, h.compile_eq_error hrun⟩

/-- Unless an operand names it, the scratch register is in use for a pointer that is in no other. -/
theorem CellAccess.Spares.onScratch_iff {frame : Frame} (h : access.Spares frame) :
    access.cell.OnScratch ↔ access.cell.pointer.isRegister = false := by
  refine ⟨fun hscratch => ?_, .inl⟩
  obtain hregister | hpointer | ⟨i, hi, hindex⟩ := hscratch
  · exact hregister
  · exact absurd (.inl hpointer) h.pointer
  · exact absurd (.inl hindex) (h.index i hi)

/-- An access through a pointer, with no index or one in a register, whose operands do not name the
scratch register. Where the code is installed, it reads or writes the cell at the address that this
has when the code is entered, at the width of the operand's kind. A store whose pointer is in range
is refused exactly if its pointer is in no register and its value needs one, or if there is no code
for an operand. A pointer out of range is reported as that. -/
theorem exists_run_accessed (hop : x.access? op = some access)
    (hindex : ∀ i ∈ access.cell.offset, i.1.isRegister = true) :
    (∀ (I : Installation) (start stop : Nat), I.HasMicro x op start stop →
      access.Spares I.source.frame →
      ∃ pc, start ≤ pc ∧ pc < stop ∧ ∀ machine : Machine, machine.Loaded I.base I.image →
        machine.rip = I.base + BitVec.ofNat 64 start → access.Ready I.site I.source.frame machine →
        (∀ e, access.hazard I.site I.source.frame machine = some e →
          machine.Stops (I.site.Span start stop) (e (I.base + BitVec.ofNat 64 pc))) ∧
        (access.hazard I.site I.source.frame machine = none →
          ∃ machine', machine.RunsTo (I.base + BitVec.ofNat 64 stop) machine' ∧
            access.Done I.site I.source.frame machine.core machine'.core)) ∧
    ∀ (target : Target) (source : MethodSource) (before : Draft),
      Attempts target source x op before →
      access.use = .store → access.Spares source.frame →
      (access.cell.pointer.InRange source.frame before.data.size →
        (Rejects target source x op before ↔
          access.cell.pointer.isRegister = false ∧ access.operand.NeedsRegister ∨
          access.Unlowerable)) ∧
      (¬ access.cell.pointer.InRange source.frame before.data.size → ∃ err d',
        microOp x op before = .error err d' ∧ (compile target source).1 = .error err ∧
        err.isOutOfRange = true) := by
  refine ⟨fun I start stop hcode hspares => hcode.exists_trap_or_run hop hspares.undisturbed,
    fun target source before hbefore huse hspares => ⟨fun hpointer => ?_, fun hfar => ?_⟩⟩
  · have hfold : access.cell.Foldable := fun c scale disp hoffset => by
      cases hindex _ hoffset
    have hconflicts : access.Conflicts ↔
        access.cell.pointer.isRegister = false ∧ access.operand.NeedsRegister := by
      rw [CellAccess.Conflicts, hspares.onScratch_iff, and_comm (a := access.operand.NeedsRegister)]
      exact and_iff_right huse
    rw [hbefore.rejects_iff, hbefore.exists_refusal_iff hop huse hfold, hconflicts, or_comm]
    exact and_iff_right hpointer
  · obtain ⟨err, hrun, hout⟩ := hbefore.exists_microOp_eq_error hop hfar
    exact ⟨err, before, hrun, hbefore.compile_eq_error hrun, hout⟩

end

/-- A store of a constant to a cell with an index, and one that needs the scratch register for its
pointer and its value. -/
theorem exists_run_accessed_store :
    let target : Target := ⟨{ Options.standard with useStackBanging := false }, ⟨true, true⟩, 4096⟩
    let pointer : Operand := .reg Gpr.rbx.register .object
    let index : Operand := .reg Gpr.rcx.register .long
    let value : Operand := .const (.int 7)
    let op : MicroOp := .pointerStoreDisp 0 1 .times4 16 2 false
    let machine := (Machine.initial.setReg .rbx 0x30000000).setReg .rcx 5
    let slot : Operand := .stack (.spill 0) .long
    let op' : MicroOp := .pointerStore 0 0 false
    let source' : MethodSource :=
      ⟨"test", none, .empty, [], [.template ⟨"store", [op'], none, 0⟩ [slot] none none, .ret none]⟩
    (∃ (I : Installation) (x : Expansion) (start stop : Nat) (machine' : Machine), x.operands =
      [pointer, index, value] ∧
      I.HasMicro x op start stop ∧
      (I.enter machine start).RunsTo (I.base + BitVec.ofNat 64 stop) machine' ∧
      (I.enter machine start).core.Puts 0x30000024 4 7 machine'.core) ∧
    ∃ x before, x.operands = [slot] ∧ Attempts target source' x op' before ∧
      Rejects target source' x op' before := by
  intro target pointer index value op machine slot op' source'
  constructor
  · let t : Template := ⟨"store", [op], none, 0⟩
    obtain ⟨I, -, hsource, -, hlow, hhigh⟩ := Installation.exists_installed target
      ⟨"test", none, .empty, [], [.template t [pointer, index, value] none none, .ret none]⟩
        0x10000000 (by decide +kernel)
    have ht : .template t [pointer, index, value] none none ∈ I.source.ops := by simp [hsource]
    obtain ⟨labels, start, stop, hcode⟩ := I.exists_hasMicro ht (List.mem_singleton_self op)
    let access : CellAccess := ⟨.store, ⟨pointer, some (index, .times4, 16)⟩, value⟩
    have hspares : access.Spares I.source.frame := by
      refine ⟨?_, ?_, ?_⟩
      · rintro (h | ⟨l, h, -⟩) <;> cases h
      · rintro _ ⟨⟩ (h | ⟨l, h, -⟩) <;> cases h
      · rintro (h | ⟨l, h, -⟩) <;> cases h
    have haccess :
        Expansion.access? ⟨t, [pointer, index, value], labels, none, none⟩ op = some access := rfl
    obtain ⟨pc, -, -, hrun⟩ :=
      (exists_run_accessed haccess (by rintro _ ⟨⟩; rfl)).1 I start stop hcode hspares
    obtain ⟨machine', hruns, a, v, ha, hv, hputs⟩ :=
      (hrun (I.enter machine start) (Installation.loaded_enter _ start) rfl
      ⟨Site.readable_of_unprotected rfl hlow hhigh, nofun, nofun⟩).2 rfl
    cases ha
    cases hv
    exact ⟨I, _, start, stop, machine', rfl, hcode, hruns, hputs⟩
  · obtain ⟨e, he⟩ :=
      Option.isSome_iff_exists.mp
        (show (Attempts.first? target source').isSome = true by decide +kernel)
    let x : Expansion := ⟨⟨"store", [op'], none, 0⟩, [slot], [], none, none⟩
    have hbefore : Attempts target source' x op' _ := Attempts.of_first? he rfl rfl rfl
    let access : CellAccess := ⟨.store, ⟨slot, none⟩, slot⟩
    have haccess : x.access? op' = some access := rfl
    have hspares : access.Spares source'.frame := by
      have hslot : ¬ slot.Uses source'.frame scratch := by
        have hplace : place? source'.frame slot = some (.plain (.based .rsp 0)) := by decide +kernel
        rintro (h | ⟨l, h, huses⟩)
        · cases h
        · cases hplace.symm.trans h
          cases huses
      exact ⟨hslot, by rintro _ ⟨⟩, hslot⟩
    have hrange : slot.InRange source'.frame e.data.size := (by decide : 0 < 2 ^ 31)
    have hrefused :=
      ((exists_run_accessed haccess (by rintro _ ⟨⟩)).2 target source' _ hbefore
        rfl hspares).1 hrange
    exact ⟨_, _, rfl, hbefore, hrefused.mpr (.inl ⟨rfl, trivial⟩)⟩

/-- A pointer that is read past the end of the data section is reported as that, although the value
needs the scratch register, too. -/
theorem not_rejects_out_of_range :
    let target : Target := ⟨{ Options.standard with useStackBanging := false }, ⟨true, true⟩, 4096⟩
    let pointer : Operand := .addr (.ofData .long 100)
    let value : Operand := .stack (.spill 0) .int
    let op : MicroOp := .pointerStore 0 1 false
    let source : MethodSource :=
      ⟨"test", none, .empty, [],
        [.template ⟨"store", [op], none, 0⟩ [pointer, value] none none, .ret none]⟩
    ∃ x before, x.operands = [pointer, value] ∧ Attempts target source x op before ∧
      (⟨.store, ⟨pointer, none⟩, value⟩ : CellAccess).Spares source.frame ∧
      pointer.isRegister = false ∧ value.NeedsRegister ∧
      (compile target source).1 = .error (.dataOutOfRange 100 0) ∧
      ¬ Rejects target source x op before := by
  intro target pointer value op source
  let x : Expansion := ⟨⟨"store", [op], none, 0⟩, [pointer, value], [], none, none⟩
  have hfails :
      ((Attempts.first? target source).any fun e => Step.fails (· == .dataOutOfRange 100 0)
      (microOp x op { e with current := "xir", buffer := (e.buffer.newLabels 0).2 })) = true := by
    decide +kernel
  obtain ⟨e, he, hfails⟩ := (Option.any_eq_true _ _).mp hfails
  obtain ⟨err, d', hrun, heq⟩ := Step.exists_of_fails hfails
  cases eq_of_beq heq
  have hbefore : Attempts target source x op _ := Attempts.of_first? he rfl rfl rfl
  have hcompile := hbefore.compile_eq_error hrun
  refine ⟨x, _, rfl, hbefore, ⟨?_, by rintro _ ⟨⟩, ?_⟩, rfl, trivial, hcompile,
    fun ⟨name, detail, _, _, hrejected⟩ => ?_⟩
  · rintro (h | ⟨l, h, huses⟩) <;> cases h
    cases huses
  · have hplace : place? source.frame value = some (.plain (.based .rsp 0)) := by decide +kernel
    rintro (h | ⟨l, h, huses⟩)
    · cases h
    · cases hplace.symm.trans h
      cases huses
  · cases hcompile.symm.trans hrejected

end MachineCode
