import MachineCode.Proofs.Accesses.Outcomes
import MachineCode.Proofs.Accesses.Runs

/-! Accesses that are lowered. An access is refused for one of its operands, or because its value
needs the scratch register while the cell is addressed from there; and it fails where an operand is
out of range. -/
namespace MachineCode

open X64 Lower SideTables

variable {C : Context} {base : Draft} {nop : Bool}

theorem Lower.Refused.triple {α : Type} {p : Draft → Prop} {x : Lower α} {q : α → Draft → Prop}
    (h : Refused x) :
    Triple p x q fun err _ => err.isUnhandled = true := by
  intro d _
  obtain ⟨detail, herror⟩ := h d
  rw [herror]
  refine ⟨fun _ _ hrun => (by cases hrun), fun err d' hrun => ?_⟩
  cases hrun
  rfl

/-! ### Cells -/

namespace Cell

variable {cell : Cell}

/-- The cell is addressed from the scratch register, where a pointer is that is in no register of
its own. -/
def OnScratch (cell : Cell) : Prop :=
  cell.pointer.isRegister = false ∨ gpr? cell.pointer = some scratch ∨
    ∃ x ∈ cell.offset, gpr? x.1 = some scratch

/-- A constant index has room in the displacement. -/
def Foldable (cell : Cell) : Prop := ∀ c scale disp, cell.offset = some (.const c, scale, disp) →
  (int32? (c.folded scale disp).toInt).isSome = true

theorem onScratch_iff {base : Gpr}
    (hbase : gpr? cell.pointer = some base ∨ cell.pointer.isRegister = false ∧ base = scratch) :
    cell.OnScratch ↔ base = scratch ∨ ∃ x ∈ cell.offset, gpr? x.1 = some scratch := by
  unfold OnScratch
  obtain hbase | ⟨hregister, rfl⟩ := hbase
  · have hregister := Site.isRegister_of_gpr? hbase
    simp [hbase, hregister]
  · simp [hregister]

/-- The memory operand of a cell whose pointer has been brought to a register. -/
theorem mem_eq_pure (hindex : ∀ x ∈ cell.offset, ¬ x.1.Unindexable) (hfold : cell.Foldable)
    {base : Gpr}
    (hbase : gpr? cell.pointer = some base ∨ cell.pointer.isRegister = false ∧ base = scratch) :
    ∃ m, cell.mem base = pure m ∧ m.Encodable ∧ (m.uses scratch = true ↔ cell.OnScratch) := by
  rw [onScratch_iff hbase]
  unfold mem
  cases hoffset : cell.offset with
  | none => exact ⟨.based base 0, rfl, encodable_based _ _, by simp [Mem.uses, Mem.based]⟩
  | some x =>
    obtain ⟨index, scale, disp⟩ := x
    have hindex := hindex _ hoffset
    have hexists : (∃ x ∈ some (index, scale, disp), gpr? x.1 = some scratch) ↔
      gpr? index = some scratch := by simp
    rw [hexists]
    cases index with
    | stack | addr => exact absurd ⟨rfl, .inl rfl⟩ hindex
    | const c =>
      obtain ⟨folded, hfolded⟩ := Option.isSome_iff_exists.mp (hfold c scale disp hoffset)
      refine ⟨.based base folded, ?_, encodable_based _ _, by simp [Mem.uses, Mem.based, gpr?]⟩
      dsimp only
      rw [displacement32, hfolded]
      rfl
    | reg r kind =>
      dsimp only
      cases hg : gpr? (.reg r kind) with
      | none => exact absurd ⟨rfl, .inl hg⟩ hindex
      | some g =>
        have hrsp : g ≠ .rsp := fun h => hindex ⟨rfl, .inr (h ▸ hg)⟩
        refine ⟨.indexed base g scale.log2 disp, ?_, encodable_indexed hrsp,
          by simp [Mem.uses, Mem.indexed]⟩
        rw [gpr_eq_pure hg, pure_bind, if_neg hrsp]

theorem refused_mem (h : ∃ x ∈ cell.offset, x.1.Unindexable)
    (base : Gpr) : Refused (cell.mem base) := by
  obtain ⟨⟨index, scale, disp⟩, hoffset, hconstant, hindex⟩ := h
  unfold mem
  rw [hoffset]
  cases index with
  | const => cases hconstant
  | stack | addr => exact refused_unhandled _
  | reg r kind =>
    dsimp only
    obtain hnone | hrsp := hindex
    · exact (refused_gpr hnone).bind
    · rw [gpr_eq_pure hrsp, pure_bind, if_pos rfl]
      exact refused_unhandled _

/-- A constant index that has no room in the displacement. -/
theorem mem_eq_error {c : Constant} {scale : Scale} {disp : Int32}
    (hoffset : cell.offset = some (.const c, scale, disp))
    (hfar : int32? (c.folded scale disp).toInt = none) (base : Gpr) (d : Draft) :
    cell.mem base d = .error (.displacementOutOfRange (c.folded scale disp).toInt) d := by
  unfold mem
  rw [hoffset]
  dsimp only
  rw [displacement32, hfar]
  rfl

end Cell

/-! ### Accesses -/

namespace CellAccess

/-- An operand has no code: the pointer cannot be read, the index is none, or the value is not
moved. -/
def Unlowerable (access : CellAccess) : Prop :=
  access.cell.pointer.Unreadable ∨ (∃ x ∈ access.cell.offset, x.1.Unindexable) ∨
    match access.use with
    | .load => access.operand.isConstant = true ∨ access.operand.Unmovable
    | .store => access.operand.Unmovable
    | .address => gpr? access.operand = none

/-- The value and the cell both need the scratch register. -/
def Conflicts (access : CellAccess) : Prop :=
  access.use = .store ∧ access.operand.NeedsRegister ∧ access.cell.OnScratch

/-- All operands are in range. -/
structure InRange (access : CellAccess) (frame : Frame) (size : Nat) : Prop where
  pointer : access.cell.pointer.InRange frame size
  index : access.cell.Foldable
  operand : access.operand.InRange frame size

variable {access : CellAccess}

theorem locates_codeAt {m : Mem} (hm : m.Encodable)
    (huses : m.uses scratch = true ↔ access.cell.OnScratch) (hcan : ¬ access.Unlowerable)
    (hfree : ¬ access.Conflicts) :
    Locates C base nop (access.operand.InRange C.frame base.data.size) (access.codeAt m) := by
  obtain ⟨use, cell, operand⟩ := access
  have hoperand := fun h => hcan (.inr (.inr h))
  cases use with
  | load =>
    have hconstant : operand.isConstant = false := Bool.eq_false_iff.mpr fun h => hoperand (.inl h)
    exact locates_readCell hconstant (fun h => hoperand (.inr h)) (valid_plain hm)
  | store =>
    exact locates_writeCell hoperand (fun h => hfree ⟨rfl, h.1, huses.mp h.2⟩) (valid_plain hm)
  | address =>
    obtain ⟨g, hg⟩ := Option.ne_none_iff_exists'.mp hoperand
    have hcode : CellAccess.codeAt ⟨.address, cell, operand⟩ m =
        position >>= fun pc => emit (.lea true g m) >>= fun _ => pure pc := by
      have hlea : CellAccess.codeAt ⟨.address, cell, operand⟩ m = gpr operand >>= fun g =>
        position >>= fun pc => emit (.lea true g m) >>= fun _ => pure pc := rfl
      rw [hlea, gpr_eq_pure hg, pure_bind]
    rw [hcode]
    exact locates_emit _

/-- An access is lowered where it has code, needs the scratch register once, and is in range. -/
theorem locates_code (hcan : ¬ access.Unlowerable) (hfree : ¬ access.Conflicts) :
    Locates C base nop (access.InRange C.frame base.data.size) access.code := by
  have hpointer : Proceeds C base nop _ (inGpr access.cell.pointer) _ :=
    proceeds_inGpr fun h => hcan (.inl h)
  refine (hpointer.relax fun _ _ h => ⟨h.1, fun hrange => h.2 hrange.pointer⟩).seq
    fun base' hbase => ?_
  by_cases hfold : access.cell.Foldable
  · obtain ⟨m, hmem, hm, huses⟩ :=
      access.cell.mem_eq_pure (fun x hx h => hcan (.inr (.inl ⟨x, hx, h⟩))) hfold hbase
    rw [hmem, pure_bind]
    exact (locates_codeAt hm huses hcan hfree).relax fun _ _ h =>
      ⟨h.1, fun hrange => h.2 hrange.operand⟩
  · simp only [Cell.Foldable, not_forall] at hfold
    obtain ⟨c, scale, disp, hoffset, hfar⟩ := hfold
    have hfar := Option.not_isSome_iff_eq_none.mp hfar
    intro d _
    rw [Step.bind_of_error (Cell.mem_eq_error hoffset hfar base' d)]
    refine ⟨fun _ _ hrun => (by cases hrun), fun err d' hrun => ?_⟩
    cases hrun
    refine ⟨rfl, fun hrange => ?_⟩
    have hroom := hrange.index c scale disp hoffset
    rw [hfar] at hroom
    cases hroom

/-- A store is refused where it has no code or needs the scratch register twice. -/
theorem refused_code (huse : access.use = .store)
    (hpointer : access.cell.pointer.InRange C.frame base.data.size) (hfold : access.cell.Foldable)
    (h : access.Unlowerable ∨ access.Conflicts) :
    Triple (Prolongs C base nop) access.code (fun _ _ => False) fun err _ =>
      err.isUnhandled = true := by
  obtain ⟨use, cell, operand⟩ := access
  obtain rfl : use = .store := huse
  unfold code
  by_cases hread : cell.pointer.Unreadable
  · exact (refused_inGpr hread).bind.triple
  have hbase : Proceeds C base nop _ (inGpr cell.pointer) _ := proceeds_inGpr hread
  refine (hbase.relax fun _ _ h => absurd hpointer h.2).seq fun base' hbase => ?_
  by_cases hindex : ∃ x ∈ cell.offset, x.1.Unindexable
  · exact (Cell.refused_mem hindex base').bind.triple
  obtain ⟨m, hmem, -, huses⟩ := cell.mem_eq_pure (fun x hx h => hindex ⟨x, hx, h⟩) hfold hbase
  rw [hmem, pure_bind]
  refine (refused_writeCell ?_).triple
  obtain (h | h | h) | ⟨-, hneeds, hscratch⟩ := h
  · exact absurd h hread
  · exact absurd h hindex
  · exact .inl h
  · exact .inr ⟨hneeds, huses.mpr hscratch⟩

end CellAccess

/-! ### Micro-operations -/

namespace Lower

variable {x : Expansion} {op : MicroOp} {access : CellAccess}

/-- The first record at an offset that is not in front of the base. -/
theorem proceeds_recordTrap {info : DebugInfo} {pc : Nat} (hpc : base.buffer.position ≤ pc) :
    Proceeds C base nop (nop = true) (recordTrap pc info) fun _ _ => True := by
  refine Triple.bind (q := fun _ d => d.tables.Linked ∧
      (nop = true → ∀ h ∈ d.tables.exceptionHandlers, h.pc < base.buffer.position))
    (triple_record (fun d t hd ht => ?_) fun d err t hd herror => ?_) fun _ =>
      triple_record (fun _ _ _ _ => trivial) fun d err t hd herror => ?_
  · rw [eq_of_keyed ht]
    refine ⟨hd.recorded.linked.push_trap ⟨pc, info⟩, fun hnop h hh => ?_⟩
    subst hnop
    exact hd.recorded.handlers_lt hh
  · obtain ⟨x, hx, hxpc⟩ := hd.recorded.linked.exists_implicitException (keyed_eq_error.mp herror).1
    have htrap := hd.recorded.traps x hx
    omega
  · by_cases hedges : info.edges = []
    · rw [recordHandlers_nil hedges] at herror
      cases herror
    · rw [recordHandlers_eq hedges] at herror
      obtain ⟨hseen, rfl, -⟩ := keyed_eq_error.mp herror
      refine ⟨rfl, fun hnop => ?_⟩
      obtain ⟨x, hx, hxpc⟩ := hd.1.exists_handler hseen
      have hhandler := hd.2 hnop x hx
      omega

theorem proceeds_templateTrap {canTrap : Bool} {pc : Nat} (hpc : base.buffer.position ≤ pc) :
    Proceeds C base nop (canTrap = true → x.info.isSome = true ∧ nop = true)
      (templateTrap x canTrap pc) fun _ _ => True := by
  cases canTrap with
  | false => exact triple_pure fun _ _ => trivial
  | true =>
    cases hinfo : x.info with
    | some info =>
      rw [templateTrap_of hinfo]
      exact (proceeds_recordTrap hpc).relax fun _ _ h =>
        ⟨h.1, fun hrecorded => h.2 (hrecorded rfl).2⟩
    | none =>
      rw [templateTrap, if_pos rfl, Expansion.needInfo, hinfo]
      exact triple_throw fun _ _ => ⟨rfl, fun hrecorded => by cases (hrecorded rfl).1⟩

theorem proceeds_microOp (hop : x.access? op = some access) (hcan : ¬ access.Unlowerable)
    (hfree : ¬ access.Conflicts) :
    Proceeds C base nop (access.InRange C.frame base.data.size ∧
      (op.canTrap = true → x.info.isSome = true ∧ nop = true))
      (microOp x op) fun _ _ => True := by
  rw [microOp_of_access hop]
  have hcode : Locates C base nop _ access.code := CellAccess.locates_code hcan hfree
  exact (hcode.relax fun _ _ h => ⟨h.1, fun hrange => h.2 hrange.1⟩).seq fun pc hpc =>
    (proceeds_templateTrap hpc).relax fun _ _ h => ⟨h.1, fun hrange => h.2 hrange.2⟩

end Lower

namespace Draft.Arrived

variable {target : Target} {frame : Frame} {d : Draft}

theorem prolongs (h : d.Arrived target frame) :
    Prolongs (.of d) d d.target.options.emitNopAfterCall d :=
  ⟨Context.holds_of h.mark, h.settled, Nat.le_refl _⟩

/-- No call returns to the place, and so no exception edges are recorded there. -/
theorem prolongs_of_not_returnsTo (h : d.Arrived target frame)
    (hreturns : ¬ d.tables.ReturnsTo d.buffer.position) :
    Prolongs (.of d) d true d :=
  have hsettled : Recorded d _ d.buffer.position d := h.settled
  ⟨Context.holds_of h.mark, { hsettled with
    handlers := fun x hx =>
      .inl ((hsettled.handlers x hx).resolve_right fun hend => hreturns hend.2.2) }, Nat.le_refl _⟩

end Draft.Arrived

namespace Attempts

variable {target : Target} {source : MethodSource} {x : Expansion} {op : MicroOp}
  {access : CellAccess} {before : Draft}

/-- An access that is in range is lowered, unless exception edges have been recorded for its
offset. -/
theorem exists_microOp_eq_ok (h : Attempts target source x op before)
    (hop : x.access? op = some access) (hcan : ¬ access.Unlowerable) (hfree : ¬ access.Conflicts)
    (hrange : access.InRange source.frame before.data.size)
    (htrap : op.canTrap = true → x.info.isSome = true ∧
      ¬ before.tables.ReturnsTo before.buffer.position) :
    ∃ d', microOp x op before = .ok () d' := by
  have harrived := h.arrived
  obtain ⟨nop, hprolongs, hnop⟩ : ∃ nop, Prolongs (.of before) before nop before ∧
      (op.canTrap = true → x.info.isSome = true ∧ nop = true) := by
    cases hcanTrap : op.canTrap with
    | false => exact ⟨_, harrived.prolongs, nofun⟩
    | true =>
      obtain ⟨hinfo, hreturns⟩ := htrap hcanTrap
      exact ⟨true, harrived.prolongs_of_not_returnsTo hreturns, fun _ => ⟨hinfo, rfl⟩⟩
  have hrange : access.InRange before.frame before.data.size := harrived.frame ▸ hrange
  have hproceeds := proceeds_microOp hop hcan hfree before hprolongs
  cases hrun : microOp x op before with
  | ok u d' => exact ⟨d', rfl⟩
  | error err d' => exact absurd ⟨hrange, hnop⟩ (hproceeds.2 err d' hrun).2

/-- An access whose pointer is out of range fails for that. -/
theorem exists_microOp_eq_error (h : Attempts target source x op before)
    (hop : x.access? op = some access)
    (hpointer : ¬ access.cell.pointer.InRange source.frame before.data.size) :
    ∃ err, microOp x op before = .error err before ∧ err.isOutOfRange = true := by
  rw [← h.arrived.frame] at hpointer
  obtain ⟨err, herror, hfar⟩ := inGpr_eq_error hpointer
  refine ⟨err, ?_, hfar⟩
  rw [microOp_of_access hop]
  exact Step.bind_of_error (Step.bind_of_error herror)

/-- A constant index that has no room in the displacement is reported, once the pointer has been
fetched. -/
theorem exists_microOp_eq_error_of_index {c : Constant} {scale : Scale} {disp : Int32}
    (h : Attempts target source x op before) (hop : x.access? op = some access)
    (hread : ¬ access.cell.pointer.Unreadable)
    (hpointer : access.cell.pointer.InRange source.frame before.data.size)
    (hoffset : access.cell.offset = some (.const c, scale, disp))
    (hfar : int32? (c.folded scale disp).toInt = none) :
    ∃ d', microOp x op before =
      .error (.displacementOutOfRange (c.folded scale disp).toInt) d' := by
  rw [← h.arrived.frame] at hpointer
  have hinGpr := (proceeds_inGpr hread before h.arrived.prolongs).2
  rw [microOp_of_access hop]
  cases hrun : inGpr access.cell.pointer before with
  | ok base d₁ =>
    exact ⟨d₁, Step.bind_of_error
      ((Step.bind_of_ok hrun).trans (Step.bind_of_error (Cell.mem_eq_error hoffset hfar base d₁)))⟩
  | error err d₁ => exact absurd hpointer (hinGpr err d₁ hrun).2

/-- A store is refused exactly if it has no code or needs the scratch register twice, with its
pointer in range. -/
theorem exists_refusal_iff (h : Attempts target source x op before)
    (hop : x.access? op = some access) (huse : access.use = .store) (hfold : access.cell.Foldable) :
    (∃ err d', microOp x op before = .error err d' ∧ err.isUnhandled = true) ↔
      access.cell.pointer.InRange source.frame before.data.size ∧
      (access.Unlowerable ∨ access.Conflicts) := by
  have hprolongs := h.arrived.prolongs
  constructor
  · rintro ⟨err, d', hrun, hunhandled⟩
    by_contra hnot
    rw [not_and_or, not_or] at hnot
    obtain hfar | ⟨hcan, hfree⟩ := hnot
    · obtain ⟨err', herror, hout⟩ := h.exists_microOp_eq_error hop hfar
      cases hrun.symm.trans herror
      rw [Error.isUnhandled_of_isOutOfRange hout] at hunhandled
      cases hunhandled
    · have hhandled := ((proceeds_microOp hop hcan hfree before hprolongs).2 err d' hrun).1
      rw [hhandled] at hunhandled
      cases hunhandled
  · rintro ⟨hpointer, hrefused⟩
    have hpointer : access.cell.pointer.InRange before.frame before.data.size :=
      h.arrived.frame ▸ hpointer
    obtain ⟨hok, herror⟩ := CellAccess.refused_code huse hpointer hfold hrefused before hprolongs
    cases hrun : access.code before with
    | ok pc d' => exact (hok pc d' hrun).elim
    | error err d' =>
      refine ⟨err, d', ?_, herror err d' hrun⟩
      rw [microOp_of_access hop]
      exact Step.bind_of_error hrun

end Attempts

end MachineCode
