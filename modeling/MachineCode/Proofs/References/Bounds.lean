import MachineCode.Proofs.Failures.Methods
import MachineCode.Proofs.References.Checks

/-! Bounds of the data section. Where operations read their operands at the widths of their kinds,
all accesses of a compiled method stay in its data section. An operand that runs past the end keeps
the method from being compiled. -/
namespace MachineCode

open X64 Lower

/-! ### Refusals -/

/-- A value of the kind of `a` starts at `offset` of the data section and ends behind its `size`
bytes. -/
structure Address.RunsPast (a : Address) (offset size : Nat) : Prop where
  base : ∃ start, a.base = .data start ∧ (start : Int) + a.disp.toInt = offset
  index : a.index = none
  range : offset < 2 ^ 32
  past : size < offset + a.kind.size

/-- The operand whose place is looked for before any other, if the registers of the operation are of
the right kind. -/
def Operation.firstPlace? : Operation → Option Operand
  | .move src dst => if inData dst || dst.isConstant then none else some src
  | .logic _ left right result =>
    if left.isRegister && (gpr? result).isSome then some right else none
  | .sqrt value result => if (xmm? result).isSome then some value else none
  | .significantBit _ value result => if (gpr? result).isSome then some value else none
  | .convert op src dst =>
    match op with
    | .i2l | .i2b | .i2c | .i2s | .l2i => if (gpr? dst).isSome then some src else none
    | .i2f | .i2d | .l2f | .l2d | .f2d | .d2f => if (xmm? dst).isSome then some src else none
    | _ => none
  | .compare left _ => if left.kind.isFloating then none else some left
  | .indirectCall address _ | .nativeCall _ address _ => some address
  | .ret value => value
  | _ => none

section Refusals

variable {a : Address} {offset : Nat} {d : Draft} {err : Error}

theorem location_of_runsPast (h : a.RunsPast offset d.data.size) :
    location (.addr a) d = .error (.dataOutOfRange offset d.data.size) d := by
  obtain ⟨kind, base, index, scale, disp⟩ := a
  obtain ⟨⟨start, rfl, hoffset⟩, rfl, hrange, hpast⟩ := h
  unfold location address
  dsimp only at *
  rw [if_neg (by decide), Step.get_bind, hoffset, if_neg (by omega), if_pos (by simpa using hpast)]
  rfl

variable {src : Operand}

/-- A move looks for the place of its source first. -/
theorem mov_of_location (ha : location (.addr a) d = .error err d) {dst : Operand}
    {keepFlags : Bool} (hin : inData dst = false) (hconst : dst.isConstant = false) :
    mov (.addr a) dst keepFlags d = .error err d := by
  unfold mov
  rw [if_neg (by simp [hin])]
  cases dst with
  | const c => cases hconst
  | reg | stack | addr => exact Step.bind_of_error ha

theorem toScratch_of_location (ha : location (.addr a) d = .error err d) :
    toScratch (.addr a) d = .error err d :=
  Step.bind_of_error (mov_of_location ha rfl rfl)

theorem toFloatScratch_of_location (ha : location (.addr a) d = .error err d) :
    toFloatScratch (.addr a) d = .error err d :=
  Step.bind_of_error (mov_of_location ha rfl rfl)

theorem gpr_of_isSome {o : Operand} (h : (gpr? o).isSome = true) (d : Draft) :
    ∃ r, gpr o d = .ok r d := by
  obtain ⟨r, hr⟩ := Option.isSome_iff_exists.mp h
  cases o with
  | reg g kind =>
    refine ⟨r, ?_⟩
    unfold gpr
    simp only [gpr?] at hr
    simp only [hr]
    rfl
  | stack | const | addr => cases hr

theorem xmm_of_isSome {o : Operand} (h : (xmm? o).isSome = true) (d : Draft) :
    ∃ x, xmm o d = .ok x d := by
  obtain ⟨x, hx⟩ := Option.isSome_iff_exists.mp h
  cases o with
  | reg g kind =>
    refine ⟨x, ?_⟩
    unfold xmm
    simp only [xmm?] at hx
    simp only [hx]
    rfl
  | stack | const | addr => cases hx

/-- With a left operand in a register the place of the right one is looked for first. -/
theorem logic_of_location (ha : location (.addr a) d = .error err d) {op : LogicOp}
    {left result : Operand} (hleft : left.isRegister = true)
    (hresult : (gpr? result).isSome = true) :
    logic op left (.addr a) result d = .error err d := by
  obtain ⟨r, hr⟩ := gpr_of_isSome hresult d
  have happly :
      ∀ (op : Binary) (wide : Bool), applyBinary op wide r (.addr a) d = .error err d := by
    intro op wide
    unfold applyBinary
    dsimp only
    split
    · exact Step.bind_of_error (toScratch_of_location ha)
    · exact Step.bind_of_error ha
  have hbind : ∀ f : Gpr → Lower Unit, (gpr result >>= f) d = f r d := fun f => Step.bind_of_ok hr
  unfold logic binary
  rw [hbind]
  by_cases hsame : left.register? = result.register?
  · rw [if_pos hsame]
    have hmov : mov left result false d = .ok () d := by
      cases left with
      | stack | const | addr => cases hleft
      | reg g kind =>
        cases result with
        | stack | const | addr => cases hresult
        | reg g' kind' =>
          cases hsame
          change registerToRegister g g kind d = _
          rw [registerToRegister, if_pos rfl]
          rfl
    exact (Step.bind_of_ok hmov).trans (happly _ _)
  · have hright : (Operand.addr a).register? ≠ result.register? := by
      cases result with
      | stack | const | addr => cases hresult
      | reg g' kind' => nofun
    rw [if_neg hsame, if_neg hright]
    exact Step.bind_of_error (Step.bind_of_error ha)

theorem lower_of_location {op : Operation} (hop : op.firstPlace? = some (.addr a))
    (ha : location (.addr a) d = .error err d) : lower op d = .error err d := by
  cases op with
  | move src dst =>
    simp only [Operation.firstPlace?, Option.ite_none_left_eq_some, Bool.or_eq_true, not_or,
      Bool.not_eq_true, Option.some.injEq] at hop
    obtain ⟨⟨hin, hconst⟩, rfl⟩ := hop
    exact mov_of_location ha hin hconst
  | logic op left right result =>
    simp only [Operation.firstPlace?, Option.ite_none_right_eq_some, Bool.and_eq_true,
      Option.some.injEq] at hop
    obtain ⟨⟨hleft, hresult⟩, rfl⟩ := hop
    exact logic_of_location ha hleft hresult
  | sqrt value result =>
    simp only [Operation.firstPlace?, Option.ite_none_right_eq_some, Option.some.injEq] at hop
    obtain ⟨hresult, rfl⟩ := hop
    obtain ⟨x, hx⟩ := xmm_of_isSome hresult d
    exact (Step.bind_of_ok hx).trans (Step.bind_of_error ha)
  | significantBit most value result =>
    simp only [Operation.firstPlace?, Option.ite_none_right_eq_some, Option.some.injEq] at hop
    obtain ⟨hresult, rfl⟩ := hop
    obtain ⟨r, hr⟩ := gpr_of_isSome hresult d
    exact (Step.bind_of_ok hr).trans (Step.bind_of_error (toScratch_of_location ha))
  | convert op src dst =>
    simp only [Operation.firstPlace?] at hop
    cases op with
    | i2l | i2b | i2c | i2s | l2i =>
      simp only [Option.ite_none_right_eq_some, Option.some.injEq] at hop
      obtain ⟨hdst, rfl⟩ := hop
      obtain ⟨r, hr⟩ := gpr_of_isSome hdst d
      exact (Step.bind_of_ok hr).trans (Step.bind_of_error ha)
    | i2f | i2d | l2f | l2d =>
      simp only [Option.ite_none_right_eq_some, Option.some.injEq] at hop
      obtain ⟨hdst, rfl⟩ := hop
      obtain ⟨x, hx⟩ := xmm_of_isSome hdst d
      exact (Step.bind_of_ok hx).trans (Step.bind_of_error (toScratch_of_location ha))
    | f2d | d2f =>
      simp only [Option.ite_none_right_eq_some, Option.some.injEq] at hop
      obtain ⟨hdst, rfl⟩ := hop
      obtain ⟨x, hx⟩ := xmm_of_isSome hdst d
      exact (Step.bind_of_ok hx).trans (Step.bind_of_error (toFloatScratch_of_location ha))
    | f2i | f2l | d2i | d2l | movI2F | movF2I | movL2D | movD2L => cases hop
  | compare left right =>
    simp only [Operation.firstPlace?, Option.ite_none_left_eq_some, Option.some.injEq] at hop
    obtain ⟨hkind, rfl⟩ := hop
    change Lower.compare _ _ d = _
    unfold Lower.compare
    dsimp only
    rw [if_neg hkind]
    exact Step.bind_of_error ha
  | indirectCall address info =>
    cases hop
    exact Step.bind_of_error (toScratch_of_location ha)
  | nativeCall symbol address info =>
    cases hop
    exact Step.bind_of_error (toScratch_of_location ha)
  | ret value =>
    cases hop
    refine Step.bind_of_error (mov_of_location ha rfl rfl)
  | _ => cases hop

end Refusals

/-! ### Methods -/

/-- A method whose lowering gets to an operation that is refused is refused. -/
theorem method_of_reaches {constants : List DataConstant} {ops : List Operation} {d e e' : Draft}
    {op : Operation} {err : Error} (h : Reaches constants ops d (.operation op) e)
    (herror : operation op e = .error err e') : method constants ops d = .error err e' := by
  cases h with
  | @front pre post _ _ hsources hrun =>
    have hfront : (preparation constants ops >>= fun _ =>
        (Source.prologue :: ops.map .operation).forM Source.lower) d = .error err e' := by
      obtain ⟨_, d₁, hprepare, hpre⟩ := Step.bind_eq_ok.mp hrun
      rw [Step.bind_of_ok hprepare, hsources, List.forM_eq_forM, List.forM_append,
        ← List.forM_eq_forM, Step.bind_of_ok hpre]
      exact Step.bind_of_error herror
    rw [method_eq, body_eq]
    refine Step.bind_of_error ?_
    obtain hprepare | ⟨_, d₁, hprepare, hsources⟩ := Step.bind_eq_error.mp hfront
    · exact Step.bind_of_error hprepare
    · exact (Step.bind_of_ok hprepare).trans (Step.bind_of_error hsources)

theorem operation_of_runsPast {op : Operation} {a : Address} {offset : Nat} {e : Draft}
    (hop : op.firstPlace? = some (.addr a)) (h : a.RunsPast offset e.data.size) :
    ∃ e', operation op e = .error (.dataOutOfRange offset e.data.size) e' := by
  let started := { e with current := op.name }
  have hlower : lower op started = .error (.dataOutOfRange offset e.data.size) started :=
    lower_of_location hop (location_of_runsPast h)
  exact ⟨started, operation_of_error hlower⟩

/-- Operands of a compiled method lie inside its data section, and so do accesses if the operations
read their operands as wide as they are. An operand that runs past the end is refused. -/
theorem inside_of_method {target : Target} {frame : Frame} {name : String} {id : Option UInt32}
    {constants : List DataConstant} {ops : List Operation} {d : Draft}
    (hd : Draft.start target frame name id = .ok d) :
    (∀ m d', method constants ops d = .ok m d' →
      (∀ op ∈ ops, ∀ o ∈ op.operands, o.Inside m.data.size) ∧
      ((∀ op ∈ ops, op.Agrees) →
        ∀ x ∈ m.tables.relocations, ∀ offset stop, x.kind = .data offset stop →
        ∃ start i size, start < x.offset ∧ x.offset + 4 ≤ stop ∧ m.DecodesAt start stop i ∧
          i.mem? = some (.rip 0, size) ∧ offset + size ≤ m.data.size)) ∧
    ∀ op e a offset, Reaches constants ops d (.operation op) e → op.firstPlace? = some (.addr a) →
      a.RunsPast offset e.data.size →
      ∃ d', method constants ops d = .error (.dataOutOfRange offset e.data.size) d' := by
  refine ⟨fun m d' hm => ?_, fun op e a offset hreaches hop hpast => ?_⟩
  · obtain ⟨-, -, hcompleted⟩ := tidy_of_method False.elim hd hm
    have hsize : m.data.size = d'.data.size := congrArg Array.size hcompleted.data
    refine ⟨fun op hop o ho => ?_, fun hagrees x hx offset stop hkind => ?_⟩
    · exact hsize ▸ checks_method hop ho d m d' (Nat.zero_le _) (tidy_start hd) hm
    · obtain ⟨htidy, -, hcompleted⟩ := tidy_of_method (fun _ : True => hagrees) hd hm
      obtain ⟨start, i, hlow, hhigh, hdecodes, hmem, hfits⟩ :=
        htidy.exists_access hcompleted hx hkind
      obtain ⟨size, hi⟩ := Instr.exists_mem?_decoded hmem
      have hinside := hfits.inside trivial
      rw [Decoded.accessSize, hi] at hinside
      exact ⟨start, i.decoded, size, hlow, hhigh, hdecodes, hi, hinside⟩
  · obtain ⟨e', herror⟩ := operation_of_runsPast hop hpast
    exact ⟨e', method_of_reaches hreaches herror⟩

/-- A load from a section of 8 bytes, and one of the same kind that starts at its last byte. -/
theorem inside_of_method_load :
    let load (offset : Nat) : Operation :=
  .move (.addr (.ofData .long offset)) (.reg ⟨.general, 0⟩ .long)
    let constants : List DataConstant := [⟨[1, 2, 3, 4, 5, 6, 7, 8], 8⟩]
    let journal := (Journal.start "load" none []).log (.compiling "load" none 0 0)
    let d : Draft :=
      ⟨⟨Options.standard, ⟨true, true⟩, 4096⟩, .empty, .empty, .empty, .empty, #[],
        journal, "prologue"⟩
    Draft.start d.target .empty "load" none = .ok d ∧
      (∃ m d', method constants [load 0] d = .ok m d' ∧ m.tables.relocations.size = 1 ∧
        ∀ x ∈ m.tables.relocations, ∀ offset stop, x.kind = .data offset stop →
          ∃ start i size, start < x.offset ∧ x.offset + 4 ≤ stop ∧ m.DecodesAt start stop i ∧
            i.mem? = some (.rip 0, size) ∧ offset + size ≤ m.data.size) ∧
      ∃ d', method constants [load 7] d = .error (.dataOutOfRange 7 8) d' := by
  intro load constants journal d
  have hd : Draft.start d.target .empty "load" none = .ok d := rfl
  refine ⟨hd, ?_, ?_⟩
  · have hsize : Step.succeeds (fun m _ => m.tables.relocations.size == 1)
        (method constants [load 0] d) = true := by
      decide +kernel
    obtain ⟨m, d', hm, hsize⟩ := Step.exists_of_succeeds hsize
    have hagrees : ∀ op ∈ [load 0], op.Agrees := List.forall_mem_singleton.mpr trivial
    exact ⟨m, d', hm, beq_iff_eq.mp hsize, (((inside_of_method hd).1 m d' hm).2 hagrees)⟩
  · have hsize : Step.succeeds (fun _ e => e.data.size == 8)
        ((preparation constants [load 7] >>= fun _ => [Source.prologue].forM Source.lower)
          d) = true := by
      decide +kernel
    obtain ⟨u, e, he, hsize⟩ := Step.exists_of_succeeds hsize
    have hsize : e.data.size = 8 := beq_iff_eq.mp hsize
    have hreaches : Reaches constants [load 7] d (.operation (load 7)) e := .front rfl he
    have hpast : (Address.ofData .long 7).RunsPast 7 e.data.size :=
      ⟨⟨7, rfl, rfl⟩, rfl, by decide, by rw [hsize]; decide⟩
    rw [← hsize]
    exact (inside_of_method hd).2 (load 7) e _ 7 hreaches rfl hpast

end MachineCode
