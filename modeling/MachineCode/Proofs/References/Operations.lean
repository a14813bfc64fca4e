import MachineCode.Compile
import MachineCode.Proofs.References.Lowering

/-! Lowering keeps references in order: conversions, branches, frame code, calls, templates and
whole operations. -/
namespace MachineCode.Lower

open X64 SideTables

variable {strict : Prop} {n : Nat} {l : Location} {o : Operand}

/-! ### Conversions -/

theorem accessSize_extend (ext : Extension) (dst : Gpr) (m : Mem) :
    (Instr.extend ext dst (.mem m)).decoded.accessSize = ext.source.bytes := by
  cases ext <;> rfl

theorem bytes_source_le (ext : Extension) : ext.source.bytes ≤ 8 := by cases ext <;> decide

theorem snug_extend {ext : Extension} {src dst : Operand}
    (h : strict → src.Supplies ext.source.bytes) :
    Snug strict n (extend ext src dst) := by
  unfold extend
  refine (snug_gpr _).bind fun d => ?_
  split
  · exact (snug_gpr _).bind fun _ => snug_emit _
  · exact snug_emit _
  · refine snug_location fun l k _ hl => Snug.discard
      (snug_at (i := fun m => .extend ext d (.mem m)) hl (fun _ => rfl) ?_ ?_)
    · exact accessSize_extend ext d _ ▸ bytes_source_le ext
    · exact accessSize_extend ext d _ ▸ h

theorem snug_narrow {src dst : Operand} (h : strict → src.Supplies 4) :
    Snug strict n (narrow src dst) := by
  unfold narrow
  refine (snug_gpr _).bind fun d => ?_
  split
  · exact (snug_gpr _).bind fun _ => snug_emit _
  · exact snug_location fun l k _ hl => Snug.discard
      (snug_at (i := .load false d) hl (fun _ => rfl) (by decide : 4 ≤ 8) h)

theorem snug_intToFloat (double long : Bool) (src dst : Operand) :
    Snug strict n (intToFloat double long src dst) :=
  (snug_xmm _).bind fun _ => (snug_inGpr _).bind fun _ => snug_emit _

theorem snug_floatToFloat (toDouble : Bool) (src dst : Operand) :
    Snug strict n (floatToFloat toDouble src dst) :=
  (snug_xmm _).bind fun _ => (snug_inXmm _).bind fun _ => snug_emit _

theorem snug_truncate (double long : Bool) (src dst : Operand) :
    Snug strict n (truncate double long src dst) := by
  unfold truncate
  refine (snug_xmm _).bind fun s => (snug_gpr _).bind fun d => (snug_emit _).bind fun _ => ?_
  extract_lets behind
  have hbehind : ∀ u, Snug strict n (behind u) := fun _ =>
    snug_newLabel.bind fun entry => snug_newLabel.bind fun resume => (snug_jcc _ _).bind fun _ =>
      (snug_bind _).bind fun _ => snug_enqueue fun _ => trivial
  split
  · exact (snug_emit _).bind fun _ => (snug_emit _).bind hbehind
  · exact (snug_emit _).bind hbehind

theorem snug_convertFixup (entry resume : Label) (src : Xmm) (dst : Gpr) (double long : Bool) :
    Snug strict n (convertFixup entry resume src dst double long) :=
  snug_newLabel.bind fun _ => (snug_bind _).bind fun _ => (snug_emit _).bind fun _ =>
    (snug_jccShort _ _).bind fun _ => (snug_emit _).bind fun _ => (snug_emit _).bind fun _ =>
    (snug_jcc _ _).bind fun _ => (snug_emit _).bind fun _ => (snug_jmp _).bind fun _ =>
    (snug_bind _).bind fun _ => (snug_emit _).bind fun _ => snug_jmp _

theorem snug_convert {op : ConvertOp} {src dst : Operand} (h : strict → src.Supplies op.readSize) :
    Snug strict n (convert op src dst) := by
  cases op with
  | i2l | i2b | i2c | i2s => exact snug_extend h
  | l2i => exact snug_narrow h
  | i2f | i2d | l2f | l2d => exact snug_intToFloat _ _ _ _
  | f2d | d2f => exact snug_floatToFloat _ _ _
  | f2i | f2l | d2i | d2l => exact snug_truncate _ _ _ _
  | movI2F | movL2D => exact (snug_xmm _).bind fun _ => (snug_gpr _).bind fun _ => snug_emit _
  | movF2I | movD2L => exact (snug_gpr _).bind fun _ => (snug_xmm _).bind fun _ => snug_emit _

/-! ### Branches -/

theorem snug_branch (cond : Option Condition) (target : Label) :
    Snug strict n (branch cond target) := by
  cases cond with
  | none => exact snug_jmp _
  | some cond => exact snug_jcc _ _

theorem snug_floatBranch (cond : Condition) (target unordered : Label) :
    Snug strict n (floatBranch cond target unordered) :=
  (snug_jcc _ _).bind fun _ => snug_jcc _ _

/-- Padding leads to a multiple of the alignment. -/
theorem dvd_add_length_padding {position align : Nat} (h : 1 < align) :
    align ∣ position + (padding position align).length := by
  rw [padding, if_pos h, length_nops]
  have hlt : position % align < align := Nat.mod_lt _ (Nat.lt_of_succ_lt h)
  apply Nat.dvd_of_mod_eq_zero
  rw [← Nat.mod_add_mod, Nat.add_mod_mod]
  obtain hzero | hpos := Nat.eq_zero_or_pos (position % align)
  · rw [hzero, Nat.zero_add, Nat.sub_zero, Nat.mod_self]
  · rw [Nat.add_sub_cancel' (Nat.le_of_lt hlt), Nat.mod_self]

/-- The table stands at a multiple of the size of its entries. -/
theorem snug_table {low high : Int32} {targets : List Label} : Snug strict n (do
    emitAlign tableEntrySize
    let table ← position
    targets.forM fun l => onBuffer (CodeBuffer.reference l (.table table))
    record (SideTables.recordJumpTable ⟨table, low, high, tableEntrySize⟩)) := by
  intro d u d' hn hd hrun
  obtain ⟨_, d₁, h₁, hrun⟩ := Step.bind_eq_ok.mp hrun
  obtain ⟨table, d₂, h₂, hrun⟩ := Step.bind_eq_ok.mp hrun
  obtain ⟨_, d₃, h₃, hrun⟩ := Step.bind_eq_ok.mp hrun
  obtain ⟨t, ht, rfl⟩ := record_eq_ok.mp hrun
  obtain ⟨hlater₁, hd₁⟩ := snug_emitAlign tableEntrySize d _ d₁ hn hd h₁
  obtain ⟨rfl, rfl⟩ := position_eq_ok.mp h₂
  have hentries : Snug strict n (targets.forM fun l =>
      onBuffer (CodeBuffer.reference l (.table d₁.buffer.position))) :=
    snug_forM fun l _ => snug_bufferOp (.tableEntry l _)
  obtain ⟨hlater₃, hd₃⟩ := hentries d₁ _ d₃ (Nat.le_trans hn hlater₁.size) hd₁ h₃
  cases eq_of_keyed ht
  have halign : 4 ∣ d₁.buffer.position := by
    obtain ⟨p, d₀, h₀, h₁⟩ := Step.bind_eq_ok.mp h₁
    obtain ⟨rfl, rfl⟩ := position_eq_ok.mp h₀
    cases emitBytes_eq_ok.mp h₁
    rw [CodeBuffer.position_append]
    exact dvd_add_length_padding (by decide)
  exact ⟨hlater₁.trans ⟨hlater₃.size, hlater₃.target⟩,
    { hd₃ with tables := Array.forall_mem_push.mpr ⟨halign, hd₃.tables⟩ }⟩

theorem snug_tableSwitch (index : Operand) (low : Int32) (targets : List Label) (default : Label) :
    Snug strict n (tableSwitch index low targets default) := by
  unfold tableSwitch
  refine (snug_gpr index).bind fun idx => ?_
  split
  · exact snug_unhandled _
  · split
    · exact snug_jmp _
    · split
      · exact snug_unhandled _
      · split
        · exact snug_unhandled _
        · extract_lets address jump behind
          have hbehind : ∀ u, Snug strict n (behind u) := fun _ => (snug_emit _).bind fun _ =>
            (snug_jcc _ _).bind fun _ => snug_position.bind fun p => (snug_emit _).bind fun _ =>
            (snug_forM fun i _ => snug_emit i).bind fun _ => snug_table
          split
          · exact (snug_emit _).bind hbehind
          · exact (snug_emit _).bind hbehind

theorem snug_preloaded (second result : Operand) : Snug strict n (preloaded second result) := by
  unfold preloaded
  split
  · exact snug_pure _
  · dsimp only
    split
    · refine snug_location fun l k _ hl => ?_
      split
      · exact (snug_toScratch second).bind fun _ => snug_pure _
      · exact snug_pure _
    · exact snug_pure _

/-- A conditional move takes a value at the width of its kind. -/
theorem bytes_of_cmovWide? {src : Operand} {wide : Bool} (h : cmovWide? src = some wide)
    (hin : inData src = true) : (Width.ofWide wide).bytes = src.kind.size := by
  cases src with
  | reg | const | stack => cases hin
  | addr a =>
    obtain ⟨kind, base, index, scale, disp⟩ := a
    revert h
    cases kind <;> simp only [cmovWide?, reduceCtorEq, Option.some.injEq, false_imp_iff] <;>
      rintro rfl <;> rfl

theorem snug_cmov {cond : Cond} {wide : Bool} {dst : Gpr} {src : Operand}
    (h : cmovWide? src = some wide) : Snug strict n (cmov cond wide dst src) := by
  unfold cmov
  split
  · exact (snug_gpr _).bind fun _ => snug_emit _
  · exact snug_location fun l k _ hl => Snug.discard
      (snug_at (i := fun m => .cmov cond wide dst (.mem m)) hl (fun _ => rfl) (bytes_ofWide_le wide)
        fun _ hin => Nat.le_of_eq (bytes_of_cmovWide? h hin))

theorem snug_selectByBranch (s : Selection) (second : Operand) (unorderedIsTrue : Option Bool)
    (result : Operand) : Snug strict n (selectByBranch s second unorderedIsTrue result) := by
  unfold selectByBranch
  refine snug_newLabel.bind fun skip => ?_
  extract_lets keepFirst last
  have hlast : ∀ u, Snug strict n (last u) := fun _ => (snug_mov _ _ _).bind fun _ => snug_bind _
  split
  · exact snug_newLabel.bind fun move => (snug_jcc _ _).bind fun _ => (snug_jcc _ _).bind fun _ =>
      (snug_bind _).bind hlast
  · exact (snug_jcc _ _).bind hlast

/-- The second value is taken by a conditional move if the processor has one that fits. -/
theorem snug_second (s : Selection) (second : Operand) (unorderedIsTrue : Option Bool)
    (result : Operand) : Snug strict n (do
      let hasCmov := (← get).target.features.cmov && unorderedIsTrue.isNone
      match gpr? result, cmovWide? second with
      | some res, some wide =>
        if hasCmov then cmov (.ofCondition s.takeSecond) wide res second
        else selectByBranch s second unorderedIsTrue result
      | _, _ => selectByBranch s second unorderedIsTrue result) := by
  refine snug_get.bind fun d => ?_
  dsimp only
  split
  · rename_i hwide
    split
    · exact snug_cmov hwide
    · exact snug_selectByBranch _ _ _ _
  · exact snug_selectByBranch _ _ _ _

theorem snug_condMove (cond : Condition) (unorderedIsTrue : Option Bool)
    (trueValue falseValue result : Operand) :
    Snug strict n (condMove cond unorderedIsTrue trueValue falseValue result) :=
  (snug_preloaded _ _).bind fun _ => (snug_mov _ _ _).bind fun _ => snug_second _ _ _ _

/-! ### The frame -/

theorem snug_bangPages (page count i : Nat) : Snug strict n (bangPages page count i) := by
  induction count generalizing i with
  | zero => exact snug_pure ()
  | succ count ih => exact (snug_ofExcept _).bind fun _ => (snug_emit _).bind fun _ => ih (i + 1)

theorem snug_bangStack : Snug strict n bangStack := snug_get.bind fun _ => snug_bangPages _ _ _

theorem snug_forSaved (general : Gpr → Mem → Instr) (floating : Xmm → Mem → Instr) :
    Snug strict n (forSaved general floating) := by
  unfold forSaved
  exact snug_get.bind fun d => snug_forM fun x _ => (snug_ofExcept _).bind fun _ => snug_emit _

theorem snug_pushFrame : Snug strict n pushFrame := by
  have hsave : Snug strict n (forSaved (.store true) (.movsStore true)) := snug_forSaved _ _
  unfold pushFrame
  refine snug_get.bind fun d => ?_
  have hzap : Snug strict n (if d.target.options.zapStackOnEntry then do
      (List.range ((d.frame.size + 3) / 4)).forM fun i => emit (zapInstr (4 * i))
      forSaved (.store true) (.movsStore true)
    else forSaved (.store true) (.movsStore true)) := by
    split
    · exact (snug_forM fun i _ => snug_emit _).bind fun _ => hsave
    · exact hsave
  simp only []
  split
  · split
    · exact (snug_throw _).bind fun _ => hzap
    · exact (snug_emit _).bind fun _ => hzap
  · exact hzap

theorem snug_popFrame : Snug strict n popFrame := by
  unfold popFrame
  refine (snug_forSaved _ _).bind fun _ => snug_get.bind fun d => ?_
  dsimp only
  split
  · exact snug_emit _
  · exact snug_pure ()

theorem snug_ret (value : Option Operand) : Snug strict n (ret value) := by
  have hpop : ∀ u : Unit, Snug strict n (do popFrame; emit .ret) := fun _ =>
    snug_popFrame.bind fun _ => snug_emit _
  cases value with
  | none => exact hpop ()
  | some value => exact (snug_mov _ _ _).bind hpop

theorem snug_frameAddress (res : Gpr) (offset : Nat) : Snug strict n (frameAddress res offset) :=
  (snug_stackMem offset).bind fun _ => snug_emit _

theorem snug_monitorAddress (index : Nat) (result : Operand) :
    Snug strict n (monitorAddress index result) := by
  unfold monitorAddress
  refine (snug_gpr _).bind fun res => snug_get.bind fun d => ?_
  dsimp only
  split
  · exact snug_unhandled _
  · exact snug_frameAddress _ _

theorem snug_stackAllocate (block : Nat) (result : Operand) :
    Snug strict n (stackAllocate block result) := by
  unfold stackAllocate
  refine (snug_gpr _).bind fun res => snug_get.bind fun d => ?_
  dsimp only
  split
  · exact snug_unhandled _
  · exact snug_frameAddress _ _

/-! ### Calls -/

theorem snug_recordCall (start : Nat) (target : Option CallTarget) (info : Option DebugInfo)
    (direct : Bool) : Snug strict n (recordCall start target info direct) := by
  unfold recordCall
  refine snug_position.bind fun pc =>
    Snug.bind (snug_record fun t t' ht => by cases eq_of_keyed ht; exact ⟨rfl, rfl⟩) fun _ => ?_
  cases info with
  | none => exact snug_pure ()
  | some info => exact snug_recordHandlers _ _

theorem snug_nopAfterCall : Snug strict n nopAfterCall := by
  unfold nopAfterCall
  refine snug_get.bind fun d => ?_
  split
  · exact snug_emitBytes _
  · exact snug_pure ()

/-- The padding in front of a direct call puts its displacement on a multiple of 4. -/
theorem dvd_add_callPadding (position : Nat) : 4 ∣ position + callPadding position + 1 := by
  unfold callPadding
  omega

/-- A call whose displacement is aligned if the target asks for it. -/
theorem tidy_emitCall {target : CallTarget} {d d' : Draft} (hd : Tidy strict d)
    (halign : d.target.options.alignDirectCalls = true → 4 ∣ d.buffer.position + 1)
    (hrun : emitLinked .call (fun field => SideTables.recordCallTarget field target) d =
      .ok () d') :
    d.Later d' ∧ Tidy strict d' := by
  obtain ⟨t, ht, rfl⟩ := emitLinked_eq_ok hrun
  cases eq_of_keyed ht
  exact ⟨⟨Nat.le_refl _, rfl⟩, hd.push rfl rfl (fun _ _ => nofun) fun hcalls _ _ => halign hcalls⟩

theorem snug_directCall (target : CallTarget) (info : Option DebugInfo) :
    Snug strict n (directCall target info) := by
  have hrest : ∀ start, Snug strict n (do recordCall start (some target) info true; nopAfterCall) :=
    fun start => (snug_recordCall _ _ _ _).bind fun _ => snug_nopAfterCall
  have hcall : ∀ {d d' : Draft} {u : Unit}, Tidy strict d → n ≤ d.data.size →
      (d.target.options.alignDirectCalls = true → 4 ∣ d.buffer.position + 1) →
      (do
        let start ← position
        emitLinked .call fun field => SideTables.recordCallTarget field target
        recordCall start (some target) info true
        nopAfterCall) d = .ok u d' → d.Later d' ∧ Tidy strict d' := by
    intro d d' u hd hn halign hrun
    obtain ⟨start, d₁, h₁, hrun⟩ := Step.bind_eq_ok.mp hrun
    obtain ⟨-, rfl⟩ := position_eq_ok.mp h₁
    obtain ⟨_, d₂, h₂, hrun⟩ := Step.bind_eq_ok.mp hrun
    obtain ⟨hlater, hd₂⟩ := tidy_emitCall hd halign h₂
    obtain ⟨hlater', hd'⟩ := hrest start d₂ _ d' (Nat.le_trans hn hlater.size) hd₂ hrun
    exact ⟨hlater.trans hlater', hd'⟩
  intro d u d' hn hd hrun
  unfold directCall at hrun
  rw [Step.get_bind] at hrun
  dsimp only at hrun
  split at hrun
  · obtain ⟨p, d₁, h₁, hrun⟩ := Step.bind_eq_ok.mp hrun
    obtain ⟨rfl, rfl⟩ := position_eq_ok.mp h₁
    obtain ⟨_, d₂, h₂, hrun⟩ := Step.bind_eq_ok.mp hrun
    obtain ⟨-, hd₂⟩ := snug_emitBytes _ d _ d₂ hn hd h₂
    cases emitBytes_eq_ok.mp h₂
    have halign : 4 ∣ (d.buffer.append (nops (callPadding d.buffer.position))).position + 1 := by
      rw [CodeBuffer.position_append, length_nops]
      exact dvd_add_callPadding _
    obtain ⟨hlater, hd'⟩ := hcall hd₂ hn (fun _ => halign) hrun
    exact ⟨⟨hlater.size, hlater.target⟩, hd'⟩
  · rename_i halign
    exact hcall hd hn (fun h => absurd h halign) hrun

theorem snug_indirectCall (address : Operand) (target : Option CallTarget) (info : DebugInfo) :
    Snug strict n (indirectCall address target info) :=
  (snug_inGpr _).bind fun _ => snug_position.bind fun _ => (snug_emit _).bind fun _ =>
    (snug_recordCall _ _ _ _).bind fun _ => snug_nopAfterCall

theorem snug_throwException (unwind : Bool) (info : DebugInfo) :
    Snug strict n (throwException unwind info) := by
  unfold throwException
  refine (snug_directCall _ _).bind fun _ => snug_get.bind fun d => ?_
  split
  · exact snug_emitBytes _
  · exact snug_pure ()

theorem snug_safepoint (info : DebugInfo) : Snug strict n (safepoint info) :=
  snug_position.bind fun _ =>
    Snug.bind (snug_record fun t t' ht => by cases eq_of_keyed ht; exact ⟨rfl, rfl⟩) fun _ =>
      snug_emit _

theorem snug_nullCheck (object : Operand) (info : DebugInfo) :
    Snug strict n (nullCheck object info) :=
  (snug_gpr _).bind fun _ => snug_position.bind fun _ =>
    (snug_emit _).bind fun _ => snug_recordTrap _ _

theorem snug_lea (address result : Operand) : Snug strict n (lea address result) :=
  (snug_gpr _).bind fun res => snug_location fun l k _ hl => Snug.discard
    (snug_at (i := .lea true res) hl (fun _ => rfl) (by decide : 0 ≤ 8) fun _ _ => Nat.zero_le _)

theorem snug_compareAndSwap (cell expected newValue : Operand) :
    Snug strict n (compareAndSwap cell expected newValue) := by
  unfold compareAndSwap
  split
  · exact snug_unhandled _
  · rename_i wide hwide
    have hsize : (Width.ofWide wide).bytes = cell.kind.size := by
      revert hwide
      cases cell.kind <;> rintro ⟨⟩ <;> rfl
    refine (snug_gpr _).bind fun old => ?_
    split
    · exact snug_unhandled _
    · refine (snug_gpr _).bind fun new => snug_location fun l k _ hl => ?_
      split
      · exact snug_unhandled _
      · exact Snug.discard (snug_at (i := (.cmpxchg true wide · new)) hl (fun _ => rfl)
          (bytes_ofWide_le wide) fun _ _ => Nat.le_of_eq hsize)

theorem snug_memoryBarrier (barriers : Barriers) : Snug strict n (memoryBarrier barriers) := by
  unfold memoryBarrier
  split
  · exact snug_emit _
  · exact snug_pure ()

end MachineCode.Lower
