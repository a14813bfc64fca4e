import MachineCode.Proofs.Labels.Hygiene
import MachineCode.Proofs.References.Operations

/-! References of whole methods. Templates and operations keep them in order, and so does a
method. -/
namespace MachineCode.Lower

open X64 SideTables

variable {strict : Prop} {n : Nat}

/-! ### Templates -/

theorem snug_operand (x : Expansion) (index : Nat) : Snug strict n (x.operand index) := by
  unfold Expansion.operand
  split
  · exact snug_pure _
  · exact snug_throw _

theorem operand_eq_ok {x : Expansion} {index : Nat} {o : Operand} {d d' : Draft}
    (hrun : x.operand index d = .ok o d') : o ∈ x.operands[index]? := by
  unfold Expansion.operand at hrun
  cases ho : x.operands[index]? with
  | none =>
    rw [ho] at hrun
    cases hrun
  | some o' =>
    rw [ho] at hrun
    cases hrun
    rfl

theorem snug_label (x : Expansion) (index : Nat) : Snug strict n (x.label index) := by
  unfold Expansion.label
  split
  · exact snug_pure _
  · exact snug_unhandled _

theorem snug_needInfo (x : Expansion) (what : String) : Snug strict n (x.needInfo what) := by
  unfold Expansion.needInfo
  split
  · exact snug_pure _
  · exact snug_throw _

theorem snug_templateBinary {op : TemplateBinary} {a b result : Operand} {info : Option DebugInfo}
    (h : strict → op.Agrees a b result) : Snug strict n (templateBinary op a b result info) := by
  cases op with
  | add | sub | mul | div | rem => exact snug_arith h
  | and | or | xor => exact snug_binary h
  | shl | shr | ushr => exact snug_shift _ _ _ _

/-- The place of a cell is computed from registers. -/
theorem encodable_of_cell {x : Expansion} {pointer index : Nat} {scale : Scale} {disp : Int32}
    {m : Mem} {d d' : Draft}
    (hrun : cell x pointer index scale disp d = .ok m d') : m.Encodable := by
  unfold cell at hrun
  obtain ⟨i, d₁, -, hrun⟩ := Step.bind_eq_ok.mp hrun
  obtain ⟨p, d₂, -, hrun⟩ := Step.bind_eq_ok.mp hrun
  obtain ⟨base, d₃, -, hrun⟩ := Step.bind_eq_ok.mp hrun
  split at hrun
  · obtain ⟨_, d₄, -, hrun⟩ := Step.bind_eq_ok.mp hrun
    cases hrun
    exact encodable_based _ _
  · obtain ⟨r, d₄, -, hrun⟩ := Step.bind_eq_ok.mp hrun
    split at hrun
    · exact absurd hrun unhandled_ne_ok
    · rename_i hr
      cases hrun
      exact encodable_indexed hr
  · exact absurd hrun unhandled_ne_ok

theorem snug_cell (x : Expansion) (pointer index : Nat) (scale : Scale) (disp : Int32) :
    Snug strict n (cell x pointer index scale disp) := by
  unfold cell
  refine (snug_operand x index).bind fun i => (snug_operand x pointer).bind fun p =>
    (snug_inGpr p).bind fun base => ?_
  split
  · exact (snug_ofExcept _).bind fun _ => snug_pure _
  · refine (snug_gpr _).bind fun r => ?_
    split
    · exact snug_unhandled _
    · exact snug_pure _
  · exact snug_unhandled _

theorem snug_readCell {m : Mem} (hm : m.Encodable) (result : Operand) :
    Snug strict n (readCell (.plain m) result) := by
  unfold readCell
  dsimp only
  split
  · exact snug_load (o := .reg _ _) (.plain hm n _)
  · exact snug_unhandled _
  · exact (snug_loadGpr (.plain hm n result)).bind fun pc => snug_location fun l k _ hl =>
      (snug_storeGpr hl).discard.bind fun _ => snug_pure pc

theorem snug_writeCell {m : Mem} (hm : m.Encodable) (value : Operand) :
    Snug strict n (writeCell (.plain m) value) := by
  unfold writeCell
  dsimp only
  split
  · exact snug_unhandled _
  · split
    · exact snug_store (o := .reg _ _) (.plain hm n _)
    · exact snug_constantToMemory (valid_plain hm) rfl
    · exact snug_location fun l k _ hl => (snug_loadGpr hl).discard.bind fun _ =>
        snug_storeGpr (.plain hm k value)

theorem snug_templateTrap (x : Expansion) (canTrap : Bool) (pc : Nat) :
    Snug strict n (templateTrap x canTrap pc) := by
  unfold templateTrap
  split
  · exact (snug_needInfo x _).bind fun _ => snug_recordTrap _ _
  · exact snug_pure ()

theorem snug_passArguments (x : Expansion) (count : Nat) (args : List Nat) (ints : List Gpr)
    (floats : List Xmm) : Snug strict n (passArguments x count args ints floats) := by
  induction args generalizing ints floats with
  | nil => exact snug_pure ()
  | cons arg args ih =>
    unfold passArguments
    refine (snug_operand x arg).bind fun o => ?_
    split
    · cases floats with
      | nil => exact snug_unhandled _
      | cons r floats => exact (snug_mov _ _ _).bind fun _ => ih ints floats
    · cases ints with
      | nil => exact snug_unhandled _
      | cons r ints => exact (snug_mov _ _ _).bind fun _ => ih ints floats

theorem snug_templateCall (x : Expansion) (target : CallTarget) (args : List Nat)
    (result : Option Nat) (info : Option DebugInfo) :
    Snug strict n (templateCall x target args result info) := by
  unfold templateCall
  refine (snug_passArguments x _ args _ _).bind fun _ => (snug_directCall _ _).bind fun _ => ?_
  split
  · exact snug_pure ()
  · exact (snug_operand x _).bind fun _ => snug_mov _ _ _

/-- The jump behind the comparison of a template. -/
theorem snug_conditional (kind : Kind) (cond : Condition) (target : Label) : Snug strict n
    (if kind.isFloating then templateFloatJump cond target
      else jcc (.ofCondition cond) target) := by
  split
  · unfold templateFloatJump
    split
    · exact (snug_jcc _ _).bind fun _ => snug_jcc _ _
    · exact snug_newLabel.bind fun _ => (snug_jccShort _ _).bind fun _ =>
        (snug_jcc _ _).bind fun _ =>
        snug_bind _
  · exact snug_jcc _ _

theorem snug_templateJump {x : Expansion} {cond : Condition} {a b target : Nat}
    (h : strict → ∀ l ∈ x.operands[a]?, ∀ r ∈ x.operands[b]?, CompareAgrees l r) :
    Snug strict n (templateJump x cond a b target) :=
  (snug_operand x a).bind_of (fun _ _ _ => operand_eq_ok) fun l hl =>
    (snug_operand x b).bind_of (fun _ _ _ => operand_eq_ok) fun r hr =>
    (snug_label x target).bind fun _ => (snug_compare fun hs => h hs l hl r hr).bind fun _ =>
    snug_conditional _ _ _

theorem snug_popOperand (result : Operand) : Snug strict n (popOperand result) := by
  unfold popOperand
  split
  · exact (snug_gpr _).bind fun _ => snug_emit _
  · exact (snug_emit _).bind fun _ => snug_mov _ _ _

theorem snug_recordMark (pc : Nat) (id : UInt32) :
    Snug strict n (record (SideTables.recordMark pc id)) :=
  snug_record fun t t' ht => by
    rw [(recordMark_eq_ok.mp ht).2]
    exact ⟨rfl, rfl⟩

/-- Bytes of any kind may stand between the instructions. -/
theorem snug_microOp {x : Expansion} {op : MicroOp} (h : strict → op.Agrees x.operands) :
    Snug strict n (microOp x op) := by
  cases op with
  | binary op a b result =>
    exact (snug_operand x a).bind_of (fun _ _ _ => operand_eq_ok) fun a ha =>
      (snug_operand x b).bind_of (fun _ _ _ => operand_eq_ok) fun b hb =>
      (snug_operand x result).bind_of (fun _ _ _ => operand_eq_ok) fun r hr =>
      snug_templateBinary fun hs => h hs a ha b hb r hr
  | mov src dst =>
    exact (snug_operand x src).bind fun _ => (snug_operand x dst).bind fun _ => snug_mov _ _ _
  | pointerLoad pointer result canTrap =>
    exact (snug_operand x pointer).bind fun _ => (snug_inGpr _).bind fun base =>
      (snug_operand x result).bind fun r => (snug_readCell (encodable_based base 0) r).bind fun _ =>
      snug_templateTrap _ _ _
  | pointerStore pointer value canTrap =>
    exact (snug_operand x pointer).bind fun _ => (snug_inGpr _).bind fun base =>
      (snug_operand x value).bind fun v => (snug_writeCell (encodable_based base 0) v).bind fun _ =>
      snug_templateTrap _ _ _
  | pointerLoadDisp pointer index scale disp result canTrap =>
    exact (snug_cell x pointer index scale disp).bind_of
      (fun _ _ _ => encodable_of_cell) fun m hm =>
      (snug_operand x result).bind fun r => (snug_readCell hm r).bind fun _ =>
        snug_templateTrap _ _ _
  | pointerStoreDisp pointer index scale disp value canTrap =>
    exact (snug_cell x pointer index scale disp).bind_of
      (fun _ _ _ => encodable_of_cell) fun m hm =>
      (snug_operand x value).bind fun v => (snug_writeCell hm v).bind fun _ =>
        snug_templateTrap _ _ _
  | lea pointer index scale disp result =>
    exact (snug_cell x pointer index scale disp).bind fun m => (snug_operand x result).bind fun r =>
      (snug_gpr r).bind fun _ => snug_emit _
  | here result =>
    exact (snug_operand x result).bind fun r => (snug_gpr r).bind fun _ => snug_emit _
  | callStub stub args result => exact snug_templateCall _ _ _ _ _
  | callRuntime target args result useInfoAfter => exact snug_templateCall _ _ _ _ _
  | jmp label => exact (snug_label x label).bind fun _ => snug_jmp _
  | jcc cond a b target => exact snug_templateJump h
  | bind label => exact (snug_label x label).bind fun _ => snug_bind _
  | safepoint => exact (snug_needInfo x _).bind fun _ => snug_safepoint _
  | nullCheck pointer =>
    exact (snug_needInfo x _).bind fun _ =>
      (snug_operand x pointer).bind fun _ => snug_nullCheck _ _
  | align n => exact snug_emitAlign n
  | stackOverflowCheck => exact snug_bangStack
  | pushFrame => exact snug_pushFrame
  | popFrame => exact snug_popFrame
  | push value =>
    exact (snug_operand x value).bind fun v => (snug_inGpr v).bind fun _ => snug_emit _
  | pop result => exact (snug_operand x result).bind fun r => snug_popOperand r
  | mark id => exact snug_position.bind fun pc => snug_recordMark pc id
  | nop count => exact snug_emitBytes _
  | rawBytes bytes => exact snug_emitBytes _
  | shouldNotReachHere message =>
    cases message with
    | none => exact snug_emit _
    | some message => exact (snug_log _).bind fun _ => snug_emit _

theorem snug_template {t : Template} {operands : List Operand} {info infoAfter : Option DebugInfo}
    (h : strict → ∀ op ∈ t.fastPath ++ t.slowPath.getD [], op.Agrees operands) :
    Snug strict n (template t operands info infoAfter) := by
  unfold template
  refine (snug_newLabels _).bind fun labels => ?_
  dsimp only
  refine Snug.bind (snug_forM fun op hop => snug_microOp fun hs =>
    h hs op (List.mem_append_left _ hop)) fun _ => ?_
  split
  · exact snug_enqueue fun hs op hop => h hs op (List.mem_append_right _ hop)
  · exact snug_pure ()

/-! ### Operations -/

theorem snug_lower {op : Operation} (h : strict → op.Agrees) : Snug strict n (lower op) := by
  cases op with
  | label l => exact snug_bind l
  | move src dst => exact snug_mov _ _ _
  | arith op left right result info => exact snug_arith h
  | logic op left right result => exact snug_binary h
  | shift op value count result => exact snug_shift _ _ _ _
  | negate value result => exact snug_negate _ _
  | abs value result => exact snug_abs _ _
  | sqrt value result => exact snug_sqrt h
  | convert op src dst => exact snug_convert h
  | compare left right => exact snug_compare h
  | compareToInt op left right result => exact snug_compareToInt h
  | branch cond target => exact snug_branch _ _
  | floatBranch cond target unordered => exact snug_floatBranch _ _ _
  | tableSwitch index low targets default =>
    change Snug strict n (tableSwitch index low targets default)
    exact snug_tableSwitch _ _ _ _
  | condMove cond unorderedIsTrue trueValue falseValue result => exact snug_condMove _ _ _ _ _
  | lea address result => exact snug_lea _ _
  | nullCheck object info => exact snug_nullCheck _ _
  | directCall target info => exact snug_directCall _ _
  | indirectCall address info => exact snug_indirectCall _ _ _
  | nativeCall symbol address info => exact snug_indirectCall _ _ _
  | ret value => exact snug_ret _
  | safepoint info => exact snug_safepoint _
  | monitorAddress index result => exact snug_monitorAddress _ _
  | stackAllocate block result => exact snug_stackAllocate _ _
  | compareAndSwap address expected newValue => exact snug_compareAndSwap _ _ _
  | throw unwind info => exact snug_throwException _ _
  | uncommonTrap info => exact snug_directCall _ _
  | memoryBarrier barriers => exact snug_memoryBarrier _
  | breakpoint | pause => exact snug_emit _
  | align n => exact snug_emitAlign n
  | significantBit most value result => exact snug_significantBit _ _ _
  | template t operands info infoAfter =>
    exact snug_template h

theorem snug_setCurrent (op : String) : Snug strict n (setCurrent op) :=
  snug_modify fun _ => ⟨rfl, rfl, rfl, rfl, rfl⟩

theorem snug_report (f : Journal → Journal) :
    Snug strict n (modify fun d => { d with journal := f d.journal }) :=
  snug_modify fun _ => ⟨rfl, rfl, rfl, rfl, rfl⟩

theorem snug_operation {op : Operation} (h : strict → op.Agrees) : Snug strict n (operation op) :=
  (snug_setCurrent _).bind fun _ => snug_position.bind fun start => (snug_lower h).bind fun _ =>
    snug_position.bind fun stop => snug_report (·.operation op.name start stop)

theorem snug_prologue : Snug strict n prologue := by
  unfold prologue
  refine (snug_setCurrent _).bind fun _ => snug_position.bind fun start => snug_get.bind fun d => ?_
  extract_lets frame
  have hframe : ∀ u, Snug strict n (frame u) := by
    intro u
    refine snug_pushFrame.bind fun _ => snug_position.bind fun stop => ?_
    dsimp only
    split
    · exact (snug_recordMark _ _).bind fun _ => snug_log _
    · exact snug_log _
  split
  · exact snug_bangStack.bind hframe
  · exact hframe ()

theorem snug_dataConstant (bytes : List UInt8) (align : Nat) (kind : Kind) :
    Snug strict n (dataConstant bytes align kind) :=
  snug_onData (p := fun _ _ => True)
    (fun s hs => ⟨(hs.constant bytes align).1, s.size_le_constant bytes align, trivial⟩)
    fun _ _ _ _ => snug_get.bind fun _ => (snug_log _).bind fun _ => snug_pure _

/-! ### Methods -/

theorem snug_slowPath {path : SlowPath} (h : strict → path.Agrees) :
    Snug strict n (slowPath path) := by
  unfold slowPath
  refine snug_position.bind fun start => ?_
  extract_lets report
  have hreport : ∀ name, Snug strict n (report name) := fun name =>
    snug_position.bind fun stop => snug_report (·.slowPath name start stop)
  cases path with
  | convertFixup entry resume src dst double long =>
    exact (snug_setCurrent _).bind fun _ => (snug_convertFixup _ _ _ _ _ _).bind fun _ =>
      (snug_pure _).bind hreport
  | template x =>
    refine (snug_setCurrent _).bind fun _ => Snug.bind ?_ fun _ => (snug_pure _).bind hreport
    exact Snug.bind (snug_forM fun op hop => snug_microOp fun hs => h hs op hop) fun _ =>
      snug_emitBytes _

/-- The code that was put off agrees as the operations do that it comes from. -/
theorem snug_slowPaths : Snug strict n slowPaths := by
  intro d u d' hn hd hrun
  unfold slowPaths at hrun
  rw [Step.get_bind, Step.modify_bind] at hrun
  have hpaths : Snug strict n (d.pending.toList.forM slowPath) := snug_forM fun path hpath =>
    snug_slowPath fun hs => hd.pending hs path (Array.mem_toList_iff.mp hpath)
  have hflushed : Tidy strict { d with pending := #[] } := { hd with pending := by simp }
  obtain ⟨hlater, hd'⟩ := hpaths { d with pending := #[] } u d' hn hflushed hrun
  exact ⟨⟨hlater.size, hlater.target⟩, hd'⟩

theorem snug_finish : Snug strict n finish := by
  intro d m d' hn hd hrun
  unfold finish at hrun
  obtain ⟨_, d₁, h₁, hrun⟩ := Step.bind_eq_ok.mp hrun
  obtain ⟨hlater, hd₁⟩ := snug_slowPaths d _ d₁ hn hd h₁
  rw [Step.get_bind] at hrun
  obtain ⟨handlers, d₂, h₂, hrun⟩ := Step.bind_eq_ok.mp hrun
  obtain ⟨-, rfl⟩ := ofExcept_eq_ok.mp h₂
  obtain ⟨code, d₃, h₃, hrun⟩ := Step.bind_eq_ok.mp hrun
  obtain ⟨-, rfl⟩ := ofExcept_eq_ok.mp h₃
  cases hrun
  exact ⟨⟨hlater.size, hlater.target⟩, hd₁.congr rfl rfl rfl rfl rfl rfl⟩

theorem tidy_start {target : Target} {frame : Frame} {name : String} {id : Option UInt32}
    {d : Draft} (h : Draft.start target frame name id = .ok d) : Tidy strict d := by
  obtain ⟨journal, rfl⟩ := Draft.start_eq_ok h
  exact ⟨DataSection.placed_empty, ⟨[], .empty, nofun⟩, nofun, nofun, fun _ => nofun⟩

/-- The references of a method are in order. -/
theorem snug_method {constants : List DataConstant} {ops : List Operation}
    (h : strict → ∀ op ∈ ops, op.Agrees) : Snug strict n (method constants ops) :=
  (snug_forM fun c _ => (snug_dataConstant c.bytes c.align .int).discard).bind fun _ =>
    (snug_reserveLabels _).bind fun _ => snug_prologue.bind fun _ =>
    (snug_forM fun op hop => snug_operation fun hs => h hs op hop).bind fun _ =>
    snug_slowPaths.bind fun _ => snug_finish

end MachineCode.Lower

namespace MachineCode

open X64 CodeBuffer Piece Lower

/-- The instruction from `start` to `stop` of the code is `i`. -/
def Method.DecodesAt (m : Method) (start stop : Nat) (i : Decoded) : Prop :=
  decode (m.code.toList.drop start) = some (i, stop - start)

/-- Around each field for data stands the instruction that it belongs to, and its access fits the
section. -/
theorem Tidy.exists_access {strict : Prop} {m : Method} {d : Draft} {x : Relocation}
    {offset stop : Nat} (h : Tidy strict d) (hm : Completed m d) (hx : x ∈ m.tables.relocations)
    (hkind : x.kind = .data offset stop) : ∃ start i, start < x.offset ∧ x.offset + 4 ≤ stop ∧
      m.DecodesAt start stop i.decoded ∧ i.mem? = some (.rip 0) ∧
      Fits strict m.data.size offset i := by
  obtain ⟨ps, hw, hsupported⟩ := h.written
  have hmem : x ∈ d.tables.relocations := by
    rw [hm.tables] at hx
    exact hx
  obtain ⟨pre, i, post, k, rfl, henc, hmem, hk, hfield, rfl, hfits⟩ :=
    hsupported x hmem offset stop hkind
  obtain ⟨front, back, hne, hzero, -⟩ := Instr.exists_around_zero hmem
  have hfront : 0 < front.length := List.length_pos_iff.mpr hne
  have hlength : i.encode.length = front.length + 4 + back.length := by
    rw [Encoding.length, hzero]
    simp [Nat.add_assoc]
  have hkfront : k = front.length := by
    rw [hzero] at hk
    exact (Option.some.inj hk).symm
  refine ⟨total pre, i, by omega, by omega, ?_, hmem, hm.data ▸ hfits⟩
  have hcode :
      m.code.toList = render d.buffer.labelOffset 0 (pre ++ .bytes i.encode.bytes :: post) := by
    rw [(finish_eq_ok hm.code).1, hw.code]
  rw [Method.DecodesAt, hcode, render_append, List.drop_left' (length_render _ _ _), render,
    Nat.add_sub_cancel_left]
  exact Instr.decodes_encode i henc _

/-- The references of a compiled method are in order in its last draft. -/
theorem tidy_of_method {strict : Prop} {target : Target} {frame : Frame} {name : String}
    {id : Option UInt32} {constants : List DataConstant} {ops : List Operation} {d d' : Draft}
    {m : Method} (h : strict → ∀ op ∈ ops, op.Agrees)
    (hd : Draft.start target frame name id = .ok d) (hm : method constants ops d = .ok m d') :
    Tidy strict d' ∧ d'.target = target ∧ Completed m d' := by
  obtain ⟨hlater, htidy⟩ := snug_method h d m d' (Nat.zero_le _) (tidy_start hd) hm
  refine ⟨htidy, hlater.target.trans ?_, completed_of_method hm⟩
  obtain ⟨journal, rfl⟩ := Draft.start_eq_ok hd
  rfl

end MachineCode
