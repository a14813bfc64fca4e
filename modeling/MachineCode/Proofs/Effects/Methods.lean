import MachineCode.Proofs.Effects.Control

/-! The effects of templates and of all operations. -/
namespace MachineCode

open X64

/-! ### Effects that cover operations -/

/-- The micro-operation makes no labels and names none. -/
def MicroOp.isPlain : MicroOp → Bool
  | .binary .. | .jmp _ | .jcc .. | .bind _ => false
  | _ => true

/-- The operation makes no labels, and its code names none. -/
def Operation.isPlain : Operation → Bool
  | .label _ | .arith .. | .convert .. | .compareToInt .. | .branch .. | .floatBranch ..
  | .tableSwitch .. | .condMove .. | .template .. => false
  | _ => true

/-- The effect covers a micro-operation on these operands. A cell may be read into memory. -/
def MicroOp.Within (C : Context) (e : Effect) (operands : List Operand) : MicroOp → Prop
  | .rawBytes _ => e.raws
  | .mark _ => e.marks
  | .pointerLoad _ result _ | .pointerLoadDisp _ _ _ _ result _ =>
    ∀ o ∈ operands[result]?, ∀ l, Lower.place? C.frame o = some l → e.stores l o.kind.size
  | _ => True

/-- The effect covers the code of a template, up to the labels. -/
structure Template.Within (C : Context) (e : Effect) (t : Template) (operands : List Operand)
    (info infoAfter : Option DebugInfo) : Prop where
  free : e.Open
  info : ∀ i ∈ info, i.Within e
  infoAfter : ∀ i ∈ infoAfter, i.Within e
  fast : ∀ op ∈ t.fastPath, op.Within C e operands
  slow : ∀ op ∈ t.slowPath.getD [], op.Within C e operands

structure Expansion.Within (C : Context) (e : Effect) (x : Expansion) : Prop
    extends x.template.Within C e x.operands x.info x.infoAfter where
  binds : ∀ l ∈ x.labels, e.binds l
  refers : ∀ l ∈ x.labels, e.refers l

/-- The effect covers an operation, up to the labels of its own. -/
def Operation.Within (C : Context) (e : Effect) : Operation → Prop
  | .label l => e.binds l
  | .move src dst => Lower.Receives C e src dst
  | .arith op _ _ result info => (op.isDivision = true → e.gprs .rax ∧ e.gprs .rdx) ∧
    (∀ i ∈ info, i.Within e) ∧ ∀ src, Lower.Receives C e src result
  | .logic _ _ _ result | .shift _ _ _ result | .negate _ result | .abs _ result
  | .sqrt _ result | .compareToInt _ _ _ result | .lea _ result | .monitorAddress _ result
  | .stackAllocate _ result | .significantBit _ _ result => e.Sets result
  | .convert _ _ dst => e.Sets dst ∧ Lower.Fixes C e dst
  | .condMove _ _ _ _ result => ∀ src, Lower.Receives C e src result
  | .branch _ target => e.refers target
  | .floatBranch _ target unordered => e.refers target ∧ e.refers unordered
  | .tableSwitch index _ targets default =>
    (∀ l ∈ targets, e.refers l) ∧ e.refers default ∧ e.leaves ∧ e.Sets index
  | .nullCheck _ info => info.Within e
  | .directCall _ info | .indirectCall _ info | .nativeCall _ _ info | .throw _ info
  | .uncommonTrap info => e.leaves ∧ info.Within e
  | .ret _ => e.Open
  | .compareAndSwap cell _ _ =>
    e.gprs .rax ∧ ∀ l, Lower.place? C.frame cell = some l → e.stores l cell.kind.size
  | .template t operands info infoAfter => t.Within C e operands info infoAfter ∧
    ∀ labels : List Label, (∀ l ∈ labels, C.labels ≤ l.index) →
      e.paths (.template ⟨t, operands, labels, info, infoAfter⟩)
  | .compare .. | .safepoint _ | .memoryBarrier _ | .breakpoint | .pause | .align _ => True

def SlowPath.Within (C : Context) (e : Effect) : SlowPath → Prop
  | .convertFixup entry resume _ dst _ _ => e.binds entry ∧ e.refers resume ∧ e.gprs dst
  | .template x => x.Within C e

variable {C : Context} {e : Effect}

/-- Where nothing is moved into the data section. -/
theorem Effect.Open.receives (h : e.Open) (src dst : Operand) : Lower.Receives C e src dst where
  register := h.sets dst
  memory := by
    intro hdata l hl
    obtain ⟨m, rfl, -⟩ := Lower.place?_plain hdata hl
    exact h.stores m _

/-- What is left to ask of an open effect: it allows the labels of an operation, what the
micro-operations of its template do, and the code that it puts off. -/
structure Operation.Suits (C : Context) (e : Effect) (op : Operation) : Prop where
  binds : ∀ l, op = .label l → e.binds l
  refers : ∀ l ∈ op.labels, e.refers l
  handlers : ∀ l ∈ op.labels, e.handlers l
  exchange : ∀ cell expected newValue, op = .compareAndSwap cell expected newValue →
    ∀ l, Lower.place? C.frame cell = some l → e.stores l cell.kind.size
  fixup : ∀ f src dst, op = .convert f src dst → Lower.Fixes C e dst
  micro : ∀ t operands info infoAfter, op = .template t operands info infoAfter →
    ∀ micro ∈ t.fastPath ++ t.slowPath.getD [], micro.Within C e operands
  paths : ∀ t operands info infoAfter, op = .template t operands info infoAfter →
    ∀ labels : List Label, (∀ l ∈ labels, C.labels ≤ l.index) →
      e.paths (.template ⟨t, operands, labels, info, infoAfter⟩)

theorem Effect.Open.within {op : Operation} (h : e.Open) (hop : op.Suits C e) : op.Within C e := by
  have hrefers := hop.refers
  have hhandlers := hop.handlers
  cases op with
  | label l => exact hop.binds l rfl
  | move src dst => exact h.receives src dst
  | arith op left right result info =>
    refine ⟨fun _ => ⟨h.gprs _, h.gprs _⟩, ?_, fun src => h.receives src result⟩
    rintro i ⟨⟩
    exact hhandlers
  | convert op src dst => exact ⟨h.sets dst, hop.fixup op src dst rfl⟩
  | condMove cond unorderedIsTrue trueValue falseValue result =>
    exact fun src => h.receives src result
  | logic op left right result | compareToInt op left right result => exact h.sets result
  | shift op value count result => exact h.sets result
  | negate value result | abs value result | sqrt value result | lea value result =>
    exact h.sets result
  | monitorAddress index result | stackAllocate index result => exact h.sets result
  | significantBit most value result => exact h.sets result
  | branch cond target => exact hrefers target (by simp [Operation.labels])
  | floatBranch cond target unordered =>
    exact ⟨hrefers target (by simp [Operation.labels]),
      hrefers unordered (by simp [Operation.labels])⟩
  | tableSwitch index low targets default =>
    exact ⟨fun l hl => hrefers l (List.mem_append_left _ hl),
      hrefers default (List.mem_append_right _ (List.mem_singleton_self _)), h.leaves, h.sets index⟩
  | nullCheck object info => exact hhandlers
  | directCall target info | indirectCall target info | throw target info =>
    exact ⟨h.leaves, hhandlers⟩
  | nativeCall symbol address info => exact ⟨h.leaves, hhandlers⟩
  | uncommonTrap info => exact ⟨h.leaves, hhandlers⟩
  | ret value => exact h
  | compareAndSwap cell expected newValue =>
    exact ⟨h.gprs _, hop.exchange cell expected newValue rfl⟩
  | template t operands info infoAfter =>
    have hmicro := hop.micro t operands info infoAfter rfl
    refine ⟨⟨h, ?_, ?_, fun op hmem => hmicro op (List.mem_append_left _ hmem),
      fun op hmem => hmicro op (List.mem_append_right _ hmem)⟩,
      hop.paths t operands info infoAfter rfl⟩
    · rintro i ⟨⟩ l hl
      exact hhandlers l (List.mem_append_left _ hl)
    · rintro i ⟨⟩ l hl
      exact hhandlers l (List.mem_append_right _ hl)
  | _ => trivial

namespace Lower

/-! ### Templates -/

theorem finds_operand (x : Expansion) (index : Nat) :
    Finds C (x.operand index) fun o => x.operands[index]? = some o := by
  unfold Expansion.operand
  split
  · exact finds_pure (by assumption)
  · exact finds_throw rfl

theorem finds_label (x : Expansion) (index : Nat) : Finds C (x.label index) (· ∈ x.labels) := by
  unfold Expansion.label
  split
  · rename_i l hl
    exact finds_pure (List.mem_of_getElem? hl)
  · exact finds_unhandled _

theorem finds_needInfo (x : Expansion) (what : String) :
    Finds C (x.needInfo what) fun i => x.info = some i := by
  unfold Expansion.needInfo
  split
  · exact finds_pure (by assumption)
  · exact finds_throw rfl

theorem does_templateBinary {op : TemplateBinary} {a b result : Operand} {info : Option DebugInfo}
    (h : e.Open) (hfresh : e.Fresh C.labels) (hinfo : ∀ i ∈ info, i.Within e) :
    Does C e (templateBinary op a b result info) := by
  have harith : ∀ (op : ArithOp) (info : Option DebugInfo), (∀ i ∈ info, i.Within e) →
      Does C e (arith op a b result info) := fun op info hinfo =>
    does_arith hfresh hinfo (fun _ => ⟨h.gprs _, h.gprs _⟩) fun src => h.receives src result
  cases op with
  | add => exact harith .add none (by simp)
  | sub => exact harith .sub none (by simp)
  | mul => exact harith .mul none (by simp)
  | div => exact harith .div info hinfo
  | rem => exact harith .rem info hinfo
  | and | or | xor => exact does_binary (h.sets result)
  | shl | shr | ushr => exact does_shift (h.sets result)

theorem lowers_cell (x : Expansion) (pointer index : Nat) (scale : Scale) (disp : Int32) :
    Lowers C e (cell x pointer index scale disp) Mem.Encodable := by
  unfold cell
  refine (finds_operand x index).lowers.andThen fun i =>
    (finds_operand x pointer).lowers.andThen fun p => (does_inGpr p).andThen fun base => ?_
  split
  · exact (finds_displacement32 _).lowers.andThen fun _ =>
      lowers_pure (encodable_based _ _)
  · refine (finds_gpr _).lowers.andThen fun r => ?_
    split
    · exact lowers_unhandled _
    · rename_i hr
      exact lowers_pure (encodable_indexed hr)
  · exact lowers_unhandled _

theorem within_load {kind : Kind} {dst : Gpr} {l : Location} (hl : l.Valid) (h : e.gprs dst) :
    (Emission.at l (loadInstr kind dst)).Within e :=
  within_at hl (mem?_loadInstr kind dst) (footprint_loadInstr kind dst _) (e.admits_gpr h)

theorem within_store {kind : Kind} {src : Gpr} {l : Location} (hl : l.Valid)
    (h : e.stores l kind.size) : (Emission.at l (storeInstr kind src)).Within e :=
  within_at hl (mem?_storeInstr kind src) (footprint_storeInstr kind src _) (e.admits_memory h)

theorem accesses_readCell {l : Location} {result : Operand} (hl : l.Valid) (h : e.Open)
    (hresult : ∀ t, place? C.frame result = some t → e.stores t result.kind.size) :
    Accesses C e (readCell l result) := by
  unfold readCell
  split
  · exact accesses_load hl (h.overwrites _)
  · exact accesses_unhandled _
  · exact accesses_emitAt_store (within_load hl e.scratch) (finds_location result)
      fun t ht => within_store ht.2 (hresult t ht.1)

theorem accesses_writeCell {m : Mem} {value : Operand} (hm : m.Encodable) (h : e.Open) :
    Accesses C e (writeCell (.plain m) value) := by
  have hl : (Location.plain m).Valid := valid_plain hm
  unfold writeCell
  dsimp only
  split
  · exact accesses_unhandled _
  · split
    · exact (closes_store hl (h.stores m _)).accesses
    · exact (closes_constantToMemory hl (h.stores m _)).accesses
    · exact Accesses.after (finds_location _).lowers fun source hsource =>
        Accesses.after (accesses_loadGpr hsource.2 e.scratch).does fun _ _ =>
          (closes_storeGpr hl (h.stores m _)).accesses

/-- An access is recorded when it may fault, with the template's debug information. -/
theorem does_templateTrap {x : Expansion} {canTrap : Bool} {y : Lower Nat} (hy : Accesses C e y)
    (hinfo : ∀ i ∈ x.info, i.Within e) : Does C e (y >>= templateTrap x canTrap) := by
  unfold templateTrap
  cases canTrap with
  | false => exact hy.lowers.andThen fun _ => does_pure ()
  | true =>
    unfold Expansion.needInfo
    cases hx : x.info with
    | none => exact hy.lowers.andThen fun pc => lowers_of_fails fun d => ⟨_, rfl, rfl⟩
    | some info => exact hy.trap (hinfo info hx)

theorem does_passArguments (h : e.Open) (x : Expansion) (count : Nat) (args : List Nat)
    (ints : List Gpr) (floats : List Xmm) : Does C e (passArguments x count args ints floats) := by
  induction args generalizing ints floats with
  | nil => exact does_pure ()
  | cons arg args ih =>
    unfold passArguments
    refine (finds_operand x arg).lowers.andThen fun o => ?_
    split
    · cases floats with
      | nil => exact lowers_unhandled _
      | cons r floats => exact (does_mov (h.receives _ _)).andThen fun _ => ih ints floats
    · cases ints with
      | nil => exact lowers_unhandled _
      | cons r ints => exact (does_mov (h.receives _ _)).andThen fun _ => ih ints floats

theorem does_templateCall {x : Expansion} {target : CallTarget} {args : List Nat}
    {result : Option Nat} {info : Option DebugInfo} (h : e.Open) (hinfo : ∀ i ∈ info, i.Within e) :
    Does C e (templateCall x target args result info) := by
  unfold templateCall
  refine (does_passArguments h x _ args _ _).andThen fun _ =>
    (does_directCall h.leaves hinfo).andThen fun _ => ?_
  split
  · exact does_pure ()
  · exact (finds_operand x _).lowers.andThen fun r => does_mov (h.receives _ _)

theorem does_templateFloatJump {cond : Condition} {target : Label} (hfresh : e.Fresh C.labels)
    (h : e.refers target) : Does C e (templateFloatJump cond target) := by
  unfold templateFloatJump
  split
  · exact (does_jcc h).andThen fun _ => does_jcc h
  · exact lowers_newLabel.bind fun l hl => (does_jccShort (hfresh.refers l hl)).andThen fun _ =>
      (does_jcc h).andThen fun _ => does_bind (hfresh.binds l hl)

theorem does_templateJump {x : Expansion} {cond : Condition} {a b target : Nat}
    (hfresh : e.Fresh C.labels) (h : ∀ l ∈ x.labels, e.refers l) :
    Does C e (templateJump x cond a b target) := by
  unfold templateJump
  refine (finds_operand x a).lowers.andThen fun a => (finds_operand x b).lowers.andThen fun b =>
    (finds_label x target).lowers.bind fun l hl => (does_compare a b).andThen fun _ => ?_
  split
  · exact does_templateFloatJump hfresh (h l hl)
  · exact does_jcc (h l hl)

theorem does_popOperand (h : e.Open) (result : Operand) : Does C e (popOperand result) := by
  unfold popOperand
  split
  · exact (finds_gpr _).lowers.andThen fun _ => does_open_plain h rfl
  · exact (does_open_plain h rfl).andThen fun _ => does_mov (h.receives _ _)

theorem does_plainMicroOp {x : Expansion} {op : MicroOp} (h : e.Open)
    (hinfo : ∀ i ∈ x.info, i.Within e) (hafter : ∀ i ∈ x.infoAfter, i.Within e)
    (hop : op.Within C e x.operands) (hplain : op.isPlain = true) : Does C e (microOp x op) := by
  cases op with
  | binary | jmp | jcc | bind => cases hplain
  | mov src dst =>
    exact (finds_operand x src).lowers.andThen fun s =>
      (finds_operand x dst).lowers.andThen fun d =>
      does_mov (h.receives s d)
  | pointerLoad pointer result canTrap =>
    exact (finds_operand x pointer).lowers.andThen fun p => (does_inGpr p).andThen fun base =>
      (finds_operand x result).lowers.bind fun r hr =>
      does_templateTrap
        (accesses_readCell (valid_plain (encodable_based base 0)) h (hop r hr)) hinfo
  | pointerStore pointer value canTrap =>
    exact (finds_operand x pointer).lowers.andThen fun p => (does_inGpr p).andThen fun base =>
      (finds_operand x value).lowers.andThen fun v =>
      does_templateTrap (accesses_writeCell (encodable_based base 0) h) hinfo
  | pointerLoadDisp pointer index scale disp result canTrap =>
    exact (lowers_cell x pointer index scale disp).bind fun m hm =>
      (finds_operand x result).lowers.bind fun r hr =>
      does_templateTrap (accesses_readCell (valid_plain hm) h (hop r hr)) hinfo
  | pointerStoreDisp pointer index scale disp value canTrap =>
    exact (lowers_cell x pointer index scale disp).bind fun m hm =>
      (finds_operand x value).lowers.andThen fun v =>
      does_templateTrap (accesses_writeCell hm h) hinfo
  | lea pointer index scale disp result =>
    exact (lowers_cell x pointer index scale disp).bind fun m hm =>
      (finds_operand x result).lowers.andThen fun r => (finds_gpr r).lowers.andThen fun _ =>
      does_open_memory h rfl hm
  | here result =>
    exact (finds_operand x result).lowers.andThen fun r => (finds_gpr r).lowers.andThen fun res =>
      does_emitLeaRelative (h.gprs res)
  | callStub stub args result => exact does_templateCall h hinfo
  | callRuntime target args result useInfoAfter =>
    refine does_templateCall h ?_
    split
    · exact hafter
    · exact hinfo
  | safepoint => exact (finds_needInfo x _).lowers.andThen does_safepoint
  | nullCheck pointer =>
    exact (finds_needInfo x _).lowers.bind fun info hfound =>
      (finds_operand x pointer).lowers.andThen fun o => does_nullCheck (hinfo info hfound)
  | align n => exact does_emitAlign n
  | stackOverflowCheck => exact does_bangStack h
  | pushFrame => exact does_pushFrame h
  | popFrame => exact does_popFrame h
  | push value =>
    exact (finds_operand x value).lowers.andThen fun v => (does_inGpr v).andThen fun _ =>
      does_open_plain h rfl
  | pop result => exact (finds_operand x result).lowers.andThen (does_popOperand h)
  | mark id => exact does_action (.mark id) hop rfl
  | nop count => exact does_replicate count
  | rawBytes bytes => exact does_action (.raw bytes) hop rfl
  | shouldNotReachHere message =>
    cases message with
    | none => exact does_open_plain h rfl
    | some message => exact (does_log _).andThen fun _ => does_open_plain h rfl

theorem does_microOp {x : Expansion} {op : MicroOp} (hfresh : e.Fresh C.labels)
    (hx : x.Within C e) (hop : op.Within C e x.operands) : Does C e (microOp x op) := by
  have h : e.Open := hx.free
  cases op with
  | binary op a b result =>
    exact (finds_operand x a).lowers.andThen fun a => (finds_operand x b).lowers.andThen fun b =>
      (finds_operand x result).lowers.andThen fun r => does_templateBinary h hfresh hx.info
  | jmp label => exact (finds_label x label).lowers.bind fun l hl => does_jmp (hx.refers l hl)
  | jcc cond a b target => exact does_templateJump hfresh hx.refers
  | bind label => exact (finds_label x label).lowers.bind fun l hl => does_bind (hx.binds l hl)
  | _ => exact does_plainMicroOp h hx.info hx.infoAfter hop rfl

theorem does_template {t : Template} {operands : List Operand} {info infoAfter : Option DebugInfo}
    (hfresh : e.Fresh C.labels) (ht : t.Within C e operands info infoAfter)
    (hpaths : ∀ labels : List Label, (∀ l ∈ labels, C.labels ≤ l.index) →
      e.paths (.template ⟨t, operands, labels, info, infoAfter⟩)) :
    Does C e (template t operands info infoAfter) := by
  unfold template
  refine (lowers_newLabels _).bind fun labels hlabels => ?_
  have hbinds : ∀ l ∈ labels, e.binds l := fun l hl => hfresh.binds l (hlabels l hl)
  have hrefers : ∀ l ∈ labels, e.refers l := fun l hl => hfresh.refers l (hlabels l hl)
  have hx : (Expansion.mk t operands labels info infoAfter).Within C e := ⟨ht, hbinds, hrefers⟩
  refine (does_forM fun op hop => does_microOp hfresh hx (ht.fast op hop)).andThen fun _ => ?_
  split
  · exact does_enqueue (hpaths labels hlabels)
  · exact does_pure ()

theorem does_templateSlowPath {x : Expansion} (hfresh : e.Fresh C.labels) (hx : x.Within C e) :
    Does C e (templateSlowPath x) :=
  (does_forM fun op hop => does_microOp hfresh hx (hx.slow op hop)).andThen fun _ => does_nops 1

/-! ### Operations -/

theorem does_plainOperation {op : Operation} (hop : op.Within C e) (hplain : op.isPlain = true) :
    Does C e (lower op) := by
  have hsome : ∀ {info : DebugInfo}, info.Within e → ∀ i ∈ some info, i.Within e := by
    rintro info hinfo _ ⟨⟩
    exact hinfo
  cases op with
  | label | arith | convert | compareToInt | branch | floatBranch | tableSwitch | condMove
  | template =>
    cases hplain
  | move src dst => exact does_mov hop
  | logic op left right result => exact does_binary hop
  | shift op value count result => exact does_shift hop
  | negate value result => exact does_negate hop
  | abs value result => exact does_abs hop
  | sqrt value result => exact does_sqrt hop
  | compare left right => exact does_compare left right
  | lea address result => exact does_lea hop
  | nullCheck object info => exact does_nullCheck hop
  | directCall target info => exact does_directCall hop.1 (hsome hop.2)
  | indirectCall address info => exact does_indirectCall hop.1 hop.2
  | nativeCall symbol address info => exact does_indirectCall hop.1 hop.2
  | ret value => exact does_ret hop value
  | safepoint info => exact does_safepoint info
  | monitorAddress index result => exact does_monitorAddress hop
  | stackAllocate block result => exact does_stackAllocate hop
  | compareAndSwap address expected newValue => exact does_compareAndSwap hop.1 hop.2
  | throw unwind info => exact does_throwException hop.1 hop.2
  | uncommonTrap info => exact does_directCall hop.1 (hsome hop.2)
  | memoryBarrier barriers => exact does_memoryBarrier barriers
  | breakpoint | pause => exact does_plain rfl rfl e.admits_nothing
  | align n => exact does_emitAlign n
  | significantBit most value result => exact does_significantBit hop

theorem does_lower {op : Operation} (hfresh : e.Fresh C.labels) (hop : op.Within C e) :
    Does C e (lower op) := by
  cases op with
  | label l => exact does_bind hop
  | arith op left right result info => exact does_arith hfresh hop.2.1 hop.1 hop.2.2
  | convert op src dst => exact does_convert hfresh hop.2 hop.1
  | compareToInt op left right result => exact does_compareToInt hfresh hop
  | branch cond target => exact does_branch hop
  | floatBranch cond target unordered => exact does_floatBranch hop.1 hop.2
  | tableSwitch index low targets default =>
    change Does C e (tableSwitch index low targets default)
    exact does_tableSwitch hop.1 hop.2.1 hop.2.2.1 hop.2.2.2
  | condMove cond unorderedIsTrue trueValue falseValue result => exact does_condMove hfresh hop
  | template t operands info infoAfter => exact does_template hfresh hop.1 hop.2
  | _ => exact does_plainOperation hop rfl

theorem does_setCurrent (op : String) : Does C e (setCurrent op) :=
  does_action (.name op) trivial rfl

theorem does_report (h : e.accounts) (f : Journal → Journal) :
    Does C e (modify fun d => { d with journal := f d.journal }) :=
  does_action (.report f) h rfl

theorem does_operation {op : Operation} (haccounts : e.accounts) (hfresh : e.Fresh C.labels)
    (hop : op.Within C e) : Does C e (operation op) :=
  (does_setCurrent _).andThen fun _ => finds_position.lowers.andThen fun start =>
    (does_lower hfresh hop).andThen fun _ => finds_position.lowers.andThen fun stop =>
    does_report haccounts (·.operation op.name start stop)

theorem does_slowPath {path : SlowPath} (haccounts : e.accounts) (hfresh : e.Fresh C.labels)
    (hpath : path.Within C e) : Does C e (slowPath path) := by
  unfold slowPath
  refine finds_position.lowers.andThen fun start => ?_
  extract_lets report
  have hreport : ∀ name, Does C e (report name) := fun name =>
    finds_position.lowers.andThen fun stop => does_report haccounts (·.slowPath name start stop)
  cases path with
  | convertFixup entry resume src dst double long =>
    exact (does_setCurrent _).andThen fun _ =>
      (does_convertFixup hfresh hpath.1 hpath.2.1 hpath.2.2).andThen fun _ =>
      (does_pure _).andThen hreport
  | template x =>
    exact (does_setCurrent _).andThen fun _ => (does_templateSlowPath hfresh hpath).andThen fun _ =>
      (does_pure _).andThen hreport

/-- A mark at the position that is read before. -/
theorem does_mark {id : UInt32} {f : Nat → Lower Unit} (hmarks : e.marks)
    (hf : ∀ p, Does C e (f p)) :
    Does C e (do
      let pc ← position
      record (SideTables.recordMark pc id)
      f pc) := by
  intro d hd
  have hmark : Does C e (Action.mark id).perform := does_action (.mark id) hmarks rfl
  obtain ⟨as, has, heq, -⟩ := (hmark.andThen fun _ => hf d.buffer.position) d hd
  exact ⟨as, has, heq, fun _ _ _ => trivial⟩

/-- The entry of a method, with a mark if the target asks for one. -/
theorem does_prologue (h : e.Open)
    (hmarks : ∀ id, C.target.options.verifiedEntryMark = some id → e.marks) :
    Does C e prologue := by
  unfold prologue
  refine (does_setCurrent _).andThen fun _ => finds_position.lowers.andThen fun start =>
    lowers_get.bind fun d hd => ?_
  extract_lets frame
  have hframe : ∀ u, Does C e (frame u) := by
    intro u
    refine (does_pushFrame h).andThen fun _ => ?_
    have htarget := hd.target
    dsimp only
    cases hid : d.target.options.verifiedEntryMark with
    | none => exact finds_position.lowers.andThen fun stop => does_log _
    | some id => exact does_mark (hmarks id (htarget ▸ hid)) fun stop => does_log _
  split
  · exact (does_bangStack h).andThen hframe
  · exact hframe ()

theorem does_addConstants (constants : List DataConstant) : Does C e (addConstants constants) :=
  does_forM fun c _ => Lowers.discard <| (does_constant c.bytes c.align).andThen fun _ =>
    lowers_get.andThen fun _ => (does_log _).andThen fun _ => does_pure _

end Lower

end MachineCode
