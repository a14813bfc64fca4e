import MachineCode.Compile
import MachineCode.Proofs.Steps

/-! Steps of lowering that make no labels and name none. Whether they succeed or fail, they leave
all labels as they are, and put off no code. -/
namespace MachineCode

open X64 Step

variable {α : Type}

/-- The labels are the same, and so is the code that has been put off. -/
structure Draft.Same (d d' : Draft) : Prop where
  labels : d'.buffer.labels = d.buffer.labels
  pending : d'.pending = d.pending

instance : IsPreorder Draft Draft.Same where
  refl _ := ⟨rfl, rfl⟩
  trans _ _ _ h h' := ⟨h'.labels.trans h.labels, h'.pending.trans h.pending⟩

/-- The step makes no labels and names none, and puts off no code. -/
abbrev Steady (x : Lower α) : Prop := Along Draft.Same x

namespace Lower

/-! ### Primitives -/

theorem steady_setCurrent (op : String) : Steady (setCurrent op) := fun _ => ⟨rfl, rfl⟩

theorem steady_position : Steady position := fun _ => ⟨rfl, rfl⟩

theorem steady_log (event : Event) : Steady (log event) := fun _ => ⟨rfl, rfl⟩

theorem steady_unhandled (detail : String) : Steady (unhandled detail : Lower α) :=
  along_get.bind fun _ => along_throw _

theorem steady_ofExcept (x : Except Error α) : Steady (ofExcept x) := by
  intro d
  cases x <;> exact ⟨rfl, rfl⟩

theorem steady_record (x : RecordStep Unit) : Steady (record x) := by
  intro d
  simp only [Step.final, record]
  cases x d.tables <;> exact ⟨rfl, rfl⟩

theorem steady_onData (f : DataSection → α × DataSection) : Steady (onData f) := fun _ => ⟨rfl, rfl⟩

theorem steady_emitBytes (bytes : List UInt8) : Steady (emitBytes bytes) := fun _ => ⟨rfl, rfl⟩

theorem steady_emit (i : Instr) : Steady (emit i) := steady_emitBytes _

theorem steady_setMark : Steady (modify fun d => { d with buffer := d.buffer.setMark }) :=
  along_modify fun _ => ⟨rfl, rfl⟩

theorem steady_clearMark : Steady (modify fun d => { d with buffer := d.buffer.clearMark }) :=
  along_modify fun _ => ⟨rfl, rfl⟩

theorem steady_emitLinked (i : Instr) (recordField : Nat → RecordStep Unit) :
    Steady (emitLinked i recordField) :=
  steady_position.bind fun _ => steady_setMark.bind fun _ => (steady_emit i).bind fun _ =>
    along_get.bind fun _ =>
    (steady_ofExcept _).bind fun _ => (steady_record _).bind fun _ => steady_clearMark

theorem steady_emitAt (l : Location) (i : Mem → Instr) : Steady (emitAt l i) := by
  unfold emitAt
  refine steady_position.bind fun start => steady_setMark.bind fun _ => ?_
  extract_lets e behind
  have hbehind : ∀ u, Steady (behind u) := fun _ => steady_clearMark.bind fun _ => along_pure _
  refine (steady_emitBytes _).bind fun _ => ?_
  split
  · exact hbehind ()
  · split
    · exact (along_throw _).bind hbehind
    · exact along_get.bind fun _ => (steady_ofExcept _).bind fun _ => steady_position.bind fun _ =>
        (steady_record _).bind hbehind

theorem steady_emitAlign (align : Nat) : Steady (emitAlign align) :=
  steady_position.bind fun _ => steady_emitBytes _

theorem steady_recordTrap (pc : Nat) (info : DebugInfo) : Steady (recordTrap pc info) :=
  (steady_record _).bind fun _ => steady_record _

theorem steady_dataConstant (bytes : List UInt8) (align : Nat) (kind : Kind) :
    Steady (dataConstant bytes align kind) :=
  (steady_onData _).bind fun _ => along_get.bind fun _ => (steady_log _).bind fun _ => along_pure _

/-! ### Operands -/

theorem steady_gpr (o : Operand) : Steady (gpr o) := by
  unfold gpr
  split
  · split
    · exact along_pure _
    · exact steady_unhandled _
  · exact steady_unhandled _

theorem steady_xmm (o : Operand) : Steady (xmm o) := by
  unfold xmm
  split
  · split
    · exact along_pure _
    · exact steady_unhandled _
  · exact steady_unhandled _

theorem steady_stackMem (offset : Nat) : Steady (stackMem offset) :=
  (steady_ofExcept _).bind fun _ => along_pure _

theorem steady_address (a : Address) : Steady (address a) := by
  unfold address
  split
  · split
    · exact steady_unhandled _
    · split
      · exact along_pure _
      · split
        · exact steady_unhandled _
        · exact along_pure _
  · refine along_ite (steady_unhandled _) (along_get.bind fun d => ?_)
    exact along_ite (along_throw _) (along_ite (along_throw _) (along_pure _))

theorem steady_location (o : Operand) : Steady (location o) := by
  unfold location
  split
  · exact along_get.bind fun _ => (steady_stackMem _).bind fun _ => along_pure _
  · exact steady_address _
  · exact steady_unhandled _

/-! ### Moves -/

theorem steady_loadGpr (kind : Kind) (dst : Gpr) (l : Location) : Steady (loadGpr kind dst l) :=
  steady_emitAt _ _

theorem steady_storeGpr (kind : Kind) (src : Gpr) (l : Location) : Steady (storeGpr kind src l) :=
  steady_emitAt _ _

theorem steady_load (kind : Kind) (dst : Register) (l : Location) : Steady (load kind dst l) := by
  unfold load
  split
  · exact steady_loadGpr _ _ _
  · exact along_ite (steady_emitAt _ _) (steady_unhandled _)
  · exact steady_unhandled _

theorem steady_store (kind : Kind) (src : Register) (l : Location) : Steady (store kind src l) := by
  unfold store
  split
  · exact steady_storeGpr _ _ _
  · exact along_ite (steady_emitAt _ _) (steady_unhandled _)
  · exact steady_unhandled _

theorem steady_registerToRegister (src dst : Register) (kind : Kind) :
    Steady (registerToRegister src dst kind) := by
  unfold registerToRegister
  refine along_ite (along_pure _) ?_
  split
  · exact steady_emit _
  · split
    · exact steady_emit _
    · exact steady_unhandled _
  · exact steady_unhandled _

theorem steady_objectToRegister (o : ObjectId) (dst : Gpr) : Steady (objectToRegister o dst) := by
  unfold objectToRegister
  refine along_get.bind fun d =>
    along_ite (steady_emitLinked _ _) ((steady_onData _).bind fun r => ?_)
  have hload : Steady (discard (emitAt (.ofData r.1) (.load true dst))) :=
    (steady_emitAt _ _).discard
  exact along_ite ((steady_record _).bind fun _ => hload) hload

theorem steady_constantToXmm (c : Constant) (dst : Xmm) : Steady (constantToXmm c dst) := by
  unfold constantToXmm
  exact along_ite (steady_unhandled _) (along_ite (steady_emit _)
    ((steady_onData _).bind fun _ => (steady_emitAt _ _).discard))

theorem steady_constantToRegister (c : Constant) (dst : Register) (keepFlags : Bool) :
    Steady (constantToRegister c dst keepFlags) := by
  unfold constantToRegister
  split
  · exact steady_constantToXmm _ _
  · exact steady_unhandled _
  · split
    · exact steady_objectToRegister _ _
    · exact along_ite (steady_emit _) (along_ite (steady_emit _) (steady_emit _))

theorem steady_constantToMemory (c : Constant) (kind : Kind) (l : Location) :
    Steady (constantToMemory c kind l) := by
  unfold constantToMemory
  split
  · exact (steady_objectToRegister _ _).bind fun _ => steady_storeGpr _ _ _
  · refine along_ite ?_ (steady_emitAt _ _)
    split
    · exact steady_emitAt _ _
    · exact (steady_emit _).bind fun _ => steady_storeGpr _ _ _

theorem steady_mov (src dst : Operand) (keepFlags : Bool) : Steady (mov src dst keepFlags) := by
  unfold mov
  refine along_ite (steady_unhandled _) ?_
  split
  · exact steady_unhandled _
  · exact steady_registerToRegister _ _ _
  · exact (steady_location _).bind fun _ => (steady_store _ _ _).discard
  · exact steady_constantToRegister _ _ _
  · exact (steady_location _).bind fun _ => (steady_constantToMemory _ _ _).discard
  · exact (steady_location _).bind fun _ => (steady_load _ _ _).discard
  · exact (steady_location _).bind fun _ => (steady_location _).bind fun _ =>
      (steady_loadGpr _ _ _).discard.bind fun _ => (steady_storeGpr _ _ _).discard

theorem steady_toScratch (src : Operand) : Steady (toScratch src) :=
  (steady_mov _ _ _).bind fun _ => along_pure _

theorem steady_toFloatScratch (src : Operand) : Steady (toFloatScratch src) :=
  (steady_mov _ _ _).bind fun _ => along_pure _

theorem steady_inGpr (o : Operand) : Steady (inGpr o) :=
  along_ite (steady_gpr o) (steady_toScratch o)

theorem steady_inXmm (o : Operand) : Steady (inXmm o) :=
  along_ite (steady_xmm o) (steady_toFloatScratch o)

/-! ### Arithmetic -/

theorem steady_applyConstant (op : Binary) (wide : Bool) (dst : Gpr) (c : Constant) :
    Steady (applyConstant op wide dst c) := by
  unfold applyConstant
  split
  · exact (steady_objectToRegister _ _).bind fun _ => steady_emit _
  · split
    · exact steady_emit _
    · exact (steady_emit _).bind fun _ => steady_emit _

theorem steady_applyBinary (op : Binary) (wide : Bool) (dst : Gpr) (right : Operand) :
    Steady (applyBinary op wide dst right) := by
  unfold applyBinary
  split
  · exact (steady_gpr _).bind fun _ => steady_emit _
  · exact steady_applyConstant _ _ _ _
  · exact along_ite ((steady_toScratch _).bind fun _ => steady_emit _)
      ((steady_location _).bind fun _ => (steady_emitAt _ _).discard)

theorem steady_withoutUse (res : Gpr) (right : Operand) : Steady (withoutUse res right) := by
  unfold withoutUse
  exact along_ite ((steady_location _).bind fun _ =>
    along_ite ((steady_toScratch _).bind fun _ => along_pure _) (along_pure _)) (along_pure _)

theorem steady_binary (op : Binary) (left right result : Operand) :
    Steady (binary op left right result) := by
  unfold binary
  refine (steady_gpr _).bind fun res => along_ite ?_ (along_ite (along_ite ?_ ?_) ?_)
  · exact (steady_mov _ _ _).bind fun _ => steady_applyBinary _ _ _ _
  · exact steady_applyBinary _ _ _ _
  · exact (steady_emit _).bind fun _ => (steady_mov _ _ _).bind fun _ => steady_emit _
  · exact (steady_withoutUse _ _).bind fun _ => (steady_mov _ _ _).bind fun _ =>
      steady_applyBinary _ _ _ _

theorem steady_divideUnsigned (wide : Bool) (divisor : Gpr) :
    Steady (divideUnsigned wide divisor) :=
  (steady_emit _).bind fun _ => steady_position.bind fun _ =>
    (steady_emit _).bind fun _ => along_pure _

theorem steady_shift (op : ShiftOp) (value count result : Operand) :
    Steady (shift op value count result) := by
  unfold shift
  refine (steady_gpr _).bind fun res => ?_
  dsimp only
  split
  · exact (steady_mov _ _ _).bind fun _ => along_ite (steady_emit _) (along_pure _)
  · exact (steady_gpr _).bind fun _ =>
      along_ite (steady_unhandled _) (along_ite (steady_unhandled _)
      ((steady_mov _ _ _).bind fun _ => steady_emit _))
  · exact steady_unhandled _

theorem steady_negateInteger (value result : Operand) : Steady (negateInteger value result) :=
  (steady_gpr _).bind fun _ => (steady_mov _ _ _).bind fun _ => steady_emit _

theorem steady_absInteger (value result : Operand) : Steady (absInteger value result) :=
  (steady_gpr _).bind fun _ => (steady_mov _ _ _).bind fun _ => (steady_emit _).bind fun _ =>
    (steady_emit _).bind fun _ => (steady_emit _).bind fun _ => steady_emit _

theorem steady_significantBit (most : Bool) (value result : Operand) :
    Steady (significantBit most value result) := by
  unfold significantBit
  exact (steady_gpr _).bind fun _ => (steady_inGpr _).bind fun _ => (steady_emit _).bind fun _ =>
    (steady_emit _).bind fun _ => along_ite (steady_emit _) (along_pure _)

theorem steady_applySse (op : SseOp) (double : Bool) (dst : Xmm) (right : Operand) :
    Steady (applySse op double dst right) := by
  unfold applySse
  split
  · exact (steady_xmm _).bind fun _ => steady_emit _
  · exact (steady_toFloatScratch _).bind fun _ => steady_emit _
  · exact (steady_location _).bind fun _ => (steady_emitAt _ _).discard

theorem steady_floatArith (op : ArithOp) (left right result : Operand) :
    Steady (floatArith op left right result) := by
  unfold floatArith
  split
  · exact steady_unhandled _
  · refine (steady_xmm _).bind fun res => along_ite (along_ite ?_ ?_) ?_
    · exact steady_applySse _ _ _ _
    · exact (steady_emit _).bind fun _ => (steady_mov _ _ _).bind fun _ => steady_emit _
    · exact (steady_mov _ _ _).bind fun _ => steady_applySse _ _ _ _

theorem steady_applyMask (op : PackedOp) (double : Bool) (lane : UInt64) (value result : Operand) :
    Steady (applyMask op double lane value result) :=
  (steady_xmm _).bind fun _ => (steady_mov _ _ _).bind fun _ => (steady_onData _).bind fun _ =>
    (steady_emitAt _ _).discard

theorem steady_negate (value result : Operand) : Steady (negate value result) :=
  along_ite (steady_applyMask _ _ _ _ _) (steady_negateInteger _ _)

theorem steady_abs (value result : Operand) : Steady (abs value result) :=
  along_ite (steady_applyMask _ _ _ _ _) (steady_absInteger _ _)

theorem steady_sqrt (value result : Operand) : Steady (sqrt value result) :=
  (steady_xmm _).bind fun _ => steady_applySse _ _ _ _

/-! ### Compares and conversions -/

theorem steady_compareFloat (double : Bool) (left right : Operand) :
    Steady (compareFloat double left right) := by
  unfold compareFloat
  refine (steady_xmm left).bind fun a => ?_
  split
  · exact (steady_xmm _).bind fun _ => steady_emit _
  · exact (steady_toFloatScratch _).bind fun _ => steady_emit _
  · exact (steady_location _).bind fun _ => (steady_emitAt _ _).discard

theorem steady_compareConstant (wide : Bool) (left : Gpr) (c : Constant) :
    Steady (compareConstant wide left c) := by
  unfold compareConstant
  refine along_ite (steady_emit _) ?_
  split
  · exact steady_emit _
  · refine along_ite (steady_unhandled _) ?_
    split
    · exact (steady_objectToRegister _ _).bind fun _ => steady_emit _
    · exact (steady_emit _).bind fun _ => steady_emit _

theorem steady_compareRegister (wide : Bool) (left : Gpr) (right : Operand) :
    Steady (compareRegister wide left right) := by
  unfold compareRegister
  split
  · exact (steady_gpr _).bind fun _ => steady_emit _
  · exact steady_compareConstant _ _ _
  · exact along_ite
      (along_ite (steady_unhandled _) ((steady_toScratch _).bind fun _ => steady_emit _))
      ((steady_location _).bind fun _ => (steady_emitAt _ _).discard)

theorem steady_compareMemoryConstant (wide : Bool) (l : Location) (c : Constant) :
    Steady (compareMemoryConstant wide l c) := by
  unfold compareMemoryConstant
  refine along_ite ?_ (steady_emitAt _ _).discard
  split
  · exact (steady_objectToRegister _ _).bind fun _ => (steady_emitAt _ _).discard
  · exact (steady_emit _).bind fun _ => (steady_emitAt _ _).discard

theorem steady_compareMemory (kind : Kind) (l : Location) (right : Operand) :
    Steady (compareMemory kind l right) := by
  unfold compareMemory
  refine along_ite ((steady_loadGpr _ _ _).discard.bind fun _ => steady_compareRegister _ _ _) ?_
  split
  · exact (steady_gpr _).bind fun _ => (steady_emitAt _ _).discard
  · exact steady_compareMemoryConstant _ _ _
  · exact (steady_loadGpr _ _ _).discard.bind fun _ => steady_compareRegister _ _ _

theorem steady_compare (left right : Operand) : Steady (compare left right) := by
  unfold compare
  refine along_ite (steady_compareFloat _ _ _) ?_
  split
  · exact (steady_gpr _).bind fun _ => steady_compareRegister _ _ _
  · exact steady_unhandled _
  · exact (steady_location _).bind fun _ => steady_compareMemory _ _ _

theorem steady_extend (ext : Extension) (src dst : Operand) : Steady (extend ext src dst) := by
  unfold extend
  refine (steady_gpr dst).bind fun d => ?_
  split
  · exact (steady_gpr _).bind fun _ => steady_emit _
  · exact steady_emit _
  · exact (steady_location _).bind fun _ => (steady_emitAt _ _).discard

theorem steady_narrow (src dst : Operand) : Steady (narrow src dst) := by
  unfold narrow
  refine (steady_gpr dst).bind fun d => ?_
  split
  · exact (steady_gpr _).bind fun _ => steady_emit _
  · exact (steady_location _).bind fun _ => (steady_emitAt _ _).discard

theorem steady_intToFloat (double long : Bool) (src dst : Operand) :
    Steady (intToFloat double long src dst) :=
  (steady_xmm _).bind fun _ => (steady_inGpr _).bind fun _ => steady_emit _

theorem steady_floatToFloat (toDouble : Bool) (src dst : Operand) :
    Steady (floatToFloat toDouble src dst) :=
  (steady_xmm _).bind fun _ => (steady_inXmm _).bind fun _ => steady_emit _

theorem steady_bitsToFloat (long : Bool) (src dst : Operand) : Steady (bitsToFloat long src dst) :=
  (steady_xmm _).bind fun _ => (steady_gpr _).bind fun _ => steady_emit _

theorem steady_floatToBits (long : Bool) (src dst : Operand) : Steady (floatToBits long src dst) :=
  (steady_gpr _).bind fun _ => (steady_xmm _).bind fun _ => steady_emit _

/-! ### Frames and calls -/

theorem steady_bangPages (page count i : Nat) : Steady (bangPages page count i) := by
  induction count generalizing i with
  | zero => exact along_pure ()
  | succ count ih =>
    exact (steady_ofExcept _).bind fun _ => (steady_emit _).bind fun _ => ih (i + 1)

theorem steady_bangStack : Steady bangStack := along_get.bind fun _ => steady_bangPages _ _ _

theorem steady_forSaved (general : Gpr → Mem → Instr) (floating : Xmm → Mem → Instr) :
    Steady (forSaved general floating) :=
  along_get.bind fun _ => along_forM fun _ => (steady_ofExcept _).bind fun _ => steady_emit _

theorem steady_pushFrame : Steady pushFrame := by
  have hsave : Steady (forSaved (.store true) (.movsStore true)) := steady_forSaved _ _
  unfold pushFrame
  refine along_get.bind fun d => ?_
  have hfill : Steady (if d.target.options.zapStackOnEntry then do
      (List.range ((d.frame.size + 3) / 4)).forM fun i => emit (zapInstr (4 * i))
      forSaved (.store true) (.movsStore true)
    else forSaved (.store true) (.movsStore true)) :=
    along_ite ((along_forM fun _ => steady_emit _).bind fun _ => hsave) hsave
  simp only []
  refine along_ite ?_ hfill
  split
  · exact (along_throw _).bind fun _ => hfill
  · exact (steady_emit _).bind fun _ => hfill

theorem steady_popFrame : Steady popFrame :=
  (steady_forSaved _ _).bind fun _ => along_get.bind fun _ =>
    along_ite (steady_emit _) (along_pure _)

theorem steady_ret (value : Option Operand) : Steady (ret value) := by
  have hleave : Steady (popFrame >>= fun _ => emit .ret) :=
    steady_popFrame.bind fun _ => steady_emit _
  unfold ret
  split
  · exact (steady_mov _ _ _).bind fun _ => hleave
  · exact hleave

theorem steady_frameAddress (res : Gpr) (offset : Nat) : Steady (frameAddress res offset) :=
  (steady_stackMem _).bind fun _ => steady_emit _

theorem steady_monitorAddress (index : Nat) (result : Operand) :
    Steady (monitorAddress index result) :=
  (steady_gpr _).bind fun _ => along_get.bind fun _ =>
    along_ite (steady_unhandled _) (steady_frameAddress _ _)

theorem steady_stackAllocate (block : Nat) (result : Operand) :
    Steady (stackAllocate block result) := by
  unfold stackAllocate
  refine (steady_gpr _).bind fun res => along_get.bind fun d => ?_
  dsimp only
  split
  · exact steady_unhandled _
  · exact steady_frameAddress _ _

theorem steady_recordCall (start : Nat) (target : Option CallTarget) (info : Option DebugInfo)
    (direct : Bool) :
    Steady (recordCall start target info direct) := by
  unfold recordCall
  refine steady_position.bind fun pc => (steady_record _).bind fun _ => ?_
  split
  · exact steady_record _
  · exact along_pure _

theorem steady_nopAfterCall : Steady nopAfterCall :=
  along_get.bind fun _ => along_ite (steady_emitBytes _) (along_pure _)

theorem steady_directCall (target : CallTarget) (info : Option DebugInfo) :
    Steady (directCall target info) := by
  unfold directCall
  refine along_get.bind fun d => ?_
  extract_lets call
  have hcall : ∀ u, Steady (call u) :=
      fun _ => steady_position.bind fun _ => (steady_emitLinked _ _).bind fun _ =>
    (steady_recordCall _ _ _ _).bind fun _ => steady_nopAfterCall
  exact along_ite (steady_position.bind fun _ => (steady_emitBytes _).bind hcall) (hcall ())

theorem steady_indirectCall (address : Operand) (target : Option CallTarget) (info : DebugInfo) :
    Steady (indirectCall address target info) :=
  (steady_inGpr _).bind fun _ => steady_position.bind fun _ => (steady_emit _).bind fun _ =>
    (steady_recordCall _ _ _ _).bind fun _ => steady_nopAfterCall

theorem steady_throwException (unwind : Bool) (info : DebugInfo) :
    Steady (throwException unwind info) :=
  (steady_directCall _ _).bind fun _ => along_get.bind fun _ =>
    along_ite (steady_emitBytes _) (along_pure _)

theorem steady_safepoint (info : DebugInfo) : Steady (safepoint info) :=
  steady_position.bind fun _ => (steady_record _).bind fun _ => steady_emit _

theorem steady_nullCheck (object : Operand) (info : DebugInfo) : Steady (nullCheck object info) :=
  (steady_gpr _).bind fun _ => steady_position.bind fun _ => (steady_emit _).bind fun _ =>
    steady_recordTrap _ _

theorem steady_lea (address result : Operand) : Steady (lea address result) :=
  (steady_gpr _).bind fun _ => (steady_location _).bind fun _ => (steady_emitAt _ _).discard

theorem steady_compareAndSwap (cell expected newValue : Operand) :
    Steady (compareAndSwap cell expected newValue) := by
  unfold compareAndSwap
  split
  · exact steady_unhandled _
  · exact (steady_gpr _).bind fun _ => along_ite (steady_unhandled _) ((steady_gpr _).bind fun _ =>
      (steady_location _).bind fun _ => along_ite (steady_unhandled _) (steady_emitAt _ _).discard)

theorem steady_memoryBarrier (barriers : Barriers) : Steady (memoryBarrier barriers) :=
  along_ite (steady_emit _) (along_pure _)

theorem steady_prologue : Steady prologue := by
  unfold prologue
  refine (steady_setCurrent _).bind fun _ => steady_position.bind fun start =>
    along_get.bind fun d => ?_
  extract_lets enter
  have henter : ∀ u, Steady (enter u) := by
    intro u
    refine steady_pushFrame.bind fun _ => steady_position.bind fun stop => ?_
    split
    · exact (steady_record _).bind fun _ => steady_log _
    · exact steady_log _
  exact along_ite (steady_bangStack.bind henter) (henter ())

/-! ### Conditional moves -/

theorem steady_preloaded (second result : Operand) : Steady (preloaded second result) := by
  unfold preloaded
  split
  · exact along_pure _
  · exact along_ite ((steady_location _).bind fun _ =>
      along_ite ((steady_toScratch _).bind fun _ => along_pure _) (along_pure _)) (along_pure _)

theorem steady_cmov (cond : Cond) (wide : Bool) (dst : Gpr) (src : Operand) :
    Steady (cmov cond wide dst src) := by
  unfold cmov
  split
  · exact (steady_gpr _).bind fun _ => steady_emit _
  · exact (steady_location _).bind fun _ => (steady_emitAt _ _).discard

/-! ### Templates -/

theorem steady_operand (x : Expansion) (index : Nat) : Steady (x.operand index) := by
  unfold Expansion.operand
  split
  · exact along_pure _
  · exact along_throw _

theorem steady_needInfo (x : Expansion) (what : String) : Steady (x.needInfo what) := by
  unfold Expansion.needInfo
  split
  · exact along_pure _
  · exact along_throw _

theorem steady_cell (x : Expansion) (pointer index : Nat) (scale : Scale) (disp : Int32) :
    Steady (cell x pointer index scale disp) := by
  unfold cell
  refine (steady_operand _ _).bind fun i => (steady_operand _ _).bind fun p =>
    (steady_inGpr _).bind fun base => ?_
  split
  · exact (steady_ofExcept _).bind fun _ => along_pure _
  · exact (steady_gpr _).bind fun _ => along_ite (steady_unhandled _) (along_pure _)
  · exact steady_unhandled _

theorem steady_readCell (l : Location) (result : Operand) : Steady (readCell l result) := by
  unfold readCell
  dsimp only
  split
  · exact steady_load _ _ _
  · exact steady_unhandled _
  · exact (steady_loadGpr _ _ _).bind fun _ => (steady_location _).bind fun _ =>
      (steady_storeGpr _ _ _).discard.bind fun _ => along_pure _

theorem steady_writeCell (l : Location) (value : Operand) : Steady (writeCell l value) := by
  unfold writeCell
  refine along_ite (steady_unhandled _) ?_
  split
  · exact steady_store _ _ _
  · exact steady_constantToMemory _ _ _
  · exact (steady_location _).bind fun _ => (steady_loadGpr _ _ _).discard.bind fun _ =>
      steady_storeGpr _ _ _

theorem steady_templateTrap (x : Expansion) (canTrap : Bool) (pc : Nat) :
    Steady (templateTrap x canTrap pc) :=
  along_ite ((steady_needInfo _ _).bind fun _ => steady_recordTrap _ _) (along_pure _)

theorem steady_passArguments (x : Expansion) (count : Nat) (args : List Nat) (ints : List Gpr)
    (floats : List Xmm) :
    Steady (passArguments x count args ints floats) := by
  induction args generalizing ints floats with
  | nil => exact along_pure ()
  | cons arg args ih =>
    unfold passArguments
    refine (steady_operand _ _).bind fun o => along_ite ?_ ?_
    · cases floats with
      | nil => exact steady_unhandled _
      | cons r floats => exact (steady_mov _ _ _).bind fun _ => ih ints floats
    · cases ints with
      | nil => exact steady_unhandled _
      | cons r ints => exact (steady_mov _ _ _).bind fun _ => ih ints floats

theorem steady_templateCall (x : Expansion) (target : CallTarget) (args : List Nat)
    (result : Option Nat) (info : Option DebugInfo) :
    Steady (templateCall x target args result info) := by
  unfold templateCall
  refine (steady_passArguments _ _ _ _ _).bind fun _ => (steady_directCall _ _).bind fun _ => ?_
  split
  · exact along_pure _
  · exact (steady_operand _ _).bind fun _ => steady_mov _ _ _

theorem steady_popOperand (result : Operand) : Steady (popOperand result) := by
  unfold popOperand
  split
  · exact (steady_gpr _).bind fun _ => steady_emit _
  · exact (steady_emit _).bind fun _ => steady_mov _ _ _

end Lower

end MachineCode
