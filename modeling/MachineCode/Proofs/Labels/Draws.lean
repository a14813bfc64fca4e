import MachineCode.Proofs.Labels.Arena

/-! The labels that lowering makes. An operation asks for the labels that it names. Besides it makes
labels of its own, a number of them that can be told from the operation. -/
namespace MachineCode

open X64 CodeBuffer Step

variable {α β : Type} {known cap n m : Nat} {l : Label}

theorem CodeBuffer.lt_of_mem_newLabels {b : CodeBuffer} (hl : l ∈ (b.newLabels n).1) :
    l.index < (b.withLabels n).labels.size := by
  obtain ⟨i, hi, rfl⟩ := List.mem_map.mp hl
  exact size_withLabels b n ▸ (List.mem_range'_1.mp hi).2

namespace Draft

variable {d d' d'' : Draft}

/-- Labels that are bound are below the limit, and those of code that has been put off are there. -/
structure Fit (d : Draft) : Prop where
  bound : d.buffer.BoundBelow
  pending : ∀ path ∈ d.pending, ∀ l ∈ path.labels, l.index < d.buffer.labels.size

/-- Labels are asked for, up to `cap` of them and up to the limit, and `n` are made besides at
most. -/
structure Widens (cap n : Nat) (d d' : Draft) : Prop where
  le : d.buffer.labels.size ≤ d'.buffer.labels.size
  bounded : d'.buffer.labels.size ≤ max d.buffer.labels.size (min cap labelLimit) + n
  fit : d.Fit → d'.Fit

theorem Widens.trans (h : d.Widens cap n d')
    (h' : d'.Widens cap m d'') : d.Widens cap (n + m) d'' := by
  refine ⟨Nat.le_trans h.le h'.le, ?_, h'.fit ∘ h.fit⟩
  have := h.bounded
  have := h'.bounded
  omega

theorem Widens.mono (h : d.Widens cap n d') (hn : n ≤ m) : d.Widens cap m d' :=
  ⟨h.le, Nat.le_trans h.bounded (Nat.add_le_add_left hn _), h.fit⟩

theorem Same.widens (h : d.Same d') : d.Widens cap n d' := by
  have hsize : d'.buffer.labels.size = d.buffer.labels.size := congrArg Array.size h.labels
  refine ⟨Nat.le_of_eq hsize.symm, by omega, fun hd => ⟨fun l p hp => hd.bound l p ?_, ?_⟩⟩
  · rwa [labelOffset, h.labels] at hp
  · rw [h.pending, hsize]
    exact hd.pending

/-- A step on the code buffer. -/
theorem widens_of_buffer {b : CodeBuffer} (hle : d.buffer.labels.size ≤ b.labels.size)
    (hbounded : b.labels.size ≤ max d.buffer.labels.size (min cap labelLimit) + n)
    (hbelow : d.buffer.BoundBelow → b.BoundBelow) : d.Widens cap n { d with buffer := b } :=
  ⟨hle, hbounded, fun hd =>
    ⟨hbelow hd.bound, fun path hpath l hl => Nat.lt_of_lt_of_le (hd.pending path hpath l hl) hle⟩⟩

theorem widens_withLabels (d : Draft) (count : Nat) :
    d.Widens cap count { d with buffer := d.buffer.withLabels count } := by
  have hsize := size_withLabels d.buffer count
  exact widens_of_buffer (by omega) (by omega) fun hb l p hp =>
    hb l p (labelOffset_withLabels.symm.trans hp)

end Draft

namespace Lower

/-- Where the labels below `known` are there, the step asks for labels up to `cap` and makes `n` at
most. -/
def Draws (known cap n : Nat) (x : Lower α) : Prop :=
  ∀ d : Draft, known ≤ d.buffer.labels.size → d.Widens cap n (final x d)

/-! ### Rules -/

theorem draws_of_steady {x : Lower α} (h : Steady x) : Draws known cap n x :=
  fun d _ => (h d).widens

theorem Draws.mono {x : Lower α} (h : Draws known cap n x) (hn : n ≤ m) : Draws known cap m x :=
  fun d hd => (h d hd).mono hn

theorem Draws.bind {x : Lower α} {f : α → Lower β} (hx : Draws known cap n x)
    (hf : ∀ a, Draws known cap m (f a)) : Draws known cap (n + m) (x >>= f) := by
  intro d hd
  have h := hx d hd
  obtain ⟨a, -, hfinal⟩ | ⟨-, hfinal⟩ := final_bind x f d
  · exact hfinal ▸ h.trans (hf a _ (Nat.le_trans hd h.le))
  · exact hfinal ▸ h.mono (Nat.le_add_right n m)

/-- A step that makes no labels, in front of one that does. -/
theorem Draws.andThen {x : Lower α} {f : α → Lower β} (hx : Draws known cap 0 x)
    (hf : ∀ a, Draws known cap n (f a)) : Draws known cap n (x >>= f) :=
  Nat.zero_add n ▸ hx.bind hf

theorem draws_after {x : Lower α} {f : α → Lower β} (hx : Steady x)
    (hf : ∀ a, Draws known cap n (f a)) :
    Draws known cap n (x >>= f) :=
  (draws_of_steady hx).andThen hf

theorem draws_ite {p : Prop} [Decidable p] {x y : Lower α} (hx : Draws known cap n x)
    (hy : Draws known cap n y) :
    Draws known cap n (if p then x else y) := by
  split <;> assumption

theorem draws_forM {xs : List α} {f : α → Lower PUnit} {n : α → Nat}
    (hf : ∀ a ∈ xs, Draws known cap (n a) (f a)) : Draws known cap (xs.map n).sum (xs.forM f) := by
  induction xs with
  | nil => exact draws_of_steady (along_pure _)
  | cons a xs ih =>
    obtain ⟨ha, hxs⟩ := List.forall_mem_cons.mp hf
    exact ha.bind fun _ => ih hxs

/-! ### Primitives -/

theorem final_onBuffer (x : BufferStep α) (d : Draft) :
    final (onBuffer x) d = { d with buffer := final x d.buffer } := by
  unfold final onBuffer
  dsimp only
  cases x d.buffer <;> rfl

theorem draws_onBuffer {x : BufferStep α} (hx : Along (CodeBuffer.Widens n) x)
    (hn : n ≤ max known cap) :
    Draws known cap 0 (onBuffer x) := by
  intro d hd
  rw [final_onBuffer]
  have h := hx d.buffer
  refine Draft.widens_of_buffer h.le ?_ h.below
  have := h.bounded
  omega

theorem draws_reserveLabels (hn : n ≤ max known cap) : Draws known cap 0 (reserveLabels n) :=
  draws_onBuffer (along_reserveLabels n) hn

theorem draws_reference (hl : l.index < max known cap) (kind : ReferenceKind) :
    Draws known cap 0 (onBuffer (CodeBuffer.reference l kind)) :=
  draws_onBuffer (along_reference l kind) hl

theorem draws_jmp (hl : l.index < max known cap) : Draws known cap 0 (jmp l) :=
  draws_onBuffer (along_branch _ _ l) hl

theorem draws_jcc (cond : Cond) (hl : l.index < max known cap) : Draws known cap 0 (jcc cond l) :=
  draws_onBuffer (along_branch _ _ l) hl

theorem draws_jccShort (cond : Cond) (hl : l.index < max known cap) :
    Draws known cap 0 (jccShort cond l) :=
  draws_onBuffer ((along_emit _).bind fun _ => along_reference l _) hl

theorem draws_bind (hl : l.index < max known cap) : Draws known cap 0 (bind l) := by
  refine (draws_onBuffer (CodeBuffer.along_bind l) hl).andThen fun newly => ?_
  exact draws_ite (draws_after steady_position fun _ => draws_of_steady (steady_log _))
    (draws_of_steady (along_pure _))

theorem draws_newLabels {count : Nat} {f : List Label → Lower α}
    (hf : ∀ k ls, known ≤ k → (∀ l ∈ ls, l.index < k) → Draws k cap n (f ls)) :
    Draws known cap (count + n) (newLabels count >>= f) := by
  intro d hd
  have hle : known ≤ (d.buffer.withLabels count).labels.size :=
    size_withLabels d.buffer count ▸ Nat.le_add_right_of_le hd
  exact (d.widens_withLabels count).trans
    (hf _ _ hle (fun _ => lt_of_mem_newLabels) _ (Nat.le_refl _))

theorem draws_newLabel {f : Label → Lower α}
    (hf : ∀ k l, known ≤ k → l.index < k → Draws k cap n (f l)) :
    Draws known cap (1 + n) (newLabel >>= f) := by
  intro d hd
  have hmade : d.Widens cap 1 { d with buffer := d.buffer.newLabel.2 } := by
    rw [newLabel_eq]
    exact d.widens_withLabels 1
  refine hmade.trans
    (hf (d.buffer.labels.size + 1) ⟨d.buffer.labels.size⟩ (Nat.le_add_right_of_le hd)
    (Nat.lt_succ_self _) _ ?_)
  exact Nat.le_of_eq (newLabel_eq d.buffer ▸ (size_withLabels d.buffer 1).symm)

theorem draws_enqueue {path : SlowPath} (hpath : ∀ l ∈ path.labels, l.index < known) :
    Draws known cap 0 (enqueue path) := by
  refine fun d hd =>
    ⟨Nat.le_refl _, Nat.le_max_left _ _, fun hfit => ⟨hfit.bound, fun q hq l hl => ?_⟩⟩
  obtain hq | rfl := Array.mem_push.mp hq
  · exact hfit.pending q hq l hl
  · exact Nat.lt_of_lt_of_le (hpath l hl) hd

/-! ### Arithmetic -/

theorem draws_guardDivision {done : Label} (wide rem : Bool) (divisor : Gpr)
    (hdone : done.index < known) :
    Draws known cap 1 (guardDivision wide rem divisor done) := by
  unfold guardDivision
  refine draws_newLabel (n := 0) fun k normal hk hnormal => ?_
  extract_lets leave check
  have hleave : ∀ u, Draws k cap 0 (leave u) := fun _ =>
    draws_after (steady_emit _) fun _ => (draws_jccShort _ (by omega)).andThen fun _ =>
      draws_bind (by omega)
  have hcheck : ∀ u, Draws k cap 0 (check u) :=
      fun _ => (draws_jccShort _ (by omega)).andThen fun _ =>
    draws_ite (draws_after (steady_emit _) hleave) (hleave ())
  exact draws_ite (draws_after (steady_emit _) fun _ => draws_after (steady_emit _) hcheck)
    (draws_after (steady_emit _) hcheck)

theorem draws_divideSigned (wide rem : Bool) (divisor : Gpr) :
    Draws known cap 2 (divideSigned wide rem divisor) := by
  unfold divideSigned
  refine draws_newLabel (n := 1) fun k done _ hdone => draws_after along_get fun d => ?_
  extract_lets division
  have hdivision : ∀ u, Draws k cap 0 (division u) := fun _ =>
    draws_after (steady_emit _) fun _ => draws_after steady_position fun _ =>
      draws_after (steady_emit _) fun _ =>
      (draws_bind (by omega)).andThen fun _ => draws_of_steady (along_pure _)
  exact draws_ite ((draws_guardDivision _ _ _ hdone).bind hdivision)
    ((hdivision ()).mono (Nat.zero_le 1))

/-- Only signed divisions make labels. -/
theorem draws_divide (isSigned rem : Bool) (left right result : Operand) (info : Option DebugInfo) :
    Draws known cap (if isSigned then 2 else 0) (divide isSigned rem left right result info) := by
  unfold divide
  refine draws_after (steady_gpr _) fun divisor =>
    draws_ite (draws_of_steady (steady_unhandled _)) ?_
  refine draws_after (steady_mov _ _ _) fun _ => ?_
  extract_lets out leave division
  have hleave : ∀ u, Draws known cap 0 (leave u) := fun _ => draws_of_steady (steady_mov _ _ _)
  have hdivision : ∀ pc, Draws known cap 0 (division pc) := by
    intro pc
    cases info with
    | none => exact hleave ()
    | some info => exact draws_after (steady_recordTrap _ _) hleave
  cases isSigned with
  | true => exact (draws_divideSigned _ _ _).bind hdivision
  | false => exact draws_after (steady_divideUnsigned _ _) hdivision

end Lower

/-- The number of labels that the operation makes at most. -/
def ArithOp.fresh : ArithOp → Nat
  | .div | .rem => 2
  | _ => 0

namespace Lower

theorem draws_arith (op : ArithOp) (left right result : Operand) (info : Option DebugInfo) :
    Draws known cap op.fresh (arith op left right result info) := by
  refine draws_ite (draws_of_steady (steady_floatArith _ _ _ _)) ?_
  cases op with
  | add | sub | mul => exact draws_of_steady (steady_binary _ _ _ _)
  | div | rem => exact draws_divide true _ _ _ _ _
  | udiv | urem => exact draws_divide false _ _ _ _ _

/-! ### Compares and conversions -/

theorem draws_lessOrUnordered {done : Label} (op : CompareToIntOp) (res : Gpr)
    (hdone : done.index < known) :
    Draws known cap 0 (lessOrUnordered op res done) := by
  have hjump : ∀ cond, Draws known cap 0 (jccShort cond done) :=
    fun cond => draws_jccShort cond (by omega)
  cases op with
  | lcmp => exact draws_after (steady_emit _) fun _ => hjump _
  | fcmpl | dcmpl => exact draws_after (steady_emit _) fun _ => (hjump _).andThen fun _ => hjump _
  | fcmpg | dcmpg =>
    exact draws_after (steady_emit _) fun _ => (hjump _).andThen fun _ =>
      draws_after (steady_emit _) fun _ => hjump _

theorem draws_compareToInt (op : CompareToIntOp) (left right result : Operand) :
    Draws known cap 1 (compareToInt op left right result) := by
  refine draws_after (steady_gpr _) fun res => draws_after (steady_compare _ _) fun _ => ?_
  refine draws_newLabel (n := 0) fun k done _ hdone =>
    (draws_lessOrUnordered op res hdone).andThen fun _ => ?_
  exact draws_after (steady_emit _) fun _ => draws_after (steady_emit _) fun _ =>
    draws_bind (by omega)

theorem draws_truncate (double long : Bool) (src dst : Operand) :
    Draws known cap 2 (truncate double long src dst) := by
  rw [truncate_eq_bind]
  refine draws_after (steady_xmm _) fun x => draws_after (steady_gpr _) fun g =>
    draws_after (steady_emit _) fun _ => ?_
  refine draws_after (x := compareLeast long g) ?_ fun _ => ?_
  · exact along_ite ((steady_emit _).bind fun _ => steady_emit _) (steady_emit _)
  refine draws_newLabel (n := 1) fun j entry _ hentry =>
    draws_newLabel (n := 0) fun k resume hk hresume => ?_
  refine (draws_jcc _ (by omega)).andThen fun _ =>
    (draws_bind (by omega)).andThen fun _ => draws_enqueue ?_
  simp only [SlowPath.labels, List.forall_mem_cons, List.not_mem_nil, false_implies,
    implies_true, and_true]
  omega

theorem draws_convertFixup {entry resume : Label} (src : Xmm) (dst : Gpr) (double long : Bool)
    (hentry : entry.index < known) (hresume : resume.index < known) :
    Draws known cap 1 (convertFixup entry resume src dst double long) := by
  refine draws_newLabel (n := 0) fun k nan hk hnan => (draws_bind (by omega)).andThen fun _ => ?_
  refine draws_after (steady_emit _) fun _ => (draws_jccShort _ (by omega)).andThen fun _ => ?_
  refine draws_after (steady_emit _) fun _ => draws_after (steady_emit _) fun _ => ?_
  refine (draws_jcc _ (by omega)).andThen fun _ => draws_after (steady_emit _) fun _ => ?_
  refine (draws_jmp (by omega)).andThen fun _ => (draws_bind (by omega)).andThen fun _ => ?_
  exact draws_after (steady_emit _) fun _ => draws_jmp (by omega)

end Lower

/-- The number of labels that the operation makes at most. -/
def ConvertOp.fresh (op : ConvertOp) : Nat := if op.truncation?.isSome then 2 else 0

namespace Lower

theorem draws_convert (op : ConvertOp) (src dst : Operand) :
    Draws known cap op.fresh (convert op src dst) := by
  cases op with
  | i2l | i2b | i2c | i2s => exact draws_of_steady (steady_extend _ _ _)
  | l2i => exact draws_of_steady (steady_narrow _ _)
  | i2f | i2d | l2f | l2d => exact draws_of_steady (steady_intToFloat _ _ _ _)
  | f2d | d2f => exact draws_of_steady (steady_floatToFloat _ _ _)
  | f2i | f2l | d2i | d2l => exact draws_truncate _ _ _ _
  | movI2F | movL2D => exact draws_of_steady (steady_bitsToFloat _ _ _)
  | movF2I | movD2L => exact draws_of_steady (steady_floatToBits _ _ _)

/-! ### Branches -/

theorem draws_branch (cond : Option Condition) (hl : l.index < max known cap) :
    Draws known cap 0 (branch cond l) := by
  cases cond with
  | none => exact draws_jmp hl
  | some cond => exact draws_jcc _ hl

theorem draws_floatBranch {target unordered : Label} (cond : Condition)
    (htarget : target.index < max known cap) (hunordered : unordered.index < max known cap) :
    Draws known cap 0 (floatBranch cond target unordered) :=
  (draws_jcc _ hunordered).andThen fun _ => draws_jcc _ htarget

theorem draws_tableSwitch {targets : List Label} {default : Label} (index : Operand) (low : Int32)
    (htargets : ∀ l ∈ targets, l.index < max known cap) (hdefault : default.index < max known cap) :
    Draws known cap 0 (tableSwitch index low targets default) := by
  have hentries : ∀ table, Draws known cap 0
      (targets.forM fun l => onBuffer (CodeBuffer.reference l (.table table))) := by
    intro table
    have h := draws_forM (n := fun _ => 0) fun l hl =>
      draws_reference (htargets l hl) (.table table)
    rwa [List.map_const', List.sum_replicate_nat, Nat.mul_zero] at h
  unfold tableSwitch
  refine draws_after (steady_gpr _) fun idx => draws_ite (draws_of_steady (steady_unhandled _)) ?_
  refine draws_ite (draws_jmp hdefault) ?_
  split
  · exact draws_of_steady (steady_unhandled _)
  split
  · exact draws_of_steady (steady_unhandled _)
  extract_lets address jump dispatch
  have hdispatch : ∀ u, Draws known cap 0 (dispatch u) := by
    refine fun _ => draws_after (steady_emit _) fun _ => (draws_jcc _ hdefault).andThen fun _ => ?_
    refine draws_after steady_position fun _ => draws_after (steady_emit _) fun _ => ?_
    refine draws_after (along_forM fun _ => steady_emit _) fun _ =>
      draws_after (steady_emitAlign _) fun _ => ?_
    exact draws_after steady_position fun table => (hentries table).andThen fun _ =>
      draws_of_steady (steady_record _)
  exact draws_ite (draws_after (steady_emit _) hdispatch) (draws_after (steady_emit _) hdispatch)

theorem draws_selectByBranch (s : Selection) (second : Operand) (unorderedIsTrue : Option Bool)
    (result : Operand) :
    Draws known cap 2 (selectByBranch s second unorderedIsTrue result) := by
  refine draws_newLabel (n := 1) fun j skip _ hskip => ?_
  extract_lets keepFirst select
  have hselect : ∀ {k}, j ≤ k → ∀ u, Draws k cap 0 (select u) := fun hk _ =>
    draws_after (steady_mov _ _ _) fun _ => draws_bind (by omega)
  cases unorderedIsTrue with
  | none => exact ((draws_jcc _ (by omega)).andThen (hselect (Nat.le_refl j))).mono (Nat.zero_le 1)
  | some unorderedIsTrue =>
    refine draws_newLabel (n := 0) fun k move hk hmove => ?_
    have hfirst : (if unorderedIsTrue != s.swapped then skip else move).index < max k cap := by
      split <;> omega
    exact (draws_jcc _ hfirst).andThen fun _ => (draws_jcc _ (by omega)).andThen fun _ =>
      (draws_bind (by omega)).andThen (hselect hk)

theorem draws_condMove (cond : Condition) (unorderedIsTrue : Option Bool)
    (trueValue falseValue result : Operand) :
    Draws known cap 2 (condMove cond unorderedIsTrue trueValue falseValue result) := by
  unfold condMove
  extract_lets s
  refine draws_after (steady_preloaded _ _) fun second => draws_after (steady_mov _ _ _) fun _ => ?_
  refine draws_after along_get fun d => ?_
  extract_lets hasCmov
  split
  · exact draws_ite (draws_of_steady (steady_cmov _ _ _ _)) (draws_selectByBranch _ _ _ _)
  · exact draws_selectByBranch _ _ _ _

end Lower

/-! ### Templates -/

/-- The number of labels that the operation makes at most. -/
def TemplateBinary.fresh : TemplateBinary → Nat
  | .div | .rem => 2
  | _ => 0

/-- The number of labels that the micro-operation makes at most. -/
def MicroOp.fresh : MicroOp → Nat
  | .binary op .. => op.fresh
  | .jcc .. => 1
  | _ => 0

namespace Lower

variable {x : Expansion}

theorem draws_label {f : Label → Lower α} (hx : ∀ l ∈ x.labels, l.index < known) (index : Nat)
    (hf : ∀ l, l.index < known → Draws known cap n (f l)) :
    Draws known cap n (x.label index >>= f) := by
  unfold Expansion.label
  split
  · rename_i l hl
    rw [pure_bind]
    exact hf l (hx l (List.mem_of_getElem? hl))
  · exact fun d _ => (refl d : Draft.Same d d).widens

theorem draws_templateFloatJump {target : Label} (cond : Condition)
    (htarget : target.index < known) :
    Draws known cap 1 (templateFloatJump cond target) := by
  refine draws_ite ?_ ?_
  · exact ((draws_jcc _ (by omega)).andThen fun _ => draws_jcc _ (by omega)).mono (Nat.zero_le 1)
  · exact draws_newLabel (n := 0) fun k unordered hk hunordered =>
      (draws_jccShort _ (by omega)).andThen fun _ =>
      (draws_jcc _ (by omega)).andThen fun _ => draws_bind (by omega)

theorem draws_templateJump (hx : ∀ l ∈ x.labels, l.index < known) (cond : Condition)
    (a b target : Nat) :
    Draws known cap 1 (templateJump x cond a b target) := by
  refine draws_after (steady_operand _ _) fun a => draws_after (steady_operand _ _) fun b => ?_
  refine draws_label hx _ fun target htarget => draws_after (steady_compare _ _) fun _ => ?_
  exact draws_ite (draws_templateFloatJump _ htarget)
    ((draws_jcc _ (by omega)).mono (Nat.zero_le 1))

theorem draws_templateBinary (op : TemplateBinary) (a b result : Operand)
    (info : Option DebugInfo) :
    Draws known cap op.fresh (templateBinary op a b result info) := by
  cases op with
  | add => exact draws_arith .add _ _ _ _
  | sub => exact draws_arith .sub _ _ _ _
  | mul => exact draws_arith .mul _ _ _ _
  | div => exact draws_arith .div _ _ _ _
  | rem => exact draws_arith .rem _ _ _ _
  | and | or | xor => exact draws_of_steady (steady_binary _ _ _ _)
  | shl | shr | ushr => exact draws_of_steady (steady_shift _ _ _ _)

/-- The labels that a micro-operation names are those of its template. -/
theorem draws_microOp (hx : ∀ l ∈ x.labels, l.index < known) (op : MicroOp) :
    Draws known cap op.fresh (microOp x op) := by
  have htrap : ∀ {op : Lower Nat}, Steady op → ∀ canTrap, Steady (op >>= templateTrap x canTrap) :=
    fun h canTrap => h.bind fun pc => steady_templateTrap x canTrap pc
  have hoperand : ∀ {f : Operand → Lower Unit}, (∀ o, Steady (f o)) →
      ∀ i, Steady (x.operand i >>= f) :=
    fun hf i => (steady_operand x i).bind hf
  cases op with
  | binary op a b result =>
    exact draws_after (steady_operand _ _) fun a => draws_after (steady_operand _ _) fun b =>
      draws_after (steady_operand _ _) fun result => draws_templateBinary _ _ _ _ _
  | jmp label => exact draws_label hx _ fun l hl => draws_jmp (by omega)
  | bind label => exact draws_label hx _ fun l hl => draws_bind (by omega)
  | jcc cond a b target => exact draws_templateJump hx _ _ _ _
  | mov src dst =>
    exact draws_of_steady (hoperand (fun _ => hoperand (fun _ => steady_mov _ _ _) _) _)
  | pointerLoad pointer result canTrap =>
    exact draws_of_steady (hoperand (fun _ => (steady_inGpr _).bind fun _ =>
      hoperand (fun _ => htrap (steady_readCell _ _) _) _) _)
  | pointerStore pointer value canTrap =>
    exact draws_of_steady (hoperand (fun _ => (steady_inGpr _).bind fun _ =>
      hoperand (fun _ => htrap (steady_writeCell _ _) _) _) _)
  | pointerLoadDisp pointer index scale disp result canTrap =>
    exact draws_of_steady ((steady_cell _ _ _ _ _).bind fun _ =>
      hoperand (fun _ => htrap (steady_readCell _ _) _) _)
  | pointerStoreDisp pointer index scale disp value canTrap =>
    exact draws_of_steady ((steady_cell _ _ _ _ _).bind fun _ =>
      hoperand (fun _ => htrap (steady_writeCell _ _) _) _)
  | lea pointer index scale disp result =>
    exact draws_of_steady ((steady_cell _ _ _ _ _).bind fun _ =>
      hoperand (fun _ => (steady_gpr _).bind fun _ => steady_emit _) _)
  | here result =>
    exact draws_of_steady (hoperand (fun _ => (steady_gpr _).bind fun _ => steady_emit _) _)
  | callStub stub args result => exact draws_of_steady (steady_templateCall _ _ _ _ _)
  | callRuntime target args result useInfoAfter =>
    exact draws_of_steady (steady_templateCall _ _ _ _ _)
  | safepoint => exact draws_of_steady ((steady_needInfo _ _).bind fun _ => steady_safepoint _)
  | nullCheck pointer =>
    exact draws_of_steady ((steady_needInfo _ _).bind fun _ =>
      hoperand (fun _ => steady_nullCheck _ _) _)
  | align n => exact draws_of_steady (steady_emitAlign _)
  | stackOverflowCheck => exact draws_of_steady steady_bangStack
  | pushFrame => exact draws_of_steady steady_pushFrame
  | popFrame => exact draws_of_steady steady_popFrame
  | push value =>
    exact draws_of_steady (hoperand (fun _ => (steady_inGpr _).bind fun _ => steady_emit _) _)
  | pop result => exact draws_of_steady (hoperand (fun _ => steady_popOperand _) _)
  | mark id => exact draws_of_steady (steady_position.bind fun _ => steady_record _)
  | nop count => exact draws_of_steady (steady_emitBytes _)
  | rawBytes bytes => exact draws_of_steady (steady_emitBytes _)
  | shouldNotReachHere message =>
    cases message with
    | none => exact draws_of_steady (steady_emit _)
    | some message => exact draws_of_steady ((steady_log _).bind fun _ => steady_emit _)

/-- The code in the place of a template, behind its labels. -/
def expand (x : Expansion) : Lower Unit := do
  x.template.fastPath.forM (microOp x)
  if x.template.slowPath.isSome then enqueue (.template x)

theorem draws_expand (hx : ∀ l ∈ x.labels, l.index < known) :
    Draws known cap (x.template.fastPath.map MicroOp.fresh).sum (expand x) :=
  (draws_forM fun op _ => draws_microOp hx op).bind (m := 0) fun _ =>
    draws_ite (draws_enqueue hx) (draws_of_steady (along_pure _))

/-- A template makes its labels in one go, and its micro-operations make theirs. -/
theorem draws_template (t : Template) (operands : List Operand)
    (info infoAfter : Option DebugInfo) :
    Draws known cap (t.labelCount + (t.fastPath.map MicroOp.fresh).sum)
      (template t operands info infoAfter) :=
  draws_newLabels fun _ labels _ hlabels =>
    draws_expand (x := ⟨t, operands, labels, info, infoAfter⟩) hlabels

/-- The labels of a template are made whatever becomes of it. -/
theorem le_size_template (t : Template) (operands : List Operand)
    (info infoAfter : Option DebugInfo) (d : Draft) :
    d.buffer.labels.size + t.labelCount ≤
      (final (template t operands info infoAfter) d).buffer.labels.size := by
  let x : Expansion :=
    ⟨t, operands, (List.range' d.buffer.labels.size t.labelCount).map Label.mk, info, infoAfter⟩
  have hx : ∀ l ∈ x.labels, l.index < (d.buffer.withLabels t.labelCount).labels.size :=
    fun _ => lt_of_mem_newLabels
  have hrest : Draws _ 0 _ (expand x) := draws_expand hx
  have h := hrest { d with buffer := d.buffer.withLabels t.labelCount } (Nat.le_refl _)
  exact size_withLabels d.buffer t.labelCount ▸ h.le

theorem draws_templateSlowPath (hx : ∀ l ∈ x.labels, l.index < known) :
    Draws known cap ((x.template.slowPath.getD []).map MicroOp.fresh).sum (templateSlowPath x) :=
  (draws_forM fun op _ => draws_microOp hx op).bind (m := 0) fun _ =>
    draws_of_steady (steady_emitBytes _)

end Lower

/-! ### Operations -/

namespace Operation

/-- The labels that the operation asks for, in the order in which it does. -/
def asked : Operation → List Label
  | label l | branch _ l => [l]
  | floatBranch _ target unordered => [unordered, target]
  | tableSwitch _ _ targets default => default :: targets
  | _ => []

/-- The number of labels that the operation asks for. -/
def demand (op : Operation) : Nat := op.asked.foldl (fun n l => max n (l.index + 1)) 0

/-- The number of labels that the operation makes at most. -/
def fresh : Operation → Nat
  | arith op .. => op.fresh
  | convert op .. => op.fresh
  | compareToInt .. => 1
  | condMove .. => 2
  | template t .. => t.labelCount + (t.fastPath.map MicroOp.fresh).sum
  | _ => 0

theorem lt_demand {op : Operation} (hl : l ∈ op.asked) : l.index < op.demand :=
  le_foldl_max 0 (.inl hl)

end Operation

/-- The number of labels that the code makes at most which is put off. -/
def SlowPath.fresh : SlowPath → Nat
  | .convertFixup .. => 1
  | .template x => ((x.template.slowPath.getD []).map MicroOp.fresh).sum

namespace Lower

theorem draws_lower (op : Operation) : Draws known op.demand op.fresh (lower op) := by
  have htarget : ∀ l ∈ op.asked, l.index < max known op.demand := fun l hl =>
    Nat.lt_of_lt_of_le (Operation.lt_demand hl) (Nat.le_max_right _ _)
  cases op with
  | label l => exact draws_bind (htarget l (.head _))
  | branch cond target => exact draws_branch cond (htarget target (.head _))
  | floatBranch cond target unordered =>
    exact draws_floatBranch cond (htarget target (.tail _ (.head _))) (htarget unordered (.head _))
  | tableSwitch index low targets default =>
    obtain ⟨hdefault, htargets⟩ := List.forall_mem_cons.mp htarget
    have hswitch := draws_tableSwitch index low htargets hdefault
    exact hswitch
  | arith op left right result info => exact draws_arith _ _ _ _ _
  | convert op src dst => exact draws_convert _ _ _
  | compareToInt op left right result => exact draws_compareToInt _ _ _ _
  | condMove cond unorderedIsTrue trueValue falseValue result => exact draws_condMove _ _ _ _ _
  | template t operands info infoAfter => exact draws_template _ _ _ _
  | move src dst => exact draws_of_steady (steady_mov _ _ _)
  | logic op left right result => exact draws_of_steady (steady_binary _ _ _ _)
  | shift op value count result => exact draws_of_steady (steady_shift _ _ _ _)
  | negate value result => exact draws_of_steady (steady_negate _ _)
  | abs value result => exact draws_of_steady (steady_abs _ _)
  | sqrt value result => exact draws_of_steady (steady_sqrt _ _)
  | compare left right => exact draws_of_steady (steady_compare _ _)
  | lea address result => exact draws_of_steady (steady_lea _ _)
  | nullCheck object info => exact draws_of_steady (steady_nullCheck _ _)
  | directCall target info => exact draws_of_steady (steady_directCall _ _)
  | indirectCall address info => exact draws_of_steady (steady_indirectCall _ _ _)
  | nativeCall symbol address info => exact draws_of_steady (steady_indirectCall _ _ _)
  | ret value => exact draws_of_steady (steady_ret _)
  | safepoint info => exact draws_of_steady (steady_safepoint _)
  | monitorAddress index result => exact draws_of_steady (steady_monitorAddress _ _)
  | stackAllocate block result => exact draws_of_steady (steady_stackAllocate _ _)
  | compareAndSwap address expected newValue => exact draws_of_steady (steady_compareAndSwap _ _ _)
  | throw unwind info => exact draws_of_steady (steady_throwException _ _)
  | uncommonTrap info => exact draws_of_steady (steady_directCall _ _)
  | memoryBarrier barriers => exact draws_of_steady (steady_memoryBarrier _)
  | breakpoint | pause => exact draws_of_steady (steady_emit _)
  | align n => exact draws_of_steady (steady_emitAlign _)
  | significantBit most value result => exact draws_of_steady (steady_significantBit _ _ _)

theorem draws_operation (op : Operation) : Draws known op.demand op.fresh (operation op) := by
  refine draws_after (steady_setCurrent _) fun _ => draws_after steady_position fun start => ?_
  refine (draws_lower op).bind (m := 0) fun _ =>
    draws_after steady_position fun stop => draws_of_steady ?_
  exact along_modify fun _ => ⟨rfl, rfl⟩

theorem draws_slowPath {path : SlowPath} (hpath : ∀ l ∈ path.labels, l.index < known) :
    Draws known cap path.fresh (slowPath path) := by
  have hjournal : ∀ name start, Steady (position >>= fun stop => modify fun d : Draft =>
      { d with journal := d.journal.slowPath name start stop } : Lower PUnit) :=
    fun _ _ => steady_position.bind fun _ => along_modify fun _ => ⟨rfl, rfl⟩
  refine draws_after steady_position fun start => ?_
  cases path with
  | convertFixup entry resume src dst double long =>
    simp only [SlowPath.labels, List.forall_mem_cons] at hpath
    refine draws_after (steady_setCurrent _) fun _ => ?_
    refine (draws_convertFixup src dst double long hpath.1 hpath.2.1).bind (m := 0) fun _ => ?_
    rw [pure_bind]
    exact draws_of_steady (hjournal _ _)
  | template x =>
    refine draws_after (steady_setCurrent _) fun _ =>
      (draws_templateSlowPath hpath).bind (m := 0) fun _ => ?_
    rw [pure_bind]
    exact draws_of_steady (hjournal _ _)

end Lower

end MachineCode
