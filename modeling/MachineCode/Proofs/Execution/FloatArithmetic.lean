import MachineCode.Proofs.Execution.Counting
import MachineCode.Proofs.Execution.Integers
import MachineCode.Proofs.Execution.Switching

/-! Arithmetic on floats. Where the result register is the one of the right operand, the left
operand is only moved there when the old value has been saved, or the operands change places. -/
namespace MachineCode

open X64 Lower Machine

/-- What scalar arithmetic makes of two values of the kind. -/
def Kind.calculate (k : Kind) (op : SseOp) (a b : Word) : BitVec k.width.bits :=
  .ofNat _ (sseResult op (.ofDouble k.isDouble) (low a k.width).toNat (low b k.width).toNat)

theorem Kind.calculate_congr {k : Kind} {op : SseOp} {a a' b b' : Word}
    (ha : low a k.width = low a' k.width) (hb : low b k.width = low b' k.width) :
    k.calculate op a b = k.calculate op a' b' := by
  rw [calculate, ha, hb, calculate]

/-! ### Instructions -/

namespace Machine

/-- Of a register that receives a scalar, the low part is the scalar. -/
theorem setWidth_lane {w : Width} (old : BitVec 128) (v : Word) :
    ((old &&& ~~~(low (-1) w).setWidth 128) |||
      (v.setWidth 128 &&& (low (-1) w).setWidth 128)).setWidth w.bits =
      v.setWidth w.bits := by
  refine BitVec.eq_of_getLsbD_eq fun i hi => ?_
  have hlt : i < 64 := Nat.lt_of_lt_of_le hi w.bits_le
  have hlong : i < 128 := Nat.lt_trans hlt (by decide)
  have hones : (-1 : Word).getLsbD i = true := by
    rw [show (-1 : Word) = BitVec.allOnes 64 from rfl, BitVec.getLsbD_allOnes, decide_eq_true hlt]
  simp only [low, BitVec.getLsbD_setWidth, BitVec.getLsbD_or, BitVec.getLsbD_and,
    BitVec.getLsbD_not, hones, hi, hlt, hlong, decide_true, Bool.and_true, Bool.true_and,
    Bool.not_true, Bool.and_false, Bool.false_or]

theorem executes_sse {s : Machine} {next v : Word} {op : SseOp} {double : Bool} {dst : Xmm} {x : Xm}
    (h : s.ReadsLane next double v x) : Executes (.sse op double dst x) next s fun c =>
      (c.xmmReg dst).setWidth (laneWidth double).bits = .ofNat _ (sseResult op (.ofDouble double)
        (low ((s.xmmReg dst).setWidth 64) (laneWidth double)).toNat v.toNat) ∧
        c.memory = s.memory := by
  let r : Nat := sseResult op (.ofDouble double)
    (low ((s.xmmReg dst).setWidth 64) (laneWidth double)).toNat v.toNat
  let mask : BitVec 128 := (low (-1) (laneWidth double)).setWidth 128
  have hwrite : Yields (writeLane dst double (BitVec.ofNat 64 r)) s _ :=
    yields_setXmm (f := fun m => (m.xmmReg dst &&& ~~~mask) |||
      ((BitVec.ofNat 64 r).setWidth 128 &&& mask)) dst fun _ => rfl
  refine (yields_readLane (x := .reg dst) rfl).after
    ((yields_readLane h).after (hwrite.mono fun _ c hc => ?_))
  subst hc
  refine ⟨?_, rfl⟩
  rw [xmmReg_setXmm_self]
  exact (setWidth_lane _ _).trans (BitVec.setWidth_ofNat_of_le (Width.bits_le _) r)

end Machine

namespace Lower

variable {S : Site} {C : Context} {left right result : Operand} {x : Xmm} {op : SseOp} {w : Width}

/-- The low part of the register is what arithmetic makes of its old value and of that of the
operand. -/
def ScalarApplied (S : Site) (frame : Frame) (op : SseOp) (o : Operand)
    (x : Xmm) : Assertion := fun s c =>
  ∃ b, S.value? frame s o = some b ∧
    (c.xmmReg x).setWidth o.kind.width.bits = o.kind.calculate op ((s.xmmReg x).setWidth 64) b

theorem computes_applySse (hfloat : right.kind.isFloating = true) (hx : x ≠ floatScratch) :
    Computes S C (applySse op right.kind.isDouble x right)
      (fun s => S.Readable s ∧ S.Accessible C.frame s right)
      fun _ => ScalarApplied S C.frame op right x := by
  have hwidth := Kind.laneWidth_isDouble hfloat
  rw [applySse_eq_takeScalar]
  have htake : Computes S C (takeScalar (.sse op right.kind.isDouble x) right) _ fun _ =>
    Taken S C.frame right
      fun v s c => (c.xmmReg x).setWidth (laneWidth right.kind.isDouble).bits =
        .ofNat _ (sseResult op
        (.ofDouble right.kind.isDouble)
          (low ((s.xmmReg x).setWidth 64) (laneWidth right.kind.isDouble)).toNat v.toNat) ∧
        c.memory = s.memory :=
    computes_takeScalar hfloat (fun _ => rfl) (fun _ => rfl) (fun _ _ => rfl)
      (fun s next v y hv => executes_sse hv)
      fun v s c hc => hc.2
  refine htake.mono fun s _ hs => ⟨hs, ?_⟩
  rintro _ c ⟨b, s', ⟨hb, hkeeps⟩, hresult, -⟩
  refine ⟨b, hb, ?_⟩
  rw [hkeeps.xmms x fun h => hx h.2, hwidth] at hresult
  exact hresult

/-! ### Operands -/

/-- Operands of one floating kind, with the result in a register. Neither the result nor the left
operand is in the scratch register. -/
structure CanCalculate (left right result : Operand) (x : Xmm) : Prop where
  float : result.kind.isFloating = true
  leftKind : left.kind = result.kind
  rightKind : right.kind = result.kind
  result : xmm? result = some x
  spare : x ≠ floatScratch
  leftSpare : xmm? left ≠ some floatScratch

/-- The result register has received the operand. Nothing else has changed. -/
def Received (S : Site) (frame : Frame) (src : Operand) (x : Xmm) : Assertion := fun s c =>
  ∃ a, S.value? frame s src = some a ∧ low ((c.xmmReg x).setWidth 64) src.kind.width =
    low a src.kind.width ∧
    s.Keeps (fun _ => False) (· = x) (fun _ => False) c

/-- No move leads from a general register to a floating-point one. -/
theorem fails_acrossFiles {r r' : Register} {g : Gpr} {kind kind' : Kind}
    (hg : Gpr.ofRegister? r = some g) (hx : Xmm.ofRegister? r' = some x) :
    Fails (mov (.reg r kind) (.reg r' kind') false) := by
  have hnone : Gpr.ofRegister? r' = none := Site.gpr?_of_xmm? (o := .reg r' kind') hx
  have hne : r ≠ r' := fun h => by
    rw [h, hnone] at hg
    cases hg
  rw [show mov (.reg r kind) (.reg r' kind') false = registerToRegister r r' kind from
    by simp [mov, inData], registerToRegister, if_neg hne, hg, hnone]
  exact fails_unhandled _

theorem computes_receive {src : Operand} (hkind : src.kind = result.kind)
    (hx : xmm? result = some x) :
    Computes S C (mov src result false) (fun s => S.Readable s ∧ S.Accessible C.frame s src)
      fun _ => Received S C.frame src x := by
  cases result with
  | reg r kind =>
    cases hg : gpr? src with
    | some g =>
      cases src with
      | reg r' kind' => exact computes_of_fails (fails_acrossFiles hg hx)
      | const | stack | addr => cases hg
    | none =>
      refine (computes_mov hkind.symm (fun _ => .inr ⟨x, hx⟩)
        (fun g h => by rw [hg] at h; cases h) nofun).mono
        fun s _ hs => ⟨canMove_reg hs.1 hs.2, ?_⟩
      rintro _ c ⟨a, ha, hdelivers, -⟩
      refine ⟨a, ha, hkind ▸ hdelivers.holds.xmm x hx, hdelivers.keeps.mono ?_ ?_ ?_⟩
      · rintro g (h | ⟨h, -⟩)
        · rw [Site.gpr?_of_xmm? hx] at h
          cases h
        · cases h
      · exact fun y hy => Option.some.inj (hy.symm.trans hx)
      · rintro a ⟨l, hl, -⟩
        cases hl
  | stack | const | addr => cases hx

/-- The register of an operand. -/
theorem register?_eq_of_xmm? {o : Operand} (h : xmm? o = some x) :
    o.register? = some x.register := by
  cases o with
  | reg r kind => exact congrArg some (eq_register_of_xmm h)
  | stack | const | addr => cases h

theorem eq_of_register? {o : Operand} {r : Register}
    (h : o.register? = some r) : o = .reg r o.kind := by
  cases o with
  | reg r' kind =>
    cases h
    rfl
  | stack | const | addr => cases h

theorem xmm?_of_register? {o : Operand} (h : o.register? = some x.register) : xmm? o = some x := by
  rw [eq_of_register? h]
  exact Xmm.ofRegister?_register x

/-! ### Arithmetic -/

/-- The low part of the result register is what arithmetic makes of the values of the operands, in
either order if that is all the same. -/
def Calculated (S : Site) (frame : Frame) (op : SseOp) (left right result : Operand)
    (x : Xmm) : Assertion := fun s c =>
  ∃ a b, S.value? frame s left = some a ∧ S.value? frame s right = some b ∧
    ((c.xmmReg x).setWidth result.kind.width.bits = result.kind.calculate op a b ∨
      (op = .add ∨ op = .mul) ∧ (c.xmmReg x).setWidth result.kind.width.bits =
        result.kind.calculate op b a)

variable (h : CanCalculate left right result x)

include h in
/-- The operands change places. -/
theorem computes_exchanged (hop : op = .add ∨ op = .mul)
    (halias : right.register? = result.register?) :
    Computes S C (applySse op result.kind.isDouble x left) (CanRead S C.frame left right)
      fun _ => Calculated S C.frame op left right result x := by
  have happly : Computes S C (applySse op left.kind.isDouble x left) _ fun _ =>
      ScalarApplied S C.frame op left x :=
    computes_applySse (h.leftKind ▸ h.float) h.spare
  rw [h.leftKind] at happly
  refine happly.mono fun s _ hs => ⟨⟨hs.1, hs.2.1⟩, ?_⟩
  rintro _ c ⟨a, ha, hresult⟩
  rw [h.leftKind] at hresult
  have hright : xmm? right = some x :=
    xmm?_of_register? (halias.trans (register?_eq_of_xmm? h.result))
  exact ⟨a, _, ha, Site.value?_xmm hright, .inr ⟨hop, hresult⟩⟩

include h in
/-- The right operand is saved before the left one is moved to its register. -/
theorem computes_saved (halias : right.register? = result.register?) :
    Computes S C (emit (.movap result.kind.isDouble floatScratch x) >>=
      fun _ => mov left result false >>= fun _ =>
      emit (.sse op result.kind.isDouble x (.reg floatScratch))) (CanRead S C.frame left right)
      fun _ => Calculated S C.frame op left right result x := by
  have hright : xmm? right = some x :=
    xmm?_of_register? (halias.trans (register?_eq_of_xmm? h.result))
  have hwidth : laneWidth result.kind.isDouble = result.kind.width :=
    Kind.laneWidth_isDouble h.float
  have hsave :
      Computes S C (emit (.movap result.kind.isDouble floatScratch x))
        (CanRead S C.frame left right)
      fun _ s c => c = s.setXmm floatScratch (s.xmmReg x) :=
    computes_emit (Instr.encodable_of_none rfl) (fun _ _ _ => executes_movap)
      fun _ _ h => by rw [h]; rfl
  have hsse :
      Computes S C (emit (.sse op result.kind.isDouble x (.reg floatScratch))) (fun _ => True) _ :=
    computes_emit (Instr.encodable_of_none rfl)
      (fun s next _ => executes_sse (x := .reg floatScratch) rfl) fun _ _ h => h.2
  have hmove :
      Computes S C (mov left result false) (fun s => S.Readable s ∧ S.Accessible C.frame s left)
      fun _ => Received S C.frame left x := computes_receive h.leftKind h.result
  refine hsave.bind (fun _ => hmove.bind (R := fun _ s c => ∃ a, S.value? C.frame s left = some a ∧
      (c.xmmReg x).setWidth result.kind.width.bits =
        result.kind.calculate op a ((s.xmmReg floatScratch).setWidth 64))
    (fun _ => hsse) ?_) ?_
  · rintro s _ c - ⟨a, ha, hlow, hkeeps⟩
    refine ⟨trivial, fun _ c' hc => ⟨a, ha, ?_⟩⟩
    rw [h.leftKind] at hlow
    rw [hwidth, hlow, hkeeps.xmms _ (Ne.symm h.spare)] at hc
    exact hc.1.trans (by rw [Kind.calculate])
  · rintro s _ _ ⟨hreadable, hleft, -⟩ rfl
    have hkeeps : s.Keeps (fun _ => False) (· = floatScratch) (fun _ => False)
        (s.setXmm floatScratch (s.xmmReg x)) :=
      keeps_setXmm (X := (· = floatScratch)) rfl _
    refine ⟨⟨hreadable.keeps hkeeps, hleft.keeps hkeeps fun _ _ => id⟩, ?_⟩
    rintro _ c ⟨a, ha, hresult⟩
    rw [Site.value?_keeps hkeeps (fun _ _ => id) (fun y hy heq => h.leftSpare (heq ▸ hy))
      fun _ _ _ _ => id] at ha
    rw [xmmReg_setXmm_self] at hresult
    exact ⟨a, _, ha, Site.value?_xmm hright, .inl hresult⟩

include h in
/-- The left operand is moved to the result register, where the right one does not stand. -/
theorem computes_inOrder
    (halias : right.register? = result.register? → left.register? = result.register?) :
    Computes S C (mov left result false >>= fun _ => applySse op result.kind.isDouble x right)
      (CanRead S C.frame left right)
      fun _ => Calculated S C.frame op left right result x := by
  have happly : Computes S C (applySse op right.kind.isDouble x right) _ fun _ =>
      ScalarApplied S C.frame op right x :=
    computes_applySse (h.rightKind ▸ h.float) h.spare
  rw [h.rightKind] at happly
  have hregister := register?_eq_of_xmm? h.result
  by_cases hleft : left.register? = result.register?
  · have hvalue : xmm? left = some x := xmm?_of_register? (hleft.trans hregister)
    rw [eq_of_register? (hleft.trans hregister), eq_of_register? hregister, mov_self, pure_bind]
    rw [← eq_of_register? hregister, ← eq_of_register? (hleft.trans hregister)]
    refine happly.mono fun s _ hs => ⟨⟨hs.1, hs.2.2⟩, ?_⟩
    rintro _ c ⟨b, hb, hresult⟩
    rw [h.rightKind] at hresult
    exact ⟨_, b, Site.value?_xmm hvalue, hb, .inl hresult⟩
  · have hmove : Computes S C (mov left result false) (CanRead S C.frame left right) fun _ =>
        Received S C.frame left x :=
      (computes_receive h.leftKind h.result).mono fun s _ hs => ⟨⟨hs.1, hs.2.1⟩, fun _ _ => id⟩
    refine hmove.bind (fun _ => happly) ?_
    rintro s _ c ⟨hreadable, -, hright⟩ ⟨a, ha, hlow, hkeeps⟩
    refine ⟨⟨hreadable.keeps hkeeps, hright.keeps hkeeps fun _ _ => id⟩, ?_⟩
    rintro _ c' ⟨b, hb, hresult⟩
    rw [Site.value?_keeps hkeeps (fun _ _ => id) (fun y hy heq => ?_) fun _ _ _ _ => id] at hb
    · rw [h.rightKind] at hresult
      rw [h.leftKind] at hlow
      exact ⟨a, b, ha, hb, .inl (hresult.trans (Kind.calculate_congr hlow rfl))⟩
    · subst heq
      exact hleft (halias ((register?_eq_of_xmm? hy).trans hregister.symm))

theorem isCommutative_iff {op : ArithOp} {sse : SseOp} (h : sse? op = some sse) :
    op.isCommutative = true ↔ sse = .add ∨ sse = .mul := by
  cases op <;> cases h <;> decide

include h in
theorem computes_floatArith {op : ArithOp} {sse : SseOp} (hop : sse? op = some sse) :
    Computes S C (floatArith op left right result) (CanRead S C.frame left right)
      fun _ => Calculated S C.frame sse left right result x := by
  unfold floatArith
  rw [hop]
  dsimp only
  refine (finds_xmm result).computes fun x' hx' => ?_
  cases h.result.symm.trans hx'
  split
  · rename_i halias
    split
    · rename_i hcommutes
      exact computes_exchanged h ((isCommutative_iff hop).mp hcommutes) halias.1
    · exact computes_saved h halias.1
  · rename_i halias
    exact computes_inOrder h fun hright => not_not.mp fun hleft => halias ⟨hright, hleft⟩

/-- The root is that of the operand alone. -/
theorem computes_sqrt {value : Operand} (hkind : value.kind = result.kind)
    (hfloat : result.kind.isFloating = true) (hx : xmm? result = some x)
    (hspare : x ≠ floatScratch) :
    Computes S C (sqrt value result) (CanRead S C.frame value value)
      fun _ => Calculated S C.frame .sqrt value value result x := by
  have happly : Computes S C (applySse .sqrt value.kind.isDouble x value) _ fun _ =>
      ScalarApplied S C.frame .sqrt value x :=
    computes_applySse (hkind ▸ hfloat) hspare
  rw [hkind] at happly
  unfold sqrt
  refine (finds_xmm result).computes fun x' hx' => ?_
  cases hx.symm.trans hx'
  refine happly.mono fun s _ hs => ⟨⟨hs.1, hs.2.1⟩, ?_⟩
  rintro _ c ⟨b, hb, hresult⟩
  rw [hkind] at hresult
  exact ⟨b, b, hb, hb, .inl hresult⟩

/-- There is no code for the remainder of floats, nor for a division without signs. -/
theorem refused_floatArith {op : ArithOp} (hop : sse? op = none) :
    Refused (floatArith op left right result) := by
  unfold floatArith
  rw [hop]
  exact refused_unhandled _

end Lower

/-! ### Installed code -/

/-- A calculation of floats: the operation of the machine that it stands for, and its operands. A
root is taken of one. -/
inductive Operation.Calculates : Operation → SseOp → Operand → Operand → Operand → Prop
  | add (left right result : Operand) (info : Option DebugInfo) :
    Calculates (.arith .add left right result info) .add left right result
  | sub (left right result : Operand) (info : Option DebugInfo) :
      Calculates (.arith .sub left right result info) .sub left right result
  | mul (left right result : Operand) (info : Option DebugInfo) :
      Calculates (.arith .mul left right result info) .mul left right result
  | div (left right result : Operand) (info : Option DebugInfo) :
      Calculates (.arith .div left right result info) .div left right result
  | sqrt (value result : Operand) : Calculates (.sqrt value result) .sqrt value value result

namespace Lower

variable {S : Site} {C : Context} {op : Operation} {sse : SseOp}
  {left right result : Operand} {x : Xmm}

theorem computes_calculates (hop : op.Calculates sse left right result)
    (h : CanCalculate left right result x) :
    Computes S C (lower op) (CanRead S C.frame left right) fun _ =>
      Calculated S C.frame sse left right result x := by
  have harith : ∀ {op : ArithOp} {info : Option DebugInfo}, sse? op = some sse →
      Computes S C (arith op left right result info) (CanRead S C.frame left right)
        fun _ => Calculated S C.frame sse left right result x := fun hop => by
    rw [arith, if_pos h.float]
    exact computes_floatArith h hop
  cases hop with
  | add | sub | mul | div => exact harith rfl
  | sqrt => exact computes_sqrt h.leftKind h.float h.result h.spare

theorem counts_calculates (hop : op.Calculates sse left right result)
    (h : CanCalculate left right result x) :
    Counts S C (lower op) 1 := by
  have harith : ∀ {op : ArithOp} {info : Option DebugInfo},
      Counts S C (arith op left right result info) 1 := by
    intro op info
    rw [arith, if_pos h.float]
    exact counts_floatArith h.result
  cases hop with
  | add | sub | mul | div => exact harith
  | sqrt => exact counts_sqrt

end Lower

/-- From any state in which the operands can be accessed, the code of a calculation of floats runs
to its end, and the low part of the result register is what the scalar operation of the machine
makes of the values that the operands have had, at the width of their kind and in their order; the
terms of a sum and the factors of a product may change places. The result register may be that of
either operand. One scalar operation is executed on the way. A remainder of floats and a division
without signs are refused. -/
theorem exists_run_calculated :
    (∀ (I : Installation) (op : Operation) (sse : SseOp) (left right result : Operand)
      (x : Xmm) (start stop : Nat)
      (machine : Machine), I.HasCode op start stop → op.Calculates sse left right result →
      CanCalculate left right result x →
        machine.Loaded I.base I.image → machine.rip = I.base + BitVec.ofNat 64 start →
        CanRead I.site I.source.frame left right machine →
        ∃ machine' a b, machine.RunsTo (I.base + BitVec.ofNat 64 stop) machine' ∧
          I.site.value? I.source.frame machine left = some a ∧
          I.site.value? I.source.frame machine right = some b ∧
          ((machine'.xmmReg x).setWidth result.kind.width.bits = result.kind.calculate sse a b ∨
            (sse = .add ∨ sse = .mul) ∧ (machine'.xmmReg x).setWidth result.kind.width.bits =
              result.kind.calculate sse b a) ∧
          machine'.scalarCount = machine.scalarCount + 1) ∧
    ∀ (op : ArithOp) (left right result : Operand) (info : Option DebugInfo), op = .rem ∨
    op = .udiv ∨ op = .urem →
      result.kind.isFloating = true → ∀ d, ∃ detail d',
        operation (.arith op left right result info) d = .error (.unhandled "arith" detail) d' := by
  refine ⟨fun I op sse left right result x start stop machine hcode hop h hloaded hrip hread => ?_,
    fun op left right result info hop hfloat d => ?_⟩
  · have hlower : ∀ C, C.frame = I.source.frame →
      Computes I.site C (lower op) (CanRead I.site I.source.frame left right)
        fun _ => Calculated I.site I.source.frame sse left right result x :=
          fun C hC => hC ▸ computes_calculates hop h
    obtain ⟨machine', hrun, a, b, ha, hb, hresult⟩ :=
      hcode.exists_run hlower hloaded hrip ⟨hread.1, hread.2.1, hread.2.2⟩
    rw [Site.value?_core] at ha hb
    refine ⟨machine', a, b, hrun, ha, hb, hresult, ?_⟩
    obtain ⟨pre, new, post, final, hhosts, -, hcounts, rfl, rfl⟩ :=
      hcode.hosts fun C _ _ => counts_calculates (C := C) hop h
    exact hhosts.scalarCount_eq hcounts hloaded hrip I.fits hrun
  · have hsse : sse? op = none := by
      obtain rfl | rfl | rfl := hop <;> rfl
    have hrefused : Refused (lower (.arith op left right result info)) := by
      rw [lower, arith, if_pos hfloat]
      exact refused_floatArith hsse
    exact operation_of_refused hrefused d

/-- A number subtracted from another one, into its own register. -/
theorem exists_run_calculated_reversed :
    let left : Operand := .reg (Xmm.register ⟨0⟩) .double
    let right : Operand := .reg (Xmm.register ⟨1⟩) .double
    let machine : Machine :=
      (Machine.initial.setXmm ⟨0⟩ 0x4014000000000000).setXmm ⟨1⟩ 0x4000000000000000
    (∃ (I : Installation) (start stop : Nat) (machine' : Machine),
      I.HasCode (.arith .sub left right right none) start stop ∧
      (I.enter machine start).RunsTo (I.base + BitVec.ofNat 64 stop) machine' ∧
      (machine'.xmmReg ⟨1⟩).setWidth 64 = (0x4008000000000000 : BitVec 64) ∧
      machine'.scalarCount = (I.enter machine start).scalarCount + 1) ∧
    ∀ d, ∃ detail d', operation (.arith .rem left right right none) d =
      .error (.unhandled "arith" detail) d' := by
  intro left right machine
  refine ⟨?_, exists_run_calculated.2 .rem left right right none (.inl rfl) rfl⟩
  obtain ⟨I, start, stop, -, -, hcode, hloaded, hrip, hreadable⟩ :=
    Installation.exists_entered
      ⟨{ Options.standard with useStackBanging := false }, ⟨true, true⟩, 4096⟩
      (.arith .sub left right right none) 0x10000000 machine (by decide +kernel) rfl
  obtain ⟨machine', a, b, hrun, ha, hb, hresult, hcount⟩ :=
    exists_run_calculated.1 I _ .sub left right right ⟨1⟩ start stop
    _ hcode (.sub ..) ⟨rfl, rfl, rfl, rfl, by decide, by decide⟩ hloaded hrip
      ⟨hreadable, nofun, nofun⟩
  cases ha
  cases hb
  refine ⟨I, start, stop, machine', hcode, hrun, ?_, hcount⟩
  obtain hresult | ⟨h, -⟩ := hresult
  · refine hresult.trans ?_
    change Kind.double.calculate .sub 0x4014000000000000 0x4000000000000000 = _
    exact BitVec.eq_of_toNat_eq (by decide +kernel)
  · simp at h

end MachineCode
