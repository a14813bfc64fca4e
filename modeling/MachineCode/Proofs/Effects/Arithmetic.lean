import MachineCode.Lowering.Compare
import MachineCode.Lowering.Conversions
import MachineCode.Proofs.Effects.Moves

/-! The effects of arithmetic, comparisons and conversions: the result and the scratch registers. A
division overwrites `rax` and `rdx` as well. -/
namespace MachineCode.Lower

open X64

variable {C : Context} {e : Effect}

/-! ### Results in registers -/

theorem register?_of_gpr? {o : Operand} {g : Gpr} (h : gpr? o = some g) :
    ∃ r, o.register? = some r ∧ Gpr.ofRegister? r = some g := by
  cases o with
  | reg r kind => exact ⟨r, rfl, h⟩
  | stack | const | addr => cases h

theorem register?_of_xmm? {o : Operand} {x : Xmm} (h : xmm? o = some x) :
    ∃ r, o.register? = some r ∧ Xmm.ofRegister? r = some x := by
  cases o with
  | reg r kind => exact ⟨r, rfl, h⟩
  | stack | const | addr => cases h

theorem gprs_of_gpr? {o : Operand} {g : Gpr} (h : e.Sets o) (hg : gpr? o = some g) : e.gprs g := by
  obtain ⟨r, hr, hg⟩ := register?_of_gpr? hg
  exact (h r hr).gpr g hg

theorem xmms_of_xmm? {o : Operand} {x : Xmm} (h : e.Sets o) (hx : xmm? o = some x) : e.xmms x := by
  obtain ⟨r, hr, hx⟩ := register?_of_xmm? hx
  exact (h r hr).xmm x hx

theorem receives_register {src dst : Operand} (h : e.Sets dst) (hdst : dst.isRegister = true) :
    Receives C e src dst where
  register := h
  memory := by
    cases dst with
    | reg => simp [place?]
    | stack | const | addr => cases hdst

theorem isRegister_of_gpr? {o : Operand} {g : Gpr} (h : gpr? o = some g) : o.isRegister = true := by
  cases o with
  | reg => rfl
  | stack | const | addr => cases h

theorem isRegister_of_xmm? {o : Operand} {x : Xmm} (h : xmm? o = some x) : o.isRegister = true := by
  cases o with
  | reg => rfl
  | stack | const | addr => cases h

/-- What a step does with a result in a general register. -/
theorem does_gprResult {result : Operand} {f : Gpr → Lower Unit} (h : e.Sets result)
    (hf : ∀ g, e.gprs g → (∀ src, Receives C e src result) → Does C e (f g)) :
    Does C e (gpr result >>= f) :=
  (finds_gpr result).lowers.bind fun g hg =>
    hf g (gprs_of_gpr? h hg) fun _ => receives_register h (isRegister_of_gpr? hg)

/-- What a step does with a result in a floating-point register. -/
theorem does_xmmResult {result : Operand} {f : Xmm → Lower Unit} (h : e.Sets result)
    (hf : ∀ x, e.xmms x → (∀ src, Receives C e src result) → Does C e (f x)) :
    Does C e (xmm result >>= f) :=
  (finds_xmm result).lowers.bind fun x hx =>
    hf x (xmms_of_xmm? h hx) fun _ => receives_register h (isRegister_of_xmm? hx)

/-! ### Integers -/

theorem admits_withRm {op : Binary} {wide : Bool} {dst : Gpr} {src : Rm} {place : Mem → Location}
    (h : e.gprs dst) : e.Admits (op.withRm wide dst src).footprint place := by
  cases op with
  | alu op =>
    rw [Binary.withRm, Instr.footprint_alu]
    split
    · exact e.admits_nothing
    · exact e.admits_gpr h
  | mul => exact e.admits_gpr h

theorem does_withRm {op : Binary} {wide : Bool} {dst src : Gpr} (h : e.gprs dst) :
    Does C e (emit (op.withRm wide dst (.reg src))) :=
  does_plain (by cases op <;> rfl) rfl (admits_withRm h)

theorem does_withImm {op : Binary} {wide : Bool} {dst : Gpr} {imm : Int32} (h : e.gprs dst) :
    Does C e (emit (op.withImm wide dst imm)) := by
  cases op with
  | alu op =>
    refine does_plain rfl (Instr.footprint_aluImm op wide dst imm) ?_
    split
    · exact e.admits_nothing
    · exact e.admits_gpr h
  | mul => exact does_plain rfl rfl (e.admits_gpr h)

theorem does_applyConstant {op : Binary} {wide : Bool} {dst : Gpr} {c : Constant} (h : e.gprs dst) :
    Does C e (applyConstant op wide dst c) := by
  unfold applyConstant
  split
  · exact (does_objectToRegister e.scratch).andThen fun _ => does_withRm h
  · split
    · exact does_withImm h
    · exact (does_movImm e.scratch).andThen fun _ => does_withRm h

theorem does_applyBinary {op : Binary} {wide : Bool} {dst : Gpr} {right : Operand}
    (h : e.gprs dst) : Does C e (applyBinary op wide dst right) := by
  unfold applyBinary
  split
  · exact (finds_gpr _).lowers.andThen fun _ => does_withRm h
  · exact does_applyConstant h
  · split
    · exact (does_toScratch _).andThen fun _ => does_withRm h
    · exact (finds_location _).lowers.bind fun l hl =>
        does_at (i := fun m => op.withRm wide dst (.mem m)) hl.2
          (by cases op <;> exact fun _ => rfl)
          rfl (admits_withRm h)

theorem does_withoutUse (res : Gpr) (right : Operand) : Does C e (withoutUse res right) := by
  unfold withoutUse
  dsimp only
  split
  · refine (finds_location right).lowers.andThen fun l => ?_
    split
    · exact (does_toScratch right).andThen fun _ => does_pure _
    · exact does_pure _
  · exact does_pure _

theorem does_binary {op : Binary} {left right result : Operand} (h : e.Sets result) :
    Does C e (binary op left right result) := by
  refine does_gprResult h fun res hres hmov => ?_
  dsimp only
  split
  · exact (does_mov (hmov _)).andThen fun _ => does_applyBinary hres
  · split
    · split
      · exact does_applyBinary hres
      · exact (does_plain rfl rfl (e.admits_gpr e.scratch)).andThen fun _ =>
          (does_mov (hmov _)).andThen fun _ => does_withRm hres
    · exact (does_withoutUse _ _).andThen fun _ => (does_mov (hmov _)).andThen fun _ =>
        does_applyBinary hres

theorem does_cmpImm {wide : Bool} {r : Gpr} {imm : Int32} :
    Does C e (emit (.aluImm .cmp wide (.reg r) imm)) :=
  does_plain rfl rfl e.admits_nothing

theorem does_cmp {wide : Bool} {a b : Gpr} : Does C e (emit (.alu .cmp wide a (.reg b))) :=
  does_plain rfl rfl e.admits_nothing

theorem does_guardDivision {wide rem : Bool} {divisor : Gpr} {done : Label}
    (hfresh : e.Fresh C.labels) (hrdx : e.gprs .rdx) (hdone : e.refers done) :
    Does C e (guardDivision wide rem divisor done) := by
  unfold guardDivision
  refine lowers_newLabel.bind fun normal hnormal => ?_
  extract_lets atMinusOne atLeast
  have hone : ∀ u, Does C e (atMinusOne u) := fun _ =>
    does_cmpImm.andThen fun _ => (does_jccShort hdone).andThen fun _ =>
      does_bind (hfresh.binds normal hnormal)
  have hleast : ∀ u, Does C e (atLeast u) := by
    intro u
    refine (does_jccShort (hfresh.refers normal hnormal)).andThen fun _ => ?_
    split
    · exact (does_zero hrdx).andThen hone
    · exact hone ()
  split
  · exact (does_movImm e.scratch).andThen fun _ => does_cmp.andThen hleast
  · exact does_cmpImm.andThen hleast

/-- A division overwrites both of its registers. -/
theorem admits_division {place : Mem → Location} (hrax : e.gprs .rax) (hrdx : e.gprs .rdx) :
    e.Admits ⟨[.rax, .rdx], [], none, false⟩ place := by
  constructor <;> simp [hrax, hrdx]

theorem accesses_divideSigned {wide rem : Bool} {divisor : Gpr} (hfresh : e.Fresh C.labels)
    (hrax : e.gprs .rax) (hrdx : e.gprs .rdx) : Accesses C e (divideSigned wide rem divisor) := by
  unfold divideSigned
  refine Accesses.after lowers_newLabel fun done hdone => ?_
  refine Accesses.after lowers_get fun d _ => ?_
  extract_lets quotient
  have hquotient : ∀ u, Accesses C e (quotient u) := by
    intro u
    refine Accesses.after (p := fun _ => True)
      (does_plain (f := .gpr .rdx) ?_ ?_ (e.admits_gpr hrdx))
      fun _ _ => ?_
    · split <;> rfl
    · split <;> rfl
    · exact accesses_emit_bind ⟨Instr.encodable_of_none rfl, admits_division hrax hrdx⟩
        (hfresh.binds done hdone)
  split
  · exact Accesses.after (does_guardDivision hfresh hrdx (hfresh.refers done hdone))
      fun u _ => hquotient u
  · exact hquotient ()

theorem accesses_divideUnsigned {wide : Bool} {divisor : Gpr} (hrax : e.gprs .rax)
    (hrdx : e.gprs .rdx) : Accesses C e (divideUnsigned wide divisor) :=
  Accesses.after (does_zero hrdx) fun _ _ =>
    accesses_emit ⟨Instr.encodable_of_none rfl, admits_division hrax hrdx⟩

theorem does_divide {isSigned rem : Bool} {left right result : Operand} {info : Option DebugInfo}
    (hfresh : e.Fresh C.labels) (hrax : e.gprs .rax) (hrdx : e.gprs .rdx)
    (hinfo : ∀ i ∈ info, i.Within e) (h : ∀ src, Receives C e src result) :
    Does C e (divide isSigned rem left right result info) := by
  unfold divide
  refine (finds_gpr right).lowers.andThen fun divisor => ?_
  split
  · exact lowers_unhandled _
  · refine (does_mov (receives_reg (e.overwrites_gpr hrax))).andThen fun _ => ?_
    extract_lets out finish behind
    have hfinish : ∀ u, Does C e (finish u) := fun _ => does_mov (h _)
    have hbehind : ∀ x : Lower Nat, Accesses C e x → Does C e (x >>= behind) := by
      intro x hx
      dsimp only [behind]
      cases info with
      | none => exact hx.lowers.andThen fun _ => hfinish ()
      | some info =>
        dsimp only
        rw [← bind_assoc]
        exact (hx.trap (hinfo info rfl)).andThen hfinish
    split
    · exact hbehind _ (accesses_divideSigned hfresh hrax hrdx)
    · exact hbehind _ (accesses_divideUnsigned hrax hrdx)

/-- A division leaves its result in `rax` or `rdx`. -/
theorem does_integerArith {op : ArithOp} {left right result : Operand} {info : Option DebugInfo}
    (hfresh : e.Fresh C.labels) (hinfo : ∀ i ∈ info, i.Within e)
    (hdivision : op.isDivision = true → e.gprs .rax ∧ e.gprs .rdx)
    (h : ∀ src, Receives C e src result) : Does C e (integerArith op left right result info) := by
  cases op with
  | add | sub | mul => exact does_binary (h result).register
  | div | rem | udiv | urem =>
    obtain ⟨hrax, hrdx⟩ := hdivision rfl
    exact does_divide hfresh hrax hrdx hinfo h

theorem does_shift {op : ShiftOp} {value count result : Operand} (h : e.Sets result) :
    Does C e (shift op value count result) := by
  refine does_gprResult h fun res hres hmov => ?_
  dsimp only
  split
  · refine (does_mov (hmov _)).andThen fun _ => ?_
    split
    · exact does_plain rfl rfl (e.admits_gpr hres)
    · exact does_pure ()
  · refine (finds_gpr _).lowers.andThen fun r => ?_
    split
    · exact lowers_unhandled _
    · split
      · exact lowers_unhandled _
      · exact (does_mov (hmov _)).andThen fun _ => does_plain rfl rfl (e.admits_gpr hres)
  · exact lowers_unhandled _

theorem does_negateInteger {value result : Operand} (h : e.Sets result) :
    Does C e (negateInteger value result) :=
  does_gprResult h fun _ hres hmov => (does_mov (hmov _)).andThen fun _ =>
    does_plain rfl rfl (e.admits_gpr hres)

theorem does_absInteger {value result : Operand} (h : e.Sets result) :
    Does C e (absInteger value result) :=
  does_gprResult h fun _ hres hmov => (does_mov (hmov _)).andThen fun _ =>
    (does_plain rfl rfl (e.admits_gpr e.scratch)).andThen fun _ =>
    (does_plain rfl rfl (e.admits_gpr e.scratch)).andThen fun _ =>
    (does_plain rfl rfl (e.admits_gpr hres)).andThen fun _ =>
    does_plain rfl rfl (e.admits_gpr hres)

theorem does_significantBit {most : Bool} {value result : Operand} (h : e.Sets result) :
    Does C e (significantBit most value result) := by
  refine does_gprResult h fun res hres _ => (does_inGpr value).andThen fun src => ?_
  extract_lets tmp
  have htmp : e.gprs tmp := by
    dsimp only [tmp]
    split
    · exact e.scratch
    · exact hres
  refine (does_movImm htmp).andThen fun _ => ?_
  refine (does_plain rfl rfl (e.admits_gpr htmp)).andThen fun _ => ?_
  split
  · exact does_plain rfl rfl (e.admits_gpr hres)
  · exact does_pure ()

/-! ### Floats -/

theorem does_applySse {op : SseOp} {double : Bool} {dst : Xmm} {right : Operand} (h : e.xmms dst) :
    Does C e (applySse op double dst right) := by
  unfold applySse
  split
  · exact (finds_xmm _).lowers.andThen fun _ => does_plain rfl rfl (e.admits_xmm h)
  · exact (does_toFloatScratch _).andThen fun _ => does_plain rfl rfl (e.admits_xmm h)
  · exact (finds_location _).lowers.bind fun l hl =>
      does_at (i := fun m => .sse op double dst (.mem m)) hl.2 (fun _ => rfl) rfl (e.admits_xmm h)

theorem does_floatArith {op : ArithOp} {left right result : Operand} (h : e.Sets result) :
    Does C e (floatArith op left right result) := by
  unfold floatArith
  split
  · exact lowers_unhandled _
  · refine does_xmmResult h fun res hres hmov => ?_
    dsimp only
    split
    · split
      · exact does_applySse hres
      · exact (does_plain rfl rfl (e.admits_xmm e.floatScratch)).andThen fun _ =>
          (does_mov (hmov _)).andThen fun _ => does_plain rfl rfl (e.admits_xmm hres)
    · exact (does_mov (hmov _)).andThen fun _ => does_applySse hres

/-- Floats divide without `rax` and `rdx`. -/
theorem does_arith {op : ArithOp} {left right result : Operand} {info : Option DebugInfo}
    (hfresh : e.Fresh C.labels) (hinfo : ∀ i ∈ info, i.Within e)
    (hdivision : op.isDivision = true → e.gprs .rax ∧ e.gprs .rdx)
    (h : ∀ src, Receives C e src result) : Does C e (arith op left right result info) := by
  unfold arith
  split
  · exact does_floatArith (h result).register
  · exact does_integerArith hfresh hinfo hdivision h

theorem does_applyMask {op : PackedOp} {double : Bool} {lane : UInt64} {value result : Operand}
    (h : e.Sets result) : Does C e (applyMask op double lane value result) :=
  does_xmmResult h fun res hres hmov => (does_mov (hmov _)).andThen fun _ =>
    Lowers.andThen (does_constant _ _) fun offset =>
      does_at (i := fun m => .packed op double res (.mem m))
        (valid_ofData offset) (fun _ => rfl) rfl
        (e.admits_xmm hres)

theorem does_negate {value result : Operand} (h : e.Sets result) :
    Does C e (negate value result) := by
  unfold negate
  dsimp only
  split
  · exact does_applyMask h
  · exact does_negateInteger h

theorem does_abs {value result : Operand} (h : e.Sets result) : Does C e (abs value result) := by
  unfold abs
  dsimp only
  split
  · exact does_applyMask h
  · exact does_absInteger h

theorem does_sqrt {value result : Operand} (h : e.Sets result) : Does C e (sqrt value result) :=
  does_xmmResult h fun _ hres _ => does_applySse hres

/-! ### Compares -/

theorem does_compareFloat (double : Bool) (left right : Operand) :
    Does C e (compareFloat double left right) := by
  unfold compareFloat
  refine (finds_xmm left).lowers.andThen fun a => ?_
  split
  · exact (finds_xmm _).lowers.andThen fun _ => does_plain rfl rfl e.admits_nothing
  · exact (does_toFloatScratch _).andThen fun _ => does_plain rfl rfl e.admits_nothing
  · exact (finds_location _).lowers.bind fun l hl =>
      does_at (i := fun m => .ucomis double a (.mem m)) hl.2 (fun _ => rfl) rfl e.admits_nothing

theorem does_compareConstant (wide : Bool) (left : Gpr) (c : Constant) :
    Does C e (compareConstant wide left c) := by
  unfold compareConstant
  split
  · exact does_plain rfl rfl e.admits_nothing
  · split
    · exact does_cmpImm
    · split
      · exact lowers_unhandled _
      · extract_lets behind
        have hbehind : ∀ u, Does C e (behind u) := fun _ => does_cmp
        split
        · exact (does_objectToRegister e.scratch).andThen hbehind
        · exact (does_movImm e.scratch).andThen hbehind

theorem does_compareRegister (wide : Bool) (left : Gpr) (right : Operand) :
    Does C e (compareRegister wide left right) := by
  unfold compareRegister
  split
  · exact (finds_gpr _).lowers.andThen fun _ => does_cmp
  · exact does_compareConstant _ _ _
  · split
    · split
      · exact lowers_unhandled _
      · exact (does_toScratch _).andThen fun _ => does_cmp
    · exact (finds_location _).lowers.bind fun l hl =>
        does_at (i := fun m => .alu .cmp wide left (.mem m)) hl.2 (fun _ => rfl)
          rfl e.admits_nothing

theorem does_compareMemoryConstant {wide : Bool} {l : Location} {c : Constant} (hl : l.Valid) :
    Does C e (compareMemoryConstant wide l c) := by
  unfold compareMemoryConstant
  split
  · extract_lets behind
    have hbehind : ∀ u, Does C e (behind u) := fun _ =>
      does_at (i := (.aluStore .cmp wide · scratch)) hl (fun _ => rfl) rfl e.admits_nothing
    split
    · exact (does_objectToRegister e.scratch).andThen hbehind
    · exact (does_movImm e.scratch).andThen hbehind
  · exact does_at (i := fun m => .aluImm .cmp wide (.mem m) _) hl (fun _ => rfl)
      rfl e.admits_nothing

theorem does_compareMemory {kind : Kind} {l : Location} {right : Operand} (hl : l.Valid) :
    Does C e (compareMemory kind l right) := by
  have hload : Does C e (discard (loadGpr kind scratch l)) := (accesses_loadGpr hl e.scratch).does
  unfold compareMemory
  dsimp only
  split
  · exact hload.andThen fun _ => does_compareRegister _ _ _
  · split
    · exact (finds_gpr _).lowers.andThen fun r =>
        does_at (i := (.aluStore .cmp _ · r)) hl (fun _ => rfl) rfl e.admits_nothing
    · exact does_compareMemoryConstant hl
    · exact hload.andThen fun _ => does_compareRegister _ _ _

theorem does_compare (left right : Operand) : Does C e (compare left right) := by
  unfold compare
  dsimp only
  split
  · exact does_compareFloat _ _ _
  · split
    · exact (finds_gpr _).lowers.andThen fun _ => does_compareRegister _ _ _
    · exact lowers_unhandled _
    · exact (finds_location _).lowers.bind fun _ hl => does_compareMemory hl.2

theorem does_lessOrUnordered {op : CompareToIntOp} {res : Gpr} {done : Label} (hres : e.gprs res)
    (hdone : e.refers done) : Does C e (lessOrUnordered op res done) := by
  have hone : Does C e (emit (minusOne res)) := does_movImm hres
  unfold lessOrUnordered
  split
  · exact hone.andThen fun _ => does_jccShort hdone
  · exact hone.andThen fun _ => (does_jccShort hdone).andThen fun _ => does_jccShort hdone
  · exact hone.andThen fun _ => (does_jccShort hdone).andThen fun _ => does_jccShort hdone
  · exact (does_movImm hres).andThen fun _ => (does_jccShort hdone).andThen fun _ =>
      hone.andThen fun _ => does_jccShort hdone
  · exact (does_movImm hres).andThen fun _ => (does_jccShort hdone).andThen fun _ =>
      hone.andThen fun _ => does_jccShort hdone

theorem does_compareToInt {op : CompareToIntOp} {left right result : Operand}
    (hfresh : e.Fresh C.labels) (h : e.Sets result) :
    Does C e (compareToInt op left right result) :=
  does_gprResult h fun _ hres _ => (does_compare left right).andThen fun _ =>
    lowers_newLabel.bind fun done hdone =>
      (does_lessOrUnordered hres (hfresh.refers done hdone)).andThen fun _ =>
      (does_plain rfl rfl (e.admits_gpr hres)).andThen fun _ =>
      (does_plain rfl (Instr.footprint_extend _ _ _) (e.admits_gpr hres)).andThen fun _ =>
      does_bind (hfresh.binds done hdone)

/-! ### Conversions -/

theorem does_extend {ext : Extension} {src dst : Operand} (h : e.Sets dst) :
    Does C e (extend ext src dst) := by
  refine does_gprResult h fun d hd _ => ?_
  split
  · exact (finds_gpr _).lowers.andThen fun _ =>
      does_plain rfl (Instr.footprint_extend _ _ _) (e.admits_gpr hd)
  · exact does_movImm hd
  · exact (finds_location _).lowers.bind fun l hl =>
      does_at (i := fun m => .extend ext d (.mem m)) hl.2 (fun _ => rfl)
        (Instr.footprint_extend _ _ _) (e.admits_gpr hd)

theorem does_narrow {src dst : Operand} (h : e.Sets dst) : Does C e (narrow src dst) := by
  refine does_gprResult h fun d hd _ => ?_
  split
  · exact (finds_gpr _).lowers.andThen fun _ => does_plain rfl rfl (e.admits_gpr hd)
  · exact (finds_location _).lowers.bind fun l hl =>
      does_at (i := .load false d) hl.2 (fun _ => rfl) rfl (e.admits_gpr hd)

theorem does_intToFloat {double long : Bool} {src dst : Operand} (h : e.Sets dst) :
    Does C e (intToFloat double long src dst) :=
  does_xmmResult h fun _ hd _ => (does_inGpr src).andThen fun _ =>
    does_plain rfl rfl (e.admits_xmm hd)

theorem does_floatToFloat {toDouble : Bool} {src dst : Operand} (h : e.Sets dst) :
    Does C e (floatToFloat toDouble src dst) :=
  does_xmmResult h fun _ hd _ => (does_inXmm src).andThen fun _ =>
    does_plain rfl rfl (e.admits_xmm hd)

/-- The fix-up of a conversion may be put off. -/
def Fixes (C : Context) (e : Effect) (dst : Operand) : Prop :=
  ∀ d entry resume src double long, gpr? dst = some d → C.labels ≤ entry.index →
    C.labels ≤ resume.index → e.paths (.convertFixup entry resume src d double long)

theorem does_enqueue {path : SlowPath} (h : e.paths path) : Does C e (enqueue path) :=
  does_action (.enqueue path) h rfl

theorem does_truncate {double long : Bool} {src dst : Operand} (hfresh : e.Fresh C.labels)
    (hfix : Fixes C e dst) (h : e.Sets dst) : Does C e (truncate double long src dst) := by
  unfold truncate
  refine (finds_xmm src).lowers.andThen fun s => (finds_gpr dst).lowers.bind fun d hd => ?_
  have hgpr : e.gprs d := gprs_of_gpr? h hd
  refine (does_plain rfl rfl (e.admits_gpr hgpr)).andThen fun _ => ?_
  extract_lets behind
  have hbehind : ∀ u, Does C e (behind u) := fun _ =>
    lowers_newLabel.bind fun entry hentry => lowers_newLabel.bind fun resume hresume =>
      (does_jcc (hfresh.refers entry hentry)).andThen fun _ =>
      (does_bind (hfresh.binds resume hresume)).andThen fun _ =>
      does_enqueue (hfix d entry resume s double long hd hentry hresume)
  split
  · exact (does_movImm e.scratch).andThen fun _ => does_cmp.andThen hbehind
  · exact does_cmpImm.andThen hbehind

/-- The fix-up of a conversion ends with a result of 0 and the way back. -/
theorem convertFixup_eq {entry resume : Label} {src : Xmm} {dst : Gpr} {double long : Bool}
    (hfresh : e.Fresh C.labels) (hentry : e.binds entry) (hresume : e.refers resume)
    (h : e.gprs dst) : ∃ front : Lower Unit, Does C e front ∧
      convertFixup entry resume src dst double long = (do front; emit (zero dst); jmp resume) := by
  refine ⟨do
    let nan ← newLabel
    bind entry
    emit (.ucomis double src (.reg src))
    jccShort .p nan
    emit (.packed .xor double floatScratch (.reg floatScratch))
    emit (.ucomis double src (.reg floatScratch))
    jcc .b resume
    emit (.movImm long dst (if long then 0x7FFFFFFFFFFFFFFF else 0x7FFFFFFF))
    jmp resume
    bind nan, ?_, by simp only [convertFixup, bind_assoc]⟩
  exact lowers_newLabel.bind fun nan hnan =>
    (does_bind hentry).andThen fun _ =>
    (does_plain rfl rfl e.admits_nothing).andThen fun _ =>
    (does_jccShort (hfresh.refers nan hnan)).andThen fun _ =>
    (does_plain rfl rfl (e.admits_xmm e.floatScratch)).andThen fun _ =>
    (does_plain rfl rfl e.admits_nothing).andThen fun _ =>
    (does_jcc hresume).andThen fun _ =>
    (does_movImm h).andThen fun _ =>
    (does_jmp hresume).andThen fun _ => does_bind (hfresh.binds nan hnan)

theorem does_convertFixup {entry resume : Label} {src : Xmm} {dst : Gpr} {double long : Bool}
    (hfresh : e.Fresh C.labels) (hentry : e.binds entry) (hresume : e.refers resume)
    (h : e.gprs dst) : Does C e (convertFixup entry resume src dst double long) := by
  obtain ⟨front, hfront, heq⟩ := convertFixup_eq hfresh hentry hresume h
  rw [heq]
  exact hfront.andThen fun _ => (does_zero h).andThen fun _ => does_jmp hresume

theorem does_bitsToFloat {long : Bool} {src dst : Operand} (h : e.Sets dst) :
    Does C e (bitsToFloat long src dst) :=
  does_xmmResult h fun _ hd _ => (finds_gpr src).lowers.andThen fun _ =>
    does_plain rfl rfl (e.admits_xmm hd)

theorem does_floatToBits {long : Bool} {src dst : Operand} (h : e.Sets dst) :
    Does C e (floatToBits long src dst) :=
  does_gprResult h fun _ hd _ => (finds_xmm src).lowers.andThen fun _ =>
    does_plain rfl rfl (e.admits_gpr hd)

theorem does_convert {op : ConvertOp} {src dst : Operand} (hfresh : e.Fresh C.labels)
    (hfix : Fixes C e dst) (h : e.Sets dst) : Does C e (convert op src dst) := by
  cases op with
  | i2l | i2b | i2c | i2s => exact does_extend h
  | l2i => exact does_narrow h
  | i2f | i2d | l2f | l2d => exact does_intToFloat h
  | f2d | d2f => exact does_floatToFloat h
  | f2i | f2l | d2i | d2l => exact does_truncate hfresh hfix h
  | movI2F | movL2D => exact does_bitsToFloat h
  | movF2I | movD2L => exact does_floatToBits h

end MachineCode.Lower
