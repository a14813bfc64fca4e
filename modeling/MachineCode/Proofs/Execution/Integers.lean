import MachineCode.Proofs.Execution.Installations
import MachineCode.Proofs.Execution.Moving
import MachineCode.Proofs.Effects.Arithmetic

/-! Integer arithmetic and logic. The result register receives the left operand and is combined with
the right one as it was before, wherever the two operands are. -/
namespace MachineCode.Lower

open X64 Machine

/-! ### Instructions -/

namespace Binary

/-- The operations that give a result and take no carry. -/
def isPlain : Binary → Bool
  | alu .adc | alu .sbb | alu .cmp => false
  | _ => true

/-- The result at any width. -/
def eval {n : Nat} (op : Binary) (a b : BitVec n) : BitVec n :=
  match op with
  | alu op => (Flags.alu op a b false).1
  | mul => a * b

theorem eval_comm {n : Nat} {op : Binary} (hop : op.isPlain = true) (h : op.isCommutative = true)
    (a b : BitVec n) :
    op.eval a b = op.eval b a := by
  cases op with
  | mul => exact BitVec.mul_comm a b
  | alu op =>
    cases op with
    | add => simp [eval, Flags.alu, Flags.add, BitVec.add_comm]
    | and => exact BitVec.and_comm a b
    | or => exact BitVec.or_comm a b
    | xor => exact BitVec.xor_comm a b
    | adc | sbb | cmp => cases hop
    | sub => cases h

end Binary

section Instructions

variable {s : Machine} {next v : Word} {op : Binary} {wide : Bool} {dst : Gpr}

theorem setWidth_signExtend (a : Word) (w : Width) :
    (signExtend a w).setWidth w.bits = a.setWidth w.bits := by
  rw [signExtend, setWidth_signExtend_of_le _ w.bits_le, BitVec.signExtend_eq]

theorem setWidth_product (w : Width) (a b : Word) :
    (product w a b).setWidth w.bits = a.setWidth w.bits * b.setWidth w.bits := by
  rw [product, setWidth_low, BitVec.ofInt_mul, BitVec.ofInt_toInt, BitVec.ofInt_toInt,
    BitVec.setWidth_mul _ _ w.bits_le, setWidth_signExtend, setWidth_signExtend]

/-- Without a carry the result depends on the operands alone. -/
theorem setWidth_aluAt {op : AluOp} (hop : (Binary.alu op).isPlain = true) (w : Width) (a b : Word)
    (cf : Bool) :
    (aluAt op w a b cf).1.setWidth w.bits =
      (Binary.alu op).eval (a.setWidth w.bits) (b.setWidth w.bits) := by
  have hcarry : Flags.alu op (a.setWidth w.bits) (b.setWidth w.bits) cf =
      Flags.alu op (a.setWidth w.bits) (b.setWidth w.bits) false := by
    cases op <;> first | rfl | cases hop
  rw [aluAt, hcarry]
  exact (BitVec.setWidth_setWidth_of_le _ w.bits_le).trans (BitVec.setWidth_eq _)

/-- The register holds the result at this width, and the flags have changed. -/
def Combined (op : Binary) (wide : Bool) (dst : Gpr) (v : Word) : Assertion := fun s c =>
  ∃ flags result, c = { s with flags := flags }.setReg dst result ∧
    result.setWidth (Width.ofWide wide).bits =
      op.eval ((s.reg dst).setWidth (Width.ofWide wide).bits) (v.setWidth (Width.ofWide wide).bits)

theorem Combined.memory_eq {c : Machine}
    (h : Combined op wide dst v s c) : c.memory = s.memory := by
  obtain ⟨flags, result, rfl, -⟩ := h
  rfl

theorem executes_withRm (hop : op.isPlain = true) {src : Rm}
    (h : s.ReadsRm next (.ofWide wide) v src) :
    Executes (op.withRm wide dst src).decoded next s (Combined op wide dst v s) := by
  cases op with
  | alu op =>
    have hne : op ≠ .cmp := by
      rintro rfl
      cases hop
    refine (executes_alu hne h.source).mono fun _ c hc => ?_
    obtain ⟨flags, rfl⟩ := hc
    refine ⟨flags, _, rfl, ?_⟩
    rw [merge_ofWide, setWidth_low, setWidth_aluAt hop, setWidth_low]
  | mul =>
    refine (executes_imul h).mono fun _ c hc => ?_
    obtain ⟨flags, rfl⟩ := hc
    refine ⟨flags, _, rfl, ?_⟩
    rw [merge_ofWide, setWidth_low, setWidth_product, setWidth_low]
    rfl

theorem executes_withImm (hop : op.isPlain = true) (imm : Int32) :
    Executes (op.withImm wide dst imm).decoded next s
      (Combined op wide dst (BitVec.ofInt 64 imm.toInt) s) := by
  cases op with
  | alu op =>
    have hne : op ≠ .cmp := by
      rintro rfl
      cases hop
    refine (executes_alu hne (readsSource_imm _ _)).mono fun _ c hc => ?_
    obtain ⟨flags, rfl⟩ := hc
    refine ⟨flags, _, rfl, ?_⟩
    rw [merge_ofWide, setWidth_low, setWidth_aluAt hop, setWidth_low]
  | mul =>
    refine (executes_imulImm (readsRm_reg dst (.ofWide wide)) imm.toInt).mono fun _ c hc => ?_
    obtain ⟨flags, rfl⟩ := hc
    refine ⟨flags, _, rfl, ?_⟩
    rw [merge_ofWide, setWidth_low, setWidth_product, setWidth_low]
    rfl

theorem Combined.reg_eq {c : Machine} (h : Combined op wide dst v s c) :
    (c.reg dst).setWidth (Width.ofWide wide).bits =
      op.eval ((s.reg dst).setWidth (Width.ofWide wide).bits)
        (v.setWidth (Width.ofWide wide).bits) := by
  obtain ⟨flags, result, rfl, hresult⟩ := h
  rw [reg_setReg_self, hresult]

end Instructions

/-! ### The right operand -/

section Right

variable {S : Site} {C : Context} {op : Binary} {wide : Bool} {dst : Gpr}
  {A : Machine → Prop} {frame : Frame}

/-- The register has been combined with the value of the operand. -/
def Applied (S : Site) (frame : Frame) (op : Binary) (wide : Bool) (dst : Gpr)
    (right : Operand) : Assertion :=
  fun s c => ∃ b, S.value? frame s right = some b ∧ (c.reg dst).setWidth (Width.ofWide wide).bits =
    op.eval ((s.reg dst).setWidth (Width.ofWide wide).bits) (b.setWidth (Width.ofWide wide).bits)

theorem computes_withReg (hop : op.isPlain = true) (src : Gpr) :
    Computes S C (emit (op.withRm wide dst (.reg src))) A fun _ s c =>
      Combined op wide dst (s.reg src) s c := by
  refine computes_emit ?_
    (fun s next _ => (executes_withRm hop (readsRm_reg src _)).mono fun _ c hc => ?_)
    fun _ _ h => h.memory_eq
  · cases op <;> exact Instr.encodable_of_none rfl
  · obtain ⟨flags, result, rfl, hresult⟩ := hc
    exact ⟨flags, result, rfl, by rw [hresult, setWidth_low]⟩

/-- The value of the right operand is in the scratch register. -/
theorem computes_combineScratch {x : Lower Unit} {right : Operand} (hop : op.isPlain = true)
    (hx : Computes S C x A fun _ s c => ∃ b, S.value? frame s right = some b ∧
      (c.reg scratch).setWidth (Width.ofWide wide).bits = b.setWidth (Width.ofWide wide).bits ∧
      c.reg dst = s.reg dst) :
    Computes S C (x >>= fun _ => emit (op.withRm wide dst (.reg scratch))) A
      fun _ => Applied S frame op wide dst right := by
  refine hx.bind (fun _ => computes_withReg hop scratch (A := fun _ => True)) ?_
  rintro s _ c - ⟨b, hb, hvalue, hkept⟩
  refine ⟨trivial, fun _ c' hc => ⟨b, hb, ?_⟩⟩
  rw [hc.reg_eq, hvalue, hkept]

/-- A constant of the kind at operand size. -/
theorem setWidth_constantValue (c : Constant) (wide : Bool) :
    (BitVec.ofInt 64 (constantValue c wide)).setWidth (Width.ofWide wide).bits =
      c.bits.toBitVec.setWidth (Width.ofWide wide).bits := by
  cases wide with
  | true => exact congrArg _ (BitVec.ofInt_toInt (x := c.bits.toBitVec))
  | false => exact setWidth_signExtend c.bits.toBitVec .dword

theorem computes_applyConstant {c : Constant} (hop : op.isPlain = true) (hdst : dst ≠ scratch) :
    Computes S C (applyConstant op wide dst c) S.Readable fun _ =>
      Applied S frame op wide dst (.const c) := by
  unfold applyConstant
  split
  · rename_i o ho
    refine computes_combineScratch hop
      ((computes_objectToRegister o scratch).mono fun s _ hs => ⟨hs, ?_⟩)
    rintro _ _ ⟨a, ha, rfl⟩
    exact ⟨a, (value?_object ho frame s).trans ha, by rw [reg_setReg_self],
      reg_setReg_of_ne hdst.symm⟩
  · rename_i ho
    split
    · rename_i imm himm
      refine (computes_emit (R := Combined op wide dst (BitVec.ofInt 64 imm.toInt)) ?_
        (fun s next _ => executes_withImm hop imm) fun _ _ h => h.memory_eq).mono fun s _ hs =>
          ⟨hs, fun _ c' hc => ?_⟩
      · cases op <;> exact Instr.encodable_of_none rfl
      · refine ⟨_, value?_bits ho frame s, ?_⟩
        rw [hc.reg_eq, toInt_of_int32? himm, setWidth_constantValue]
    · refine computes_combineScratch hop
        ((computes_movImm true scratch c.bits).mono fun s _ hs => ⟨hs, ?_⟩)
      rintro _ _ rfl
      refine ⟨_, value?_bits ho frame s, ?_, reg_setReg_of_ne hdst.symm⟩
      rw [reg_setReg_self]
      exact congrArg _ (low_qword _)

theorem mem?_withRm (op : Binary) (wide : Bool) (dst : Gpr) (m : Mem) :
    (op.withRm wide dst (.mem m)).mem? = some m := by
  cases op <;> rfl

theorem withMem_withRm (op : Binary) (wide : Bool) (dst : Gpr) (m m' : Mem) :
    (op.withRm wide dst (.mem m)).withMem m' = op.withRm wide dst (.mem m') := by
  cases op <;> rfl

/-- A value that fills its register is read by the instruction itself. -/
theorem computes_applyMemory {right : Operand} {l : Location} (hop : op.isPlain = true)
    (hfloat : right.kind.isFloating = false) (hsize : ¬ right.kind.size < 4)
    (hl : place? frame right = some l) (hvalid : l.Valid) :
    Computes S C (emitAt l fun m => op.withRm right.kind.isWord dst (.mem m))
      (S.Accessible frame · right) fun _ => Applied S frame op right.kind.isWord dst right := by
  have hbytes := Kind.read_of_full hfloat hsize
  refine (computes_emitAt
    (R := fun s c => Combined op right.kind.isWord dst (s.loaded (S.place s l) right.kind.size) s c)
    hvalid (fixed_of_place? hl) (mem?_withRm op _ dst) (withMem_withRm op _ dst)
      (fun s m next hs ha => ?_)
    fun _ _ h => h.memory_eq).mono fun s _ hs => ⟨hs, fun _ c hc => ⟨_, Site.value?_place hl, ?_⟩⟩
  · have hfaults := hs l hl
    rw [← hbytes.1] at hfaults ⊢
    exact executes_withRm hop (readsRm_mem ha hfaults)
  · rw [hc.reg_eq, hbytes.2]
    rfl

theorem computes_applyBinary {right : Operand} (hop : op.isPlain = true) (hdst : dst ≠ scratch)
    (hfloat : right.kind.isFloating = false) :
    Computes S C (applyBinary op right.kind.isWord dst right)
      (fun s => S.Readable s ∧ S.Accessible C.frame s right)
      fun _ => Applied S C.frame op right.kind.isWord dst right := by
  unfold applyBinary
  split
  · rename_i r kind
    refine (finds_gpr _).computes fun g hg => (computes_withReg hop g).mono fun s _ hs =>
      ⟨hs, fun _ c hc => ?_⟩
    exact ⟨_, Site.value?_gpr hg, hc.reg_eq⟩
  · exact (computes_applyConstant hop hdst).mono fun s _ hs => ⟨hs.1, fun _ _ => id⟩
  · split
    · rw [toScratch_bind]
      refine computes_combineScratch hop ((computes_toScratch ?_).mono fun s _ hs => ⟨hs, ?_⟩)
      · rintro g - hdouble
        rw [hdouble] at hfloat
        cases hfloat
      · rintro _ c ⟨b, hb, hlow, hkeeps, -⟩
        rw [Kind.width_eq_ofWide hfloat] at hlow
        exact ⟨b, hb, low_eq_iff.mp hlow, hkeeps.gprs dst hdst⟩
    · rename_i hsize
      refine (finds_location right).computes fun l hl => Computes.discard ?_
      exact (computes_applyMemory hop hfloat hsize hl.1 hl.2).mono fun s _ hs =>
        ⟨hs.2, fun _ _ => id⟩

end Right

/-! ### Both operands -/

section Both

variable {S : Site} {C : Context} {op : Binary} {left right result : Operand} {res : Gpr}

/-- Operands of integers are in general registers. -/
theorem ne_double {kind : Kind} (h : kind.isFloating = false) : kind ≠ .double := by
  rintro rfl
  cases h

/-- The result register has received a value. -/
theorem computes_movResult (hres : gpr? result = some res) (hkind : result.kind = left.kind)
    (hfloat : result.kind.isFloating = false) : Computes S C (mov left result false)
      (fun s => S.Readable s ∧ S.Accessible C.frame s left) fun _ s c =>
        ∃ a, S.value? C.frame s left = some a ∧
        (c.reg res).setWidth (Width.ofWide result.kind.isWord).bits =
          a.setWidth (Width.ofWide result.kind.isWord).bits ∧
        s.Keeps (· = res) (fun _ => False) (fun _ => False) c := by
  obtain ⟨r, kind, rfl⟩ : ∃ r kind, result = .reg r kind := by
    cases result with
    | reg r kind => exact ⟨r, kind, rfl⟩
    | stack | const | addr => cases hres
  refine (computes_mov hkind (fun _ => .inl ⟨res, hres⟩) (fun g _ => hkind ▸
    ne_double hfloat) nofun).mono
    fun s _ hs => ⟨canMove_reg hs.1 hs.2, ?_⟩
  rintro _ c ⟨a, ha, hdelivers, -⟩
  have hlow := hdelivers.holds.gpr res hres
  rw [Kind.width_eq_ofWide hfloat] at hlow
  refine ⟨a, ha, low_eq_iff.mp hlow, hdelivers.keeps.mono ?_ ?_ ?_⟩
  · rintro g (hg | ⟨hreg, -⟩)
    · exact (Option.some.inj (hres.symm.trans hg)).symm
    · cases hreg
  · intro x hx
    rw [Site.gpr?_of_xmm? hx] at hres
    cases hres
  · rintro b ⟨l, hl, -⟩
    cases hl

/-- Both operands have been combined, with the values from before. -/
def BothApplied (S : Site) (frame : Frame) (op : Binary) (wide : Bool) (res : Gpr)
    (left right : Operand) :
    Assertion :=
  fun s c => ∃ a b, S.value? frame s left = some a ∧ S.value? frame s right = some b ∧
    (c.reg res).setWidth (Width.ofWide wide).bits =
      op.eval (a.setWidth (Width.ofWide wide).bits) (b.setWidth (Width.ofWide wide).bits)

/-- What the code needs to read its operands. -/
def CanRead (S : Site) (frame : Frame) (left right : Operand) (s : Machine) : Prop :=
  S.Readable s ∧ S.Accessible frame s left ∧ S.Accessible frame s right

/-- First the left operand; the right one does not depend on the result register. -/
theorem computes_leftFirst (hop : op.isPlain = true) (hres : gpr? result = some res)
    (hne : res ≠ scratch) (hleft : left.kind = result.kind) (hright : right.kind = result.kind)
    (hfloat : result.kind.isFloating = false) (huse : ¬ right.Uses C.frame res) :
    Computes S C (mov left result false >>= fun _ => applyBinary op result.kind.isWord res right)
      (CanRead S C.frame left right) fun _ =>
        BothApplied S C.frame op result.kind.isWord res left right := by
  have happly : Computes S C (applyBinary op right.kind.isWord res right) _ _ :=
    computes_applyBinary hop hne (hright ▸ hfloat)
  rw [hright] at happly
  have hmov : Computes S C (mov left result false) (CanRead S C.frame left right) _ :=
    (computes_movResult hres hleft.symm hfloat).mono fun s _ hs => ⟨⟨hs.1, hs.2.1⟩, fun _ _ => id⟩
  refine hmov.bind (fun _ => happly) ?_
  rintro s _ c ⟨hreadable, -, hacc⟩ ⟨a, ha, hvalue, hkeeps⟩
  have hstays : ∀ g, right.Uses C.frame g → ¬ g = res := fun g hg h => huse (h ▸ hg)
  refine ⟨⟨hreadable.keeps hkeeps, hacc.keeps hkeeps hstays⟩, ?_⟩
  rintro _ c' ⟨b, hb, hresult⟩
  rw [Site.value?_keeps hkeeps hstays (fun _ _ => id) fun _ _ _ _ => id] at hb
  exact ⟨a, b, ha, hb, by rw [hresult, hvalue]⟩

/-- The right operand is the result register, and the operands do not commute. -/
theorem computes_rightSaved (hop : op.isPlain = true) (hres : gpr? result = some res)
    (hne : res ≠ scratch) (hleft : left.kind = result.kind) (hright : gpr? right = some res)
    (hfloat : result.kind.isFloating = false) (hscratch : ¬ left.Uses C.frame scratch) :
    Computes S C (do
      emit (.mov result.kind.isWord scratch res)
      mov left result false
      emit (op.withRm result.kind.isWord res (.reg scratch))) (CanRead S C.frame left right)
      fun _ => BothApplied S C.frame op result.kind.isWord res left right := by
  have hlast : Computes S C (mov left result false >>= fun _ =>
      emit (op.withRm result.kind.isWord res (.reg scratch)))
      (fun s => S.Readable s ∧ S.Accessible C.frame s left) fun _ s c =>
        ∃ a, S.value? C.frame s left = some a ∧
        (c.reg res).setWidth (Width.ofWide result.kind.isWord).bits = op.eval
          (a.setWidth (Width.ofWide result.kind.isWord).bits)
          ((s.reg scratch).setWidth (Width.ofWide result.kind.isWord).bits) := by
    refine (computes_movResult hres hleft.symm hfloat).bind
      (fun _ => computes_withReg hop scratch (A := fun _ => True)) ?_
    rintro s _ c - ⟨a, ha, hvalue, hkeeps⟩
    refine ⟨trivial, fun _ c' hc => ⟨a, ha, ?_⟩⟩
    rw [hc.reg_eq, hvalue, hkeeps.gprs scratch hne.symm]
  refine Computes.bind (Q := fun _ s c => c =
    s.setReg scratch (low (s.reg res) (.ofWide result.kind.isWord)))
    (computes_emit (i := .mov result.kind.isWord scratch res) (Instr.encodable_of_none rfl)
      (fun s _ _ => ?_) fun _ _ h => by rw [h]; rfl) (fun _ => hlast) ?_
  · refine (executes_mov (readsRm_reg res (.ofWide result.kind.isWord)).source).mono
      fun _ c hc => ?_
    rw [hc, merge_ofWide, low_low]
  · rintro s _ _ ⟨hreadable, hacc, -⟩ rfl
    have hkeeps : s.Keeps (· = scratch) (fun _ => False) (fun _ => False) _ :=
      keeps_setReg (G := (· = scratch)) rfl (low (s.reg res) (.ofWide result.kind.isWord))
    have hstays : ∀ g, left.Uses C.frame g → ¬ g = scratch := fun g hg h => hscratch (h ▸ hg)
    refine ⟨⟨hreadable.keeps hkeeps, hacc.keeps hkeeps hstays⟩, ?_⟩
    rintro _ c' ⟨a, ha, hresult⟩
    rw [Site.value?_keeps hkeeps hstays (fun _ _ => id) fun _ _ _ _ => id] at ha
    refine ⟨a, _, ha, Site.value?_gpr hright, ?_⟩
    rw [hresult, reg_setReg_self, setWidth_low]

/-- The right operand is loaded early. -/
theorem computes_rightLoaded (hop : op.isPlain = true) (hres : gpr? result = some res)
    (hne : res ≠ scratch) (hleft : left.kind = result.kind) (hright : right.kind = result.kind)
    (hfloat : result.kind.isFloating = false) (hscratch : ¬ left.Uses C.frame scratch) :
    Computes S C (do
      mov right (.reg scratch.register right.kind) false
      mov left result false
      applyBinary op result.kind.isWord res (.reg scratch.register right.kind))
        (CanRead S C.frame left right)
      fun _ => BothApplied S C.frame op result.kind.isWord res left right := by
  have hgpr := gpr?_register scratch right.kind
  have huse : ¬ (Operand.reg scratch.register right.kind).Uses C.frame res := by
    rintro (hg | ⟨l, hl, -⟩)
    · exact hne (Option.some.inj (hgpr.symm.trans hg)).symm
    · cases hl
  have hload : Computes S C (mov right (.reg scratch.register right.kind) false)
      (CanRead S C.frame left right) _ :=
    (computes_toScratch fun g _ => hright ▸ ne_double hfloat).mono fun s _ hs =>
      ⟨⟨hs.1, hs.2.2⟩, fun _ _ => id⟩
  refine hload.bind (fun _ => computes_leftFirst hop hres hne hleft hright hfloat huse) ?_
  rintro s _ c ⟨hreadable, hacc, -⟩ ⟨b, hb, hlow, hkeeps, -⟩
  have hstays : ∀ g, left.Uses C.frame g → ¬ g = scratch := fun g hg h => hscratch (h ▸ hg)
  refine ⟨⟨hreadable.keeps hkeeps, hacc.keeps hkeeps hstays, nofun⟩, ?_⟩
  rintro _ c' ⟨a, b', ha, hb', hresult⟩
  rw [Site.value?_keeps hkeeps hstays (fun _ _ => id) fun _ _ _ _ => id] at ha
  obtain rfl : c.reg scratch = b' := Option.some.inj ((Site.value?_gpr hgpr).symm.trans hb')
  rw [hright, Kind.width_eq_ofWide hfloat] at hlow
  exact ⟨a, b, ha, hb, by rw [hresult, low_eq_iff.mp hlow]⟩

theorem computes_binary (hop : op.isPlain = true) (hres : gpr? result = some res)
    (hne : res ≠ scratch) (hleft : left.kind = result.kind) (hright : right.kind = result.kind)
    (hfloat : result.kind.isFloating = false) (hscratch : ¬ left.Uses C.frame scratch) :
    Computes S C (binary op left right result) (CanRead S C.frame left right)
      fun _ => BothApplied S C.frame op result.kind.isWord res left right := by
  have happly : ∀ o : Operand, o.kind = result.kind →
    Computes S C (applyBinary op result.kind.isWord res o)
      (fun s => S.Readable s ∧ S.Accessible C.frame s o) fun _ =>
        Applied S C.frame op result.kind.isWord res o :=
    fun o ho => ho ▸ computes_applyBinary hop hne (ho ▸ hfloat)
  unfold binary
  refine (finds_gpr result).computes fun g hg => ?_
  obtain rfl : res = g := Option.some.inj (hres.symm.trans hg)
  have hregister : ∀ o : Operand, o.register? = result.register? → gpr? o = some res := by
    intro o ho
    obtain ⟨r, hr, hgpr⟩ := register?_of_gpr? hres
    cases o with
    | reg r' kind =>
      cases ho.trans hr
      exact hgpr
    | stack | const | addr => cases ho.trans hr
  dsimp only
  split
  · -- The left operand is in the result register already.
    rename_i hsame
    have hpure : mov left result false = pure () := by
      cases left with
      | reg r kind =>
        cases result with
        | reg r' kind' =>
          cases hsame
          exact mov_self
        | stack | const | addr => cases hres
      | stack | const | addr => cases hregister _ hsame
    rw [hpure, pure_bind]
    refine (happly right hright).mono fun s _ hs => ⟨⟨hs.1, hs.2.2⟩, ?_⟩
    rintro _ c ⟨b, hb, hresult⟩
    exact ⟨_, b, Site.value?_gpr (hregister _ hsame), hb, hresult⟩
  · split
    · rename_i hsame
      split
      · rename_i hcomm
        refine (happly left hleft).mono fun s _ hs => ⟨⟨hs.1, hs.2.1⟩, ?_⟩
        rintro _ c ⟨a, ha, hresult⟩
        exact ⟨a, _, ha, Site.value?_gpr (hregister _ hsame),
          by rw [hresult, Binary.eval_comm hop hcomm]⟩
      · exact computes_rightSaved hop hres hne hleft (hregister _ hsame) hfloat hscratch
    · rename_i hother
      have hfirst : (∀ l, place? C.frame right = some l → l.mem.uses res = false) →
          ¬ right.Uses C.frame res := by
        rintro huses (hg' | ⟨l, hl, huse⟩)
        · obtain ⟨r, hr, hgpr⟩ := register?_of_gpr? hres
          obtain ⟨r', hr', hgpr'⟩ := register?_of_gpr? hg'
          cases (eq_register_of_gpr hgpr).trans (eq_register_of_gpr hgpr').symm
          exact hother (hr'.trans hr.symm)
        · rw [huses l hl] at huse
          cases huse
      unfold withoutUse
      split
      · rw [bind_assoc]
        refine (finds_location right).computes fun l hl => ?_
        split
        · rw [toScratch_bind, bind_assoc]
          simp only [pure_bind]
          exact computes_rightLoaded hop hres hne hleft hright hfloat hscratch
        · rename_i huses
          refine computes_leftFirst hop hres hne hleft hright hfloat (hfirst fun l' hl' => ?_)
          cases hl.1.symm.trans hl'
          simpa using huses
      · rename_i hmemory
        refine computes_leftFirst hop hres hne hleft hright hfloat (hfirst fun l hl => ?_)
        cases right with
        | reg | const => cases hl
        | stack | addr => exact absurd rfl hmemory

end Both

end MachineCode.Lower

/-! ### Operations in installed code -/

namespace MachineCode

open X64 Lower

/-- The operation combines the two operands into the result, as `f` does at any width. -/
inductive Operation.Combines (left right result : Operand) :
    Operation → (∀ n, BitVec n → BitVec n → BitVec n) → Prop
  | add (info : Option DebugInfo) :
    Combines left right result (.arith .add left right result info) fun _ a b => a + b
  | sub (info : Option DebugInfo) :
      Combines left right result (.arith .sub left right result info) fun _ a b => a - b
  | mul (info : Option DebugInfo) :
      Combines left right result (.arith .mul left right result info) fun _ a b => a * b
  | and : Combines left right result (.logic .and left right result) fun _ a b => a &&& b
  | or : Combines left right result (.logic .or left right result) fun _ a b => a ||| b
  | xor : Combines left right result (.logic .xor left right result) fun _ a b => a ^^^ b

variable {op : Operation} {left right result : Operand} {f : ∀ n, BitVec n → BitVec n → BitVec n}

theorem Operation.Combines.lower_eq (h : op.Combines left right result f)
    (hfloat : result.kind.isFloating = false) :
    ∃ x : Binary, x.isPlain = true ∧ lower op = binary x left right result ∧
    ∀ n a b, x.eval a b = f n a b := by
  have harith : ∀ op info, lower (.arith op left right result info) =
      integerArith op left right result info := by
    intro op info
    rw [lower, Lower.arith, hfloat, if_neg Bool.false_ne_true]
  cases h with
  | add info => exact ⟨.alu .add, rfl, harith .add info,
    fun _ _ _ => by simp [Binary.eval, Flags.alu, Flags.add]⟩
  | sub info => exact ⟨.alu .sub, rfl, harith .sub info,
    fun _ _ _ => by simp [Binary.eval, Flags.alu, Flags.sub]⟩
  | mul info => exact ⟨.mul, rfl, harith .mul info, fun _ _ _ => rfl⟩
  | and => exact ⟨.alu .and, rfl, rfl, fun _ _ _ => rfl⟩
  | or => exact ⟨.alu .or, rfl, rfl, fun _ _ _ => rfl⟩
  | xor => exact ⟨.alu .xor, rfl, rfl, fun _ _ _ => rfl⟩

/-- From any state in which the operands can be accessed, the code of an integer operation runs to
its end and leaves in the result register what the operation makes of the values that the two
operands have had, at the width of their kind. The result register may be either operand, or their
addresses may be computed from it. -/
theorem exists_run_combines {I : Installation} {start stop : Nat} {res : Gpr} {machine : Machine}
    (hop : op.Combines left right result f) (hcode : I.HasCode op start stop)
    (hfloat : result.kind.isFloating = false) (hleft : left.kind = result.kind)
    (hright : right.kind = result.kind) (hres : gpr? result = some res) (hne : res ≠ scratch)
    (hscratch : ¬ left.Uses I.source.frame scratch) (hloaded : machine.Loaded I.base I.image)
    (hrip : machine.rip = I.base + BitVec.ofNat 64 start) (hreadable : I.site.Readable machine)
    (haccessible : I.site.Accessible I.source.frame machine left)
    (haccessible' : I.site.Accessible I.source.frame machine right) :
    ∃ machine' a b, machine.RunsTo (I.base + BitVec.ofNat 64 stop) machine' ∧
      I.site.value? I.source.frame machine left = some a ∧
      I.site.value? I.source.frame machine right = some b ∧
      (machine'.reg res).setWidth result.kind.width.bits =
        f _ (a.setWidth result.kind.width.bits) (b.setWidth result.kind.width.bits) := by
  obtain ⟨x, hplain, hlower, heval⟩ := hop.lower_eq hfloat
  have hcomputes : ∀ C, C.frame = I.source.frame → Computes I.site C (lower op)
      (CanRead I.site I.source.frame left right)
      fun _ => BothApplied I.site I.source.frame x result.kind.isWord res left right := by
    intro C hC
    rw [hlower, ← hC]
    exact computes_binary hplain hres hne hleft hright hfloat (hC ▸ hscratch)
  obtain ⟨machine', hrun, a, b, ha, hb, hresult⟩ :=
    hcode.exists_run hcomputes hloaded hrip ⟨hreadable, haccessible, haccessible'⟩
  rw [Site.value?_core] at ha hb
  refine ⟨machine', a, b, hrun, ha, hb, ?_⟩
  rw [Kind.width_eq_ofWide hfloat]
  exact hresult.trans (heval _ _ _)

/-- A subtraction from `rcx` whose result is in the register of its right operand. -/
theorem exists_run_combines_sub :
    let left : Operand := .reg Gpr.rcx.register .int
    let right : Operand := .reg Gpr.rax.register .int
    let op : Operation := .arith .sub left right right none
    ∃ (I : Installation) (start stop : Nat) (machine machine' : Machine), I.HasCode op start stop ∧
      machine.Loaded I.base I.image ∧ machine.rip = I.base + BitVec.ofNat 64 start ∧
      I.site.Readable machine ∧
      (machine.reg .rcx).setWidth 32 = 5#32 ∧ (machine.reg .rax).setWidth 32 = 7#32 ∧
      machine.RunsTo (I.base + BitVec.ofNat 64 stop) machine' ∧
      (machine'.reg .rax).setWidth 32 = -2#32 := by
  intro left right op
  let target : Target := ⟨{ Options.standard with useStackBanging := false }, ⟨true, true⟩, 4096⟩
  obtain ⟨I, start, stop, -, -, hcode, hloaded, hrip, hreadable⟩ :=
    Installation.exists_entered target op 0x10000000 ((Machine.initial.setReg .rcx 5).setReg .rax 7)
      (by decide +kernel) rfl
  obtain ⟨machine', a, b, hrun, ha, hb, hresult⟩ :=
    exists_run_combines (.sub none) hcode rfl rfl rfl rfl (by decide)
    (by rintro (h | ⟨l, h, -⟩) <;> cases h) hloaded hrip hreadable nofun nofun
  refine ⟨I, start, stop, _, machine', hcode, hloaded, hrip, hreadable, rfl, rfl, hrun, ?_⟩
  cases ha
  cases hb
  exact hresult

end MachineCode
