import MachineCode.Lowering.Compare
import MachineCode.Proofs.Execution.Comparing
import MachineCode.Proofs.Execution.Integers

/-! Compares of integers. Whatever the shapes of the operands, the flags that their code leaves are
those of a compare of their values. -/
namespace MachineCode

open X64 Machine

namespace Comparison

variable {w : Width} {a a' b b' : Word}

/-- Only the low parts of the operands count. -/
theorem flags_congr (ha : a.setWidth w.bits = a'.setWidth w.bits)
    (hb : b.setWidth w.bits = b'.setWidth w.bits) :
    (words w a b).flags = (words w a' b').flags := by
  simp only [flags, aluAt, ha, hb]

/-- A test of a word with itself compares it with zero. -/
theorem flags_test : (aluAt .and w a a false).2 = (words w a 0).flags := by
  have hzero : (0 : Word).setWidth w.bits = 0 := BitVec.setWidth_zero ..
  have hdiff :
      (a.setWidth w.bits - 0 - BitVec.ofNat w.bits false.toNat) = a.setWidth w.bits := by simp
  simp only [flags, aluAt, Flags.alu, Flags.logic, Flags.sub, hzero, hdiff, BitVec.and_self]
  simp

theorem executes_test {s : Machine} {next : Word} {g : Gpr} :
    Executes (.test w (.reg g) (.rm (.reg g))) next s fun c =>
    c = { s with flags := (words w (low (s.reg g) w) 0).flags } :=
  (yields_readRm (readsRm_reg g w)).after ((yields_readSource (readsRm_reg g w).source).after
    ((yields_setFlags _).mono fun _ _ hc => by rw [hc, flags_test]))

end Comparison

namespace Lower

variable {S : Site} {C : Context} {A : Machine → Prop} {frame : Frame} {w : Width}
  {wide : Bool} {g : Gpr}

theorem computes_cmp {x : Rm} {src : X64.Source} {i : Instr} {a b : Machine → Word}
    (hi : i.Encodable) (hdecoded : i.decoded = .alu .cmp w x src)
    (ha : ∀ (s : Machine) next, s.ReadsRm next w (a s) x)
    (hb : ∀ (s : Machine) next, s.ReadsSource next w (b s) src) :
    Computes S C (emit i) A fun _ s c =>
      c = { s with flags := (Comparison.words w (a s) (b s)).flags } :=
  computes_emit hi (fun s next _ => hdecoded ▸ Comparison.executes_cmp (ha s next) (hb s next))
    fun _ _ h => by rw [h]

/-- One of the operands is in memory. -/
theorem computes_cmpAt {l : Location} {x : Mem → Rm} {src : Mem → X64.Source} {i : Mem → Instr}
    {a b : Machine → Word} (hl : l.Valid) (hfixed : l.Fixed) (hi : ∀ m, (i m).mem? = some m)
    (hw : ∀ m m', (i m).withMem m' = i m')
    (hdecoded : ∀ m, (i m).decoded = .alu .cmp w (x m) (src m))
    (ha : ∀ s m next, A s → s.effectiveAddress m next = S.place s l → s.ReadsRm next w (a s) (x m))
    (hb : ∀ s m next, A s → s.effectiveAddress m next = S.place s l →
      s.ReadsSource next w (b s) (src m)) :
    Computes S C (discard (emitAt l i)) A fun _ s c =>
      c = { s with flags := (Comparison.words w (a s) (b s)).flags } :=
  Computes.discard (computes_emitAt hl hfixed hi hw
    (fun s m next hs haddress => hdecoded m ▸
      Comparison.executes_cmp (ha s m next hs haddress) (hb s m next hs haddress))
    fun _ _ h => by rw [h])

/-! ### Registers -/

/-- The register has been compared with the operand. Nothing else has changed but the scratch
register. -/
def ComparedTo (S : Site) (frame : Frame) (g : Gpr) (right : Operand) : Assertion := fun s c =>
  ∃ b, S.value? frame s right = some b ∧
    c.flags = (Comparison.words right.kind.width (s.reg g) b).flags ∧
    s.Keeps (· = scratch) (fun _ => False) (fun _ => False) c

theorem comparedTo_of_flags {right : Operand} {s : Machine} {a b b' : Word}
    (hb : S.value? frame s right = some b)
    (ha : a.setWidth right.kind.width.bits = (s.reg g).setWidth _)
    (hb' : b'.setWidth right.kind.width.bits = b.setWidth _) : ComparedTo S frame g right s
      { s with flags := (Comparison.words right.kind.width a b').flags } :=
  ⟨b, hb, Comparison.flags_congr ha hb', keeps_flags _⟩

/-- The value of the operand is in the scratch register, which is all that has changed. -/
def InScratch (S : Site) (frame : Frame) (o : Operand) : Assertion := fun s c =>
  ∃ b, S.value? frame s o = some b ∧ low (c.reg scratch) o.kind.width = low b o.kind.width ∧
    s.Keeps (· = scratch) (fun _ => False) (fun _ => False) c

theorem computes_cmpScratch {x : Lower Unit} {right : Operand}
    (hfloat : right.kind.isFloating = false) (hg : g ≠ scratch)
    (hx : Computes S C x A fun _ => InScratch S frame right) :
    Computes S C (x >>= fun _ => emit (.alu .cmp right.kind.isWord g (.reg scratch))) A
      fun _ => ComparedTo S frame g right := by
  have hcmp :
      Computes S C (emit (.alu .cmp right.kind.isWord g (.reg scratch))) (fun _ => True) _ :=
    computes_cmp (Instr.encodable_of_none rfl) rfl (fun s _ => readsRm_reg g _) fun s _ =>
      (readsRm_reg scratch _).source
  refine hx.bind (fun _ => hcmp) ?_
  rintro s _ c - ⟨b, hb, hlow, hkeeps⟩
  refine ⟨trivial, ?_⟩
  rintro _ _ rfl
  refine ⟨b, hb, ?_, hkeeps.trans (keeps_flags _)⟩
  rw [← Kind.width_eq_ofWide hfloat]
  refine Comparison.flags_congr ?_ ?_
  · rw [setWidth_low, hkeeps.gprs g hg]
  · rw [setWidth_low, low_eq_iff.mp hlow]

theorem object?_of_isZeroBits {c : Constant} (h : c.isZeroBits = true) : c.object? = none := by
  cases ho : c.object? with
  | none => rfl
  | some o =>
    have hkind : c.kind = .object := size_of_object? ho
    have hbits : (c.bits == 0) = true := by
      rw [Constant.isZeroBits, hkind] at h
      exact h
    simp [Constant.object?, Constant.objectBits?, hbits] at ho

/-- The constant is brought to the scratch register. -/
theorem computes_scratchConstant {c : Constant} :
    Computes S C (match c.object? with
      | some o => objectToRegister o scratch
      | none => emit (.movImm true scratch c.bits)) S.Readable fun _ =>
        InScratch S frame (.const c) := by
  split
  · rename_i o ho
    refine (computes_objectToRegister o scratch).mono fun s _ hs => ⟨hs, ?_⟩
    rintro _ _ ⟨a, ha, rfl⟩
    exact ⟨a, (value?_object ho frame s).trans ha, by rw [reg_setReg_self],
      keeps_setReg (G := (· = scratch)) rfl a⟩
  · rename_i ho
    refine (computes_movImm true scratch c.bits).mono fun s _ hs => ⟨hs, ?_⟩
    rintro _ _ rfl
    refine ⟨_, value?_bits ho frame s, ?_, keeps_setReg (G := (· = scratch)) rfl _⟩
    rw [reg_setReg_self]
    exact congrArg (low · c.kind.width) (low_qword _)

theorem computes_compareConstant {c : Constant} (hfloat : c.kind.isFloating = false) :
    Computes S C (compareConstant c.kind.isWord g c) S.Readable fun _ =>
      ComparedTo S frame g (.const c) := by
  have hwidth : (Operand.const c).kind.width = .ofWide c.kind.isWord := Kind.width_eq_ofWide hfloat
  unfold compareConstant
  split
  · rename_i hzero
    refine (computes_emit (i := .test c.kind.isWord (.reg g) g) (Instr.encodable_of_none rfl)
      (fun s _ _ => Comparison.executes_test) fun _ _ h => by rw [h]).mono fun s _ hs => ⟨hs, ?_⟩
    rintro _ _ rfl
    rw [← hwidth]
    refine comparedTo_of_flags (value?_bits (object?_of_isZeroBits hzero) frame s)
      (setWidth_low _ _) ?_
    exact low_eq_iff.mp (low_of_isZeroBits hzero)
  · split
    · rename_i imm ho himm
      have hcmp : Computes S C (emit (.aluImm .cmp c.kind.isWord (.reg g) imm)) S.Readable _ :=
        computes_cmp (Instr.encodable_of_none rfl) rfl (fun s _ => readsRm_reg g _) fun s _ =>
          readsSource_imm _ _
      refine hcmp.mono fun s _ hs => ⟨hs, ?_⟩
      rintro _ _ rfl
      rw [← hwidth]
      refine comparedTo_of_flags (value?_bits ho frame s) (setWidth_low _ _) ?_
      rw [toInt_of_int32? himm, hwidth, setWidth_constantValue]
    · split
      · exact computes_of_fails (fails_unhandled _)
      · rename_i hg
        have hcmp : Computes S C _ S.Readable fun _ => ComparedTo S frame g (.const c) :=
          computes_cmpScratch hfloat hg computes_scratchConstant
        cases ho : c.object? <;> rw [ho] at hcmp <;> exact hcmp

theorem computes_compareRegister {right : Operand} (hfloat : right.kind.isFloating = false) :
    Computes S C (compareRegister right.kind.isWord g right)
      (fun s => S.Readable s ∧ S.Accessible C.frame s right)
      fun _ => ComparedTo S C.frame g right := by
  have hwidth := Kind.width_eq_ofWide hfloat
  unfold compareRegister
  split
  · rename_i r' kind
    refine (finds_gpr _).computes fun r hr => ?_
    have hcmp : Computes S C (emit (.alu .cmp kind.isWord g (.reg r)))
        (fun s => S.Readable s ∧ S.Accessible C.frame s (.reg r' kind)) _ :=
      computes_cmp (Instr.encodable_of_none rfl) rfl (fun s _ => readsRm_reg g _) fun s _ =>
        (readsRm_reg r _).source
    refine hcmp.mono fun s _ hs => ⟨hs, ?_⟩
    rintro _ _ rfl
    have hwidth : kind.width = .ofWide kind.isWord := hwidth
    rw [← hwidth]
    exact comparedTo_of_flags (Site.value?_gpr hr) (setWidth_low _ _) (setWidth_low _ _)
  · exact (computes_compareConstant hfloat).mono fun s _ hs => ⟨hs.1, fun _ _ => id⟩
  · split
    · rename_i hsize
      split
      · exact computes_of_fails (fails_unhandled _)
      · rename_i hg
        have hword : right.kind.isWord = false := by
          revert hsize
          cases right.kind <;> decide
        rw [toScratch_bind, ← hword]
        refine computes_cmpScratch hfloat hg ((computes_toScratch ?_).mono fun s _ hs => ⟨hs, ?_⟩)
        · rintro r - hdouble
          rw [hdouble] at hfloat
          cases hfloat
        · rintro _ c ⟨b, hb, hlow, hkeeps, -⟩
          exact ⟨b, hb, hlow, hkeeps⟩
    · rename_i hsize
      refine (finds_location right).computes fun l hl => ?_
      have hbytes := Kind.read_of_full hfloat hsize
      have hcmp : Computes S C (discard (emitAt l fun m => .alu .cmp right.kind.isWord g (.mem m)))
          (S.Accessible C.frame · right) _ :=
        computes_cmpAt hl.2 (fixed_of_place? hl.1) (fun _ => rfl) (fun _ _ => rfl) (fun _ => rfl)
          (fun s _ _ _ _ => readsRm_reg g _) fun s m _ hs ha =>
            (readsRm_mem ha (hbytes.1 ▸ hs l hl.1)).source
      refine hcmp.mono fun s _ hs => ⟨hs.2, ?_⟩
      rintro _ _ rfl
      rw [← hwidth]
      refine comparedTo_of_flags (Site.value?_place hl.1) (setWidth_low _ _) ?_
      rw [loaded, hwidth, hbytes.1, hbytes.2]

/-! ### Memory -/

/-- The operands have been compared. Nothing else has changed but the scratch register. -/
def Compared (S : Site) (frame : Frame) (left right : Operand) : Assertion := fun s c =>
  ∃ a b, S.value? frame s left = some a ∧ S.value? frame s right = some b ∧
    c.flags = (Comparison.words left.kind.width a b).flags ∧
    s.Keeps (· = scratch) (fun _ => False) (fun _ => False) c

section Memory

variable {left right : Operand} {l : Location}

/-- The left operand is loaded first, to the scratch register, which the right one does not use. -/
theorem computes_compareLoaded (hl : place? C.frame left = some l) (hvalid : l.Valid)
    (hkind : right.kind = left.kind) (hfloat : left.kind.isFloating = false)
    (hscratch : ¬ right.Uses C.frame scratch) :
    Computes S C (discard (loadGpr left.kind scratch l) >>=
      fun _ => compareRegister left.kind.isWord scratch right)
      (CanRead S C.frame left right) fun _ => Compared S C.frame left right := by
  have hload : Computes S C (discard (loadGpr left.kind scratch l))
      (CanRead S C.frame left right) fun _ s c =>
      c = s.setReg scratch (left.kind.read (s.memory.readWord (S.place s l) left.kind.size)) :=
    Computes.discard ((computes_loadGpr hvalid (fixed_of_place? hl)).mono fun s _ hs =>
      ⟨hs.2.1 l hl, fun _ _ => id⟩)
  have hcompare : Computes S C (compareRegister right.kind.isWord scratch right) _ _ :=
    computes_compareRegister (hkind ▸ hfloat)
  rw [hkind] at hcompare
  refine hload.bind (fun _ => hcompare) ?_
  rintro s _ _ ⟨hreadable, -, hacc⟩ rfl
  let v := left.kind.read (s.memory.readWord (S.place s l) left.kind.size)
  have hkeeps : s.Keeps (· = scratch) (fun _ => False) (fun _ => False) (s.setReg scratch v) :=
    keeps_setReg (G := (· = scratch)) rfl v
  have hstays : ∀ g, right.Uses C.frame g → ¬ g = scratch := fun g hg h => hscratch (h ▸ hg)
  refine ⟨⟨hreadable.keeps hkeeps, hacc.keeps hkeeps hstays⟩, ?_⟩
  rintro _ c ⟨b, hb, hflags, hkeeps'⟩
  rw [Site.value?_keeps hkeeps hstays (fun _ _ => id) fun _ _ _ _ => id] at hb
  rw [hkind, reg_setReg_self] at hflags
  exact ⟨v, b, Site.value?_place hl, hb, hflags, hkeeps.trans hkeeps'⟩

/-- The left operand is read by the compare itself. -/
theorem computes_compareAt {i : Mem → Instr} {src : X64.Source} {f : Machine → Word}
    (hl : place? C.frame left = some l) (hvalid : l.Valid) (hfloat : left.kind.isFloating = false)
    (hsize : ¬ left.kind.size < 4) (hi : ∀ m, (i m).mem? = some m)
    (hw : ∀ m m', (i m).withMem m' = i m')
    (hdecoded : ∀ m, (i m).decoded = .alu .cmp (.ofWide left.kind.isWord) (.mem m) src)
    (hsrc : ∀ (s : Machine) next, s.ReadsSource next (.ofWide left.kind.isWord) (f s) src) :
    Computes S C (discard (emitAt l i)) (S.Accessible C.frame · left) fun _ s c =>
      ∃ a, S.value? C.frame s left = some a ∧
      c = { s with flags := (Comparison.words left.kind.width a (f s)).flags } := by
  have hbytes := Kind.read_of_full hfloat hsize
  refine (computes_cmpAt hvalid (fixed_of_place? hl) hi hw hdecoded
    (fun s m _ hs ha => readsRm_mem ha (hbytes.1 ▸ hs l hl)) fun s _ next _ _ =>
      hsrc s next).mono fun s _ hs => ⟨hs, ?_⟩
  rintro _ _ rfl
  refine ⟨_, Site.value?_place hl, ?_⟩
  rw [Kind.width_eq_ofWide hfloat, loaded, hbytes.1, hbytes.2]

/-- The immediate that stands for a constant that does not need the scratch register. -/
theorem toInt_immediate {c : Constant} (h : needsScratch c = false) :
    (if c.kind.isWord then c.toInt64.toInt32 else c.toInt32).toInt =
      constantValue c c.kind.isWord := by
  cases hword : c.kind.isWord with
  | false => rfl
  | true =>
    have hsize : c.kind.size = 8 := by
      revert hword
      cases c.kind <;> decide
    have ho : c.object? = none := by
      cases ho : c.object? with
      | none => rfl
      | some o => exact absurd ((needsScratch_of_object ho).symm.trans h) (by decide)
    cases himm : int32? c.toInt64.toInt with
    | none => exact absurd ((needsScratch_of_wide ho hsize himm).symm.trans h) (by decide)
    | some imm =>
      have hvalue := toInt_of_int32? himm
      rw [if_pos rfl, constantValue, if_pos rfl, Int64.toInt_toInt32, ← hvalue]
      exact Int32.toInt_bmod imm

theorem computes_compareMemoryConstant {c : Constant} (hl : place? C.frame left = some l)
    (hvalid : l.Valid) (hkind : c.kind = left.kind) (hfloat : left.kind.isFloating = false)
    (hsize : ¬ left.kind.size < 4) (hscratch : ¬ left.Uses C.frame scratch) :
    Computes S C (compareMemoryConstant left.kind.isWord l c)
      (fun s => S.Readable s ∧ S.Accessible C.frame s left)
      fun _ => Compared S C.frame left (.const c) := by
  have hwidth := Kind.width_eq_ofWide hfloat
  unfold compareMemoryConstant
  split
  · have hcmp : Computes S C (discard (emitAt l (.aluStore .cmp left.kind.isWord · scratch)))
        (S.Accessible C.frame · left) fun _ s c =>
          ∃ a, S.value? C.frame s left = some a ∧ c = { s with flags :=
          (Comparison.words left.kind.width a
            (low (s.reg scratch) (.ofWide left.kind.isWord))).flags } :=
      computes_compareAt hl hvalid hfloat hsize (fun _ => rfl) (fun _ _ => rfl) (fun _ => rfl)
        fun s _ => (readsRm_reg scratch _).source
    have hconstant : Computes S C _ (fun s => S.Readable s ∧ S.Accessible C.frame s left)
        fun _ => InScratch S C.frame (.const c) :=
      computes_scratchConstant.mono fun s _ hs => ⟨hs.1, fun _ _ => id⟩
    have hboth := hconstant.bind (R := fun _ => Compared S C.frame left (.const c)) (fun _ => hcmp)
      fun s _ c' ⟨_, hacc⟩ ⟨b, hb, hlow, hkeeps⟩ => by
        have hstays : ∀ g, left.Uses C.frame g → ¬ g = scratch := fun g hg h => hscratch (h ▸ hg)
        refine ⟨hacc.keeps hkeeps hstays, ?_⟩
        rintro _ _ ⟨a, ha, rfl⟩
        rw [Site.value?_keeps hkeeps hstays (fun _ _ => id) fun _ _ _ _ => id] at ha
        refine ⟨a, b, ha, hb, Comparison.flags_congr rfl ?_, hkeeps.trans (keeps_flags _)⟩
        rw [← hwidth, setWidth_low, ← hkind]
        exact low_eq_iff.mp hlow
    cases ho : c.object? <;> rw [ho] at hboth <;> exact hboth
  · rename_i hneeds
    rw [Bool.not_eq_true] at hneeds
    have ho : c.object? = none := by
      cases ho : c.object? with
      | none => rfl
      | some o => exact absurd ((needsScratch_of_object ho).symm.trans hneeds) (by decide)
    refine (computes_compareAt hl hvalid hfloat hsize (fun _ => rfl) (fun _ _ => rfl) (fun _ => rfl)
      fun s _ => readsSource_imm _ _).mono fun s _ hs => ⟨hs.2, ?_⟩
    rintro _ _ ⟨a, ha, rfl⟩
    refine ⟨a, _, ha, value?_bits ho C.frame s, Comparison.flags_congr rfl ?_, keeps_flags _⟩
    rw [← hkind, toInt_immediate hneeds, hkind, hwidth, setWidth_constantValue]

theorem computes_compareMemory (hl : place? C.frame left = some l) (hvalid : l.Valid)
    (hkind : right.kind = left.kind) (hfloat : left.kind.isFloating = false)
    (hleft : ¬ left.Uses C.frame scratch) (hright : ¬ right.Uses C.frame scratch) :
    Computes S C (compareMemory left.kind l right) (CanRead S C.frame left right)
      fun _ => Compared S C.frame left right := by
  have hload : Computes S C (discard (loadGpr left.kind scratch l) >>=
    fun _ => compareRegister left.kind.isWord scratch right)
      _ _ := computes_compareLoaded hl hvalid hkind hfloat hright
  unfold compareMemory
  dsimp only
  split
  · rename_i hsize
    have hword : left.kind.isWord = false := by
      revert hsize
      cases left.kind <;> decide
    rwa [hword] at hload
  · rename_i hsize
    split
    · refine (finds_gpr _).computes fun r hr => ?_
      refine (computes_compareAt hl hvalid hfloat hsize (fun _ => rfl)
        (fun _ _ => rfl) (fun _ => rfl)
        fun s _ => (readsRm_reg r _).source).mono fun s _ hs => ⟨hs.2.1, ?_⟩
      rintro _ _ ⟨a, ha, rfl⟩
      refine ⟨a, _, ha, Site.value?_gpr hr, ?_, keeps_flags _⟩
      rw [Kind.width_eq_ofWide hfloat]
      exact Comparison.flags_congr rfl (setWidth_low _ _)
    · exact (computes_compareMemoryConstant hl hvalid hkind hfloat hsize hleft).mono fun s _ hs =>
        ⟨⟨hs.1, hs.2.1⟩, fun _ _ => id⟩
    · exact hload

theorem computes_compare (hkind : right.kind = left.kind) (hfloat : left.kind.isFloating = false)
    (hleft : ¬ left.Uses C.frame scratch) (hright : ¬ right.Uses C.frame scratch) :
    Computes S C (compare left right) (CanRead S C.frame left right) fun _ =>
      Compared S C.frame left right := by
  unfold compare
  dsimp only
  rw [if_neg (by rw [hfloat]; exact Bool.false_ne_true)]
  split
  · rename_i r kind
    refine (finds_gpr _).computes fun g hg => ?_
    have hcompare : Computes S C (compareRegister right.kind.isWord g right) _ _ :=
      computes_compareRegister (hkind ▸ hfloat)
    rw [hkind] at hcompare
    refine hcompare.mono fun s _ hs => ⟨⟨hs.1, hs.2.2⟩, ?_⟩
    rintro _ c ⟨b, hb, hflags, hkeeps⟩
    exact ⟨_, b, Site.value?_gpr hg, hb, hkind ▸ hflags, hkeeps⟩
  · exact computes_of_fails (fails_unhandled _)
  · exact (finds_location left).computes fun l hl =>
      computes_compareMemory hl.1 hl.2 hkind hfloat hleft hright

end Memory

end Lower

end MachineCode
