import MachineCode.Proofs.Execution.Compares
import MachineCode.Proofs.Execution.Deferred
import MachineCode.Proofs.Floats.Saturation

/-! Conversions of floats to integers. The code in its place takes what the hardware delivers. The
least integer may stand for a value that does not fit; then the code that was put off tells, and
puts the nearest integer in its place. -/
namespace MachineCode

open X64 Lower Machine Chunk

/-! ### Instructions -/

namespace Machine

variable {s : Machine} {next : Word} {double : Bool} {w : Width} {dst : Gpr} {x y : Xmm}

/-- What the low part of a floating-point register stands for. -/
def scalar (double : Bool) (x : Xmm) (s : Machine) : FloatValue :=
  (FloatFormat.ofDouble double).decode (low ((s.xmmReg x).setWidth 64) (laneWidth double)).toNat

theorem scalar_keeps {G : Gpr → Prop} {X : Xmm → Prop} {A : Word → Prop} {c : Machine}
    (h : s.Keeps G X A c) (hx : ¬ X x) : c.scalar double x = s.scalar double x := by
  rw [scalar, scalar, h.xmms x hx]

theorem scalar_zero (h : s.xmmReg x = 0) :
    s.scalar double x = .finite false 0 (FloatFormat.ofDouble double).leastExponent := by
  rw [scalar, h]
  cases double <;> rfl

theorem executes_cvtToInt : Executes (.cvtToInt double w dst (.reg x)) next s fun c =>
    c = s.setReg dst (merge (s.reg dst) (truncated w (s.scalar double x)) w) :=
  (yields_readLane (x := .reg x) rfl).after (yields_writeReg dst w _)

theorem executes_ucomis : Executes (.ucomis double x (.reg y)) next s fun c =>
    c = { s with flags := orderFlags ((s.scalar double x).compare (s.scalar double y)) } :=
  (yields_readLane (x := .reg x) rfl).after
    ((yields_readLane (x := .reg y) rfl).after (yields_setFlags _))

theorem pf_orderFlags (order : FloatOrder) : (orderFlags order).pf = true ↔ order = .unordered := by
  cases order <;> decide

theorem cf_orderFlags (order : FloatOrder) :
    (orderFlags order).cf = true ↔ order = .less ∨ order = .unordered := by
  cases order <;> decide

theorem setWidth_ofInt_bits (t : Int) :
    (BitVec.ofInt 64 t).setWidth w.bits = BitVec.ofInt w.bits t := by
  refine BitVec.eq_of_toNat_eq ?_
  cases w <;> simp [Width.bits, Width.bytes, BitVec.toNat_ofInt] <;> omega

/-- The hardware delivers the value truncated toward zero, or the least integer. -/
theorem setWidth_truncated (w : Width) (v : FloatValue) :
    (truncated w v).setWidth w.bits = BitVec.ofInt w.bits (v.delivered w.bits) := by
  have hleast : (BitVec.ofNat 64 (pow2 (w.bits - 1))).setWidth w.bits =
      BitVec.ofInt w.bits (-2 ^ (w.bits - 1)) := by
    cases w <;> decide
  cases hv : v.truncate? with
  | none => simpa only [truncated, FloatValue.delivered, hv] using hleast
  | some t =>
    simp only [truncated, FloatValue.delivered, hv, cast_pow2]
    split
    · exact setWidth_ofInt_bits t
    · exact hleast

theorem toInt_ofInt_bits {t : Int} (hlow : -2 ^ (w.bits - 1) ≤ t) (hhigh : t < 2 ^ (w.bits - 1)) :
    (BitVec.ofInt w.bits t).toInt = t := by
  rw [BitVec.toInt_ofInt]
  cases w <;> simp [Width.bits, Width.bytes, Int.bmod] at * <;> omega

/-- What is delivered is the least integer just if the result says so. -/
theorem ofInt_delivered_eq (w : Width) (v : FloatValue) :
    BitVec.ofInt w.bits (v.delivered w.bits) = BitVec.intMin w.bits ↔
    v.delivered w.bits = -2 ^ (w.bits - 1) := by
  have hleast : (BitVec.intMin w.bits).toInt = -2 ^ (w.bits - 1) :=
    BitVec.toInt_intMin_of_pos (by cases w <;> decide)
  obtain ⟨hlow, hhigh⟩ := v.delivered_mem w.bits
  rw [← BitVec.toInt_inj, hleast, toInt_ofInt_bits hlow hhigh]

end Machine

/-! ### The code -/

namespace Lower

/-- A truncation up to its branch, with a label for the code that is put off. -/
def truncation (entry : Label) (x : Xmm) (g : Gpr) (double long : Bool) : Lower Unit := do
  emit (.cvtToInt double long g x)
  compareLeast long g
  let _ ← newLabel
  let _ ← newLabel
  jcc .e entry

/-- What the fix-up does about a number: it stays if it is below zero, and otherwise the greatest
integer is right. -/
def replacement (nan resume : Label) (x : Xmm) (g : Gpr) (double long : Bool) : Lower Unit := do
  emit (.ucomis double x (.reg x))
  jccShort .p nan
  emit (.packed .xor double floatScratch (.reg floatScratch))
  emit (.ucomis double x (.reg floatScratch))
  jcc .b resume
  emit (.movImm long g (if long then 0x7FFFFFFFFFFFFFFF else 0x7FFFFFFF))
  jmp resume

theorem convertFixup_eq_bind (entry resume : Label) (x : Xmm) (g : Gpr) (double long : Bool) :
    convertFixup entry resume x g double long = newLabel >>= fun nan =>
      Lower.bind entry >>= fun _ =>
      (replacement nan resume x g double long >>= fun _ => Lower.bind nan) >>= fun _ =>
      emit (zero g) >>= fun _ => jmp resume := by
  simp only [convertFixup, replacement, bind_assoc]

/-- With the two labels that it makes, a truncation is the code up to its branch, and a label behind
that. -/
theorem truncate_run {double long : Bool} {src dst : Operand} {d d' : Draft}
    (hmark : d.buffer.mark = none) (hrun : truncate double long src dst d = .ok () d') :
    let entry : Label := ⟨d.buffer.labels.size⟩
    let resume : Label := ⟨d.buffer.labels.size + 1⟩
    ∃ x g d₁, xmm? src = some x ∧ gpr? dst = some g ∧
      (truncation entry x g double long >>= fun _ => Lower.bind resume) d = .ok () d₁ ∧
      d' = { d₁ with pending := d₁.pending.push (.convertFixup entry resume x g double long) } := by
  obtain ⟨x, g, d₁, d₂, hx, hg, h₁, h₂, hcalm, hrun⟩ := truncate_starts hmark hrun
  obtain ⟨entry, d₃, h₃, hrun⟩ := Step.bind_eq_ok.mp hrun
  obtain ⟨resume, d₄, h₄, hrun⟩ := Step.bind_eq_ok.mp hrun
  have hentry : entry = ⟨d.buffer.labels.size⟩ := by
    rw [← hcalm.labels]
    cases h₃
    rfl
  have hresume : resume = ⟨d.buffer.labels.size + 1⟩ := by
    rw [← hcalm.labels]
    cases h₃
    cases h₄
    simp
  subst hentry hresume
  obtain ⟨_, d₅, h₅, hrun⟩ := Step.bind_eq_ok.mp hrun
  obtain ⟨_, d₆, h₆, hrun⟩ := Step.bind_eq_ok.mp hrun
  cases Step.modify_eq_ok.mp hrun
  refine ⟨x, g, d₆, hx, hg, ?_, rfl⟩
  simp only [truncation, bind_assoc]
  rw [Step.bind_of_ok h₁, Step.bind_of_ok h₂, Step.bind_of_ok h₃,
    Step.bind_of_ok h₄, Step.bind_of_ok h₅]
  exact h₆

/-! ### What the code does -/

section

variable {S : Site} {C : Context} {A : Machine → Prop} {x y : Xmm} {g : Gpr} {double long : Bool}
  {entry resume nan : Label}
  {L : Label → Assertion}

/-- The register holds the integer. Nothing else has changed but the scratch registers. -/
structure Converted (g : Gpr) (long : Bool) (t : Int) (s c : Machine) : Prop where
  result : (c.reg g).setWidth (Width.ofWide long).bits = BitVec.ofInt (Width.ofWide long).bits t
  keeps : s.Keeps (fun r => r = g ∨ r = scratch) (· = floatScratch) (fun _ => False) c

theorem Converted.scalar_eq {t : Int} {s c : Machine} (h : Converted g long t s c)
    (hx : x ≠ floatScratch) :
    c.scalar double x = s.scalar double x := scalar_keeps h.keeps hx

/-- Registers that are not the result's may change on. -/
theorem Converted.spare {t : Int} {s c c' : Machine} (h : Converted g long t s c)
    (hg : c'.reg g = c.reg g)
    (hkeeps : c.Keeps (fun r => r = g ∨ r = scratch) (· = floatScratch) (fun _ => False) c') :
    Converted g long t s c' :=
  ⟨hg ▸ h.result, h.keeps.trans hkeeps⟩

/-- The result is another one. -/
theorem Converted.set {t t' : Int} {s c : Machine} {v : Word} (h : Converted g long t s c)
    (f : Flags) (hv : v.setWidth (Width.ofWide long).bits = BitVec.ofInt _ t') :
    Converted g long t' s ({ c with flags := f }.setReg g v) where
  result := by rwa [reg_setReg_self]
  keeps := h.keeps.trans ((keeps_flags f).trans (keeps_setReg (.inl rfl) v))

/-- The least integer has been delivered, so that the value may be out of range. -/
structure Doubtful (x : Xmm) (g : Gpr) (double long : Bool) (s c : Machine) : Prop where
  least : (s.scalar double x).delivered (Width.ofWide long).bits =
    -2 ^ ((Width.ofWide long).bits - 1)
  converted : Converted g long (-2 ^ ((Width.ofWide long).bits - 1)) s c

/-- The integer in the register is the right one. -/
def Saturated (x : Xmm) (g : Gpr) (double long : Bool) : Assertion := fun s c =>
  Converted g long ((s.scalar double x).saturated (Width.ofWide long).bits) s c

theorem computes_cvtToInt : Computes S C (emit (.cvtToInt double long g x)) A fun _ s c =>
    Converted g long ((s.scalar double x).delivered (Width.ofWide long).bits) s c := by
  refine (computes_emit (i := .cvtToInt double long g x) (Instr.encodable_of_none rfl)
    (fun _ _ _ => executes_cvtToInt) fun _ _ h => by
    rw [h]; rfl).mono fun s _ hs => ⟨hs, fun _ c hc => ?_⟩
  subst hc
  refine ⟨?_, keeps_setReg (.inl rfl) _⟩
  rw [reg_setReg_self, merge_ofWide, setWidth_low, setWidth_truncated]

theorem computes_ucomis : Computes S C (emit (.ucomis double x (.reg y))) A fun _ s c =>
    c = { s with flags := orderFlags ((s.scalar double x).compare (s.scalar double y)) } :=
  computes_emit (Instr.encodable_of_none rfl) (fun _ _ _ => executes_ucomis) fun _ _ h => by rw [h]

theorem computes_clearXmm :
    Computes S C (emit (.packed .xor double x (.reg x))) A fun _ s c => c = s.setXmm x 0 :=
  computes_emit (Instr.encodable_of_none rfl) (fun _ _ _ => executes_clearXmm)
    fun _ _ h => by rw [h]; rfl

/-- The compare leaves the register and tells whether it holds the least integer. -/
theorem computes_compareLeast (hg : g ≠ scratch) : Computes S C (compareLeast long g) A fun _ s c =>
    s.Keeps (· = scratch) (fun _ => False) (fun _ => False) c ∧
      (c.flags.zf = true ↔
        (s.reg g).setWidth (Width.ofWide long).bits = BitVec.intMin (Width.ofWide long).bits) := by
  have hzf : ∀ {w : Width} {a b v : Word}, a.setWidth w.bits = v.setWidth w.bits →
    b.setWidth w.bits = BitVec.intMin w.bits →
      ((Comparison.words w a b).flags.zf = true ↔ v.setWidth w.bits = BitVec.intMin w.bits) := by
    intro w a b v ha hb
    rw [show (Comparison.words w a b).flags.zf = _ from Flags.zf_sub, ha, hb, beq_iff_eq]
  unfold compareLeast
  cases long with
  | true =>
    rw [if_pos rfl]
    refine (computes_movImm true scratch _).bind
      (fun _ => computes_cmp (Instr.encodable_of_none rfl) rfl
      (fun s _ => readsRm_reg g _) fun s _ => (readsRm_reg scratch _).source) fun s _ c _ hc =>
        ⟨trivial, fun _ c' hc' => ?_⟩
    subst hc hc'
    refine ⟨(keeps_setReg (G := (· = scratch)) rfl _).trans (keeps_flags _), hzf ?_ ?_⟩
    · rw [setWidth_low, reg_setReg_of_ne (Ne.symm hg)]
    · rw [setWidth_low, reg_setReg_self]
      decide
  | false =>
    rw [if_neg Bool.false_ne_true]
    refine (computes_cmp (Instr.encodable_of_none rfl) rfl (fun s _ => readsRm_reg g _)
      fun s _ => readsSource_imm _ _).mono fun s _ hs => ⟨hs, fun _ c hc => ?_⟩
    subst hc
    exact ⟨keeps_flags _, hzf (setWidth_low _ _) (by decide)⟩

/-- The code in its place leads to its end unless the least integer is delivered. -/
theorem runs_truncation (hg : g ≠ scratch) :
    Runs S C (truncation entry x g double long) (fun s c => c = s)
    (fun _ s c => (s.scalar double x).delivered (Width.ofWide long).bits ≠
      -2 ^ ((Width.ofWide long).bits - 1) ∧
      Saturated x g double long s c)
    fun l s c => l = entry ∧ Doubtful x g double long s c := by
  let Given : Assertion :=
    fun s c => Converted g long ((s.scalar double x).delivered (Width.ofWide long).bits) s c
  let Told : Assertion := fun s c => Given s c ∧ (c.flags.zf = true ↔
    (s.scalar double x).delivered (Width.ofWide long).bits = -2 ^ ((Width.ofWide long).bits - 1))
  unfold truncation
  refine Runs.bind (Q := fun _ => Given)
    (computes_cvtToInt.runs (A := fun _ => True) ?_) fun _ => ?_
  · rintro s _ - rfl
    exact ⟨trivial, fun _ _ hc => hc⟩
  refine Runs.bind (Q := fun _ => Told)
    ((computes_compareLeast (A := fun _ => True) hg).runs fun s c _ hs =>
    ⟨trivial, fun _ c' hc =>
      ⟨hs.spare (hc.1.gprs g hg)
        (hc.1.mono (fun _ => .inr) (fun _ => False.elim) fun _ => id), ?_⟩⟩)
    fun _ => runs_newLabel fun _ => runs_newLabel fun _ => (runs_jcc .e entry).mono ?_ ?_
  · rw [hc.2, hs.result, ofInt_delivered_eq]
  · rintro _ s c ⟨⟨hgiven, hzf⟩, hne⟩
    have hne : ¬ c.flags.zf = true := Bool.eq_false_iff.mp hne
    rw [hzf] at hne
    refine ⟨hne, ?_⟩
    rwa [Saturated, FloatValue.saturated_of_ne hne]
  · rintro l s c ⟨rfl, ⟨hgiven, hzf⟩, heq⟩
    have hleast := hzf.mp heq
    exact ⟨rfl, hleast, hleast ▸ hgiven⟩

/-- A number stays if it is below zero, and gives way to the greatest integer if it is not. -/
theorem runs_replacement (hx : x ≠ floatScratch) : Runs S C (replacement nan resume x g double long)
    (Doubtful x g double long) (fun _ _ _ => False) fun l s c =>
      (l = resume ∧ Saturated x g double long s c) ∨
        l = nan ∧ Doubtful x g double long s c ∧ s.scalar double x = .nan := by
  let Number : Assertion := fun s c => Doubtful x g double long s c ∧ s.scalar double x ≠ .nan
  let zero : FloatValue := .finite false 0 (FloatFormat.ofDouble double).leastExponent
  let Beyond : Assertion := fun s c => Number s c ∧ (s.scalar double x).compare zero ≠ .less
  unfold replacement
  -- A value is unordered to itself just if it is NaN.
  refine Runs.bind (Q := fun _ s c => Doubtful x g double long s c ∧
    (c.flags.pf = true ↔ s.scalar double x = .nan))
      (computes_ucomis.runs (A := fun _ => True) ?_) fun _ => ?_
  · rintro s c - ⟨hleast, hs⟩
    refine ⟨trivial, fun _ c' hc => ?_⟩
    subst hc
    refine ⟨⟨hleast, hs.spare rfl (keeps_flags _)⟩, ?_⟩
    rw [hs.scalar_eq hx, pf_orderFlags, FloatValue.compare_self_eq_unordered]
  refine Runs.bind (Q := fun _ => Number) ((runs_jccShort .p nan).mono ?_ ?_) fun _ => ?_
  · rintro _ s c ⟨⟨hs, hpf⟩, hordered⟩
    exact ⟨hs, fun hnan => Bool.eq_false_iff.mp hordered (hpf.mpr hnan)⟩
  · rintro l s c ⟨rfl, ⟨hs, hpf⟩, hunordered⟩
    exact .inr ⟨rfl, hs, hpf.mp hunordered⟩
  refine Runs.bind (Q := fun _ s c => Number s c ∧ c.xmmReg floatScratch = 0)
    (computes_clearXmm.runs (A := fun _ => True) ?_) fun _ => ?_
  · rintro s c - ⟨⟨hleast, hs⟩, hnumber⟩
    refine ⟨trivial, fun _ c' hc => ?_⟩
    subst hc
    exact ⟨⟨⟨hleast, hs.spare rfl (keeps_setXmm (X := (· = floatScratch)) rfl 0)⟩, hnumber⟩,
      xmmReg_setXmm_self ..⟩
  refine Runs.bind (Q := fun _ s c => Number s c ∧
    (c.flags.cf = true ↔ (s.scalar double x).compare zero = .less))
    (computes_ucomis.runs (A := fun _ => True) ?_) fun _ => ?_
  · rintro s c - ⟨⟨⟨hleast, hs⟩, hnumber⟩, hzero⟩
    refine ⟨trivial, fun _ c' hc => ?_⟩
    subst hc
    refine ⟨⟨⟨hleast, hs.spare rfl (keeps_flags _)⟩, hnumber⟩, ?_⟩
    rw [hs.scalar_eq hx, scalar_zero hzero, cf_orderFlags]
    exact or_iff_left fun h => hnumber (FloatValue.compare_finite_eq_unordered.mp h)
  refine Runs.bind (Q := fun _ => Beyond) ((runs_jcc .b resume).mono ?_ ?_) fun _ => ?_
  · rintro _ s c ⟨⟨hs, hcf⟩, habove⟩
    exact ⟨hs, fun hless => Bool.eq_false_iff.mp habove (hcf.mpr hless)⟩
  · rintro l s c ⟨rfl, ⟨⟨⟨hleast, hs⟩, -⟩, hcf⟩, hbelow⟩
    refine .inl ⟨rfl, ?_⟩
    rwa [Saturated, FloatValue.saturated_of_less hleast (hcf.mp hbelow)]
  refine Runs.bind (Q := fun _ => Saturated x g double long)
    ((computes_movImm long g _).runs (A := fun _ => True) ?_) fun _ => ?_
  · rintro s c - ⟨⟨⟨hleast, hs⟩, hnumber⟩, hless⟩
    refine ⟨trivial, fun _ c' hc => ?_⟩
    subst hc
    rw [Saturated, FloatValue.saturated_of_not_less hleast hnumber hless]
    refine hs.set c.flags ?_
    rw [setWidth_low]
    cases long <;> decide
  · exact (runs_jmp resume).mono (fun _ _ _ => id) fun _ _ _ => .inl

/-- The fix-up goes back to the end of the conversion, with the right integer. -/
theorem lays_convertFixup (hx : x ≠ floatScratch) :
    Lays S C (convertFixup entry resume x g double long)
    fun _ pre new final => final.buffer.labelOffset entry = some (extent pre) ∧
      S.Leads (Doubtful x g double long) (fun _ _ => False)
        (fun l s c => l = resume ∧ Saturated x g double long s c)
        pre new final := by
  let Nan : Assertion := fun s c => Doubtful x g double long s c ∧ s.scalar double x = .nan
  have hcode : ∀ nan, Runs S C
      ((replacement nan resume x g double long >>= fun _ => Lower.bind nan) >>= fun _ =>
      emit (zero g) >>= fun _ => jmp resume) (Doubtful x g double long) (fun _ _ _ => False)
      fun l s c => l = resume ∧ Saturated x g double long s c := by
    intro nan
    refine Runs.bind (Q := fun _ => Nan)
      ((runs_replacement hx).join (fun _ _ _ => False.elim) fun _ _ _ => id) fun _ => ?_
    refine Runs.bind (Q := fun _ => Saturated x g double long)
      ((computes_zero g).runs (A := fun _ => True) ?_) fun _ => runs_jmp resume
    rintro s c - ⟨⟨hleast, hs⟩, hnan⟩
    refine ⟨trivial, fun _ c' hc => ?_⟩
    obtain ⟨flags, rfl⟩ := hc
    rw [Saturated, hnan]
    exact hs.set flags (by cases long <;> rfl)
  rw [convertFixup_eq_bind]
  refine (Lays.bind lays_newLabel fun nan => (hcode nan).entered).mono
    fun _ pre new post final _ h => ?_
  obtain ⟨nan, new₁, new₂, rfl, rfl, h⟩ := h
  rwa [List.append_nil] at h

end

end Lower

/-! ### Installed code -/

/-- The code of a truncation with its fix-up: it leads to its end, through the fix-up or not. -/
theorem Installation.HasCode.exists_fixup {I : Installation} {op : ConvertOp} {double long : Bool}
    {src dst : Operand} {x : Xmm} {g : Gpr} {start stop : Nat}
    (hcode : I.HasCode (.convert op src dst) start stop)
    (hop : op.truncation? = some (double, long)) (hx : xmm? src = some x) (hg : gpr? dst = some g)
    (hsource : x ≠ floatScratch) (hresult : g ≠ scratch) :
    ∃ entry resume p q, I.HasSlowPath (.convertFixup entry resume x g double long) p q ∧
      stop ≤ I.image.size ∧ q ≤ I.image.size ∧
      ∀ s machine, I.site.Stands start (fun c => c = s) machine → ∃ machine',
        machine.Walks (fun a => I.site.Span start stop a ∨ I.site.Span p q a ∧
          (s.scalar double x).delivered (Width.ofWide long).bits =
            -2 ^ ((Width.ofWide long).bits - 1)) machine' ∧
        I.site.Stands stop (Saturated x g double long s) machine' := by
  have hconvert : lower (.convert op src dst) = truncate double long src dst := by
    obtain ⟨double', long', hop', heq⟩ | ⟨hop', -⟩ := convert_cases op src dst
    · cases hop.symm.trans hop'
      exact heq
    · cases hop.symm.trans hop'
  obtain ⟨last, hlast⟩ := I.exists_ends
  obtain ⟨d, before, after, hd, hreach, hlower, rfl, rfl⟩ := hcode
  obtain ⟨d₁, journal, hrun, rfl⟩ := operation_run hlower
  have hmark := (hd.completes hreach hlower).2.1.mark
  rw [hconvert] at hrun
  let named : Draft := { before with current := (Operation.convert op src dst).name }
  obtain ⟨x', g', d₂, hx', hg', htruncation, rfl⟩ := truncate_run (d := named) hmark hrun
  cases hx.symm.trans hx'
  cases hg.symm.trans hg'
  let entry : Label := ⟨before.buffer.labels.size⟩
  let resume : Label := ⟨before.buffer.labels.size + 1⟩
  let path : SlowPath := .convertFixup entry resume x g double long
  have hback : d₂.Onward { d₂ with pending := d₂.pending.push path, journal := journal } :=
    .of_same rfl rfl rfl rfl rfl
  obtain ⟨pre, new, post, hhosts, ⟨hresume, hleads⟩, hstart, hstop⟩ :=
    hosts_of_reaches hd hlast hreach hlower htruncation hback fun C _ _ =>
      (runs_truncation hresult).left
  have hpath : path ∈ (d₂.pending.push path).toList := by simp
  obtain ⟨p, q, hslow⟩ := exists_hasSlowPath hd hreach hlower hpath
  obtain ⟨pre', new', post', hhosts', ⟨hentry, hfixup⟩, rfl, rfl⟩ :=
    hslow.hosts_last hlast fun C _ _ => lays_convertFixup hsource
  refine ⟨entry, resume, _, _, hslow, hstop ▸
    hhosts.extent_le, hhosts'.extent_le, fun s machine hat => ?_⟩
  obtain ⟨m₁, hwalks, hend | ⟨l, a, hl, hloaded, hrip, rfl, hdoubtful⟩⟩ :=
    hleads s machine (hstart ▸ hat)
  · rw [hstart, hstop] at hwalks
    exact ⟨m₁, hwalks.mono fun _ => .inl, hstop ▸ hend.mono fun _ => And.right⟩
  · cases hl.symm.trans hentry
    obtain ⟨m₂, hwalks', hend | ⟨l, a, hl, hloaded', hrip', rfl, hsaturated⟩⟩ :=
      hfixup s m₁ ⟨hloaded, hrip, hdoubtful⟩
    · exact hend.core.elim
    · cases hl.symm.trans hresume
      rw [hstart, hstop] at hwalks
      refine ⟨m₂, (hwalks.mono fun _ => .inl).trans
        (hwalks'.mono fun _ h => .inr ⟨h, hdoubtful.least⟩), hloaded', ?_, hsaturated⟩
      exact hstop ▸ hrip'

/-- From any state and of any float the code of a truncating conversion leads to its end, with the
value truncated toward zero in the register: 0 of NaN, and the nearest integer of what does not fit.
Nothing else changes but the flags and the scratch registers. The fix-up, which is behind the code
of all operations, is gone through only if the hardware delivers the least integer. Unless the
fix-up starts right at the end of the conversion, control gets there for the first time. -/
theorem exists_run_truncated {I : Installation} {op : ConvertOp} {double long : Bool}
    {src dst : Operand} {x : Xmm} {g : Gpr} {start stop : Nat} {machine : Machine}
    (hcode : I.HasCode (.convert op src dst) start stop)
    (hop : op.truncation? = some (double, long)) (hx : xmm? src = some x) (hg : gpr? dst = some g)
    (hsource : x ≠ floatScratch) (hresult : g ≠ scratch) (hloaded : machine.Loaded I.base I.image)
    (hrip : machine.rip = I.base + BitVec.ofNat 64 start) :
    let w : Width := .ofWide long
    let v : FloatValue := machine.scalar double x
    ∃ entry resume p q machine', I.HasSlowPath
      (.convertFixup entry resume x g double long) p q ∧ stop ≤ p ∧
      machine.Walks (fun a => I.site.Span start stop a ∨
        I.site.Span p q a ∧ (truncated w v).setWidth w.bits = BitVec.intMin w.bits) machine' ∧
      machine'.rip = I.base + BitVec.ofNat 64 stop ∧
      (stop < p → machine.RunsTo (I.base + BitVec.ofNat 64 stop) machine') ∧
      ((machine'.reg g).setWidth w.bits).toInt = v.saturated w.bits ∧
      machine.Keeps (fun r => r = g ∨ r = scratch) (· = floatScratch)
        (fun _ => False) machine' := by
  intro w v
  obtain ⟨entry, resume, p, q, hslow, hstop, hq, hleads⟩ :=
    hcode.exists_fixup hop hx hg hsource hresult
  obtain ⟨machine', hwalks, hloaded', hrip', hend⟩ :=
    hleads machine.core machine ⟨hloaded, hrip, rfl⟩
  have hle := hslow.stop_le hcode
  refine ⟨entry, resume, p, q, machine', hslow, hle,
    hwalks.mono fun a => Or.imp id (And.imp id fun hleast => ?_), hrip', fun hlt =>
      ?_, ?_, ⟨hend.keeps.gprs, hend.keeps.xmms, hend.keeps.memory, hend.keeps.ranges⟩⟩
  · rw [setWidth_truncated, ofInt_delivered_eq]
    exact hleast
  · refine hwalks.runsTo (fun a ha => ?_) hrip'
    obtain hinside | ⟨hinside, -⟩ := ha
    · exact Installation.ne_of_span hinside hstop hstop (.inr (Nat.le_refl _))
    · exact Installation.ne_of_span hinside hq hstop (.inl hlt)
  · obtain ⟨hlow, hhigh⟩ := v.saturated_mem w.bits
    exact (congrArg BitVec.toInt hend.result).trans (toInt_ofInt_bits hlow hhigh)

/-- NaN as an int, in front of another operation. -/
theorem exists_run_truncated_nan :
    let src : Operand := .reg (Xmm.register ⟨1⟩) .float
    let dst : Operand := .reg Gpr.rax.register .int
    ∃ (I : Installation) (start stop : Nat) (machine machine' : Machine),
      I.HasCode (.convert .f2i src dst) start stop ∧
      machine.Loaded I.base I.image ∧ machine.rip = I.base + BitVec.ofNat 64 start ∧
      machine.xmmReg ⟨1⟩ = 0x7FC00000 ∧ machine.RunsTo (I.base + BitVec.ofNat 64 stop) machine' ∧
      ((machine'.reg .rax).setWidth 32).toInt = 0 := by
  intro src dst
  let target : Target := ⟨{ Options.standard with useStackBanging := false }, ⟨true, true⟩, 4096⟩
  let source : MethodSource :=
    ⟨"nan", none, .empty, [], [.convert .f2i src dst, .breakpoint, .ret none]⟩
  obtain ⟨I, -, hsource, -, -, -⟩ :=
    Installation.exists_installed target source 0x10000000 (by decide +kernel)
  have hops : I.source.ops = [] ++ .convert .f2i src dst :: [.breakpoint, .ret none] := by
    rw [hsource]; rfl
  obtain ⟨start, stop, hcode, hnext⟩ := I.exists_hasCode_next hops
  obtain ⟨stop', hbreak⟩ := hnext _ _ rfl
  let machine : Machine := I.enter (Machine.initial.setXmm ⟨1⟩ 0x7FC00000) start
  have hloaded : machine.Loaded I.base I.image := Installation.loaded_enter _ start
  have hx : machine.xmmReg ⟨1⟩ = 0x7FC00000 := rfl
  have hnan : machine.scalar false ⟨1⟩ = .nan := by
    rw [scalar, hx]
    decide +kernel
  obtain ⟨entry, resume, p, q, machine', hslow, -, -, -, hrun, hresult, -⟩ :=
    exists_run_truncated (x := ⟨1⟩) (g := .rax) hcode rfl rfl rfl (by decide)
      (by decide) hloaded rfl
  have hlt : stop < p := by
    obtain ⟨pre, new, post, final, -, -, hnew, rfl, rfl⟩ :=
      hbreak.hosts fun C _ _ => lays_emit (Instr.encodable_of_none rfl)
    have hle := hslow.stop_le hbreak
    have hpos : 0 < (Instr.int3).encode.length := by decide
    rw [hnew, extent_append, extent_cons, size_instr] at hle
    omega
  refine ⟨I, start, stop, machine, machine', hcode, hloaded, rfl, hx, hrun hlt, ?_⟩
  rw [hnan] at hresult
  exact hresult

end MachineCode
