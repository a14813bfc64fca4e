import MachineCode.Proofs.Execution.Cells
import MachineCode.Proofs.Execution.Signs

/-! Scans for the highest or the lowest set bit. The instruction leaves its destination as it is if
no bit is set, so the destination holds -1 before; it is the result register unless the value stands
there. -/
namespace MachineCode

open X64 Lower Machine

/-! ### Set bits -/

/-- The highest or the lowest set bit of the word has this index. -/
structure IsOutermost {n : Nat} (most : Bool) (v : BitVec n) (i : Nat) : Prop where
  set : v.getLsbD i = true
  bound : ∀ j, v.getLsbD j = true → if most then j ≤ i else i ≤ j

/-- The index of the highest or the lowest set bit, or -1 if none is set. -/
def Scanned {n : Nat} (most : Bool) (v : BitVec n) (r : BitVec 32) : Prop :=
  if v = 0 then r = -1 else ∃ i, IsOutermost most v i ∧ r = BitVec.ofNat 32 i

theorem isOutermost_lowestBit {v : Word} (hv : v ≠ 0) : IsOutermost false v (lowestBit v) := by
  cases hfind : (List.range 64).find? v.getLsbD with
  | none =>
    rw [List.find?_range_eq_none] at hfind
    refine absurd (BitVec.eq_of_getLsbD_eq fun i hi => ?_) hv
    simpa using hfind i hi
  | some i =>
    obtain ⟨hset, -, hbelow⟩ := List.find?_range_eq_some.mp hfind
    have hindex : lowestBit v = i := by rw [lowestBit, hfind, Option.getD_some]
    rw [hindex]
    refine ⟨hset, fun j hj => Nat.le_of_not_lt fun hlt => ?_⟩
    have hclear := hbelow j hlt
    rw [hj] at hclear
    cases hclear

theorem isOutermost_highestBit {v : Word} (hv : v ≠ 0) : IsOutermost true v (highestBit v) := by
  have hne : v.toNat ≠ 0 := fun h => hv (BitVec.eq_of_toNat_eq h)
  refine ⟨Nat.testBit_log2 hne, fun j hj => ?_⟩
  exact (Nat.le_log2 hne).mpr (Nat.ge_two_pow_of_testBit hj)

/-- The low part of a word has the bits of the part, and no others. -/
theorem getLsbD_low (v : Word) (w : Width) (i : Nat) :
    (low v w).getLsbD i = (v.setWidth w.bits).getLsbD i := by
  rw [low, BitVec.getLsbD_setWidth]
  by_cases hi : i < 64
  · simp [hi]
  · have hw : ¬ i < w.bits := fun h => hi (Nat.lt_of_lt_of_le h w.bits_le)
    simp [hi, hw]

theorem IsOutermost.of_low {most : Bool} {v : Word} {w : Width} {i : Nat}
    (h : IsOutermost most (low v w) i) :
    IsOutermost most (v.setWidth w.bits) i where
  set := (getLsbD_low v w i).symm.trans h.set
  bound j hj := h.bound j ((getLsbD_low v w j).trans hj)

/-! ### Code -/

namespace Machine

variable {s c : Machine} {next : Word} {most wide : Bool} {dst src : Gpr}

theorem low_eq_zero_iff (v : Word) (w : Width) : low v w = 0 ↔ v.setWidth w.bits = 0 := by
  have hzero : low 0 w = 0 := by cases w <;> rfl
  have hzero' : (0 : Word).setWidth w.bits = 0 := BitVec.setWidth_zero ..
  rw [← hzero, low_eq_iff, hzero']

/-- An index is the same at operand sizes 32 and 64. -/
theorem setWidth_low_ofNat (wide : Bool) (i : Nat) :
    (low (BitVec.ofNat 64 i) (.ofWide wide)).setWidth 32 = BitVec.ofNat 32 i := by
  cases wide with
  | true => exact (congrArg _ (low_qword _)).trans (BitVec.setWidth_ofNat_of_le (by decide) i)
  | false =>
    exact (setWidth_low (BitVec.ofNat 64 i) .dword).trans
      (BitVec.setWidth_ofNat_of_le (by decide) i)

/-- The register has the index of the bit in its low half. -/
def Indexed (most wide : Bool) (dst src : Gpr) : Assertion := fun s c => ∃ flags v,
  c = { s with flags := flags }.setReg dst v ∧
  Scanned most ((s.reg src).setWidth (Width.ofWide wide).bits) (v.setWidth 32)

theorem executes_bitScan (h : (s.reg dst).setWidth 32 = (-1 : BitVec 32)) :
    Executes (.bitScan most (.ofWide wide) dst (.reg src)) next s
      (Indexed most wide dst src s) := by
  let v : Word := low (s.reg src) (.ofWide wide)
  refine (yields_readReg src (.ofWide wide)).after ?_
  refine (yields_modifyFlags fun f => { f with zf := v == 0 }).bind fun _ c hc => ?_
  subst hc
  by_cases hzero : v = 0
  · rw [if_neg (not_not_intro hzero)]
    refine (yields_pure ()).mono fun _ c hc =>
      ⟨_, s.reg dst, hc.2.trans (setReg_self _ dst).symm, ?_⟩
    rwa [Scanned, if_pos ((low_eq_zero_iff _ _).mp hzero)]
  · rw [if_pos hzero]
    refine (yields_writeReg dst _ _).mono fun _ c hc => ⟨_, _, hc, ?_⟩
    rw [Scanned, if_neg (mt (low_eq_zero_iff _ _).mpr hzero), merge_ofWide, setWidth_low_ofNat]
    refine ⟨_, IsOutermost.of_low ?_, rfl⟩
    cases most with
    | true => exact isOutermost_highestBit hzero
    | false => exact isOutermost_lowestBit hzero

end Machine

namespace Lower

variable {S : Site} {C : Context} {A : Machine → Prop} {most wide : Bool}
  {value result : Operand} {res src dst : Gpr}

theorem computes_bitScan : Computes S C (emit (.bitScan most wide dst src))
    (fun s => (s.reg dst).setWidth 32 = (-1 : BitVec 32)) fun _ => Indexed most wide dst src := by
  refine computes_emit (Instr.encodable_of_none rfl) (fun s next h => executes_bitScan h) ?_
  rintro s c ⟨flags, v, rfl, -⟩
  rfl

/-- The destination of a scan holds -1 before. -/
theorem computes_scanInto (hne : dst ≠ src) :
    Computes S C (emit (.movImm false dst 0xFFFFFFFF) >>= fun _ =>
    emit (.bitScan most wide dst src)) A fun _ s c =>
      Scanned most ((s.reg src).setWidth (Width.ofWide wide).bits) ((c.reg dst).setWidth 32) := by
  refine (computes_movImm false dst 0xFFFFFFFF).bind (fun _ => computes_bitScan) ?_
  rintro s _ _ - rfl
  refine ⟨by rw [reg_setReg_self]; decide, ?_⟩
  rintro _ _ ⟨flags, v, rfl, hv⟩
  rw [reg_setReg_of_ne hne] at hv
  rwa [reg_setReg_self]

/-- The register of the value is scanned; if it is the result register, by way of the scratch
register. -/
theorem computes_scanRegister (hne : res ≠ scratch) :
    Computes S C (do
      let tmp := if src = res then scratch else res
      emit (.movImm false tmp 0xFFFFFFFF)
      emit (.bitScan most wide tmp src)
      if tmp ≠ res then emit (.mov false res tmp)) A fun _ s c =>
        Scanned most ((s.reg src).setWidth (Width.ofWide wide).bits) ((c.reg res).setWidth 32) := by
  by_cases hsrc : src = res
  · subst hsrc
    simp only [ne_eq, hne.symm, not_false_eq_true, ite_true]
    rw [← bind_assoc]
    refine (computes_scanInto hne.symm).bind (fun _ => computes_copy (A := fun _ => True)) ?_
    exact fun s _ c _ hc => ⟨trivial, fun _ c' hc' => hc'.reg_eq.symm ▸ hc⟩
  · simp only [if_neg hsrc, ne_eq, not_true_eq_false, ite_false]
    rw [bind_pure_unit]
    exact computes_scanInto (Ne.symm hsrc)

/-- A value in a register is the operand's, at the width of its kind. -/
theorem value?_of_word? {frame : Frame} {s : Machine} {v : Word}
    (h : S.word? frame s value = some v) :
    ∃ a, S.value? frame s value = some a ∧
    v.setWidth value.kind.width.bits = a.setWidth value.kind.width.bits := by
  obtain ⟨a, ha, rfl⟩ := Option.map_eq_some_iff.mp h
  refine ⟨a, ha, ?_⟩
  split
  · rfl
  · exact setWidth_low a _

theorem computes_significantBit (hfloat : value.kind.isFloating = false)
    (hres : gpr? result = some res) (hne : res ≠ scratch) :
    Computes S C (significantBit most value result)
      (fun s => S.Readable s ∧ S.Accessible C.frame s value) fun _ s c =>
        ∃ a, S.value? C.frame s value = some a ∧
        Scanned most (a.setWidth value.kind.width.bits) ((c.reg res).setWidth 32) := by
  rw [significantBit, gpr_eq_pure hres, pure_bind]
  refine computes_inGpr.bind (fun src => computes_scanRegister hne (A := fun _ => True)) ?_
  rintro s src c - ⟨hword, hkeeps⟩
  obtain ⟨a, ha, hvalue⟩ := value?_of_word? hword
  refine ⟨trivial, fun _ c' hc => ⟨a, ha, ?_⟩⟩
  rwa [← Kind.width_eq_ofWide hfloat, hvalue] at hc

end Lower

/-! ### Installed code -/

namespace Installation

/-- From this state the code runs up to `stop`. The state there is as `R` says of the value that the
operand has had. -/
def RunsWith (I : Installation) (value : Operand) (stop : Nat) (machine : Machine)
    (R : Word → Machine → Prop) : Prop :=
  ∃ machine' a, machine.RunsTo (I.base + BitVec.ofNat 64 stop) machine' ∧
    I.site.value? I.source.frame machine value = some a ∧ R a machine'

variable {I : Installation} {op : Operation} {value : Operand}
  {start stop : Nat} {machine : Machine}

theorem HasCode.runsWith {R : Word → Machine → Prop} (hcode : I.HasCode op start stop)
    (hlower : ∀ C, C.frame = I.source.frame →
      Computes I.site C (lower op) (fun s => I.site.Readable s ∧ I.site.Accessible C.frame s value)
        fun _ s c => ∃ a, I.site.value? C.frame s value = some a ∧ R a c)
    (hR : ∀ a machine', R a (Machine.core machine') → R a machine')
    (hloaded : machine.Loaded I.base I.image) (hrip : machine.rip = I.base + BitVec.ofNat 64 start)
    (hreadable : I.site.Readable machine)
    (haccessible : I.site.Accessible I.source.frame machine value) :
    I.RunsWith value stop machine R := by
  have hlower' : ∀ C, C.frame = I.source.frame → Computes I.site C (lower op)
      (fun s => I.site.Readable s ∧ I.site.Accessible I.source.frame s value)
      fun _ s c => ∃ a, I.site.value? I.source.frame s value = some a ∧ R a c :=
        fun C hC => hC ▸ hlower C hC
  obtain ⟨machine', hrun, a, ha, hc⟩ :=
    hcode.exists_run hlower' hloaded hrip ⟨hreadable, haccessible⟩
  rw [Site.value?_core] at ha
  exact ⟨machine', a, hrun, ha, hR a machine' hc⟩

end Installation

/-- From any state in which the value can be accessed, the code of an operation on one number runs
to its end. A change of the sign of an integer, at the width of its kind, gives the negative number
or the absolute value, where the least number stands for its own; of a float it writes the sign bit
alone, whatever the others are. A scan leaves in the low half of its result register the index of
the highest or the lowest bit that is set in the value, or -1 if none is. Narrow integers in memory
are extended before. The result register may be the one of the value, or of its address. -/
theorem exists_run_unary (I : Installation) (value result : Operand) (start stop : Nat)
    (machine : Machine) (hloaded : machine.Loaded I.base I.image)
    (hrip : machine.rip = I.base + BitVec.ofNat 64 start) (hreadable : I.site.Readable machine)
    (haccessible : I.site.Accessible I.source.frame machine value) :
    (∀ op f g, op.ChangesSign value result f g → I.HasCode op start stop →
      (∀ res, value.kind.isFloating = false → result.kind.isFloating = false →
        value.kind.isWord = result.kind.isWord →
        gpr? result = some res → res ≠ scratch → I.RunsWith value stop machine fun a machine' =>
          (machine'.reg res).setWidth result.kind.width.bits =
            f _ (a.setWidth result.kind.width.bits)) ∧
      ∀ x, value.kind = result.kind → result.kind.isFloating = true → xmm? result = some x →
        I.RunsWith value stop machine fun a machine' =>
          (machine'.xmmReg x).setWidth result.kind.width.bits =
            g _ (a.setWidth result.kind.width.bits)) ∧
    ∀ most res, I.HasCode (.significantBit most value result) start stop →
    value.kind.isFloating = false →
      gpr? result = some res → res ≠ scratch → I.RunsWith value stop machine fun a machine' =>
        Scanned most (a.setWidth value.kind.width.bits) ((machine'.reg res).setWidth 32) := by
  refine ⟨fun op f g hop hcode => ⟨?_, ?_⟩, ?_⟩
  · intro res hfloat hfloat' hkind hres hne
    rw [Kind.width_eq_ofWide hfloat']
    exact hcode.runsWith (fun C hC => computes_changesSign hop hfloat hfloat' hkind hres hne)
      (fun _ _ => id)
      hloaded hrip hreadable haccessible
  · intro x hkind hfloat hx
    exact hcode.runsWith (fun C hC => computes_changesSign_float hop hkind hfloat hx)
      (fun _ _ => id)
      hloaded hrip hreadable haccessible
  · intro most res hcode hfloat hres hne
    exact hcode.runsWith (fun C hC => computes_significantBit hfloat hres hne) (fun _ _ => id)
      hloaded hrip hreadable haccessible

/-- The absolute value of the least number, the negative of a float that is no number, and a scan of
zero. -/
theorem exists_run_unary_least :
    let least : Operand := .reg Gpr.rcx.register .int
    let nan : Operand := .reg (Xmm.register ⟨1⟩) .double
    let zero : Operand := .reg Gpr.rax.register .long
    let machine : Machine := (Machine.initial.setReg .rcx 0x80000000).setXmm ⟨1⟩ 0x7FF8000000000001
    ∃ (I : Installation) (absStart absStop negateStart negateStop scanStart scanStop : Nat)
      (m₁ m₂ m₃ : Machine),
      I.HasCode (.abs least least) absStart absStop ∧
      I.HasCode (.negate nan nan) negateStart negateStop ∧
      I.HasCode (.significantBit true zero zero) scanStart scanStop ∧
      (I.enter machine absStart).RunsTo (I.base + BitVec.ofNat 64 absStop) m₁ ∧
      (m₁.reg .rcx).setWidth 32 = 0x80000000#32 ∧
      (I.enter machine negateStart).RunsTo (I.base + BitVec.ofNat 64 negateStop) m₂ ∧
      (m₂.xmmReg ⟨1⟩).setWidth 64 = 0xFFF8000000000001#64 ∧
      (I.enter machine scanStart).RunsTo (I.base + BitVec.ofNat 64 scanStop) m₃ ∧
      (m₃.reg .rax).setWidth 32 = -1#32 := by
  intro least nan zero machine
  let ops : List Operation :=
    [.abs least least, .negate nan nan, .significantBit true zero zero, .ret none]
  obtain ⟨I, -, hsource, -, hlow, hhigh⟩ :=
    Installation.exists_installed
      ⟨{ Options.standard with useStackBanging := false }, ⟨true, true⟩, 4096⟩
      ⟨"test", none, .empty, [], ops⟩ 0x10000000 (by decide +kernel)
  have hcode : ∀ op ∈ ops, ∃ start stop, I.HasCode op start stop := fun op hop =>
    I.exists_hasCode (by rwa [hsource])
  obtain ⟨absStart, absStop, habs⟩ := hcode (.abs least least) (by simp [ops])
  obtain ⟨negateStart, negateStop, hnegate⟩ := hcode (.negate nan nan) (by simp [ops])
  obtain ⟨scanStart, scanStop, hscan⟩ := hcode (.significantBit true zero zero) (by simp [ops])
  have hreadable : ∀ start, I.site.Readable (I.enter machine start) :=
    fun _ => Site.readable_of_unprotected rfl hlow hhigh
  have hrun :=
    fun value start stop => exists_run_unary I value value start stop (I.enter machine start)
    (Installation.loaded_enter machine start) rfl (hreadable start)
  obtain ⟨m₁, a, h₁, ha, hresult₁⟩ :=
    ((hrun least absStart absStop nofun).1 _ _ _ .abs habs).1 .rcx rfl rfl rfl rfl (by decide)
  obtain ⟨m₂, b, h₂, hb, hresult₂⟩ :=
    ((hrun nan negateStart negateStop nofun).1 _ _ _ .negate hnegate).2 ⟨1⟩ rfl rfl rfl
  obtain ⟨m₃, c, h₃, hc, hresult₃⟩ :=
    (hrun zero scanStart scanStop nofun).2 true .rax hscan rfl rfl (by decide)
  cases ha
  cases hb
  cases hc
  refine ⟨I, absStart, absStop, negateStart, negateStop, scanStart, scanStop, m₁, m₂, m₃, habs,
    hnegate, hscan, h₁, ?_, h₂, ?_, h₃, ?_⟩
  · refine hresult₁.trans ?_
    change ((0x80000000 : Word).setWidth 32).abs = _
    decide
  · refine hresult₂.trans ?_
    change (0x7FF8000000000001 : Word).setWidth 64 ^^^ BitVec.intMin 64 = _
    decide
  · exact hresult₃

end MachineCode
