import MachineCode.Proofs.Execution.FloatArithmetic
import MachineCode.Proofs.Execution.Shifting

/-! Operations on the sign of a number. Integers are negated at the width of their kind. Of a float
only the sign bit is written, by packed logic with a mask from the data section, so that every bit
pattern is treated alike. -/
namespace MachineCode

open X64 Lower Machine

/-! ### Words -/

section Words

variable {n : Nat} (a : BitVec n)

/-- What an arithmetic shift by all but one bit leaves: the sign, in every bit. -/
def spreadSign : BitVec n := a.sshiftRight (n - 1)

theorem getLsbD_spreadSign {i : Nat} (hi : i < n) : (spreadSign a).getLsbD i = a.msb := by
  have hword : ¬ n ≤ i := by omega
  rw [spreadSign, BitVec.getLsbD_sshiftRight, decide_eq_false hword, Bool.not_false, Bool.true_and]
  split
  · rename_i hlast
    rw [BitVec.msb_eq_getLsbD_last, show n - 1 + i = n - 1 by omega]
  · rfl

theorem spreadSign_of_nonneg (h : a.msb = false) : spreadSign a = 0 := by
  apply BitVec.eq_of_getLsbD_eq
  intro i hi
  rw [getLsbD_spreadSign a hi, h]
  simp

theorem spreadSign_of_neg (h : a.msb = true) : spreadSign a = BitVec.allOnes n := by
  apply BitVec.eq_of_getLsbD_eq
  intro i hi
  rw [getLsbD_spreadSign a hi, h]
  simp [hi]

/-- All bits of a negative number are inverted and one is added; others stay. -/
theorem xor_spreadSign_sub : (a ^^^ spreadSign a) - spreadSign a = a.abs := by
  rw [BitVec.abs_eq]
  cases h : a.msb with
  | false => simp [spreadSign_of_nonneg a h]
  | true =>
    rw [spreadSign_of_neg a h, if_pos rfl, BitVec.xor_allOnes, BitVec.neg_eq_not_add,
      BitVec.sub_eq_add_neg]
    congr 1
    rw [← BitVec.neg_one_eq_allOnes, BitVec.neg_neg]

end Words

/-! ### Integers -/

namespace Machine

variable {s c : Machine} {next : Word} {wide : Bool} {dst : Gpr}

/-- The register holds the value at this width, and nothing else has changed but the flags. -/
def Becomes (wide : Bool) (dst : Gpr)
    (v : BitVec (Width.ofWide wide).bits) : Assertion := fun s c =>
  ∃ flags result, c = { s with flags := flags }.setReg dst result ∧
    result.setWidth (Width.ofWide wide).bits = v

section Becomes

variable {v : BitVec (Width.ofWide wide).bits}

theorem Becomes.memory_eq (h : Becomes wide dst v s c) : c.memory = s.memory := by
  obtain ⟨flags, result, rfl, -⟩ := h
  rfl

theorem Becomes.reg_eq (h : Becomes wide dst v s c) :
    (c.reg dst).setWidth (Width.ofWide wide).bits = v := by
  obtain ⟨flags, result, rfl, hv⟩ := h
  rw [reg_setReg_self, hv]

theorem Becomes.reg_of_ne (h : Becomes wide dst v s c) {g : Gpr}
    (hg : dst ≠ g) : c.reg g = s.reg g := by
  obtain ⟨flags, result, rfl, -⟩ := h
  rw [reg_setReg_of_ne hg]
  rfl

end Becomes

theorem executes_neg : Executes (.unary .neg (.ofWide wide) (.reg dst)) next s
    (Becomes wide dst (-(s.reg dst).setWidth (Width.ofWide wide).bits) s) := by
  refine (yields_readReg dst (.ofWide wide)).after ((yields_setFlags _).bind fun _ c hc => ?_)
  subst hc
  refine (yields_writeReg dst _ _).mono fun _ c hc => ⟨_, _, hc, ?_⟩
  rw [merge_ofWide, setWidth_low]
  refine (setWidth_aluAt (rfl : (Binary.alu .sub).isPlain = true) (.ofWide wide) 0 _ false).trans ?_
  rw [setWidth_low, Binary.eval]
  simp [Flags.alu, Flags.sub]

/-- The count is less than the width, and not 0. -/
theorem executes_spreadSign {n : UInt8} (hn : n.toNat = (Width.ofWide wide).bits - 1) :
    Executes (.shift .sar (.ofWide wide) (.reg dst) (.imm n)) next s
      (Becomes wide dst (spreadSign ((s.reg dst).setWidth (Width.ofWide wide).bits)) s) := by
  have hmask :
      n.toNat % (if Width.ofWide wide = .qword then 64 else 32) = (Width.ofWide wide).bits - 1 := by
    rw [hn]
    cases wide <;> rfl
  have hne : (Width.ofWide wide).bits - 1 ≠ 0 := by
    cases wide <;> decide
  refine (yields_readReg dst _).after ?_
  refine (yields_pure _).after ?_
  dsimp only
  rw [hmask, if_pos hne]
  refine yields_get.bind fun machine c hc => (yields_setFlags _).bind fun _ c' hc' => ?_
  obtain ⟨-, rfl⟩ := hc
  subst hc'
  refine (yields_writeReg dst _ _).mono fun _ c' hc' => ⟨_, _, hc', ?_⟩
  rw [merge_ofWide, setWidth_low]
  exact setWidth_shiftBits .shr (.ofWide wide) (c.reg dst) _

end Machine

namespace Lower

section Integers

variable {S : Site} {C : Context} {A : Machine → Prop} {value result : Operand}
  {res : Gpr} {wide : Bool}

theorem computes_neg : Computes S C (emit (.neg wide res)) A fun _ s =>
    Becomes wide res (-(s.reg res).setWidth (Width.ofWide wide).bits) s :=
  computes_emit (Instr.encodable_of_none rfl) (fun _ _ _ => executes_neg) fun _ _ h => h.memory_eq

theorem computes_copy {dst src : Gpr} : Computes S C (emit (.mov wide dst src)) A fun _ s =>
    Becomes wide dst ((s.reg src).setWidth (Width.ofWide wide).bits) s := by
  refine computes_emit (Instr.encodable_of_none rfl) (fun s _ _ => ?_) fun _ _ h => h.memory_eq
  refine (executes_mov (readsRm_reg src (.ofWide wide)).source).mono fun _ c hc =>
    ⟨s.flags, _, hc, ?_⟩
  rw [merge_ofWide, setWidth_low, setWidth_low]

theorem computes_spreadSign {dst : Gpr} :
    Computes S C (emit (.shiftImm .sar wide dst (if wide then 63 else 31))) A
    fun _ s => Becomes wide dst (spreadSign ((s.reg dst).setWidth (Width.ofWide wide).bits)) s :=
  computes_emit (Instr.encodable_of_none rfl)
    (fun _ _ _ => executes_spreadSign (by cases wide <;> rfl))
    fun _ _ h => h.memory_eq

/-- With the sign in the scratch register. -/
theorem computes_foldSign (hne : res ≠ scratch) :
    Computes S C (do
      emit (.alu .xor wide res (.reg scratch))
      emit (.alu .sub wide res (.reg scratch))) A fun _ s c =>
        (c.reg res).setWidth (Width.ofWide wide).bits =
          ((s.reg res).setWidth (Width.ofWide wide).bits ^^^
          (s.reg scratch).setWidth (Width.ofWide wide).bits) -
            (s.reg scratch).setWidth (Width.ofWide wide).bits := by
  have hxor : Computes S C (emit (.alu .xor wide res (.reg scratch))) A _ :=
    computes_withReg (rfl : (Binary.alu .xor).isPlain = true) scratch
  have hsub : Computes S C (emit (.alu .sub wide res (.reg scratch))) (fun _ => True) _ :=
    computes_withReg (rfl : (Binary.alu .sub).isPlain = true) scratch
  refine hxor.bind (fun _ => hsub) fun s _ c _ hc => ⟨trivial, fun _ c' hc' => ?_⟩
  have hkept : c.reg scratch = s.reg scratch := by
    obtain ⟨flags, r, rfl, -⟩ := hc
    rw [reg_setReg_of_ne hne]
    rfl
  rw [hc'.reg_eq, hc.reg_eq, hkept]
  simp [Binary.eval, Flags.alu, Flags.sub]

/-- The absolute value of what is in the register. -/
theorem computes_absRegister (hne : res ≠ scratch) :
    Computes S C (do
      emit (.mov wide scratch res)
      emit (.shiftImm .sar wide scratch (if wide then 63 else 31))
      emit (.alu .xor wide res (.reg scratch))
      emit (.alu .sub wide res (.reg scratch))) A fun _ s c =>
        (c.reg res).setWidth (Width.ofWide wide).bits =
          ((s.reg res).setWidth (Width.ofWide wide).bits).abs := by
  refine computes_copy.bind (fun _ => (computes_spreadSign (A := fun _ => True)).bind
    (R := fun _ s c => (c.reg res).setWidth (Width.ofWide wide).bits =
      ((s.reg res).setWidth (Width.ofWide wide).bits ^^^
      spreadSign ((s.reg scratch).setWidth (Width.ofWide wide).bits)) -
        spreadSign ((s.reg scratch).setWidth (Width.ofWide wide).bits))
    (fun _ => computes_foldSign hne (A := fun _ => True)) ?_) ?_
  · intro s _ c _ hc
    refine ⟨trivial, fun _ c' hc' => ?_⟩
    rw [hc', hc.reg_eq, hc.reg_of_ne hne.symm]
  · intro s _ c _ hc
    refine ⟨trivial, fun _ c' hc' => ?_⟩
    rw [hc', hc.reg_eq, hc.reg_of_ne hne.symm, xor_spreadSign_sub]

/-- The value is moved to the result register and its sign is changed there. -/
theorem computes_changed {x : Lower Unit}
    {f : BitVec (Width.ofWide result.kind.isWord).bits → BitVec _} (hres : gpr? result = some res)
    (hfloat : value.kind.isFloating = false) (hkind : value.kind.isWord = result.kind.isWord)
    (hx : Computes S C x (fun _ => True) fun _ s c =>
      (c.reg res).setWidth (Width.ofWide result.kind.isWord).bits =
        f ((s.reg res).setWidth (Width.ofWide result.kind.isWord).bits)) :
    Computes S C (mov value result false >>= fun _ => x)
      (fun s => S.Readable s ∧ S.Accessible C.frame s value)
      fun _ s c => ∃ a, S.value? C.frame s value = some a ∧
      (c.reg res).setWidth (Width.ofWide result.kind.isWord).bits =
        f (a.setWidth (Width.ofWide result.kind.isWord).bits) := by
  refine (computes_movInto hres hfloat hkind).bind (fun _ => hx) ?_
  rintro s _ c - ⟨a, ha, hvalue, -⟩
  exact ⟨trivial, fun _ c' hc => ⟨a, ha, by rw [hc, hvalue]⟩⟩

end Integers

end Lower

/-! ### Floats -/

theorem X64.PackedOp.setWidth_eval {m n : Nat} (op : PackedOp) (a b : BitVec m) :
    (op.eval a b).setWidth n = op.eval (a.setWidth n) (b.setWidth n) := by
  cases op with
  | and => exact BitVec.setWidth_and
  | xor => exact BitVec.setWidth_xor

namespace Machine

variable {s : Machine} {next a : Word} {op : PackedOp} {double : Bool} {dst : Xmm} {m : Mem}

theorem setWidth_lanes (high low : Word) : (high ++ low : BitVec 128).setWidth 64 = low :=
  BitVec.setWidth_append_eq_right

theorem yields_load128 (hlow : s.faultsAt a 8 = false) (hhigh : s.faultsAt (a + 8) 8 = false) :
    Yields (load128 a) s fun v c => v = s.loaded (a + 8) 8 ++ s.loaded a 8 ∧ c = s :=
  (yields_loadBytes hlow).after ((yields_loadBytes hhigh).after (yields_pure _))

theorem executes_packed (ha : s.effectiveAddress m next = a) (hlow : s.faultsAt a 8 = false)
    (hhigh : s.faultsAt (a + 8) 8 = false) :
    Executes (.packed op double dst (.mem m)) next s fun c =>
      c = s.setXmm dst (op.eval (s.xmmReg dst) (s.loaded (a + 8) 8 ++ s.loaded a 8)) := by
  subst ha
  refine ((yields_address m).after (yields_load128 hlow hhigh)).after ?_
  let v : BitVec 128 :=
    s.loaded (s.effectiveAddress m next + 8) 8 ++ s.loaded (s.effectiveAddress m next) 8
  exact yields_setXmm (f := fun machine => op.eval (machine.xmmReg dst) v) dst fun _ => rfl

end Machine

namespace Lower

section Floats

variable {S : Site} {C : Context} {value result : Operand} {x : Xmm} {op : PackedOp}
  {double : Bool} {lane : UInt64}

/-- Both lanes of the register are combined with the lane of the mask, the low one among them. -/
theorem computes_mask (op : PackedOp) (lane : UInt64) : Computes S C (do
      let offset ← onData (·.mask128 lane lane)
      discard (emitAt (.ofData offset) fun m => .packed op double x (.mem m)))
        S.Readable fun _ s c =>
        (c.xmmReg x).setWidth 64 = op.eval ((s.xmmReg x).setWidth 64) lane.toBitVec := by
  refine runs_constant fun offset =>
    Runs.discard (runs_emitAt (valid_ofData offset) (fixed_ofData offset)
    (fun _ => rfl) (fun _ _ => rfl) fun s c m next _ hloads hc haddress => ?_)
  obtain ⟨⟨rfl, hreadable⟩, hdata⟩ := hc
  obtain ⟨hlow, hhigh⟩ := BytesAt.append_iff.mp hdata
  have hlow : S.HasData offset (leBytes 8 lane.toNat) := hlow
  have hhigh : S.HasData (offset + 8) (leBytes 8 lane.toNat) := by
    rw [length_leBytes, Nat.add_assoc] at hhigh
    exact hhigh
  have hnext : S.dataAddress offset + 8 = S.dataAddress (offset + 8) := by
    rw [Site.dataAddress, Site.dataAddress, ← Nat.add_assoc]
    exact Site.addressOf_add (S.dataStart + offset) 8
  have hfaults := hreadable.data hlow (by simp [leBytes])
  have hfaults' := hreadable.data hhigh (by simp [leBytes])
  rw [length_leBytes] at hfaults hfaults'
  rw [← hnext] at hfaults'
  have hpacked : Executes (Instr.packed op double x (.mem m)).decoded next c _ :=
    executes_packed haddress hfaults hfaults'
  refine (hpacked.loads hloads fun _ _ h => by rw [h]; rfl).mono fun _ c' h => ⟨h.1, ?_⟩
  rw [h.2, xmmReg_setXmm_self, PackedOp.setWidth_eval, setWidth_lanes]
  exact congrArg _ (loaded_data hloads hlow)

theorem computes_applyMask (hkind : value.kind = result.kind) (hx : xmm? result = some x) :
    Computes S C (applyMask op double lane value result)
      (fun s => S.Readable s ∧ S.Accessible C.frame s value)
      fun _ s c => ∃ a, S.value? C.frame s value = some a ∧
      (c.xmmReg x).setWidth result.kind.width.bits =
        op.eval (a.setWidth result.kind.width.bits)
          (lane.toBitVec.setWidth result.kind.width.bits) := by
  unfold applyMask
  refine (finds_xmm result).computes fun y hy => ?_
  obtain rfl : x = y := Option.some.inj (hx.symm.trans hy)
  have hmove : Computes S C (mov value result false)
      (fun s => S.Readable s ∧ S.Accessible C.frame s value) _ :=
    computes_receive hkind hx
  refine hmove.bind (fun _ => computes_mask op lane) ?_
  rintro s _ c ⟨hreadable, -⟩ ⟨a, ha, hlow, hkeeps⟩
  refine ⟨hreadable.keeps hkeeps, fun _ c' hc => ⟨a, ha, ?_⟩⟩
  rw [hkind, low_eq_iff, BitVec.setWidth_setWidth_of_le _ (Width.bits_le _)] at hlow
  have hlanes := congrArg (BitVec.setWidth result.kind.width.bits) hc
  rwa [PackedOp.setWidth_eval, BitVec.setWidth_setWidth_of_le _ (Width.bits_le _),
    BitVec.setWidth_setWidth_of_le _ (Width.bits_le _), hlow] at hlanes

/-- In the low lane of the mask the sign bit is set alone. -/
theorem setWidth_signBits {kind : Kind} (h : kind.isFloating = true) :
    (signBits kind.isDouble).toBitVec.setWidth kind.width.bits = BitVec.intMin kind.width.bits := by
  cases kind <;> first | rfl | cases h

end Floats

end Lower

/-! ### Operations -/

/-- The operation changes the sign of its value: an integer as `f` does at any width, the bits of a
float as `g` does. -/
inductive Operation.ChangesSign (value result : Operand) :
    Operation → (∀ n, BitVec n → BitVec n) → (∀ n, BitVec n → BitVec n) → Prop
  | negate : ChangesSign value result (.negate value result) (fun _ a => -a) fun n a =>
    a ^^^ BitVec.intMin n
  | abs : ChangesSign value result (.abs value result) (fun _ a => a.abs) fun n a =>
    a &&& ~~~BitVec.intMin n

namespace Lower

variable {S : Site} {C : Context} {op : Operation} {value result : Operand} {res : Gpr} {x : Xmm}
  {f g : ∀ n, BitVec n → BitVec n}

theorem computes_changesSign (hop : op.ChangesSign value result f g)
    (hfloat : value.kind.isFloating = false) (hfloat' : result.kind.isFloating = false)
    (hkind : value.kind.isWord = result.kind.isWord) (hres : gpr? result = some res)
    (hne : res ≠ scratch) : Computes S C (lower op)
      (fun s => S.Readable s ∧ S.Accessible C.frame s value) fun _ s c =>
        ∃ a, S.value? C.frame s value = some a ∧
        (c.reg res).setWidth (Width.ofWide result.kind.isWord).bits =
          f _ (a.setWidth (Width.ofWide result.kind.isWord).bits) := by
  cases hop with
  | negate =>
    rw [lower, negate, hfloat', if_neg Bool.false_ne_true, negateInteger,
      gpr_eq_pure hres, pure_bind]
    exact computes_changed hres hfloat hkind
      (computes_neg.mono fun _ _ h => ⟨h, fun _ _ hc => hc.reg_eq⟩)
  | abs =>
    rw [lower, Lower.abs, hfloat', if_neg Bool.false_ne_true, absInteger,
      gpr_eq_pure hres, pure_bind]
    exact computes_changed hres hfloat hkind (computes_absRegister hne)

theorem computes_changesSign_float (hop : op.ChangesSign value result f g)
    (hkind : value.kind = result.kind) (hfloat : result.kind.isFloating = true)
    (hx : xmm? result = some x) : Computes S C (lower op)
      (fun s => S.Readable s ∧ S.Accessible C.frame s value) fun _ s c =>
        ∃ a, S.value? C.frame s value = some a ∧
        (c.xmmReg x).setWidth result.kind.width.bits = g _ (a.setWidth result.kind.width.bits) := by
  cases hop with
  | negate =>
    rw [lower, negate, if_pos hfloat]
    refine (computes_applyMask hkind hx).mono fun s _ hs => ⟨hs, ?_⟩
    rintro _ c ⟨a, ha, hc⟩
    rw [setWidth_signBits hfloat] at hc
    exact ⟨a, ha, hc⟩
  | abs =>
    rw [lower, Lower.abs, if_pos hfloat]
    refine (computes_applyMask hkind hx).mono fun s _ hs => ⟨hs, ?_⟩
    rintro _ c ⟨a, ha, hc⟩
    have hmask : (~~~signBits result.kind.isDouble).toBitVec =
      ~~~(signBits result.kind.isDouble).toBitVec := rfl
    rw [hmask, BitVec.setWidth_not (Width.bits_le _), setWidth_signBits hfloat] at hc
    exact ⟨a, ha, hc⟩

end Lower

end MachineCode
