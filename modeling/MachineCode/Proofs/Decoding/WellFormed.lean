import MachineCode.Proofs.Decoding.Operations
import MachineCode.Proofs.Decoding.Shapes
import MachineCode.Proofs.Effects.Widths
import MachineCode.Proofs.Execution.Interpretation

/-! What bytes decode to is well formed for the machine: registers and scales are in range, the
operands are those that the operation is executed on, and one of them at most is in memory, of a
size that the operation accesses. On such operands no lookup of the machine fails. -/
namespace MachineCode

namespace X64

/-! ### Sizes

The size of an operand comes from its instruction, whatever bytes that is read from. -/

namespace RawOperand

variable {sizes : List UInt8}

def SizeIn (sizes : List UInt8) : RawOperand → Prop
  | mem m => m.width ∈ sizes
  | _ => True

end RawOperand

namespace Arg

variable {sizes : List UInt8} {size : Nat}

@[simp] theorem sizeIn_mem {m : Mem} :
    (mem m size).operand.SizeIn sizes ↔ UInt8.ofNat size ∈ sizes :=
  Iff.rfl

@[simp] theorem sizeIn_gpr (r : Gpr) (w : Width) : (gpr r w).operand.SizeIn sizes := trivial

@[simp] theorem sizeIn_xmm (x : Xmm) : (xmm x).operand.SizeIn sizes := trivial

@[simp] theorem sizeIn_imm (v : Int) : (imm v).operand.SizeIn sizes := trivial

@[simp] theorem sizeIn_rel (d : Int32) : (rel d).operand.SizeIn sizes := trivial

theorem ofNat_bytes_mem (w : Width) : UInt8.ofNat w.bytes ∈ [1, 2, 4, 8] := by
  cases w <;> decide

@[simp] theorem sizeIn_ofRm (x : Rm) (w : Width) : (ofRm x w).operand.SizeIn [1, 2, 4, 8] := by
  cases x with
  | reg r => trivial
  | mem m => exact ofNat_bytes_mem w

@[simp] theorem sizeIn_ofSource (x : Source) (w : Width) :
    (ofSource x w).operand.SizeIn [1, 2, 4, 8] := by
  cases x with
  | rm x => exact sizeIn_ofRm x w
  | imm v => trivial

@[simp] theorem sizeIn_ofDestination (x : Destination) :
    (ofDestination x).operand.SizeIn [1, 2, 4, 8] := by
  cases x with
  | rel d => trivial
  | rm x => exact sizeIn_ofRm x .qword

@[simp] theorem sizeIn_ofCount (n : ShiftCount) : (ofCount n).operand.SizeIn sizes := by
  cases n <;> trivial

theorem sizeIn_ofXm (x : Xm) (h : UInt8.ofNat size ∈ sizes) :
    (ofXm x size).operand.SizeIn sizes := by
  cases x with
  | reg x => trivial
  | mem m => exact h

@[simp] theorem sizeIn_ofXm_wide (x : Xm) : (ofXm x 16).operand.SizeIn [16] :=
  sizeIn_ofXm x (by decide)

@[simp] theorem sizeIn_ofXm_scalar (x : Xm) (double : Bool) :
    (ofXm x (Decoded.scalarSize double)).operand.SizeIn [1, 2, 4, 8] :=
  sizeIn_ofXm x (by cases double <;> decide)

end Arg

theorem Decoded.sizeIn_operands (i : Decoded) :
    ∀ a ∈ i.insn.operands, a.SizeIn i.insn.op.sizes := by
  cases i with
  | unary op => cases op <;> simp [insn, op, args, Op.sizes, UnaryOp.op]
  | imul w dst src factor => cases factor <;> simp [insn, args, op, Op.sizes]
  | _ => simp [insn, args, op, Op.sizes]

/-! ### Readers

What is left to the decoder: byte registers, an index beside `rip`, and two operands in memory. -/

namespace Arg

def isMem : Arg → Bool
  | mem .. => true
  | _ => false

/-- A byte register 4 to 7 is beside a REX byte, and `rip` is beside no index. -/
def Allowed (rexed : Prop) : Arg → Prop
  | gpr r w => w = .byte → 4 ≤ r.num.val → r.num.val < 8 → rexed
  | mem m _ => m.isRip = true → m.index = none
  | _ => True

end Arg

structure Decoded.Allowed (rexed : Prop) (i : Decoded) : Prop where
  arg : ∀ a ∈ i.args, a.Allowed rexed
  mem : (i.args.filter Arg.isMem).length ≤ 1

theorem Gpr.byte_lt (r : Gpr) : r.byte < 16 := by
  obtain ⟨n⟩ := r
  revert n
  decide

theorem Xmm.byte_lt (x : Xmm) : x.byte < 16 := by
  obtain ⟨n⟩ := x
  revert n
  decide

theorem Mem.wellFormed_raw {m : Mem} (h : m.isRip = true → m.index = none) (size : Nat) :
    (m.raw size).WellFormed where
  base r hr := by
    obtain ⟨base, index, disp⟩ := m
    cases base with
    | reg r' => exact Option.some.inj hr ▸ r'.byte_lt
    | none | rip => cases hr
  index r hr := by
    obtain ⟨i, -, rfl⟩ := Option.map_eq_some_iff.mp hr
    exact i.reg.byte_lt
  scale := by
    have hpow : ∀ s : Fin 4, UInt8.ofNat (pow2 s.val) ∈ [1, 2, 4, 8] := by decide
    obtain ⟨base, _ | i, disp⟩ := m
    · exact hpow 0
    · exact hpow i.shift
  unscaled hi := by
    have hindex := Option.map_eq_none_iff.mp hi
    simp [raw, scale, hindex]
  rip hrip := by
    have hindex := h hrip
    obtain ⟨base, index, disp⟩ := m
    cases base with
    | rip => exact ⟨rfl, congrArg (Option.map _) hindex⟩
    | none | reg r => cases hrip

theorem Arg.wellFormed_operand {rexed : Prop} {sizes : List UInt8} {a : Arg} (h : a.Allowed rexed)
    (hsize : a.operand.SizeIn sizes) : a.operand.WellFormed rexed sizes := by
  cases a with
  | gpr r w =>
    refine ⟨r.byte_lt, ofNat_bytes_mem w, fun hw hlow hhigh => ?_⟩
    exact h ((Reader.ofNat_bytes_eq_one w).mp hw) ((Reader.four_le_ofNat r.num).mp hlow)
      ((Reader.ofNat_lt_eight r.num).mp hhigh)
  | xmm x => exact x.byte_lt
  | mem m size => exact ⟨m.wellFormed_raw h size, hsize⟩
  | imm v | rel d => trivial

theorem Decoded.Allowed.wellFormed {rexed : Prop} {i : Decoded} (h : i.Allowed rexed) :
    i.insn.WellFormed rexed where
  operand a ha := by
    obtain ⟨a, hmem, rfl⟩ := List.mem_map.mp ha
    exact a.wellFormed_operand (h.arg a hmem) (i.sizeIn_operands _ ha)
  takes := i.takes
  mem := by
    have hcls : (fun a => decide (a.cls = .mem)) ∘ Arg.operand = Arg.isMem := by
      funext a
      cases a <;> rfl
    rw [insn, List.filter_map, List.length_map, hcls]
    exact h.mem

namespace Decoded.Allowed

variable {rexed : Prop} {i : Decoded} {a b : Arg}

theorem none (hi : i.args = []) : i.Allowed rexed := by
  constructor <;> simp [hi]

theorem one (hi : i.args = [a]) (ha : a.Allowed rexed) : i.Allowed rexed where
  arg := by simpa [hi] using ha
  mem := by
    rw [hi]
    exact List.length_filter_le ..

theorem two (hi : i.args = [a, b]) (ha : a.Allowed rexed) (hb : b.Allowed rexed)
    (h : a.isMem = false ∨ b.isMem = false) : i.Allowed rexed where
  arg := by simpa [hi] using ⟨ha, hb⟩
  mem := by
    rw [hi]
    -- one of the two is not counted
    rcases h with h | h
    · rw [List.filter_cons_of_neg (by simp [h])]
      exact List.length_filter_le _ [b]
    · have hfilter : [a, b].filter Arg.isMem = [a].filter Arg.isMem := by simp [List.filter_cons, h]
      exact hfilter ▸ List.length_filter_le _ [a]

/-- A constant factor is not in memory. -/
theorem factor {w : Width} {dst : Gpr} {src : Rm}
    (h : (Decoded.imul w dst src Option.none).Allowed rexed) (v : Int) :
    (Decoded.imul w dst src (some v)).Allowed rexed where
  arg a ha := (List.mem_append.mp ha).elim (fun ha => h.arg a ha) fun ha => by
    rw [List.mem_singleton.mp ha]
    trivial
  mem := h.mem

end Decoded.Allowed

namespace Reader

variable {α β : Type} {P : α → Prop} {Q : β → Prop}

/-- Whatever the reader reads has the property. -/
def Gives (r : Reader α) (P : α → Prop) : Prop := ∀ c a d, r c = some (a, d) → P a

theorem gives_pure {a : α} (h : P a) : Gives (pure a) P := by
  rintro c b d heq
  cases heq
  exact h

theorem gives_failure : Gives failure P := by
  rintro c a d heq
  cases heq

theorem Gives.bind {x : Reader α} {f : α → Reader β} (hx : Gives x P)
    (hf : ∀ a, P a → Gives (f a) Q) :
    Gives (x >>= f) Q := by
  intro c b d h
  obtain ⟨a, e, ha, hb⟩ := bind_eq_some.mp h
  exact hf a (hx c a e ha) e b d hb

/-- For readers of numbers, of which nothing has to be known. -/
theorem gives_any (x : Reader α) : Gives x fun _ => True := fun _ _ _ _ => trivial

theorem Gives.return {x : Reader α} {f : α → β} (hx : Gives x P) (hf : ∀ a, P a → Q (f a)) :
    Gives (x >>= fun a => pure (f a)) Q := hx.bind fun a ha => gives_pure (hf a ha)

theorem Gives.map {x : Reader α} {f : α → β} (hx : Gives x P)
    (hf : ∀ a, P a → Q (f a)) : Gives (f <$> x) Q := by
  rw [map_eq_pure_bind]
  exact hx.return hf

theorem Gives.ite {p : Prop} [Decidable p] {x y : Reader α} (hx : Gives x P) (hy : Gives y P) :
    Gives (if p then x else y) P := by
  split
  · exact hx
  · exact hy

/-! The fields of an instruction. -/

/-- In memory, an index is not beside `rip`. -/
def Operand.Allowed : Operand → Prop
  | .reg _ => True
  | .mem m => m.isRip = true → m.index = none

theorem gives_sibMem (p : Prefixes) (mode : Nat) :
    Gives (sibMem p mode) fun m => m.isRip = true → m.index = none :=
  (gives_any _).bind fun _ _ =>
    ((gives_any _).return fun _ _ => nofun).ite ((gives_any _).return fun _ _ => nofun)

theorem gives_mem (p : Prefixes) (mode rm : Nat) :
    Gives (mem p mode rm) fun m => m.isRip = true → m.index = none :=
  (gives_sibMem p mode).ite
    (((gives_any _).return fun _ _ _ => rfl).ite ((gives_any _).return fun _ _ _ => rfl))

theorem gives_modRm (p : Prefixes) : Gives (modRm p) fun m => m.rm.Allowed := by
  refine (gives_any _).bind fun b _ => Gives.ite ?_ ?_
  · have hreg : Gives (pure (.reg (extended p.highRm b.toNat))) Operand.Allowed :=
      gives_pure trivial
    exact hreg.return fun _ h => h
  · have hmem : Gives (Operand.mem <$> mem p (b.toNat / 64) (b.toNat % 8)) Operand.Allowed :=
      (gives_mem p _ _).map fun _ h => h
    exact hmem.return fun _ h => h

/-- A byte register is only given beside a REX byte. -/
theorem gives_gpr (p : Prefixes) (w : Width) (num : Fin 16) :
    Gives (gpr p w num) fun r => (Arg.gpr r w).Allowed (p.rex ≠ 0) := by
  intro c r d h
  unfold gpr at h
  split at h
  · cases h
  · rename_i hnum
    cases h
    exact fun hw hlow hhigh hrex => hnum ⟨hw, hrex, hlow, hhigh⟩

theorem gives_rm (p : Prefixes) (w : Width) {x : Operand} (hx : x.Allowed) :
    Gives (Reader.rm p w x) fun y => (Arg.ofRm y w).Allowed (p.rex ≠ 0) := by
  cases x with
  | reg num => exact (gives_gpr p w num).map fun _ h => h
  | mem m => exact gives_pure hx

theorem allowed_xm {rexed : Prop} {x : Operand} (hx : x.Allowed) (size : Nat) :
    (Arg.ofXm (xm x) size).Allowed rexed := by
  cases x with
  | reg num => trivial
  | mem m => exact hx

theorem gives_rmReg (p : Prefixes) (w : Width) : Gives (rmReg p w) fun x =>
    (Arg.ofRm x.1 w).Allowed (p.rex ≠ 0) ∧ (Arg.gpr x.2 w).Allowed (p.rex ≠ 0) :=
  (gives_modRm p).bind fun _ hm => (gives_rm p w hm).bind fun _ hx =>
    (gives_gpr p w _).return fun _ hr => ⟨hx, hr⟩

theorem gives_regRm (p : Prefixes) (w v : Width) : Gives (regRm p w v) fun x =>
    (Arg.gpr x.1 w).Allowed (p.rex ≠ 0) ∧ (Arg.ofRm x.2 v).Allowed (p.rex ≠ 0) :=
  (gives_modRm p).bind fun _ hm => (gives_gpr p w _).bind fun _ hr =>
    (gives_rm p v hm).return fun _ hx => ⟨hr, hx⟩

theorem gives_xmmXm {rexed : Prop} (p : Prefixes) : Gives (xmmXm p) fun x =>
    ∀ size, (Arg.ofXm x.2 size).Allowed rexed :=
  (gives_modRm p).return fun _ hm => allowed_xm hm

theorem gives_shift (p : Prefixes) (count : Reader ShiftCount) :
    Gives (shift p count) (Decoded.Allowed (p.rex ≠ 0)) := by
  refine (gives_modRm p).bind fun m hm => ?_
  split
  · refine (gives_rm p p.width hm).bind fun x hx => (gives_any count).return fun n _ => ?_
    cases n with
    | imm n => exact .two rfl hx trivial (.inr rfl)
    | cl => exact .two rfl hx (fun _ hlow => absurd hlow (by decide)) (.inr rfl)
  · exact gives_failure

theorem gives_group3 (p : Prefixes) : Gives (Reader.group3 p) (Decoded.Allowed (p.rex ≠ 0)) := by
  refine (gives_modRm p).bind fun m hm => (gives_rm p p.width hm).bind fun x hx => ?_
  split
  · exact (gives_any _).return fun _ _ => .two rfl hx trivial (.inr rfl)
  all_goals first | exact gives_pure (.one rfl hx) | exact gives_failure

theorem gives_group5 (p : Prefixes) : Gives (Reader.group5 p) (Decoded.Allowed (p.rex ≠ 0)) := by
  refine (gives_modRm p).bind fun m hm => (gives_rm p .qword hm).bind fun x hx => ?_
  split
  all_goals first | exact gives_pure (.one rfl hx) | exact gives_failure

end Reader

open Reader

theorem OpcodeForm.gives_read (p : Prefixes) (form : OpcodeForm) :
    Gives (form.read p) (Decoded.Allowed (p.rex ≠ 0)) := by
  cases form with
  | aluStore op => exact (gives_rmReg p p.width).return fun _ h => .two rfl h.1 h.2 (.inr rfl)
  | aluLoad op =>
    exact (gives_regRm p p.width p.width).return fun _ h => .two rfl h.1 h.2 (.inl rfl)
  | push low => exact gives_pure (.one rfl nofun)
  | pop low => exact gives_pure (.one rfl nofun)
  | movsxd => exact (gives_regRm p p.width .dword).return fun _ h => .two rfl h.1 h.2 (.inl rfl)
  | imulImm byte =>
    exact (gives_regRm p p.width p.width).bind fun _ h => (gives_any _).return fun v _ =>
      .factor (.two rfl h.1 h.2 (.inl rfl)) v
  | jccShort cond => exact (gives_any _).return fun _ _ => .one rfl trivial
  | aluImm byte =>
    exact (gives_modRm p).bind fun m hm => (gives_rm p p.width hm).bind fun _ hx =>
      (gives_any _).return fun _ _ => .two rfl hx trivial (.inr rfl)
  | test byte => exact (gives_rmReg p _).return fun _ h => .two rfl h.1 h.2 (.inr rfl)
  | movStore byte => exact (gives_rmReg p _).return fun _ h => .two rfl h.1 h.2 (.inr rfl)
  | movLoad byte => exact (gives_regRm p _ _).return fun _ h => .two rfl h.1 h.2 (.inl rfl)
  | lea =>
    refine (gives_modRm p).bind fun m hm => ?_
    split
    · rename_i mem hmem
      rw [hmem] at hm
      exact (gives_gpr p p.width m.reg).return fun _ hr => .two rfl hr hm (.inl rfl)
    · exact gives_failure
  | nop =>
    refine gives_pure ?_
    split <;> exact .none rfl
  | cdq =>
    refine gives_pure ?_
    split <;> exact .none rfl
  | movImm low =>
    exact (gives_any _).return fun _ _ =>
      .two rfl (fun hw => absurd hw p.width_ne_byte) trivial (.inr rfl)
  | shiftImm => exact gives_shift p _
  | shiftOne => exact gives_shift p _
  | shiftCl => exact gives_shift p _
  | ret => exact gives_pure (.none rfl)
  | movImmRm byte =>
    exact (gives_modRm p).bind fun m hm => (gives_any _).bind fun _ _ =>
      (gives_rm p _ hm).bind fun _ hx => (gives_any _).return fun _ _ =>
        .two rfl hx trivial (.inr rfl)
  | int3 => exact gives_pure (.none rfl)
  | call => exact (gives_any _).return fun _ _ => .one rfl trivial
  | jmp => exact (gives_any _).return fun _ _ => .one rfl trivial
  | jmpShort => exact (gives_any _).return fun _ _ => .one rfl trivial
  | group3 => exact gives_group3 p
  | group5 => exact gives_group5 p

theorem EscapedForm.gives_read (p : Prefixes) (form : EscapedForm) :
    Gives (form.read p) (Decoded.Allowed (p.rex ≠ 0)) := by
  cases form with
  | ud2 => exact gives_pure (.none rfl)
  | movsLoad =>
    exact (gives_any _).bind fun _ _ => (gives_xmmXm p).return fun _ h =>
      .two rfl trivial (h _) (.inl rfl)
  | movsStore =>
    exact (gives_any _).bind fun _ _ => (gives_xmmXm p).return fun _ h =>
      .two rfl (h _) trivial (.inr rfl)
  | nop => exact (gives_any _).return fun _ _ => .none rfl
  | movap => exact (gives_xmmXm p).return fun _ h => .two rfl trivial (h _) (.inl rfl)
  | cvtFromInt =>
    exact (gives_any _).bind fun _ _ => (gives_modRm p).bind fun m hm =>
      (gives_rm p _ hm).return fun _ hx => .two rfl trivial hx (.inl rfl)
  | cvtToInt =>
    exact (gives_any _).bind fun _ _ => (gives_modRm p).bind fun m hm =>
      (gives_gpr p _ m.reg).return fun _ hr => .two rfl hr (allowed_xm hm _) (.inl rfl)
  | ucomis => exact (gives_xmmXm p).return fun _ h => .two rfl trivial (h _) (.inl rfl)
  | cmov cond => exact (gives_regRm p _ _).return fun _ h => .two rfl h.1 h.2 (.inl rfl)
  | sse op =>
    exact (gives_any _).bind fun _ _ => (gives_xmmXm p).return fun _ h =>
      .two rfl trivial (h _) (.inl rfl)
  | packed op => exact (gives_xmmXm p).return fun _ h => .two rfl trivial (h _) (.inl rfl)
  | cvtFloat =>
    exact (gives_any _).bind fun _ _ => (gives_xmmXm p).return fun _ h =>
      .two rfl trivial (h _) (.inl rfl)
  | movToXmm =>
    exact (gives_any _).bind fun _ _ => (gives_modRm p).bind fun m hm =>
      (gives_rm p _ hm).return fun _ hx => .two rfl trivial hx (.inl rfl)
  | movFromXmm =>
    exact (gives_any _).bind fun _ _ => (gives_modRm p).bind fun m hm =>
      (gives_rm p _ hm).return fun _ hx => .two rfl hx trivial (.inr rfl)
  | jcc cond => exact (gives_any _).return fun _ _ => .one rfl trivial
  | setcc cond =>
    exact (gives_modRm p).bind fun m hm => (gives_rm p _ hm).return fun _ hx => .one rfl hx
  | fence => exact (gives_any _).bind fun _ _ => (gives_any _).return fun _ _ => .none rfl
  | imul => exact (gives_regRm p _ _).return fun _ h => .two rfl h.1 h.2 (.inl rfl)
  | cmpxchg => exact (gives_rmReg p _).return fun _ h => .two rfl h.1 h.2 (.inr rfl)
  | movx sign word =>
    refine (gives_regRm p _ _).return fun _ h => ?_
    split <;> exact .two rfl h.1 h.2 (.inl rfl)
  | bitScan reverse => exact (gives_regRm p _ _).return fun _ h => .two rfl h.1 h.2 (.inl rfl)

theorem Decoded.gives_read (p : Prefixes) :
    Gives (Decoded.read p) (Decoded.Allowed (p.rex ≠ 0)) := by
  refine (gives_any _).bind fun b _ => Gives.ite ((gives_any _).bind fun b' _ => ?_) ?_
  all_goals split
  · exact EscapedForm.gives_read p _
  · exact gives_failure
  · exact OpcodeForm.gives_read p _
  · exact gives_failure

/-! ### Prefixes -/

def isLegacy (b : UInt8) : Bool := b = 0xF0 || b = 0x66 || b = 0xF3 || b = 0xF2

/-- Whether a REX byte stands behind the legacy prefixes. -/
def hasRex (bytes : List UInt8) : Bool :=
  (bytes.dropWhile isLegacy).head?.any fun b => b &&& 0xF0 = 0x40

theorem Prefixes.take?_cases (p : Prefixes) (b : UInt8) :
    (isLegacy b = true ∧ ∃ q, p.take? b = some q ∧ q.rex = p.rex) ∨
    (isLegacy b = false ∧ p.take? b = none) := by
  unfold isLegacy take?
  split_ifs <;> simp_all

/-- By induction on the bytes: none of the legacy prefixes touches the REX byte. -/
theorem Prefixes.legacy_eq (p : Prefixes) (taken : Nat) (bytes : List UInt8) :
    (p.legacy taken bytes).1.rex = p.rex ∧
    (p.legacy taken bytes).2.rest = bytes.dropWhile isLegacy := by
  induction bytes generalizing p taken with
  | nil => exact ⟨rfl, rfl⟩
  | cons b rest ih =>
    rcases p.take?_cases b with ⟨hlegacy, q, htake, hrex⟩ | ⟨hlegacy, htake⟩
    · rw [List.dropWhile_cons_of_pos hlegacy, ← hrex]
      simpa only [legacy, htake] using ih q (taken + 1)
    · rw [List.dropWhile_cons_of_neg (by simp [hlegacy])]
      simp only [legacy, htake, and_self]

theorem Prefixes.any_of_takeRex {p : Prefixes} {c : Cursor} (hp : p.rex = 0)
    (h : (p.takeRex c).1.rex ≠ 0) :
    c.rest.head?.any (fun b => b &&& 0xF0 = 0x40) = true := by
  unfold takeRex at h
  split at h
  · rename_i b rest hrest
    split at h
    · simpa [hrest]
    · exact absurd hp h
  · exact absurd hp h

theorem Arg.Allowed.mono {rexed rexed' : Prop} {a : Arg} (h : a.Allowed rexed)
    (himp : rexed → rexed') :
    a.Allowed rexed' := by
  cases a with
  | gpr r w => exact fun hw hlow hhigh => himp (h hw hlow hhigh)
  | _ => exact h

theorem allowed_decode {bytes : List UInt8} {i : Decoded} {n : Nat}
    (h : decode bytes = some (i, n)) :
    i.Allowed (hasRex bytes) := by
  obtain ⟨⟨j, c⟩, hread, hout⟩ := Option.map_eq_some_iff.mp (decode_eq_map bytes ▸ h)
  obtain ⟨rfl, -⟩ := Prod.mk.inj hout
  obtain ⟨hrex, hrest⟩ := Prefixes.empty.legacy_eq 0 bytes
  have hallowed := Decoded.gives_read _ _ j c hread
  refine ⟨fun a ha => (hallowed.arg a ha).mono fun hne => ?_, hallowed.mem⟩
  rw [hasRex, ← hrest]
  exact Prefixes.any_of_takeRex hrex hne

/-- What has been decoded finds its operands. -/
theorem proper_interpret {bytes : List UInt8} {x : Insn} {n : Nat}
    (h : Insn.decode bytes = some (x, n)) (next : Word) :
    Machine.Proper (Machine.interpret x next) := by
  rw [Insn.decode_eq] at h
  obtain ⟨⟨i, k⟩, -, heq⟩ := Option.map_eq_some_iff.mp h
  obtain ⟨rfl, -⟩ := Prod.mk.inj heq
  rw [Machine.interpret_insn]
  exact Machine.proper_execute i next

/-- What bytes decode to is well formed. In no state of the machine does its execution miss an
operand, a register or a size, and none of its accesses is wider than a word. -/
theorem Insn.wellFormed_of_decode {bytes : List UInt8} {x : Insn} {n : Nat}
    (h : Insn.decode bytes = some (x, n)) :
    x.WellFormed (hasRex bytes) ∧ ∀ next, Machine.Proper (Machine.interpret x next) := by
  refine ⟨?_, proper_interpret h⟩
  rw [Insn.decode_eq] at h
  obtain ⟨⟨i, k⟩, hi, heq⟩ := Option.map_eq_some_iff.mp h
  obtain ⟨rfl, -⟩ := Prod.mk.inj heq
  exact (allowed_decode hi).wellFormed

theorem Insn.wellFormed_of_decode_storeByte :
    let bytes : List UInt8 := [0x40, 0x88, 0x74, 0x8B, 0x10]
    let x : Insn := ⟨.mov, [.mem ⟨some 3, some 1, 4, 16, false, 1⟩, .gpr 6 1]⟩
    Insn.decode bytes = some (x, 5) ∧ x.WellFormed (hasRex bytes) ∧
      Machine.Proper (Machine.interpret x 5) := by
  intro bytes x
  have h : Insn.decode bytes = some (x, 5) := by decide
  exact ⟨h, (wellFormed_of_decode h).1, (wellFormed_of_decode h).2 5⟩

/-- Without the REX byte, the register would be a high byte. -/
example : Insn.decode [0x88, 0x74, 0x8B, 0x10] = none := by decide

end X64

namespace Machine

theorem proper_step : Proper step := by
  have hpc : Proper (modify fun m : Machine => { m with pc := m.rip }) := proper_modify fun _ => rfl
  refine hpc.bind fun _ => proper_get.bind fun m => ?_
  split
  · exact proper_throw rfl
  · rename_i x n hfetch
    refine Proper.bind ?_ fun _ => X64.proper_interpret hfetch _
    exact proper_modify fun _ => rfl

/-- By induction on the instructions that may still be executed. -/
theorem proper_runFor (limit : Nat) : Proper (runFor limit) := by
  induction limit with
  | zero => exact proper_throw rfl
  | succ limit ih =>
    refine proper_get.bind fun m => ?_
    exact proper_ite (proper_step.bind fun _ => ih) (proper_pure ())

/-- Whatever lies in memory, no run of the machine misses an operand. -/
theorem proper_call (entry : Word) : Proper (call entry) := by
  refine Proper.bind ?_ fun _ => proper_runFor stepLimit
  exact proper_modify fun _ => rfl

end Machine

end MachineCode
