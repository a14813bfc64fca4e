import MachineCode.Proofs.Execution.Installations
import MachineCode.Proofs.Execution.Moving

/-! Conversions between integers. Each takes the low part of a number and extends it. -/
namespace MachineCode

open X64 Lower Machine

/-! ### Low parts -/

theorem ofLeBytes_take (bs : List UInt8) (k : Nat) :
    ofLeBytes (bs.take k) = ofLeBytes bs % 256 ^ k := by
  induction bs generalizing k with
  | nil => simp [ofLeBytes]
  | cons b bs ih =>
    cases k with
    | zero => simp [ofLeBytes, Nat.mod_one]
    | succ k =>
      have hb : b.toNat < 256 := b.toNat_lt
      rw [List.take_succ_cons, ofLeBytes, ofLeBytes, ih, Nat.pow_succ', Nat.mod_mul,
        Nat.add_mul_mod_self_left, Nat.mod_eq_of_lt hb, Nat.add_mul_div_left _ _ (by decide),
        Nat.div_eq_of_lt hb, Nat.zero_add]

/-- The first bytes of a number are its low part. -/
theorem Memory.readWord_mod (m : Memory) (a : Word) {k n : Nat} (h : k ≤ n) :
    m.readWord a n % 256 ^ k = m.readWord a k := by
  rw [readWord, readWord, ← ofLeBytes_take, read, read, ← List.map_take,
    List.take_range, Nat.min_eq_left h]

/-- A conversion between integers: the part of a number that counts, and the width to which it is
extended, with its sign or with zeros. -/
structure Resize where
  part : Width
  signed : Bool
  width : Width

namespace Resize

def eval (x : Resize) (v : Word) : BitVec x.width.bits :=
  if x.signed then (v.setWidth x.part.bits).signExtend x.width.bits
    else (v.setWidth x.part.bits).setWidth x.width.bits

theorem eval_congr {x : Resize} {v v' : Word}
    (h : low v x.part = low v' x.part) : x.eval v = x.eval v' := by
  rw [eval, eval, low_eq_iff.mp h]

end Resize

/-- The conversions between integers. -/
def ConvertOp.resize? : ConvertOp → Option Resize
  | .i2l => some ⟨.dword, true, .qword⟩
  | .l2i => some ⟨.dword, false, .dword⟩
  | .i2b => some ⟨.byte, true, .dword⟩
  | .i2c => some ⟨.word, false, .dword⟩
  | .i2s => some ⟨.word, true, .dword⟩
  | _ => none

/-- What the instruction makes of its operand. -/
def X64.Extension.resize : Extension → Resize
  | .zeroByte => ⟨.byte, false, .dword⟩
  | .zeroWord => ⟨.word, false, .dword⟩
  | .signByte => ⟨.byte, true, .dword⟩
  | .signWord => ⟨.word, true, .dword⟩
  | .signDword => ⟨.dword, true, .qword⟩

theorem X64.Extension.part_resize (ext : Extension) : ext.resize.part = ext.source := by
  cases ext <;> rfl

/-- The first bytes of a number are the low part of the value that is read. -/
theorem Kind.low_read_of_le (kind : Kind) (m : Memory) (a : Word) {w : Width}
    (h : w.bytes ≤ kind.size) :
    low (kind.read (m.readWord a kind.size)) w = BitVec.ofNat 64 (m.readWord a w.bytes) := by
  have hbits : w.bits ≤ 8 * kind.size := Nat.mul_le_mul_left 8 h
  have hsigned : ∀ {k : Nat} (n : Nat), w.bits ≤ k → w.bits ≤ 32 →
      low (((BitVec.ofNat k n).signExtend 32).setWidth 64) w = low (BitVec.ofNat 64 n) w := by
    intro k n hk hle
    rw [low, low, BitVec.setWidth_setWidth_of_le _ w.bits_le, setWidth_signExtend_of_le _ hle,
      BitVec.signExtend_eq_setWidth_of_le _ hk, BitVec.setWidth_ofNat_of_le hk,
      BitVec.setWidth_ofNat_of_le w.bits_le]
  have hlow : low (kind.read (m.readWord a kind.size)) w =
      low (BitVec.ofNat 64 (m.readWord a kind.size)) w := by
    cases kind with
    | byte | short => exact hsigned _ hbits (Nat.le_trans hbits (by decide))
    | _ => rfl
  have hlt : ∀ k ≤ 8, m.readWord a k < 2 ^ 64 := fun k hk =>
    Nat.lt_of_lt_of_le (m.readWord_lt a k) (Nat.pow_le_pow_right (by decide) hk)
  have hsize : kind.size ≤ 8 := by cases kind <;> decide
  refine hlow.trans (BitVec.eq_of_toNat_eq ?_)
  rw [toNat_low, BitVec.toNat_ofNat, BitVec.toNat_ofNat, Nat.mod_eq_of_lt (hlt _ hsize),
    Nat.mod_eq_of_lt (hlt _ (Nat.le_trans h hsize)), Memory.readWord_mod m a h]

namespace Machine

variable {s : Machine} {next : Word} {d : Gpr} {v : Word}

/-- What has been read at a width is no wider. -/
theorem ReadsRm.low_eq {w : Width} {x : Rm} (h : s.ReadsRm next w v x) : low v w = v := by
  cases x with
  | reg g =>
    cases h
    exact low_low _ w
  | mem m =>
    obtain ⟨-, rfl⟩ := h
    exact low_loaded (Nat.le_refl _)

theorem executes_extend {ext : Extension} {x : Rm} (h : s.ReadsRm next ext.source v x) :
    Executes (Instr.extend ext d x).decoded next s fun c => ∃ r, c = s.setReg d r ∧
      r.setWidth ext.resize.width.bits = ext.resize.eval v := by
  have hzero : v.setWidth 32 = (v.setWidth ext.source.bits).setWidth 32 := by
    rw [← h.low_eq, setWidth_low, low, BitVec.setWidth_setWidth_of_le _ (by decide)]
  have hsigned : ∀ w : Width, (low (signExtend v ext.source) w).setWidth w.bits =
      (v.setWidth ext.source.bits).signExtend w.bits := fun w => by
    rw [setWidth_low, signExtend, setWidth_signExtend_of_le _ w.bits_le]
  cases ext with
  | zeroByte | zeroWord =>
    refine (executes_movzx (w := .dword) h).mono fun _ c hc => ⟨_, hc, ?_⟩
    exact (setWidth_low v .dword).trans hzero
  | signByte | signWord =>
    exact (executes_movsx (w := .dword) h).mono fun _ c hc => ⟨_, hc, hsigned .dword⟩
  | signDword =>
    refine (executes_movsx (w := .qword) h).mono fun _ c hc => ⟨_, hc, ?_⟩
    exact (congrArg _ (low_qword _).symm).trans (hsigned .qword)

end Machine

/-! ### The code of a conversion -/

namespace Lower

variable {S : Site} {C : Context} {src dst : Operand} {d : Gpr}

/-- At compile time a constant becomes what the instruction would make of it. -/
theorem setWidth_extendConstant (ext : Extension) (c : Constant) :
    (extendConstant ext c).toBitVec.setWidth ext.resize.width.bits =
      ext.resize.eval c.bits.toBitVec := by
  cases ext with
  | signByte | signWord | signDword =>
    simp [extendConstant, Constant.low32, Extension.resize, Resize.eval, Width.bits, Width.bytes]
  | zeroByte | zeroWord =>
    refine BitVec.eq_of_toNat_eq ?_
    simp [extendConstant, Constant.low32, Extension.resize, Resize.eval, Width.bits, Width.bytes]

/-- The register has received what the conversion makes of the operand's value. Nothing else has
changed. -/
def Resized (S : Site) (frame : Frame) (x : Resize) (src : Operand)
    (d : Gpr) : Assertion := fun s c =>
  ∃ v r, S.value? frame s src = some v ∧ c = s.setReg d r ∧ r.setWidth x.width.bits = x.eval v

/-- As many bytes of the operand can be accessed as the conversion reads. -/
def CanResize (S : Site) (frame : Frame) (x : Resize) (src : Operand) (s : Machine) : Prop :=
  ∀ l, place? frame src = some l → s.faultsAt (S.place s l) x.part.bytes = false

theorem resized_of_read {frame : Frame} {x : Resize} {l : Location} {s : Machine} {r : Word}
    (hl : place? frame src = some l) (hsize : x.part.bytes ≤ src.kind.size)
    (hr : r.setWidth x.width.bits = x.eval (s.loaded (S.place s l) x.part.bytes)) :
    Resized S frame x src d s (s.setReg d r) := by
  refine ⟨_, r, Site.value?_place hl, rfl, hr.trans (Resize.eval_congr ?_)⟩
  rw [low_loaded (Nat.le_refl _), Kind.low_read_of_le _ _ _ hsize]
  rfl

theorem computes_extend (ext : Extension) (hd : gpr? dst = some d) (hobject : src.kind ≠ .object)
    (hsize : ∀ l, place? C.frame src = some l → ext.resize.part.bytes ≤ src.kind.size) :
    Computes S C (extend ext src dst) (CanResize S C.frame ext.resize src)
      fun _ => Resized S C.frame ext.resize src d := by
  unfold extend
  refine (finds_gpr dst).computes fun d' hd' => ?_
  cases hd.symm.trans hd'
  have hmemory :
      Computes S C (location src >>= fun l => discard (emitAt l fun m => .extend ext d (.mem m)))
      (CanResize S C.frame ext.resize src) fun _ => Resized S C.frame ext.resize src d := by
    refine (finds_location src).computes fun l hl => Computes.discard ?_
    refine computes_emitAt (i := fun m => .extend ext d (.mem m)) hl.2
      (fixed_of_place? hl.1) (fun _ => rfl)
      (fun _ _ => rfl) (fun s m next hs ha => ?_) ?_
    · have hread := readsRm_mem ha (hs l hl.1)
      rw [ext.part_resize] at hread
      refine (executes_extend hread).mono fun _ c hc => ?_
      obtain ⟨r, rfl, hr⟩ := hc
      rw [← ext.part_resize] at hr
      exact resized_of_read hl.1 (hsize l hl.1) hr
    · rintro s _ ⟨v, r, -, rfl, -⟩
      rfl
  cases src with
  | reg r kind =>
    refine (finds_gpr _).computes fun g hg => ?_
    refine computes_emit (i := .extend ext d (.reg g)) (Instr.encodable_of_none rfl)
      (fun s next _ => ?_) ?_
    · refine (executes_extend (readsRm_reg g ext.source)).mono fun _ c hc => ?_
      obtain ⟨r, rfl, hr⟩ := hc
      refine ⟨_, r, Site.value?_gpr hg, rfl, hr.trans (Resize.eval_congr ?_)⟩
      rw [ext.part_resize, low_low]
    · rintro s _ ⟨v, r, -, rfl, -⟩
      rfl
  | const k =>
    have hvalue : ∀ s, S.value? C.frame s (.const k) = some k.bits.toBitVec := fun s =>
      value?_bits (Option.eq_none_iff_forall_ne_some.mpr fun o ho =>
        hobject (size_of_object? ho)) C.frame s
    have hwide : ext.resize.width = .ofWide (ext == .signDword) := by cases ext <;> rfl
    refine (computes_movImm (ext == .signDword) d (extendConstant ext k)).mono fun s _ _ =>
      ⟨trivial, ?_⟩
    rintro _ _ rfl
    refine ⟨_, _, hvalue s, rfl, ?_⟩
    rw [← setWidth_extendConstant, hwide, setWidth_low]
  | stack slot kind => exact hmemory
  | addr a => exact hmemory

theorem computes_narrow {x : Resize} (hx : ConvertOp.l2i.resize? = some x) (hd : gpr? dst = some d)
    (hsize : ∀ l, place? C.frame src = some l → x.part.bytes ≤ src.kind.size) :
    Computes S C (narrow src dst) (CanResize S C.frame x src) fun _ =>
      Resized S C.frame x src d := by
  cases hx
  unfold narrow
  refine (finds_gpr dst).computes fun d' hd' => ?_
  cases hd.symm.trans hd'
  split
  · refine (finds_gpr _).computes fun g hg => ?_
    refine computes_emit (i := .mov false d g) (Instr.encodable_of_none rfl) (fun s next _ => ?_) ?_
    · refine (executes_mov (readsRm_reg g .dword).source).mono fun _ c hc => ?_
      refine ⟨_, _, Site.value?_gpr hg, hc, ?_⟩
      rw [merge_dword, low_low]
      exact (setWidth_low (s.reg g) .dword).trans (BitVec.setWidth_eq _).symm
    · rintro s _ ⟨v, r, -, rfl, -⟩
      rfl
  · refine (finds_location src).computes fun l hl => Computes.discard ?_
    refine computes_emitAt hl.2 (fixed_of_place? hl.1) (fun _ => rfl) (fun _ _ => rfl)
      (fun s m next hs ha => ?_) ?_
    · have hload : Executes (Instr.load false d m).decoded next s _ :=
        executes_loadWide ha (hs l hl.1)
      refine hload.mono fun _ c hc => ?_
      subst hc
      exact resized_of_read hl.1 (hsize l hl.1) (BitVec.setWidth_eq _).symm
    · rintro s _ ⟨v, r, -, rfl, -⟩
      rfl

theorem computes_resize {op : ConvertOp} {x : Resize} (hop : op.resize? = some x)
    (hd : gpr? dst = some d) (hobject : src.kind ≠ .object)
    (hsize : ∀ l, place? C.frame src = some l → x.part.bytes ≤ src.kind.size) :
    Computes S C (convert op src dst) (CanResize S C.frame x src) fun _ =>
      Resized S C.frame x src d := by
  cases op with
  | l2i => exact computes_narrow hop hd hsize
  | i2l => cases hop; exact computes_extend .signDword hd hobject hsize
  | i2b => cases hop; exact computes_extend .signByte hd hobject hsize
  | i2c => cases hop; exact computes_extend .zeroWord hd hobject hsize
  | i2s => cases hop; exact computes_extend .signWord hd hobject hsize
  | _ => cases hop

end Lower

/-! ### Installed code -/

/-- From any state in which the operand can be accessed, the code of a conversion between integers
runs to its end and leaves in the register what the conversion makes of the value that the operand
has had, wherever that has been: in a register, in memory or in the code. Nothing else changes. From
memory the conversion reads as many bytes as it takes a part of, so that the operand has to have as
many. -/
theorem exists_run_resized {I : Installation} {op : ConvertOp} {x : Resize} {src dst : Operand}
    {d : Gpr} {start stop : Nat} {machine : Machine}
    (hcode : I.HasCode (.convert op src dst) start stop) (hop : op.resize? = some x)
    (hd : gpr? dst = some d) (hobject : src.kind ≠ .object)
    (hsize : ∀ l, place? I.source.frame src = some l → x.part.bytes ≤ src.kind.size)
    (hloaded : machine.Loaded I.base I.image) (hrip : machine.rip = I.base + BitVec.ofNat 64 start)
    (hcan : CanResize I.site I.source.frame x src machine) :
    ∃ machine' v, machine.RunsTo (I.base + BitVec.ofNat 64 stop) machine' ∧
      I.site.value? I.source.frame machine src = some v ∧
      (machine'.reg d).setWidth x.width.bits = x.eval v ∧
      machine.Keeps (· = d) (fun _ => False) (fun _ => False) machine' := by
  have hconvert : ∀ C, C.frame = I.source.frame → Computes I.site C (lower (.convert op src dst))
      (CanResize I.site I.source.frame x src) fun _ => Resized I.site I.source.frame x src d := by
    rintro C hC
    rw [← hC] at hsize ⊢
    exact computes_resize hop hd hobject hsize
  obtain ⟨machine', hrun, v, r, hv, hcore, hr⟩ := hcode.exists_run hconvert hloaded hrip hcan
  rw [Site.value?_core] at hv
  have hkeeps : machine.core.Keeps (· = d) (fun _ => False) (fun _ => False) machine'.core :=
    hcore ▸ keeps_setReg (G := (· = d)) rfl r
  refine ⟨machine', v, hrun, hv, ?_, ⟨hkeeps.gprs, hkeeps.xmms, hkeeps.memory, hkeeps.ranges⟩⟩
  rw [← reg_core, hcore, reg_setReg_self, hr]

/-- The low byte 0x80 of a register, as a signed number. -/
theorem exists_run_resized_byte :
    let src : Operand := .reg Gpr.rdi.register .int
    let dst : Operand := .reg Gpr.rcx.register .byte
    let op : Operation := .convert .i2b src dst
    ∃ (I : Installation) (start stop : Nat) (machine machine' : Machine), I.HasCode op start stop ∧
      machine.Loaded I.base I.image ∧ machine.rip = I.base + BitVec.ofNat 64 start ∧
      machine.reg .rdi = 0x12345680 ∧
      machine.RunsTo (I.base + BitVec.ofNat 64 stop) machine' ∧
      (machine'.reg .rcx).setWidth 32 = (-128 : BitVec 32) := by
  intro src dst op
  let target : Target := ⟨{ Options.standard with useStackBanging := false }, ⟨true, true⟩, 4096⟩
  obtain ⟨I, start, stop, -, -, hcode, hloaded, hrip, -⟩ :=
    Installation.exists_entered target op 0x10000000 (Machine.initial.setReg .rdi 0x12345680)
      (by decide +kernel) rfl
  obtain ⟨machine', v, hrun, hv, hresult, -⟩ :=
    exists_run_resized (d := .rcx) hcode rfl rfl (by decide) nofun hloaded hrip nofun
  obtain rfl : (0x12345680 : Word) = v := Option.some.inj hv
  exact ⟨I, start, stop, _, machine', hcode, hloaded, hrip, rfl, hrun, hresult.trans rfl⟩

end MachineCode
