import MachineCode.Proofs.Decoding.Reads
import MachineCode.X64.Instr

/-! The bytes around an opcode read back: legacy prefixes and the REX byte as prefixes, and the
ModRM byte with what follows it as registers and memory operands. -/
namespace MachineCode.X64

/-- The register number that the r/m field, or the base field, of a memory operand holds. -/
def Mem.baseNum (m : Mem) : Nat :=
  match m.base with
  | .reg r => r.num.val
  | .none | .rip => 0

/-- The register number of an index that is encoded. -/
def Mem.indexNum (m : Mem) : Nat :=
  match m.base with
  | .rip => 0
  | .none | .reg _ => m.index.elim 0 fun i => i.reg.num.val

/-- An index is never `rsp`, whose number stands for no index, and there is none beside `rip`. -/
def Mem.Encodable (m : Mem) : Prop :=
  (∀ i ∈ m.index, i.reg ≠ .rsp) ∧ (m.base = .rip → m.index = none)

namespace Opcode

/-- The SIB byte of an index and the low bits of a base; 4 stands for no index. -/
def sib (index : Option MemIndex) (base : Nat) : UInt8 :=
  match index with
  | none => fields 0 4 base
  | some i => fields i.shift.val i.reg.low3 base

/-- The ModRM byte and what follows it for a register field and a memory operand. -/
def memTail (r : Nat) (m : Mem) : List UInt8 :=
  match m.base with
  | .rip => fields 0 (r % 8) 5 :: leBytes 4 m.disp.toUInt32.toNat
  | .none => fields 0 (r % 8) 4 :: sib m.index 5 :: leBytes 4 m.disp.toUInt32.toNat
  | .reg base =>
    let (mode, disp) := displacement base.num.val m.disp
    if m.index = none ∧ base.low3 ≠ 4 then fields mode (r % 8) base.low3 :: disp
    else fields mode (r % 8) 4 :: sib m.index base.low3 :: disp

theorem bytes_regMem (o : Opcode) (r : Nat) (m : Mem) :
    (o.regMem r m).bytes = o.bytes r m.baseNum m.indexNum ++ memTail r m := by
  obtain ⟨base, index, disp⟩ := m
  obtain _ | base | _ := base <;> obtain _ | i := index
  case reg.none =>
    by_cases h : base.low3 = 4 <;>
      simp [regMem, memTail, Mem.baseNum, Mem.indexNum, Encoding.plain, sib, h]
  all_goals simp [regMem, memTail, Mem.baseNum, Mem.indexNum, Encoding.plain, sib]

/-- A REX byte is there. -/
def hasRex (o : Opcode) (r rm index : Nat) : Bool :=
  o.rexBits r rm index ≠ 0 ∨ (o.byteReg ∧ 4 ≤ r) ∨ (o.byteRm ∧ 4 ≤ rm)

/-- The prefixes that a decoder finds in front of the opcode. -/
def prefixes (o : Opcode) (r rm index : Nat) : Prefixes where
  lock := false
  data16 := o.data16
  rep := o.rep = some .f3
  repne := o.rep = some .f2
  rex := if o.hasRex r rm index then UInt8.ofNat (0x40 + o.rexBits r rm index) else 0

end Opcode

/-- The byte is neither a legacy prefix nor a REX byte. -/
def startsOpcode (b : UInt8) : Bool :=
  b != 0xF0 && b != 0x66 && b != 0xF3 && b != 0xF2 && b &&& 0xF0 != 0x40

namespace Prefixes

theorem legacy_of_take?_eq_none {p : Prefixes} {n : Nat} {b : UInt8} {rest : List UInt8}
    (h : p.take? b = none) : p.legacy n (b :: rest) = (p, ⟨b :: rest, n⟩) := by
  simp only [legacy, h]

theorem take?_of_startsOpcode {b : UInt8} (h : startsOpcode b) (p : Prefixes) :
    p.take? b = none := by
  simp_all [startsOpcode, take?]

theorem takeRex_of_startsOpcode {b : UInt8} (h : startsOpcode b) (p : Prefixes) (n : Nat)
    (rest : List UInt8) : p.takeRex ⟨b :: rest, n⟩ = (p, ⟨b :: rest, n⟩) := by
  simp_all [startsOpcode, takeRex]

/-- A REX byte is no legacy prefix, and is taken as the REX byte. -/
theorem take?_rexByte {k : Nat} (hk : k < 16) (p : Prefixes) :
    p.take? (UInt8.ofNat (0x40 + k)) = none := by
  have h : ∀ k : Fin 16, UInt8.ofNat (0x40 + k.val) ∉ [0xF0, 0x66, 0xF3, 0xF2] := by decide
  have := h ⟨k, hk⟩
  simp_all [take?]

theorem rexByte_and {k : Nat} (hk : k < 16) : UInt8.ofNat (0x40 + k) &&& 0xF0 = 0x40 := by
  have h : ∀ k : Fin 16, UInt8.ofNat (0x40 + k.val) &&& 0xF0 = 0x40 := by decide
  exact h ⟨k, hk⟩

end Prefixes

namespace Opcode

theorem rexBits_lt (o : Opcode) (r rm index : Nat) : o.rexBits r rm index < 16 := by
  unfold rexBits
  split <;> split <;> split <;> split <;> omega

theorem rex_eq (o : Opcode) (r rm index : Nat) : o.rex r rm index =
    if o.hasRex r rm index then [UInt8.ofNat (0x40 + o.rexBits r rm index)] else [] := by
  simp [rex, hasRex]

/-- The opcode byte behind its escape. -/
def escapedByte (o : Opcode) : List UInt8 := (if o.escaped then [0x0F] else []) ++ [o.byte]

/-- A REX byte or an opcode ends the legacy prefixes. -/
theorem legacy_rex {o : Opcode} (ho : o.escaped ∨ startsOpcode o.byte) (r rm index n : Nat)
    (p : Prefixes) (rest : List UInt8) :
    p.legacy n (o.rex r rm index ++ o.escapedByte ++ rest) =
      (p, ⟨o.rex r rm index ++ o.escapedByte ++ rest, n⟩) := by
  rw [rex_eq]
  split
  · exact Prefixes.legacy_of_take?_eq_none (Prefixes.take?_rexByte (rexBits_lt o r rm index) p)
  · cases he : o.escaped
    · simp only [he, Bool.false_eq_true, false_or] at ho
      simp only [escapedByte, he]
      exact Prefixes.legacy_of_take?_eq_none (Prefixes.take?_of_startsOpcode ho p)
    · simp only [escapedByte, he]
      exact Prefixes.legacy_of_take?_eq_none rfl

theorem takeRex_rex {o : Opcode} (ho : o.escaped ∨ startsOpcode o.byte) (r rm index n : Nat)
    (p : Prefixes) (hp : p.rex = 0) (rest : List UInt8) :
    p.takeRex ⟨o.rex r rm index ++ o.escapedByte ++ rest, n⟩ =
      ({ p with rex := (o.prefixes r rm index).rex },
        ⟨o.escapedByte ++ rest, n + (o.rex r rm index).length⟩) := by
  rw [rex_eq, prefixes]
  split
  · simp only [Prefixes.takeRex, List.cons_append, List.nil_append,
      Prefixes.rexByte_and (rexBits_lt o r rm index), if_pos, List.length_singleton]
  · obtain ⟨lock, data16, rep, repne, rex⟩ := p
    cases hp
    cases he : o.escaped
    · simp only [he, Bool.false_eq_true, false_or] at ho
      simp only [escapedByte, he]
      exact Prefixes.takeRex_of_startsOpcode ho _ n _
    · simp only [escapedByte, he]
      exact Prefixes.takeRex_of_startsOpcode rfl _ n _

theorem bytes_eq (o : Opcode) (r rm index : Nat) : o.bytes r rm index =
    (if o.data16 then [0x66] else []) ++
      (repBytes o.rep ++ (o.rex r rm index ++ o.escapedByte)) := by
  simp [bytes, escapedByte]

theorem legacy_data16 (data16 : Bool) (p : Prefixes) (n : Nat) (rest : List UInt8) :
    p.legacy n ((if data16 then [0x66] else []) ++ rest) =
      { p with data16 := data16 || p.data16 }.legacy
        (n + (if data16 then [(0x66 : UInt8)] else []).length) rest := by
  cases data16 <;> rfl

theorem legacy_repBytes (rep : Option RepPrefix) (p : Prefixes) (n : Nat) (rest : List UInt8) :
    p.legacy n (repBytes rep ++ rest) =
      { p with rep := rep = some RepPrefix.f3 || p.rep
               repne := rep = some RepPrefix.f2 || p.repne }.legacy
        (n + (repBytes rep).length) rest := by
  obtain _ | _ | _ := rep <;> rfl

/-- What a decoder makes of the bytes up to the opcode, behind a lock prefix or without one. -/
theorem takeRex_legacy {o : Opcode} (ho : o.escaped ∨ startsOpcode o.byte) (r rm index n : Nat)
    (lock : Bool) (rest : List UInt8) :
    let found := { Prefixes.empty with lock }.legacy n (o.bytes r rm index ++ rest)
    found.1.takeRex found.2 = ({ o.prefixes r rm index with lock },
      ⟨o.escapedByte ++ rest, n + (o.bytes r rm index).length - o.escapedByte.length⟩) := by
  intro found
  have hfound : found = ({ o.prefixes r rm index with lock, rex := 0 },
      ⟨o.rex r rm index ++ o.escapedByte ++ rest,
        n + (o.bytes r rm index).length - o.escapedByte.length - (o.rex r rm index).length⟩) := by
    simp only [found, bytes_eq, List.append_assoc, legacy_data16, legacy_repBytes]
    rw [← List.append_assoc, legacy_rex ho]
    simp only [List.length_append, prefixes, Prefixes.empty, Bool.or_false, Prod.mk.injEq,
      Cursor.mk.injEq, true_and]
    omega
  rw [hfound, takeRex_rex ho _ _ _ _ _ rfl]
  have : o.escapedByte.length + (o.rex r rm index).length ≤ (o.bytes r rm index).length := by
    simp only [bytes_eq, List.length_append]
    omega
  congr 2
  omega

theorem rexBits_eq (o : Opcode) (r rm index : Nat) : o.rexBits r rm index =
    8 * o.wide.toNat + 4 * (decide (8 ≤ r)).toNat + 2 * (decide (8 ≤ index)).toNat +
      (decide (8 ≤ rm)).toNat := by
  unfold rexBits
  cases o.wide <;> by_cases hr : 8 ≤ r <;> by_cases hindex : 8 ≤ index <;>
    by_cases hrm : 8 ≤ rm <;> simp [hr, hindex, hrm]

/-- The four bits of a REX byte, or of the 0 that stands for none. -/
theorem prefixes_bits (o : Opcode) (r rm index : Nat) :
    (o.prefixes r rm index).wide = o.wide ∧
    (o.prefixes r rm index).highReg = decide (8 ≤ r) ∧
    (o.prefixes r rm index).highIndex = decide (8 ≤ index) ∧
    (o.prefixes r rm index).highRm = decide (8 ≤ rm) := by
  have hbits : ∀ w r x b : Bool,
      let rex := UInt8.ofNat (0x40 + (8 * w.toNat + 4 * r.toNat + 2 * x.toNat + b.toNat))
      (rex &&& 8 != 0) = w ∧ (rex &&& 4 != 0) = r ∧ (rex &&& 2 != 0) = x ∧
        (rex &&& 1 != 0) = b := by
    decide
  simp only [prefixes, Prefixes.wide, Prefixes.highReg, Prefixes.highIndex, Prefixes.highRm]
  split
  · rw [rexBits_eq]
    exact hbits _ _ _ _
  · rename_i h
    have h0 : o.rexBits r rm index = 0 := by
      by_contra hne
      simp [hasRex, hne] at h
    rw [rexBits_eq] at h0
    have hwide : o.wide.toNat = 0 := by omega
    have hr : (decide (8 ≤ r)).toNat = 0 := by omega
    have hindex : (decide (8 ≤ index)).toNat = 0 := by omega
    have hrm : (decide (8 ≤ rm)).toNat = 0 := by omega
    simp_all

@[simp] theorem prefixes_wide (o : Opcode) (r rm index : Nat) :
    (o.prefixes r rm index).wide = o.wide := (o.prefixes_bits r rm index).1

@[simp] theorem prefixes_highReg (o : Opcode) (r rm index : Nat) :
    (o.prefixes r rm index).highReg = decide (8 ≤ r) := (o.prefixes_bits r rm index).2.1

@[simp] theorem prefixes_highIndex (o : Opcode) (r rm index : Nat) :
    (o.prefixes r rm index).highIndex = decide (8 ≤ index) := (o.prefixes_bits r rm index).2.2.1

@[simp] theorem prefixes_highRm (o : Opcode) (r rm index : Nat) :
    (o.prefixes r rm index).highRm = decide (8 ≤ rm) := (o.prefixes_bits r rm index).2.2.2

end Opcode

namespace Reader

/-- A register number from its low three bits and the fourth one. -/
theorem extended_eq {n : Fin 16} {k : Nat} (hk : k % 8 = n.val % 8) :
    extended (decide (8 ≤ n.val)) k = n := by
  apply Fin.ext
  simp only [extended, hk, decide_eq_true_eq]
  split <;> omega

theorem toNat_fields {high mid low : Nat} (hh : high < 4) (hm : mid < 8) (hl : low < 8) :
    (Opcode.fields high mid low).toNat = high * 64 + mid * 8 + low := by
  simp only [Opcode.fields, UInt8.toNat_ofNat']
  omega

/-- The prefixes agree with the register numbers of the fields. -/
structure Agrees (p : Prefixes) (r rm index : Nat) : Prop where
  highReg : p.highReg = decide (8 ≤ r)
  highRm : p.highRm = decide (8 ≤ rm)
  highIndex : p.highIndex = decide (8 ≤ index)

theorem reads_modRm_reg {p : Prefixes} {r rm : Fin 16} {index : Nat}
    (hp : Agrees p r.val rm.val index) :
    Reads (modRm p) [Opcode.fields 3 (r.val % 8) (rm.val % 8)] ⟨r, r.val % 8, .reg rm⟩ := by
  have hb :
      (Opcode.fields 3 (r.val % 8) (rm.val % 8)).toNat = 3 * 64 + r.val % 8 * 8 + rm.val % 8 :=
    toNat_fields (by omega) (by omega) (by omega)
  unfold modRm
  apply Reads.byte_bind
  have hhigh : (3 * 64 + r.val % 8 * 8 + rm.val % 8) / 64 = 3 := by omega
  have hmid : (3 * 64 + r.val % 8 * 8 + rm.val % 8) / 8 % 8 = r.val % 8 := by omega
  have hreg : extended p.highReg (r.val % 8) = r := by rw [hp.highReg]; exact extended_eq (by omega)
  have hrm : extended p.highRm (3 * 64 + r.val % 8 * 8 + rm.val % 8) = rm := by
    rw [hp.highRm]
    exact extended_eq (by omega)
  simp only [hb, hhigh, hmid, hreg, hrm, if_true]
  exact reads_pure _

/-- The displacement bytes of a mode read back; mode 0 is left to the bases that have it. -/
theorem reads_displacement (base : Nat) (d : Int32) :
    (Opcode.displacement base d).1 < 3 ∧
    ((Opcode.displacement base d).1 = 0 → base % 8 ≠ 5) ∧
    Reads (displacement (Opcode.displacement base d).1) (Opcode.displacement base d).2 d := by
  unfold Opcode.displacement
  split
  · rename_i h
    refine ⟨by omega, fun _ => h.2, ?_⟩
    rw [h.1]
    exact reads_pure 0
  · split
    · rename_i h
      refine ⟨by omega, by simp, ?_⟩
      have h8 : Reads (displacement 1) _ _ := (reads_int8 d.toUInt32.toNat).bind_pure
      rw [bmod_of_byte h, Int32.ofInt_toInt] at h8
      exact h8
    · exact ⟨by omega, by simp, reads_int32 d⟩

theorem toNat_sib (index : Option MemIndex) {base : Nat} (hb : base < 8) :
    (Opcode.sib index base).toNat = (index.elim 0 fun i => i.shift.val) * 64 +
      (index.elim 4 fun i => i.reg.low3) * 8 + base := by
  cases index with
  | none => exact toNat_fields (by omega) (by omega) hb
  | some i => exact toNat_fields (by simp) (by simp only [Gpr.low3]; omega) hb

/-- The index of an SIB byte reads back, as `rsp` is none. -/
theorem sib_index {index : Option MemIndex} {base : Nat} (hb : base < 8)
    (hi : ∀ i ∈ index, i.reg ≠ .rsp) :
    let number := extended (decide (8 ≤ index.elim 0 fun i => i.reg.num.val))
      ((Opcode.sib index base).toNat / 8)
    (if number.val = 4 then none else
      some (MemIndex.mk ⟨number⟩ (sibShift (Opcode.sib index base).toNat))) = index := by
  intro number
  have hsib := toNat_sib index hb
  cases index with
  | none =>
    simp only [Option.elim_none] at hsib
    have h : number = Gpr.rsp.num := extended_eq (n := Gpr.rsp.num) (by simp only [Gpr.rsp]; omega)
    exact if_pos (congrArg Fin.val h)
  | some i =>
    simp only [Option.elim_some, Gpr.low3] at hsib
    have h : number = i.reg.num := extended_eq (by omega)
    have hne : number.val ≠ 4 := fun h4 => hi i rfl (congrArg Gpr.mk (h.symm.trans (Fin.ext h4)))
    have hshift : sibShift (Opcode.sib (some i) base).toNat = i.shift := by
      apply Fin.ext
      simp only [sibShift]
      omega
    rw [if_neg hne, h, hshift]

theorem reads_sibMem_none {p : Prefixes} {index : Option MemIndex} {d : Int32}
    (hi : ∀ i ∈ index, i.reg ≠ .rsp)
    (hp : p.highIndex = decide (8 ≤ index.elim 0 fun i => i.reg.num.val)) :
    Reads (sibMem p 0) (Opcode.sib index 5 :: leBytes 4 d.toUInt32.toNat) ⟨.none, index, d⟩ := by
  have h5 : 5 < 8 := by omega
  have hsib : (Opcode.sib index 5).toNat % 8 = 5 := by
    have := toNat_sib index h5
    omega
  unfold sibMem
  apply Reads.byte_bind
  simp only [hp, sib_index h5 hi, hsib, and_self, if_true]
  exact (reads_int32 d).bind_pure

theorem reads_sibMem_reg {p : Prefixes} {base : Gpr} {index : Option MemIndex} {d : Int32}
    (hi : ∀ i ∈ index, i.reg ≠ .rsp)
    (hp : p.highIndex = decide (8 ≤ index.elim 0 fun i => i.reg.num.val))
    (hb : p.highRm = decide (8 ≤ base.num.val)) :
    let mode := (Opcode.displacement base.num.val d).1
    Reads (sibMem p mode) (Opcode.sib index base.low3 :: (Opcode.displacement base.num.val d).2)
      ⟨.reg base, index, d⟩ := by
  intro mode
  obtain ⟨-, hmode, hd⟩ := reads_displacement base.num.val d
  have hlow : base.low3 < 8 := Nat.mod_lt _ (by omega)
  have hsib : (Opcode.sib index base.low3).toNat % 8 = base.num.val % 8 := by
    have := toNat_sib index hlow
    have hmod : base.low3 = base.num.val % 8 := rfl
    omega
  have hbase : extended p.highRm (Opcode.sib index base.low3).toNat = base.num := by
    rw [hb]
    exact extended_eq hsib
  have h5 : ¬ ((Opcode.sib index base.low3).toNat % 8 = 5 ∧ mode = 0) := by
    rintro ⟨h, h0⟩
    exact hmode h0 (hsib ▸ h)
  unfold sibMem
  apply Reads.byte_bind
  simp only [hp, sib_index hlow hi, h5, if_false, hbase]
  exact hd.bind_pure

theorem reads_modRm_mem {p : Prefixes} {r : Fin 16} {m : Mem} (hm : m.Encodable)
    (hp : Agrees p r.val m.baseNum m.indexNum) :
    Reads (modRm p) (Opcode.memTail r.val m) ⟨r, r.val % 8, .mem m⟩ := by
  -- What the ModRM byte says about the memory operand is all that depends on the base.
  have key : ∀ mode rm : Nat, mode < 3 → rm < 8 → ∀ bytes, Reads (mem p mode rm) bytes m →
      Reads (modRm p) (Opcode.fields mode (r.val % 8) rm :: bytes) ⟨r, r.val % 8, .mem m⟩ := by
    intro mode rm hmode hrm bytes h
    have hb : (Opcode.fields mode (r.val % 8) rm).toNat = mode * 64 + r.val % 8 * 8 + rm :=
      toNat_fields (by omega) (by omega) hrm
    have hhigh : (Opcode.fields mode (r.val % 8) rm).toNat / 64 = mode := by omega
    have hmid : (Opcode.fields mode (r.val % 8) rm).toNat / 8 % 8 = r.val % 8 := by omega
    have hlow : (Opcode.fields mode (r.val % 8) rm).toNat % 8 = rm := by omega
    have hreg : extended p.highReg (r.val % 8) = r := by
      rw [hp.highReg]
      exact extended_eq (by omega)
    unfold modRm
    apply Reads.byte_bind
    simp only [hhigh, hmid, hlow, hreg, show mode ≠ 3 by omega, if_false]
    exact h.map.bind_pure
  obtain ⟨base, index, d⟩ := m
  obtain ⟨hi, hrip⟩ := hm
  obtain ⟨-, hrm, hindex⟩ := hp
  cases base with
  | rip =>
    cases hrip rfl
    exact key 0 5 (by omega) (by omega) _ (reads_int32 d).bind_pure
  | none => exact key 0 4 (by omega) (by omega) _ (reads_sibMem_none hi hindex)
  | reg base =>
    obtain ⟨hmode, h0, hd⟩ := reads_displacement base.num.val d
    have hlow : base.low3 < 8 := Nat.mod_lt _ (by omega)
    simp only [Opcode.memTail]
    split
    · rename_i h
      obtain ⟨rfl, h4⟩ := h
      apply key _ _ hmode hlow _
      have hbase : extended p.highRm base.low3 = base.num := by
        rw [hrm]
        exact extended_eq (Nat.mod_mod _ 8)
      have h5 : ¬ (base.low3 = 5 ∧ (Opcode.displacement base.num.val d).1 = 0) := by
        rintro ⟨h, h0'⟩
        exact h0 h0' h
      unfold mem
      simp only [h4, h5, if_false, hbase]
      exact hd.bind_pure
    · exact key _ 4 hmode (by omega) _ (reads_sibMem_reg hi hindex hrm)

end Reader

/-! ### Operands of both files -/

namespace Rm

/-- The register number of the r/m field. -/
def num : Rm → Nat
  | .reg r => r.num.val
  | .mem m => m.baseNum

def indexNum : Rm → Nat
  | .reg _ => 0
  | .mem m => m.indexNum

def Encodable : Rm → Prop
  | .reg _ => True
  | .mem m => m.Encodable

def operand : Rm → Reader.Operand
  | .reg r => .reg r.num
  | .mem m => .mem m

end Rm

/-- The operand as one of the general file, whose numbers are encoded alike. -/
def Xm.rm : Xm → Rm
  | .reg x => .reg ⟨x.num⟩
  | .mem m => .mem m

namespace Opcode

/-- The ModRM byte and what follows it. -/
def rmTail (r : Nat) : Rm → List UInt8
  | .reg x => [fields 3 (r % 8) (x.num.val % 8)]
  | .mem m => memTail r m

theorem bytes_regRm (o : Opcode) (r : Nat) (x : Rm) :
    (o.regRm r x).bytes = o.bytes r x.num x.indexNum ++ rmTail r x := by
  cases x with
  | reg x => rfl
  | mem m => exact bytes_regMem o r m

theorem bytes_regXm (o : Opcode) (r : Nat) (x : Xm) :
    (o.regXm r x).bytes = o.bytes r x.rm.num x.rm.indexNum ++ rmTail r x.rm := by
  cases x with
  | reg x => rfl
  | mem m => exact bytes_regMem o r m

theorem fields_eq_or {ext low : Nat} (hext : ext < 8) (hlow : low < 8) :
    0xC0 ||| UInt8.ofNat (ext * 8) ||| UInt8.ofNat low = fields 3 ext low := by
  have h : ∀ e l : Fin 8, 0xC0 ||| UInt8.ofNat (e.val * 8) ||| UInt8.ofNat l.val =
      fields 3 e.val l.val := by decide
  exact h ⟨ext, hext⟩ ⟨low, hlow⟩

theorem bytes_extRm (o : Opcode) {ext : Nat} (hext : ext < 8) (x : Rm) :
    (o.extRm ext x).bytes = o.bytes ext x.num x.indexNum ++ rmTail ext x := by
  cases x with
  | reg x =>
    simp only [extRm, extReg, Encoding.plain, rmTail, Rm.num, Rm.indexNum,
      fields_eq_or hext (Nat.mod_lt x.num.val (by omega)), Nat.mod_eq_of_lt hext]
  | mem m => exact bytes_regMem o ext m

end Opcode

namespace Reader

theorem agrees_prefixes (o : Opcode) (r rm index : Nat) :
    Agrees (o.prefixes r rm index) r rm index where
  highReg := o.prefixes_highReg r rm index
  highRm := o.prefixes_highRm r rm index
  highIndex := o.prefixes_highIndex r rm index

theorem reads_modRm {p : Prefixes} {r : Fin 16} {x : Rm} (hx : x.Encodable)
    (hp : Agrees p r.val x.num x.indexNum) :
    Reads (modRm p) (Opcode.rmTail r.val x) ⟨r, r.val % 8, x.operand⟩ := by
  cases x with
  | reg x => exact reads_modRm_reg hp
  | mem m => exact reads_modRm_mem hx hp

theorem reads_gpr (p : Prefixes) {w : Width} (hw : w ≠ .byte) (n : Fin 16) :
    Reads (gpr p w n) [] ⟨n⟩ := by
  rw [gpr, if_neg (fun h => hw h.1)]
  exact reads_pure _

/-- With a REX byte every byte register can be named. -/
theorem reads_gpr_byte {p : Prefixes} {n : Fin 16} (h : 4 ≤ n.val → p.rex ≠ 0) :
    Reads (gpr p .byte n) [] ⟨n⟩ := by
  rw [gpr, if_neg (fun hn => h hn.2.2.1 hn.2.1)]
  exact reads_pure _

theorem reads_rm (p : Prefixes) {w : Width} (hw : w ≠ .byte) (x : Rm) :
    Reads (rm p w x.operand) [] x := by
  cases x with
  | reg x => exact (reads_gpr p hw x.num).map
  | mem m => exact reads_pure _

theorem reads_rm_mem (p : Prefixes) (w : Width) (m : Mem) :
    Reads (rm p w (.mem m)) [] (.mem m) := reads_pure _

@[simp] theorem xm_operand (x : Xm) : xm x.rm.operand = x := by cases x <;> rfl

end Reader

end MachineCode.X64
