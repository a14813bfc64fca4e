import MachineCode.Proofs.Decoding.RoundTrip

/-! Fields that are filled in later. The bytes of an instruction with a memory operand that counts
from its own end are those in front of the displacement, the displacement, and those behind it;
another displacement gives the instruction with the other displacement. -/
namespace MachineCode.X64.Instr

/-- The instruction with another memory operand; without one it stays as it is. -/
def withMem (m : Mem) : Instr → Instr
  | alu op wide dst (.mem _) => alu op wide dst (.mem m)
  | aluStore op wide _ src => aluStore op wide m src
  | aluImm op wide (.mem _) imm => aluImm op wide (.mem m) imm
  | extend ext dst (.mem _) => extend ext dst (.mem m)
  | load wide dst _ => load wide dst m
  | store wide src _ => store wide src m
  | storeByte src _ => storeByte src m
  | storeWord src _ => storeWord src m
  | storeImm width _ imm => storeImm width m imm
  | lea wide dst _ => lea wide dst m
  | imul wide dst (.mem _) => imul wide dst (.mem m)
  | cmov cond wide dst (.mem _) => cmov cond wide dst (.mem m)
  | test wide (.mem _) b => test wide (.mem m) b
  | movsLoad double dst _ => movsLoad double dst m
  | movsStore double src _ => movsStore double src m
  | sse op double dst (.mem _) => sse op double dst (.mem m)
  | ucomis double a (.mem _) => ucomis double a (.mem m)
  | packed op double dst (.mem _) => packed op double dst (.mem m)
  | cmpxchg lock wide _ src => cmpxchg lock wide m src
  | i => i

theorem mem?_withMem {i : Instr} {m m' : Mem} (h : i.mem? = some m) :
    (i.withMem m').mem? = some m' := by
  cases i with
  | alu _ _ _ x | aluImm _ _ x | imul _ _ x | extend _ _ x | cmov _ _ _ x | sse _ _ _ x
  | ucomis _ _ x | packed _ _ _ x | test _ x =>
    cases x with
    | reg r => simp [mem?, Rm.mem?, Xm.mem?] at h
    | mem m => rfl
  | aluStore | load | store | storeByte | storeWord | storeImm | lea | movsLoad | movsStore
  | cmpxchg => rfl
  | _ => simp [mem?] at h

/-- The memory operand is all that changes. -/
theorem withMem_self {i : Instr} {m : Mem} (h : i.mem? = some m) : i.withMem m = i := by
  cases i with
  | alu _ _ _ x | aluImm _ _ x | imul _ _ x | extend _ _ x | cmov _ _ _ x | sse _ _ _ x
  | ucomis _ _ x | packed _ _ _ x | test _ x =>
    cases x with
    | reg r => simp [mem?, Rm.mem?, Xm.mem?] at h
    | mem m' => cases h; rfl
  | aluStore | load | store | storeByte | storeWord | storeImm | lea | movsLoad | movsStore
  | cmpxchg => cases h; rfl
  | _ => simp [mem?] at h

/-- The encoding has the displacement `d` between these bytes, and its field there. -/
def Around (front back : List UInt8) (e : Encoding) (d : Int32) : Prop :=
  e = ⟨front ++ (leBytes 4 d.toUInt32.toNat ++ back), some front.length⟩

theorem around_regMem (o : Opcode) (r : Nat) :
    ∃ front, front ≠ [] ∧ ∀ d, Around front [] (o.regMem r (.rip d)) d := by
  refine ⟨o.bytes r 0 0 ++ [Opcode.fields 0 (r % 8) 5], by simp, fun d => ?_⟩
  simp [Around, Opcode.regMem, Mem.rip]

theorem around_withImmediate (o : Opcode) (r : Nat) (imm : List UInt8) :
    ∃ front, front ≠ [] ∧ ∀ d, Around front imm ((o.regMem r (.rip d)).withImmediate imm) d := by
  obtain ⟨front, hne, h⟩ := around_regMem o r
  refine ⟨front, hne, fun d => ?_⟩
  rw [Around, h d]
  simp [Encoding.withImmediate]

/-- An instruction that counts from its own end has one field for the displacement, in which any
displacement can stand. -/
theorem exists_around {i : Instr} {m : Mem} (h : i.mem? = some m) :
    ∃ front back, front ≠ [] ∧ ∀ d, Around front back (i.withMem (.rip d)).encode d := by
  have plain :
      ∀ o r, ∃ front back, front ≠ [] ∧ ∀ d, Around front back (Opcode.regMem o r (.rip d)) d :=
    fun o r => by
      obtain ⟨front, hne, h⟩ := around_regMem o r
      exact ⟨front, [], hne, h⟩
  have immediate : ∀ o r imm, ∃ front back, front ≠ [] ∧
      ∀ d, Around front back ((Opcode.regMem o r (.rip d)).withImmediate imm) d :=
    fun o r imm => by
      obtain ⟨front, hne, h⟩ := around_withImmediate o r imm
      exact ⟨front, imm, hne, h⟩
  cases i with
  | alu op wide dst x | imul wide dst x | extend ext dst x | cmov cond wide dst x
  | sse op double dst x | ucomis double dst x | packed op double dst x | test wide x b =>
    cases x with
    | reg r => simp [mem?, Rm.mem?, Xm.mem?] at h
    | mem m => exact plain _ _
  | aluImm op wide x imm =>
    cases x with
    | reg r => simp [mem?, Rm.mem?] at h
    | mem m => exact immediate _ _ _
  | storeImm width dst imm => cases width <;> exact immediate _ _ _
  | aluStore | load | store | storeByte | storeWord | lea | movsLoad | movsStore => exact plain _ _
  | cmpxchg lock wide dst src =>
    cases lock with
    | false => exact plain _ _
    | true =>
      obtain ⟨front, hne, hf⟩ := around_regMem ((Opcode.two 0xB1).withWide wide) src.num.val
      refine ⟨0xF0 :: front, [], by simp, fun d => ?_⟩
      simp only [withMem, encode, if_true, Around]
      rw [hf d]
      simp [Encoding.behind]
  | _ => simp [mem?] at h

/-- The instruction itself is the one whose displacement is 0. -/
theorem exists_around_zero {i : Instr} (h : i.mem? = some (.rip 0)) : ∃ front back, front ≠ [] ∧
    Around front back i.encode 0 ∧ ∀ d, Around front back (i.withMem (.rip d)).encode d := by
  obtain ⟨front, back, hne, haround⟩ := exists_around h
  have hzero := haround 0
  rw [withMem_self h] at hzero
  exact ⟨front, back, hne, hzero, haround⟩

/-- An operand that counts from the end of the instruction has an encoding. -/
theorem encodable_withMem_rip {i : Instr} {m : Mem} (h : i.mem? = some m) (d : Int32) :
    (i.withMem (.rip d)).Encodable := by
  rw [Encodable, mem?_withMem h]
  rintro _ ⟨⟩
  simp [Mem.Encodable, Mem.rip]

/-- The decoder finds the memory operand. -/
theorem exists_mem?_decoded {i : Instr} {m : Mem} (h : i.mem? = some m) :
    ∃ n, i.decoded.mem? = some (m, n) := by
  cases i with
  | alu _ _ _ x | aluImm _ _ x | imul _ _ x | cmov _ _ _ x | sse _ _ _ x | ucomis _ _ x
  | packed _ _ _ x | test _ x =>
    cases x with
    | reg r => simp [mem?, Rm.mem?, Xm.mem?] at h
    | mem m' =>
      cases h
      exact ⟨_, rfl⟩
  | extend ext _ x =>
    cases x with
    | reg r => simp [mem?, Rm.mem?] at h
    | mem m' =>
      cases h
      cases ext <;> exact ⟨_, rfl⟩
  | aluStore | load | store | storeByte | storeWord | storeImm | lea | movsLoad | movsStore
  | cmpxchg =>
    cases h
    exact ⟨_, rfl⟩
  | _ => simp [mem?] at h

/-- A call is read back with any displacement. -/
theorem decodes_call (d : Int32) :
    Decodes (0xE8 :: leBytes 4 d.toUInt32.toNat) (.call (.rel d)) := by
  have hread : Reader.Reads (OpcodeForm.read ((Opcode.one 0xE8).prefixes 0 0 0) .call)
      (leBytes 4 d.toUInt32.toNat) (.call (.rel d)) := (Reader.reads_int32 d).bind_pure
  have h : Decodes ((Opcode.one 0xE8).bytes 0 0 0 ++ leBytes 4 d.toUInt32.toNat) _ :=
    decodes_form rfl rfl hread
  exact h

end MachineCode.X64.Instr
