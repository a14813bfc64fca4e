import MachineCode.Proofs.Effects.Execution
import MachineCode.Proofs.Emission.Instructions

/-! The data section is read only. An instruction with a field for data reads there at most, except
where a method exchanges a cell of the section or reads a template's cell into it: these are the
only stores whose place is not checked. -/
namespace MachineCode

open X64 Chunk Lower

/-- Wherever the instruction is executed, memory stays as it is. -/
def X64.Decoded.SparesMemory (i : Decoded) : Prop :=
  ∀ next m a, (Machine.ending (Machine.execute i next) m).memory.get a = m.memory.get a

theorem X64.Decoded.sparesMemory {i : Decoded} (hstore : i.footprint.store? = none)
    (hleaves : i.footprint.leaves = false) : i.SparesMemory := fun _ m a =>
  (Machine.writes_execute hleaves m).memory a fun _ _ h => by simp [hstore] at h

/-- No instruction transfers control by way of memory. -/
theorem X64.Instr.leaves_of_mem? {i : Instr} {m : Mem} (h : i.mem? = some m) :
    i.footprint.leaves = false := by
  have hrm : ∀ (w : Width) (x : Rm), (Footprint.rm w x).leaves = false :=
    fun w x => by cases x <;> rfl
  cases i with
  | alu op wide dst src =>
    rw [footprint_alu]
    split <;> rfl
  | aluStore op wide dst src | aluImm op wide dst imm =>
    simp only [footprint, decoded, Decoded.footprint]
    split
    · rfl
    · exact hrm _ _
  | extend ext dst src =>
    rw [footprint_extend]
    rfl
  | test wide a b =>
    rw [footprint_test]
    rfl
  | _ => first | rfl | cases h

/-! ### Operations whose stores are checked -/

/-- The micro-operation neither inserts bytes nor reads a cell into the data section. -/
def MicroOp.SparesData (operands : List Operand) : MicroOp → Prop
  | .rawBytes _ => False
  | .pointerLoad _ result _ | .pointerLoadDisp _ _ _ _ result _ =>
    ∀ o ∈ operands[result]?, inData o = false
  | _ => True

/-- The operation exchanges no cell of the data section, and its template spares the section. -/
def Operation.SparesData : Operation → Prop
  | .compareAndSwap cell _ _ => inData cell = false
  | .template t operands _ _ =>
    ∀ op ∈ t.fastPath ++ t.slowPath.getD [], op.SparesData operands
  | _ => True

theorem data_of_place? {frame : Frame} {o : Operand} {l : Location} (h : place? frame o = some l)
    (ho : inData o = false) : l.data = none := by
  have hplain : ∀ {r : Option Gpr} {f : Gpr → Mem}, r.map (fun base => .plain (f base)) = some l →
      l.data = none := by
    intro r f hr
    obtain ⟨base, -, rfl⟩ := Option.map_eq_some_iff.mp hr
    rfl
  cases o with
  | stack slot kind =>
    simp only [place?] at h
    obtain ⟨disp, -, rfl⟩ := Option.map_eq_some_iff.mp h
    rfl
  | addr a =>
    obtain ⟨kind, base, index, scale, disp⟩ := a
    cases base with
    | data start => cases ho
    | register base =>
      cases index with
      | none => exact hplain h
      | some index =>
        obtain ⟨b, -, h⟩ := Option.bind_eq_some_iff.mp h
        obtain ⟨i, -, h⟩ := Option.bind_eq_some_iff.mp h
        cases h
        rfl
  | reg | const => simp [place?] at h

/-- An instruction with a field for data stores nothing. -/
theorem Chunk.sparesMemory {ok : List Operand → MicroOp → Prop} {i : Instr} {offset k : Nat}
    (hfield : (Link.data offset).field? i = some k)
    (hc : (Chunk.instr i (some (.data offset))).Within
      (.liberal (fun l _ => l.data = none) False True ok)) : i.decoded.SparesMemory := by
  simp only [Link.field?] at hfield
  split at hfield
  · rename_i hmem
    refine Decoded.sparesMemory ?_ (Instr.leaves_of_mem? hmem)
    cases hstore : i.footprint.store? with
    | none => exact hstore
    | some x => cases hc.stores x.1 x.2 hstore
  · cases hfield

namespace Method

/-- No instruction that holds a reference to the data section changes memory. -/
def DataReadOnly (m : Method) : Prop :=
  ∃ is, m.instructions? = some is ∧ ∀ x ∈ m.tables.relocations, ∀ offset stop,
    x.kind = .data offset stop → ∀ y ∈ is, y.1 ≤ x.offset → x.offset < y.1 + y.2.2 →
      y.2.1.SparesMemory

end Method

theorem Finished.dataReadOnly {cs : List Chunk} {m : Method} {d : Draft}
    {ok : List Operand → MicroOp → Prop} (h : Finished cs m d)
    (hcs : ∀ c ∈ cs, c.Within (.liberal (fun l _ => l.data = none) False True ok)) :
    m.DataReadOnly := by
  refine ⟨_, h.instructions?_eq, fun x hx offset stop hkind y hy hstart hend => ?_⟩
  obtain ⟨p, c, hmem, hx⟩ := h.exists_chunk hx
  have hinside := relocation?_inside hx
  have hwidth : 0 < x.kind.width := by
    rw [hkind]
    exact Nat.succ_pos 3
  obtain ⟨⟨q, c'⟩, hmem', rfl⟩ := List.mem_map.mp hy
  -- The field lies in its own chunk, so no other chunk has it.
  have hsame : (p, c) = (q, c') := by
    obtain heq | hlt | hlt := placed_apart hmem (List.mem_filter.mp hmem').1
    · exact heq
    · simp only at hstart hend hlt
      omega
    · simp only at hstart hend hlt
      omega
  cases hsame
  obtain ⟨i, link, k, rfl, hfield, rfl⟩ := relocation?_eq_some hx
  obtain ⟨pre, post, hsplit, -⟩ := split_of_placed hmem
  have hc := hcs (.instr i (some link)) (by simp [hsplit])
  cases link with
  | data o => exact Chunk.sparesMemory hfield hc
  | object | call => cases hkind

theorem MicroOp.SparesData.within {C : Context} {operands : List Operand} {op : MicroOp}
    (h : op.SparesData operands) :
    op.Within C (.liberal (fun l _ => l.data = none) False True MicroOp.SparesData) operands := by
  cases op with
  | rawBytes bytes => exact h
  | pointerLoad | pointerLoadDisp => exact fun o ho l hl => data_of_place? hl (h o ho)
  | _ => trivial

theorem dataReadOnly_of_compile {target : Target} {source : MethodSource} {m : Method}
    (hops : ∀ op ∈ source.ops, op.SparesData) (hm : (compile target source).1 = .ok m) :
    m.DataReadOnly := by
  obtain ⟨d, d', hd, hmethod⟩ := compile_eq_ok.mp hm
  have hall : ∀ op ∈ source.ops, op.All MicroOp.SparesData := by
    intro op hop
    have hspares := hops op hop
    cases op with
    | template => exact hspares
    | _ => trivial
  have hexchange : ∀ op ∈ source.ops, ∀ cell expected newValue,
      op = .compareAndSwap cell expected newValue →
      ∀ l, place? source.frame cell = some l → l.data = none := by
    rintro op hop cell expected newValue rfl l hl
    exact data_of_place? hl (hops _ hop)
  obtain ⟨cs, h, hcs⟩ := exists_finished_within (fun _ _ => rfl)
    (fun _ _ => MicroOp.SparesData.within) hd hall hexchange hmethod
  exact h.dataReadOnly hcs

/-! ### Destinations -/

/-- Where the operation puts its result. -/
def Operation.destination? : Operation → Option Operand
  | .move _ dst | .convert _ _ dst => some dst
  | .arith _ _ _ result _ | .logic _ _ _ result | .shift _ _ _ result | .negate _ result
  | .abs _ result | .sqrt _ result | .compareToInt _ _ _ result | .condMove _ _ _ _ result
  | .lea _ result | .monitorAddress _ result | .stackAllocate _ result
  | .significantBit _ _ result => some result
  | _ => none

/-- The number of the operand where the micro-operation puts its result, unless that is the contents
of a cell. -/
def MicroOp.destination? : MicroOp → Option Nat
  | .binary _ _ _ result | .mov _ result | .lea _ _ _ _ result | .here result | .pop
    result => some result
  | .callStub _ _ result | .callRuntime _ _ result _ => result
  | _ => none

/-- The step does not succeed. -/
def Refuses {α : Type} (x : Lower α) : Prop := ∀ d, ∃ err d', x d = .error err d'

section Rules

variable {α β : Type} {x : Lower α} {f : α → Lower β}

theorem Refuses.bind (hx : Refuses x) : Refuses (x >>= f) := by
  intro d
  obtain ⟨err, d', h⟩ := hx d
  exact ⟨err, d', Step.bind_of_error h⟩

theorem refuses_andThen (hf : ∀ a, Refuses (f a)) : Refuses (x >>= f) := by
  intro d
  cases h : x d with
  | ok a d₁ =>
    obtain ⟨err, d', herr⟩ := hf a d₁
    exact ⟨err, d', (Step.bind_of_ok h).trans herr⟩
  | error err d' => exact ⟨err, d', Step.bind_of_error h⟩

end Rules

theorem refuses_unhandled {α : Type} (detail : String) : Refuses (unhandled detail : Lower α) :=
  fun _ => ⟨_, _, rfl⟩

theorem exists_addr_of_inData {o : Operand} (h : inData o = true) : ∃ a, o = .addr a := by
  cases o with
  | addr a => exact ⟨a, rfl⟩
  | _ => cases h

/-- A move into the data section is refused. -/
theorem mov_inData {src dst : Operand} (h : inData dst = true) (keepFlags : Bool) (d : Draft) :
    mov src dst keepFlags d = .error (.unhandled d.current "store into the data section") d := by
  unfold mov
  rw [if_pos h]
  rfl

section Destinations

variable {result : Operand} (h : inData result = true)

include h

theorem refuses_mov (src : Operand) (keepFlags : Bool) : Refuses (mov src result keepFlags) :=
  fun d => ⟨_, _, mov_inData h keepFlags d⟩

theorem refuses_gpr : Refuses (gpr result) := by
  obtain ⟨a, rfl⟩ := exists_addr_of_inData h
  exact refuses_unhandled _

theorem refuses_xmm : Refuses (xmm result) := by
  obtain ⟨a, rfl⟩ := exists_addr_of_inData h
  exact refuses_unhandled _

theorem refuses_divide (isSigned rem : Bool) (left right : Operand) (info : Option DebugInfo) :
    Refuses (divide isSigned rem left right result info) := by
  refine refuses_andThen fun divisor => ?_
  split
  · exact refuses_unhandled _
  · refine refuses_andThen fun _ => ?_
    extract_lets out moved recorded
    have hmoved : ∀ u, Refuses (moved u) := fun _ => refuses_mov h _ _
    have hrecorded : ∀ pc, Refuses (recorded pc) := by
      intro pc
      unfold recorded
      split
      · exact refuses_andThen hmoved
      · exact hmoved ()
    split
    · exact refuses_andThen hrecorded
    · exact refuses_andThen hrecorded

theorem refuses_arith (op : ArithOp) (left right : Operand) (info : Option DebugInfo) :
    Refuses (arith op left right result info) := by
  unfold arith
  split
  · unfold floatArith
    split
    · exact refuses_unhandled _
    · exact (refuses_xmm h).bind
  · cases op with
    | add | sub | mul => exact (refuses_gpr h).bind
    | div | rem | udiv | urem => exact refuses_divide h _ _ left right info

theorem refuses_convert (op : ConvertOp) (src : Operand) : Refuses (convert op src result) := by
  cases op with
  | f2i | f2l | d2i | d2l => exact refuses_andThen fun _ => (refuses_gpr h).bind
  | i2f | i2d | l2f | l2d | f2d | d2f | movI2F | movL2D => exact (refuses_xmm h).bind
  | i2l | i2b | i2c | i2s | l2i | movF2I | movD2L => exact (refuses_gpr h).bind

/-- An operation does not put its result into the data section. -/
theorem refuses_operation {op : Operation} (hop : op.destination? = some result) :
    Refuses (operation op) := by
  have hlower : Refuses (lower op) := by
    cases op with
    | move src dst =>
      cases hop
      exact refuses_mov h src false
    | convert op src dst =>
      cases hop
      exact refuses_convert h op src
    | arith op left right dst info =>
      cases hop
      exact refuses_arith h op left right info
    | negate value dst | abs value dst =>
      cases hop
      simp only [lower, negate, Lower.abs]
      split
      · exact (refuses_xmm h).bind
      · exact (refuses_gpr h).bind
    | sqrt value dst =>
      cases hop
      exact (refuses_xmm h).bind
    | condMove cond unorderedIsTrue trueValue falseValue dst =>
      cases hop
      exact refuses_andThen fun _ => (refuses_mov h _ true).bind
    | logic | shift | compareToInt | lea | monitorAddress | stackAllocate | significantBit =>
      cases hop
      exact (refuses_gpr h).bind
    | _ => cases hop
  exact refuses_andThen fun _ => refuses_andThen fun _ => hlower.bind

theorem refuses_templateBinary (op : TemplateBinary) (a b : Operand) (info : Option DebugInfo) :
    Refuses (templateBinary op a b result info) := by
  cases op with
  | add | sub | mul | div | rem => exact refuses_arith h _ a b _
  | and | or | xor | shl | shr | ushr => exact (refuses_gpr h).bind

theorem refuses_popOperand : Refuses (popOperand result) := by
  obtain ⟨a, rfl⟩ := exists_addr_of_inData h
  exact refuses_andThen fun _ => refuses_mov h _ _

section

variable {x : Expansion} {i : Nat} (hi : x.operands[i]? = some result)

include hi

omit h in
theorem refuses_operand {f : Operand → Lower Unit} (hf : Refuses (f result)) :
    Refuses (do f (← x.operand i)) := by
  unfold Expansion.operand
  rw [hi]
  exact hf

theorem refuses_templateCall (target : CallTarget) (args : List Nat) (info : Option DebugInfo) :
    Refuses (templateCall x target args (some i) info) :=
  refuses_andThen fun _ => refuses_andThen fun _ => refuses_operand hi (refuses_mov h _ _)

/-- A micro-operation does not put its result into the data section either. -/
theorem refuses_microOp {op : MicroOp}
    (hop : op.destination? = some i) : Refuses (microOp x op) := by
  cases op with
  | binary op a b r =>
    cases hop
    exact refuses_andThen fun _ => refuses_andThen fun _ =>
      refuses_operand hi (refuses_templateBinary h op _ _ _)
  | mov src dst =>
    cases hop
    exact refuses_andThen fun _ => refuses_operand hi (refuses_mov h _ _)
  | lea pointer index scale disp r =>
    cases hop
    exact refuses_andThen fun _ => refuses_operand hi (refuses_gpr h).bind
  | here r =>
    cases hop
    exact refuses_operand hi (refuses_gpr h).bind
  | pop r =>
    cases hop
    exact refuses_operand hi (refuses_popOperand h)
  | callStub stub args r =>
    cases hop
    exact refuses_templateCall h hi _ args _
  | callRuntime target args r useInfoAfter =>
    cases hop
    exact refuses_templateCall h hi _ args _
  | _ => cases hop

end

end Destinations

/-- Compiled code does not change the data section, as far as exchanges and reads of templates'
cells are not in question: no instruction that refers to the section changes memory, and whatever
would move something there is refused. -/
theorem stores_spare_data {target : Target} {source : MethodSource}
    (hops : ∀ op ∈ source.ops, op.SparesData) :
    (∀ m, (compile target source).1 = .ok m → m.DataReadOnly) ∧
    ∀ dst, inData dst = true →
      (∀ src keepFlags d, mov src dst keepFlags d =
        .error (.unhandled d.current "store into the data section") d) ∧
      (∀ op : Operation, op.destination? = some dst → Refuses (operation op)) ∧
      ∀ (x : Expansion) (op : MicroOp) i, op.destination? = some i → x.operands[i]? = some dst →
        Refuses (microOp x op) :=
  ⟨fun _ hm => dataReadOnly_of_compile hops hm, fun _ hdst =>
    ⟨fun _ keepFlags d => mov_inData hdst keepFlags d, fun _ hop => refuses_operation hdst hop,
      fun _ _ _ hop hi => refuses_microOp hdst hi hop⟩⟩

/-- A constant is added to a register, and moved. -/
theorem stores_spare_data_read :
    let target : Target := ⟨Options.standard, ⟨true, true⟩, 4096⟩
    let cell : Operand := .addr (.ofData .long 0)
    let r : Operand := .reg ⟨.general, 3⟩ .long
    let source : MethodSource :=
      ⟨"read", none, .empty, [⟨[1, 2, 3, 4, 5, 6, 7, 8], 8⟩],
        [.move cell r, .arith .add r cell r none]⟩
    (∀ op ∈ source.ops, op.SparesData) ∧
      ∃ m, (compile target source).1 = .ok m ∧ m.tables.relocations.size = 2 ∧ m.DataReadOnly := by
  intro target cell r source
  have hops : ∀ op ∈ source.ops, op.SparesData := by simp [source, Operation.SparesData]
  have hsize : ((compile target source).1.map fun m => m.tables.relocations.size) = .ok 2 := by
    decide +kernel
  cases hm : (compile target source).1 with
  | ok m =>
    rw [hm] at hsize
    exact ⟨hops, m, rfl, by simpa [Except.map] using hsize, (stores_spare_data hops).1 m hm⟩
  | error err =>
    rw [hm] at hsize
    cases hsize

/-- An exchange on a cell of the data section compiles, and the section is not read only. -/
theorem exists_not_dataReadOnly :
    let target : Target := ⟨{ Options.standard with useStackBanging := false }, ⟨true, true⟩, 4096⟩
    let reg (n : UInt8) : Operand := .reg ⟨.general, n⟩ .long
    let source : MethodSource := ⟨"exchange", none, .empty, [⟨[0, 0, 0, 0, 0, 0, 0, 0], 8⟩],
      [.compareAndSwap (.addr (.ofData .long 0)) (reg 0) (reg 3)]⟩
    ∃ m, (compile target source).1 = .ok m ∧ ¬ m.DataReadOnly := by
  intro target reg source
  let exchange : Decoded := .cmpxchg true .qword (.mem (.rip 0)) .rbx
  let field : Relocation := ⟨5, .data 0 9⟩
  have hcode : ((compile target source).1.map fun m =>
      (m.instructions?, m.tables.relocations.toList)) = .ok (some [(0, exchange, 9)], [field]) := by
    decide +kernel
  cases hm : (compile target source).1 with
  | error err =>
    rw [hm] at hcode
    cases hcode
  | ok m =>
    rw [hm] at hcode
    obtain ⟨his, hrelocations⟩ := Prod.mk.inj (Except.ok.inj hcode)
    refine ⟨m, rfl, ?_⟩
    rintro ⟨is, his', hspares⟩
    obtain rfl := Option.some.inj (his.symm.trans his')
    have hfield : field ∈ m.tables.relocations := by
      rw [← Array.mem_toList_iff, hrelocations]
      exact List.mem_singleton_self field
    have hspare : exchange.SparesMemory :=
      hspares field hfield 0 9 rfl (0, exchange, 9) (List.mem_singleton_self _)
        (by decide) (by decide)
    -- Where the cell holds what `rax` holds, it is overwritten.
    exact absurd (hspare 0x10000 (Machine.initial.setReg .rbx 1) 0x10000) (by decide +kernel)

end MachineCode
