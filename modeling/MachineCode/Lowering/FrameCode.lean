import MachineCode.Lowering.Moves

/-! Code that sets up the frame, takes it down and hands out addresses in it. -/
namespace MachineCode.Lower

open X64

/-- Touch `count` pages below the stack pointer, beginning with the page numbered `i`. -/
def bangPages (page : Nat) : (count i : Nat) → Lower Unit
  | 0, _ => pure ()
  | count + 1, i => do
    let disp ← ofExcept (displacement32 (-((i * page : Nat) : Int)))
    emit (.store true .rax (.based .rsp disp))
    bangPages page count (i + 1)

/-- Touch the pages that the frame occupies and those of the shadow zone, so that a stack overflow
faults on entry. -/
def bangStack : Lower Unit := do
  let d ← get
  let page := max d.target.pageSize 1
  bangPages page (d.target.options.stackShadowPages + (d.frame.size + (page - 1)) / page) 1

/-- Fills a fresh frame. -/
def zapWord : Int32 := 0xC1C1C1C1

/-- Store of the fill word at `offset` from the stack pointer. -/
def zapInstr (offset : Nat) : Instr := .storeImm .dword (.based .rsp (Int32.ofNat offset)) zapWord

/-- An instruction that moves one saved register, from the forms for the two register files. -/
def savedInstr (general : Gpr → Mem → Instr) (floating : Xmm → Mem → Instr) (r : Register)
    (m : Mem) : Except Error Instr :=
  match Gpr.ofRegister? r, Xmm.ofRegister? r with
  | some g, _ => .ok (general g m)
  | none, some x => .ok (floating x m)
  | none, none => .error (.invalidFrame s!"callee-saved {r}")

/-- Emit an instruction for every saved register and its slot. -/
def forSaved (general : Gpr → Mem → Instr) (floating : Xmm → Mem → Instr) : Lower Unit := do
  let area := (← get).frame.saved
  area.registers.zipIdx.forM fun (r, i) => do
    let m := Mem.based .rsp (Int32.ofNat (area.slotOffset i))
    emit (← ofExcept (savedInstr general floating r m))

/-- Allocate the frame and save registers. -/
def pushFrame : Lower Unit := do
  let d ← get
  let size := d.frame.size
  if 0 < size then
    match int32? size with
    | none => throw (.invalidFrame s!"frame size {size}")
    | some imm => emit (.aluImm .sub true (.reg .rsp) imm)
  if d.target.options.zapStackOnEntry then
    (List.range ((size + 3) / 4)).forM fun i => emit (zapInstr (4 * i))
  forSaved (.store true) (.movsStore true)

/-- Restore registers and release the frame. -/
def popFrame : Lower Unit := do
  forSaved (.load true) (.movsLoad true)
  let size := (← get).frame.size
  if 0 < size then emit (.aluImm .add true (.reg .rsp) (Int32.ofNat size))

/-- The register that carries a result of this kind. -/
def resultRegister (kind : Kind) : Register :=
  if kind.isFloating then floatReturnRegister.register else returnRegister.register

def ret (value : Option Operand) : Lower Unit := do
  if let some value := value then mov value (.reg (resultRegister value.kind) value.kind) false
  popFrame
  emit .ret

/-- The address `offset` bytes above the stack pointer. -/
def frameAddress (res : Gpr) (offset : Nat) : Lower Unit := do
  emit (.lea true res (← stackMem offset))

def monitorAddress (index : Nat) (result : Operand) : Lower Unit := do
  let res ← gpr result
  let frame := (← get).frame
  if frame.monitorCount ≤ index then unhandled s!"monitor {index} of {frame.monitorCount}"
  else frameAddress res (frame.monitorSlot index)

/-- The address of a stack block. -/
def stackAllocate (block : Nat) (result : Operand) : Lower Unit := do
  let res ← gpr result
  let blocks := (← get).frame.blocks
  match blocks[block]? with
  | none => unhandled s!"stack block {block} of {blocks.length}"
  | some b => frameAddress res b.offset

end MachineCode.Lower
