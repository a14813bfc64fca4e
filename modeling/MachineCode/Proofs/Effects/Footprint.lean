import MachineCode.Proofs.Decoding.RoundTrip
import MachineCode.Proofs.Decoding.Stream

/-! What an instruction may overwrite: registers of either file, and one place in memory. -/
namespace MachineCode.X64

/-- `store?` is a place in memory with its number of bytes. `leaves` says that control may go
elsewhere or that the stack pointer moves. -/
structure Footprint where
  gprs : List Gpr
  xmms : List Xmm
  store? : Option (Mem × Nat)
  leaves : Bool
  deriving DecidableEq, Repr

namespace Footprint

def nothing : Footprint := ⟨[], [], none, false⟩
def gpr (r : Gpr) : Footprint := ⟨[r], [], none, false⟩
def xmm (x : Xmm) : Footprint := ⟨[], [x], none, false⟩
def memory (m : Mem) (n : Nat) : Footprint := ⟨[], [], some (m, n), false⟩
def transfer : Footprint := ⟨[], [], none, true⟩

/-- A destination of width `w`. -/
def rm (w : Width) : Rm → Footprint
  | .reg r => gpr r
  | .mem m => memory m w.bytes

theorem mem?_rm {w : Width} {x : Rm} {m : Mem} {n : Nat} (h : (rm w x).store? = some (m, n)) :
    x.mem? = some m := by
  cases x with
  | reg r => cases h
  | mem m' =>
    cases h
    rfl

end Footprint

namespace Decoded

open Footprint in
def footprint : Decoded → Footprint
  | mov w dst _ | shift _ w dst _ | movFromXmm w dst _ => rm w dst
  | unary .not w x | unary .neg w x => rm w x
  | setcc _ dst => rm .byte dst
  | alu op w dst _ => if op = .cmp then nothing else rm w dst
  | cmpxchg _ w dst _ => { rm w dst with gprs := .rax :: (rm w dst).gprs }
  | movzx _ dst _ _ | movsx _ dst _ _ | lea _ dst _ | imul _ dst _ _ | bitScan _ _ dst _
  | cmov _ _ dst _ | cvtToInt _ _ dst _ => gpr dst
  | unary .mul .. | unary .imul .. | unary .div .. | unary .idiv .. =>
    ⟨[.rax, .rdx], [], none, false⟩
  | cdq | cqo => gpr .rdx
  | movs _ (.reg dst) _ | movap _ dst _ | sse _ _ dst _ | packed _ _ dst _ | cvtFromInt _ _ dst _
  | cvtFloat _ dst _ | movToXmm _ dst _ => xmm dst
  | movs double (.mem m) _ => memory m (Width.ofWide double).bytes
  | jcc .. | jmp _ | call _ | ret | push _ | pop _ => transfer
  | test .. | ucomis .. | nop | int3 | ud2 | pause | mfence => nothing

end Decoded

namespace Instr

def footprint (i : Instr) : Footprint := i.decoded.footprint

@[simp] theorem footprint_movImm (wide : Bool) (dst : Gpr) (value : UInt64) :
    (movImm wide dst value).footprint = .gpr dst := by
  simp only [footprint, decoded, decodedMovImm]
  split <;> rfl

@[simp] theorem footprint_extend (ext : Extension) (dst : Gpr) (src : Rm) :
    (extend ext dst src).footprint = .gpr dst := by
  cases ext <;> rfl

@[simp] theorem footprint_alu (op : AluOp) (wide : Bool) (dst : Gpr) (src : Rm) :
    (alu op wide dst src).footprint = if op = .cmp then .nothing else .gpr dst := rfl

@[simp] theorem footprint_aluImm (op : AluOp) (wide : Bool) (dst : Gpr) (imm : Int32) :
    (aluImm op wide (.reg dst) imm).footprint = if op = .cmp then .nothing else .gpr dst := rfl

theorem footprint_test (wide : Bool) (a : Rm) (b : Gpr) : (test wide a b).footprint = .nothing := by
  cases a <;> rfl

/-- What is stored to is the memory operand. -/
theorem mem?_of_store? {i : Instr} {m : Mem} {n : Nat} (h : i.footprint.store? = some (m, n)) :
    i.mem? = some m := by
  cases i with
  | alu op wide dst src =>
    rw [footprint_alu] at h
    split at h <;> cases h
  | aluStore op wide dst src | aluImm op wide dst imm =>
    simp only [footprint, decoded, Decoded.footprint] at h
    split at h
    · cases h
    · exact Footprint.mem?_rm h
  | extend ext dst src =>
    rw [footprint_extend] at h
    cases h
  | movImm wide dst value =>
    rw [footprint_movImm] at h
    cases h
  | test wide a b =>
    rw [footprint_test] at h
    cases h
  | _ => first | exact Footprint.mem?_rm h | cases h <;> rfl

theorem length_pos {i : Instr} (h : i.Encodable) : 0 < i.encode.length :=
  List.length_pos_iff.mpr (decodes_encode i h).ne_nil

theorem encodable_of_none {i : Instr} (hi : i.mem? = none) : i.Encodable :=
  fun m hm => by rw [hi] at hm; cases hm

theorem encodable_of_some {i : Instr} {m : Mem} (hi : i.mem? = some m) (hm : m.Encodable) :
    i.Encodable :=
  fun m' hm' => by rw [hi] at hm'; cases hm'; exact hm

end Instr

end MachineCode.X64
