import MachineCode.Proofs.Decoding.Operations
import MachineCode.Proofs.Effects.Execution
import MachineCode.Proofs.Execution.Interpretation
import MachineCode.Proofs.Installation.Linked

/-! Installed code in the memory of the machine. Where a chunk starts, the machine finds one
instruction: that of the chunk, with the field filled in. -/
namespace MachineCode

open X64 Chunk Piece

/-! ### Memory -/

/-- The instruction that starts at `pc`. -/
def Machine.fetch (machine : Machine) (pc : Word) : Option (Decoded × Nat) :=
  decode (machine.memory.read pc fetchLength)

/-- The image lies in memory from `base` on. -/
def Machine.Loaded (machine : Machine) (base : Word) (image : Array UInt8) : Prop :=
  ∀ i b, image[i]? = some b → machine.memory.get (base + BitVec.ofNat 64 i) = b

/-- The `n` bytes of the image from `p` on lie in memory, whatever has become of the others. -/
def Machine.LoadedAt (machine : Machine) (base : Word) (image : Array UInt8) (p n : Nat) : Prop :=
  ∀ k < n, ∀ b, image[p + k]? = some b → machine.memory.get (base + BitVec.ofNat 64 (p + k)) = b

/-- An image that has been loaded lies in memory. -/
theorem Machine.loaded_load (machine : Machine) (base : Word) {image : Array UInt8}
    (h : image.size ≤ 2 ^ 64) : (machine.load base image).Loaded base image := by
  intro i b hi
  have hlt : i < 2 ^ 64 := Nat.lt_of_lt_of_le (Array.getElem?_eq_some_iff.mp hi).1 h
  have hoffset : (base + BitVec.ofNat 64 i - base).toNat = i := by
    rw [BitVec.add_comm, BitVec.add_sub_cancel, BitVec.toNat_ofNat, Nat.mod_eq_of_lt hlt]
  change (machine.memory.write base image).get _ = b
  rw [Memory.get_write, hoffset, hi, Option.getD_some]

section Memory

variable {machine machine' : Machine} {base : Word} {image : Array UInt8} {p : Nat}
  {bytes : List UInt8} {i : Decoded}

theorem Machine.Loaded.congr (h : machine.Loaded base image)
    (hsame : ∀ a, machine'.memory.get a = machine.memory.get a) : machine'.Loaded base image :=
  fun i b hi => (hsame _).trans (h i b hi)

theorem Machine.Loaded.part (h : machine.Loaded base image) (p n : Nat) :
    machine.LoadedAt base image p n :=
  fun k _ b hb => h (p + k) b hb

/-- Bytes of the image are read from memory. -/
theorem Machine.LoadedAt.read (h : machine.LoadedAt base image p bytes.length)
    (hat : BytesAt image p bytes) {n : Nat} (hn : bytes.length ≤ n) :
    ∃ rest, machine.memory.read (base + BitVec.ofNat 64 p) n = bytes ++ rest := by
  have hprefix : bytes <+: machine.memory.read (base + BitVec.ofNat 64 p) n := by
    refine List.prefix_iff_getElem?.mpr fun k hk => ?_
    have haddress :
        base + BitVec.ofNat 64 p + BitVec.ofNat 64 k = base + BitVec.ofNat 64 (p + k) := by
      rw [BitVec.add_assoc, ← BitVec.ofNat_add]
    have himage : image[p + k]? = some bytes[k] := by rw [hat k hk, List.getElem?_eq_getElem hk]
    simp [Memory.read, show k < n by omega, haddress, h k hk _ himage]
  obtain ⟨rest, hrest⟩ := hprefix
  exact ⟨rest, hrest.symm⟩

theorem Machine.Loaded.read (h : machine.Loaded base image) (hat : BytesAt image p bytes) {n : Nat}
    (hn : bytes.length ≤ n) :
    ∃ rest, machine.memory.read (base + BitVec.ofNat 64 p) n = bytes ++ rest :=
  (h.part p bytes.length).read hat hn

/-- An instruction of the image is fetched. -/
theorem Machine.LoadedAt.fetch (h : machine.LoadedAt base image p bytes.length)
    (hat : BytesAt image p bytes) (hd : Decodes bytes i)
    (hlen : bytes.length ≤ Machine.fetchLength) :
    machine.fetch (base + BitVec.ofNat 64 p) = some (i, bytes.length) := by
  obtain ⟨rest, hrest⟩ := h.read hat hlen
  rw [Machine.fetch, hrest, hd]

end Memory

/-! ### Chunks in an image -/

/-- What stands in the image for a chunk at `p`. Objects have their addresses, and the data section
and labels are at the right distance. -/
inductive Chunk.Reads (m : Method) (r : Resolver) (env : Label → Option Nat) (p : Nat) :
    Chunk → Decoded → Prop
  | plain (i : Instr) : Reads m r env p (instr i none) i.decoded
  | object {dst : Gpr} {v : UInt64} {o : ObjectId} {a : Word} (ha : r.object o = some a) :
    Reads m r env p (instr (.movAbs dst v) (some (.object o))) (Instr.movAbs dst ⟨a⟩).decoded
  | call (target : CallTarget) (disp : Int32) :
    Reads m r env p (instr .call (some (.call target))) (.call (.rel disp))
  | data {i : Instr} {offset : Nat} {disp : Int32} (hi : i.mem? = some (.rip 0))
    (hdisp : disp.toInt = (m.dataStart + offset : Nat) - (p + i.encode.length : Nat)) :
    Reads m r env p (instr i (some (.data offset))) (i.withMem (.rip disp)).decoded
  | nop (n : Nat) : Reads m r env p (nop n) .nop
  | branch {short : Bool} {cond : Option Cond} {l : Label} {target : Nat} {disp : Int32}
    (htarget : env l = some target)
    (hdisp : disp.toInt = target - (p + (branch short cond l).size : Nat)) :
    Reads m r env p (branch short cond l) (jump cond disp)

/-- The method consists of these chunks, and this is its image. -/
structure Installed (cs : List Chunk) (m : Method) (d : Draft) (base : Word) (r : Resolver)
    (image : Array UInt8) : Prop extends Laid cs m d where
  filled : m.Filled base r image

theorem Laid.installed {cs : List Chunk} {m : Method} {d : Draft} {base : Word} {r : Resolver}
    {image : Array UInt8} (h : Laid cs m d) (hi : m.install base r = .ok image) :
    Installed cs m d base r image :=
  ⟨h, Method.filled_of_install h.fields hi⟩

namespace Installed

variable {cs : List Chunk} {m : Method} {d : Draft} {base : Word} {r : Resolver}
  {image : Array UInt8}
  {p : Nat} {c : Chunk}

theorem size_branch_le (short : Bool) (cond : Option Cond) (l : Label) :
    (branch short cond l).size ≤ Machine.fetchLength := by
  cases short <;> cases cond <;> simp [Chunk.size, pieces, Piece.length, ReferenceKind.width,
    longOpcode, Machine.fetchLength]

/-- The image has an instruction where a chunk starts. -/
theorem exists_reads (h : Installed cs m d base r image) (hc : (p, c) ∈ placed 0 cs)
    (htable : c.isTable = false) (hraw : c.isRaw = false) :
    ∃ i bytes, c.Reads m r d.buffer.labelOffset p i ∧ BytesAt image p bytes ∧ Decodes bytes i ∧
      bytes.length = c.size ∧ c.size ≤ Machine.fetchLength := by
  have hvalid := h.sound.valid _ hc
  cases c with
  | instr i link =>
    have hencoded := Instr.length_encode_le i
    cases link with
    | none =>
      have hat := h.bytesAt_plain h.filled hc rfl
      rw [pieces, render, render, List.append_nil] at hat
      exact ⟨_, _, .plain i, hat, Instr.decodes_encode i hvalid.1, rfl, hencoded⟩
    | some link =>
      cases link with
      | object o =>
        obtain ⟨dst, v, rfl⟩ : ∃ dst v, i = .movAbs dst v := by
          have hfield := hvalid.2 _ rfl
          cases i <;> first | exact ⟨_, _, rfl⟩ | cases hfield
        obtain ⟨a, ha, hat⟩ := h.bytesAt_object h.filled hc
        refine ⟨_, _, .object ha, hat, Instr.decodes_encode _ hvalid.1, ?_, hencoded⟩
        exact (Link.length_encodeMovAbs dst ⟨a⟩).trans (Link.length_encodeMovAbs dst v).symm
      | call target =>
        obtain ⟨-, disp, rfl, -, -, hat⟩ := h.bytesAt_call h.filled hc
        refine ⟨_, _, .call target disp, hat, Instr.decodes_call disp, ?_, hencoded⟩
        rw [List.length_append, length_leBytes]
        rfl
      | data offset =>
        obtain ⟨disp, hi, hdisp, hlen, hat⟩ := h.bytesAt_data h.filled hc
        exact ⟨_, _, .data hi hdisp, hat,
          Instr.decodes_encode _ (Instr.encodable_withMem_rip hi disp), hlen, hencoded⟩
  | nop n =>
    have hat := h.bytesAt_plain h.filled hc rfl
    rw [pieces, render, render, List.append_nil] at hat
    refine ⟨_, _, .nop n, hat, decodes_nop hvalid.1 hvalid.2, rfl, ?_⟩
    rw [Chunk.size_nop hvalid.2]
    exact Nat.le_trans hvalid.2 (by decide)
  | branch short cond l =>
    have hat := h.bytesAt_plain h.filled hc rfl
    obtain ⟨target, disp, htarget, hdisp, hd⟩ := exists_decodes_branch (h.resolved hc)
    exact ⟨_, _, .branch htarget hdisp, hat, hd, length_render _ _ _, size_branch_le short cond l⟩
  | table t targets => cases htable
  | raw bytes => cases hraw

/-- Where a chunk starts, the machine finds its instruction. -/
theorem fetch (h : Installed cs m d base r image) {machine : Machine}
    (hloaded : machine.LoadedAt base image p c.size) (hc : (p, c) ∈ placed 0 cs)
    (htable : c.isTable = false) (hraw : c.isRaw = false) :
    ∃ i, c.Reads m r d.buffer.labelOffset p i ∧
      machine.fetch (base + BitVec.ofNat 64 p) = some (i, c.size) := by
  obtain ⟨i, bytes, hreads, hat, hd, hsize, hle⟩ := h.exists_reads hc htable hraw
  refine ⟨i, hreads, ?_⟩
  rw [← hsize] at hloaded ⊢
  exact hloaded.fetch hat hd (hsize ▸ hle)

end Installed

/-! ### Steps -/

namespace Machine

/-- The state in which an instruction is executed that has been fetched. -/
def fetched (machine : Machine) (i : Decoded) (n : Nat) : Machine :=
  { machine with
    pc := machine.rip
    rip := machine.rip + BitVec.ofNat 64 n
    executed := machine.executed.push (machine.rip, i.insn) }

/-- One step executes the instruction that is fetched. -/
theorem step_of_fetch {machine : Machine} {i : Decoded} {n : Nat}
    (h : machine.fetch machine.rip = some (i, n)) :
    step machine = execute i (machine.rip + BitVec.ofNat 64 n) (machine.fetched i n) := by
  have hfetch : fetchInsn { machine with pc := machine.rip } machine.rip = some (i.insn, n) := by
    rw [fetchInsn, Insn.decode_eq]
    exact congrArg _ h
  unfold step
  rw [Step.modify_bind, Step.get_bind]
  simp only [hfetch, interpret_insn]
  rfl

end Machine

end MachineCode
