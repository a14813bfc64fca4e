import MachineCode.Proofs.Execution.Walks
import MachineCode.Proofs.References.Stock

/-! Sites: a base in memory with the image of a method. Where a chunk stands, the machine executes
its instruction, with objects, data and labels at their addresses. -/
namespace MachineCode

open X64 Chunk Piece

/-- Where a method is installed. -/
structure Site where
  base : Word
  resolver : Resolver
  image : Array UInt8
  dataStart : Nat

/-- The place does not count from the instruction unless it lies in the data section. -/
def Location.Fixed (l : Location) : Prop := l.data = none → l.mem.isRip = false

namespace Site

variable (S : Site)

/-- The address of an offset in the image. -/
def addressOf (p : Nat) : Word := S.base + BitVec.ofNat 64 p

/-- The address of an offset in the data section. -/
def dataAddress (offset : Nat) : Word := S.addressOf (S.dataStart + offset)

/-- The address of a place in memory. -/
def place (machine : Machine) (l : Location) : Word :=
  match l.data with
  | none => machine.effectiveAddress l.mem 0
  | some offset => S.dataAddress offset

/-- A method that consists of these chunks is installed here. -/
def Hosts (cs : List Chunk) (final : Draft) : Prop :=
  ∃ m, Installed cs m final S.base S.resolver S.image ∧ m.dataStart = S.dataStart ∧ final.Stocked

/-- The machine is to execute what stands at `p`, in a state as `P` says. -/
structure Stands (p : Nat) (P : Machine → Prop) (machine : Machine) : Prop where
  loaded : machine.Loaded S.base S.image
  rip : machine.rip = S.addressOf p
  core : P machine.core

/-- The address belongs to the code from `start` up to `stop`. -/
def Span (start stop : Nat) (a : Word) : Prop := ∃ p, start ≤ p ∧ p < stop ∧ a = S.addressOf p

variable {S} {p n : Nat} {P Q : Machine → Prop} {machine machine' : Machine}

theorem addressOf_add (p n : Nat) : S.addressOf p + BitVec.ofNat 64 n = S.addressOf (p + n) := by
  rw [addressOf, addressOf, BitVec.add_assoc, ← BitVec.ofNat_add]

theorem addressOf_inj {q : Nat} (hp : p < 2 ^ 64) (hq : q < 2 ^ 64)
    (h : S.addressOf p = S.addressOf q) :
    p = q := by
  have hn : BitVec.ofNat 64 p = BitVec.ofNat 64 q := by
    simpa only [addressOf, BitVec.add_right_inj] using h
  have := congrArg BitVec.toNat hn
  rwa [BitVec.toNat_ofNat, BitVec.toNat_ofNat, Nat.mod_eq_of_lt hp, Nat.mod_eq_of_lt hq] at this

theorem Span.mono {start stop start' stop' : Nat} (hstart : start' ≤ start) (hstop : stop ≤ stop')
    {a : Word} (h : S.Span start stop a) : S.Span start' stop' a := by
  obtain ⟨p, hle, hlt, rfl⟩ := h
  exact ⟨p, Nat.le_trans hstart hle, Nat.lt_of_lt_of_le hlt hstop, rfl⟩

theorem Stands.mono (h : S.Stands p P machine) (hP : ∀ c, P c → Q c) : S.Stands p Q machine :=
  ⟨h.loaded, h.rip, hP _ h.core⟩

/-- Nothing but control has moved. -/
theorem Stands.moved {q : Nat} (h : S.Stands p P machine) (hcore : machine'.core = machine.core)
    (hrip : machine'.rip = S.addressOf q) : S.Stands q P machine' :=
  ⟨Machine.loaded_core.mp (hcore ▸ Machine.loaded_core.mpr h.loaded), hrip, hcore ▸ h.core⟩

end Site

namespace Chunk.Reads

variable {m : Method} {r : Resolver} {env : Label → Option Nat} {p : Nat} {i : Instr} {j : Decoded}

theorem eq_decoded (h : (Chunk.instr i none).Reads m r env p j) : j = i.decoded := by
  cases h
  rfl

theorem eq_withMem {offset : Nat} (h : (Chunk.instr i (some (.data offset))).Reads m r env p j) :
    ∃ disp : Int32, disp.toInt = (m.dataStart + offset : Nat) - (p + i.encode.length : Nat) ∧
      j = (i.withMem (.rip disp)).decoded := by
  cases h with
  | data hi hdisp => exact ⟨_, hdisp, rfl⟩

end Chunk.Reads

namespace Site.Hosts

variable {S : Site} {P : Machine → Prop} {machine : Machine} {pre post cs : List Chunk} {c : Chunk}
  {final : Draft} {i : Instr}

/-- The slot of an object holds its address. -/
theorem slot (h : S.Hosts cs final) {o : ObjectId} {offset : Nat}
    (he : (o, offset) ∈ final.data.slots) :
    ∃ a, S.resolver.object o = some a ∧
    BytesAt S.image (S.dataStart + offset) (leBytes 8 a.toNat) := by
  obtain ⟨m, hm, hstart, hstocked⟩ := h
  rw [← hstart]
  refine hm.filled.slots ⟨offset, o⟩ ?_
  rw [hm.tables]
  exact hstocked.slots _ he

/-- The bytes of a constant stand where it has been put. -/
theorem constant (h : S.Hosts cs final) {k : DataConstant} {offset : Nat}
    (he : (k, offset) ∈ final.data.constants) : BytesAt S.image (S.dataStart + offset) k.bytes := by
  obtain ⟨m, hm, hstart, hstocked⟩ := h
  intro j hj
  have houtside : m.OutsideSlots (offset + j) := by
    intro x hx
    rw [hm.tables] at hx
    obtain hle | hle := hstocked.apart _ he x hx
    · dsimp only at hle
      exact .inl (by omega)
    · exact .inr (by omega)
  rw [← hstart, Nat.add_assoc, hm.filled.data _ houtside, hm.data]
  exact hstocked.bytes _ he j hj

/-- Where a chunk stands, its instruction is fetched. -/
theorem fetch (h : S.Hosts (pre ++ c :: post) final) (htable : c.isTable = false)
    (hraw : c.isRaw = false) (hloaded : machine.LoadedAt S.base S.image (extent pre) c.size) :
    ∃ m j, m.dataStart = S.dataStart ∧
      c.Reads m S.resolver final.buffer.labelOffset (extent pre) j ∧
      machine.fetch (S.addressOf (extent pre)) = some (j, c.size) := by
  obtain ⟨m, hm, hstart, -⟩ := h
  obtain ⟨j, hreads, hfetch⟩ := hm.fetch hloaded (mem_placed pre c post) htable hraw
  exact ⟨m, j, hstart, hreads, hfetch⟩

/-- There it is executed. -/
theorem step_at (h : S.Hosts (pre ++ c :: post) final) (htable : c.isTable = false)
    (hraw : c.isRaw = false) (hloaded : machine.LoadedAt S.base S.image (extent pre) c.size)
    (hrip : machine.rip = S.addressOf (extent pre)) :
    ∃ m j, m.dataStart = S.dataStart ∧
    c.Reads m S.resolver final.buffer.labelOffset (extent pre) j ∧
      Machine.step machine =
        Machine.execute j (S.addressOf (extent pre + c.size)) (machine.fetched j c.size) := by
  obtain ⟨m, j, hstart, hreads, hfetch⟩ := h.fetch htable hraw hloaded
  rw [← hrip] at hfetch
  refine ⟨m, j, hstart, hreads, ?_⟩
  rw [Machine.step_of_fetch hfetch, hrip, addressOf_add]

theorem step (h : S.Hosts (pre ++ c :: post) final) (htable : c.isTable = false)
    (hraw : c.isRaw = false) (hat : S.Stands (extent pre) P machine) :
    ∃ m j, m.dataStart = S.dataStart ∧
      c.Reads m S.resolver final.buffer.labelOffset (extent pre) j ∧
      Machine.step machine =
        Machine.execute j (S.addressOf (extent pre + c.size)) (machine.fetched j c.size) :=
  h.step_at htable hraw (hat.loaded.part _ _) hat.rip

theorem step_plain (h : S.Hosts (pre ++ .instr i none :: post) final)
    (hat : S.Stands (extent pre) P machine) :
    Machine.step machine = Machine.execute i.decoded (S.addressOf (extent pre + i.encode.length))
      (machine.fetched i.decoded i.encode.length) := by
  obtain ⟨m, j, -, hreads, hstep⟩ := h.step rfl rfl hat
  obtain rfl := hreads.eq_decoded
  exact hstep

/-- The address of an object is the immediate. -/
theorem step_object {dst : Gpr} {v : UInt64} {o : ObjectId}
    (h : S.Hosts (pre ++ .instr (.movAbs dst v) (some (.object o)) :: post) final)
    (hat : S.Stands (extent pre) P machine) : ∃ a : Word, S.resolver.object o = some a ∧
      Machine.step machine = Machine.execute (Instr.movAbs dst ⟨a⟩).decoded
        (S.addressOf (extent pre + (Instr.movAbs dst v).encode.length))
        (machine.fetched (Instr.movAbs dst ⟨a⟩).decoded (Instr.movAbs dst v).encode.length) := by
  obtain ⟨m, j, -, hreads, hstep⟩ := h.step rfl rfl hat
  cases hreads with
  | object ha => exact ⟨_, ha, hstep⟩

/-- An instruction with a memory operand accesses its place, in the data section or not. -/
theorem step_access {i : Mem → Instr} {l : Location} (hi : ∀ m m', (i m).withMem m' = i m')
    (hl : l.Fixed) (h : S.Hosts (pre ++ .instr (i l.mem) (l.data.map .data) :: post) final)
    (hat : S.Stands (extent pre) P machine) : ∃ m' next,
      (∀ machine, Machine.effectiveAddress machine m' next = S.place machine l) ∧
      next = S.addressOf (extent pre + (i l.mem).encode.length) ∧
      Machine.step machine = Machine.execute (i m').decoded next
        (machine.fetched (i m').decoded (i l.mem).encode.length) := by
  obtain ⟨m, j, hstart, hreads, hstep⟩ := h.step rfl rfl hat
  obtain ⟨mem, data⟩ := l
  cases data with
  | none =>
    obtain rfl := hreads.eq_decoded
    exact ⟨mem, _, fun _ => Machine.effectiveAddress_next (hl rfl) _ _, rfl, hstep⟩
  | some offset =>
    obtain ⟨disp, hdisp, rfl⟩ := hreads.eq_withMem
    rw [hi] at hstep
    rw [hstart] at hdisp
    exact ⟨.rip disp, _, effectiveAddress_rip hdisp, rfl, hstep⟩

/-- A branch goes to its label, or control goes on behind it. -/
theorem step_branch_at {short : Bool} {cond : Option Cond} {l : Label}
    (h : S.Hosts (pre ++ .branch short cond l :: post) final)
    (hloaded : machine.LoadedAt S.base S.image (extent pre) (Chunk.branch short cond l).size)
    (hrip : machine.rip = S.addressOf (extent pre)) :
    ∃ target machine', final.buffer.labelOffset l = some target ∧
    Machine.step machine = .ok () machine' ∧
      machine'.core = machine.core ∧ machine'.rip = S.addressOf
        (if cond.all machine.flags.cond then target
          else extent pre + (Chunk.branch short cond l).size) := by
  obtain ⟨m, j, -, hreads, hstep⟩ := h.step_at rfl rfl hloaded hrip
  cases hreads with
  | @branch _ _ _ target disp htarget hdisp =>
    have haddress :
        S.addressOf (extent pre + (Chunk.branch short cond l).size) + BitVec.ofInt 64 disp.toInt =
        S.addressOf target := Region.jump_address S.base hdisp
    have hnext : (machine.fetched (jump cond disp) (Chunk.branch short cond l).size).rip =
        S.addressOf (extent pre + (Chunk.branch short cond l).size) := by
      change machine.rip + _ = _
      rw [hrip, Site.addressOf_add]
    cases cond with
    | none => exact ⟨target, _, htarget, hstep, rfl, haddress⟩
    | some cond =>
      by_cases htaken : machine.flags.cond cond = true
      · refine ⟨target,
          { machine.fetched (jump (some cond) disp) (Chunk.branch short (some cond) l).size with
          rip := S.addressOf (extent pre + (Chunk.branch short (some cond) l).size) +
            BitVec.ofInt 64 disp.toInt }, htarget, ?_, rfl, ?_⟩
        · rw [hstep]
          change (if machine.flags.cond cond then _ else _ : MachineStep Unit) _ = _
          rw [if_pos htaken]
          rfl
        · simpa [htaken] using haddress
      · refine ⟨target,
          machine.fetched (jump (some cond) disp) (Chunk.branch short (some cond) l).size,
          htarget, ?_, rfl, ?_⟩
        · rw [hstep]
          change (if machine.flags.cond cond then _ else _ : MachineStep Unit) _ = _
          rw [if_neg htaken]
          rfl
        · simpa [htaken] using hnext

theorem step_branch {short : Bool} {cond : Option Cond} {l : Label}
    (h : S.Hosts (pre ++ .branch short cond l :: post) final)
    (hat : S.Stands (extent pre) P machine) :
    ∃ target machine', final.buffer.labelOffset l = some target ∧
    Machine.step machine = .ok () machine' ∧
      machine'.core = machine.core ∧ machine'.rip = S.addressOf
        (if cond.all machine.flags.cond then target
          else extent pre + (Chunk.branch short cond l).size) :=
  h.step_branch_at (hat.loaded.part _ _) hat.rip

end Site.Hosts

end MachineCode
