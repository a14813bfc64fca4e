import MachineCode.Proofs.Decoding.Relative
import MachineCode.Proofs.Labels.Resolved
import MachineCode.SideTables

/-! Code as the chunks in which it is emitted: instructions, padding, branches and jump tables. All
of them but the tables are single instructions for a decoder, and the fields that installation
fills in lie inside of those. Bytes of a template's own may be anything. -/
namespace MachineCode

open X64 CodeBuffer Piece

/-- What a field of an instruction refers to. -/
inductive Link where
  | object (o : ObjectId)
  | call (target : CallTarget)
  | data (offset : Nat)
  deriving DecidableEq, Repr

/-- Bytes of the field. -/
def RelocationKind.width : RelocationKind → Nat
  | .object _ => 8
  | .call _ | .data .. => 4

namespace Link

/-- Where in the instruction the field stands, if the instruction has one for such a reference. -/
def field? (i : Instr) : Link → Option Nat
  | object _ =>
    match i with
    | .movAbs .. => some (i.encode.length - 8)
    | _ => none
  | call _ => if i = .call then some 1 else none
  | data _ => if i.mem? = some (.rip 0) then i.encode.ripField else none

/-- The relocation for an instruction that ends at `stop`. -/
def kind (stop : Nat) : Link → RelocationKind
  | object o => .object o
  | call target => .call target
  | data offset => .data offset stop

theorem length_encodeMovAbs (dst : Gpr) (value : UInt64) :
    (Instr.encodeMovAbs dst value).length = 10 := by
  have hbare : ∀ n : Fin 16, ((((Opcode.one 0xB8).withWide true).plus
      (Gpr.low3 ⟨n⟩)).bare 0 n.val).bytes.length = 2 := by decide
  simp [Instr.encodeMovAbs, Encoding.withImmediate, Encoding.length, hbare dst.num]

/-- The field lies in the instruction, and something stands in front of it. -/
theorem field_mem {link : Link} {i : Instr} {k : Nat} (h : link.field? i = some k) (stop : Nat) :
    0 < k ∧ k + (link.kind stop).width ≤ i.encode.length := by
  cases link with
  | object o =>
    cases i with
    | movAbs dst value =>
      cases h
      simp only [Instr.encode, length_encodeMovAbs, kind, RelocationKind.width]
      omega
    | _ => cases h
  | call target =>
    simp only [field?] at h
    split at h
    · rename_i hi
      cases h
      subst hi
      exact ⟨Nat.one_pos, Nat.le_refl 5⟩
    · cases h
  | data offset =>
    simp only [field?] at h
    split at h
    · rename_i hm
      obtain ⟨front, back, hne, hzero, -⟩ := Instr.exists_around_zero hm
      rw [hzero] at h ⊢
      cases h
      have := List.length_pos_iff.mpr hne
      simp only [Encoding.length, List.length_append, length_leBytes, kind, RelocationKind.width]
      omega
    · cases h

end Link

inductive Chunk where
  | instr (i : Instr) (link : Option Link)
  | nop (n : Nat)
  | branch (short : Bool) (cond : Option Cond) (l : Label)
  | table (t : JumpTable) (targets : List Label)
  | raw (bytes : List UInt8)
  deriving Repr

namespace Chunk

def pieces : Chunk → List Piece
  | instr i _ => [.bytes i.encode.bytes]
  | nop n => [.bytes (X64.nop n)]
  | branch true cond l => [.bytes [shortOpcode cond], .ref l .rel8]
  | branch false cond l => [.bytes (longOpcode cond), .ref l .rel32]
  | table t targets => targets.map fun l => .ref l (.table t.position)
  | raw bs => [.bytes bs]

def size (c : Chunk) : Nat := total c.pieces

def isTable : Chunk → Bool
  | table .. => true
  | _ => false

def isRaw : Chunk → Bool
  | raw _ => true
  | _ => false

/-- The field that installation fills in, in a chunk at `offset`. -/
def relocation? (offset : Nat) : Chunk → Option Relocation
  | instr i (some link) =>
    (link.field? i).map fun k => ⟨offset + k, link.kind (offset + i.encode.length)⟩
  | _ => none

def table? : Chunk → Option JumpTable
  | table t _ => some t
  | _ => none

/-- What is required of a chunk at `offset`. -/
def ValidAt (offset : Nat) : Chunk → Prop
  | instr i link => i.Encodable ∧ ∀ l ∈ link, (l.field? i).isSome
  | nop n => 0 < n ∧ n ≤ 8
  | branch .. | raw _ => True
  | table t targets => t.position = offset ∧ t.high.toInt - t.low.toInt + 1 = targets.length

/-- The pieces of a sequence of chunks. -/
def all (cs : List Chunk) : List Piece := cs.flatMap pieces

/-- The bytes of a sequence of chunks. -/
def extent (cs : List Chunk) : Nat := total (all cs)

/-- The chunks of a sequence that starts at `offset`, with their offsets. -/
def placed : (offset : Nat) → List Chunk → List (Nat × Chunk)
  | _, [] => []
  | offset, c :: cs => (offset, c) :: placed (offset + c.size) cs

@[simp] theorem all_nil : all [] = [] := rfl

@[simp] theorem all_cons (c : Chunk) (cs : List Chunk) : all (c :: cs) = c.pieces ++ all cs := by
  simp [all]

@[simp] theorem all_append (cs ds : List Chunk) : all (cs ++ ds) = all cs ++ all ds := by
  simp [all]

@[simp] theorem extent_nil : extent [] = 0 := rfl

@[simp] theorem extent_cons (c : Chunk) (cs : List Chunk) :
    extent (c :: cs) = c.size + extent cs := by
  simp [extent, size]

@[simp] theorem extent_append (cs ds : List Chunk) : extent (cs ++ ds) = extent cs + extent ds := by
  simp [extent]

theorem placed_append (offset : Nat) (cs ds : List Chunk) :
    placed offset (cs ++ ds) = placed offset cs ++ placed (offset + extent cs) ds := by
  induction cs generalizing offset with
  | nil => rfl
  | cons c cs ih => simp [placed, ih, Nat.add_assoc]

/-- Chunks stay where they are when others follow. -/
theorem mem_placed_append {cs ds : List Chunk} {x : Nat × Chunk} (h : x ∈ placed 0 cs) :
    x ∈ placed 0 (cs ++ ds) := by
  rw [placed_append]
  exact List.mem_append_left _ h

/-- A chunk starts where those in front end. -/
theorem mem_placed (pre : List Chunk) (c : Chunk) (post : List Chunk) :
    (extent pre, c) ∈ placed 0 (pre ++ c :: post) := by
  rw [placed_append, Nat.zero_add]
  exact List.mem_append_right _ (List.mem_cons_self ..)

@[simp] theorem size_instr (i : Instr) (link : Option Link) :
    (instr i link).size = i.encode.length := rfl

theorem size_nop {n : Nat} (h : n ≤ 8) : (nop n).size = n := by simp [size, pieces, Piece.length, h]

/-- A field to be filled in belongs to an instruction. -/
theorem relocation?_eq_some {c : Chunk} {p : Nat} {x : Relocation} (h : c.relocation? p = some x) :
    ∃ i link k, c = instr i (some link) ∧ link.field? i = some k ∧
      x = ⟨p + k, link.kind (p + i.encode.length)⟩ := by
  cases c with
  | instr i link =>
    cases link with
    | none => cases h
    | some link =>
      obtain ⟨k, hk, rfl⟩ := Option.map_eq_some_iff.mp h
      exact ⟨i, link, k, rfl, hk, rfl⟩
  | _ => cases h

/-- The field lies in its chunk, and not at the start. -/
theorem relocation?_inside {c : Chunk} {p : Nat} {x : Relocation} (h : c.relocation? p = some x) :
    p < x.offset ∧ x.offset + x.kind.width ≤ p + c.size := by
  obtain ⟨i, link, k, rfl, hk, rfl⟩ := relocation?_eq_some h
  obtain ⟨hpos, hle⟩ := Link.field_mem hk (p + i.encode.length)
  simp only [size_instr]
  omega

theorem size_table (t : JumpTable) (targets : List Label) :
    (table t targets).size = 4 * targets.length := by
  induction targets with
  | nil => rfl
  | cons l targets ih =>
    simp only [size, pieces, List.map_cons, total_cons, Piece.length, ReferenceKind.width,
      List.length_cons] at ih ⊢
    omega

/-! ### Decoding -/

/-- The labels that a chunk refers to are bound, and its fields can hold the distances. -/
def Resolved (env : Label → Option Nat) (offset : Nat) (c : Chunk) : Prop :=
  ∀ l, ∀ s ∈ sites l offset c.pieces, ∃ p bs, env l = some p ∧ field s p = .ok bs

/-- The instruction that a decoder finds in a chunk at `offset`; a table is none, and raw bytes need
not be one. -/
def decodedAt (env : Label → Option Nat) (offset : Nat) : Chunk → Decoded
  | instr i _ => i.decoded
  | branch short cond l =>
    let size := (branch short cond l).size
    jump cond (Int32.ofInt ((env l).getD 0 - (offset + size : Nat)))
  | nop _ | table .. | raw _ => .nop

theorem decodes_nop {n : Nat} (hpos : 0 < n) (hle : n ≤ 8) : Decodes (X64.nop n) .nop := by
  match n, hpos, hle with
  | 1, _, _ | 2, _, _ | 3, _, _ | 4, _, _ | 5, _, _ | 6, _, _ | 7, _, _ | 8, _, _ =>
    exact fun _ => rfl

/-- A branch goes to where its label is bound. -/
theorem exists_decodes_branch {env : Label → Option Nat} {offset : Nat} {short : Bool}
    {cond : Option Cond} {l : Label} (hr : (branch short cond l).Resolved env offset) :
    ∃ p, ∃ d : Int32, env l = some p ∧ d.toInt = p - (offset + (branch short cond l).size : Nat) ∧
      Decodes (render env offset (branch short cond l).pieces) (jump cond d) := by
  cases short with
  | true =>
    obtain ⟨p, bs, hp, hf⟩ := hr l ⟨offset + 1, .rel8⟩ (by simp [pieces, sites])
    obtain ⟨d, hd, hdisp⟩ := decodes_short_field cond hf
    have hbytes : render env offset (branch true cond l).pieces = shortOpcode cond :: bs := by
      simp [pieces, render, hp, fieldBytes, hf]
    exact ⟨p, d, hp, hdisp, hbytes ▸ hd⟩
  | false =>
    obtain ⟨p, bs, hp, hf⟩ :=
      hr l ⟨offset + (longOpcode cond).length, .rel32⟩ (by simp [pieces, sites])
    obtain ⟨d, hd, hdisp⟩ := decodes_long_field cond hf
    have hbytes : render env offset (branch false cond l).pieces = longOpcode cond ++ bs := by
      simp [pieces, render, hp, fieldBytes, hf]
    refine ⟨p, d, hp, ?_, hbytes ▸ hd⟩
    rw [hdisp]
    simp [size, pieces, Piece.length, ReferenceKind.width]

/-- A chunk that is neither a table nor raw bytes is one instruction. -/
theorem decodes_decodedAt {env : Label → Option Nat} {offset : Nat} {c : Chunk}
    (hc : c.ValidAt offset) (hr : c.Resolved env offset) (htable : c.isTable = false)
    (hraw : c.isRaw = false) :
    Decodes (render env offset c.pieces) (c.decodedAt env offset) := by
  cases c with
  | instr i link =>
    simp only [pieces, render, List.append_nil]
    exact Instr.decodes_encode i hc.1
  | nop n =>
    simp only [pieces, render, List.append_nil]
    exact decodes_nop hc.1 hc.2
  | branch short cond l =>
    obtain ⟨p, d, hp, hdisp, hdecodes⟩ := exists_decodes_branch hr
    have hi : (branch short cond l).decodedAt env offset = jump cond d := by
      simp only [decodedAt, hp, Option.getD_some]
      rw [← hdisp, Int32.ofInt_toInt]
    rwa [hi]
  | table t targets => cases htable
  | raw bs => cases hraw

end Chunk

end MachineCode
