import MachineCode.Proofs.Effects.Context
import MachineCode.Proofs.Emission.Chunks
import MachineCode.Proofs.Steps

/-! The invariant of a method while it is compiled. Its code is a sequence of chunks, in which every
bound label and every recorded position is the start of an instruction or the end; relocations and
jump tables are those of the chunks. -/
namespace MachineCode

open X64 CodeBuffer

/-! ### Templates without bytes of their own -/

/-- No micro-operation inserts bytes. -/
def Template.RawFree (t : Template) : Prop :=
  ∀ op ∈ t.fastPath ++ t.slowPath.getD [], ∀ bytes, op ≠ .rawBytes bytes

/-- The template of the operation, if it is one, inserts no bytes. -/
def Operation.RawFree : Operation → Prop
  | .template t _ _ _ => t.RawFree
  | _ => True

/-! ### Positions -/

namespace Chunk

/-- An instruction starts here. -/
def Starts (cs : List Chunk) (p : Nat) : Prop := ∃ c, (p, c) ∈ placed 0 cs ∧ c.isTable = false

/-- An instruction starts here, or the code ends. -/
def Boundary (cs : List Chunk) (p : Nat) : Prop := p = extent cs ∨ Starts cs p

/-- A call ends at the return address of its record. -/
def EndsCall (cs : List Chunk) (s : CallSite) : Prop :=
  Boundary cs s.pc ∧ ∃ i link dst start, (start, instr i link) ∈ placed 0 cs ∧
    i.decoded = .call dst ∧ s.size = i.encode.length ∧ s.pc = start + s.size

/-- The read of the safepoint page. -/
def safepointInstr : Instr := .test false (.mem (.based safepointLatch 0)) .rax

/-- The chunks do not begin with a table, so that they can follow where labels are bound. -/
def Leads (new : List Chunk) : Prop := ∀ c ∈ new.head?, c.isTable = false

variable {cs new : List Chunk} {p : Nat}

theorem Starts.append (h : Starts cs p) : Starts (cs ++ new) p := by
  obtain ⟨c, hmem, hc⟩ := h
  exact ⟨c, mem_placed_append hmem, hc⟩

theorem Boundary.append (h : Boundary cs p) (hnew : Leads new) : Boundary (cs ++ new) p := by
  obtain rfl | h := h
  · cases new with
    | nil => exact .inl (by simp)
    | cons c new =>
      exact .inr ⟨c, mem_placed cs c new, hnew c rfl⟩
  · exact .inr h.append

theorem EndsCall.append {s : CallSite} (h : EndsCall cs s) (hnew : Leads new) :
    EndsCall (cs ++ new) s := by
  obtain ⟨hpc, i, link, dst, start, hmem, hrest⟩ := h
  exact ⟨hpc.append hnew, i, link, dst, start, mem_placed_append hmem, hrest⟩

theorem boundary_extent (cs : List Chunk) : Boundary cs (extent cs) := .inl rfl

theorem valid_padding {ns : List Nat} (hns : ∀ n ∈ ns, 0 < n ∧ n ≤ 8) {offset : Nat}
    {x : Nat × Chunk} (hx : x ∈ placed offset (ns.map nop)) : x.2.ValidAt x.1 := by
  induction ns generalizing offset with
  | nil => simp [placed] at hx
  | cons n ns ih =>
    obtain rfl | hx := List.mem_cons.mp hx
    · exact hns n (by simp)
    · exact ih (fun m hm => hns m (by simp [hm])) hx

theorem relocations_padding (ns : List Nat) (offset : Nat) :
    ((placed offset (ns.map nop)).filterMap fun x => x.2.relocation? x.1) = [] := by
  induction ns generalizing offset with
  | nil => rfl
  | cons n ns ih => rw [List.map_cons, placed, List.filterMap_cons_none rfl, ih]

theorem all_padding (ns : List Nat) : all (ns.map nop) = (ns.map X64.nop).map .bytes := by
  induction ns with
  | nil => rfl
  | cons n ns ih => simp [pieces, ih]

end Chunk

open Chunk

/-! ### Side tables -/

/-- The side tables are about these chunks. -/
structure Noted (cs : List Chunk) (t : SideTables) : Prop where
  relocations : t.relocations.toList = (placed 0 cs).filterMap fun x => x.2.relocation? x.1
  jumpTables : t.jumpTables.toList = cs.filterMap table?
  callSites : ∀ s ∈ t.callSites, EndsCall cs s
  safepoints : ∀ s ∈ t.safepoints, (s.pc, instr safepointInstr none) ∈ placed 0 cs
  implicitExceptions : ∀ e ∈ t.implicitExceptions, Starts cs e.pc
  marks : ∀ m ∈ t.marks, Boundary cs m.pc

namespace Noted

variable {cs new : List Chunk} {t : SideTables} {seen : List (String × Nat)}

theorem empty : Noted [] .empty := by
  constructor <;> simp [SideTables.empty, placed]

/-- Further chunks bring their relocations and tables with them. -/
theorem append {r : Array Relocation} {j : Array JumpTable} (h : Noted cs t) (hnew : Leads new)
    (hr : r.toList = t.relocations.toList ++
      (placed (extent cs) new).filterMap fun x => x.2.relocation? x.1)
    (hj : j.toList = t.jumpTables.toList ++ new.filterMap table?) :
    Noted (cs ++ new) { t with relocations := r, jumpTables := j, seen := seen } where
  relocations := by
    rw [placed_append, List.filterMap_append, ← h.relocations, Nat.zero_add]
    exact hr
  jumpTables := by
    rw [List.filterMap_append, ← h.jumpTables]
    exact hj
  callSites s hs := (h.callSites s hs).append hnew
  safepoints s hs := mem_placed_append (h.safepoints s hs)
  implicitExceptions e he := (h.implicitExceptions e he).append
  marks m hm := (h.marks m hm).append hnew

/-! Records that are about the chunks may be added. -/

theorem push_call {s : CallSite} (h : Noted cs t) (hs : EndsCall cs s) :
    Noted cs { t with callSites := t.callSites.push s, seen := seen } :=
  { h with callSites := Array.forall_mem_push.mpr ⟨hs, h.callSites⟩ }

theorem push_safepoint {s : Safepoint} (h : Noted cs t)
    (hs : (s.pc, .instr safepointInstr none) ∈ placed 0 cs) :
    Noted cs { t with safepoints := t.safepoints.push s, seen := seen } :=
  { h with safepoints := Array.forall_mem_push.mpr ⟨hs, h.safepoints⟩ }

theorem push_trap {e : ImplicitException} (h : Noted cs t) (he : Starts cs e.pc) :
    Noted cs { t with implicitExceptions := t.implicitExceptions.push e, seen := seen } :=
  { h with implicitExceptions := Array.forall_mem_push.mpr ⟨he, h.implicitExceptions⟩ }

theorem push_mark {m : Mark} (h : Noted cs t) (hm : Boundary cs m.pc) :
    Noted cs { t with marks := t.marks.push m } :=
  { h with marks := Array.forall_mem_push.mpr ⟨hm, h.marks⟩ }

end Noted

/-- The slots lie one behind the other in `size` bytes. -/
structure Slots (objects : Array DataObject) (size : Nat) : Prop where
  inside : ∀ x ∈ objects, x.dataOffset + 8 ≤ size
  apart : objects.toList.Pairwise fun x y => x.dataOffset + 8 ≤ y.dataOffset

namespace Slots

variable {objects : Array DataObject} {size size' : Nat}

theorem empty (size : Nat) : Slots #[] size := ⟨by simp, by simp⟩

theorem mono (h : Slots objects size) (hle : size ≤ size') : Slots objects size' where
  inside x hx := Nat.le_trans (h.inside x hx) hle
  apart := h.apart

theorem push {x : DataObject} (h : Slots objects size) (hlow : size ≤ x.dataOffset)
    (hhigh : x.dataOffset + 8 ≤ size') : Slots (objects.push x) size' where
  inside y hy := by
    obtain hy | rfl := Array.mem_push.mp hy
    · have := h.inside y hy
      omega
    · exact hhigh
  apart := by
    rw [Array.toList_push, List.pairwise_append]
    refine ⟨h.apart, List.pairwise_singleton _ _, fun y hy z hz => ?_⟩
    obtain rfl := List.mem_singleton.mp hz
    exact Nat.le_trans (h.inside y (Array.mem_toList_iff.mp hy)) hlow

end Slots

/-! ### Drafts -/

/-- The draft consists of these chunks. -/
structure Sound (cs : List Chunk) (d : Draft) : Prop where
  written : Written (all cs) d.buffer
  valid : ∀ x ∈ placed 0 cs, x.2.ValidAt x.1
  labels : ∀ l p, d.buffer.labelOffset l = some p → Boundary cs p
  noted : Noted cs d.tables
  slots : Slots d.tables.dataObjects d.data.size

namespace Sound

variable {cs new : List Chunk} {d : Draft}

theorem position (h : Sound cs d) : d.buffer.position = extent cs := h.written.position

/-- What is emitted next starts at the position. -/
theorem starts {c : Chunk} (h : Sound cs d) (hc : c.isTable = false) :
    Starts (cs ++ [c]) d.buffer.position :=
  ⟨c, h.position ▸ mem_placed cs c [], hc⟩

/-- A draft to which chunks are added, and records with them. -/
theorem append {b : CodeBuffer} {t : SideTables} (h : Sound cs d) (hnew : Leads new)
    (hw : Written (all (cs ++ new)) b) (hl : ∀ l, b.labelOffset l = d.buffer.labelOffset l)
    (hv : ∀ x ∈ placed (extent cs) new, x.2.ValidAt x.1) (ht : Noted (cs ++ new) t)
    (hobjects : t.dataObjects = d.tables.dataObjects) :
    Sound (cs ++ new) { d with buffer := b, tables := t } where
  written := hw
  valid x hx := by
    rw [placed_append, Nat.zero_add] at hx
    obtain hx | hx := List.mem_append.mp hx
    · exact h.valid x hx
    · exact hv x hx
  labels l p hp := (h.labels l p ((hl l).symm.trans hp)).append hnew
  noted := ht
  slots := hobjects ▸ h.slots

/-- Records may be added that are about the chunks. -/
theorem record {t : SideTables} (h : Sound cs d) (ht : Noted cs t)
    (hobjects : t.dataObjects = d.tables.dataObjects) : Sound cs { d with tables := t } where
  written := h.written
  valid := h.valid
  labels := h.labels
  noted := ht
  slots := hobjects ▸ h.slots

/-- The labels may change as long as the bound ones are boundaries. -/
theorem relabel {b : CodeBuffer} (h : Sound cs d) (hw : Written (all cs) b)
    (hl : ∀ l p, b.labelOffset l = some p → Boundary cs p) : Sound cs { d with buffer := b } where
  written := hw
  valid := h.valid
  labels := hl
  noted := h.noted
  slots := h.slots

/-- A chunk is added for which nothing is recorded. -/
theorem snoc {c : Chunk} {b : CodeBuffer} (h : Sound cs d) (hc : c.isTable = false)
    (hrelocation : ∀ o, c.relocation? o = none) (hv : ∀ o, c.ValidAt o)
    (hw : Written (all cs ++ c.pieces) b) (hl : ∀ l, b.labelOffset l = d.buffer.labelOffset l) :
    Sound (cs ++ [c]) { d with buffer := b } := by
  have hleads : Leads [c] := by simp [Leads, hc]
  have htable : c.table? = none := by cases c <;> first | rfl | cases hc
  refine h.append hleads (by simpa using hw) hl (by simpa [placed] using hv _) ?_ rfl
  exact h.noted.append hleads (by simp [placed, hrelocation]) (by simp [htable])

/-- An instruction without a field is added by its bytes. -/
theorem instr {b : CodeBuffer} {i : Instr} (h : Sound cs d) (hi : i.Encodable)
    (hcode : b.code = (d.buffer.append i.encode.bytes).code)
    (hlabels : b.labels = d.buffer.labels) :
    Sound (cs ++ [.instr i none]) { d with buffer := b } :=
  h.snoc rfl (fun _ => rfl) (fun _ => ⟨hi, by simp⟩) (h.written.emit_congr hcode hlabels)
    fun l => by simp only [labelOffset, hlabels]

/-- A branch is added by either of its forms. -/
theorem branch {b : CodeBuffer} {cond : Option Cond} {l : Label} (h : Sound cs d)
    (hb : CodeBuffer.branch (shortOpcode cond) (longOpcode cond) l d.buffer = .ok () b) :
    ∃ short, Sound (cs ++ [.branch short cond l]) { d with buffer := b } := by
  obtain ⟨hw, hl⟩ := h.written.branch hb
  unfold branchPieces at hw
  split at hw
  · exact ⟨true, h.snoc rfl (fun _ => rfl) (fun _ => trivial) hw hl⟩
  · exact ⟨false, h.snoc rfl (fun _ => rfl) (fun _ => trivial) hw hl⟩

/-- A branch is added in its short form. -/
theorem branchShort {b : CodeBuffer} {cond : Option Cond} {l : Label} (h : Sound cs d)
    (hb : reference l .rel8 (d.buffer.append [shortOpcode cond]) = .ok () b) :
    Sound (cs ++ [.branch true cond l]) { d with buffer := b } := by
  obtain ⟨hw, hl⟩ := (h.written.emit [shortOpcode cond]).reference hb
  rw [List.append_assoc] at hw
  exact h.snoc rfl (fun _ => rfl) (fun _ => trivial) hw hl

/-- A label is bound at the end of the code. -/
theorem bind {b : CodeBuffer} {l : Label} {fresh : Bool} (h : Sound cs d)
    (hb : CodeBuffer.bind l d.buffer = .ok fresh b) : Sound cs { d with buffer := b } := by
  obtain ⟨hw, hl, -⟩ := h.written.bind hb
  refine h.relabel hw fun m p hp => ?_
  rw [hl] at hp
  split at hp
  · cases hp
    rw [h.position]
    exact boundary_extent cs
  · exact h.labels m p hp

theorem withLabels (h : Sound cs d) (n : Nat) :
    Sound cs { d with buffer := d.buffer.withLabels n } :=
  h.relabel (h.written.withLabels n) fun l p hp => h.labels l p (labelOffset_withLabels ▸ hp)

/-- An instruction with a field is added together with the relocation. -/
theorem linked {b : CodeBuffer} {i : Instr} {link : Link} {x : Relocation}
    {seen : List (String × Nat)} (h : Sound cs d) (hi : i.Encodable)
    (hx : (Chunk.instr i (some link)).relocation? d.buffer.position = some x)
    (hcode : b.code = (d.buffer.append i.encode.bytes).code)
    (hlabels : b.labels = d.buffer.labels) :
    Sound (cs ++ [.instr i (some link)]) { d with
      buffer := b
      tables := { d.tables with relocations := d.tables.relocations.push x, seen := seen } } := by
  have hleads : Leads [.instr i (some link)] := by simp [Leads, isTable]
  rw [h.position] at hx
  obtain ⟨k, hk, -⟩ := Option.map_eq_some_iff.mp hx
  refine h.append hleads ?_ (fun l => by simp only [labelOffset, hlabels]) ?_ ?_ rfl
  · simpa [pieces] using h.written.emit_congr hcode hlabels
  · simp [placed, ValidAt, hi, hk]
  · exact h.noted.append hleads (by simp [placed, hx]) (by simp [table?])

/-- A jump, padding and a table are added at once: no label is bound behind the jump. -/
theorem table {b : CodeBuffer} {i : Instr} {ns : List Nat} {t : JumpTable} {targets : List Label}
    {seen : List (String × Nat)} (h : Sound cs d) (hi : i.Encodable) (hns : ∀ n ∈ ns, 0 < n ∧ n ≤ 8)
    (hposition : t.position =
      ((d.buffer.append i.encode.bytes).append (ns.flatMap X64.nop)).position)
    (hcount : t.high.toInt - t.low.toInt + 1 = targets.length)
    (hb : targets.forM (reference · (.table t.position))
      ((d.buffer.append i.encode.bytes).append (ns.flatMap X64.nop)) = .ok () b) :
    Sound (cs ++ .instr i none :: (ns.map .nop ++ [.table t targets])) { d with
      buffer := b
      tables := { d.tables with jumpTables := d.tables.jumpTables.push t, seen := seen } } := by
  have hleads : Leads (.instr i none :: (ns.map .nop ++ [.table t targets])) := by
    simp [Leads, isTable]
  have hpad := (h.written.emit i.encode.bytes).emit_flatten (ns.map X64.nop)
  rw [← List.flatMap_def] at hpad
  obtain ⟨hw, hl⟩ := hpad.references hb
  have hstart : t.position = extent (cs ++ .instr i none :: ns.map .nop) := by
    rw [hposition, hpad.position, extent, all_append, all_cons, all_padding]
    simp [pieces]
  refine h.append hleads ?_ hl (fun x hx => ?_) ?_ rfl
  · rw [all_append, all_cons, all_append, all_padding]
    simpa [pieces] using hw
  · rw [placed, List.mem_cons, placed_append, List.mem_append] at hx
    obtain rfl | hx | hx := hx
    · exact ⟨hi, by simp⟩
    · exact valid_padding hns hx
    · obtain rfl := List.mem_singleton.mp hx
      exact ⟨by simpa [Nat.add_assoc] using hstart, hcount⟩
  · refine h.noted.append hleads ?_ ?_
    · rw [placed, List.filterMap_cons_none rfl, placed_append, List.filterMap_append,
        relocations_padding]
      simp [placed, relocation?]
    · have hnops : (ns.map Chunk.nop).filterMap table? = [] := by simp [table?]
      rw [List.filterMap_cons_none rfl, List.filterMap_append, hnops]
      simp [table?]

/-- Padding is added by its bytes. -/
theorem padding {ns : List Nat} (h : Sound cs d) (hns : ∀ n ∈ ns, 0 < n ∧ n ≤ 8) :
    Sound (cs ++ ns.map .nop) { d with buffer := d.buffer.append (ns.flatMap X64.nop) } := by
  have hleads : Leads (ns.map .nop) := by cases ns <;> simp [Leads, isTable]
  refine h.append hleads ?_ (fun _ => rfl) ?_ ?_ rfl
  · rw [all_append, all_padding, List.flatMap_def]
    exact h.written.emit_flatten _
  · exact fun x hx => valid_padding hns hx
  · exact h.noted.append hleads (by simp [relocations_padding]) (by simp [table?])

end Sound

end MachineCode
