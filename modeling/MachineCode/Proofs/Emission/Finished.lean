import MachineCode.Proofs.Decoding.Stream
import MachineCode.Proofs.Emission.Actions

/-! Finished methods as sequences of chunks. Every chunk that is no table stands in the code as the
instruction that it decodes to. -/
namespace MachineCode

open X64 CodeBuffer Piece

namespace Chunk

/-- A chunk stands behind those in front of it. -/
theorem split_of_placed {cs : List Chunk} {offset p : Nat} {c : Chunk}
    (h : (p, c) ∈ placed offset cs) :
    ∃ pre post, cs = pre ++ c :: post ∧ p = offset + extent pre := by
  induction cs generalizing offset with
  | nil => simp [placed] at h
  | cons c' cs ih =>
    obtain h | h := List.mem_cons.mp h
    · cases h
      exact ⟨[], cs, rfl, rfl⟩
    · obtain ⟨pre, post, rfl, rfl⟩ := ih h
      exact ⟨c' :: pre, post, rfl, by simp [Nat.add_assoc]⟩

theorem placed_le {cs : List Chunk} {offset : Nat} {x : Nat × Chunk} (h : x ∈ placed offset cs) :
    offset ≤ x.1 ∧ x.1 + x.2.size ≤ offset + extent cs := by
  obtain ⟨pre, post, rfl, hp⟩ := split_of_placed h
  simp only [extent_append, extent_cons]
  omega

theorem Boundary.le_extent {cs : List Chunk} {p : Nat} (h : Boundary cs p) : p ≤ extent cs := by
  obtain rfl | ⟨c, hc, -⟩ := h
  · exact Nat.le_refl _
  · have := (placed_le hc).2
    omega

/-- The chunks lie one behind the other. -/
theorem pairwise_placed (cs : List Chunk) (offset : Nat) :
    (placed offset cs).Pairwise fun x y => x.1 + x.2.size ≤ y.1 := by
  induction cs generalizing offset with
  | nil => exact .nil
  | cons c cs ih => exact List.pairwise_cons.mpr ⟨fun y hy => (placed_le hy).1, ih _⟩

/-- Two chunks with their offsets are the same or do not overlap. -/
def Apart (x y : Nat × Chunk) : Prop := x = y ∨ x.1 + x.2.size ≤ y.1 ∨ y.1 + y.2.size ≤ x.1

theorem placed_apart {cs : List Chunk} {x y : Nat × Chunk} (hx : x ∈ placed 0 cs)
    (hy : y ∈ placed 0 cs) : Apart x y := by
  have h := pairwise_placed cs 0
  have hleft : (placed 0 cs).Pairwise Apart := h.imp fun hle => .inr (.inl hle)
  have hright : (placed 0 cs).Pairwise (flip Apart) := h.imp fun hle => Or.inr (.inr hle)
  exact List.Pairwise.forall_of_forall_of_flip (fun _ _ => .inl rfl) hleft hright hx hy

end Chunk

open Chunk

/-- The method that is made from the draft consists of these chunks. -/
structure Laid (cs : List Chunk) (m : Method) (d : Draft) : Prop extends Completed m d where
  sound : Sound cs d

/-- The same for a method in which no bytes are a template's own. -/
structure Finished (cs : List Chunk) (m : Method) (d : Draft) : Prop extends Laid cs m d where
  rawFree : ∀ c ∈ cs, c.isRaw = false

namespace Lower

/-- A draft that has just been started has no chunks. -/
theorem sound_start {target : Target} {frame : Frame} {name : String} {id : Option UInt32}
    {d : Draft} (h : Draft.start target frame name id = .ok d) : Sound [] d := by
  obtain ⟨journal, rfl⟩ := Draft.start_eq_ok h
  refine ⟨Written.empty, by simp [placed], fun l p hp => ?_, Noted.empty, Slots.empty 0⟩
  simp [labelOffset, CodeBuffer.empty] at hp

end Lower

section

variable {target : Target} {frame : Frame} {name : String} {id : Option UInt32}
  {constants : List DataConstant} {ops : List Operation} {d d' : Draft} {m : Method}

/-- A method whose templates insert no bytes consists of chunks, which store to no other places than
its operations do. -/
theorem exists_finished_within {stores : Location → Nat → Prop} {ok : List Operand → MicroOp → Prop}
    (hplain : ∀ m n, stores (.plain m) n)
    (hok : ∀ operands op, ok operands op →
      op.Within ⟨frame, target, 0⟩ (.liberal stores False True ok) operands)
    (hd : Draft.start target frame name id = .ok d) (hops : ∀ op ∈ ops, op.All ok)
    (hexchange : ∀ op ∈ ops, ∀ cell expected newValue,
      op = .compareAndSwap cell expected newValue →
      ∀ l, Lower.place? frame cell = some l → stores l cell.kind.size)
    (hm : Lower.method constants ops d = .ok m d') :
    ∃ cs, Finished cs m d' ∧ ∀ c ∈ cs, c.Within (.liberal stores False True ok) := by
  let e := Effect.liberal stores False True ok
  let I : Draft → Prop := fun d => ∃ cs, Sound cs d ∧ ∀ c ∈ cs, c.Within e
  have hI : ∀ a : Action, a.Within e → Triple I a.perform (fun _ => I) fun _ _ => True := by
    rintro a ha d ⟨cs, hs, hcs⟩
    refine ⟨fun _ d' hrun => ?_, fun _ _ _ => trivial⟩
    obtain ⟨new, hs', hnew⟩ := Action.adds ha cs d () d' hs hrun
    exact ⟨cs ++ new, hs', List.forall_mem_append.mpr ⟨hcs, hnew⟩⟩
  have hflush : ∀ d, I d → I { d with pending := #[] } :=
    fun d ⟨cs, hs, hcs⟩ => ⟨cs, { hs with }, hcs⟩
  have hprologue := Does.triple hI (Lower.does_prologue (C := ⟨frame, target, 0⟩)
    (Effect.open_liberal hplain) fun _ _ => trivial)
  have hmethod : Triple _ (Lower.method constants ops) _ _ :=
    triple_method hI hflush (fun path => does_slowPath_liberal hplain hok) hI hprologue
      fun op hop => does_operation_liberal hplain hok (hops op hop) (hexchange op hop)
  obtain ⟨hcovered, hcompleted⟩ :=
    (hmethod d (covered_start hd ⟨[], Lower.sound_start hd, by simp⟩)).1 m d' hm
  obtain ⟨cs, hs, hcs⟩ := hcovered.inv
  refine ⟨cs, ⟨⟨hcompleted, hs⟩, fun c hc => ?_⟩, hcs⟩
  cases c with
  | raw bytes => exact (hcs _ hc).elim
  | _ => rfl

/-- A method whose templates insert no bytes consists of chunks. -/
theorem exists_finished (hd : Draft.start target frame name id = .ok d)
    (hops : ∀ op ∈ ops, op.RawFree) (hm : Lower.method constants ops d = .ok m d') :
    ∃ cs, Finished cs m d' := by
  have hok : ∀ (operands : List Operand) (op : MicroOp), (∀ bytes, op ≠ .rawBytes bytes) →
      op.Within ⟨frame, target, 0⟩
        (.liberal (fun _ _ => True) False True fun _ op => ∀ bytes, op ≠ .rawBytes bytes)
          operands := by
    intro operands op hop
    cases op with
    | rawBytes bytes => exact hop bytes rfl
    | pointerLoad | pointerLoadDisp => exact fun _ _ _ _ => trivial
    | _ => trivial
  have hall : ∀ op ∈ ops, op.All fun _ op => ∀ bytes, op ≠ .rawBytes bytes := by
    intro op hop
    have hraw := hops op hop
    cases op with
    | template => exact hraw
    | _ => trivial
  obtain ⟨cs, hcs, -⟩ := exists_finished_within (fun _ _ => trivial) hok hd hall
    (fun _ _ _ _ _ _ _ _ => trivial) hm
  exact ⟨cs, hcs⟩

end

theorem exists_finished_of_compile {target : Target} {source : MethodSource} {m : Method}
    (hops : ∀ op ∈ source.ops, op.RawFree) (hm : (compile target source).1 = .ok m) :
    ∃ cs d, Finished cs m d := by
  obtain ⟨d, d', hd, hmethod⟩ := compile_eq_ok.mp hm
  obtain ⟨cs, h⟩ := exists_finished hd hops hmethod
  exact ⟨cs, d', h⟩

namespace Laid

variable {cs : List Chunk} {m : Method} {d : Draft} {p : Nat} {c : Chunk}

theorem code_eq (h : Laid cs m d) : m.code.toList = render d.buffer.labelOffset 0 (all cs) := by
  rw [(finish_eq_ok h.code).1, h.sound.written.code]

theorem size_eq (h : Laid cs m d) : m.code.size = extent cs := by
  rw [← Array.length_toList, h.code_eq, length_render, extent]

/-- The relocations are those of the chunks. -/
theorem relocations_eq (h : Laid cs m d) : m.tables.relocations.toList =
    (placed 0 cs).filterMap fun x => x.2.relocation? x.1 := by
  rw [h.tables]
  exact h.sound.noted.relocations

/-- The jump tables are those among the chunks. -/
theorem jumpTables_eq (h : Laid cs m d) : m.tables.jumpTables.toList = cs.filterMap table? := by
  rw [h.tables]
  exact h.sound.noted.jumpTables

/-- All references of a chunk are resolved. -/
theorem resolved (h : Laid cs m d) (hc : (p, c) ∈ placed 0 cs) :
    c.Resolved d.buffer.labelOffset p := by
  intro l s hs
  obtain ⟨pre, post, rfl, rfl⟩ := split_of_placed hc
  apply resolved_of_finish h.sound.written h.code
  rw [all_append, all_cons, sites_append, sites_append]
  exact List.mem_append_right _ (List.mem_append_left _ hs)

/-- The bytes of a chunk stand in the code. -/
theorem drop_code (h : Laid cs m d) (hc : (p, c) ∈ placed 0 cs) :
    ∃ rest, m.code.toList.drop p = render d.buffer.labelOffset p c.pieces ++ rest := by
  obtain ⟨pre, post, rfl, rfl⟩ := split_of_placed hc
  rw [h.code_eq, all_append, all_cons, render_append, render_append]
  exact ⟨_, List.drop_left' (by simp [extent])⟩

end Laid

namespace Finished

variable {cs : List Chunk} {m : Method} {d : Draft} {p : Nat} {c : Chunk}

theorem decodes (h : Finished cs m d) (hc : (p, c) ∈ placed 0 cs) (htable : c.isTable = false) :
    Decodes (render d.buffer.labelOffset p c.pieces) (c.decodedAt d.buffer.labelOffset p) := by
  obtain ⟨pre, post, hcs, -⟩ := split_of_placed hc
  exact decodes_decodedAt (h.sound.valid _ hc) (h.resolved hc) htable (h.rawFree c (by simp [hcs]))

theorem size_pos (h : Finished cs m d) (hc : (p, c) ∈ placed 0 cs) (htable : c.isTable = false) :
    0 < c.size := by
  rw [Chunk.size, ← length_render d.buffer.labelOffset p]
  exact List.length_pos_iff.mpr (h.decodes hc htable).ne_nil

end Finished

end MachineCode
