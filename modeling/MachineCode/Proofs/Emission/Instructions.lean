import MachineCode.Proofs.Emission.Finished

/-! Finished code as a stream of instructions. Apart from the jump tables all of it decodes, and
what is recorded beside it stands at its instructions. -/
namespace MachineCode

open X64 CodeBuffer Piece Chunk

/-- The end of a table in the code. -/
def JumpTable.stop (t : JumpTable) : Nat := t.position + 4 * (t.high.toInt - t.low.toInt + 1).toNat

/-- The ranges from `start` up to `stop` that are left when tables are cut out. -/
def codeRanges (stop : Nat) : (start : Nat) → List JumpTable → List (Nat × Nat)
  | start, [] => [(start, stop)]
  | start, t :: ts => (start, t.position) :: codeRanges stop t.stop ts

/-- The instructions in a range of bytes with their offsets and lengths, if it is cut into
instructions without a rest. -/
def instructionsIn? (bytes : List UInt8) (r : Nat × Nat) : Option (List (Nat × Decoded × Nat)) :=
  (decodeAll ((bytes.drop r.1).take (r.2 - r.1))).map (·.map fun x => (r.1 + x.1, x.2))

namespace Method

/-- The ranges of the code between its jump tables. -/
def ranges (m : Method) : List (Nat × Nat) :=
  codeRanges m.code.size 0 m.tables.jumpTables.toList

/-- All instructions of the code. -/
def instructions? (m : Method) : Option (List (Nat × Decoded × Nat)) :=
  (m.ranges.mapM (instructionsIn? m.code.toList)).map List.flatten

/-- One of the instructions starts here or the code ends, and no jump table has the place. -/
def Boundary (m : Method) (is : List (Nat × Decoded × Nat)) (p : Nat) : Prop :=
  (p = m.code.size ∨ ∃ x ∈ is, x.1 = p) ∧ ∀ t ∈ m.tables.jumpTables, p < t.position ∨ t.stop ≤ p

/-- Between its jump tables the code is the instructions `is`, and these are what the labels and the
side tables are about. -/
structure Streams (m : Method) (labels : Label → Option Nat) (is : List (Nat × Decoded × Nat)) :
    Prop where
  ranges : ∀ r ∈ m.ranges, r.1 ≤ r.2 ∧ r.2 ≤ m.code.size
  instructions : m.instructions? = some is
  labels : ∀ l p, labels l = some p → m.Boundary is p
  handlers : ∀ h ∈ m.tables.exceptionHandlers, ∃ p, h.handlerOffset = some p ∧ m.Boundary is p
  marks : ∀ x ∈ m.tables.marks, m.Boundary is x.pc
  implicitExceptions : ∀ e ∈ m.tables.implicitExceptions, m.Boundary is e.pc
  /-- Every safepoint is a read through the register that holds the safepoint page. -/
  safepoints : ∀ s ∈ m.tables.safepoints, m.Boundary is s.pc ∧
    ∃ w src n, (s.pc, .test w (.mem (.based .r14 0)) src, n) ∈ is
  /-- The bytes in front of a return address are one call. -/
  callSites : ∀ s ∈ m.tables.callSites, m.Boundary is s.pc ∧ s.size ≤ s.pc ∧
    ∃ dst, instructionsIn? m.code.toList (s.pc - s.size, s.pc) =
      some [(s.pc - s.size, .call dst, s.size)]
  /-- Every field lies in an instruction, and not at its start. -/
  relocations : ∀ x ∈ m.tables.relocations, ∃ y ∈ is,
    y.1 < x.offset ∧ x.offset + x.kind.width ≤ y.1 + y.2.2

end Method

namespace Chunk

/-- The instructions of a sequence that starts at `offset`, with their offsets and lengths. -/
def instructions (env : Label → Option Nat) (offset : Nat) (cs : List Chunk) :
    List (Nat × Decoded × Nat) :=
  ((placed offset cs).filter fun x => !x.2.isTable).map fun x =>
    (x.1, x.2.decodedAt env x.1, x.2.size)

theorem instructions_append (env : Label → Option Nat) (offset : Nat) (cs ds : List Chunk) :
    instructions env offset (cs ++ ds) =
      instructions env offset cs ++ instructions env (offset + extent cs) ds := by
  simp [instructions, placed_append]

/-- The bytes of the chunks with what they decode to. -/
def parts (env : Label → Option Nat) (offset : Nat)
    (cs : List Chunk) : List (List UInt8 × Decoded) :=
  (placed offset cs).map fun x => (render env x.1 x.2.pieces, x.2.decodedAt env x.1)

theorem flatten_parts (env : Label → Option Nat) (offset : Nat) (cs : List Chunk) :
    ((parts env offset cs).map Prod.fst).flatten = render env offset (all cs) := by
  induction cs generalizing offset with
  | nil => rfl
  | cons c cs ih =>
    rw [all_cons, render_append, ← size, ← ih]
    rfl

theorem stream_parts {cs : List Chunk} (env : Label → Option Nat) (start offset : Nat)
    (h : ∀ c ∈ cs, c.isTable = false) :
    (stream offset (parts env (start + offset) cs)).map (fun x => (start + x.1, x.2)) =
      instructions env (start + offset) cs := by
  induction cs generalizing offset with
  | nil => rfl
  | cons c cs ih =>
    have hc : c.isTable = false := h c (by simp)
    have := ih (offset + c.size) fun c' hc' => h c' (by simp [hc'])
    simp only [parts, instructions, placed, List.map_cons, stream,
      length_render, hc, Bool.not_false, List.filter_cons_of_pos, Nat.add_assoc, size] at this ⊢
    rw [this]

/-- What is required of chunks in finished code. -/
structure Readable (env : Label → Option Nat) (x : Nat × Chunk) : Prop where
  valid : x.2.ValidAt x.1
  decodes : x.2.isTable = false → Decodes (render env x.1 x.2.pieces) (x.2.decodedAt env x.1)

/-- Chunks without a table among them are cut into their instructions. -/
theorem instructionsIn?_eq {env : Label → Option Nat} {bytes rest : List UInt8} {cs : List Chunk}
    {start stop : Nat} (hread : ∀ x ∈ placed start cs, Readable env x)
    (hcode : ∀ c ∈ cs, c.isTable = false)
    (hbytes : bytes.drop start = render env start (all cs) ++ rest)
    (hstop : stop = start + extent cs) :
    instructionsIn? bytes (start, stop) = some (instructions env start cs) := by
  have htake : (bytes.drop start).take (stop - start) = render env start (all cs) := by
    rw [hbytes, hstop, Nat.add_sub_cancel_left]
    exact List.take_left' (length_render _ _ _)
  have hdecodes : ∀ x ∈ parts env start cs, Decodes x.1 x.2 := by
    intro x hx
    obtain ⟨y, hy, rfl⟩ := List.mem_map.mp hx
    obtain ⟨pre, post, hsplit, -⟩ := split_of_placed hy
    exact (hread y hy).decodes (hcode y.2 (by simp [hsplit]))
  have hstream := stream_parts env start 0 hcode
  rw [Nat.add_zero] at hstream
  rw [instructionsIn?, htake, ← flatten_parts, decodeAll_flatten hdecodes, Option.map_some, hstream]

theorem stop_of_valid {t : JumpTable} {targets : List Label} {offset : Nat}
    (h : (table t targets).ValidAt offset) : t.position = offset ∧
      t.stop = offset + (table t targets).size := by
  obtain ⟨hpos, hcount⟩ := h
  refine ⟨hpos, ?_⟩
  rw [JumpTable.stop, hcount, size_table, hpos, Int.toNat_natCast]

/-- The ranges between the tables are cut into the instructions of the chunks; `pre` are the chunks
of the range that has been begun. -/
theorem mapM_codeRanges {env : Label → Option Nat} {bytes : List UInt8} {pre cs : List Chunk}
    {start : Nat} (hread : ∀ x ∈ placed start (pre ++ cs), Readable env x)
    (hpre : ∀ c ∈ pre, c.isTable = false)
    (hbytes : bytes.drop start = render env start (all (pre ++ cs)))
    (hlen : bytes.length = start + extent (pre ++ cs)) :
    ∃ is, (codeRanges bytes.length start (cs.filterMap table?)).mapM (instructionsIn? bytes) =
      some is ∧ is.flatten = instructions env start (pre ++ cs) := by
  induction cs generalizing pre start with
  | nil =>
    rw [List.append_nil] at *
    have hbytes' : bytes.drop start = render env start (all pre) ++ [] := by
      rw [List.append_nil, hbytes]
    have hrange := instructionsIn?_eq hread hpre hbytes' hlen
    refine ⟨[instructions env start pre], ?_, by simp⟩
    simp [codeRanges, hrange]
  | cons c cs ih =>
    cases hc : c.table? with
    | none =>
      have hcode : c.isTable = false := by cases c <;> first | rfl | cases hc
      rw [List.filterMap_cons_none hc]
      have hnext := @ih (pre ++ [c]) start
      rw [List.append_assoc] at hnext
      refine hnext hread (fun c' hc' => ?_) hbytes hlen
      obtain hc' | hc' := List.mem_append.mp hc'
      · exact hpre c' hc'
      · rwa [List.mem_singleton.mp hc']
    | some t =>
      obtain ⟨targets, rfl⟩ : ∃ targets, c = table t targets := by
        cases c <;> cases hc
        exact ⟨_, rfl⟩
      have hplaced : placed start (pre ++ table t targets :: cs) = placed start pre ++
          (start + extent pre, table t targets) ::
            placed (start + extent pre + (table t targets).size) cs := placed_append _ _ _
      rw [hplaced] at hread
      obtain ⟨hpos, hstop⟩ :=
        stop_of_valid (hread (start + extent pre, table t targets) (by simp)).valid
      -- The range in front of the table holds `pre`, and a new one begins behind it.
      have hfirst := instructionsIn?_eq (fun x hx => hread x (List.mem_append_left _ hx)) hpre
        (by rw [hbytes, all_append, render_append]) hpos
      have hread' : ∀ x ∈ placed t.stop cs, Readable env x := fun x hx =>
        hread x (List.mem_append_right _ (List.mem_cons_of_mem _ (hstop ▸ hx)))
      have hbytes' : bytes.drop t.stop = render env t.stop (all cs) := by
        have hsplit : t.stop = start + (extent pre + (table t targets).size) := by omega
        rw [hsplit, ← List.drop_drop, hbytes, all_append, all_cons, render_append, render_append,
          ← List.append_assoc, Nat.add_assoc]
        exact List.drop_left' (by simp [extent, size])
      have hlen' : bytes.length = t.stop + extent cs := by
        simp only [extent_append, extent_cons] at hlen
        omega
      obtain ⟨is, his, hflat⟩ := @ih [] t.stop hread' (by simp) hbytes' hlen'
      have hskip : instructions env (start + extent pre) (table t targets :: cs) =
          instructions env t.stop cs := by
        simp [instructions, placed, isTable, hstop]
      refine ⟨instructions env start pre :: is, ?_, ?_⟩
      · simp [hc, codeRanges, hfirst, his]
      · rw [List.flatten_cons, hflat, instructions_append _ _ pre, hskip, List.nil_append]

theorem codeRanges_le {cs : List Chunk} {start offset : Nat} (hle : start ≤ offset)
    (hvalid : ∀ x ∈ placed offset cs, x.2.ValidAt x.1) {r : Nat × Nat}
    (hr : r ∈ codeRanges (offset + extent cs) start (cs.filterMap table?)) :
    r.1 ≤ r.2 ∧ r.2 ≤ offset + extent cs := by
  induction cs generalizing start offset with
  | nil =>
    obtain rfl := List.mem_singleton.mp hr
    simpa using hle
  | cons c cs ih =>
    have hrest : ∀ x ∈ placed (offset + c.size) cs, x.2.ValidAt x.1 := fun x hx =>
      hvalid x (List.mem_cons_of_mem _ hx)
    rw [extent_cons, ← Nat.add_assoc] at hr ⊢
    cases hc : c.table? with
    | none =>
      rw [List.filterMap_cons_none hc] at hr
      exact ih (by omega) hrest hr
    | some t =>
      obtain ⟨targets, rfl⟩ : ∃ targets, c = table t targets := by
        cases c <;> cases hc
        exact ⟨_, rfl⟩
      obtain ⟨hpos, hstop⟩ := stop_of_valid (hvalid (offset, table t targets) (by simp [placed]))
      rw [List.filterMap_cons_some hc, codeRanges, List.mem_cons] at hr
      obtain rfl | hr := hr
      · simp only at hpos ⊢
        omega
      · exact ih (by simp only at hstop; omega) hrest hr

theorem exists_placed {cs : List Chunk} {c : Chunk} (h : c ∈ cs) : ∃ p, (p, c) ∈ placed 0 cs := by
  obtain ⟨pre, post, rfl⟩ := List.append_of_mem h
  exact ⟨extent pre, mem_placed pre c post⟩

theorem mem_instructions {env : Label → Option Nat} {cs : List Chunk} {p : Nat} {c : Chunk}
    (h : (p, c) ∈ placed 0 cs) (hc : c.isTable = false) :
    (p, c.decodedAt env p, c.size) ∈ instructions env 0 cs := by
  refine List.mem_map.mpr ⟨(p, c), List.mem_filter.mpr ⟨h, ?_⟩, rfl⟩
  simp [hc]

end Chunk

namespace Laid

variable {cs : List Chunk} {m : Method} {d : Draft} {p : Nat}

/-- Where the tables of a finished method lie. -/
theorem placed_table (h : Laid cs m d) {t : JumpTable} (ht : t ∈ m.tables.jumpTables) :
    ∃ targets, (t.position, table t targets) ∈ placed 0 cs ∧
      t.stop = t.position + (table t targets).size := by
  rw [← Array.mem_toList_iff, h.jumpTables_eq] at ht
  obtain ⟨c, hc, ht⟩ := List.mem_filterMap.mp ht
  obtain ⟨targets, rfl⟩ : ∃ targets, c = table t targets := by
    cases c <;> cases ht
    exact ⟨_, rfl⟩
  obtain ⟨p, hp⟩ := exists_placed hc
  obtain ⟨hpos, hstop⟩ := stop_of_valid (h.sound.valid _ hp)
  simp only at hpos hstop
  subst hpos
  exact ⟨targets, hp, hstop⟩

/-- Every relocation is that of a chunk. -/
theorem exists_chunk (h : Laid cs m d) {x : Relocation} (hx : x ∈ m.tables.relocations) :
    ∃ p c, (p, c) ∈ placed 0 cs ∧ c.relocation? p = some x := by
  rw [← Array.mem_toList_iff, h.relocations_eq] at hx
  obtain ⟨⟨p, c⟩, hmem, hx⟩ := List.mem_filterMap.mp hx
  exact ⟨p, c, hmem, hx⟩

/-- The field of a relocation lies in the instruction that it was recorded for. -/
theorem relocation (h : Laid cs m d) {x : Relocation} (hx : x ∈ m.tables.relocations) :
    ∃ y ∈ Chunk.instructions d.buffer.labelOffset 0 cs,
      y.1 < x.offset ∧ x.offset + x.kind.width ≤ y.1 + y.2.2 := by
  obtain ⟨p, c, hmem, hx⟩ := h.exists_chunk hx
  obtain ⟨i, link, k, rfl, -⟩ := relocation?_eq_some hx
  exact ⟨_, mem_instructions hmem rfl, relocation?_inside hx⟩

end Laid

namespace Finished

variable {cs : List Chunk} {m : Method} {d : Draft} {p : Nat}

theorem boundary (h : Finished cs m d) (hp : Chunk.Boundary cs p) :
    m.Boundary (Chunk.instructions d.buffer.labelOffset 0 cs) p := by
  constructor
  · obtain rfl | ⟨c, hc, hcode⟩ := hp
    · exact .inl h.size_eq.symm
    · exact .inr ⟨_, mem_instructions hc hcode, rfl⟩
  · intro t ht
    obtain ⟨targets, hmem, hstop⟩ := h.placed_table ht
    have hle := (placed_le hmem).2
    simp only at hle
    obtain rfl | ⟨c, hc, hcode⟩ := hp
    · exact .inr (by omega)
    · have hpos := h.size_pos hc hcode
      obtain heq | hlt | hlt := placed_apart hc hmem
      · cases heq
        cases hcode
      · simp only at hlt
        exact .inl (by omega)
      · simp only at hlt
        exact .inr (by omega)

theorem instructions?_eq (h : Finished cs m d) :
    m.instructions? = some (Chunk.instructions d.buffer.labelOffset 0 cs) := by
  have hread : ∀ x ∈ placed 0 ([] ++ cs), Readable d.buffer.labelOffset x := fun x hx =>
    ⟨h.sound.valid x hx, h.decodes hx⟩
  obtain ⟨is, his, hflat⟩ := mapM_codeRanges hread (by simp) h.code_eq
    (by rw [Array.length_toList, h.size_eq, Nat.zero_add, List.nil_append])
  rw [Array.length_toList] at his
  rw [Method.instructions?, Method.ranges, h.jumpTables_eq, his, Option.map_some,
    hflat, List.nil_append]

/-- The instruction of a call site stands alone in front of the return address. -/
theorem callSite (h : Finished cs m d) {s : CallSite} (hs : EndsCall cs s) :
    m.Boundary (Chunk.instructions d.buffer.labelOffset 0 cs) s.pc ∧ s.size ≤ s.pc ∧
      ∃ dst, instructionsIn? m.code.toList (s.pc - s.size, s.pc) =
        some [(s.pc - s.size, .call dst, s.size)] := by
  obtain ⟨hpc, i, link, dst, start, hmem, hi, hsize, hend⟩ := hs
  refine ⟨h.boundary hpc, by omega, dst, ?_⟩
  have hstart : s.pc - s.size = start := by omega
  obtain ⟨rest, hrest⟩ := h.drop_code hmem
  have hplaced : ∀ x ∈ placed start [.instr i link], Readable d.buffer.labelOffset x := by
    intro x hx
    obtain rfl := List.mem_singleton.mp hx
    exact ⟨h.sound.valid _ hmem, h.decodes hmem⟩
  have hstop : s.pc = start + extent [.instr i link] := by simp [hend, hsize]
  have hinstructions := instructionsIn?_eq hplaced (by simp [isTable]) (by simpa using hrest) hstop
  rw [hstart, hinstructions]
  simp [Chunk.instructions, placed, isTable, decodedAt, hi, hsize]

theorem handler (h : Finished cs m d) {x : ExceptionHandler} (hx : x ∈ m.tables.exceptionHandlers) :
    ∃ p, x.handlerOffset = some p ∧
      m.Boundary (Chunk.instructions d.buffer.labelOffset 0 cs) p := by
  have hresolve := congrArg (Array.toList <$> ·) h.handlers
  obtain ⟨row, -, hrow⟩ := (Step.mem_of_mapM (Array.toList_mapM.symm.trans hresolve)).2 x
    (Array.mem_toList_iff.mpr hx)
  split at hrow
  · rename_i p hp
    cases hrow
    exact ⟨p, rfl, h.boundary (h.sound.labels _ p hp)⟩
  · cases hrow

theorem streams (h : Finished cs m d) :
    m.Streams d.buffer.labelOffset (Chunk.instructions d.buffer.labelOffset 0 cs) where
  ranges r hr := by
    rw [Method.ranges, h.jumpTables_eq, h.size_eq, ← Nat.zero_add (extent cs)] at hr
    rw [h.size_eq, ← Nat.zero_add (extent cs)]
    exact codeRanges_le (Nat.le_refl 0) h.sound.valid hr
  instructions := h.instructions?_eq
  labels l p hp := h.boundary (h.sound.labels l p hp)
  handlers x hx := h.handler hx
  marks x hx := by
    rw [h.tables] at hx
    exact h.boundary (h.sound.noted.marks x hx)
  implicitExceptions e he := by
    rw [h.tables] at he
    exact h.boundary (.inr (h.sound.noted.implicitExceptions e he))
  safepoints s hs := by
    rw [h.tables] at hs
    have hmem := h.sound.noted.safepoints s hs
    exact ⟨h.boundary (.inr ⟨_, hmem, rfl⟩), _, _, _, mem_instructions hmem rfl⟩
  callSites s hs := by
    rw [h.tables] at hs
    exact h.callSite (h.sound.noted.callSites s hs)
  relocations x hx := h.relocation hx

end Finished

/-- When no template inserts bytes of its own, every method that compiles is a stream of
instructions between its jump tables, and all that is recorded beside the code is about these
instructions. -/
theorem Lower.streams_of_method {target : Target} {frame : Frame} {name : String}
    {id : Option UInt32} {constants : List DataConstant} {ops : List Operation} {d d' : Draft}
    {m : Method} (hd : Draft.start target frame name id = .ok d) (hops : ∀ op ∈ ops, op.RawFree)
    (hm : Lower.method constants ops d = .ok m d') :
    ∃ is, m.Streams d'.buffer.labelOffset is := by
  obtain ⟨cs, h⟩ := exists_finished hd hops hm
  exact ⟨_, h.streams⟩

/-- A loop that polls the safepoint page. -/
theorem Lower.streams_of_method_poll :
    let target : Target := ⟨Options.standard, ⟨true, true⟩, 4096⟩
    let ops : List Operation := [.label ⟨0⟩, .safepoint ⟨0, 0, []⟩, .branch none ⟨0⟩]
    let journal := (Journal.start "poll" none []).log (.compiling "poll" none 0 0)
    let d : Draft := ⟨target, .empty, .empty, .empty, .empty, #[], journal, "prologue"⟩
    Draft.start target .empty "poll" none = .ok d ∧
      ∃ m d', Lower.method [] ops d = .ok m d' ∧ ∃ is, m.Streams d'.buffer.labelOffset is := by
  intro target ops journal d
  have hd : Draft.start target .empty "poll" none = .ok d := rfl
  have hops : ∀ op ∈ ops, op.RawFree := by simp [ops, Operation.RawFree]
  have hok : Step.succeeds (fun _ _ => true) (Lower.method [] ops d) = true := by decide +kernel
  obtain ⟨m, d', hm, -⟩ := Step.exists_of_succeeds hok
  exact ⟨hd, m, d', hm, streams_of_method hd hops hm⟩

end MachineCode
