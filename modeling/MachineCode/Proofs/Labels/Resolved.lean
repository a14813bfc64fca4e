import MachineCode.Proofs.Labels.Runs

/-! Finished code. Every reference holds the distance to its label, every branch decodes to a jump
to its label, and all other bytes are those that were emitted. -/
namespace MachineCode

open X64 CodeBuffer Piece

namespace CodeBuffer

variable {b : CodeBuffer} {code : Array UInt8} {ps : List Piece}

/-- Code is finished when no site waits. -/
theorem finish_eq_ok (h : b.finish = .ok code) : code = b.code ∧ ∀ l, b.pendingSites l = #[] := by
  unfold finish at h
  cases hl : b.unboundLabel with
  | some l =>
    rw [hl] at h
    cases h
  | none =>
    rw [hl] at h
    cases h
    refine ⟨rfl, fun l => ?_⟩
    simp only [unboundLabel, Option.map_eq_none_iff, Array.findIdx?_eq_none_iff] at hl
    rw [pendingSites]
    split
    · rename_i sites hs
      have := hl _ (Array.mem_of_getElem? hs)
      simpa using this
    · rfl

/-- In finished code every field has its label bound, and its value fits. -/
theorem resolved_of_finish (hw : Written ps b) (h : b.finish = .ok code) {l : Label}
    {s : ReferenceSite} (hs : s ∈ sites l 0 ps) :
    ∃ p bs, b.labelOffset l = some p ∧ field s p = .ok bs := by
  cases hl : b.labelOffset l with
  | none =>
    rw [← hw.pending l hl, (finish_eq_ok h).2 l] at hs
    simp at hs
  | some p =>
    obtain ⟨bs, hbs⟩ := hw.inRange l p hl s hs
    exact ⟨p, bs, rfl, hbs⟩

end CodeBuffer

/-- The `width` bytes at `offset` are the signed number `v`. -/
def Holds (code : Array UInt8) (offset width : Nat) (v : Int) : Prop :=
  offset + width ≤ code.size ∧
    (ofLeBytes ((code.toList.drop offset).take width) : Int).bmod (256 ^ width) = v

/-- A jump to a displacement, under a condition if there is one. -/
def jump (cond : Option Cond) (disp : Int32) : Decoded :=
  match cond with
  | none => .jmp (.rel disp)
  | some cond => .jcc cond disp

/-- A jump of `n` bytes stands at `offset` and goes to `target`. -/
def JumpsAt (code : Array UInt8) (cond : Option Cond) (offset n target : Nat) : Prop :=
  ∃ disp, decode (code.toList.drop offset) = some (jump cond disp, n) ∧
    (jump cond disp).branchTarget? (BitVec.ofNat 64 offset) n = some (BitVec.ofNat 64 target)

/-! ### Fields -/

/-- What the field of a site says about a label at `target`. -/
def ReferenceSite.displacement (s : ReferenceSite) (target : Nat) : Int :=
  match s.kind with
  | .rel8 => target - (s.offset + 1)
  | .rel32 => target - (s.offset + 4)
  | .table base => target - base

theorem toInt_of_int8? {v : Int} {d : Int8} (h : int8? v = some d) : d.toInt = v := by
  unfold int8? at h
  split at h
  · cases h
    exact Int8.toInt_ofInt_of_le (by omega) (by omega)
  · cases h

/-- The bytes of a field are its displacement. -/
theorem value_field {s : ReferenceSite} {target : Nat} {bs : List UInt8}
    (h : field s target = .ok bs) :
    (ofLeBytes bs : Int).bmod (256 ^ s.kind.width) = s.displacement target := by
  have word : ∀ v : Int, ∀ bs, (do let d ← displacement32 v; return leBytes 4 d.toUInt32.toNat :
      Except Error (List UInt8)) = .ok bs → (ofLeBytes bs : Int).bmod (256 ^ 4) = v := by
    intro v bs h
    cases hd : int32? v with
    | none =>
      simp only [displacement32, hd] at h
      cases h
    | some d =>
      simp only [displacement32, hd] at h
      cases h
      have hlow := d.le_toInt
      have hhigh := d.toInt_lt
      have hlt : d.toUInt32.toNat < 256 ^ 4 := d.toUInt32.toNat_lt
      rw [ofLeBytes_leBytes, Nat.mod_eq_of_lt hlt, Reader.bmod_toUInt32 d (by decide),
        ← toInt_of_int32? hd]
      exact Int.bmod_eq_of_le (by omega) (by omega)
  obtain ⟨offset, kind⟩ := s
  cases kind with
  | rel8 =>
    simp only [field] at h
    cases hd : int8? ((target : Int) - (offset + 1)) with
    | none => simp [hd] at h
    | some d =>
      simp only [hd] at h
      cases h
      have hbyte : (ofLeBytes [d.toUInt8] : Int).bmod (256 ^ 1) = d.toInt := by
        have hnat : ofLeBytes [d.toUInt8] = d.toBitVec.toNat := Nat.add_zero _
        rw [hnat, ← Int8.toInt_toBitVec]
        exact (BitVec.toInt_eq_toNat_bmod _).symm
      exact hbyte.trans (toInt_of_int8? hd)
  | rel32 => exact word _ bs h
  | table base => exact word _ bs h

/-! ### Jumps -/

/-- The target that a decoder computes from the end of the jump. -/
theorem branchTarget?_jump {cond : Option Cond} {d : Int32} {offset n target : Nat}
    (hd : d.toInt = (target : Int) - (offset + n)) :
    (jump cond d).branchTarget? (BitVec.ofNat 64 offset) n = some (BitVec.ofNat 64 target) := by
  have hoperands : (jump cond d).insn.operands = [.rel d] := by cases cond <;> rfl
  have hsum : (target : Int) = offset + n + d.toInt := by omega
  simp only [Decoded.branchTarget?, Insn.branchTarget?, hoperands, List.findSome?_cons]
  rw [← BitVec.ofInt_natCast 64 target, hsum, BitVec.ofInt_add, BitVec.ofInt_add,
    BitVec.ofInt_natCast, BitVec.ofInt_natCast]

/-- The opcodes of the two forms of a jump. -/
def shortOpcode (cond : Option Cond) : UInt8 := cond.elim 0xEB fun c => 0x70 + UInt8.ofNat c.code

def longOpcode (cond : Option Cond) : List UInt8 :=
  cond.elim [0xE9] fun c => [0x0F, 0x80 + UInt8.ofNat c.code]

theorem decodes_short (cond : Option Cond) (d : UInt8) :
    Decodes [shortOpcode cond, d] (jump cond (Int32.ofInt d.toInt8.toInt)) := by
  cases cond with
  | none =>
    have hread : Reader.Reads (OpcodeForm.read ((Opcode.one 0xEB).prefixes 0 0 0) .jmpShort) [d]
        (jump none (Int32.ofInt d.toInt8.toInt)) := (Reader.reads_byte d).bind_pure.bind_pure
    have h : Decodes ((Opcode.one 0xEB).bytes 0 0 0 ++ [d]) _ := decodes_form rfl rfl hread
    exact h
  | some c =>
    have hform : OpcodeForm.ofByte? (0x70 + UInt8.ofNat c.code) = some (.jccShort c) := by
      cases c <;> rfl
    have hread : Reader.Reads (OpcodeForm.read
        ((Opcode.one (0x70 + UInt8.ofNat c.code)).prefixes 0 0 0) (.jccShort c)) [d]
        (jump (some c) (Int32.ofInt d.toInt8.toInt)) := (Reader.reads_byte d).bind_pure.bind_pure
    have h : Decodes ((Opcode.one (0x70 + UInt8.ofNat c.code)).bytes 0 0 0 ++ [d]) _ :=
      decodes_form rfl hform hread
    exact h

theorem decodes_long (cond : Option Cond) (d : Int32) :
    Decodes (longOpcode cond ++ leBytes 4 d.toUInt32.toNat) (jump cond d) := by
  cases cond with
  | none =>
    have hread : Reader.Reads (OpcodeForm.read ((Opcode.one 0xE9).prefixes 0 0 0) .jmp)
        (leBytes 4 d.toUInt32.toNat) (jump none d) := (Reader.reads_int32 d).bind_pure
    have h : Decodes ((Opcode.one 0xE9).bytes 0 0 0 ++ leBytes 4 d.toUInt32.toNat) _ :=
      decodes_form rfl rfl hread
    exact h
  | some c =>
    have hform : EscapedForm.ofByte? (0x80 + UInt8.ofNat c.code) = some (.jcc c) := by
      cases c <;> rfl
    have hread : Reader.Reads (EscapedForm.read { (Opcode.two (0x80 + UInt8.ofNat c.code)).prefixes
        0 0 0 with lock := false } (.jcc c)) (leBytes 4 d.toUInt32.toNat) (jump (some c) d) :=
      (Reader.reads_int32 d).bind_pure
    have h : Decodes (lockByte false ++ ((Opcode.two (0x80 + UInt8.ofNat c.code)).bytes 0 0 0 ++
        leBytes 4 d.toUInt32.toNat)) _ := decodes_escapedForm false rfl hform hread
    exact h

/-- The two-byte form with a field for a label at `p`. -/
theorem decodes_short_field (cond : Option Cond) {offset p : Nat} {bs : List UInt8}
    (hf : field ⟨offset + 1, .rel8⟩ p = .ok bs) : ∃ d : Int32,
      Decodes (shortOpcode cond :: bs) (jump cond d) ∧
      d.toInt = (p : Int) - (offset + (2 : Nat)) := by
  simp only [field] at hf
  cases hd : int8? ((p : Int) - ((offset + 1 : Nat) + 1)) with
  | none =>
    simp only [hd] at hf
    cases hf
  | some d =>
    simp only [hd] at hf
    cases hf
    refine ⟨_, decodes_short cond d.toUInt8, ?_⟩
    have hlow := d.le_toInt
    have hhigh := d.toInt_lt
    have hval := toInt_of_int8? hd
    rw [Int8.toInt8_toUInt8, Int32.toInt_ofInt_of_le (by omega) (by omega), hval]
    omega

/-- The long form with a field for a label at `p`. -/
theorem decodes_long_field (cond : Option Cond) {offset p : Nat} {bs : List UInt8}
    (hf : field ⟨offset + (longOpcode cond).length, .rel32⟩ p = .ok bs) : ∃ d : Int32,
      Decodes (longOpcode cond ++ bs) (jump cond d) ∧
      d.toInt = (p : Int) - (offset + ((longOpcode cond).length + 4 : Nat)) := by
  simp only [field] at hf
  cases hd : int32? ((p : Int) - ((offset + (longOpcode cond).length : Nat) + 4)) with
  | none =>
    simp only [displacement32, hd] at hf
    cases hf
  | some d =>
    simp only [displacement32, hd] at hf
    cases hf
    refine ⟨d, decodes_long cond d, ?_⟩
    rw [toInt_of_int32? hd]
    omega

theorem jumpsAt_of_decodes {code : Array UInt8} {cond : Option Cond} {offset p : Nat}
    {bytes tail : List UInt8} {d : Int32} (hd : Decodes bytes (jump cond d))
    (hdisp : d.toInt = (p : Int) - (offset + bytes.length))
    (hcode : code.toList.drop offset = bytes ++ tail) :
    JumpsAt code cond offset bytes.length p :=
  ⟨d, by rw [hcode, hd], branchTarget?_jump hdisp⟩

theorem holds_of_field {code : Array UInt8} {s : ReferenceSite} {p : Nat} {bs tail : List UInt8}
    (hf : field s p = .ok bs) (hcode : code.toList.drop s.offset = bs ++ tail) :
    Holds code s.offset s.kind.width (s.displacement p) := by
  have hlen := length_field hf
  constructor
  · have := congrArg List.length hcode
    simp only [List.length_drop, List.length_append, Array.length_toList] at this
    have hpos : 0 < s.kind.width := by cases s.kind <;> simp [ReferenceKind.width]
    omega
  · rw [hcode, ← hlen, List.take_left, hlen]
    exact value_field hf

/-! ### Operations in a finished run -/

namespace BufferOp

/-- The operation `op`, which turns `before` into `after`, stands behind `pre` in a run that ends in
`final`. -/
structure Occurs (ops pre : List BufferOp) (op : BufferOp) (before after final : CodeBuffer) :
    Prop where
  run : runAll ops .empty = .ok () final
  split : ∃ post, ops = pre ++ op :: post
  run_pre : runAll pre .empty = .ok () before
  run_op : op.run before = .ok () after

/-- Where the pieces of an operation lie in the finished code, and before the operations behind it
have been made. -/
theorem Occurs.pieces {ops pre : List BufferOp} {op : BufferOp} {before after final : CodeBuffer}
    (h : Occurs ops pre op before after final) :
    ∃ ps rest tail, Written (ps ++ op.pieces before ++ rest) final ∧
      total ps = before.position ∧
      after.position = before.position + total (op.pieces before) ∧
      after.code.toList.drop before.position =
        render after.labelOffset before.position (op.pieces before) ∧
      final.code.toList.drop before.position =
        render final.labelOffset before.position (op.pieces before) ++ tail := by
  obtain ⟨post, hops⟩ := h.split
  obtain ⟨b, hb, hpost⟩ := runAll_append.mp (hops ▸ h.run)
  cases h.run_pre.symm.trans hb
  obtain ⟨c, hc, hpost⟩ := runAll_cons.mp hpost
  cases h.run_op.symm.trans hc
  obtain ⟨ps, hps⟩ := written_run_empty h.run_pre
  obtain ⟨hafter, -, -⟩ := written_run hps h.run_op
  obtain ⟨rest, hfinal, -⟩ := written_runAll hafter hpost
  have hpos := hps.position
  refine ⟨ps, rest, render final.labelOffset (before.position + total (op.pieces before)) rest,
    hfinal, hpos.symm, by rw [hafter.position, total_append, hpos], ?_, ?_⟩
  · rw [hafter.code, render_append, Nat.zero_add, ← hpos, List.drop_left' (by simp [hpos])]
  · rw [hfinal.code, render_append, render_append, total_append, Nat.zero_add, Nat.zero_add, ← hpos,
      List.append_assoc, List.drop_left' (by simp [hpos])]

/-- The jump to a label goes to where the label is bound first. -/
def Jumps (ops : List BufferOp) (before after : CodeBuffer) (code : Array UInt8)
    (cond : Option Cond) (l : Label) : Prop :=
  ∃ p, FirstBind ops l p ∧
    JumpsAt code cond before.position (after.position - before.position) p

/-- The jump has the two-byte form exactly when its label is bound before and lies in reach. -/
def Shortest (ops pre : List BufferOp) (before after : CodeBuffer) (l : Label) : Prop :=
  after.position - before.position = 2 ↔
    bind l ∈ pre ∧ ∃ p : Nat, FirstBind ops l p ∧
      -128 ≤ (p : Int) - (before.position + 2) ∧ (p : Int) - (before.position + 2) ≤ 127

/-- What the finished code holds where the operation has written. -/
def Resolved (ops pre : List BufferOp) (before after : CodeBuffer) (code : Array UInt8) :
    BufferOp → Prop
  | emit bs => (code.toList.drop before.position).take bs.length = bs
  | rel8 l => ∃ p, FirstBind ops l p ∧ Holds code before.position 1 (p - (before.position + 1))
  | rel32 l => ∃ p, FirstBind ops l p ∧ Holds code before.position 4 (p - (before.position + 4))
  | tableEntry l base => ∃ p, FirstBind ops l p ∧ Holds code before.position 4 (p - base)
  | jmp l => Jumps ops before after code none l ∧ Shortest ops pre before after l
  | jcc cond l => Jumps ops before after code (some cond) l ∧ Shortest ops pre before after l
  | jmpShort l => Jumps ops before after code none l
  | jccShort cond l => Jumps ops before after code (some cond) l
  | newLabel | reserve _ | bind _ => True

/-- The bytes of the field in the `n` bytes that an operation writes; the field stands at their
end. -/
def fieldWidth (n : Nat) : BufferOp → Nat
  | rel8 _ | jmpShort _ | jccShort _ _ => 1
  | rel32 _ | tableEntry _ _ => 4
  | jmp _ | jcc _ _ => if n = 2 then 1 else 4
  | emit _ | newLabel | reserve _ | bind _ => 0

variable {ops pre : List BufferOp} {op : BufferOp} {before after final : CodeBuffer}
  {code : Array UInt8}

/-- The fields of an operation in finished code have the values for the labels' first bindings. -/
theorem fields_of_occurs (h : Occurs ops pre op before after final)
    (hcode : final.finish = .ok code) : ∃ tail,
      code.toList.drop before.position =
        render final.labelOffset before.position (op.pieces before) ++ tail ∧
      ∀ l s, s ∈ sites l before.position (op.pieces before) →
        ∃ p bs, FirstBind ops l p ∧ fieldBytes s (final.labelOffset l) = bs ∧
        field s p = .ok bs := by
  obtain ⟨ps, rest, tail, hw, htotal, -, -, hslice⟩ := h.pieces
  obtain ⟨rfl, -⟩ := finish_eq_ok hcode
  refine ⟨tail, hslice, fun l s hs => ?_⟩
  have hmem : s ∈ sites l 0 (ps ++ op.pieces before ++ rest) := by
    rw [sites_append, sites_append, Nat.zero_add, htotal]
    simp [hs]
  obtain ⟨p, bs, hp, hbs⟩ := resolved_of_finish hw hcode hmem
  exact ⟨p, bs, (labelOffset_eq_some h.run).mp hp, by simp [fieldBytes, hp, hbs], hbs⟩

/-- An operation that is one reference. -/
theorem holds_of_occurs {l : Label} {kind : ReferenceKind}
    (h : Occurs ops pre op before after final) (hcode : final.finish = .ok code)
    (hop : op.pieces before = [.ref l kind]) :
    ∃ p, FirstBind ops l p ∧ Holds code before.position kind.width
      ((⟨before.position, kind⟩ : ReferenceSite).displacement p) := by
  obtain ⟨tail, hslice, hfields⟩ := fields_of_occurs h hcode
  rw [hop] at hslice hfields
  obtain ⟨p, bs, hp, hbytes, hf⟩ := hfields l ⟨before.position, kind⟩ (by simp [sites])
  rw [render, hbytes] at hslice
  exact ⟨p, hp, holds_of_field hf (by simpa [render] using hslice)⟩

/-- An operation that is a jump, of either form. -/
theorem jumps_of_occurs {l : Label} {cond : Option Cond}
    (h : Occurs ops pre op before after final) (hcode : final.finish = .ok code)
    (hop : op.pieces before = [.bytes [shortOpcode cond], .ref l .rel8] ∨
      op.pieces before = [.bytes (longOpcode cond), .ref l .rel32]) :
    Jumps ops before after code cond l := by
  obtain ⟨-, -, -, -, -, hafter, -⟩ := h.pieces
  obtain ⟨tail, hslice, hfields⟩ := fields_of_occurs h hcode
  obtain hop | hop := hop <;> rw [hop] at hafter hslice hfields
  · obtain ⟨p, bs, hp, hbytes, hf⟩ := hfields l ⟨before.position + 1, .rel8⟩ (by simp [sites])
    have hlen : after.position - before.position = 2 := by
      simp [hafter, Piece.length, ReferenceKind.width]
    refine ⟨p, hp, ?_⟩
    rw [hlen]
    obtain ⟨d, hd, hdisp⟩ := decodes_short_field cond hf
    have hbs : (shortOpcode cond :: bs).length = 2 := by simp [length_field hf, ReferenceKind.width]
    rw [← hbs] at hdisp ⊢
    exact jumpsAt_of_decodes hd hdisp (by simpa [render, hbytes] using hslice)
  · obtain ⟨p, bs, hp, hbytes, hf⟩ := hfields l
      ⟨before.position + (longOpcode cond).length, .rel32⟩ (by simp [sites])
    have hlen : after.position - before.position = (longOpcode cond).length + 4 := by
      simp [hafter, Piece.length, ReferenceKind.width]
    refine ⟨p, hp, ?_⟩
    rw [hlen]
    obtain ⟨d, hd, hdisp⟩ := decodes_long_field cond hf
    have hbs : (longOpcode cond ++ bs).length = (longOpcode cond).length + 4 := by
      simp [length_field hf, ReferenceKind.width]
    rw [← hbs] at hdisp ⊢
    exact jumpsAt_of_decodes hd hdisp (by simpa [render, hbytes] using hslice)

theorem shortReach?_isSome {b : CodeBuffer} {l : Label} :
    (b.shortReach? l).isSome ↔ ∃ p, b.labelOffset l = some p ∧
      -128 ≤ (p : Int) - (b.position + 2) ∧ (p : Int) - (b.position + 2) ≤ 127 := by
  have reach : ∀ v : Int, (int8? v).isSome ↔ -128 ≤ v ∧ v ≤ 127 := by
    intro v
    unfold int8?
    split <;> simp <;> omega
  cases hl : b.labelOffset l with
  | none => simp [shortReach?, hl]
  | some p => simp [shortReach?, hl, reach]

/-- The choice of the form of a jump. -/
theorem shortest_of_occurs {l : Label} (cond : Option Cond)
    (h : Occurs ops pre op before after final)
    (hop : op.pieces before = before.branchPieces (shortOpcode cond) (longOpcode cond) l) :
    Shortest ops pre before after l := by
  obtain ⟨-, -, -, -, -, hafter, -⟩ := h.pieces
  obtain ⟨post, hops⟩ := h.split
  have hlen : after.position - before.position = 2 ↔ (before.shortReach? l).isSome := by
    have hlong : (longOpcode cond).length + 4 ≠ 2 := by omega
    rw [hop, branchPieces] at hafter
    split at hafter <;> rename_i hreach <;> simp [Piece.length, ReferenceKind.width] at hafter <;>
      simp [hafter, hreach]
  rw [Shortest, hlen, shortReach?_isSome]
  constructor
  · rintro ⟨p, hp, hreach⟩
    have hfirst : FirstBind pre l p := (labelOffset_eq_some h.run_pre).mp hp
    have hmem : bind l ∈ pre := by
      obtain ⟨pre', post', -, rfl, -⟩ := hfirst
      simp
    exact ⟨hmem, p, hops ▸ hfirst.append, hreach⟩
  · rintro ⟨hmem, p, hp, hreach⟩
    obtain ⟨q, hq⟩ := exists_firstBind h.run_pre hmem
    have hqp : q = p := firstBind_unique h.run (hops ▸ hq.append) hp
    exact ⟨q, (labelOffset_eq_some h.run_pre).mpr hq, hqp ▸ hreach⟩

theorem resolved_of_occurs (h : Occurs ops pre op before after final)
    (hcode : final.finish = .ok code) : op.Resolved ops pre before after code := by
  cases op with
  | emit bs =>
    obtain ⟨tail, hslice, -⟩ := fields_of_occurs h hcode
    have hs : code.toList.drop before.position = bs ++ tail := by
      simpa [pieces, render] using hslice
    rw [Resolved, hs, List.take_left]
  | newLabel | reserve _ | bind _ => trivial
  | rel8 l | rel32 l | tableEntry l base => exact holds_of_occurs h hcode rfl
  | jmp l =>
    refine ⟨jumps_of_occurs h hcode ?_, shortest_of_occurs none h rfl⟩
    simp only [pieces, branchPieces]
    split
    · exact .inl rfl
    · exact .inr rfl
  | jcc cond l =>
    refine ⟨jumps_of_occurs h hcode ?_, shortest_of_occurs (some cond) h rfl⟩
    simp only [pieces, branchPieces]
    split
    · exact .inl rfl
    · exact .inr rfl
  | jmpShort l => exact jumps_of_occurs h hcode (.inl rfl)
  | jccShort cond l => exact jumps_of_occurs h hcode (.inl rfl)

/-- An operation writes bytes that never change, and then its field. -/
theorem render_pieces (op : BufferOp) (b : CodeBuffer) :
    ∃ (head : List UInt8) (r : List Piece),
      (∀ env offset, render env offset (op.pieces b) =
        head ++ render env (offset + head.length) r) ∧
      total (op.pieces b) = head.length + total r ∧
      op.fieldWidth (total (op.pieces b)) = total r := by
  have branch : ∀ short long l,
      ∃ (head : List UInt8) (r : List Piece),
        (∀ env offset, render env offset (b.branchPieces short long l) =
          head ++ render env (offset + head.length) r) ∧
        total (b.branchPieces short long l) = head.length + total r ∧
        (if total (b.branchPieces short long l) = 2 then 1 else 4) = total r := by
    intro short long l
    unfold branchPieces
    split
    · exact ⟨[short], [.ref l .rel8], fun _ _ => rfl, rfl, rfl⟩
    · refine ⟨long, [.ref l .rel32], fun _ _ => rfl, by simp [Piece.length], ?_⟩
      simp only [total_cons, Piece.length, ReferenceKind.width, total_nil]
      rw [if_neg (by omega)]
  cases op with
  | emit bs => exact ⟨bs, [], fun _ _ => rfl, rfl, rfl⟩
  | newLabel | reserve _ | bind _ => exact ⟨[], [], fun _ _ => rfl, rfl, rfl⟩
  | rel8 l => exact ⟨[], [.ref l .rel8], fun _ _ => rfl, rfl, rfl⟩
  | rel32 l => exact ⟨[], [.ref l .rel32], fun _ _ => rfl, rfl, rfl⟩
  | tableEntry l base => exact ⟨[], [.ref l (.table base)], fun _ _ => rfl, rfl, rfl⟩
  | jmp l => exact branch _ _ l
  | jcc cond l => exact branch _ _ l
  | jmpShort l => exact ⟨[0xEB], [.ref l .rel8], fun _ _ => rfl, rfl, rfl⟩
  | jccShort cond l => exact ⟨[_], [.ref l .rel8], fun _ _ => rfl, rfl, rfl⟩

/-- Outside of its field the bytes of an operation stay as it has written them. -/
theorem kept_of_occurs (h : Occurs ops pre op before after final)
    (hcode : final.finish = .ok code) {i : Nat} (hlow : before.position ≤ i)
    (hhigh : i + op.fieldWidth (after.position - before.position) < after.position) :
    code[i]? = after.code[i]? := by
  obtain ⟨ps, rest, tail, -, -, hafter, hslice, hslice'⟩ := h.pieces
  obtain ⟨rfl, -⟩ := finish_eq_ok hcode
  obtain ⟨head, r, hrender, htotal, hwidth⟩ := render_pieces op before
  have hn : after.position - before.position = total (op.pieces before) := by omega
  have hi : i - before.position < head.length := by
    rw [hn, hwidth] at hhigh
    omega
  have get : ∀ (bytes : Array UInt8) (tail : List UInt8),
      bytes.toList.drop before.position = head ++ tail →
      bytes[i]? = head[i - before.position]? := by
    intro bytes tail hbytes
    rw [← List.getElem?_append_left hi, ← hbytes, List.getElem?_drop, Nat.add_sub_cancel' hlow,
      Array.getElem?_toList]
  rw [hrender] at hslice hslice'
  rw [get _ _ hslice, get _ _ (hslice'.trans (List.append_assoc _ _ _))]

/-- Every byte behind the start of a run is written by one of its operations. -/
theorem exists_written {b : CodeBuffer} {i : Nat} (hr : runAll ops b = .ok () final)
    (hlow : b.position ≤ i) (hhigh : i < final.position) :
    ∃ pre op post before after, ops = pre ++ op :: post ∧ runAll pre b = .ok () before ∧
      op.run before = .ok () after ∧ before.position ≤ i ∧ i < after.position := by
  induction ops generalizing b with
  | nil =>
    cases hr
    omega
  | cons op ops ih =>
    obtain ⟨c, hc, hr⟩ := runAll_cons.mp hr
    by_cases hi : i < c.position
    · exact ⟨[], op, ops, b, c, rfl, rfl, hc, hlow, hi⟩
    · obtain ⟨pre, op', post, before, after, rfl, hpre, hrest⟩ := ih hr (Nat.le_of_not_lt hi)
      exact ⟨op :: pre, op', post, before, after, rfl, runAll_cons.mpr ⟨c, hc, hpre⟩, hrest⟩

end BufferOp

end MachineCode
