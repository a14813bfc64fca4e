import MachineCode.Proofs.Decoding.RoundTrip
import MachineCode.Proofs.Effects.Primitives
import MachineCode.Proofs.Emission.Actions
import MachineCode.Proofs.Labels.Runs
import MachineCode.Proofs.References.Entries
import MachineCode.Proofs.References.Widths

/-! The invariant of a draft about its references. A reference to the data section belongs to an
instruction whose access lies in the section; jump tables and, where the target asks for it, the
fields of direct calls are at multiples of 4. Lowering keeps the invariant, with any bytes between
the instructions. -/
namespace MachineCode

open X64 CodeBuffer Piece Lower SideTables

variable {α β : Type}

/-- Bytes that the instruction accesses at its memory operand; an address is only computed. -/
def X64.Decoded.accessSize (i : Decoded) : Nat := (i.mem?.map Prod.snd).getD 0

/-- The access at `offset` of a section of `size` bytes is aligned where the processor asks for it.
With `strict` it stays in the section. -/
structure Fits (strict : Prop) (size offset : Nat) (i : Instr) : Prop where
  inside : strict → offset + i.decoded.accessSize ≤ size
  aligned : i.decoded.accessSize = 16 → 16 ∣ offset

theorem Fits.mono {strict : Prop} {size size' offset : Nat} {i : Instr}
    (h : Fits strict size offset i) (hle : size ≤ size') : Fits strict size' offset i :=
  ⟨fun hs => Nat.le_trans (h.inside hs) hle, h.aligned⟩

/-- Among the pieces is the instruction that a field for data belongs to. -/
def Relocation.Supported (strict : Prop) (size : Nat) (ps : List Piece) (x : Relocation) : Prop :=
  ∀ offset stop, x.kind = .data offset stop → ∃ pre i post k,
    ps = pre ++ .bytes i.encode.bytes :: post ∧ i.Encodable ∧ i.mem? = some (.rip 0) ∧
    i.encode.ripField = some k ∧ x.offset = total pre + k ∧ stop = total pre + i.encode.length ∧
    Fits strict size offset i

theorem Relocation.Supported.mono {strict : Prop} {size size' : Nat} {ps qs : List Piece}
    {x : Relocation} (h : x.Supported strict size ps) (hle : size ≤ size') :
    x.Supported strict size' (ps ++ qs) := by
  intro offset stop hkind
  obtain ⟨pre, i, post, k, rfl, henc, hmem, hk, hfield, hstop, hfits⟩ := h offset stop hkind
  exact ⟨pre, i, post ++ qs, k, by simp, henc, hmem, hk, hfield, hstop, hfits.mono hle⟩

/-- Where direct calls are aligned, a field for a call is at a multiple of 4. -/
def Relocation.CallAligned (target : Target) (x : Relocation) : Prop :=
  target.options.alignDirectCalls = true → ∀ callee, x.kind = .call callee → 4 ∣ x.offset

structure Tidy (strict : Prop) (d : Draft) : Prop where
  data : d.data.Placed
  written : ∃ ps, Written ps d.buffer ∧
    ∀ x ∈ d.tables.relocations, x.Supported strict d.data.size ps
  calls : ∀ x ∈ d.tables.relocations, x.CallAligned d.target
  tables : ∀ t ∈ d.tables.jumpTables, 4 ∣ t.position
  pending : strict → ∀ path ∈ d.pending, path.Agrees

namespace Tidy

variable {strict : Prop} {d : Draft}

/-- What the invariant is not about may change. -/
theorem congr {d' : Draft} (h : Tidy strict d) (hdata : d'.data = d.data)
    (hbuffer : d'.buffer = d.buffer) (htarget : d'.target = d.target)
    (hrelocations : d'.tables.relocations = d.tables.relocations)
    (htables : d'.tables.jumpTables = d.tables.jumpTables) (hpending : d'.pending = d.pending) :
    Tidy strict d' where
  data := hdata ▸ h.data
  written := by
    rw [hdata, hbuffer, hrelocations]
    exact h.written
  calls := by
    rw [htarget, hrelocations]
    exact h.calls
  tables := htables ▸ h.tables
  pending := hpending ▸ h.pending

/-- The data section may grow, as long as its entries stay in order. -/
theorem grow {s : DataSection} (h : Tidy strict d) (hs : s.Placed) (hle : d.data.size ≤ s.size) :
    Tidy strict { d with data := s } where
  data := hs
  written := by
    obtain ⟨ps, hw, hx⟩ := h.written
    refine ⟨ps, hw, fun x hmem => ?_⟩
    have : x.Supported strict s.size (ps ++ []) := (hx x hmem).mono hle
    rwa [List.append_nil] at this
  calls := h.calls
  tables := h.tables
  pending := h.pending

/-- Pieces may be added to the code. -/
theorem write {b : CodeBuffer} (h : Tidy strict d)
    (hb : ∀ ps, Written ps d.buffer → ∃ qs, Written (ps ++ qs) b) :
    Tidy strict { d with buffer := b } where
  data := h.data
  written := by
    obtain ⟨ps, hw, hx⟩ := h.written
    obtain ⟨qs, hw'⟩ := hb ps hw
    exact ⟨ps ++ qs, hw', fun x hmem => (hx x hmem).mono (Nat.le_refl _)⟩
  calls := h.calls
  tables := h.tables
  pending := h.pending

/-- An instruction is written with the relocation of its field. -/
theorem push {b : CodeBuffer} {i : Instr} {x : Relocation} {seen : List (String × Nat)}
    (h : Tidy strict d)
    (hcode : b.code = (d.buffer.append i.encode.bytes).code) (hlabels : b.labels = d.buffer.labels)
    (hdata : ∀ ps, Written ps d.buffer →
      x.Supported strict d.data.size (ps ++ [.bytes i.encode.bytes]))
    (hcall : x.CallAligned d.target) : Tidy strict { d with
      buffer := b
      tables := { d.tables with relocations := d.tables.relocations.push x, seen := seen } } where
  data := h.data
  written := by
    obtain ⟨ps, hw, hx⟩ := h.written
    exact ⟨_, hw.emit_congr hcode hlabels,
      Array.forall_mem_push.mpr ⟨hdata ps hw, fun y hy => (hx y hy).mono (Nat.le_refl _)⟩⟩
  calls := Array.forall_mem_push.mpr ⟨hcall, h.calls⟩
  tables := h.tables
  pending := h.pending

end Tidy

/-- The draft is a later one of the same method: its target is the same, and its data section has
only grown. -/
structure Draft.Later (d d' : Draft) : Prop where
  size : d.data.size ≤ d'.data.size
  target : d'.target = d.target

namespace Draft.Later

variable {d d' d'' : Draft}

theorem trans (h : d.Later d') (h' : d'.Later d'') : d.Later d'' :=
  ⟨Nat.le_trans h.size h'.size, h'.target.trans h.target⟩

end Draft.Later

/-- From a draft in order whose data section has at least `n` bytes, the step leads to a later draft
in order. -/
def Snug (strict : Prop) (n : Nat) (x : Lower α) : Prop :=
  ∀ d a d', n ≤ d.data.size → Tidy strict d → x d = .ok a d' → d.Later d' ∧ Tidy strict d'

variable {strict : Prop} {n : Nat}

/-! ### Rules -/

section Rules

variable {x : Lower α}

/-- What is known of the result of a step may be used. -/
theorem Snug.bind_of {f : α → Lower β} {p : α → Prop} (hx : Snug strict n x)
    (hp : ∀ d a d', x d = .ok a d' → p a) (hf : ∀ a, p a → Snug strict n (f a)) :
    Snug strict n (x >>= f) := by
  intro d b d'' hn hd hrun
  obtain ⟨a, d', hx', hf'⟩ := Step.bind_eq_ok.mp hrun
  obtain ⟨hlater, hd'⟩ := hx d a d' hn hd hx'
  obtain ⟨hlater', hd''⟩ := hf a (hp d a d' hx') d' b d'' (Nat.le_trans hn hlater.size) hd' hf'
  exact ⟨hlater.trans hlater', hd''⟩

theorem Snug.bind {f : α → Lower β} (hx : Snug strict n x) (hf : ∀ a, Snug strict n (f a)) :
    Snug strict n (x >>= f) :=
  hx.bind_of (p := fun _ => True) (fun _ _ _ _ => trivial) fun a _ => hf a

theorem Snug.mono {n' : Nat} (hx : Snug strict n x) (hle : n ≤ n') : Snug strict n' x :=
  fun d a d' hn => hx d a d' (Nat.le_trans hle hn)

theorem Snug.discard (hx : Snug strict n x) : Snug strict n (discard x) := by
  intro d u d' hn hd hrun
  obtain ⟨a, hrun⟩ := Step.discard_eq_ok.mp hrun
  exact hx d a d' hn hd hrun

/-- A step that leaves what the invariant is about. -/
theorem snug_of_same (h : ∀ d a d', x d = .ok a d' → d'.data = d.data ∧ d'.buffer = d.buffer ∧
    d'.target = d.target ∧ d'.tables.relocations = d.tables.relocations ∧
    d'.tables.jumpTables = d.tables.jumpTables ∧ d'.pending = d.pending) : Snug strict n x := by
  intro d a d' _ hd hrun
  obtain ⟨hdata, hbuffer, htarget, hrelocations, htables, hpending⟩ := h d a d' hrun
  exact ⟨⟨Nat.le_of_eq (by rw [hdata]), htarget⟩,
    hd.congr hdata hbuffer htarget hrelocations htables hpending⟩

theorem snug_pure (a : α) : Snug strict n (pure a) :=
  snug_of_same fun _ _ _ h => by cases h; exact ⟨rfl, rfl, rfl, rfl, rfl, rfl⟩

theorem snug_get : Snug strict n get :=
  snug_of_same fun _ _ _ h => by cases h; exact ⟨rfl, rfl, rfl, rfl, rfl, rfl⟩

theorem snug_position : Snug strict n position := snug_get.bind fun _ => snug_pure _

theorem snug_throw (err : Error) : Snug strict n (throw err : Lower α) :=
  fun _ _ _ _ _ h => absurd h Step.throw_ne_ok

theorem snug_unhandled (detail : String) : Snug strict n (unhandled detail : Lower α) :=
  snug_get.bind fun _ => snug_throw _

theorem snug_ofExcept (y : Except Error α) : Snug strict n (Lower.ofExcept y) := by
  refine snug_of_same fun d a d' h => ?_
  obtain ⟨-, rfl⟩ := ofExcept_eq_ok.mp h
  exact ⟨rfl, rfl, rfl, rfl, rfl, rfl⟩

theorem snug_modify {f : Draft → Draft}
    (h : ∀ d, (f d).data = d.data ∧ (f d).buffer = d.buffer ∧ (f d).target = d.target ∧
      (f d).tables = d.tables ∧ (f d).pending = d.pending) :
    Snug strict n (modify f) := by
  refine snug_of_same fun d a d' hrun => ?_
  cases Step.modify_eq_ok.mp hrun
  obtain ⟨hdata, hbuffer, htarget, htables, hpending⟩ := h d
  exact ⟨hdata, hbuffer, htarget, by rw [htables], by rw [htables], hpending⟩

theorem snug_log (event : Event) : Snug strict n (log event) :=
  snug_modify fun _ => ⟨rfl, rfl, rfl, rfl, rfl⟩

theorem snug_enqueue {path : SlowPath} (h : strict → path.Agrees) :
    Snug strict n (enqueue path) := by
  intro d u d' _ hd hrun
  cases Step.modify_eq_ok.mp hrun
  exact ⟨⟨Nat.le_refl _, rfl⟩,
    { hd with pending := fun hs => Array.forall_mem_push.mpr ⟨h hs, hd.pending hs⟩ }⟩

theorem snug_forM {xs : List α} {f : α → Lower Unit} (hf : ∀ a ∈ xs, Snug strict n (f a)) :
    Snug strict n (xs.forM f) := by
  induction xs with
  | nil => exact snug_pure ()
  | cons a xs ih => exact (hf a (by simp)).bind fun _ => ih fun b hb => hf b (by simp [hb])

/-- Records of other tables than those of relocations and jump tables. -/
theorem snug_record {f : RecordStep Unit}
    (h : ∀ t t', f t = .ok () t' → t'.relocations = t.relocations ∧ t'.jumpTables = t.jumpTables) :
    Snug strict n (record f) := by
  refine snug_of_same fun d a d' hrun => ?_
  obtain ⟨t, ht, rfl⟩ := record_eq_ok.mp hrun
  obtain ⟨hrelocations, htables⟩ := h _ _ ht
  exact ⟨rfl, rfl, rfl, hrelocations, htables, rfl⟩

end Rules

/-! ### Code -/

/-- A step on the buffer adds pieces. -/
theorem snug_onBuffer {x : BufferStep α} (h : ∀ ps b a b', Written ps b → x b = .ok a b' →
    ∃ qs, Written (ps ++ qs) b') : Snug strict n (onBuffer x) := by
  intro d a d' _ hd hrun
  obtain ⟨b, hb, rfl⟩ := onBuffer_eq_ok.mp hrun
  exact ⟨⟨Nat.le_refl _, rfl⟩, hd.write fun ps hw => h ps _ a b hw hb⟩

theorem snug_bufferOp (op : BufferOp) : Snug strict n (onBuffer op.run) :=
  snug_onBuffer fun _ _ _ _ hw hrun => ⟨_, (BufferOp.written_run hw hrun).1⟩

theorem snug_emitBytes (bytes : List UInt8) : Snug strict n (emitBytes bytes) :=
  snug_bufferOp (.emit bytes)

theorem snug_emit (i : Instr) : Snug strict n (emit i) := snug_emitBytes _

theorem snug_emitAlign (align : Nat) : Snug strict n (emitAlign align) :=
  snug_position.bind fun _ => snug_emitBytes _

theorem snug_jmp (l : Label) : Snug strict n (jmp l) := snug_bufferOp (.jmp l)

theorem snug_jcc (cond : Cond) (l : Label) : Snug strict n (jcc cond l) :=
  snug_bufferOp (.jcc cond l)

theorem snug_jccShort (cond : Cond) (l : Label) : Snug strict n (jccShort cond l) :=
  snug_bufferOp (.jccShort cond l)

theorem snug_reserveLabels (count : Nat) : Snug strict n (reserveLabels count) :=
  snug_bufferOp (.reserve count)

theorem snug_bind (l : Label) : Snug strict n (bind l) := by
  refine Snug.bind (snug_onBuffer fun ps b fresh b' hw hb => ⟨[], ?_⟩) fun fresh => ?_
  · rw [List.append_nil]
    exact (hw.bind hb).1
  · cases fresh with
    | false => exact snug_pure ()
    | true => exact snug_position.bind fun _ => snug_log _

theorem snug_newLabels (count : Nat) : Snug strict n (newLabels count) := by
  intro d a d' _ hd hrun
  cases hrun
  refine ⟨⟨Nat.le_refl _, rfl⟩, hd.write fun ps hw => ⟨[], ?_⟩⟩
  rw [List.append_nil]
  exact hw.withLabels count

theorem snug_newLabel : Snug strict n newLabel := by
  intro d a d' _ hd hrun
  cases hrun
  have hlabel : d.buffer.newLabel.2 = d.buffer.withLabels 1 :=
    congrArg Prod.snd (newLabel_eq d.buffer)
  refine ⟨⟨Nat.le_refl _, rfl⟩, hd.write fun ps hw => ⟨[], ?_⟩⟩
  rw [List.append_nil]
  change Written ps d.buffer.newLabel.2
  exact hlabel ▸ hw.withLabels 1

/-- A field without alignment of its own. -/
theorem snug_embed (o : ObjectId) (dst : Gpr) (value : UInt64) :
    Snug strict n (emitLinked (.movAbs dst value) fun field =>
      SideTables.recordObject field o) := by
  intro d a d' _ hd hrun
  obtain ⟨t, ht, rfl⟩ := emitLinked_eq_ok hrun
  cases eq_of_keyed ht
  exact ⟨⟨Nat.le_refl _, rfl⟩, hd.push rfl rfl (fun _ _ => nofun) fun _ => nofun⟩

/-! ### Places -/

/-- What is known of the place of an operand when the data section has `n` bytes: the operand lies
in the section with all bytes of its kind, or the place is outside of it. -/
structure Location.Covers (l : Location) (n : Nat) (o : Operand) : Prop where
  valid : l.Valid
  inside : ∀ offset, l.data = some offset → inData o = true ∧ offset + o.kind.size ≤ n

theorem Location.Covers.plain {m : Mem} (h : m.Encodable) (n : Nat) (o : Operand) :
    (Location.plain m).Covers n o := ⟨valid_plain h, nofun⟩

theorem Location.Covers.data_eq_none {l : Location} {n : Nat} {o : Operand} (hl : l.Covers n o)
    (ho : inData o = false) : l.data = none := by
  cases hdata : l.data with
  | none => rfl
  | some offset =>
    have := (hl.inside offset hdata).1
    rw [ho] at this
    cases this

theorem unhandled_ne_ok {detail : String} {d d' : Draft} {a : α} :
    (unhandled detail : Lower α) d ≠ .ok a d' := by
  rw [unhandled, Step.get_bind]
  exact Step.throw_ne_ok

/-- An address in the section is refused unless all its bytes are there. -/
theorem covers_of_address {a : Address} {l : Location} {d d' : Draft}
    (hrun : address a d = .ok l d') :
    d' = d ∧ l.Covers d.data.size (.addr a) := by
  obtain ⟨kind, base, index, scale, disp⟩ := a
  unfold address at hrun
  cases base with
  | register base =>
    dsimp only at hrun
    cases hbase : Gpr.ofRegister? base with
    | none =>
      rw [hbase] at hrun
      exact absurd hrun unhandled_ne_ok
    | some base =>
      rw [hbase] at hrun
      cases index with
      | none =>
        cases hrun
        exact ⟨rfl, .plain (encodable_based _ _) _ _⟩
      | some index =>
        dsimp only at hrun
        cases hindex : (Gpr.ofRegister? index).filter (· != .rsp) with
        | none =>
          rw [hindex] at hrun
          exact absurd hrun unhandled_ne_ok
        | some index =>
          rw [hindex] at hrun
          cases hrun
          have hrsp := (Option.filter_eq_some_iff.mp hindex).2
          exact ⟨rfl, .plain (encodable_indexed (by simpa using hrsp)) _ _⟩
  | data start =>
    dsimp only at hrun
    cases hindex : index.isSome with
    | true =>
      rw [hindex, if_pos rfl] at hrun
      exact absurd hrun unhandled_ne_ok
    | false =>
      rw [hindex, if_neg (by decide), Step.get_bind] at hrun
      split at hrun
      · exact absurd hrun Step.throw_ne_ok
      · split at hrun
        · exact absurd hrun Step.throw_ne_ok
        · rename_i hlength
          cases hrun
          refine ⟨rfl, valid_ofData _, ?_⟩
          rintro _ ⟨⟩
          exact ⟨rfl, Nat.le_of_not_lt hlength⟩

theorem covers_of_location {o : Operand} {l : Location} {d d' : Draft}
    (hrun : location o d = .ok l d') :
    d' = d ∧ l.Covers d.data.size o := by
  unfold location at hrun
  split at hrun
  · rw [Step.get_bind] at hrun
    obtain ⟨m, d₁, hm, hrun⟩ := Step.bind_eq_ok.mp hrun
    obtain ⟨disp, d₂, hdisp, hm⟩ := Step.bind_eq_ok.mp hm
    obtain ⟨-, rfl⟩ := ofExcept_eq_ok.mp hdisp
    cases hm
    cases hrun
    exact ⟨rfl, .plain (encodable_based _ _) _ _⟩
  · exact covers_of_address hrun
  · exact absurd hrun unhandled_ne_ok

/-- What follows the search for a place may rely on the section as it is then. -/
theorem snug_location {o : Operand} {f : Location → Lower β}
    (hf : ∀ l k, n ≤ k → l.Covers k o → Snug strict k (f l)) :
    Snug strict n (location o >>= f) := by
  intro d b d'' hn hd hrun
  obtain ⟨l, d', hl, hrest⟩ := Step.bind_eq_ok.mp hrun
  obtain ⟨rfl, hcovers⟩ := covers_of_location hl
  exact hf l _ hn hcovers _ b d'' (Nat.le_refl _) hd hrest

/-- The same for a constant or a slot of the data section. -/
theorem snug_onData {f : DataSection → α × DataSection} {g : α → Lower β} {p : α → Nat → Prop}
    (h : ∀ s : DataSection, s.Placed →
      (f s).2.Placed ∧ s.size ≤ (f s).2.size ∧ p (f s).1 (f s).2.size)
    (hg : ∀ a k, n ≤ k → p a k → Snug strict k (g a)) : Snug strict n (onData f >>= g) := by
  intro d b d'' hn hd hrun
  obtain ⟨a, d', hdata, hrun⟩ := Step.bind_eq_ok.mp hrun
  obtain ⟨rfl, rfl⟩ := onData_eq_ok.mp hdata
  obtain ⟨hplaced, hle, hp⟩ := h d.data hd.data
  obtain ⟨hlater, hd'⟩ := hg _ _ (Nat.le_trans hn hle) hp _ b d'' (Nat.le_refl _)
    (hd.grow hplaced hle) hrun
  exact ⟨⟨Nat.le_trans hle hlater.size, hlater.target⟩, hd'⟩

/-- An access to memory. A place in the data section has to fit the instruction. -/
theorem snug_emitAt {l : Location} {i : Mem → Instr} (hl : l.Valid) (hi : ∀ m, (i m).mem? = some m)
    (hfits : ∀ offset, l.data = some offset → Fits strict n offset (i l.mem)) :
    Snug strict n (emitAt l i) := by
  intro d pc d' hn hd hrun
  obtain ⟨rfl, t, rfl, hnone, hsome⟩ := emitAt_eq_ok hrun
  refine ⟨⟨Nat.le_refl _, rfl⟩, ?_⟩
  have henc : (i l.mem).Encodable := Instr.encodable_of_some (hi l.mem) hl.encodable
  cases hdata : l.data with
  | none =>
    cases hnone hdata
    exact hd.write fun ps hw => ⟨_, hw.emit_congr rfl rfl⟩
  | some offset =>
    obtain ⟨k, hk, hrecord⟩ := hsome offset hdata
    cases recordData_eq_ok hrecord
    refine hd.push rfl rfl (fun ps hw => ?_) fun _ => nofun
    rintro _ _ ⟨⟩
    rw [hw.position]
    have hmem : l.mem = .rip 0 := hl.data (by rw [hdata]; rfl)
    exact ⟨ps, i l.mem, [], k, rfl, henc, (hi l.mem).trans (by rw [hmem]), hk, rfl, rfl,
      (hfits offset hdata).mono hn⟩

end MachineCode
