import MachineCode.Proofs.Decoding.Relative
import MachineCode.Proofs.Effects.Runs
import MachineCode.Proofs.Records.Claims

/-! Keys of the side tables. Every record is made under a position that its table does not have yet,
with one exception: the exception edges of a call are recorded at its return address, and those of
an instruction that may fault where that instruction starts. -/
namespace MachineCode

open X64 Lower SideTables

variable {α : Type}

/-! ### Tables behind a position -/

/-- A call that has exception edges returns here. -/
def SideTables.ReturnsTo (t : SideTables) (pc : Nat) : Prop :=
  ∃ s ∈ t.callSites, s.pc = pc ∧ ∃ info ∈ s.info, info.edges ≠ []

/-- All records were made under keys up to `p`. Exception edges are recorded at `p` itself only for
a call that returns there, and with `nop` not even for those. Target and marks are those of
`base`. -/
structure Recorded (base : Draft) (nop : Bool) (p : Nat) (d : Draft) : Prop where
  target : d.target = base.target
  marks : d.tables.marks = base.tables.marks
  le : p ≤ d.buffer.position
  relocations : ∀ r ∈ d.tables.relocations, r.offset < d.buffer.position
  dataObjects : ∀ x ∈ d.tables.dataObjects, x.dataOffset < d.data.size
  callSites : ∀ s ∈ d.tables.callSites, s.pc ≤ p
  safepoints : ∀ s ∈ d.tables.safepoints, s.pc < p
  traps : ∀ x ∈ d.tables.implicitExceptions, x.pc < p
  jumpTables : ∀ t ∈ d.tables.jumpTables, t.position ≤ p
  handlers : ∀ h ∈ d.tables.exceptionHandlers,
    h.pc < p ∨ h.pc = p ∧ nop = false ∧ d.tables.ReturnsTo p
  linked : d.tables.Linked

/-- The draft is between two actions. -/
abbrev Between (base : Draft) (d : Draft) : Prop :=
  Recorded base base.target.options.emitNopAfterCall d.buffer.position d

/-- The exception edges of a call and those of an instruction behind it are recorded under one
key. -/
structure Collides (d : Draft) (pc : Nat) : Prop where
  noNop : d.target.options.emitNopAfterCall = false
  call : d.tables.ReturnsTo pc
  trap : ∃ x ∈ d.tables.implicitExceptions, x.pc = pc ∧ x.info.edges ≠ []

/-- A failure with a duplicate record is one of exception edges that collide. -/
def OnlyCollision (err : Error) (d : Draft) : Prop :=
  ∀ table pc, err = .duplicateRecord table pc → table = "exception handlers" ∧ Collides d pc

theorem OnlyCollision.of_clean {err : Error} {d : Draft} (h : err.isDuplicate = false) :
    OnlyCollision err d := by
  rintro table pc rfl
  cases h

variable {base d d' : Draft} {nop : Bool} {p n : Nat}

namespace Recorded

theorem mono {q : Nat} (h : Recorded base nop p d) (hpq : p ≤ q) (hq : q ≤ d.buffer.position) :
    Recorded base nop q d where
  target := h.target
  marks := h.marks
  le := hq
  relocations := h.relocations
  dataObjects := h.dataObjects
  callSites s hs := Nat.le_trans (h.callSites s hs) hpq
  safepoints s hs := Nat.lt_of_lt_of_le (h.safepoints s hs) hpq
  traps x hx := Nat.lt_of_lt_of_le (h.traps x hx) hpq
  jumpTables t ht := Nat.le_trans (h.jumpTables t ht) hpq
  handlers x hx := by
    obtain hlt | ⟨heq, hrest⟩ := h.handlers x hx
    · exact .inl (Nat.lt_of_lt_of_le hlt hpq)
    · obtain hlt | rfl := Nat.lt_or_eq_of_le hpq
      · exact .inl (heq ▸ hlt)
      · exact .inr ⟨heq, hrest⟩
  linked := h.linked

/-- Once there is code behind the last record, it does not matter what that was. -/
theorem strict {nop' : Bool} {q : Nat} (h : Recorded base nop p d) (hpq : p < q)
    (hq : q ≤ d.buffer.position) : Recorded base nop' q d :=
  { h.mono (Nat.le_of_lt hpq) hq with
    handlers := fun x hx => by
      obtain hlt | ⟨heq, -⟩ := h.handlers x hx
      · exact .inl (Nat.lt_trans hlt hpq)
      · exact .inl (heq ▸ hpq) }

theorem handlers_lt (h : Recorded base true p d) {x : ExceptionHandler}
    (hx : x ∈ d.tables.exceptionHandlers) : x.pc < p := by
  obtain hlt | ⟨-, hnop, -⟩ := h.handlers x hx
  · exact hlt
  · cases hnop

theorem relax (h : Recorded base true p d) : Recorded base nop p d :=
  { h with handlers := fun _ hx => .inl (h.handlers_lt hx) }

theorem settle (h : Recorded base base.target.options.emitNopAfterCall p d) : Between base d :=
  h.mono h.le (Nat.le_refl _)

/-- Further code and data, without records. -/
theorem advance (h : Recorded base nop p d) (hposition : d.buffer.position ≤ d'.buffer.position)
    (hdata : d.data.size ≤ d'.data.size) (htables : d'.tables = d.tables)
    (htarget : d'.target = d.target) : Recorded base nop p d' where
  target := htarget.trans h.target
  marks := (congrArg SideTables.marks htables).trans h.marks
  le := Nat.le_trans h.le hposition
  relocations r hr := Nat.lt_of_lt_of_le (h.relocations r (htables ▸ hr)) hposition
  dataObjects x hx := Nat.lt_of_lt_of_le (h.dataObjects x (htables ▸ hx)) hdata
  callSites s hs := h.callSites s (htables ▸ hs)
  safepoints s hs := h.safepoints s (htables ▸ hs)
  traps x hx := h.traps x (htables ▸ hx)
  jumpTables t ht := h.jumpTables t (htables ▸ ht)
  handlers x hx := by
    rw [htables]
    exact h.handlers x (htables ▸ hx)
  linked := htables ▸ h.linked

/-- Further code with a field that installation fills in. -/
theorem link {b : CodeBuffer} {r : Relocation} (h : Recorded base nop p d)
    (hposition : d.buffer.position ≤ b.position) (hr : r.offset < b.position) :
    Recorded base nop p { d with
      buffer := b
      tables := { d.tables with
        relocations := d.tables.relocations.push r
        seen := (r.kind.table, r.offset) :: d.tables.seen } } :=
  { h with
    le := Nat.le_trans h.le hposition
    relocations := Array.forall_mem_push.mpr
      ⟨hr, fun x hx => Nat.lt_of_lt_of_le (h.relocations x hx) hposition⟩
    linked := h.linked.push_relocation r }

/-! Records under keys in front of `p` may be added. -/

theorem push_trap {x : ImplicitException} (h : Recorded base nop p d) (hx : x.pc < p) :
    Recorded base nop p { d with
      tables := { d.tables with
        implicitExceptions := d.tables.implicitExceptions.push x
        seen := ("implicit exception", x.pc) :: d.tables.seen } } :=
  { h with
    traps := Array.forall_mem_push.mpr ⟨hx, h.traps⟩
    linked := h.linked.push_trap x }

theorem push_safepoint {s : Safepoint} (h : Recorded base nop p d) (hs : s.pc < p) :
    Recorded base nop p { d with
      tables := { d.tables with
        safepoints := d.tables.safepoints.push s
        seen := ("safepoint", s.pc) :: d.tables.seen } } :=
  { h with
    safepoints := Array.forall_mem_push.mpr ⟨hs, h.safepoints⟩
    linked := h.linked.push_safepoint s }

theorem push_table {t : JumpTable} (h : Recorded base nop p d) (ht : t.position ≤ p) :
    Recorded base nop p { d with
      tables := { d.tables with
        jumpTables := d.tables.jumpTables.push t
        seen := ("jump table", t.position) :: d.tables.seen } } :=
  { h with
    jumpTables := Array.forall_mem_push.mpr ⟨ht, h.jumpTables⟩
    linked := h.linked.push_jumpTable t }

theorem push_call {s : CallSite} (h : Recorded base true p d) (hs : s.pc ≤ p) :
    Recorded base true p { d with
      tables := { d.tables with
        callSites := d.tables.callSites.push s
        seen := ("call site", s.pc) :: d.tables.seen } } :=
  { h with
    callSites := Array.forall_mem_push.mpr ⟨hs, h.callSites⟩
    handlers := fun _ hx => .inl (h.handlers_lt hx)
    linked := h.linked.push_callSite s }

theorem append_handlers {pc : Nat} {info : DebugInfo} (h : Recorded base nop p d)
    (hedges : info.edges ≠ [])
    (hpc : pc < p ∨ pc = p ∧ nop = false ∧ d.tables.ReturnsTo p) :
    Recorded base nop p { d with
      tables := { d.tables with
        exceptionHandlers := d.tables.exceptionHandlers ++ handlerRows pc info
        seen := ("exception handlers", pc) :: d.tables.seen } } :=
  { h with
    handlers := fun x hx => by
      have hx : x ∈ (d.tables.exceptionHandlers ++ handlerRows pc info).toList :=
        Array.mem_toList_iff.mpr hx
      rw [Array.toList_appendList, List.mem_append, Array.mem_toList_iff] at hx
      obtain hx | hx := hx
      · exact h.handlers x hx
      · obtain ⟨edge, -, rfl⟩ := List.mem_map.mp hx
        exact hpc
    linked := h.linked.append_handlers hedges pc }

end Recorded

/-! ### Steps that record -/

/-- The step leads from `p` to `q`, and it fails with a duplicate record only where exception edges
collide. -/
abbrev Safe (p : Draft → Prop) (x : Lower α) (q : α → Draft → Prop) : Prop :=
  Triple p x q OnlyCollision

theorem safe_onBuffer {p : Draft → Prop} {q : α → Draft → Prop} {x : BufferStep α}
    (hx : CodeBuffer.Grows x)
    (h : ∀ d a b, p d → x d.buffer = .ok a b → q a { d with buffer := b }) :
    Safe p (onBuffer x) q :=
  triple_onBuffer hx (fun _ _ => .of_clean) h

/-- A record under a key that has not been claimed. -/
theorem safe_record_new {p q : Draft → Prop} {table : String} {pc : Nat}
    {f : SideTables → SideTables} (hnew : ∀ d, p d → (table, pc) ∉ d.tables.seen)
    (h : ∀ d, p d → q { d with
      tables := f { d.tables with seen := (table, pc) :: d.tables.seen } }) :
    Safe p (record (do claim table pc; modify f)) fun _ => q := by
  refine triple_record (fun d t hd ht => ?_) fun d err t hd herr => ?_
  · rw [eq_of_keyed ht]
    exact h d hd
  · exact absurd (keyed_eq_error.mp herr).1 (hnew d hd)

/-! ### Instructions -/

/-- All fields that installation fills in lie in front of `n`. -/
structure Behind (base : Draft) (nop : Bool) (n p : Nat) (d : Draft) : Prop
    extends Recorded base nop p d where
  before : ∀ r ∈ d.tables.relocations, r.offset < n

theorem safe_checkInInstruction {p : Draft → Prop} {offset : Nat} {b : CodeBuffer} :
    Safe p (Lower.ofExcept (b.checkInInstruction offset)) fun _ => p := by
  refine (triple_ofExcept fun err herr d _ => .of_clean ?_).weaken (fun _ => id) fun _ _ h => h.1
  unfold CodeBuffer.checkInInstruction at herr
  split at herr
  · split at herr <;> cases herr
    rfl
  · cases herr
    rfl

theorem safe_emitBytes (bytes : List UInt8) :
    Safe (Recorded base nop p) (emitBytes bytes) fun _ => Recorded base nop p :=
  safe_onBuffer (CodeBuffer.grows_emit bytes) fun _ _ _ hd hb =>
    hd.advance ((CodeBuffer.grows_emit bytes).position _ _ _ hb) (Nat.le_refl _) rfl rfl

/-- The bytes of an instruction that starts at `n`. -/
theorem safe_emitBytes_behind (bytes : List UInt8) :
    Safe (fun d => Behind base nop n p d ∧ d.buffer.position = n) (emitBytes bytes)
      fun _ d => Behind base nop n p d ∧ d.buffer.position = n + bytes.length := by
  refine safe_onBuffer (CodeBuffer.grows_emit bytes) fun d _ b hd hb => ?_
  cases hb
  exact ⟨⟨hd.1.toRecorded.advance (by simp) (Nat.le_refl _) rfl rfl, hd.1.before⟩, by simp [hd.2]⟩

/-- An instruction with a field starts. -/
theorem safe_setMark : Safe (fun d => Recorded base nop p d ∧ n = d.buffer.position)
    (modify fun d => { d with buffer := d.buffer.setMark })
    fun _ d => Behind base nop n p d ∧ d.buffer.position = n :=
  triple_modify fun d ⟨hd, hn⟩ => by
    subst hn
    exact ⟨⟨hd.advance (Nat.le_refl _) (Nat.le_refl _) rfl rfl, hd.relocations⟩, rfl⟩

theorem safe_clearMark : Safe (Recorded base nop p)
    (modify fun d => { d with buffer := d.buffer.clearMark }) fun _ => Recorded base nop p :=
  triple_modify fun _ hd => hd.advance (Nat.le_refl _) (Nat.le_refl _) rfl rfl

theorem safe_recordData {patch stop offset : Nat} (hn : n ≤ patch) (hpatch : patch < stop) :
    Safe (fun d => Behind base nop n p d ∧ d.buffer.position = stop)
      (record (SideTables.recordData n patch stop offset)) fun _ => Recorded base nop p := by
  by_cases hout : patch < n ∨ stop < fieldEnd patch
  · rw [recordData_of_outside hout]
    refine triple_record (fun d t hd ht => nomatch ht) fun d err t hd herr => ?_
    cases herr
    exact .of_clean rfl
  · rw [recordData_of_inside hout]
    refine safe_record_new (fun d hd hseen => ?_) fun d hd => ?_
    · obtain ⟨r, hr, -, hoffset⟩ := hd.1.linked.exists_relocation (.data offset stop) hseen
      have := hd.1.before r hr
      omega
    · exact hd.1.toRecorded.link (r := ⟨patch, .data offset stop⟩) (Nat.le_refl _) (hd.2 ▸ hpatch)

/-- The field of a memory operand lies in front of the end of the instruction. -/
theorem lt_length_of_ripField {l : Location} {i : Mem → Instr} (hl : l.Valid)
    (hi : ∀ m, (i m).mem? = some m) {k : Nat} (hdata : l.data.isSome)
    (hk : (i l.mem).encode.ripField = some k) : k < (i l.mem).encode.bytes.length := by
  have hmem : (i l.mem).mem? = some (.rip 0) := (hi l.mem).trans (congrArg some (hl.data hdata))
  obtain ⟨front, back, -, hfield, -⟩ := Instr.exists_around_zero hmem
  unfold Instr.Around at hfield
  rw [hfield] at hk ⊢
  cases hk
  simp only [List.length_append, length_leBytes]
  omega

theorem safe_emitAt {l : Location} {i : Mem → Instr} (hl : l.Valid)
    (hi : ∀ m, (i m).mem? = some m) :
    Safe (Recorded base nop p) (emitAt l i) fun _ => Recorded base nop p := by
  refine triple_position.bind fun n => safe_setMark.bind fun _ =>
    (safe_emitBytes_behind _).bind fun _ => ?_
  extract_lets behind
  have hbehind : ∀ u, Safe (Recorded base nop p) (behind u) fun _ => Recorded base nop p :=
    fun _ => safe_clearMark.bind fun _ => triple_pure fun _ => id
  split
  · exact (hbehind ()).weaken (fun _ hd => hd.1.toRecorded) fun _ _ => id
  · rename_i offset hdata
    split
    · exact Triple.bind (q := fun _ => Recorded base nop p) (triple_throw fun _ _ => .of_clean rfl)
        hbehind
    · rename_i k hk
      have hlt := lt_length_of_ripField hl hi (by simp [hdata]) hk
      refine triple_get.bind fun d => safe_checkInInstruction.bind fun _ =>
        triple_position.bind fun stop => ?_
      refine Triple.bind ?_ hbehind
      intro d' hd'
      have hstop : n + k < stop := by
        have := hd'.1.1.2
        have := hd'.2
        omega
      exact safe_recordData (Nat.le_add_right _ _) hstop d' ⟨hd'.1.1.1, hd'.2.symm⟩

/-- An instruction with a field of another kind, which is recorded by `f`. -/
theorem safe_emitLinked {i : Instr} {f : Nat → RecordStep Unit}
    (hi : i.linkField?.getD 0 < i.encode.length)
    (hf : ∀ n offset, n ≤ offset →
      Safe (fun d => Behind base nop n p d ∧ offset < d.buffer.position) (record (f offset))
        fun _ => Recorded base nop p) :
    Safe (Recorded base nop p) (emitLinked i f) fun _ => Recorded base nop p := by
  refine triple_position.bind fun n => safe_setMark.bind fun _ =>
    (safe_emitBytes_behind _).bind fun _ => ?_
  refine triple_get.bind fun d => safe_checkInInstruction.bind fun _ =>
    Triple.bind ?_ fun _ => safe_clearMark
  refine (hf n _ (Nat.le_add_right _ _)).weaken (fun d hd => ⟨hd.1.1, ?_⟩) fun _ _ => id
  have hlength : i.encode.bytes.length = i.encode.length := rfl
  rw [hd.1.2, hlength]
  omega

/-- A field behind all that are recorded. -/
theorem safe_record_link {offset : Nat} (kind : RelocationKind) (hn : n ≤ offset) :
    Safe (fun d => Behind base nop n p d ∧ offset < d.buffer.position)
      (record (do
        claim kind.table offset
        modify fun t => { t with relocations := t.relocations.push ⟨offset, kind⟩ }))
      fun _ => Recorded base nop p := by
  refine safe_record_new (fun d hd hseen => ?_) fun d hd => ?_
  · obtain ⟨r, hr, -, hoffset⟩ := hd.1.linked.exists_relocation kind hseen
    have := hd.1.before r hr
    omega
  · exact hd.1.toRecorded.link (r := ⟨offset, kind⟩) (Nat.le_refl _) hd.2

theorem safe_embed (o : ObjectId) (dst : Gpr) : Safe (Recorded base nop p)
    (emitLinked (.movAbs dst unresolvedObject) fun field => SideTables.recordObject field o)
    fun _ => Recorded base nop p := by
  refine safe_emitLinked ?_ fun n offset hn => safe_record_link (.object o) hn
  have := Instr.length_pos (i := .movAbs dst unresolvedObject) (Instr.encodable_of_none rfl)
  change (Instr.movAbs dst unresolvedObject).encode.length - 8 < _
  omega

theorem safe_call (callee : CallTarget) : Safe (Recorded base nop p)
    (emitLinked .call fun field => SideTables.recordCallTarget field callee)
    fun _ d => Recorded base nop p d ∧ p < d.buffer.position := by
  refine Triple.also (safe_emitLinked (by decide) fun n offset hn =>
    safe_record_link (.call callee) hn) fun d _ d' hd hrun => ?_
  obtain ⟨t, -, rfl⟩ := emitLinked_eq_ok hrun
  have := hd.le
  have : 0 < Instr.call.encode.bytes.length := by decide
  have hposition := d.buffer.position_append Instr.call.encode.bytes
  change p < (d.buffer.append Instr.call.encode.bytes).position
  omega

/-- An instruction takes the position further. -/
theorem safe_emission {e : Effect} {x : Emission} (hx : x.Within e) : Safe (Recorded base nop p)
    x.perform fun _ d => Recorded base nop p d ∧ p < d.buffer.position := by
  cases x with
  | emit i =>
    refine (safe_emitBytes i.encode.bytes).also fun d _ d' hd hrun => ?_
    cases emitBytes_eq_ok.mp hrun
    have := hd.le
    have : 0 < i.encode.bytes.length := Instr.length_pos hx.1
    simp only [CodeBuffer.position_append]
    omega
  | «at» l i =>
    refine (safe_emitAt hx.1 hx.2.1).discard.also fun d _ d' hd hrun => ?_
    obtain ⟨pc, hrun⟩ := Step.discard_eq_ok.mp hrun
    obtain ⟨-, t, rfl, -⟩ := emitAt_eq_ok hrun
    have := hd.le
    have : 0 < (i l.mem).encode.bytes.length :=
      Instr.length_pos (Instr.encodable_of_some (hx.2.1 l.mem) hx.1.encodable)
    have hposition := d.buffer.position_append (i l.mem).encode.bytes
    change p < (d.buffer.append (i l.mem).encode.bytes).position
    omega

/-! ### Exception edges -/

/-- The edges of a call are recorded behind all others. -/
theorem safe_recordHandlers {info : DebugInfo} :
    Safe (fun d => (Recorded base true p d ∧ p = d.buffer.position) ∧
        (info.edges ≠ [] → d.tables.ReturnsTo p))
      (record (SideTables.recordHandlers p info))
      fun _ d => Recorded base false d.buffer.position d := by
  by_cases hedges : info.edges = []
  · rw [recordHandlers_nil hedges]
    refine triple_record (fun d t hd ht => ?_) fun d err t _ herr => nomatch herr
    cases ht
    exact hd.1.2 ▸ hd.1.1.relax
  · rw [recordHandlers_eq hedges]
    refine safe_record_new (fun d hd hseen => ?_) fun d hd => ?_
    · obtain ⟨x, hx, hpc⟩ := hd.1.1.linked.exists_handler hseen
      have := hd.1.1.handlers_lt hx
      omega
    · obtain ⟨⟨hd, rfl⟩, hreturns⟩ := hd
      exact hd.relax.append_handlers hedges (.inr ⟨rfl, rfl, hreturns hedges⟩)

/-- A trap is recorded where it starts. Only a call that returns there can have recorded edges. -/
theorem safe_recordTrap {info : DebugInfo} :
    Safe (fun d => Recorded base base.target.options.emitNopAfterCall p d ∧ p < d.buffer.position)
      (recordTrap p info) fun _ => Between base := by
  let trapped : Draft → Draft := fun d => { d with
    tables := { d.tables with
      implicitExceptions := d.tables.implicitExceptions.push ⟨p, info⟩
      seen := ("implicit exception", p) :: d.tables.seen } }
  refine Triple.bind (q := fun _ d => ∃ d₀, d = trapped d₀ ∧
    Recorded base base.target.options.emitNopAfterCall p d₀ ∧ p < d₀.buffer.position) ?_ fun _ => ?_
  · refine safe_record_new (fun d hd hseen => ?_) fun d hd => ⟨d, rfl, hd⟩
    obtain ⟨x, hx, hpc⟩ := hd.1.linked.exists_implicitException hseen
    have := hd.1.traps x hx
    omega
  · have hbetween : ∀ d₀, Recorded base base.target.options.emitNopAfterCall p d₀ →
        p < d₀.buffer.position → Between base (trapped d₀) := fun d₀ hd hlt =>
      (hd.strict hlt (Nat.le_refl _)).push_trap hlt
    by_cases hedges : info.edges = []
    · rw [recordHandlers_nil hedges]
      refine triple_record (fun d t hd ht => ?_) fun d err t _ herr => nomatch herr
      cases ht
      obtain ⟨d₀, rfl, hd, hlt⟩ := hd
      exact hbetween d₀ hd hlt
    · rw [recordHandlers_eq hedges]
      refine triple_record ?_ ?_
      · rintro d t ⟨d₀, rfl, hd, hlt⟩ ht
        rw [eq_of_keyed ht]
        exact (hbetween d₀ hd hlt).append_handlers hedges (.inl hlt)
      · rintro d err t ⟨d₀, rfl, hd, hlt⟩ herr
        obtain ⟨hseen, rfl, rfl⟩ := keyed_eq_error.mp herr
        obtain ⟨x, hx, hpc⟩ := (hbetween d₀ hd hlt).linked.exists_handler hseen
        rintro table pc ⟨⟩
        obtain hlt | ⟨-, hnop, hreturns⟩ := hd.handlers x hx
        · omega
        · refine ⟨rfl, ?_, hreturns, ⟨p, info⟩, by simp [trapped], rfl, hedges⟩
          change d₀.target.options.emitNopAfterCall = false
          rw [hd.target, hnop]

/-! ### Actions -/

variable {e : Effect}

theorem safe_bind (l : Label) : Safe (fun d => Recorded base nop p d ∧ n ≤ d.buffer.position)
    (Lower.bind l) fun _ d => Recorded base nop p d ∧ n ≤ d.buffer.position := by
  refine Triple.bind (q := fun _ d => Recorded base nop p d ∧ n ≤ d.buffer.position)
    (safe_onBuffer (CodeBuffer.grows_bind l) fun d _ b hd hb => ?_) fun fresh => ?_
  · have hle := (CodeBuffer.grows_bind l).position _ _ _ hb
    exact ⟨hd.1.advance hle (Nat.le_refl _) rfl rfl, Nat.le_trans hd.2 hle⟩
  · cases fresh with
    | false => exact triple_pure fun _ => id
    | true => exact triple_modify fun _ hd =>
        ⟨hd.1.advance (Nat.le_refl _) (Nat.le_refl _) rfl rfl, hd.2⟩

/-- What stands between an instruction and its record. -/
theorem safe_trailer {x : Trailer} (hx : x.Within e) :
    Safe (fun d => Recorded base nop p d ∧ p < d.buffer.position) x.perform
      fun _ d => Recorded base nop p d ∧ p < d.buffer.position := by
  cases x with
  | none => exact triple_pure fun _ => id
  | store x => exact (safe_emission hx).weaken (fun _ h => h.1) fun _ _ => id
  | bind l => exact safe_bind l
  | refuse err => exact triple_throw fun _ _ => .of_clean (Error.isDuplicate_of_isRefusal hx)

theorem safe_trap {x : Emission} {after : Trailer} {info : DebugInfo} (hx : x.Within e)
    (hafter : after.Within e) :
    Safe (Between base) (Action.trap x after info).perform fun _ => Between base := by
  refine triple_position.bind fun pc => ?_
  have hrun : Safe (Recorded base base.target.options.emitNopAfterCall pc)
      (do x.perform; after.perform; recordTrap pc info) fun _ => Between base :=
    (safe_emission hx).bind fun _ => (safe_trailer hafter).bind fun _ => safe_recordTrap
  exact hrun.weaken (fun d hd => hd.2 ▸ hd.1) fun _ _ => id

/-- A call is recorded where it ends, with its edges; then a `nop` may follow. -/
theorem safe_recordedCall {x : Lower Unit} {callee : Option CallTarget} {info : Option DebugInfo}
    {direct : Bool} (hx : ∀ nop p, Safe (Recorded base nop p) x
      fun _ d => Recorded base nop p d ∧ p < d.buffer.position) :
    Safe (Between base) (do
      let start ← position
      x
      recordCall start callee info direct
      nopAfterCall) fun _ => Between base := by
  refine triple_position.bind fun start => ?_
  refine Triple.bind
    ((hx base.target.options.emitNopAfterCall start).weaken (fun d hd => hd.2 ▸ hd.1)
    fun _ _ => id) fun _ => ?_
  refine Triple.bind (q := fun _ d => Recorded base false d.buffer.position d) ?_ fun _ => ?_
  · refine triple_position.bind fun pc => ?_
    refine Triple.bind (q := fun _ d => (Recorded base true pc d ∧ pc = d.buffer.position) ∧
      ∀ i ∈ info, i.edges ≠ [] → d.tables.ReturnsTo pc) ?_ fun _ => ?_
    · refine safe_record_new (fun d hd hseen => ?_) fun d hd => ?_
      · obtain ⟨s, hs, hpc⟩ := hd.1.1.linked.exists_callSite hseen
        have := hd.1.1.callSites s hs
        have : s.pc = pc := hpc
        have := hd.1.2
        have := hd.2
        omega
      · obtain ⟨⟨hd, hlt⟩, rfl⟩ := hd
        refine ⟨⟨(hd.strict hlt (Nat.le_refl _)).push_call (Nat.le_refl _), rfl⟩,
          fun i hi hedges => ?_⟩
        exact ⟨_, Array.mem_push_self, rfl, i, hi, hedges⟩
    · cases info with
      | none => exact triple_pure fun d hd => hd.1.2 ▸ hd.1.1.relax
      | some info =>
        exact safe_recordHandlers.weaken (fun d hd => ⟨hd.1, hd.2 info rfl⟩) fun _ _ => id
  · unfold nopAfterCall
    refine triple_get.bind fun d => ?_
    split
    · rintro d' ⟨hd', rfl⟩
      refine ⟨fun _ d'' hrun => ?_, fun err d'' hrun => by cases hrun⟩
      cases emitBytes_eq_ok.mp hrun
      have hlt : d.buffer.position < (d.buffer.append (nops 1)).position := by
        have hlength : (nops 1).length = 1 := rfl
        rw [CodeBuffer.position_append, hlength]
        exact Nat.lt_succ_self _
      have hadvanced : Recorded base false d.buffer.position
          { d with buffer := d.buffer.append (nops 1) } :=
        hd'.advance (Nat.le_of_lt hlt) (Nat.le_refl _) rfl rfl
      exact hadvanced.strict hlt (Nat.le_refl _)
    · rename_i hnop
      refine triple_pure fun d' hd' => ?_
      obtain ⟨hd', rfl⟩ := hd'
      rw [hd'.target, Bool.not_eq_true] at hnop
      change Recorded base base.target.options.emitNopAfterCall _ _
      rwa [hnop]

theorem safe_safepoint (info : DebugInfo) :
    Safe (Between base) (safepoint info) fun _ => Between base := by
  refine triple_position.bind fun pc => ?_
  refine Triple.bind (q := fun _ d => ∃ d₀, Between base d₀ ∧
    pc = d₀.buffer.position ∧ d = { d₀ with
    tables := { d₀.tables with
      safepoints := d₀.tables.safepoints.push ⟨pc, info⟩
      seen := ("safepoint", pc) :: d₀.tables.seen } }) ?_ fun _ => ?_
  · refine safe_record_new (fun d hd hseen => ?_) fun d hd => ⟨d, hd.1, hd.2, rfl⟩
    obtain ⟨s, hs, hpc⟩ := hd.1.linked.exists_safepoint hseen
    have := hd.1.safepoints s hs
    have := hd.2
    omega
  · rintro d ⟨d₀, hd₀, rfl, rfl⟩
    refine ⟨fun _ d' hrun => ?_, fun err d' hrun => by cases hrun⟩
    cases emitBytes_eq_ok.mp hrun
    let bytes := (Instr.test false (.mem (.based safepointLatch 0)) .rax).encode.bytes
    have hlt : d₀.buffer.position < (d₀.buffer.append bytes).position := by
      have hlength : 0 < bytes.length := by decide
      rw [CodeBuffer.position_append]
      omega
    have hd₁ : Recorded base base.target.options.emitNopAfterCall d₀.buffer.position
        { d₀ with buffer := d₀.buffer.append bytes } :=
      hd₀.advance (Nat.le_of_lt hlt) (Nat.le_refl _) rfl rfl
    exact (hd₁.strict hlt (Nat.le_refl _)).push_safepoint hlt

theorem safe_onBuffer_lt {x : BufferStep α} (hx : CodeBuffer.Grows x) :
    Safe (fun d => Recorded base nop p d ∧ n < d.buffer.position) (onBuffer x)
      fun _ d => Recorded base nop p d ∧ n < d.buffer.position :=
  safe_onBuffer hx fun _ _ _ hd hb => by
    have hle := hx.position _ _ _ hb
    exact ⟨hd.1.advance hle (Nat.le_refl _) rfl rfl, Nat.lt_of_lt_of_le hd.2 hle⟩

/-- A table stands behind its jump. -/
theorem safe_table {low high : Int32} {targets : List Label} :
    Safe (Between base) (Action.table low high targets).perform fun _ => Between base := by
  have hjump : (Emission.emit (.jmpReg X64.scratch)).Within
      (Effect.liberal (fun _ _ => True) True True fun _ _ => True) :=
    ⟨Instr.encodable_of_none rfl, Effect.admits_transfer trivial⟩
  have htable : ∀ p, Safe (Recorded base base.target.options.emitNopAfterCall p)
      (Action.table low high targets).perform fun _ => Between base := by
    intro p
    refine (safe_emission hjump).bind fun _ => Triple.bind (q := fun _ d => Recorded base
      base.target.options.emitNopAfterCall p d ∧ p < d.buffer.position) ?_ fun _ => ?_
    · exact triple_position.bind fun n =>
        (safe_onBuffer_lt (CodeBuffer.grows_emit _)).weaken (fun _ h => h.1) fun _ _ => id
    · refine triple_position.bind fun table => ?_
      let Q : Draft → Prop := fun d => Recorded base base.target.options.emitNopAfterCall p d ∧
        p < table ∧ table ≤ d.buffer.position
      refine Triple.bind (q := fun _ => Q) (Triple.weaken (p := Q) (triple_forM fun l _ => ?_) ?_
        fun _ _ => id) fun _ => ?_
      · refine safe_onBuffer (CodeBuffer.grows_reference l _) fun d _ b hd hb => ?_
        have hle := (CodeBuffer.grows_reference l _).position _ _ _ hb
        exact ⟨hd.1.advance hle (Nat.le_refl _) rfl rfl, hd.2.1, Nat.le_trans hd.2.2 hle⟩
      · rintro d ⟨⟨hd, hlt⟩, rfl⟩
        exact ⟨hd, hlt, Nat.le_refl _⟩
      · refine safe_record_new (fun d hd hseen => ?_) fun d hd => ?_
        · obtain ⟨t, ht, hposition⟩ := hd.1.linked.exists_jumpTable hseen
          have := hd.1.jumpTables t ht
          have : t.position = table := hposition
          have := hd.2.1
          omega
        · exact (hd.1.strict (Nat.lt_of_lt_of_le hd.2.1 hd.2.2) (Nat.le_refl _)).push_table hd.2.2
  exact fun d hd => htable d.buffer.position d hd

/-- The draft has been given a slot for the object, which is not recorded yet. -/
def Slotted (base : Draft) (nop : Bool) (p : Nat) (o : ObjectId) (r : Nat × Bool)
    (d : Draft) : Prop :=
  ∃ d₀, Recorded base nop p d₀ ∧ r = (d₀.data.objectSlot o).1 ∧
    d = { d₀ with data := (d₀.data.objectSlot o).2 }

theorem Slotted.recorded {o : ObjectId} {r : Nat × Bool}
    (h : Slotted base nop p o r d) : Recorded base nop p d := by
  obtain ⟨d₀, hd₀, -, rfl⟩ := h
  exact hd₀.advance (Nat.le_refl _) (d₀.data.objectSlot_bounds o).1 rfl rfl

theorem safe_objectSlot (o : ObjectId) :
    Safe (Recorded base nop p) (onData (·.objectSlot o)) (Slotted base nop p o) :=
  triple_of_ok (fun _ => rfl) fun d hd => ⟨d, hd, rfl, rfl⟩

/-- A slot is recorded when it is new. -/
theorem safe_recordSlot {o : ObjectId} {offset : Nat} : Safe (Slotted base nop p o (offset, true))
    (record (SideTables.recordDataObject offset o)) fun _ => Recorded base nop p := by
  refine safe_record_new ?_ ?_
  · rintro d ⟨d₀, hd₀, hr, rfl⟩ hseen
    have hbounds := (d₀.data.objectSlot_bounds o).2
    rw [← hr] at hbounds
    obtain ⟨x, hx, hoffset⟩ := hd₀.linked.exists_dataObject hseen
    have := hd₀.dataObjects x hx
    have := (hbounds rfl).1
    dsimp only at this
    omega
  · intro d hd
    have hgrown := hd.recorded
    obtain ⟨d₀, hd₀, hr, rfl⟩ := hd
    have hbounds := (d₀.data.objectSlot_bounds o).2
    rw [← hr] at hbounds
    refine { hgrown with
      dataObjects := Array.forall_mem_push.mpr ⟨?_, hgrown.dataObjects⟩
      linked := hgrown.linked.push_dataObject ⟨offset, o⟩ }
    have := (hbounds rfl).2
    dsimp only at this ⊢
    omega

theorem safe_slot (o : ObjectId) :
    Safe (Recorded base nop p) (Action.slot o).perform fun _ => Recorded base nop p := by
  refine (safe_objectSlot o).bind ?_
  rintro ⟨offset, isNew⟩
  cases isNew with
  | false => exact triple_pure fun d hd => hd.recorded
  | true => exact safe_recordSlot

theorem safe_settle {x : Lower Unit}
    (hx : ∀ p, Safe (Recorded base base.target.options.emitNopAfterCall p) x
      fun _ => Recorded base base.target.options.emitNopAfterCall p) :
    Safe (Between base) x fun _ => Between base := fun d hd =>
  ⟨fun u d' hrun => ((hx _ d hd).1 u d' hrun).settle, (hx _ d hd).2⟩

/-- What has nothing to do with code and records. -/
theorem safe_modify {f : Draft → Draft} (hbuffer : ∀ d, (f d).buffer = d.buffer)
    (hdata : ∀ d, d.data.size ≤ (f d).data.size) (htables : ∀ d, (f d).tables = d.tables)
    (htarget : ∀ d, (f d).target = d.target) :
    Safe (Between base) (modify f) fun _ => Between base :=
  safe_settle fun _ => triple_modify fun d hd =>
    hd.advance (hbuffer d ▸ Nat.le_refl _) (hdata d) (htables d) (htarget d)

/-- An action that is no mark fails with a duplicate record only where exception edges collide. -/
theorem Action.safe_of_ne_mark {a : Action} (ha : a.Within e) (hmark : ∀ id, a ≠ .mark id) :
    Safe (Between base) a.perform fun _ => Between base := by
  have hbuffer : ∀ {x : BufferStep Unit}, CodeBuffer.Grows x →
      Safe (Between base) (onBuffer x) fun _ => Between base := fun hx => safe_settle fun _ =>
    safe_onBuffer hx fun _ _ _ hd hb =>
      hd.advance (hx.position _ _ _ hb) (Nat.le_refl _) rfl rfl
  have hemission : ∀ {x : Emission}, x.Within e →
      Safe (Between base) x.perform fun _ => Between base := fun hx => safe_settle fun _ =>
    (safe_emission hx).weaken (fun _ => id) fun _ _ h => h.1
  cases a with
  | instr x => exact hemission ha
  | embed o dst => exact safe_settle fun _ => safe_embed o dst
  | slot o => exact safe_settle fun _ => safe_slot o
  | constant bytes align =>
    refine Triple.discard (triple_of_ok (fun _ => rfl) fun d hd => ?_)
    exact hd.advance (Nat.le_refl _) (d.data.size_le_constant bytes align) rfl rfl
  | reserve count => exact hbuffer (CodeBuffer.grows_reserveLabels count)
  | fresh n =>
    refine Triple.discard (triple_of_ok (fun _ => rfl) fun d hd => ?_)
    exact hd.advance (Nat.le_refl _) (Nat.le_refl _) rfl rfl
  | bind l =>
    exact safe_settle fun _ =>
      (safe_bind l).weaken (fun d hd => ⟨hd, Nat.zero_le _⟩) fun _ _ h => h.1
  | jump cond l =>
    cases cond with
    | none => exact hbuffer (CodeBuffer.grows_branch _ _ l)
    | some cond => exact hbuffer (CodeBuffer.grows_branch _ _ l)
  | jumpShort cond l =>
    exact hbuffer ((CodeBuffer.grows_emit _).bind fun _ => CodeBuffer.grows_reference l _)
  | pad n => exact hbuffer (CodeBuffer.grows_emit _)
  | raw bytes => exact hbuffer (CodeBuffer.grows_emit _)
  | table low high targets => exact safe_table
  | directCall callee info => exact safe_recordedCall fun _ _ => safe_call callee
  | indirectCall r callee info =>
    have hx : (Emission.emit (.callReg r)).Within e :=
      ⟨Instr.encodable_of_none rfl, Effect.admits_transfer ha.1⟩
    exact safe_recordedCall fun _ _ => safe_emission hx
  | safepoint info => exact safe_safepoint info
  | trap x after info => exact safe_trap ha.1 ha.2.1
  | mark id => exact absurd rfl (hmark id)
  | enqueue | log event | report f | name op =>
    exact safe_modify (fun _ => rfl) (fun _ => Nat.le_refl _) (fun _ => rfl) fun _ => rfl
  | refuse err => exact triple_throw fun _ _ => .of_clean (Error.isDuplicate_of_isRefusal ha)

/-- The same for all actions, where there may be no marks. -/
theorem Action.safe {a : Action} (ha : a.Within e) (hmarks : ¬ e.marks) :
    Safe (Between base) a.perform fun _ => Between base :=
  Action.safe_of_ne_mark ha fun _ h => hmarks (by subst h; exact ha)

/-! ### Methods -/

/-- No template of the operation makes a mark of its own. -/
def Operation.MarkFree (op : Operation) : Prop := op.All fun _ op => ∀ id, op ≠ .mark id

/-- What all operations without marks may do. -/
def Effect.unmarked : Effect :=
  .liberal (fun _ _ => True) True False fun _ op => ∀ id, op ≠ .mark id

/-- The draft is between two actions. -/
def Settled (d : Draft) : Prop := Between d d

theorem Between.settled (h : Between base d) : Settled d := by
  have h : Recorded base base.target.options.emitNopAfterCall d.buffer.position d := h
  rw [← h.target] at h
  exact { h with target := rfl, marks := rfl }

/-- Also, there are no marks yet. -/
def Unmarked (d : Draft) : Prop := Settled d ∧ d.tables.marks = #[]

theorem Settled.flush (h : Settled d) : Settled { d with pending := #[] } :=
  Between.settled (Recorded.advance h (Nat.le_refl _) (Nat.le_refl _) rfl rfl)

theorem Action.settled {a : Action} (ha : a.Within .unmarked) :
    Safe Settled a.perform fun _ => Settled := fun d hd =>
  ⟨fun u d' hrun => ((Action.safe ha not_false d hd).1 u d' hrun).settled,
    (Action.safe ha not_false d hd).2⟩

theorem Action.unmarked {a : Action} (ha : a.Within .unmarked) :
    Safe Unmarked a.perform fun _ => Unmarked := fun d hd => by
  obtain ⟨hok, herror⟩ := Action.safe ha not_false d hd.1
  exact ⟨fun u d' hrun => ⟨(hok u d' hrun).settled, (hok u d' hrun).marks.trans hd.2⟩, herror⟩

theorem Recorded.start {target : Target} {frame : Frame} {name : String} {id : Option UInt32}
    (h : Draft.start target frame name id = .ok d) : Unmarked d := by
  obtain ⟨journal, rfl⟩ := Draft.start_eq_ok h
  refine ⟨⟨rfl, rfl, Nat.le_refl _, ?_, ?_, ?_, ?_, ?_, ?_, ?_, linked_empty⟩, rfl⟩ <;>
    simp [SideTables.empty]

section

variable {C : Context}

theorem open_unmarked : Effect.unmarked.Open := Effect.open_liberal fun _ _ => trivial

theorem within_unmarked {operands : List Operand} {op : MicroOp} (h : ∀ id, op ≠ .mark id) :
    op.Within C .unmarked operands := by
  cases op with
  | mark id => exact h id rfl
  | pointerLoad | pointerLoadDisp => exact fun _ _ _ _ => trivial
  | _ => trivial

/-- The mark of a method's entry is the first of all marks. -/
theorem safe_prologue : Safe (Covered C .unmarked Unmarked) Lower.prologue
    fun _ => Covered C .unmarked Settled := by
  have hdoes : ∀ {x : Lower Unit}, Does C .unmarked x →
      Safe (Covered C .unmarked Unmarked) x fun _ => Covered C .unmarked Unmarked :=
    fun hx => Does.triple (fun _ => Action.unmarked) hx
  have hlog : ∀ event, Safe (Covered C .unmarked Settled) (log event)
      fun _ => Covered C .unmarked Settled :=
    fun event => Does.triple (fun _ => Action.settled) (does_log event)
  have hmark :
      ∀ id stop, Safe (Covered C .unmarked Unmarked) (record (SideTables.recordMark stop id))
      fun _ => Covered C .unmarked Settled := by
    refine fun id stop => triple_record (fun d t hd ht => ?_) fun d err t hd herr => ?_
    · obtain ⟨-, rfl⟩ := recordMark_eq_ok.mp ht
      exact ⟨⟨hd.holds.frame, hd.holds.target, hd.holds.labels, hd.holds.mark⟩, hd.pending,
        { hd.inv.1 with target := rfl, marks := rfl }⟩
    · have hmark := (recordMark_eq_error.mp herr).1
      rw [hd.inv.2] at hmark
      exact absurd hmark (by simp)
  unfold Lower.prologue
  refine (hdoes (does_setCurrent _)).bind fun _ => triple_position.bind fun start => ?_
  refine triple_get.bind fun d => ?_
  extract_lets frame
  have hframe : ∀ u, Safe (Covered C .unmarked Unmarked) (frame u)
      fun _ => Covered C .unmarked Settled := by
    intro u
    refine (hdoes (does_pushFrame open_unmarked)).bind fun _ => triple_position.bind fun stop => ?_
    split
    · exact ((hmark _ stop).bind fun _ => hlog _).weaken (fun _ h => h.1) fun _ _ => id
    · exact (hlog _).weaken (fun d h => ⟨h.1.holds, h.1.pending, h.1.inv.1⟩) fun _ _ => id
  refine Triple.weaken (p := Covered C .unmarked Unmarked) ?_ (fun d h => h.1.1) fun _ _ => id
  split
  · exact (hdoes (does_bangStack open_unmarked)).bind hframe
  · exact hframe ()

end

/-- Exception edges of a call that are recorded where the next instruction may fault, with edges of
its own, are the only records that collide. With a `nop` behind every call, no records do. -/
theorem Lower.duplicate_of_method {target : Target} {frame : Frame} {name : String}
    {id : Option UInt32} {constants : List DataConstant} {ops : List Operation} {table : String}
    {pc : Nat} (hd : Draft.start target frame name id = .ok d) (hops : ∀ op ∈ ops, op.MarkFree)
    (hm : Lower.method constants ops d = .error (.duplicateRecord table pc) d') :
    table = "exception handlers" ∧ Collides d' pc := by
  let C : Context := ⟨frame, target, 0⟩
  have hmethod : Safe (Covered C .unmarked Unmarked) (Lower.method constants ops) _ :=
    triple_method (fun _ => Action.settled) (fun _ => Settled.flush)
      (fun path => does_slowPath_liberal (fun _ _ => trivial) fun _ _ => within_unmarked)
      (fun _ => Action.unmarked) safe_prologue fun op hop =>
        does_operation_liberal (fun _ _ => trivial) (fun _ _ => within_unmarked) (hops op hop)
          fun _ _ _ _ _ _ => trivial
  exact (hmethod d (covered_start hd (Recorded.start hd))).2 _ d' hm table pc rfl

/-- A call with exception edges and a check of a reference behind it, also with edges. -/
theorem Lower.duplicate_of_method_check :
    let target : Target :=
      ⟨{ Options.standard with useStackBanging := false, alignDirectCalls := false },
        ⟨true, true⟩, 4096⟩
    let info : DebugInfo := ⟨1, 0, [⟨⟨0⟩, none⟩]⟩
    let ops : List Operation :=
      [.directCall (.runtime .debug) info, .nullCheck (.reg ⟨.general, 3⟩ .object) info, .label ⟨0⟩]
    let journal := (Journal.start "check" none []).log (.compiling "check" none 0 0)
    let d : Draft := ⟨target, .empty, .empty, .empty, .empty, #[], journal, "prologue"⟩
    Draft.start target .empty "check" none = .ok d ∧ (∀ op ∈ ops, op.MarkFree) ∧
      ∃ d', Lower.method [] ops d = .error (.duplicateRecord "exception handlers" 5) d' ∧
        Collides d' 5 := by
  intro target info ops journal d
  have hd : Draft.start target .empty "check" none = .ok d := rfl
  have hops : ∀ op ∈ ops, op.MarkFree := by simp [ops, Operation.MarkFree, Operation.All]
  have herror :
      Step.fails (· == .duplicateRecord "exception handlers" 5) (Lower.method [] ops d) = true := by
    decide +kernel
  obtain ⟨err, d', hm, herror⟩ := Step.exists_of_fails herror
  cases eq_of_beq herror
  exact ⟨hd, hops, d', hm, (duplicate_of_method hd hops hm).2⟩

end MachineCode
