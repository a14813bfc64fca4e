import MachineCode.Proofs.Execution.Sites
import MachineCode.Proofs.Labels.Transcripts
import MachineCode.Proofs.Labels.Runs
import MachineCode.Proofs.Records.Growth

/-! What steps of lowering lay down. `Lays S C x K` says that the step `x` adds chunks to the code,
and that `K` holds of these wherever a method that goes on from there is installed at the site
`S`. -/
namespace MachineCode

open X64 Lower SideTables Chunk Piece

variable {α β : Type}

/-- From `d` on a draft has been written that keeps its labels, its records and what is in its data
section. -/
structure Draft.Precedes (d d' : Draft) : Prop where
  labels : Extends d.buffer d'.buffer
  stocks : d.Stocks d'
  tables : d.tables.Within d'.tables

namespace Draft.Precedes

variable {d d' d'' : Draft}

theorem refl (d : Draft) : d.Precedes d := ⟨.refl _, .refl d, .refl _⟩

theorem trans (h : d.Precedes d') (h' : d'.Precedes d'') : d.Precedes d'' :=
  ⟨h.labels.trans h'.labels, h.stocks.trans h'.stocks, h.tables.trans h'.tables⟩

theorem of_onward {cs : List Chunk} (h : d.Onward d') (hs : Sound cs d) : d.Precedes d' :=
  ⟨(h.adds cs hs).2, h.stocks, h.accrues⟩

end Draft.Precedes

/-- An action goes on from the draft. -/
theorem Action.precedes {e : Effect} {cs : List Chunk} {d d' : Draft} {a : Action} (ha : a.Within e)
    (hs : Sound cs d) (hmark : d.buffer.mark = none)
    (hrun : a.perform d = .ok () d') : d.Precedes d' := by
  obtain ⟨-, steps, hsteps, -⟩ := Action.transcribed ha d () d' hmark hrun
  obtain ⟨qs, -, hext⟩ := BufferOp.written_runAll hs.written hsteps
  exact ⟨hext, Action.stocks hrun, a.accrues d () d' hrun⟩

/-- What is said of the chunks `new` behind `pre`, in a method whose last draft is `final`. -/
abbrev Site.Claim := List Chunk → List Chunk → Draft → Prop

/-- The step adds chunks to the code, of which `K` holds in every method that goes on from there. -/
def Lays (S : Site) (C : Context) (x : Lower α) (K : α → Site.Claim) : Prop :=
  ∀ pre d a d', C.Holds d → Sound pre d → x d = .ok a d' → C.Holds d' ∧ d.Precedes d' ∧
    ∃ new, Sound (pre ++ new) d' ∧ ∀ post final, S.Hosts (pre ++ (new ++ post)) final →
    d'.Precedes final →
      K a pre new final

section Rules

variable {S : Site} {C : Context} {x : Lower α} {K : α → Site.Claim}

theorem Lays.mono {K' : α → Site.Claim} (hx : Lays S C x K)
    (hK : ∀ a pre new post final, S.Hosts (pre ++ (new ++ post)) final → K a pre new final →
      K' a pre new final) : Lays S C x K' := by
  intro pre d a d' hd hs hrun
  obtain ⟨hd', hprecedes, new, hs', hnew⟩ := hx pre d a d' hd hs hrun
  exact ⟨hd', hprecedes, new, hs', fun post final hhosts hfinal =>
    hK a pre new post final hhosts (hnew post final hhosts hfinal)⟩

/-- One step after the other. -/
theorem Lays.bind {f : α → Lower β} {K' : α → β → Site.Claim} (hx : Lays S C x K)
    (hf : ∀ a, Lays S C (f a) (K' a)) : Lays S C (x >>= f) fun b pre new final =>
      ∃ a new₁ new₂, new = new₁ ++ new₂ ∧ K a pre new₁ final ∧ K' a b (pre ++ new₁) new₂ final := by
  intro pre d b d'' hd hs hrun
  obtain ⟨a, d', hrun₁, hrun₂⟩ := Step.bind_eq_ok.mp hrun
  obtain ⟨hd', hprecedes, new₁, hs', hnew₁⟩ := hx pre d a d' hd hs hrun₁
  obtain ⟨hd'', hprecedes', new₂, hs'', hnew₂⟩ := hf a (pre ++ new₁) d' b d'' hd' hs' hrun₂
  refine ⟨hd'', hprecedes.trans hprecedes', new₁ ++ new₂, by rwa [← List.append_assoc],
    fun post final hhosts hfinal => ⟨a, new₁, new₂, rfl, ?_, ?_⟩⟩
  · exact hnew₁ (new₂ ++ post) final (by rwa [← List.append_assoc new₁]) (hprecedes'.trans hfinal)
  · exact hnew₂ post final (by rwa [List.append_assoc pre, ← List.append_assoc new₁]) hfinal

/-- A step that only looks. -/
theorem Finds.lays {p : α → Prop} (hx : Finds C x p) :
    Lays S C x fun a _ new _ => new = [] ∧ p a := by
  intro pre d a d' hd hs hrun
  obtain ⟨b, hok, hp⟩ | ⟨err, herr, -⟩ := hx d hd
  · cases hok.symm.trans hrun
    exact ⟨hd, .refl d, [], by rwa [List.append_nil], fun _ _ _ _ => ⟨rfl, hp⟩⟩
  · cases herr.symm.trans hrun

/-- First something is looked up in the draft. -/
theorem Finds.lays_bind {p : α → Prop} {f : α → Lower β} {K : β → Site.Claim} (hx : Finds C x p)
    (hf : ∀ a, p a → Lays S C (f a) K) : Lays S C (x >>= f) K := by
  intro pre d b d' hd hs hrun
  obtain ⟨a, hok, hp⟩ | ⟨err, herr, -⟩ := hx d hd
  · rw [Step.bind_of_ok hok] at hrun
    exact hf a hp pre d b d' hd hs hrun
  · rw [Step.bind_of_error herr] at hrun
    cases hrun

/-- A step that does not succeed. -/
theorem lays_of_fails (hx : Fails x) : Lays S C x K := by
  intro pre d a d' hd hs hrun
  obtain ⟨err, herr, -⟩ := hx d
  cases herr.symm.trans hrun

theorem Lays.discard (hx : Lays S C x K) :
    Lays S C (discard x) fun _ pre new final => ∃ a, K a pre new final := by
  intro pre d u d' hd hs hrun
  obtain ⟨a, hrun⟩ := Step.discard_eq_ok.mp hrun
  obtain ⟨hd', hprecedes, new, hs', hnew⟩ := hx pre d a d' hd hs hrun
  exact ⟨hd', hprecedes, new, hs',
    fun post final hhosts hfinal => ⟨a, hnew post final hhosts hfinal⟩⟩

/-- A step that is an action, which adds these chunks. -/
theorem lays_action {x : Lower Unit} {K : Unit → Site.Claim} (a : Action) {e : Effect}
    (ha : a.Within e) (hqueue : ∀ path, a ≠ .enqueue path) (hx : x = a.perform)
    (hnew : ∀ pre d d', Sound pre d → a.perform d = .ok () d' → ∃ new, Sound (pre ++ new) d' ∧
      ∀ post final, S.Hosts (pre ++ (new ++ post)) final → d'.Precedes final → K () pre new final) :
    Lays S C x K := by
  subst hx
  intro pre d u d' hd hs hrun
  exact ⟨(a.keeps hqueue C d () d' hd hrun).1, Action.precedes ha hs hd.mark hrun,
    hnew pre d d' hs hrun⟩

/-- What is made of actions adds some code. -/
theorem Lowers.lays {e : Effect} {p : α → Prop} (hx : Lowers C e x p) :
    Lays S C x fun _ _ _ _ => True := fun _ _ _ _ hd hs hrun =>
  have honward := hx.onward hd hrun
  ⟨(hx.run hd hrun).2.1, .of_onward honward hs,
    (honward.adds _ hs).1.imp fun _ hs' => ⟨hs', fun _ _ _ _ => trivial⟩⟩

end Rules

/-! ### Steps -/

section Steps

variable {S : Site} {C : Context}

/-- Any code at all. -/
def Effect.anything : Effect := .liberal (fun _ _ => True) True True fun _ _ => True

theorem Effect.open_anything : Effect.anything.Open := Effect.open_liberal fun _ _ => trivial

theorem lays_emit {i : Instr} (hi : i.Encodable) :
    Lays S C (emit i) fun _ _ new _ => new = [.instr i none] := by
  refine lays_action (.instr (.emit i)) (e := .anything)
    ⟨hi, Effect.open_anything.admits _⟩ nofun rfl ?_
  intro pre d d' hs hrun
  cases emitBytes_eq_ok.mp hrun
  exact ⟨_, hs.instr hi rfl rfl, fun _ _ _ _ => rfl⟩

/-- An instruction with a memory operand. The result is where it starts. -/
theorem sound_emitAt {l : Location} {i : Mem → Instr} {pre : List Chunk} {d d' : Draft} {pc : Nat}
    (hl : l.Valid) (hi : ∀ m, (i m).mem? = some m) (hs : Sound pre d)
    (hrun : emitAt l i d = .ok pc d') :
    Sound (pre ++ [.instr (i l.mem) (l.data.map .data)]) d' ∧ pc = extent pre := by
  have henc : (i l.mem).Encodable := Instr.encodable_of_some (hi l.mem) hl.encodable
  obtain ⟨rfl, t, rfl, hplain, hdata⟩ := emitAt_eq_ok hrun
  refine ⟨?_, hs.position⟩
  cases hdata' : l.data with
  | none =>
    cases hplain hdata'
    exact hs.instr henc rfl rfl
  | some offset =>
    obtain ⟨k, hk, ht⟩ := hdata offset hdata'
    have hmem : (i l.mem).mem? = some (.rip 0) := by rw [hi, hl.data (by simp [hdata'])]
    have hx : (Chunk.instr (i l.mem) (some (.data offset))).relocation? d.buffer.position =
        some ⟨d.buffer.position + k,
          .data offset (d.buffer.position + (i l.mem).encode.length)⟩ := by
      simp [relocation?, Link.field?, hmem, hk, Link.kind]
    cases recordData_eq_ok ht
    exact hs.linked henc hx rfl rfl

theorem precedes_emitAt {l : Location} {i : Mem → Instr} {pre : List Chunk} {d d' : Draft}
    {pc : Nat} (hl : l.Valid) (hi : ∀ m, (i m).mem? = some m) (hs : Sound pre d)
    (hmark : d.buffer.mark = none) (hrun : emitAt l i d = .ok pc d') : d.Precedes d' := by
  have hwithin : (Action.instr (.at l i)).Within .anything :=
    ⟨hl, hi, fun _ _ => trivial, fun _ _ => trivial, fun _ _ _ => trivial, fun _ => trivial⟩
  exact Action.precedes hwithin hs hmark (Step.discard_of_ok hrun)

theorem lays_emitAt {l : Location} {i : Mem → Instr} (hl : l.Valid)
    (hi : ∀ m, (i m).mem? = some m) :
    Lays S C (emitAt l i) fun pc pre new _ =>
      new = [.instr (i l.mem) (l.data.map .data)] ∧ pc = extent pre := by
  intro pre d pc d' hd hs hrun
  obtain ⟨hs', hpc⟩ := sound_emitAt hl hi hs hrun
  exact ⟨(keeps_emitAt l i C d pc d' hd hrun).1, precedes_emitAt hl hi hs hd.mark hrun, _, hs',
    fun _ _ _ _ => ⟨rfl, hpc⟩⟩

/-- The address of an object as an immediate. -/
theorem lays_embed (o : ObjectId) (dst : Gpr) :
    Lays S C (emitLinked (.movAbs dst unresolvedObject) fun field =>
      SideTables.recordObject field o)
      fun _ _ new _ => new = [.instr (.movAbs dst unresolvedObject) (some (.object o))] := by
  have hwithin : (Action.embed o dst).Within .anything := trivial
  have hx :
      emitLinked (.movAbs dst unresolvedObject) (fun field => SideTables.recordObject field o) =
      (Action.embed o dst).perform := by rw [Action.perform]
  refine lays_action (.embed o dst) hwithin (fun _ h => by cases h) hx fun pre d d' hs hrun => ?_
  have hi : (Instr.movAbs dst unresolvedObject).Encodable := fun m hm => by cases hm
  have hlink : ∀ start, (Chunk.instr (.movAbs dst unresolvedObject) (some (.object o))).relocation?
      start = some ⟨start + (Instr.movAbs dst unresolvedObject).linkField?.getD 0,
        (Link.object o).kind 0⟩ := fun _ => rfl
  rw [← hx] at hrun
  exact ⟨_, sound_emitLinked (.object o) hs hi hlink (fun k t t' h => ⟨_, eq_of_keyed h⟩) hrun,
    fun _ _ _ _ => rfl⟩

/-- The slot of an object, in the data section for good. -/
theorem lays_slot {o : ObjectId} {f : Nat → Lower β} {K : Nat → β → Site.Claim}
    (hf : ∀ offset, Lays S C (f offset) (K offset)) :
    Lays S C (do
      let (offset, isNew) ← onData (·.objectSlot o)
      if isNew then record (SideTables.recordDataObject offset o)
      f offset) fun b pre new final =>
        ∃ offset, (o, offset) ∈ final.data.slots ∧ K offset b pre new final := by
  intro pre d b d' hd hs hrun
  let r := d.data.objectSlot o
  have honData : onData (·.objectSlot o) d = .ok r.1 { d with data := r.2 } := rfl
  obtain ⟨d₁, h₁, h₂⟩ : ∃ d₁, (Action.slot o).perform d = .ok () d₁ ∧ f r.1.1 d₁ = .ok b d' := by
    rw [Step.bind_of_ok honData] at hrun
    rw [Action.perform, Step.bind_of_ok honData]
    dsimp only at hrun ⊢
    split at hrun
    · rename_i hnew
      rw [if_pos hnew]
      obtain ⟨_, d₁, h₁, h₂⟩ := Step.bind_eq_ok.mp hrun
      exact ⟨d₁, h₁, h₂⟩
    · rename_i hold
      rw [if_neg hold]
      exact ⟨_, rfl, hrun⟩
  have hslot : (o, r.1.1) ∈ d₁.data.slots := by
    have hdata : d₁.data = r.2 := by
      obtain ⟨_, d₂, hr, h₁⟩ := Step.bind_eq_ok.mp h₁
      obtain ⟨rfl, rfl⟩ := onData_eq_ok.mp hr
      dsimp only at h₁
      split at h₁
      · obtain ⟨t, -, rfl⟩ := record_eq_ok.mp h₁
        rfl
      · cases h₁
        rfl
    rw [hdata]
    exact d.data.mem_objectSlot o
  have hprecedes : d.Precedes d₁ :=
    Action.precedes (a := .slot o) (e := .anything) trivial hs hd.mark h₁
  have hd₁ : C.Holds d₁ := (Action.keeps (.slot o) (fun _ h => by cases h) C d () d₁ hd h₁).1
  obtain ⟨hd', hprecedes', new, hs', hnew⟩ := hf r.1.1 pre d₁ b d' hd₁ (sound_slot hs h₁) h₂
  exact ⟨hd', hprecedes.trans hprecedes', new, hs', fun post final hhosts hfinal =>
    ⟨r.1.1, hfinal.stocks.slots (hprecedes'.stocks.slots hslot), hnew post final hhosts hfinal⟩⟩

/-- A constant, in the data section for good. -/
theorem lays_constant (bytes : List UInt8) (align : Nat) :
    Lays S C (onData (·.constant bytes align)) fun offset _ new final =>
      new = [] ∧ (⟨bytes, align⟩, offset) ∈ final.data.constants := by
  intro pre d offset d' hd hs hrun
  obtain ⟨rfl, rfl⟩ := onData_eq_ok.mp hrun
  refine ⟨⟨hd.frame, hd.target, hd.labels, hd.mark⟩,
    ⟨.refl _, d.stocks_constant bytes align, .refl _⟩, [], ?_, fun post final _ hfinal =>
      ⟨rfl, hfinal.stocks.constants (d.data.mem_constant bytes align)⟩⟩
  rw [List.append_nil]
  exact sound_constant hs

theorem lays_position : Lays S C position fun p pre new _ => new = [] ∧ p = extent pre := by
  intro pre d p d' hd hs hrun
  obtain ⟨rfl, rfl⟩ := position_eq_ok.mp hrun
  exact ⟨hd, .refl d, [], by rwa [List.append_nil], fun _ _ _ _ => ⟨rfl, hs.position⟩⟩

/-! ### Calls -/

/-- Padding, cut into instructions of at most eight bytes. -/
theorem lays_nops (n : Nat) :
    Lays S C (emitBytes (nops n)) fun _ _ new _ => new = (nopSizes n).map .nop := by
  refine lays_action (.pad n) (e := .anything) trivial nofun rfl fun pre d d' hs hrun => ?_
  cases emitBytes_eq_ok.mp hrun
  refine ⟨_, ?_, fun _ _ _ _ => rfl⟩
  rw [← flatMap_nopSizes n]
  exact hs.padding fun _ => nopSizes_mem

/-- A call with its row. -/
theorem lays_recordedCall (target : CallTarget) (info : Option DebugInfo) :
    Lays S C (Action.directCall target info).perform fun _ pre new final => ∃ rest,
      new = .instr .call (some (.call target)) :: rest ∧
      ⟨extent pre + Instr.call.encode.length, Instr.call.encode.length, some target, info, true⟩ ∈
        final.tables.callSites := by
  refine lays_action (.directCall target info) (e := .anything)
    ⟨Effect.open_anything.leaves, fun _ _ _ _ => trivial⟩ nofun rfl fun pre d d' hs hrun => ?_
  obtain ⟨start, d₁, h₁, hrun⟩ := Step.bind_eq_ok.mp hrun
  obtain ⟨rfl, rfl⟩ := position_eq_ok.mp h₁
  obtain ⟨_, d₂, h₂, hrun⟩ := Step.bind_eq_ok.mp hrun
  obtain ⟨_, d₃, h₃, hrun⟩ := Step.bind_eq_ok.mp hrun
  have hs₂ := sound_emitLinked (.call target) hs (Instr.encodable_of_none rfl) (fun _ => rfl)
    (fun k t t' h => ⟨_, eq_of_keyed h⟩) h₂
  rw [hs.position] at h₃
  obtain ⟨hs₃, hsite⟩ := sound_recordCall hs₂ rfl h₃
  obtain ⟨rest, hs', -⟩ := adds_nopAfterCall (e := .anything) _ _ _ _ hs₃ hrun
  rw [← List.append_cons] at hs'
  exact ⟨_, hs', fun _ _ _ hfinal =>
    ⟨rest, rfl, hfinal.tables.callSites _ (accrues_nopAfterCall _ _ _ hrun |>.callSites _ hsite)⟩⟩

/-- A direct call, behind padding. -/
theorem lays_directCall (target : CallTarget) (info : Option DebugInfo) :
    Lays S C (directCall target info) fun _ pre new final =>
      ∃ (ns : List Nat) (rest : List Chunk), (∀ n ∈ ns, 0 < n ∧ n ≤ 8) ∧
      new = ns.map .nop ++ .instr .call (some (.call target)) :: rest ∧
      ⟨extent (pre ++ ns.map .nop) + Instr.call.encode.length, Instr.call.encode.length,
        some target, info, true⟩ ∈
        final.tables.callSites := by
  have hcall := lays_recordedCall (S := S) (C := C) target info
  unfold directCall
  refine finds_get.lays_bind fun d _ => ?_
  extract_lets call
  have hcall : ∀ u, Lays S C (call u) _ := fun _ => hcall
  split
  · refine finds_position.lays_bind fun p _ =>
      ((lays_nops _).bind hcall).mono fun _ pre new post final _ h => ?_
    obtain ⟨_, new₁, new₂, rfl, rfl, rest, rfl, hsite⟩ := h
    exact ⟨_, rest, fun _ => nopSizes_mem, rfl, hsite⟩
  · refine (hcall ()).mono fun _ pre new post final _ h => ?_
    obtain ⟨rest, rfl, hsite⟩ := h
    exact ⟨[], rest, nofun, rfl, by simpa using hsite⟩

/-! ### Labels -/

theorem lays_newLabel : Lays S C newLabel fun _ _ new _ => new = [] := by
  intro pre d l d' hd hs hrun
  obtain rfl : d' = { d with buffer := d.buffer.withLabels 1 } := by
    have hrun :
        EStateM.Result.ok d.buffer.newLabel.1 { d with buffer := d.buffer.newLabel.2 } = .ok l d' :=
      hrun
    rw [d.buffer.newLabel_eq] at hrun
    cases hrun
    rfl
  refine ⟨⟨hd.frame, hd.target, Nat.le_trans hd.labels ?_, hd.mark⟩,
    ⟨fun m p hm => ?_, .of_same rfl rfl, .refl _⟩, [], ?_, fun _ _ _ _ => rfl⟩
  · simp [CodeBuffer.withLabels]
  · exact CodeBuffer.labelOffset_withLabels.trans hm
  · rw [List.append_nil]
    exact hs.withLabels 1

/-- A label is bound to where the code ends. -/
theorem lays_bind (l : Label) : Lays S C (Lower.bind l) fun _ pre new final =>
    new = [] ∧ final.buffer.labelOffset l = some (extent pre) := by
  refine lays_action (.bind l) (e := .anything) trivial nofun rfl fun pre d d' hs hrun => ?_
  obtain ⟨hs', hl⟩ := sound_bind hs hrun
  exact ⟨[], by rwa [List.append_nil], fun post final _ hfinal => ⟨rfl, hfinal.labels l _ hl⟩⟩

/-- A branch, with a condition or without one. -/
theorem lays_jump (cond : Option Cond) (l : Label) :
    Lays S C (Action.jump cond l).perform fun _ _ new _ =>
    ∃ short, new = [.branch short cond l] := by
  refine lays_action (.jump cond l) (e := .anything) trivial nofun rfl fun pre d d' hs hrun => ?_
  obtain ⟨b, hb, rfl⟩ :
      ∃ b, CodeBuffer.branch (shortOpcode cond) (longOpcode cond) l d.buffer = .ok () b ∧
      d' = { d with buffer := b } := by
    cases cond <;> exact onBuffer_eq_ok.mp hrun
  obtain ⟨short, hs'⟩ := hs.branch hb
  exact ⟨_, hs', fun _ _ _ _ => ⟨short, rfl⟩⟩

theorem lays_jcc (cond : Cond) (l : Label) : Lays S C (jcc cond l) fun _ _ new _ =>
    ∃ short, new = [.branch short (some cond) l] := lays_jump (some cond) l

theorem lays_jmp (l : Label) :
    Lays S C (jmp l) fun _ _ new _ => ∃ short, new = [.branch short none l] :=
  lays_jump none l

theorem lays_jccShort (cond : Cond) (l : Label) : Lays S C (jccShort cond l) fun _ _ new _ =>
    new = [.branch true (some cond) l] := by
  refine lays_action (.jumpShort cond l) (e := .anything) trivial nofun rfl
    fun pre d d' hs hrun => ?_
  obtain ⟨b, hb, rfl⟩ := onBuffer_eq_ok.mp hrun
  obtain ⟨_, _, ⟨⟩, hb⟩ := Step.bind_eq_ok.mp hb
  have hs' : Sound (pre ++ [.branch true (some cond) l]) { d with buffer := b } := hs.branchShort hb
  exact ⟨_, hs', fun _ _ _ _ => rfl⟩

/-- A jump to what the scratch register points to, with a table behind it. -/
theorem lays_table {low high : Int32} {targets : List Label}
    (hcount : high.toInt - low.toInt + 1 = targets.length) :
    Lays S C (Action.table low high targets).perform fun _ pre new _ =>
      ∃ (ns : List Nat) (behind : Nat),
      behind = extent pre + (Instr.jmpReg scratch).encode.length ∧
      new = .instr (.jmpReg scratch) none :: (ns.map .nop ++
        [.table ⟨behind + (padding behind tableEntrySize).length, low, high,
          tableEntrySize⟩ targets]) := by
  refine lays_action (.table low high targets) (e := .anything)
    ⟨Effect.open_anything.leaves, fun _ _ => trivial, hcount⟩
    nofun rfl fun pre d d' hs hrun => ?_
  obtain ⟨ns, hs'⟩ := sound_table hs hcount hrun
  exact ⟨_, hs', fun _ _ _ _ => ⟨ns, _, rfl, rfl⟩⟩

end Steps

end MachineCode
