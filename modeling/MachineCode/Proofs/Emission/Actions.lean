import MachineCode.Proofs.Effects.Runs
import MachineCode.Proofs.Emission.Sound
import MachineCode.Proofs.Records.Claims

/-! Actions keep the invariant: each adds the chunks of its code, which stay within its effect. -/
namespace MachineCode

open X64 CodeBuffer Lower SideTables

/-- The place of a memory operand in an instruction with this field. -/
def Link.place (link : Option Link) (m : Mem) : Location :=
  match link with
  | some (.data offset) => ⟨m, some offset⟩
  | _ => .plain m

namespace Chunk

/-- The effect covers the chunk. -/
def Within (e : Effect) : Chunk → Prop
  | instr i link => e.Admits i.footprint (Link.place link)
  | branch _ _ l => e.refers l
  | nop _ => True
  | table _ targets => e.leaves ∧ ∀ l ∈ targets, e.refers l
  | raw _ => e.raws

end Chunk

open Chunk

/-- Every successful run adds chunks that the effect covers. -/
def Adds {α : Type} (e : Effect) (x : Lower α) : Prop :=
  ∀ cs d a d', Sound cs d → x d = .ok a d' →
    ∃ new, Sound (cs ++ new) d' ∧ ∀ c ∈ new, c.Within e

section Rules

variable {α β : Type} {e : Effect} {x : Lower α}

/-- A step that leaves the chunks as they are. -/
theorem adds_of_quiet (h : ∀ cs d a d', Sound cs d → x d = .ok a d' → Sound cs d') : Adds e x := by
  intro cs d a d' hs hx
  refine ⟨[], ?_, by simp⟩
  rw [List.append_nil]
  exact h cs d a d' hs hx

theorem Adds.bind {f : α → Lower β} (hx : Adds e x)
    (hf : ∀ a, Adds e (f a)) : Adds e (x >>= f) := by
  intro cs d b d'' hs hrun
  obtain ⟨a, d', hx', hf'⟩ := Step.bind_eq_ok.mp hrun
  obtain ⟨new, hs', hnew⟩ := hx cs d a d' hs hx'
  obtain ⟨new', hs'', hnew'⟩ := hf a _ d' b d'' hs' hf'
  refine ⟨new ++ new', by rwa [← List.append_assoc], ?_⟩
  exact List.forall_mem_append.mpr ⟨hnew, hnew'⟩

theorem Adds.discard (hx : Adds e x) : Adds e (discard x) := by
  intro cs d u d' hs hrun
  obtain ⟨a, hrun⟩ := Step.discard_eq_ok.mp hrun
  exact hx cs d a d' hs hrun

theorem adds_pure (a : α) : Adds e (pure a) :=
  adds_of_quiet fun _ _ _ _ hs hrun => by cases hrun; exact hs

/-- A change of the draft that keeps what the invariant is about. -/
theorem adds_modify {f : Draft → Draft} (hf : ∀ cs d, Sound cs d → Sound cs (f d)) :
    Adds e (modify f) :=
  adds_of_quiet fun cs d _ _ hs hrun => by cases hrun; exact hf cs d hs

end Rules

variable {e : Effect}

/-! ### Labels, branches and padding -/

/-- A label is bound at the end of the code. -/
theorem sound_bind {l : Label} {cs : List Chunk} {d d' : Draft} (hs : Sound cs d)
    (hrun : Lower.bind l d = .ok () d') :
    Sound cs d' ∧ d'.buffer.labelOffset l = some (extent cs) := by
  obtain ⟨fresh, d₁, h₁, hrun⟩ := Step.bind_eq_ok.mp hrun
  obtain ⟨b, hb, rfl⟩ := onBuffer_eq_ok.mp h₁
  have hs₁ : Sound cs { d with buffer := b } := hs.bind hb
  have hl : b.labelOffset l = some (extent cs) := by
    rw [(hs.written.bind hb).2.1, if_pos rfl, hs.position]
  cases fresh with
  | false =>
    cases hrun
    exact ⟨hs₁, hl⟩
  | true =>
    obtain ⟨p, d₂, ⟨⟩, hrun⟩ := Step.bind_eq_ok.mp hrun
    cases Step.modify_eq_ok.mp hrun
    exact ⟨{ hs₁ with }, hl⟩

theorem adds_onBuffer_bind (l : Label) : Adds e (Lower.bind l) :=
  adds_of_quiet fun _ _ _ _ hs hrun => (sound_bind hs hrun).1

theorem adds_branch {x : BufferStep Unit} {cond : Option Cond} {l : Label}
    (hx : x = CodeBuffer.branch (shortOpcode cond) (longOpcode cond) l) (hl : e.refers l) :
    Adds e (onBuffer x) := by
  subst hx
  intro cs d u d' hs hrun
  obtain ⟨b, hb, rfl⟩ := onBuffer_eq_ok.mp hrun
  obtain ⟨short, hs'⟩ := hs.branch hb
  exact ⟨_, hs', List.forall_mem_singleton.mpr hl⟩

theorem adds_jump {cond : Option Cond} {l : Label} (hl : e.refers l) :
    Adds e (Action.jump cond l).perform := by
  cases cond with
  | none =>
    have hx : CodeBuffer.jmp l = CodeBuffer.branch (shortOpcode none) (longOpcode none) l := rfl
    exact adds_branch hx hl
  | some cond =>
    have hx : CodeBuffer.jcc cond l =
        CodeBuffer.branch (shortOpcode (some cond)) (longOpcode (some cond)) l := rfl
    exact adds_branch hx hl

theorem adds_jccShort {cond : Cond} {l : Label} (hl : e.refers l) : Adds e (jccShort cond l) := by
  intro cs d u d' hs hrun
  obtain ⟨b, hb, rfl⟩ := onBuffer_eq_ok.mp hrun
  obtain ⟨_, _, ⟨⟩, hb⟩ := Step.bind_eq_ok.mp hb
  have hs' : Sound (cs ++ [.branch true (some cond) l]) { d with buffer := b } := hs.branchShort hb
  exact ⟨_, hs', List.forall_mem_singleton.mpr hl⟩

/-- The sizes of the instructions in `n` bytes of padding. -/
def nopSizes (n : Nat) : List Nat :=
  List.replicate (n / 8) 8 ++ if n % 8 = 0 then [] else [n % 8]

theorem nopSizes_mem {n k : Nat} (h : k ∈ nopSizes n) : 0 < k ∧ k ≤ 8 := by
  have := Nat.mod_lt n (by decide : 8 > 0)
  rw [nopSizes, List.mem_append] at h
  obtain h | h := h
  · rw [List.eq_of_mem_replicate h]
    decide
  · split at h
    · simp at h
    · obtain rfl := List.mem_singleton.mp h
      omega

theorem flatMap_nopSizes (n : Nat) : (nopSizes n).flatMap nop = nops n := by
  rw [nopSizes, nops, List.flatMap_append, List.flatMap_replicate]
  congr 1
  split
  · rename_i h
    rw [h]
    rfl
  · simp

theorem adds_nops (n : Nat) : Adds e (emitBytes (nops n)) := by
  intro cs d u d' hs hrun
  cases emitBytes_eq_ok.mp hrun
  rw [← flatMap_nopSizes n]
  refine ⟨_, hs.padding fun _ => nopSizes_mem, fun c hc => ?_⟩
  obtain ⟨k, -, rfl⟩ := List.mem_map.mp hc
  trivial

/-! ### Records -/

/-- An instruction that starts here is recorded. -/
theorem sound_recordTrap {cs : List Chunk} {d d' : Draft} {pc : Nat} {info : DebugInfo}
    (hs : Sound cs d) (hpc : Starts cs pc)
    (hrun : recordTrap pc info d = .ok () d') : Sound cs d' := by
  obtain ⟨_, d₁, h₁, hrun⟩ := Step.bind_eq_ok.mp hrun
  obtain ⟨t, ht, rfl⟩ := record_eq_ok.mp h₁
  cases eq_of_keyed ht
  obtain ⟨t, ht, rfl⟩ := record_eq_ok.mp hrun
  obtain ⟨seen, rfl⟩ := recordHandlers_eq_ok ht
  have hnoted : Noted cs { d.tables with
      implicitExceptions := d.tables.implicitExceptions.push ⟨pc, info⟩, seen := seen } :=
    hs.noted.push_trap hpc
  exact hs.record { hnoted with } rfl

/-! ### Instructions -/

/-- An instruction is one chunk. Its place in memory is that of its operand. -/
theorem Emission.sound {x : Emission} {cs : List Chunk} {d d' : Draft} (hx : x.Within e)
    (hs : Sound cs d) (hrun : x.perform d = .ok () d') :
    ∃ i link, Sound (cs ++ [.instr i link]) d' ∧ e.Admits i.footprint (Link.place link) := by
  cases x with
  | emit i =>
    cases emitBytes_eq_ok.mp hrun
    exact ⟨i, none, hs.instr hx.1 rfl rfl, hx.2⟩
  | «at» l i =>
    obtain ⟨hl, hi, hadmits⟩ := hx
    have henc : (i l.mem).Encodable := Instr.encodable_of_some (hi l.mem) hl.encodable
    obtain ⟨pc, hrun⟩ := Step.discard_eq_ok.mp hrun
    obtain ⟨rfl, t, rfl, hplain, hdata⟩ := emitAt_eq_ok hrun
    have hplace : ∀ link, Link.place link l.mem = l →
        e.Admits (i l.mem).footprint (Link.place link) := by
      intro link hlink
      refine ⟨hadmits.gprs, hadmits.xmms, fun m n hstore => ?_, hadmits.leaves⟩
      have hm : m = l.mem := by
        have := Instr.mem?_of_store? hstore
        rw [hi] at this
        exact (Option.some.inj this).symm
      rw [hm, hlink]
      exact hadmits.stores m n hstore
    cases hd : l.data with
    | none =>
      cases hplain hd
      refine ⟨i l.mem, none, hs.instr henc rfl rfl, hplace none ?_⟩
      obtain ⟨m, data⟩ := l
      cases hd
      rfl
    | some offset =>
      obtain ⟨k, hk, ht⟩ := hdata offset hd
      have hmem : (i l.mem).mem? = some (.rip 0) := by rw [hi, hl.data (by simp [hd])]
      have hx : (Chunk.instr (i l.mem) (some (.data offset))).relocation? d.buffer.position =
          some ⟨d.buffer.position + k,
            .data offset (d.buffer.position + (i l.mem).encode.length)⟩ := by
        simp [relocation?, Link.field?, hmem, hk, Link.kind]
      cases recordData_eq_ok ht
      refine ⟨i l.mem, some (.data offset), hs.linked henc hx rfl rfl, hplace _ ?_⟩
      obtain ⟨m, data⟩ := l
      cases hd
      rfl

theorem Emission.adds {x : Emission} (hx : x.Within e) : Adds e x.perform := by
  intro cs d u d' hs hrun
  obtain ⟨i, link, hs', hadmits⟩ := Emission.sound hx hs hrun
  exact ⟨_, hs', List.forall_mem_singleton.mpr hadmits⟩

theorem Trailer.adds {x : Trailer} (hx : x.Within e) : Adds e x.perform := by
  cases x with
  | none => exact adds_pure ()
  | store x => exact Emission.adds hx
  | bind l => exact adds_onBuffer_bind l
  | refuse err => exact fun _ _ _ _ _ hrun => absurd hrun Step.throw_ne_ok

/-- An instruction with a field that is not a reference to the data section. -/
theorem sound_emitLinked {i : Instr} (link : Link) {cs : List Chunk} {d d' : Draft}
    {f : Nat → RecordStep Unit} (hs : Sound cs d) (hi : i.Encodable)
    (hlink : ∀ start, (Chunk.instr i (some link)).relocation? start =
      some ⟨start + i.linkField?.getD 0, link.kind 0⟩)
    (hf : ∀ k t t', f k t = .ok () t' → ∃ seen,
      t' = { t with relocations := t.relocations.push ⟨k, link.kind 0⟩, seen := seen })
    (hrun : emitLinked i f d = .ok () d') : Sound (cs ++ [.instr i (some link)]) d' := by
  obtain ⟨t, ht, rfl⟩ := emitLinked_eq_ok hrun
  obtain ⟨seen, rfl⟩ := hf _ _ _ ht
  exact hs.linked hi (hlink _) rfl rfl

theorem adds_embed {o : ObjectId} {dst : Gpr} (h : e.gprs dst) :
    Adds e (Action.embed o dst).perform := by
  intro cs d u d' hs hrun
  have hi : (Instr.movAbs dst unresolvedObject).Encodable := fun m hm => by cases hm
  have hadmits : e.Admits (Instr.movAbs dst unresolvedObject).footprint
      (Link.place (some (.object o))) := e.admits_gpr h
  have hlink : ∀ start, (Chunk.instr (.movAbs dst unresolvedObject) (some (.object o))).relocation?
      start = some ⟨start + (Instr.movAbs dst unresolvedObject).linkField?.getD 0,
        (Link.object o).kind 0⟩ := fun _ => rfl
  have hrun :
      emitLinked (.movAbs dst unresolvedObject) (fun field => SideTables.recordObject field o) d =
      .ok () d' := hrun
  have hs' := sound_emitLinked (.object o) hs hi hlink (fun k t t' h => ⟨_, eq_of_keyed h⟩) hrun
  exact ⟨_, hs', List.forall_mem_singleton.mpr hadmits⟩

/-- An instruction that may fault with what follows it, and its record. -/
theorem adds_trap {x : Emission} {after : Trailer} {info : DebugInfo} (hx : x.Within e)
    (hafter : after.Within e) : Adds e (Action.trap x after info).perform := by
  intro cs d u d' hs hrun
  obtain ⟨pc, d₁, h₁, hrun⟩ := Step.bind_eq_ok.mp hrun
  obtain ⟨rfl, rfl⟩ := position_eq_ok.mp h₁
  obtain ⟨_, d₂, h₂, hrun⟩ := Step.bind_eq_ok.mp hrun
  obtain ⟨_, d₃, h₃, hrun⟩ := Step.bind_eq_ok.mp hrun
  obtain ⟨i, link, hs₂, hadmits⟩ := Emission.sound hx hs h₂
  obtain ⟨new, hs₃, hnew⟩ := Trailer.adds hafter _ _ _ _ hs₂ h₃
  have hstarts : Starts (cs ++ [.instr i link]) d.buffer.position := hs.starts rfl
  refine ⟨.instr i link :: new, ?_, List.forall_mem_cons.mpr ⟨hadmits, hnew⟩⟩
  rw [List.append_cons]
  exact sound_recordTrap hs₃ hstarts.append hrun

/-- The read of the safepoint page, with its row. -/
theorem sound_safepoint {info : DebugInfo} {cs : List Chunk} {d d' : Draft} (hs : Sound cs d)
    (hrun : safepoint info d = .ok () d') :
    Sound (cs ++ [.instr safepointInstr none]) d' ∧ ⟨extent cs, info⟩ ∈ d'.tables.safepoints := by
  obtain ⟨pc, d₁, h₁, hrun⟩ := Step.bind_eq_ok.mp hrun
  obtain ⟨rfl, rfl⟩ := position_eq_ok.mp h₁
  obtain ⟨_, d₂, h₂, hrun⟩ := Step.bind_eq_ok.mp hrun
  obtain ⟨t, ht, rfl⟩ := record_eq_ok.mp h₂
  cases eq_of_keyed ht
  cases emitBytes_eq_ok.mp hrun
  have hi : safepointInstr.Encodable := Instr.encodable_of_some rfl (encodable_based _ _)
  have hs' : Sound (cs ++ [.instr safepointInstr none]) _ := hs.instr hi rfl rfl
  have hmem := mem_placed cs (.instr safepointInstr none) []
  rw [← hs.position] at hmem ⊢
  exact ⟨hs'.record (hs'.noted.push_safepoint hmem) rfl, Array.mem_push_self⟩

theorem adds_safepoint (info : DebugInfo) : Adds e (safepoint info) := fun _ _ _ _ hs hrun =>
  ⟨_, (sound_safepoint hs hrun).1, List.forall_mem_singleton.mpr e.admits_nothing⟩

/-! ### Calls -/

/-- The row of a call that has been emitted. -/
theorem sound_recordCall {i : Instr} {link : Option Link} {dst : Destination}
    {target : Option CallTarget} {info : Option DebugInfo} {direct : Bool} {cs : List Chunk}
    {d d' : Draft} (hs : Sound (cs ++ [.instr i link]) d) (hi : i.decoded = .call dst)
    (hrun : recordCall (extent cs) target info direct d = .ok () d') :
    Sound (cs ++ [.instr i link]) d' ∧
      ⟨extent cs + i.encode.length, i.encode.length, target, info, direct⟩ ∈
        d'.tables.callSites := by
  obtain ⟨pc, d₁, h₁, hrun⟩ := Step.bind_eq_ok.mp hrun
  obtain ⟨rfl, rfl⟩ := position_eq_ok.mp h₁
  obtain ⟨_, d₂, h₂, hrun⟩ := Step.bind_eq_ok.mp hrun
  obtain ⟨t, ht, rfl⟩ := record_eq_ok.mp h₂
  cases eq_of_keyed ht
  have hstop : d.buffer.position = extent cs + i.encode.length := by simp [hs.position]
  have hsize : d.buffer.position - extent cs = i.encode.length := by omega
  have hcall : EndsCall (cs ++ [.instr i link]) ⟨d.buffer.position, d.buffer.position - extent cs,
      target, info, direct⟩ :=
    ⟨.inl hs.position, i, link, dst, extent cs, mem_placed cs _ [], hi, hsize,
      hstop.trans (by rw [hsize])⟩
  have hnoted : ∀ seen, Noted (cs ++ [.instr i link]) { d.tables with
      callSites := d.tables.callSites.push
        ⟨d.buffer.position, d.buffer.position - extent cs, target, info, direct⟩
      seen := seen } := fun _ => hs.noted.push_call hcall
  rw [← hstop, ← hsize]
  cases info with
  | none =>
    cases hrun
    exact ⟨hs.record (hnoted _) rfl, Array.mem_push_self⟩
  | some info =>
    obtain ⟨t, ht, rfl⟩ := record_eq_ok.mp hrun
    obtain ⟨seen, rfl⟩ := recordHandlers_eq_ok ht
    exact ⟨hs.record { hnoted seen with } rfl, Array.mem_push_self⟩

theorem adds_nopAfterCall : Adds e nopAfterCall := by
  unfold nopAfterCall
  refine Adds.bind (adds_of_quiet fun _ _ _ _ hs hrun => by cases hrun; exact hs) fun d => ?_
  split
  · exact adds_nops 1
  · exact adds_pure ()

/-- A call that is recorded when it has been emitted. -/
theorem adds_recordedCall {x : Lower Unit} {target : Option CallTarget} {info : Option DebugInfo}
    {direct : Bool} (hleaves : e.leaves)
    (hx : ∀ cs d d', Sound cs d → x d = .ok () d' →
      ∃ i link dst, Sound (cs ++ [.instr i link]) d' ∧ i.decoded = .call dst) :
    Adds e (do
      let start ← position
      x
      recordCall start target info direct
      nopAfterCall) := by
  intro cs d u d' hs hrun
  obtain ⟨start, d₁, h₁, hrun⟩ := Step.bind_eq_ok.mp hrun
  obtain ⟨rfl, rfl⟩ := position_eq_ok.mp h₁
  obtain ⟨_, d₂, h₂, hrun⟩ := Step.bind_eq_ok.mp hrun
  obtain ⟨i, link, dst, hs₂, hi⟩ := hx cs _ _ hs h₂
  obtain ⟨_, d₃, h₃, hrun⟩ := Step.bind_eq_ok.mp hrun
  rw [hs.position] at h₃
  obtain ⟨hs₃, -⟩ := sound_recordCall hs₂ hi h₃
  obtain ⟨new, hs', hnew⟩ := adds_nopAfterCall _ _ _ _ hs₃ hrun
  have hadmits : e.Admits i.footprint (Link.place link) := by
    rw [Instr.footprint, hi]
    exact e.admits_transfer hleaves
  refine ⟨.instr i link :: new, ?_, List.forall_mem_cons.mpr ⟨hadmits, hnew⟩⟩
  rwa [List.append_cons]

theorem adds_directCall {target : CallTarget} {info : Option DebugInfo} (hleaves : e.leaves) :
    Adds e (Action.directCall target info).perform := by
  refine adds_recordedCall hleaves fun cs d d' hs hrun => ?_
  refine ⟨.call, some (.call target), _, ?_, rfl⟩
  exact sound_emitLinked (.call target) hs (Instr.encodable_of_none rfl) (fun _ => rfl)
    (fun k t t' h => ⟨_, eq_of_keyed h⟩) hrun

theorem adds_indirectCall {r : Gpr} {target : Option CallTarget} {info : DebugInfo}
    (hleaves : e.leaves) : Adds e (Action.indirectCall r target info).perform := by
  refine adds_recordedCall hleaves fun cs d d' hs hrun => ?_
  cases emitBytes_eq_ok.mp hrun
  exact ⟨.callReg r, none, _, hs.instr (Instr.encodable_of_none rfl) rfl rfl, rfl⟩

/-! ### Switches -/

theorem forM_onBuffer {targets : List Label} {kind : ReferenceKind} {d d' : Draft}
    (h : (targets.forM fun l => onBuffer (reference l kind)) d = .ok () d') :
    ∃ b, targets.forM (reference · kind) d.buffer = .ok () b ∧ d' = { d with buffer := b } := by
  induction targets generalizing d with
  | nil =>
    cases h
    exact ⟨_, rfl, rfl⟩
  | cons l targets ih =>
    obtain ⟨_, d₁, h₁, h⟩ := Step.bind_eq_ok.mp h
    obtain ⟨b₁, hb₁, rfl⟩ := onBuffer_eq_ok.mp h₁
    obtain ⟨b, hb, rfl⟩ := ih h
    exact ⟨b, Step.bind_eq_ok.mpr ⟨_, b₁, hb₁, hb⟩, rfl⟩

/-- What `padding` emits is padding. -/
theorem padding_eq_nops (position align : Nat) : ∃ n, padding position align = nops n := by
  unfold padding
  split
  · exact ⟨_, rfl⟩
  · exact ⟨0, rfl⟩

/-- The last jump of a switch with the table behind it. -/
theorem sound_table {low high : Int32} {targets : List Label} {cs : List Chunk} {d d' : Draft}
    (hs : Sound cs d) (hcount : high.toInt - low.toInt + 1 = targets.length)
    (hrun : (Action.table low high targets).perform d = .ok () d') :
    let stop := extent cs + (Instr.jmpReg scratch).encode.length
    let t : JumpTable := ⟨stop + (padding stop tableEntrySize).length, low, high, tableEntrySize⟩
    ∃ ns : List Nat,
      Sound (cs ++ .instr (.jmpReg scratch) none :: (ns.map .nop ++ [.table t targets])) d' := by
  intro stop t
  obtain ⟨_, d₁, h₁, hrun⟩ := Step.bind_eq_ok.mp hrun
  cases emitBytes_eq_ok.mp h₁
  obtain ⟨_, d₂, h₂, hrun⟩ := Step.bind_eq_ok.mp hrun
  obtain ⟨p, d₃, h₃, h₂⟩ := Step.bind_eq_ok.mp h₂
  obtain ⟨rfl, rfl⟩ := position_eq_ok.mp h₃
  have hstop : (d.buffer.append (Instr.jmpReg scratch).encode.bytes).position = stop := by
    rw [position_append, hs.position]
    rfl
  obtain ⟨n, hn⟩ := padding_eq_nops stop tableEntrySize
  rw [hstop, hn] at h₂
  cases emitBytes_eq_ok.mp h₂
  obtain ⟨p, d₄, h₄, hrun⟩ := Step.bind_eq_ok.mp hrun
  obtain ⟨hp, rfl⟩ := position_eq_ok.mp h₄
  obtain ⟨_, d₅, h₅, hrun⟩ := Step.bind_eq_ok.mp hrun
  obtain ⟨b, hb, rfl⟩ := forM_onBuffer h₅
  obtain ⟨table, ht, rfl⟩ := record_eq_ok.mp hrun
  cases eq_of_keyed ht
  obtain rfl : p = t.position := hp.symm.trans ((position_append _ _).trans (by rw [hstop, ← hn]))
  rw [← flatMap_nopSizes] at hp hb
  exact ⟨_, hs.table (t := t) (Instr.encodable_of_none (i := .jmpReg scratch) rfl)
    (fun k hk => nopSizes_mem hk) hp.symm
    hcount hb⟩

theorem adds_table {low high : Int32} {targets : List Label} (hleaves : e.leaves)
    (htargets : ∀ l ∈ targets, e.refers l) (hcount : high.toInt - low.toInt + 1 = targets.length) :
    Adds e (Action.table low high targets).perform := by
  intro cs d u d' hs hrun
  obtain ⟨ns, hs'⟩ := sound_table hs hcount hrun
  refine ⟨_, hs', List.forall_mem_cons.mpr ⟨e.admits_transfer hleaves, ?_⟩⟩
  refine List.forall_mem_append.mpr ⟨fun c hc => ?_,
    List.forall_mem_singleton.mpr ⟨hleaves, htargets⟩⟩
  obtain ⟨k, -, rfl⟩ := List.mem_map.mp hc
  trivial

/-! ### Data -/

/-- The slot of an object is recorded, and no code is added. -/
theorem sound_slot {o : ObjectId} {cs : List Chunk} {d d' : Draft} (hs : Sound cs d)
    (hrun : (Action.slot o).perform d = .ok () d') : Sound cs d' := by
  obtain ⟨hle, hfresh⟩ := d.data.objectSlot_bounds o
  obtain ⟨r, d₁, h₁, hrun⟩ := Step.bind_eq_ok.mp hrun
  obtain ⟨rfl, rfl⟩ := onData_eq_ok.mp h₁
  have hs₁ : Sound cs { d with data := (d.data.objectSlot o).2 } :=
    { hs with slots := hs.slots.mono hle }
  dsimp only at hrun
  split at hrun
  · rename_i hnew
    obtain ⟨hlow, hhigh⟩ := hfresh hnew
    obtain ⟨t, ht, rfl⟩ := record_eq_ok.mp hrun
    cases eq_of_keyed ht
    exact { hs₁ with
      noted := { hs₁.noted with }
      slots := hs.slots.push hlow hhigh }
  · cases hrun
    exact hs₁

theorem sound_constant {bytes : List UInt8} {align : Nat} {cs : List Chunk} {d : Draft}
    (hs : Sound cs d) :
    Sound cs { d with data := (d.data.constant bytes align).2 } :=
  { hs with slots := hs.slots.mono (d.data.size_le_constant bytes align) }

/-- Bytes of a template's own. -/
theorem adds_raw {bytes : List UInt8} (h : e.raws) : Adds e (Action.raw bytes).perform := by
  intro cs d u d' hs hrun
  cases emitBytes_eq_ok.mp hrun
  exact ⟨[.raw bytes],
    hs.snoc rfl (fun _ => rfl) (fun _ => trivial) (hs.written.emit bytes) fun _ =>
      rfl, List.forall_mem_singleton.mpr h⟩

/-- Every action keeps the invariant. -/
theorem Action.adds {a : Action} (ha : a.Within e) : Adds e a.perform := by
  cases a with
  | instr x => exact Emission.adds ha
  | embed o dst => exact adds_embed ha
  | slot o => exact adds_of_quiet fun cs d _ d' hs hrun => sound_slot hs hrun
  | constant bytes align =>
    exact Adds.discard (adds_of_quiet fun cs d _ _ hs hrun => by
      cases hrun; exact sound_constant hs)
  | reserve count =>
    refine adds_of_quiet fun cs d _ d' hs hrun => ?_
    obtain ⟨b, hb, rfl⟩ := onBuffer_eq_ok.mp hrun
    cases reserveLabels_eq_ok hb
    exact hs.withLabels _
  | fresh n =>
    exact Adds.discard (adds_of_quiet fun cs d _ _ hs hrun => by cases hrun; exact hs.withLabels n)
  | bind l => exact adds_onBuffer_bind l
  | jump cond l => exact adds_jump ha
  | jumpShort cond l => exact adds_jccShort ha
  | pad n => exact adds_nops n
  | raw bytes => exact adds_raw ha
  | table low high targets => exact adds_table ha.1 ha.2.1 ha.2.2
  | directCall target info => exact adds_directCall ha.1
  | indirectCall r target info => exact adds_indirectCall ha.1
  | safepoint info => exact adds_safepoint info
  | trap x after info => exact adds_trap ha.1 ha.2.1
  | mark id =>
    refine adds_of_quiet fun cs d u d' hs hrun => ?_
    obtain ⟨pc, d₁, h₁, hrun⟩ := Step.bind_eq_ok.mp hrun
    obtain ⟨rfl, rfl⟩ := position_eq_ok.mp h₁
    obtain ⟨t, ht, rfl⟩ := record_eq_ok.mp hrun
    obtain ⟨-, rfl⟩ := recordMark_eq_ok.mp ht
    exact hs.record (hs.noted.push_mark (m := ⟨_, id⟩) (hs.position ▸ boundary_extent cs)) rfl
  | enqueue path => exact adds_modify fun _ _ hs => { hs with }
  | log event | report f | name op => exact adds_modify fun _ _ hs => { hs with }
  | refuse err => exact fun _ _ _ _ _ hrun => absurd hrun Step.throw_ne_ok

theorem performAll_adds {as : List Action}
    (has : ∀ a ∈ as, a.Within e) : Adds e (performAll as) := by
  induction as with
  | nil => exact adds_pure ()
  | cons a as ih =>
    obtain ⟨ha, has⟩ := List.forall_mem_cons.mp has
    rw [performAll_cons]
    exact (Action.adds ha).bind fun _ => ih has

section Steps

variable {α : Type} {C : Context} {cs : List Chunk} {d d' : Draft}

/-- A step that is made of actions adds chunks that its effect covers. -/
theorem Lowers.adds {x : Lower α} {p : α → Prop} {a : α} (hx : Lowers C e x p) (hd : C.Holds d)
    (hrun : x d = .ok a d') (hs : Sound cs d) :
    ∃ new, Sound (cs ++ new) d' ∧ ∀ c ∈ new, c.Within e := by
  obtain ⟨-, -, as, has, hperform⟩ := hx.run hd hrun
  exact performAll_adds has cs d () d' hs hperform

/-- A step that ends with an instruction adds it as the last chunk. -/
theorem Closes.adds {e' : Effect} {x : Lower Nat} {pc : Nat} (hx : Closes C e e' x) (hd : C.Holds d)
    (hrun : x d = .ok pc d') (hs : Sound cs d) :
    ∃ new i link, Sound (cs ++ (new ++ [.instr i link])) d' ∧ (∀ c ∈ new, c.Within e) ∧
      (Chunk.instr i link).Within e' := by
  obtain ⟨as, _, has, ⟨i, hi, rfl⟩, heq⟩ := hx d hd
  rw [heq] at hrun
  obtain ⟨_, d₁, h₁, hrun⟩ := Step.bind_eq_ok.mp hrun
  obtain ⟨p, d₂, h₂, hrun⟩ := Step.bind_eq_ok.mp hrun
  obtain ⟨-, rfl⟩ := position_eq_ok.mp h₂
  obtain ⟨_, d₃, h₃, hrun⟩ := Step.bind_eq_ok.mp hrun
  cases hrun
  obtain ⟨new, hs₁, hnew⟩ := performAll_adds has cs d () d₁ hs h₁
  obtain ⟨i, link, hs', hadmits⟩ := Emission.sound hi hs₁ h₃
  exact ⟨new, i, link, by rwa [← List.append_assoc], hnew, hadmits⟩

end Steps

/-- What one effect covers, a wider one covers. -/
theorem Chunk.Within.mono {e' : Effect} {c : Chunk} (h : c.Within e)
    (hrefers : ∀ l, e.refers l → e'.refers l) (hgprs : ∀ g, e.gprs g → e'.gprs g)
    (hxmms : ∀ x, e.xmms x → e'.xmms x) (hstores : ∀ l n, e.stores l n → e'.stores l n)
    (hleaves : e.leaves → e'.leaves) (hraws : e.raws → e'.raws) : c.Within e' := by
  cases c with
  | instr i link =>
    exact ⟨fun g hg => hgprs g (h.gprs g hg), fun x hx => hxmms x (h.xmms x hx),
      fun m n hm => hstores _ n (h.stores m n hm), fun hl => hleaves (h.leaves hl)⟩
  | nop n => trivial
  | branch short cond l => exact hrefers l h
  | table t targets => exact ⟨hleaves h.1, fun l hl => hrefers l (h.2 l hl)⟩
  | raw bytes => exact hraws h

end MachineCode
