import MachineCode.Proofs.Decoding.Listing
import MachineCode.Proofs.Execution.Tables
import MachineCode.Proofs.References.Operations

/-! Padding. It has as many bytes as it was asked for, cut into instructions of at most eight, and
the machine passes it without a trace but in its instruction pointer and its log. Alignments take
the shortest padding there is. -/
namespace MachineCode

open X64 Lower SideTables

/-! ### Instructions of padding -/

namespace X64

theorem length_nopSizes (n : Nat) : (nopSizes n).length = (n + 7) / 8 := by
  rw [nopSizes, List.length_append, List.length_replicate]
  split <;> simp <;> omega

/-- Instructions of padding, with their bytes. -/
def nopParts (ns : List Nat) : List (List UInt8 × Decoded) := ns.map fun n => (nop n, .nop)

theorem flatten_nopParts (ns : List Nat) :
    ((nopParts ns).map Prod.fst).flatten = ns.flatMap nop := by
  rw [nopParts, List.map_map, List.flatMap_def]
  rfl

theorem decodeAll_nops (n : Nat) :
    decodeAll (nops n) = some (stream 0 (nopParts (nopSizes n))) := by
  rw [← flatMap_nopSizes, ← flatten_nopParts]
  refine decodeAll_flatten fun x hx => ?_
  obtain ⟨k, hk, rfl⟩ := List.mem_map.mp hx
  exact Chunk.decodes_nop (nopSizes_mem hk).1 (nopSizes_mem hk).2

theorem length_stream (offset : Nat) (parts : List (List UInt8 × Decoded)) :
    (stream offset parts).length = parts.length := by
  induction parts generalizing offset with
  | nil => rfl
  | cons x parts ih => rw [stream, List.length_cons, List.length_cons, ih]

theorem eq_nop_of_mem_stream {offset : Nat} {ns : List Nat} {e : Nat × Decoded × Nat}
    (he : e ∈ stream offset (nopParts ns)) : e.2.1 = .nop := by
  induction ns generalizing offset with
  | nil => cases he
  | cons n ns ih =>
    cases he with
    | head => rfl
    | tail _ he => exact ih he

end X64

/-! ### The machine behind padding -/

namespace Machine

variable {machine machine' machine'' : Machine} {start : Word}

/-- From one state to the other these instructions have been executed, each at its offset from
`start`, and nothing has changed but the instruction pointer and the log. -/
structure Passes (start : Word) (xs : List (Nat × Decoded × Nat))
    (machine machine' : Machine) : Prop where
  walks : machine.Walks (fun a => ∃ e ∈ xs, a = start + BitVec.ofNat 64 e.1) machine'
  executed : machine'.executed.toList = machine.executed.toList ++ xs.map fun e =>
    (start + BitVec.ofNat 64 e.1, e.2.1.insn)
  rest : { machine' with rip := machine.rip, pc := machine.pc, executed := machine.executed } =
    machine

theorem Passes.trans {xs ys : List (Nat × Decoded × Nat)} (h : machine.Passes start xs machine')
    (h' : machine'.Passes start ys machine'') : machine.Passes start (xs ++ ys) machine'' where
  walks := (h.walks.mono fun _ ⟨e, he, ha⟩ => ⟨e, List.mem_append_left _ he, ha⟩).trans
    (h'.walks.mono fun _ ⟨e, he, ha⟩ => ⟨e, List.mem_append_right _ he, ha⟩)
  executed := by rw [h'.executed, h.executed, List.map_append, List.append_assoc]
  rest := by
    calc { machine'' with rip := machine.rip, pc := machine.pc, executed := machine.executed }
        = { ({ machine'' with
              rip := machine'.rip, pc := machine'.pc, executed := machine'.executed } : Machine) with
            rip := machine.rip, pc := machine.pc, executed := machine.executed } := rfl
      _ = machine := by rw [h'.rest, h.rest]

/-- One instruction of padding. -/
theorem passes_nop {n p : Nat} (hn : 0 < n ∧ n ≤ 8) {image : Array UInt8}
    (hloaded : machine.Loaded start image) (hat : BytesAt image p (nop n))
    (hrip : machine.rip = start + BitVec.ofNat 64 p) :
    machine.Passes start [(p, .nop, n)] (machine.fetched .nop n) := by
  have hlen : (nop n).length = n := length_nop n hn.2
  have hfetch : machine.fetch machine.rip = some (.nop, n) := by
    rw [hrip, ← hlen]
    have hshort : n ≤ fetchLength := Nat.le_trans hn.2 (by decide)
    exact (hloaded.part p _).fetch hat (Chunk.decodes_nop hn.1 hn.2) (by rwa [hlen])
  have hstep : step machine = .ok () (machine.fetched .nop n) := step_of_fetch hfetch
  refine ⟨.step ⟨_, List.mem_singleton_self _, hrip⟩ hstep (.refl _), ?_, rfl⟩
  simp [fetched, hrip]

/-- Padding that lies in memory is passed. -/
theorem exists_passes {ns : List Nat} (hns : ∀ n ∈ ns, 0 < n ∧ n ≤ 8) {image : Array UInt8}
    {p : Nat} (hloaded : machine.Loaded start image) (hat : BytesAt image p (ns.flatMap nop))
    (hrip : machine.rip = start + BitVec.ofNat 64 p) :
    ∃ machine', machine.Passes start (stream p (nopParts ns)) machine' ∧
      machine'.rip = start + BitVec.ofNat 64 (p + (ns.flatMap nop).length) := by
  -- By induction on the instructions. Memory does not change, so what follows is still there.
  induction ns generalizing machine p with
  | nil => exact ⟨machine, ⟨.refl _, (List.append_nil _).symm, rfl⟩, hrip⟩
  | cons n ns ih =>
    obtain ⟨hn, hns⟩ := List.forall_mem_cons.mp hns
    have hlen : (nop n).length = n := length_nop n hn.2
    rw [List.flatMap_cons] at hat ⊢
    obtain ⟨hfirst, hrest⟩ := BytesAt.append_iff.mp hat
    have hbehind : (machine.fetched .nop n).rip = start + BitVec.ofNat 64 (p + (nop n).length) := by
      change machine.rip + _ = _
      rw [hrip, hlen, BitVec.add_assoc, ← BitVec.ofNat_add]
    have hloaded' : (machine.fetched .nop n).Loaded start image := hloaded
    obtain ⟨machine', hpasses, hend⟩ := ih hns hloaded' hrest hbehind
    have hone : machine.Passes start [(p, .nop, (nop n).length)] (machine.fetched .nop n) := by
      rw [hlen]
      exact passes_nop hn hloaded hfirst hrip
    refine ⟨machine', hone.trans hpasses, ?_⟩
    rw [hend, List.length_append, Nat.add_assoc]

end Machine

/-! ### Alignment -/

namespace Lower

/-- No shorter padding leads to a multiple of the alignment. -/
theorem length_padding_le {position align k : Nat} (h : 1 < align) (hk : align ∣ position + k) :
    (padding position align).length ≤ k := by
  by_contra hlt
  have hdvd : align ∣ position + (padding position align).length - (position + k) :=
    Nat.dvd_sub (dvd_add_length_padding h) hk
  have hle := Nat.le_of_dvd (by omega) hdvd
  have hshort : (padding position align).length < align := length_padding_lt h
  omega

theorem callPadding_le (position : Nat) : callPadding position ≤ 3 := by
  unfold callPadding
  omega

/-! ### Padding in front of calls -/

/-- Code and fields are added at most. -/
structure Continues (d d' : Draft) : Prop where
  code : d.buffer.code.toList <+: d'.buffer.code.toList
  fields : d.tables.relocations.toList <+: d'.tables.relocations.toList

instance : IsPreorder Draft Continues where
  refl _ := ⟨List.prefix_refl _, List.prefix_refl _⟩
  trans _ _ _ h h' := ⟨h.code.trans h'.code, h.fields.trans h'.fields⟩

theorem continues_emitBytes (bytes : List UInt8) : Step.Along Continues (emitBytes bytes) :=
  fun d =>
  ⟨by rw [Step.final_of_ok (emitBytes_eq_ok.mpr rfl),
    CodeBuffer.toList_append]; exact List.prefix_append _ _, List.prefix_refl _⟩

theorem continues_ofExcept {α : Type} (x : Except Error α) : Step.Along Continues (ofExcept x) := by
  intro d
  cases x <;> exact refl d

theorem continues_record {x : RecordStep Unit}
    (hx : ∀ t, t.relocations.toList <+: (Step.final x t).relocations.toList) :
    Step.Along Continues (record x) := by
  intro d
  have htables : Step.final (record x) d = { d with tables := Step.final x d.tables } := by
    simp only [Step.final, record]
    cases x d.tables <;> rfl
  rw [htables]
  exact ⟨List.prefix_refl _, hx d.tables⟩

/-- A record under a key adds at most the fields that it is made for. -/
theorem continues_keyed {table : String} {pc : Nat} {f : SideTables → SideTables}
    (hf : ∀ t : SideTables, t.relocations.toList <+:
      (f { t with seen := (table, pc) :: t.seen }).relocations.toList) :
    Step.Along Continues (record (do claim table pc; modify f)) := by
  refine continues_record fun t => ?_
  obtain h | h := final_keyed table pc f t
  · exact h.symm ▸ List.prefix_refl t.relocations.toList
  · exact h.symm ▸ hf t

theorem continues_recordCall (start : Nat) (target : Option CallTarget) (info : Option DebugInfo)
    (direct : Bool) :
    Step.Along Continues (recordCall start target info direct) := by
  have hposition : Step.Along Continues position := fun d => refl d
  refine hposition.bind fun pc => (continues_keyed fun t => List.prefix_refl _).bind fun _ => ?_
  cases info with
  | none => exact Step.along_pure _
  | some info =>
    change Step.Along Continues (record (recordHandlers pc info))
    by_cases hedges : info.edges = []
    · rw [recordHandlers_nil hedges]
      exact continues_record fun t => List.prefix_refl _
    · rw [recordHandlers_eq hedges]
      exact continues_keyed fun t => List.prefix_refl _

theorem continues_nopAfterCall : Step.Along Continues nopAfterCall := by
  refine Step.along_get.bind fun d => ?_
  exact Step.along_ite (continues_emitBytes _) (Step.along_pure _)

/-- The code of a call is there, whatever becomes of its records. -/
theorem continues_emitCall (target : CallTarget) (d : Draft) :
    Continues { d with buffer := d.buffer.append Instr.call.encode.bytes }
      (Step.final (emitLinked .call fun field => SideTables.recordCallTarget field target) d) := by
  have hrecord : Step.Along Continues
      (record (SideTables.recordCallTarget (d.buffer.position + 1) target)) :=
    continues_keyed fun t => by
      rw [Array.toList_push]
      exact List.prefix_append _ _
  have hclear : Step.Along Continues
      (modify fun d : Draft => { d with buffer := d.buffer.clearMark } : Lower PUnit) :=
    Step.along_modify fun d => ⟨List.prefix_refl _, List.prefix_refl _⟩
  have hbehind : Step.Along Continues (do
      ofExcept ((← get).buffer.checkInInstruction (d.buffer.position + 1))
      record (SideTables.recordCallTarget (d.buffer.position + 1) target)
      modify fun d => { d with buffer := d.buffer.clearMark }) :=
    Step.along_get.bind fun _ => (continues_ofExcept _).bind fun _ => hrecord.bind fun _ => hclear
  have hmarked := hbehind { d with buffer := d.buffer.setMark.append Instr.call.encode.bytes }
  exact ⟨hmarked.code, hmarked.fields⟩

/-- An aligned call: padding, the call, and the field of its displacement at a multiple of 4. -/
theorem directCall_aligned (target : CallTarget) (info : Option DebugInfo) {d : Draft}
    (h : d.target.options.alignDirectCalls = true) :
    (∃ rest, (Step.final (directCall target info) d).buffer.code.toList =
      d.buffer.code.toList ++ nops (callPadding d.buffer.position) ++
        Instr.call.encode.bytes ++ rest) ∧
    ∀ d', directCall target info d = .ok () d' →
      ⟨d.buffer.position + callPadding d.buffer.position + 1, .call target⟩ ∈
        d'.tables.relocations := by
  let padded : Draft := { d with buffer := d.buffer.append (nops (callPadding d.buffer.position)) }
  let call : Lower Unit := emitLinked .call fun field => SideTables.recordCallTarget field target
  let recorded : Lower Unit := do
    recordCall padded.buffer.position (some target) info true
    nopAfterCall
  have hrun : directCall target info d = (call >>= fun _ => recorded) padded := by
    unfold directCall
    rw [Step.get_bind]
    simp only [h, if_true]
    rfl
  have hrecorded : Step.Along Continues recorded :=
    (continues_recordCall _ _ _ _).bind fun _ => continues_nopAfterCall
  have hfinal :
      Step.final (directCall target info) d = Step.final (call >>= fun _ => recorded) padded := by
    rw [Step.final, Step.final, hrun]
  constructor
  · have hcall := continues_emitCall target padded
    obtain ⟨rest, hrest⟩ :=
      hcall.code.trans (Step.along_final_bind (fun _ => hrecorded) call padded).code
    refine ⟨rest, ?_⟩
    rw [hfinal, ← hrest, CodeBuffer.toList_append, CodeBuffer.toList_append]
  · intro d' hok
    rw [hrun] at hok
    obtain ⟨_, d₁, h₁, hok⟩ := Step.bind_eq_ok.mp hok
    obtain ⟨t, ht, rfl⟩ := emitLinked_eq_ok h₁
    have hlater : Continues _ d' := Step.final_of_ok hok ▸ hrecorded _
    rw [← Array.mem_toList_iff]
    refine hlater.fields.subset ?_
    rw [eq_of_keyed ht, Array.toList_push, CodeBuffer.position_append, length_nops]
    exact List.mem_append_right _ (List.mem_singleton_self _)

end Lower

open Machine

/-- Padding of `n` bytes is `n` bytes of instructions, each of up to eight, that have no effect:
wherever they lie in memory, the machine gets behind them with its instruction pointer and the log
of where it has been alone changed. An alignment is reached with the least of such padding, and the
displacement of an aligned call with up to three bytes of it, also where the call is refused. -/
theorem pads_exactly :
    (∀ n, (∀ b : CodeBuffer, CodeBuffer.emit (nops n) b = .ok () (b.append (nops n)) ∧
        (b.append (nops n)).position = b.position + n) ∧
      ∃ xs, decodeAll (nops n) = some xs ∧ xs.length = (n + 7) / 8 ∧
        (∀ e ∈ xs, e.2.1 = .nop ∧ ∀ next machine, execute e.2.1 next machine = .ok () machine) ∧
        ∀ machine : Machine, machine.Loaded machine.rip (nops n).toArray → ∃ machine',
          machine.Passes machine.rip xs machine' ∧ machine'.rip = machine.rip + BitVec.ofNat 64 n) ∧
    (∀ (d : Draft) (align : Nat), 1 < align → ∃ k,
      emitAlign align d = .ok () { d with buffer := d.buffer.append (nops k) } ∧
        align ∣ d.buffer.position + k ∧ ∀ j, align ∣ d.buffer.position + j → k ≤ j) ∧
    ∀ (d : Draft) (target : CallTarget) (info : Option DebugInfo),
      d.target.options.alignDirectCalls = true →
      ∃ k ≤ 3, 4 ∣ d.buffer.position + k + 1 ∧
        (∃ rest, (Step.final (directCall target info) d).buffer.code.toList =
          d.buffer.code.toList ++ nops k ++ Instr.call.encode.bytes ++ rest) ∧
        ∀ d', directCall target info d = .ok () d' →
          ⟨d.buffer.position + k + 1, .call target⟩ ∈ d'.tables.relocations := by
  refine ⟨fun n => ⟨fun b => ⟨rfl, by rw [CodeBuffer.position_append, length_nops]⟩, ?_⟩,
    fun d align h => ?_, fun d target info h => ?_⟩
  · refine ⟨_, decodeAll_nops n, ?_, fun e he => ?_, fun machine hloaded => ?_⟩
    · rw [length_stream, nopParts, List.length_map, length_nopSizes]
    · have hnop := eq_nop_of_mem_stream he
      exact ⟨hnop, fun _ _ => by rw [hnop]; rfl⟩
    · have hat : BytesAt (nops n).toArray 0 ((nopSizes n).flatMap nop) := by
        have hdrop : (nops n).toArray.toList.drop 0 = nops n ++ [] := by simp
        rw [flatMap_nopSizes]
        exact .of_drop hdrop
      obtain ⟨machine', hpasses, hrip⟩ :=
        exists_passes (fun _ => nopSizes_mem) hloaded hat (BitVec.add_zero _).symm
      rw [flatMap_nopSizes, length_nops, Nat.zero_add] at hrip
      exact ⟨machine', hpasses, hrip⟩
  · obtain ⟨k, hk⟩ : ∃ k, padding d.buffer.position align = nops k := padding_eq_nops _ _
    have hlength : (padding d.buffer.position align).length = k := by rw [hk, length_nops]
    refine ⟨k, hk ▸ rfl, hlength ▸ dvd_add_length_padding h, fun j hj => hlength ▸
      length_padding_le h hj⟩
  · exact ⟨_, callPadding_le _, dvd_add_callPadding _, directCall_aligned target info h⟩

/-- Eleven bytes are two instructions. Behind five bytes of code 19 more lead to a multiple of 24,
and two to an aligned call. -/
theorem pads_exactly_eleven :
    let machine : Machine := { Machine.initial.load 0x10000 (nops 11).toArray with rip := 0x10000 }
    let target : Target := ⟨{ Options.standard with alignDirectCalls := true }, ⟨true, true⟩, 4096⟩
    let buffer : CodeBuffer := ⟨#[0x48, 0x83, 0xEC, 0x08, 0x90], #[], none⟩
    let d : Draft :=
      ⟨target, .empty, buffer, .empty, .empty, #[], Journal.start "padding" none [], "direct_call"⟩
    (machine.Loaded machine.rip (nops 11).toArray ∧
      ∃ xs, decodeAll (nops 11) = some xs ∧ xs.length = 2 ∧
      ∃ machine', machine.Passes machine.rip xs machine' ∧ machine'.rip = 0x1000B) ∧
    (1 < 24 ∧ emitAlign 24 d = .ok () { d with buffer := buffer.append (nops 19) }) ∧
    d.target.options.alignDirectCalls = true ∧
      ∃ d', directCall (.runtime .debug) none d = .ok () d' ∧
      ⟨8, .call (.runtime .debug)⟩ ∈ d'.tables.relocations ∧
        ∃ rest, d'.buffer.code.toList = buffer.code.toList ++ nops 2 ++
          Instr.call.encode.bytes ++ rest := by
  intro machine target buffer d
  obtain ⟨hnops, halign, hcall⟩ := pads_exactly
  have hloaded : machine.Loaded machine.rip (nops 11).toArray :=
    (Machine.initial.loaded_load 0x10000 (by decide)).congr fun _ => rfl
  have hposition : d.buffer.position = 5 := rfl
  refine ⟨⟨hloaded, ?_⟩, ⟨by decide, ?_⟩, rfl, ?_⟩
  · obtain ⟨-, xs, hdecodes, hlength, -, hpasses⟩ := hnops 11
    exact ⟨xs, hdecodes, hlength, hpasses machine hloaded⟩
  · obtain ⟨k, hrun, hdvd, hleast⟩ := halign d 24 (by decide)
    have hle : k ≤ 19 := hleast 19 (by decide)
    obtain rfl : k = 19 := by omega
    exact hrun
  · have hsucceeds : Step.succeeds (fun _ _ => true) (directCall (.runtime .debug) none d) =
      true := by decide +kernel
    obtain ⟨_, d', hrun, -⟩ := Step.exists_of_succeeds hsucceeds
    obtain ⟨k, hle, hdvd, hcode, hfield⟩ := hcall d (.runtime .debug) none rfl
    obtain rfl : k = 2 := by omega
    rw [Step.final_of_ok hrun] at hcode
    exact ⟨d', hrun, hfield d' hrun, hcode⟩

end MachineCode
