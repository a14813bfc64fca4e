import MachineCode.Lowering.Branches
import MachineCode.Proofs.Execution.Moving
import MachineCode.Proofs.References.Operations

/-! Jumps through a table. The code takes the address of the table, adds the entry that an offset
selects, and goes there: an entry holds how far its label is from the table. -/
namespace MachineCode

open X64 Lower Machine Chunk Piece

/-! ### Tables -/

namespace Site

variable {S : Site}

/-- A field of four bytes as the machine reads it, with its sign. -/
theorem signExtend_loaded {c : Machine} {p : Nat} {v : Int} (h : S.Loads c)
    (hv : MachineCode.Holds S.image p 4 v) :
    signExtend (c.loaded (S.addressOf p) 4) .dword = BitVec.ofInt 64 v := by
  obtain ⟨hle, hv⟩ := hv
  let bytes := (S.image.toList.drop p).take 4
  have hlen : bytes.length = 4 := by simp [bytes]; omega
  have hat : BytesAt S.image p bytes := .of_drop (List.take_append_drop 4 _).symm
  have hread : c.memory.readWord (S.addressOf p) 4 = ofLeBytes bytes := hlen ▸ readWord_image h hat
  have hword : (BitVec.ofNat 32 (ofLeBytes bytes)).toInt = v := by
    rw [BitVec.toInt_ofNat']
    exact hv
  rw [loaded, hread, signExtend, BitVec.setWidth_ofNat_of_le Width.dword.bits_le, BitVec.signExtend]
  exact congrArg (BitVec.ofInt 64) hword

variable {pre post : List Chunk} {final : Draft} {t : JumpTable} {targets : List Label}

/-- A table is recorded with its place. -/
theorem Hosts.table (h : S.Hosts (pre ++ .table t targets :: post) final) :
    t ∈ final.tables.jumpTables ∧ t.position = extent pre := by
  obtain ⟨m, hm, -, -⟩ := h
  refine ⟨?_, (hm.sound.valid _ (mem_placed pre (.table t targets) post)).1⟩
  rw [← Array.mem_toList_iff, hm.sound.noted.jumpTables]
  simp [table?]

/-- An entry of a table holds how far its label is from the table. -/
theorem Hosts.entry {i : Nat} {l : Label} (h : S.Hosts (pre ++ .table t targets :: post) final)
    (hl : targets[i]? = some l) :
    ∃ p, final.buffer.labelOffset l = some p ∧
      MachineCode.Holds S.image (t.position + tableEntrySize * i) tableEntrySize
        (p - t.position) := by
  have hposition : t.position = extent pre := h.table.2
  obtain ⟨m, hm, -, -⟩ := h
  have hc : (t.position, Chunk.table t targets) ∈ placed 0 (pre ++ .table t targets :: post) :=
    hposition ▸ mem_placed pre _ post
  obtain ⟨hi, rfl⟩ := List.getElem?_eq_some_iff.mp hl
  let entry (l : Label) : Piece := .ref l (.table t.position)
  let s : ReferenceSite := ⟨t.position + 4 * i, .table t.position⟩
  have hsplit : (Chunk.table t targets).pieces =
      (targets.take i).map entry ++ entry targets[i] :: (targets.drop (i + 1)).map entry := by
    rw [← List.map_cons, ← List.map_append, List.getElem_cons_drop, List.take_append_drop]
    rfl
  have htotal : total ((targets.take i).map entry) = 4 * i :=
    (size_table t (targets.take i)).trans
      (congrArg (4 * ·) (List.length_take_of_le (Nat.le_of_lt hi)))
  have hs : s ∈ sites targets[i] t.position (Chunk.table t targets).pieces := by
    rw [hsplit, sites_append, htotal]
    exact List.mem_append_right _ (by simp [entry, sites, s])
  obtain ⟨p, bs, hp, hbs⟩ := hm.resolved hc _ s hs
  have hat := hm.bytesAt_plain hm.filled hc rfl
  -- The bytes of the entry stand between those of the entries in front and behind.
  rw [hsplit, render_append, htotal, render, BytesAt.append_iff, BytesAt.append_iff,
    length_render, htotal] at hat
  have hfield : fieldBytes s (final.buffer.labelOffset targets[i]) = bs := by
    simp [fieldBytes, hp, hbs]
  have hentry : BytesAt S.image s.offset bs := hfield ▸ hat.2.1
  obtain ⟨tail, hdrop⟩ := hentry.drop
  exact ⟨p, hp, holds_of_field hbs hdrop⟩

end Site

/-- Nothing has changed but the index register and the scratch register. -/
abbrev Machine.KeepsBut (index : Gpr) : Assertion :=
  Keeps (fun g => g = index ∨ g = scratch) (fun _ => False) (fun _ => False)

/-- A table of the distances to these labels ends the code, and is recorded. -/
def EndsTable (S : Site) (low high : Int32) (targets : List Label) (cs : List Chunk)
    (final : Draft) : Prop :=
  ∃ t ∈ final.tables.jumpTables, t.low = low ∧ t.high = high ∧ t.entrySize = tableEntrySize ∧
    tableEntrySize ∣ t.position ∧
    t.position + tableEntrySize * targets.length = extent cs ∧ ∀ i l, targets[i]? = some l →
      ∃ p, final.buffer.labelOffset l = some p ∧
      Holds S.image (t.position + tableEntrySize * i) tableEntrySize (p - t.position)

section Jumps

variable {S : Site} {P Q : Assertion} {L : Label → Assertion} {pre post : List Chunk}
  {final : Draft} {t : JumpTable}
  {targets : List Label} {g : Gpr}

theorem endsTable (h : S.Hosts (pre ++ .table t targets :: post) final)
    (hsize : t.entrySize = tableEntrySize) (halign : tableEntrySize ∣ t.position) :
    EndsTable S t.low t.high targets (pre ++ [.table t targets]) final := by
  obtain ⟨hmem, hposition⟩ := h.table
  refine ⟨t, hmem, rfl, rfl, hsize, halign, ?_, fun i l => h.entry⟩
  rw [hposition, extent_append, extent_cons, size_table]
  rfl

/-- A jump through a register goes to where the register points. -/
theorem Site.Hosts.step_jmpReg {A : Machine → Prop} {machine : Machine}
    (h : S.Hosts (pre ++ .instr (.jmpReg g) none :: post) final)
    (hat : S.Stands (extent pre) A machine) : ∃ machine', Machine.step machine = .ok () machine' ∧
      machine'.core = machine.core ∧ machine'.rip = machine.reg g :=
  ⟨_, h.step_plain hat, rfl, low_qword _⟩

theorem leads_jmpReg (hhosts : S.Hosts (pre ++ .instr (.jmpReg g) none :: post) final)
    (h : ∀ s c, P s c → ∃ l p, final.buffer.labelOffset l = some p ∧
      c.reg g = S.addressOf p ∧ L l s c) :
    S.Leads P Q L pre [.instr (.jmpReg g) none] final := by
  intro s machine hat
  obtain ⟨machine', hstep, hcore, hrip⟩ := hhosts.step_jmpReg hat
  obtain ⟨l, p, hl, hg, hL⟩ := h s _ hat.core
  have hinside : S.Span (extent pre) (extent (pre ++ [.instr (.jmpReg g) none])) machine.rip := by
    refine ⟨extent pre, Nat.le_refl _, ?_, hat.rip⟩
    simpa using Instr.length_pos (Instr.encodable_of_none (i := .jmpReg g) rfl)
  have hthere : S.Stands p (L l s) machine' :=
    Site.Stands.moved ⟨hat.loaded, hat.rip, hL⟩ hcore (hrip.trans hg)
  exact ⟨machine', .step hinside hstep (.refl _), .inr ⟨l, p, hl, hthere⟩⟩

/-- The address of a place in the code that is at a distance from the end of the instruction. -/
theorem leads_address {distance : Int32} {place : Nat}
    (hdistance : distance.toInt =
      place - (extent pre + (Instr.lea true g (.rip distance)).encode.length : Nat))
    (hhosts : S.Hosts (pre ++ .instr (.lea true g (.rip distance)) none :: post) final) :
    S.Leads P (fun s c' => ∃ c, P s c ∧ c' = c.setReg g (S.addressOf place)) L pre
      [.instr (.lea true g (.rip distance)) none] final := by
  refine leads_instr (Instr.encodable_of_some rfl (encodable_rip _)) fun s machine hat =>
    ⟨_, _, hhosts.step_plain hat, ?_⟩
  let next := S.addressOf (extent pre + (Instr.lea true g (.rip distance)).encode.length)
  have haddress : machine.core.effectiveAddress (.rip distance) next = S.addressOf place :=
    effectiveAddress_rip hdistance _
  have hlea : Executes (.lea .qword g (.rip distance)) next machine.core fun c =>
      c = machine.core.setReg g (S.addressOf place) :=
    haddress ▸ executes_lea
  exact (hlea.loads hat.loaded fun _ _ h => by rw [h]; rfl).mono fun _ c hc =>
    ⟨hc.1, _, hat.core, hc.2⟩

end Jumps

namespace Lower

/-! ### Where the table stands -/

theorem length_padding_lt {position align : Nat} (h : 1 < align) :
    (padding position align).length < align := by
  rw [padding, if_pos h, length_nops]
  exact Nat.mod_lt _ (Nat.lt_of_succ_lt h)

theorem add_tableDistance (stop : Nat) (jump : List Instr) :
    let behind := stop + codeSize jump
    stop + tableDistance stop jump = behind + (padding behind tableEntrySize).length := by
  simp only [tableDistance]
  omega

/-- The distance fits its field. -/
theorem toInt_tableDistance (stop : Nat) (index : Gpr) :
    (Int32.ofInt (tableDistance stop (tableJump index))).toInt =
      tableDistance stop (tableJump index) := by
  have hsum : codeSize (tableJump index) ≤ 45 := by
    have hload := Instr.length_encode_le (tableLoad index)
    have hadd := Instr.length_encode_le (.alu .add true scratch (.reg index))
    have hjmp := Instr.length_encode_le (.jmpReg scratch)
    simp only [codeSize, tableJump, List.foldr_cons, List.foldr_nil]
    omega
  have hpadding :
      (padding (stop + codeSize (tableJump index)) tableEntrySize).length < tableEntrySize :=
    length_padding_lt (by decide)
  have hplace := add_tableDistance stop (tableJump index)
  have hsize : tableEntrySize = 4 := rfl
  exact Int32.toInt_ofInt_of_le (by omega) (by omega)

/-! ### The code in front of the table, with the table -/

/-- The code of a switch behind the check of the offset. -/
def dispatch (index : Gpr) (low high : Int32) (targets : List Label) : Lower Unit := do
  let stop := (← position) + (Instr.lea true scratch (.rip 0)).encode.length
  emitLeaRelative scratch (tableDistance stop (tableJump index))
  emit (tableLoad index)
  emit (.alu .add true scratch (.reg index))
  (Action.table low high targets).perform

/-- What it is up to the table, with padding. -/
def dispatchCode (index : Gpr) (distance : Int32) (ns : List Nat) : List Chunk :=
  [.instr (.lea true scratch (.rip distance)) none, .instr (tableLoad index) none,
    .instr (.alu .add true scratch (.reg index)) none, .instr (.jmpReg scratch) none] ++ ns.map .nop

variable {S : Site} {C : Context} {index : Gpr} {low high : Int32} {targets : List Label}

theorem lays_dispatchCode (hindex : index ≠ .rsp)
    (hcount : high.toInt - low.toInt + 1 = targets.length) :
    Lays S C (dispatch index low high targets) fun _ pre new _ =>
      ∃ distance ns t, new = dispatchCode index distance ns ++ [.table t targets] ∧
      t.low = low ∧ t.high = high ∧ t.entrySize = tableEntrySize ∧ tableEntrySize ∣ t.position ∧
      distance.toInt = t.position -
        (extent pre + (Instr.lea true scratch (.rip distance)).encode.length : Nat) := by
  have hload : (tableLoad index).Encodable :=
    Instr.encodable_of_some rfl (encodable_indexed hindex)
  refine ((lays_position (S := S) (C := C)).bind fun p =>
    (lays_emit (Instr.encodable_of_some rfl (encodable_rip _))).bind fun _ =>
    (lays_emit hload).bind fun _ => (lays_emit (Instr.encodable_of_none rfl)).bind fun _ =>
      lays_table hcount).mono ?_
  rintro _ pre new post final - ⟨_, _, _, rfl, ⟨rfl, rfl⟩, _, _, _, rfl, rfl, _, _, _, rfl, rfl, _,
    _, _, rfl, rfl, ns, behind, hbehind, rfl⟩
  let stop := extent pre + (Instr.lea true scratch (.rip 0)).encode.length
  have hstop : behind = stop + codeSize (tableJump index) := by
    simp only [hbehind, stop, codeSize, tableJump, List.append_nil, extent_append, extent_cons,
      extent_nil, size_instr, List.foldr_cons, List.foldr_nil]
    -- The instruction is as long with any other distance.
    have hlea : ∀ distance, (Instr.lea true scratch (.rip distance)).encode.length =
      (Instr.lea true scratch (.rip 0)).encode.length := fun _ => rfl
    rw [hlea]
    omega
  have hplace : stop + tableDistance stop (tableJump index) =
      behind + (padding behind tableEntrySize).length :=
    hstop ▸ add_tableDistance stop (tableJump index)
  refine ⟨_, ns, _, rfl, rfl, rfl, rfl, dvd_add_length_padding (by decide), ?_⟩
  rw [toInt_tableDistance]
  change (tableDistance stop (tableJump index) : Int) =
    (behind + (padding behind tableEntrySize).length : Nat) - (stop : Int)
  omega

/-! ### The jump -/

/-- How far the low half of the index is beyond the least number, modulo `2 ^ 32`. -/
def switchOffset (index : Gpr) (low : Int32) (s : Machine) : BitVec 32 :=
  (s.reg index).setWidth 32 - low.toBitVec

/-- The index register holds the offset. -/
structure Biased (S : Site) (index : Gpr) (low : Int32) (s c : Machine) : Prop where
  readable : S.Readable c
  value : c.reg index = (switchOffset index low s).setWidth 64
  keeps : s.KeepsBut index c

/-- Control goes to the label that the offset selects. -/
def SwitchesTo (index : Gpr) (low : Int32) (targets : List Label)
    (default l : Label) : Assertion := fun s c =>
  l = targets[(switchOffset index low s).toNat]?.getD default ∧ s.KeepsBut index c

/-- The offset selects the label at `p`, of which `f` speaks. -/
def Selected (index : Gpr) (low : Int32) (targets : List Label) (final : Draft)
    (f : Nat → Machine → Prop) : Assertion := fun s c =>
  ∃ l p, targets[(switchOffset index low s).toNat]? = some l ∧ final.buffer.labelOffset l = some p ∧
    f p c ∧ s.KeepsBut index c

/-- The entry that the index selects, with its sign. -/
theorem executes_loadEntry {table k : Nat} {v : Int} {c : Machine} {next : Word}
    (hloads : S.Loads c) (hreadable : S.Readable c) (hscratch : c.reg scratch = S.addressOf table)
    (hindex : c.reg index = BitVec.ofNat 64 k) (hentry : Holds S.image (table + 4 * k) 4 v) :
    Executes (tableLoad index).decoded next c fun c' =>
      c' = c.setReg index (BitVec.ofInt 64 v) := by
  have haddress : c.effectiveAddress (.indexed scratch index Scale.times4.log2 0) next =
      S.addressOf (table + 4 * k) := by
    have hscaled : (BitVec.ofNat 64 k) <<< 2 = BitVec.ofNat 64 (4 * k) := by
      rw [BitVec.shiftLeft_eq_mul_twoPow, Nat.mul_comm, BitVec.ofNat_mul]
      rfl
    simp only [effectiveAddress, Mem.indexed, hscratch, hindex]
    rw [← Site.addressOf_add, ← hscaled]
    exact congrArg (· + _) (BitVec.zero_add _)
  have hfaults : c.faultsAt (S.addressOf (table + 4 * k)) Width.dword.bytes = false :=
    hreadable _ _ hentry.1
  refine (executes_movsx (readsRm_mem haddress hfaults)).mono fun _ c' hc => ?_
  rw [hc, merge_qword]
  exact congrArg _ (Site.signExtend_loaded hloads hentry)

theorem executes_addScratch {s : Machine} {next : Word} :
    Executes (Instr.alu .add true scratch (.reg index)).decoded next s
    fun c => ∃ flags, c = { s with flags := flags }.setReg scratch
      (s.reg scratch + s.reg index) := by
  refine (executes_alu (by decide) (readsRm_reg index .qword).source).mono fun _ c hc => ?_
  obtain ⟨flags, rfl⟩ := hc
  refine ⟨flags, congrArg _ ?_⟩
  rw [low_qword, low_qword, merge_qword]
  simp only [aluAt, Flags.alu, Flags.add]
  exact (BitVec.setWidth_eq _).trans
    ((BitVec.add_zero _).trans (congrArg₂ _ (BitVec.setWidth_eq _) (BitVec.setWidth_eq _)))

variable {pre post : List Chunk} {final : Draft} {distance : Int32} {ns : List Nat}
  {t : JumpTable} {default : Label}
  {Q : Assertion} {L : Label → Assertion}

/-- The entry of the label is loaded. -/
theorem leads_loadEntry {pre' post' : List Chunk} (hscratch : index ≠ scratch) (hrsp : index ≠ .rsp)
    (htable : S.Hosts (pre' ++ .table t targets :: post') final)
    (hhosts : S.Hosts (pre ++ .instr (tableLoad index) none :: post) final) :
    S.Leads (fun s c' =>
      ∃ c, (Biased S index low s c ∧ (switchOffset index low s).toNat < targets.length) ∧
        c' = c.setReg scratch (S.addressOf t.position))
      (Selected index low targets final fun p c =>
        c.reg scratch = S.addressOf t.position ∧ c.reg index = BitVec.ofInt 64 (p - t.position))
      L pre [.instr (tableLoad index) none] final := by
  refine leads_plain (Instr.encodable_of_some rfl (encodable_indexed hrsp)) hhosts ?_
  rintro s _ next hloads ⟨c, ⟨hbiased, hlt⟩, rfl⟩
  obtain ⟨p, hp, hentry⟩ := htable.entry (List.getElem?_eq_getElem hlt)
  have hkeeps : c.KeepsBut index (c.setReg scratch (S.addressOf t.position)) :=
    keeps_setReg (.inr rfl) _
  have hindex : (c.setReg scratch (S.addressOf t.position)).reg index =
      BitVec.ofNat 64 (switchOffset index low s).toNat := by
    rw [reg_setReg_of_ne hscratch.symm, hbiased.value, BitVec.ofNat_toNat]
  have hload : Executes _ next _ _ :=
    executes_loadEntry hloads (hbiased.readable.keeps hkeeps) (reg_setReg_self _ _ _) hindex hentry
  refine (hload.loads hloads fun _ _ h => by rw [h]; rfl).mono fun _ c' hc => ⟨hc.1, ?_⟩
  obtain rfl := hc.2
  refine ⟨_, p, List.getElem?_eq_getElem hlt, hp, ⟨?_, reg_setReg_self _ _ _⟩,
    (hbiased.keeps.trans hkeeps).trans (keeps_setReg (.inl rfl) _)⟩
  rw [reg_setReg_of_ne hscratch, reg_setReg_self]

/-- The sum of table and entry is where the label is. -/
theorem leads_addEntry
    (hhosts : S.Hosts (pre ++ .instr (.alu .add true scratch (.reg index)) none :: post) final) :
    S.Leads (Selected index low targets final fun p c =>
        c.reg scratch = S.addressOf t.position ∧ c.reg index = BitVec.ofInt 64 (p - t.position))
      (Selected index low targets final fun p c => c.reg scratch = S.addressOf p)
      L pre [.instr (.alu .add true scratch (.reg index)) none] final := by
  refine leads_plain (Instr.encodable_of_none rfl) hhosts ?_
  rintro s c next hloads ⟨l, p, hl, hp, ⟨hbase, hvalue⟩, hkeeps⟩
  refine (executes_addScratch.loads hloads fun _ _ ⟨_, h⟩ => by rw [h]; rfl).mono
    fun _ c' hc => ⟨hc.1, ?_⟩
  obtain ⟨flags, rfl⟩ := hc.2
  have hsum : c.reg scratch + c.reg index = S.addressOf p := by
    rw [hbase, hvalue]
    exact Region.jump_address S.base (p := t.position) (n := 0) rfl
  exact ⟨l, p, hl, hp, (reg_setReg_self _ _ _).trans hsum,
    hkeeps.trans ((keeps_flags flags).trans (keeps_setReg (.inr rfl) _))⟩

/-- From an offset in the table control goes to the label that it selects. -/
theorem leads_dispatchCode (hscratch : index ≠ scratch) (hrsp : index ≠ .rsp)
    (hdistance : distance.toInt =
      t.position - (extent pre + (Instr.lea true scratch (.rip distance)).encode.length : Nat))
    (hhosts : S.Hosts
      (pre ++ (dispatchCode index distance ns ++ [.table t targets] ++ post)) final) :
    S.Leads (fun s c => Biased S index low s c ∧
      (switchOffset index low s).toNat < targets.length) Q
      (SwitchesTo index low targets default) pre
        (dispatchCode index distance ns ++ [.table t targets]) final := by
  let lea : Chunk := .instr (.lea true scratch (.rip distance)) none
  let load : Chunk := .instr (tableLoad index) none
  let add : Chunk := .instr (.alu .add true scratch (.reg index)) none
  let jump : Chunk := .instr (.jmpReg scratch) none
  have hload :
      S.Hosts ((pre ++ [lea]) ++ load ::
        (add :: jump :: (ns.map .nop ++ .table t targets :: post))) final := by
    simpa [dispatchCode] using hhosts
  have hadd :
      S.Hosts ((pre ++ [lea] ++ [load]) ++ add ::
        (jump :: (ns.map .nop ++ .table t targets :: post))) final := by
    simpa [dispatchCode] using hhosts
  have hjump :
      S.Hosts ((pre ++ [lea] ++ [load] ++ [add]) ++ jump ::
        (ns.map .nop ++ .table t targets :: post)) final := by
    simpa [dispatchCode] using hhosts
  have htable :
      S.Hosts ((pre ++ [lea, load, add, jump] ++ ns.map .nop) ++
        .table t targets :: post) final := by
    simpa [dispatchCode] using hhosts
  -- The jump does not lead to its end, so nothing is to be shown of the padding and of the table as
  -- code.
  refine (leads_address hdistance hhosts).append
    ((leads_loadEntry hscratch hrsp htable hload).append
    ((leads_addEntry hadd).append
      (Site.Leads.append (leads_jmpReg hjump ?_) (Site.leads_unreached _ _ final))))
  rintro s c ⟨l, p, hl, hp, hreg, hkeeps⟩
  exact ⟨l, p, hp, hreg, by rw [hl, Option.getD_some], hkeeps⟩

theorem lays_dispatch (hscratch : index ≠ scratch) (hrsp : index ≠ .rsp)
    (hcount : high.toInt - low.toInt + 1 = targets.length) :
    Lays S C (dispatch index low high targets) fun _ pre new final =>
      S.Leads (fun s c => Biased S index low s c ∧
        (switchOffset index low s).toNat < targets.length) Q
        (SwitchesTo index low targets default) pre new final ∧
        EndsTable S low high targets (pre ++ new) final :=
  (lays_dispatchCode hrsp hcount).mono fun _ pre new post final hhosts h => by
    obtain ⟨distance, ns, t, rfl, rfl, rfl, hsize, halign, hdistance⟩ := h
    have htable : S.Hosts ((pre ++ dispatchCode index distance ns) ++ .table t targets :: post)
      final := by simpa using hhosts
    exact ⟨leads_dispatchCode hscratch hrsp hdistance hhosts, List.append_assoc .. ▸
      endsTable htable hsize halign⟩

end Lower

end MachineCode
