import MachineCode.Proofs.Emission.Actions
import MachineCode.Proofs.Execution.Fetch

/-! Regions of installed code that control does not leave before it gets to the end. What a region
allows is bounded by an effect, and a run through it changes nothing else. -/
namespace MachineCode

open X64 Chunk

/-! ### Addresses -/

namespace Machine

variable {machine machine' : Machine} {m : Mem}

/-- An address depends on the registers that it is computed from. -/
theorem effectiveAddress_congr {next : Word}
    (h : ∀ g, m.uses g = true → machine'.reg g = machine.reg g) :
    machine'.effectiveAddress m next = machine.effectiveAddress m next := by
  obtain ⟨base, index, disp⟩ := m
  have hbase : ∀ g, base = .reg g → machine'.reg g = machine.reg g := by
    rintro g rfl
    exact h g (by simp [Mem.uses])
  have hindex : ∀ i, index = some i → machine'.reg i.reg = machine.reg i.reg := by
    rintro i rfl
    exact h i.reg (by simp [Mem.uses])
  unfold effectiveAddress
  cases base with
  | none | rip =>
    cases index with
    | none => rfl
    | some i => simp only [hindex i rfl]
  | reg g =>
    cases index with
    | none => simp only [hbase g rfl]
    | some i => simp only [hbase g rfl, hindex i rfl]

/-- Unless it counts from the end of the instruction, an address is the same for all
instructions. -/
theorem effectiveAddress_next (h : m.isRip = false) (next next' : Word) :
    machine.effectiveAddress m next = machine.effectiveAddress m next' := by
  obtain ⟨base, index, disp⟩ := m
  cases base with
  | none | reg g => rfl
  | rip => simp [Mem.isRip] at h

end Machine

/-! ### Effects on the machine -/

/-- Of the machine, nothing has changed but what the effect allows. -/
structure Effect.Allows (e : Effect) (machine machine' : Machine) : Prop where
  gprs : ∀ g, ¬ e.gprs g → machine'.reg g = machine.reg g
  xmms : ∀ x, ¬ e.xmms x → machine'.xmmReg x = machine.xmmReg x
  memory : ∀ a, (∀ l n, e.stores l n → n ≤ (a - machine.effectiveAddress l.mem 0).toNat) →
    machine'.memory.get a = machine.memory.get a

/-- Control goes on at the end, and stores are to places whose addresses do not change on the
way. -/
structure Effect.Steady (e : Effect) : Prop where
  stays : ¬ e.leaves
  raws : ¬ e.raws
  plain : ∀ l n, e.stores l n → l.data = none ∧ l.mem.isRip = false
  fixed : ∀ l n, e.stores l n → ∀ g, l.mem.uses g = true → ¬ e.gprs g

namespace Effect.Allows

variable {e : Effect} {machine machine' machine'' : Machine}

theorem refl (e : Effect) (machine : Machine) : e.Allows machine machine :=
  ⟨fun _ _ => rfl, fun _ _ => rfl, fun _ _ => rfl⟩

theorem address (h : e.Allows machine machine') (he : e.Steady) {l : Location} {n : Nat}
    (hl : e.stores l n) (next : Word) :
    machine'.effectiveAddress l.mem next = machine.effectiveAddress l.mem 0 := by
  rw [Machine.effectiveAddress_next (he.plain l n hl).2 next 0]
  exact Machine.effectiveAddress_congr fun g hg => h.gprs g (he.fixed l n hl g hg)

theorem trans (h : e.Allows machine machine') (h' : e.Allows machine' machine'') (he : e.Steady) :
    e.Allows machine machine'' where
  gprs g hg := (h'.gprs g hg).trans (h.gprs g hg)
  xmms x hx := (h'.xmms x hx).trans (h.xmms x hx)
  memory a ha := by
    refine (h'.memory a fun l n hl => ?_).trans (h.memory a ha)
    rw [h.address he hl]
    exact ha l n hl

end Effect.Allows

/-! ### Instructions -/

/-- Another memory operand changes where an instruction stores, and nothing else. -/
theorem X64.Instr.footprint_withMem {i : Instr} {m : Mem} (hi : i.mem? = some m) (m' : Mem) :
    (i.withMem m').footprint = { i.footprint with
      store? := i.footprint.store?.map fun x => (m', x.2) } := by
  cases i with
  | alu op _ _ x =>
    cases x with
    | reg r => cases hi
    | mem m =>
      simp only [withMem, footprint_alu]
      split <;> rfl
  | aluStore op | aluImm op _ x =>
    first
      | (cases x with
        | reg r => cases hi
        | mem m =>
          simp only [withMem, footprint, decoded, Decoded.footprint]
          split <;> rfl)
      | (simp only [withMem, footprint, decoded, Decoded.footprint]
         split <;> rfl)
  | extend ext _ x =>
    cases x with
    | reg r => cases hi
    | mem m =>
      simp only [withMem, footprint_extend]
      rfl
  | test _ x =>
    cases x with
    | reg r => cases hi
    | mem m => rfl
  | imul _ _ x | cmov _ _ _ x | sse _ _ _ x | ucomis _ _ x | packed _ _ _ x =>
    cases x with
    | reg r => cases hi
    | mem m => rfl
  | load | store | storeByte | storeWord | storeImm | lea | movsLoad | movsStore | cmpxchg => rfl
  | _ => cases hi

/-- The instruction in the image overwrites what the effect allows to the chunk. -/
theorem Chunk.Reads.admits {m : Method} {r : Resolver} {env : Label → Option Nat} {p : Nat}
    {c : Chunk} {j : Decoded} {e : Effect} (h : c.Reads m r env p j) (he : e.Steady)
    (hc : c.Within e) (hbranch : ∀ short cond l, c ≠ .branch short cond l) :
    e.Admits j.footprint .plain ∧ (j.footprint.store? ≠ none →
      ∃ i link, c = .instr i link ∧ i.footprint.store? ≠ none) := by
  cases h with
  | plain i => exact ⟨hc, fun hstore => ⟨i, none, rfl, hstore⟩⟩
  | @object dst v o a ha =>
    have hdst : e.gprs dst := hc.gprs dst (List.mem_singleton_self dst)
    exact ⟨e.admits_gpr hdst, fun hstore => absurd rfl hstore⟩
  | call target disp => exact absurd (hc.leaves rfl) he.stays
  | @data i offset disp hi hdisp =>
    have hfoot := Instr.footprint_withMem hi (.rip disp)
    -- A place in the data section is not stored to.
    have hnone : i.footprint.store? = none := by
      cases hstore : i.footprint.store? with
      | none => rfl
      | some x => cases (he.plain _ _ (hc.stores x.1 x.2 hstore)).1
    rw [hnone] at hfoot
    change e.Admits (i.withMem (.rip disp)).footprint .plain ∧
      ((i.withMem (.rip disp)).footprint.store? ≠ none → _)
    rw [hfoot]
    exact ⟨⟨hc.gprs, hc.xmms, nofun, hc.leaves⟩, fun hstore => absurd rfl hstore⟩
  | nop n => exact ⟨e.admits_nothing, fun hstore => absurd rfl hstore⟩
  | branch htarget hdisp => exact absurd rfl (hbranch _ _ _)

/-- An instruction changes what the effect allows. -/
theorem Machine.Changes.allows {e : Effect} {f : Footprint} {next : Word}
    {machine machine' : Machine} (h : Changes f next machine machine') (he : e.Steady)
    (hf : e.Admits f .plain) :
    e.Allows machine machine' where
  gprs g hg := h.gprs g fun hmem => hg (hf.gprs g hmem)
  xmms x hx := h.xmms x fun hmem => hx (hf.xmms x hmem)
  memory a ha := by
    refine h.memory a fun m n hstore => ?_
    have hl := hf.stores m n hstore
    have hrip : m.isRip = false := (he.plain _ n hl).2
    rw [effectiveAddress_next hrip next 0]
    exact ha (.plain m) n hl

/-- An instruction that stores nothing leaves memory as it is. -/
theorem Machine.Changes.memory_eq {f : Footprint} {next : Word} {machine machine' : Machine}
    (h : Changes f next machine machine') (hf : f.store? = none) (a : Word) :
    machine'.memory.get a = machine.memory.get a :=
  h.memory a fun m n hstore => by cases hf.symm.trans hstore

/-- A jump changes the instruction pointer at most. -/
theorem Machine.execute_jump {cond : Option Cond} {disp : Int32} {next : Word}
    {machine machine' : Machine} (h : execute (jump cond disp) next machine = .ok () machine') :
    machine' = { machine with rip := next + BitVec.ofInt 64 disp.toInt } ∨
      cond.isSome ∧ machine' = machine := by
  cases cond with
  | none =>
    cases h
    exact .inl rfl
  | some cond =>
    have hrun : execute (jump (some cond) disp) next machine =
        (if machine.flags.cond cond then setRip (next + BitVec.ofInt 64 disp.toInt)
          else pure ()) machine :=
      rfl
    rw [hrun] at h
    split at h <;> cases h
    · exact .inl rfl
    · exact .inr ⟨rfl, rfl⟩

/-! ### Regions -/

/-- An offset at which control may be: the end of a region, or the start of one of its chunks. -/
def Inside (region : Nat × Chunk → Prop) (stop a : Nat) : Prop := a = stop ∨ ∃ c, region (a, c)

/-- Control that is in these chunks stays there until it gets to `stop`. They do what the effect
allows, and store at the end. -/
structure Region (e : Effect) (cs : List Chunk) (env : Label → Option Nat)
    (region : Nat × Chunk → Prop) (stop : Nat) : Prop where
  placed : ∀ x, region x → x ∈ Chunk.placed 0 cs
  within : ∀ x, region x → x.2.Within e
  next : ∀ x, region x → (∀ short l, x.2 ≠ .branch short none l) →
    Inside region stop (x.1 + x.2.size)
  target : ∀ x, region x → ∀ short cond l a, x.2 = .branch short cond l → env l = some a →
    Inside region stop a
  last : ∀ x, region x → ∀ i link, x.2 = .instr i link → i.footprint.store? ≠ none →
    x.1 + x.2.size = stop

namespace Region

variable {e : Effect} {cs : List Chunk} {m : Method} {d : Draft} {base : Word} {r : Resolver}
  {image : Array UInt8} {region : Nat × Chunk → Prop} {stop a : Nat} {machine machine' : Machine}

theorem shift_address (base : Word) (p n : Nat) :
    base + BitVec.ofNat 64 p + BitVec.ofNat 64 n = base + BitVec.ofNat 64 (p + n) := by
  rw [BitVec.add_assoc, ← BitVec.ofNat_add]

theorem jump_address (base : Word) {p n target : Nat} {v : Int} (hv : v = target - (p + n : Nat)) :
    base + BitVec.ofNat 64 (p + n) + BitVec.ofInt 64 v = base + BitVec.ofNat 64 target := by
  have hsum : (target : Int) = (p + n : Nat) + v := by omega
  rw [← BitVec.ofInt_natCast 64 target, hsum, BitVec.ofInt_add,
    BitVec.ofInt_natCast, BitVec.add_assoc]

/-- A step from a chunk leads to another one or to the end. Memory is the same unless it is the
end. -/
theorem step (h : Region e cs d.buffer.labelOffset region stop) (he : e.Steady)
    (hi : Installed cs m d base r image) (hloaded : machine.Loaded base image) {x : Nat × Chunk}
    (hx : region x) (hrip : machine.rip = base + BitVec.ofNat 64 x.1)
    (hstep : Machine.step machine = .ok () machine') :
    e.Allows machine machine' ∧ ∃ a, Inside region stop a ∧
    machine'.rip = base + BitVec.ofNat 64 a ∧
      (a = stop ∨ ∀ b, machine'.memory.get b = machine.memory.get b) := by
  obtain ⟨p, c⟩ := x
  have hwithin := h.within _ hx
  have htable : c.isTable = false := by
    cases c with
    | table t targets => exact absurd hwithin.1 he.stays
    | _ => rfl
  have hraw : c.isRaw = false := by
    cases c with
    | raw bytes => exact absurd hwithin he.raws
    | _ => rfl
  obtain ⟨j, hreads, hfetch⟩ := hi.fetch (hloaded.part _ _) (h.placed _ hx) htable hraw
  rw [← hrip] at hfetch
  rw [Machine.step_of_fetch hfetch] at hstep
  have hnext : machine.rip + BitVec.ofNat 64 c.size = base + BitVec.ofNat 64 (p + c.size) := by
    rw [hrip, shift_address]
  by_cases hbranch : ∃ short cond l, c = .branch short cond l
  · obtain ⟨short, cond, l, rfl⟩ := hbranch
    cases hreads with
    | @branch _ _ _ target disp htarget hdisp =>
      obtain rfl | ⟨hcond, rfl⟩ := Machine.execute_jump hstep
      · refine ⟨⟨fun _ _ => rfl, fun _ _ => rfl, fun _ _ => rfl⟩, target,
          h.target _ hx short cond l target rfl htarget, ?_, .inr fun _ => rfl⟩
        exact (congrArg (· + _) hnext).trans (jump_address base hdisp)
      · refine ⟨⟨fun _ _ => rfl, fun _ _ => rfl, fun _ _ => rfl⟩, _, h.next _ hx ?_, hnext,
          .inr fun _ => rfl⟩
        rintro short' l' ⟨⟩
        cases hcond
  · have hne : ∀ short cond l, c ≠ .branch short cond l := fun short cond l hc =>
      hbranch ⟨short, cond, l, hc⟩
    obtain ⟨hadmits, hstores⟩ := hreads.admits he hwithin hne
    have hleaves : j.footprint.leaves = false :=
      Bool.eq_false_iff.mpr fun hleaves => he.stays (hadmits.leaves hleaves)
    have hwrites := @Machine.writes_execute (machine.rip + BitVec.ofNat 64 c.size) j hleaves
      (machine.fetched j c.size)
    rw [Machine.ending_of_ok hstep] at hwrites
    have hallows := hwrites.allows he hadmits
    refine ⟨⟨hallows.gprs, hallows.xmms, hallows.memory⟩, p + c.size,
      h.next _ hx fun short l => hne short none l, hwrites.rip.trans hnext, ?_⟩
    by_cases hstore : j.footprint.store? = none
    · exact .inr (hwrites.memory_eq hstore)
    · obtain ⟨i, link, hc, hi⟩ := hstores hstore
      exact .inl (h.last _ hx i link hc hi)

end Region

/-! ### Runs -/

/-- The machine runs without a fault until control gets to `stop` for the first time. -/
inductive Machine.RunsTo (stop : Word) : Machine → Machine → Prop
  | done {machine : Machine} (h : machine.rip = stop) : RunsTo stop machine machine
  | next {machine machine' machine'' : Machine} (h : machine.rip ≠ stop)
    (hstep : Machine.step machine = .ok () machine') (hrest : RunsTo stop machine' machine'') :
    RunsTo stop machine machine''

/-- The state in which control gets to `stop`, within a number of steps. -/
def Machine.runTo? (stop : Word) : (limit : Nat) → Machine → Option Machine
  | 0, machine => if machine.rip = stop then some machine else none
  | limit + 1, machine =>
    if machine.rip = stop then some machine
    else
      match Machine.step machine with
      | .ok _ machine' => runTo? stop limit machine'
      | .error .. => none

theorem Machine.runsTo_of_runTo? {stop : Word} {limit : Nat} {machine machine' : Machine}
    (h : Machine.runTo? stop limit machine = some machine') : RunsTo stop machine machine' := by
  induction limit generalizing machine with
  | zero =>
    unfold runTo? at h
    split at h <;> cases h
    exact .done (by assumption)
  | succ limit ih =>
    unfold runTo? at h
    split at h
    · cases h
      exact .done (by assumption)
    · rename_i hne
      split at h
      · rename_i hstep
        exact .next hne hstep (ih h)
      · cases h

/-- A run through a region changes what the effect allows. -/
theorem Region.run {e : Effect} {cs : List Chunk} {m : Method} {d : Draft} {base : Word}
    {r : Resolver} {image : Array UInt8} {region : Nat × Chunk → Prop} {stop a : Nat}
    {machine machine' : Machine} (h : Region e cs d.buffer.labelOffset region stop) (he : e.Steady)
    (hi : Installed cs m d base r image)
    (hrun : Machine.RunsTo (base + BitVec.ofNat 64 stop) machine machine')
    (hloaded : machine.Loaded base image) (ha : Inside region stop a)
    (hrip : machine.rip = base + BitVec.ofNat 64 a) : e.Allows machine machine' := by
  induction hrun generalizing a with
  | done => exact .refl e _
  | next hne hstep hrest ih =>
    obtain rfl | ⟨c, hx⟩ := ha
    · exact absurd hrip hne
    · obtain ⟨hallows, b, hb, hrip', hsame⟩ := h.step he hi hloaded hx hrip hstep
      obtain rfl | hsame := hsame
      · -- The end has been reached.
        cases hrest with
        | done => exact hallows
        | next hne' => exact absurd hrip' hne'
      · exact hallows.trans (ih (hloaded.congr hsame) hb hrip') he

end MachineCode
