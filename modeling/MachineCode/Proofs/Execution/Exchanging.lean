import MachineCode.Proofs.Accesses.Outcomes
import MachineCode.Proofs.Execution.Deciding
import MachineCode.Proofs.Execution.Trapping
import MachineCode.Proofs.References.Checks

/-! Compare-and-swap. The old value is expected in `rax`, and the zero flag tells the outcome to a
branch that follows. The cell may lie in the data section, where a swap changes the image: of this,
the branch needs only its own code. -/
namespace MachineCode

open X64 Lower Machine Chunk

/-! ### The instruction -/

namespace Machine

variable {s c : Machine} {next a v : Word} {w : Width} {wide lock : Bool} {new : Gpr} {m : Mem}

/-- What a compare-and-swap of the number at `a` with a register leaves. -/
structure Exchanged (a : Word) (w : Width) (new : Gpr) (s c : Machine) : Prop where
  swapped : low (s.reg .rax) w = s.loaded a w.bytes →
    c.loaded a w.bytes = low (s.reg new) w ∧ c.reg .rax = s.reg .rax
  kept : low (s.reg .rax) w ≠ s.loaded a w.bytes →
    (∀ b, c.memory.get b = s.memory.get b) ∧ c.reg .rax = s.loaded a w.bytes
  old : low (c.reg .rax) w = s.loaded a w.bytes
  zf : c.flags.zf = (low (s.reg .rax) w == s.loaded a w.bytes)
  keeps : s.Keeps (· = .rax) (fun _ => False) (fun b => (b - a).toNat < w.bytes) c

/-- The low bytes of a word that has been stored are loaded again. -/
theorem loaded_stored (s : Machine) (a : Word) (w : Width) (v : Word) :
    (s.stored a w.bytes (low v w)).loaded a w.bytes = low v w := by
  have hbytes : w.bytes ≤ 2 ^ 64 := by cases w <;> decide
  rw [loaded, stored, Memory.readWord_writeWord _ _ hbytes, toNat_low, Nat.mod_mod, ← toNat_low]
  exact BitVec.ofNat_toNat ..

theorem exchanged_stored (f : Flags) (hzf : f.zf = (low (s.reg .rax) w == s.loaded a w.bytes))
    (h : low (s.reg .rax) w = s.loaded a w.bytes) :
    Exchanged a w new s
      (({ s with flags := f } : Machine).stored a w.bytes (low (s.reg new) w)) where
  swapped _ := ⟨loaded_stored _ a w _, rfl⟩
  kept hne := absurd h hne
  old := h
  zf := hzf
  keeps := (keeps_flags f).trans (keeps_stored (fun _ hb => hb) _)

theorem exchanged_setReg (f : Flags) (hzf : f.zf = (low (s.reg .rax) w == s.loaded a w.bytes))
    (hne : low (s.reg .rax) w ≠ s.loaded a w.bytes) :
    Exchanged a w new s (({ s with flags := f } : Machine).setReg .rax (s.loaded a w.bytes)) where
  swapped h := absurd h hne
  kept _ := ⟨fun _ => rfl, reg_setReg_self ..⟩
  old := (congrArg (low · w) (reg_setReg_self ..)).trans (low_loaded (Nat.le_refl _))
  zf := hzf
  keeps := (keeps_flags f).trans (keeps_setReg (G := (· = .rax)) rfl _)

/-- The zero flag of a compare at this width. -/
theorem zf_aluAt (a b : Word) (w : Width) :
    (aluAt .sub w (low a w) (low b w) false).2.zf = (low a w == low b w) := by
  refine Flags.zf_sub.trans ?_
  rw [Bool.eq_iff_iff, beq_iff_eq, beq_iff_eq, setWidth_low, setWidth_low, low_eq_iff]

theorem executes_cmpxchg (ha : s.effectiveAddress m next = a)
    (hfaults : s.faultsAt a (Width.ofWide wide).bytes = false) :
    Executes (.cmpxchg lock (.ofWide wide) (.mem m) new) next s
      (Exchanged a (.ofWide wide) new s) := by
  let w : Width := .ofWide wide
  let f : Flags := (aluAt .sub w (low (s.reg .rax) w) (s.loaded a w.bytes) false).2
  have hzf : f.zf = (low (s.reg .rax) w == s.loaded a w.bytes) := by
    have hloaded : low (s.loaded a w.bytes) w = s.loaded a w.bytes := low_loaded (Nat.le_refl _)
    have hflag := zf_aluAt (s.reg .rax) (s.loaded a w.bytes) w
    rwa [hloaded] at hflag
  refine (yields_readRm (readsRm_mem ha hfaults)).after ((yields_readReg .rax w).after
    ((yields_setFlags f).bind fun _ c hc => ?_))
  subst hc
  by_cases hequal : low (s.reg .rax) w = s.loaded a w.bytes
  · have hset : f.zf = true := by rw [hzf, beq_iff_eq, hequal]
    rw [if_pos hset]
    let compared : Machine := { s with flags := f }
    have hwrite : Yields (writeRm (.mem m) w (low (s.reg new) w) next) compared _ :=
      yields_writeMem (show compared.effectiveAddress m next = a from ha) hfaults _
    refine (yields_readReg new w).after (hwrite.mono fun _ c hc => ?_)
    subst hc
    exact exchanged_stored f hzf hequal
  · have hclear : ¬ f.zf = true := by rwa [hzf, beq_iff_eq]
    rw [if_neg hclear]
    refine (yields_writeReg .rax w _).mono fun _ c hc => ?_
    rw [hc, merge_ofWide, low_loaded (Nat.le_refl _)]
    exact exchanged_setReg f hzf hequal

end Machine

/-! ### The code -/

/-- Operands that are accepted: the old value is expected in `rax`, and neither the new value nor
the address is in the way of it or of each other. -/
structure CanExchange (frame : Frame) (cell expected newValue : Operand) (new : Gpr)
    (l : Location) : Prop where
  kind : exchangeWide? cell.kind = some cell.kind.isWord
  expected : gpr? expected = some .rax
  newValue : gpr? newValue = some new
  place : place? frame cell = some l
  valid : l.Valid
  ne : new ≠ .rax
  free : l.mem.uses .rax = false ∧ l.mem.uses new = false

namespace Lower

variable {S : Site} {C : Context} {cell expected newValue : Operand}

theorem exchangeWide?_eq {k : Kind} {wide : Bool}
    (h : exchangeWide? k = some wide) : wide = k.isWord := by
  cases k <;> cases h <;> rfl

/-- The number in the cell is as wide as its kind. -/
theorem bytes_of_exchangeWide? {k : Kind} {wide : Bool} (h : exchangeWide? k = some wide) :
    k.width = .ofWide k.isWord ∧ k.width.bytes = k.size := by
  cases k <;> first | exact ⟨rfl, rfl⟩ | cases h

/-- One instruction is laid down. -/
theorem lays_compareAndSwap :
    Lays S C (compareAndSwap cell expected newValue) fun _ _ chunks _ => ∃ new l,
    CanExchange C.frame cell expected newValue new l ∧
      chunks = [.instr (.cmpxchg true cell.kind.isWord l.mem new) (l.data.map .data)] := by
  unfold compareAndSwap
  split
  · exact lays_of_fails (fails_unhandled _)
  · rename_i wide hkind
    obtain rfl := exchangeWide?_eq hkind
    refine (finds_gpr expected).lays_bind fun g hg => ?_
    by_cases hrax : g = .rax
    · subst hrax
      rw [if_neg (not_not_intro rfl)]
      refine (finds_gpr newValue).lays_bind fun new hnew =>
        (finds_location cell).lays_bind fun l hl => ?_
      split
      · exact lays_of_fails (fails_unhandled _)
      · rename_i hfree
        simp only [not_or, Bool.not_eq_true] at hfree
        refine (lays_emitAt hl.2 fun _ => rfl).discard.mono
          fun _ pre chunks post final _ hchunks => ?_
        obtain ⟨pc, hchunks, -⟩ := hchunks
        exact ⟨new, l, ⟨hkind, hg, hnew, hl.1, hl.2, hfree.1, hfree.2⟩, hchunks⟩
    · rw [if_pos hrax]
      exact lays_of_fails (fails_unhandled _)

end Lower

/-! ### The image -/

/-- From an address back to one in front of it is nearly once around the address space. -/
theorem Site.toNat_addressOf_sub {S : Site} {p q : Nat} (hlt : p < q) (hq : q < 2 ^ 64) :
    (S.addressOf p - S.addressOf q).toNat = 2 ^ 64 - (q - p) := by
  rw [addressOf, addressOf, BitVec.toNat_sub, BitVec.toNat_add, BitVec.toNat_add,
    BitVec.toNat_ofNat, BitVec.toNat_ofNat]
  have := S.base.isLt
  omega

namespace Installation

variable {I : Installation} {op : Operation} {o : Operand} {l : Location}

/-- What the operands of a method have in its data section lies inside. -/
theorem inside_operand (hop : op ∈ I.source.ops) (ho : o ∈ op.operands) :
    o.Inside I.method.data.size := by
  obtain ⟨d, d', hd, hm⟩ := I.exists_method
  obtain ⟨-, -, hcompleted⟩ := tidy_of_method False.elim hd hm
  have hsize : I.method.data.size = d'.data.size := congrArg Array.size hcompleted.data
  exact hsize ▸ checks_method hop ho d I.method d' (Nat.zero_le _) (tidy_start hd) hm

/-- An operand in the data section lies behind the code, with all bytes of its kind. -/
theorem code_apart (hop : op ∈ I.source.ops) (ho : o ∈ op.operands) (hdata : inData o = true)
    (hl : place? I.source.frame o = some l) (machine : Machine) {p : Nat}
    (hp : p < I.method.dataStart) :
    o.kind.size ≤ (I.site.addressOf p - I.site.place machine l).toNat := by
  have hinside := inside_operand hop ho
  cases o with
  | reg | const | stack => cases hdata
  | addr a =>
    obtain ⟨kind, base, index, scale, disp⟩ := a
    cases base with
    | register r => cases hdata
    | data start =>
      obtain ⟨offset, hoffset, hsize⟩ := hinside _ start rfl rfl
      obtain rfl : l = .ofData (start + disp.toInt).toNat := (Option.some.inj hl).symm
      have hfits := I.fits
      have himage : I.image.size = I.method.dataStart + I.method.data.size :=
        Method.size_of_install I.installed
      change offset + kind.size ≤ _ at hsize
      change kind.size ≤ (I.site.addressOf p -
        I.site.addressOf (I.method.dataStart + ((start : Int) + disp.toInt).toNat)).toNat
      rw [hoffset, Int.toNat_natCast, Site.toNat_addressOf_sub (by omega) (by omega)]
      omega

/-- A branch stands in front of the data. -/
theorem HasCode.branch_le {c : Condition} {target : Label} {start stop : Nat}
    (h : I.HasCode (.branch (some c) target) start stop) : stop ≤ I.method.dataStart := by
  obtain ⟨last, hlast⟩ := I.exists_ends
  obtain ⟨pre, new, post, hhosts, -, -, rfl⟩ :=
    h.hosts_last hlast fun C _ _ => lays_jcc (.ofCondition c) target
  exact hhosts.extent_le_dataStart

end Installation

/-! ### Refusals -/

/-- The address is computed from the register. -/
def Operand.Mentions (o : Operand) (g : Gpr) : Prop :=
  match o with
  | .addr a =>
    (∃ r, a.base = .register r ∧ Gpr.ofRegister? r = some g) ∨
    ∃ r ∈ a.index, Gpr.ofRegister? r = some g
  | .stack .. => g = .rsp
  | _ => False

/-- The old value is not expected in `rax`, or the new value or the address is in the way of it or
of each other. -/
def Clashes (cell expected newValue : Operand) : Prop :=
  gpr? expected ≠ some .rax ∨ gpr? newValue = some .rax ∨ cell.Mentions .rax ∨
    ∃ new, gpr? newValue = some new ∧ cell.Mentions new

/-- The operands but for the cell are such that its place is looked up. -/
def LooksUp (cell expected newValue : Operand) : Prop :=
  (exchangeWide? cell.kind).isSome = true ∧ gpr? expected = some .rax ∧
    (gpr? newValue).isSome = true

namespace Lower

variable {o cell expected newValue : Operand} {l : Location} {g : Gpr} {d d' : Draft}

/-- The memory operand has the registers of the address. -/
theorem uses_of_location (hrun : location o d = .ok l d')
    (h : o.Mentions g) : l.mem.uses g = true := by
  cases o with
  | reg | const => exact h.elim
  | stack slot kind =>
    obtain rfl : g = .rsp := h
    rw [location, Step.get_bind] at hrun
    obtain ⟨m, d₁, hm, ⟨⟩⟩ := Step.bind_eq_ok.mp hrun
    obtain ⟨disp, d₂, -, ⟨⟩⟩ := Step.bind_eq_ok.mp hm
    rfl
  | addr a =>
    obtain ⟨kind, base, index, scale, disp⟩ := a
    unfold location address at hrun
    cases base with
    | data start =>
      obtain ⟨r, ⟨⟩, -⟩ | ⟨r, hr, -⟩ := h
      cases hr
      exact absurd hrun unhandled_ne_ok
    | register r =>
      dsimp only at hrun
      cases hbase : Gpr.ofRegister? r with
      | none =>
        rw [hbase] at hrun
        exact absurd hrun unhandled_ne_ok
      | some base =>
        rw [hbase] at hrun
        cases index with
        | none =>
          obtain ⟨r', ⟨⟩, hg⟩ | ⟨r', ⟨⟩, -⟩ := h
          cases hbase.symm.trans hg
          cases hrun
          simp [Mem.uses, Mem.based, Location.plain]
        | some i =>
          dsimp only at hrun
          cases hindex : (Gpr.ofRegister? i).filter (· != .rsp) with
          | none =>
            rw [hindex] at hrun
            exact absurd hrun unhandled_ne_ok
          | some index =>
            rw [hindex] at hrun
            cases hrun
            obtain ⟨r', ⟨⟩, hg⟩ | ⟨r', ⟨⟩, hg⟩ := h
            · cases hbase.symm.trans hg
              simp [Mem.uses, Mem.indexed, Location.plain]
            · cases (Option.filter_eq_some_iff.mp hindex).1.symm.trans hg
              simp [Mem.uses, Mem.indexed, Location.plain]

/-- The place of an operand is found with the registers of its address, or refused, or it is out of
range. -/
theorem location_outcomes (o : Operand) (d : Draft) :
    (∃ l, location o d = .ok l d ∧ o.InRange d.frame d.data.size) ∨
      (∃ detail, location o d = .error (.unhandled d.current detail) d ∧
        o.InRange d.frame d.data.size) ∨
      ∃ err, location o d = .error err d ∧ err.isOutOfRange = true ∧
      ¬ o.InRange d.frame d.data.size := by
  by_cases haddress : o.Misaddressed
  · obtain ⟨detail, herror⟩ := refused_location haddress d
    exact .inr (.inl ⟨detail, herror, Operand.Unreadable.inRange (.inr haddress) _ _⟩)
  cases hmemory : o.isMemory with
  | false =>
    cases o with
    | stack | addr => cases hmemory
    | reg | const => exact .inr (.inl ⟨_, rfl, trivial⟩)
  | true =>
    obtain ⟨l, hl, -, hrange⟩ | h := location_cases hmemory haddress d
    · exact .inl ⟨l, hl, hrange⟩
    · exact .inr (.inr h)

/-- Operands that clash are refused, unless the place of the cell is looked up and is out of
range. -/
theorem compareAndSwap_of_clashes (h : Clashes cell expected newValue) (d : Draft) :
    ((LooksUp cell expected newValue → cell.InRange d.frame d.data.size) →
      ∃ detail, compareAndSwap cell expected newValue d = .error (.unhandled d.current detail) d) ∧
    (LooksUp cell expected newValue → ¬ cell.InRange d.frame d.data.size →
      ∃ err, compareAndSwap cell expected newValue d = .error err d ∧ err.isOutOfRange = true) := by
  by_cases hlooks : LooksUp cell expected newValue
  · have ⟨hkind, hexpected, hnew⟩ := hlooks
    obtain ⟨wide, hwide⟩ := Option.isSome_iff_exists.mp hkind
    obtain ⟨new, hnew⟩ := Option.isSome_iff_exists.mp hnew
    have hrun : compareAndSwap cell expected newValue d = (location cell >>= fun l =>
        if new = .rax ∨ l.mem.uses .rax = true ∨ l.mem.uses new = true then
          unhandled "compare-and-swap operands overlap"
        else discard (emitAt l (.cmpxchg true wide · new))) d := by
      simp only [compareAndSwap, hwide, gpr_eq_pure hexpected, gpr_eq_pure hnew, pure_bind,
        ne_eq, not_true_eq_false, if_false]
    rw [hrun]
    obtain ⟨l, hl, hrange⟩ | ⟨detail, herror, hrange⟩ | ⟨err, herror, hfar, hrange⟩ :=
      location_outcomes cell d
    · refine ⟨fun _ => ?_, fun _ hfar => absurd hrange hfar⟩
      have hclash : new = .rax ∨ l.mem.uses .rax = true ∨ l.mem.uses new = true := by
        obtain h | h | h | ⟨new', hnew', h⟩ := h
        · exact absurd hexpected h
        · exact .inl (Option.some.inj (hnew.symm.trans h))
        · exact .inr (.inl (uses_of_location hl h))
        · cases hnew.symm.trans hnew'
          exact .inr (.inr (uses_of_location hl h))
      rw [Step.bind_of_ok hl, if_pos hclash]
      exact ⟨_, rfl⟩
    · exact ⟨fun _ => ⟨detail, Step.bind_of_error herror⟩, fun _ hfar => absurd hrange hfar⟩
    · exact ⟨fun h => absurd (h hlooks) hrange, fun _ _ => ⟨err, Step.bind_of_error herror, hfar⟩⟩
  · refine ⟨fun _ => ?_, fun h => absurd h hlooks⟩
    suffices hrefused : Refused (compareAndSwap cell expected newValue) from hrefused d
    unfold compareAndSwap
    cases hwide : exchangeWide? cell.kind with
    | none => exact refused_unhandled _
    | some wide =>
      cases hexpected : gpr? expected with
      | none => exact (refused_gpr hexpected).bind
      | some g =>
        simp only [gpr_eq_pure hexpected, pure_bind]
        by_cases hrax : g = .rax
        · subst hrax
          rw [if_neg (not_not_intro rfl)]
          refine (refused_gpr ?_).bind
          cases hnew : gpr? newValue with
          | none => rfl
          | some new => exact absurd ⟨by rw [hwide]; rfl, hexpected, by rw [hnew]; rfl⟩ hlooks
        · rw [if_pos hrax]
          exact refused_unhandled _

end Lower

/-! ### Installed code -/

namespace Machine

variable {a : Word} {w : Width} {new : Gpr} {s c : Machine}

/-- What is left does not depend on the instruction pointer and the records. -/
theorem Exchanged.of_core (h : Exchanged a w new s.core c.core) : Exchanged a w new s c :=
  ⟨h.swapped, h.kept, h.old, h.zf, h.keeps.gprs, h.keeps.xmms, h.keeps.memory, h.keeps.ranges⟩

end Machine

namespace Installation

variable {I : Installation} {cell expected newValue : Operand} {start stop : Nat}
  {machine machine' : Machine}
  {l : Location} {new : Gpr}

/-- The code of a compare-and-swap runs to its end. -/
theorem HasCode.exists_exchanged
    (hcode : I.HasCode (.compareAndSwap cell expected newValue) start stop)
    (hloaded : machine.Loaded I.base I.image) (hrip : machine.rip = I.base + BitVec.ofNat 64 start)
    (haccessible : I.site.Accessible I.source.frame machine cell) : ∃ new l machine',
      CanExchange I.source.frame cell expected newValue new l ∧
      machine.RunsTo (I.base + BitVec.ofNat 64 stop) machine' ∧
      Exchanged (I.site.place machine l) cell.kind.width new machine machine' := by
  obtain ⟨pre, chunks, post, final, hhosts, -, ⟨new, l, hcan, rfl⟩, rfl, rfl⟩ :=
    hcode.hosts fun C hC _ => hC ▸ lays_compareAndSwap
  obtain ⟨hwidth, hbytes⟩ := bytes_of_exchangeWide? hcan.kind
  have htraps :
      I.site.Traps (fun c => c.faultsAt (I.site.place c l) cell.kind.size = false) (fun _ => none)
      (fun s c => Exchanged (I.site.place s l) cell.kind.width new s c) (extent pre) pre
      [.instr (.cmpxchg true cell.kind.isWord l.mem new) (l.data.map .data)] := by
    refine Site.traps_instr (Instr.encodable_of_some rfl hcan.valid.encodable) fun machine hat => ?_
    obtain ⟨m, next, haddress, rfl, hstep⟩ :=
      Site.Hosts.step_access (i := (.cmpxchg true cell.kind.isWord · new))
      (fun _ _ => rfl) (fixed_of_place? hcan.place) hhosts hat
    refine ⟨_, _, hstep, nofun, fun _ => ?_⟩
    have hfaults := hat.core
    rw [← hbytes, hwidth] at hfaults
    rw [hwidth]
    exact executes_cmpxchg (haddress _) hfaults
  obtain ⟨machine', hrun, hexchanged⟩ :=
    (run_of_traps hhosts htraps hloaded hrip (haccessible l hcan.place)).2 rfl
  exact ⟨new, l, machine', hcan, hrun, hexchanged.of_core⟩

/-- The code of a branch is still in memory: no swap is made, or it goes to the data section, or the
branch is not in the way. -/
theorem HasCode.loadedAt_branch {c : Condition} {target : Label} {p q : Nat}
    (hcode : I.HasCode (.compareAndSwap cell expected newValue) start stop)
    (hbranch : I.HasCode (.branch (some c) target) p q) (hloaded : machine.Loaded I.base I.image)
    (hcan : CanExchange I.source.frame cell expected newValue new l)
    (hexchanged : Exchanged (I.site.place machine l) cell.kind.width new machine machine')
    (hspared : low (machine.reg .rax) cell.kind.width = machine.loaded (I.site.place machine l)
      cell.kind.size → inData cell = false → machine'.LoadedAt I.base I.image p (q - p)) :
    machine'.LoadedAt I.base I.image p (q - p) := by
  obtain ⟨-, hbytes⟩ := bytes_of_exchangeWide? hcan.kind
  by_cases hequal : low (machine.reg .rax) cell.kind.width =
    machine.loaded (I.site.place machine l) cell.kind.width.bytes
  · cases hdata : inData cell with
    | false => exact hspared (hbytes ▸ hequal) hdata
    | true =>
      intro k hk b hb
      have hle := hbranch.branch_le
      have hapart := code_apart hcode.mem (List.mem_cons_self ..) hdata hcan.place machine
        (show p + k < _ by omega)
      rw [← hbytes] at hapart
      exact (hexchanged.keeps.memory _ (Nat.not_lt.mpr hapart)).trans (hloaded _ b hb)
  · exact fun k _ b hb => ((hexchanged.kept hequal).1 _).trans (hloaded _ b hb)

end Installation

/-- From any state in which the cell can be accessed, the code of a compare-and-swap runs to its
end. If the low bytes of `rax` have been those in the cell, the cell receives the low bytes of the
new value, and if not, `rax` receives what is in the cell; nothing else changes, and a branch that
follows, and has not been written over, is taken exactly if the cell was equal. Operands that clash
are refused, unless the place of the cell is looked up before that and is out of range. -/
theorem exchanges_or_refuses {cell expected newValue : Operand} :
    (∀ {I : Installation} {start stop : Nat} {machine : Machine},
      I.HasCode (.compareAndSwap cell expected newValue) start stop →
      machine.Loaded I.base I.image →
      machine.rip = I.base + BitVec.ofNat 64 start → I.site.Accessible I.source.frame machine cell →
      ∃ new l machine', CanExchange I.source.frame cell expected newValue new l ∧
        machine.RunsTo (I.base + BitVec.ofNat 64 stop) machine' ∧
        Exchanged (I.site.place machine l) cell.kind.width new machine machine' ∧
        ∀ target next, I.HasCode (.branch (some .eq) target) stop next →
          (low (machine.reg .rax) cell.kind.width =
            machine.loaded (I.site.place machine l) cell.kind.size →
            inData cell = false → machine'.LoadedAt I.base I.image stop (next - stop)) →
          ∃ p q machine'', I.HasCode (.label target) p q ∧
          Machine.step machine' = .ok () machine'' ∧
            machine''.rip = I.base + BitVec.ofNat 64
              (if low (machine.reg .rax) cell.kind.width =
                machine.loaded (I.site.place machine l) cell.kind.size then p
              else next)) ∧
    (Clashes cell expected newValue → ∀ d : Draft,
      ((LooksUp cell expected newValue → cell.InRange d.frame d.data.size) →
        ∃ detail d', operation (.compareAndSwap cell expected newValue) d =
          .error (.unhandled "compare_and_swap" detail) d') ∧
      (LooksUp cell expected newValue → ¬ cell.InRange d.frame d.data.size →
        ∃ err d', operation (.compareAndSwap cell expected newValue) d = .error err d' ∧
        err.isOutOfRange = true)) := by
  refine ⟨fun {I start stop machine} hcode hloaded hrip haccessible => ?_, fun hclash d => ?_⟩
  · obtain ⟨new, l, machine', hcan, hrun, hexchanged⟩ :=
      hcode.exists_exchanged hloaded hrip haccessible
    refine ⟨new, l, machine', hcan, hrun, hexchanged, fun target next hbranch hspared => ?_⟩
    have hat := hcode.loadedAt_branch hbranch hloaded hcan hexchanged hspared
    obtain ⟨p, q, machine'', hlabel, hstep, -, hrip''⟩ := hbranch.step_branch_at hat hrun.rip
    refine ⟨p, q, machine'', hlabel, hstep, hrip''.trans ?_⟩
    have hzf : machine'.flags.cond (.ofCondition .eq) = _ := hexchanged.zf
    obtain ⟨-, hbytes⟩ := bytes_of_exchangeWide? hcan.kind
    simp only [hzf, hbytes, beq_iff_eq]
  · obtain ⟨hrefused, hfar⟩ :=
      compareAndSwap_of_clashes hclash { d with current := "compare_and_swap" }
    refine ⟨fun hrange => ?_, fun hlooks hrange => ?_⟩
    · obtain ⟨detail, herror⟩ := hrefused hrange
      exact ⟨detail, _, operation_of_error herror⟩
    · obtain ⟨err, herror, hout⟩ := hfar hlooks hrange
      exact ⟨err, _, operation_of_error herror, hout⟩

/-- The cell holds 5, which is expected, whatever the upper half of `rax` is; 7 is swapped in, and
the branch is taken. With `rax` for the new value, there is no code. -/
theorem exchanges_or_refuses_five :
    let cell : Operand := .addr ⟨.int, .register Gpr.rcx.register, none, .times1, 0⟩
    let expected : Operand := .reg Gpr.rax.register .int
    let newValue : Operand := .reg Gpr.rdx.register .int
    let target : Label := ⟨0⟩
    let machine : Machine :=
      ((Machine.initial.setReg .rcx 0x800000).setReg .rax 0xFFFFFFFF00000005).setReg
        .rdx 0x700000007
    (∃ (I : Installation) (start stop next p q : Nat) (machine' machine'' : Machine),
      I.HasCode (.compareAndSwap cell expected newValue) start stop ∧
      I.HasCode (.branch (some .eq) target) stop next ∧
      I.HasCode (.label target) p q ∧
      ((I.enter machine start).stored 0x800000 4 5).RunsTo
        (I.base + BitVec.ofNat 64 stop) machine' ∧
      machine'.loaded 0x800000 4 = 7 ∧ machine'.reg .rax = 0xFFFFFFFF00000005 ∧
      Machine.step machine' = .ok () machine'' ∧ machine''.rip = I.base + BitVec.ofNat 64 p) ∧
    (∀ d, ∃ detail d', operation (.compareAndSwap cell expected expected) d =
      .error (.unhandled "compare_and_swap" detail) d') ∧
    ∀ d : Draft, d.data.size < 104 → ∃ err d',
      operation (.compareAndSwap (.addr (.ofData .int 100)) expected expected) d = .error err d' ∧
      err.isOutOfRange = true := by
  intro cell expected newValue target machine
  refine ⟨?_, fun d => ?_, fun d hd => ?_⟩
  · let ops : List Operation :=
      [.compareAndSwap cell expected newValue, .branch (some .eq) target, .label target, .ret none]
    obtain ⟨I, -, hsource, hbase, hlow, hhigh⟩ :=
      Installation.exists_installed
        ⟨{ Options.standard with useStackBanging := false }, ⟨true, true⟩, 4096⟩
        ⟨"test", none, .empty, [], ops⟩ 0x10000000 (by decide +kernel)
    have hops : I.source.ops = [] ++ .compareAndSwap cell expected newValue :: ops.tail := by
      rw [hsource]; rfl
    obtain ⟨start, stop, hcode, hnext⟩ := I.exists_hasCode_next hops
    obtain ⟨next, hbranch⟩ := hnext _ _ rfl
    let entry : Machine := (I.enter machine start).stored 0x800000 4 5
    have hclear : I.site.Clear 0x800000 4 := by
      refine Site.clear_of_below ?_ hhigh
      change 0x800000 + 4 ≤ I.base.toNat
      rw [hbase]
      decide
    have hloaded : entry.Loaded I.base I.image :=
      hclear.loads (Installation.loaded_enter machine start)
      (keeps_stored (G := fun _ => False) (X := fun _ => False) (fun _ hb => hb) _)
    have haccessible : I.site.Accessible I.source.frame entry cell := by
      rintro l ⟨⟩
      rfl
    obtain ⟨new, l, machine', hcan, hrun, hexchanged, hbranches⟩ :=
      exchanges_or_refuses.1 hcode hloaded rfl haccessible
    obtain rfl : new = .rdx := Option.some.inj (hcan.newValue.symm.trans (gpr?_register .rdx .int))
    obtain rfl : l = .plain (.based .rcx 0) := Option.some.inj (hcan.place.symm.trans rfl)
    have hplace : I.site.place entry (.plain (.based .rcx 0)) = 0x800000 := rfl
    have hfive : entry.loaded 0x800000 4 = 5 := loaded_stored _ 0x800000 .dword 5
    have hold : entry.reg .rax = 0xFFFFFFFF00000005 := rfl
    have hnew : entry.reg .rdx = 0x700000007 := rfl
    have hequal : low (entry.reg .rax) .dword = entry.loaded 0x800000 4 := by
      rw [hfive, hold]
      decide
    have hseven : low (entry.reg .rdx) .dword = 7 := by
      rw [hnew]
      decide
    rw [hplace] at hexchanged hbranches
    have hspared : machine'.Loaded I.base I.image := hclear.loads hloaded hexchanged.keeps
    obtain ⟨p, q, machine'', hlabel, hstep, hrip⟩ :=
      hbranches target next hbranch fun _ _ => hspared.part _ _
    obtain ⟨hstored, hrax⟩ := hexchanged.swapped hequal
    exact ⟨I, start, stop, next, p, q, machine', machine'', hcode, hbranch, hlabel, hrun,
      hstored.trans hseven, hrax, hstep,
      hrip.trans (congrArg (fun n => I.base + BitVec.ofNat 64 n) (if_pos hequal))⟩
  · exact (exchanges_or_refuses.2 (.inr (.inl rfl)) d).1 fun _ => trivial
  · refine (exchanges_or_refuses.2 (.inr (.inl rfl)) d).2 ⟨rfl, rfl, rfl⟩ fun ⟨_, _, hsize⟩ => ?_
    change (100 : Int) + 0 + 4 ≤ d.data.size at hsize
    omega

/-- A new value in `rax` is not told for a cell past the end of the data section. -/
theorem clashes_not_unhandled :
    let target : Target := ⟨{ Options.standard with useStackBanging := false }, ⟨true, true⟩, 4096⟩
    let cell : Operand := .addr (.ofData .int 100)
    let rax : Operand := .reg Gpr.rax.register .int
    let source : MethodSource :=
      ⟨"test", none, .empty, [], [.compareAndSwap cell rax rax, .ret none]⟩
    Clashes cell rax rax ∧ (compile target source).1 = .error (.dataOutOfRange 100 0) ∧
      ¬ ∃ name detail, (compile target source).1 = .error (.unhandled name detail) := by
  intro target cell rax source
  have hfails : (match (compile target source).1 with
      | .ok _ => false | .error e => e == .dataOutOfRange 100 0) = true := by
    decide +kernel
  have hcompile : (compile target source).1 = .error (.dataOutOfRange 100 0) := by
    cases hrun : (compile target source).1 with
    | ok m =>
      rw [hrun] at hfails
      cases hfails
    | error e =>
      rw [hrun] at hfails
      rw [eq_of_beq hfails]
  refine ⟨.inr (.inl rfl), hcompile, fun ⟨name, detail, hunhandled⟩ => ?_⟩
  cases hcompile.symm.trans hunhandled

end MachineCode
