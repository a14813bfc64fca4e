import MachineCode.Proofs.Execution.Faults
import MachineCode.Proofs.Failures.Attempts
import MachineCode.Proofs.Frames.Areas
import MachineCode.Proofs.Frames.Entry

/-! Touching the stack. On entry a method stores a word to every page that its frame is going to
occupy and to the pages of the shadow zone below, in order, and before anything else. -/
namespace MachineCode

open X64 Lower Chunk Machine

/-! ### The touches of a prologue -/

namespace Target

/-- Pages that a method with a frame of this size touches. -/
def touchedPages (t : Target) (size : Nat) : Nat :=
  t.options.stackShadowPages + (size + (t.pageSize - 1)) / t.pageSize

/-- The touched pages are those of the frame, with the last one rounded up, and of the shadow
zone. -/
theorem size_le_touchedPages (t : Target) (size : Nat) (h : 0 < t.pageSize) :
    size + t.options.stackShadowPages * t.pageSize ≤ t.touchedPages size * t.pageSize := by
  have hround : size ≤ (size + (t.pageSize - 1)) / t.pageSize * t.pageSize := by
    have := Nat.div_add_mod' (size + (t.pageSize - 1)) t.pageSize
    have := Nat.mod_lt (size + (t.pageSize - 1)) h
    omega
  rw [touchedPages, Nat.add_mul, Nat.add_comm]
  exact Nat.add_le_add_left hround _

end Target

namespace Lower

/-- A word is stored this far from the stack pointer. -/
def touch (disp : Int32) : Chunk := .instr (.store true .rax (.based .rsp disp)) none

/-- The displacements of `count` pages below the stack pointer, beginning with the page numbered
`i`. -/
def PageTouches (page count i : Nat) (disps : List Int32) : Prop :=
  disps.map Int32.toInt = (List.range' i count).map fun j => -((j * page : Nat) : Int)

namespace PageTouches

variable {page count i j : Nat} {disps : List Int32} {disp : Int32}

theorem exists_of_mem (h : PageTouches page count i disps) (hdisp : disp ∈ disps) :
    ∃ j, i ≤ j ∧ j < i + count ∧ disp.toInt = -((j * page : Nat) : Int) := by
  have hmem : disp.toInt ∈ disps.map Int32.toInt := List.mem_map_of_mem hdisp
  rw [h] at hmem
  obtain ⟨j, hj, hdisp⟩ := List.mem_map.mp hmem
  obtain ⟨hle, hlt⟩ := List.mem_range'_1.mp hj
  exact ⟨j, hle, hlt, hdisp.symm⟩

theorem exists_mem (h : PageTouches page count i disps) (hle : i ≤ j) (hlt : j < i + count) :
    ∃ disp ∈ disps, disp.toInt = -((j * page : Nat) : Int) := by
  have hmem : -((j * page : Nat) : Int) ∈ disps.map Int32.toInt := by
    rw [h]
    exact List.mem_map.mpr ⟨j, List.mem_range'_1.mpr ⟨hle, hlt⟩, rfl⟩
  exact List.mem_map.mp hmem

/-- What has been emitted is within reach. -/
theorem le_reach (h : PageTouches page count i disps) (hle : i ≤ j)
    (hlt : j < i + count) : j * page ≤ 2 ^ 31 := by
  obtain ⟨disp, -, hdisp⟩ := h.exists_mem hle hlt
  have := disp.le_toInt
  omega

theorem map_eq {α : Type} (h : PageTouches page count i disps) (f : Int → α) :
    (disps.map fun disp => f disp.toInt) = (List.range' i count).map fun j =>
      f (-((j * page : Nat) : Int)) := by
  have hmap := congrArg (List.map f) h
  rwa [List.map_map, List.map_map] at hmap

end PageTouches

section Laying

variable {S : Site} {C : Context}

theorem lays_bangPages (page count i : Nat) : Lays S C (bangPages page count i) fun _ _ new _ =>
    ∃ disps, new = disps.map touch ∧ PageTouches page count i disps := by
  induction count generalizing i with
  | zero =>
    refine (finds_pure (p := (· = ())) rfl).lays.mono fun _ pre new post final _ h => ?_
    exact ⟨[], h.1, rfl⟩
  | succ count ih =>
    refine (finds_displacement32 _).lays_bind fun disp hdisp =>
      (Lays.bind (lays_emit (Instr.encodable_of_some rfl (encodable_based _ _)))
        fun _ => ih (i + 1)).mono
        fun _ pre new post final _ h => ?_
    obtain ⟨_, new₁, new₂, rfl, rfl, disps, rfl, hdisps⟩ := h
    refine ⟨disp :: disps, rfl, ?_⟩
    rw [PageTouches, List.map_cons, hdisps, toInt_of_int32? hdisp, List.range'_succ, List.map_cons]

theorem lays_bangStack (hpage : 0 < C.target.pageSize) :
    Lays S C bangStack fun _ _ new _ => ∃ disps,
    new = disps.map touch ∧
    PageTouches C.target.pageSize (C.target.touchedPages C.frame.size) 1 disps := by
  refine finds_get.lays_bind fun d hd => ?_
  rw [hd.target, hd.frame, Nat.max_eq_left hpage]
  exact lays_bangPages _ _ _

/-- The new frame is allocated in one instruction, if it is not empty. -/
theorem lays_allocateFrame (size : Nat) : Lays S C (allocateFrame size) fun _ _ new _ =>
    size = 0 ∧ new = [] ∨ 0 < size ∧ ∃ imm : Int32, imm.toInt = size ∧
      new = [.instr (.aluImm .sub true (.reg .rsp) imm) none] := by
  unfold allocateFrame
  split
  · rename_i hsize
    split
    · exact lays_of_fails (fails_throw rfl)
    · rename_i imm himm
      refine (lays_emit (Instr.encodable_of_none rfl)).mono fun _ pre new post final _ h => ?_
      exact .inr ⟨hsize, imm, toInt_of_int32? himm, h⟩
  · rename_i hsize
    refine (finds_pure (p := (· = ())) rfl).lays.mono fun _ pre new post final _ h => ?_
    exact .inl ⟨by omega, h.1⟩

/-- The code starts with the allocation of the frame; for an empty frame there is none. -/
def Allocates (size : Nat) (cs : List Chunk) : Prop :=
  size = 0 ∧ cs = [] ∨ 0 < size ∧ ∃ (imm : Int32) (stores : List Chunk), imm.toInt = size ∧
    cs = .instr (.aluImm .sub true (.reg .rsp) imm) none :: stores

/-- The code touches the stack, and then allocates the frame. -/
def TouchesFirst (t : Target) (f : Frame) : Site.Claim := fun _ new _ => ∃ disps rest,
  new = disps.map touch ++ rest ∧ PageTouches t.pageSize (t.touchedPages f.size) 1 disps ∧
  Allocates f.size rest

/-- There is nothing to store to an empty frame. -/
theorem lays_fillFrame_empty (hframe : C.frame.fault? = none) (hsize : C.frame.size = 0)
    (zap : Bool) :
    Lays S C (fillFrame zap 0) fun _ _ new _ => new = [] := by
  have hsaved : C.frame.saved.registers = [] := by
    have harea := (Frame.fault?_eq_none.mp hframe).2
      ("callee-save", C.frame.saved.offset, C.frame.saved.size) (by simp [Frame.areas])
    simp only [SaveArea.size, slotSize] at harea
    exact List.length_eq_zero_iff.mp (by omega)
  have hnothing :
      Lays S C (forSaved (.store true) (.movsStore true)) fun _ _ new _ => new = [] := by
    refine finds_get.lays_bind fun d hd => ?_
    rw [hd.frame]
    dsimp only
    rw [hsaved]
    exact (finds_pure (p := (· = ())) rfl).lays.mono fun _ _ _ _ _ _ h => h.1
  cases zap
  · exact hnothing
  · exact hnothing

/-- The prologue touches the stack, and then the frame is allocated. -/
theorem lays_enterFrame (hbang : C.target.options.useStackBanging = true)
    (hpage : 0 < C.target.pageSize) (hframe : C.frame.fault? = none) :
    Lays S C enterFrame fun _ => TouchesFirst C.target C.frame := by
  have hpush : Lays S C pushFrame fun _ _ new _ => Allocates C.frame.size new := by
    rw [pushFrame_eq]
    refine finds_get.lays_bind fun d hd => ?_
    rw [hd.frame]
    have hfill : ∀ u : Unit, Lays S C
        (fillFrame d.target.options.zapStackOnEntry C.frame.size) fun _ _ new _ =>
        C.frame.size = 0 → new = [] := by
      intro u
      by_cases hsize : C.frame.size = 0
      · rw [hsize]
        exact (lays_fillFrame_empty hframe hsize _).mono fun _ _ _ _ _ _ h _ => h
      · exact (does_fillFrame Effect.open_anything _ _).lays.mono fun _ _ _ _ _ _ _ h =>
          absurd h hsize
    refine (Lays.bind (lays_allocateFrame C.frame.size) hfill).mono
      fun _ pre new post final _ h => ?_
    obtain ⟨_, new₁, new₂, rfl, ⟨hsize, rfl⟩ | ⟨hsize, imm, himm, rfl⟩, hnew₂⟩ := h
    · exact .inl ⟨hsize, hnew₂ hsize⟩
    · exact .inr ⟨hsize, imm, new₂, himm, rfl⟩
  refine finds_get.lays_bind fun d hd => ?_
  rw [hd.target, if_pos hbang]
  refine (Lays.bind (lays_bangStack hpage) fun _ => hpush).mono fun _ pre new post final _ h => ?_
  obtain ⟨_, new₁, new₂, rfl, ⟨disps, rfl, hdisps⟩, hnew₂⟩ := h
  exact ⟨disps, new₂, rfl, hdisps, hnew₂⟩

end Laying

/-! ### Touches out of reach -/

/-- The first touch that is too far away is refused. -/
theorem bangPages_eq_error {page count i : Nat} (d : Draft)
    (h : ∃ j, i ≤ j ∧ j < i + count ∧ 2 ^ 31 < j * page) :
    ∃ j d', i ≤ j ∧ j < i + count ∧ 2 ^ 31 < j * page ∧ (∀ k, i ≤ k → k < j → k * page ≤ 2 ^ 31) ∧
      bangPages page count i d =
        .error (.displacementOutOfRange (-((j * page : Nat) : Int))) d' := by
  induction count generalizing i d with
  | zero =>
    obtain ⟨j, hj, hlt, -⟩ := h
    omega
  | succ count ih =>
    unfold bangPages
    by_cases hfar : 2 ^ 31 < i * page
    · have hnone : int32? (-((i * page : Nat) : Int)) = none := by
        rw [← Option.not_isSome_iff_eq_none, int32?_isSome]
        omega
      refine ⟨i, d, Nat.le_refl _, by omega, hfar, fun k hk hlt => by omega, Step.bind_of_error ?_⟩
      rw [displacement32, hnone]
      rfl
    · have hsome : (int32? (-((i * page : Nat) : Int))).isSome = true := by
        rw [int32?_isSome]
        omega
      obtain ⟨disp, hdisp⟩ := Option.isSome_iff_exists.mp hsome
      obtain ⟨j, hj, hlt, hout⟩ := h
      have hne : j ≠ i := by
        rintro rfl
        exact hfar hout
      obtain ⟨j', d', hj', hlt', hout', hfirst, hrun⟩ := ih (i := i + 1)
        { d with buffer := d.buffer.append (Instr.store true .rax (.based .rsp disp)).encode.bytes }
          ⟨j, by omega, by omega, hout⟩
      refine ⟨j', d', by omega, by omega, hout', fun k hk hlt => ?_, ?_⟩
      · by_cases hki : k = i
        · subst hki
          omega
        · exact hfirst k (by omega) hlt
      · have hfound : ofExcept (displacement32 (-((i * page : Nat) : Int))) d = .ok disp d := by
          rw [displacement32, hdisp]
          rfl
        exact (Step.bind_of_ok hfound).trans ((Step.bind_of_ok rfl).trans hrun)

theorem prologue_eq_error {d d' : Draft} {err : Error}
    (hbang : d.target.options.useStackBanging = true) (hpage : 0 < d.target.pageSize)
    (hrun : bangPages d.target.pageSize (d.target.touchedPages d.frame.size) 1
      { d with current := "prologue" } = .error err d') :
    prologue d = .error err d' := by
  have hbangStack : bangStack { d with current := "prologue" } = .error err d' := by
    refine (Step.get_bind _ _).trans ?_
    rw [Nat.max_eq_left hpage]
    exact hrun
  rw [prologue_run]
  refine Step.bind_of_error ((Step.get_bind _ _).trans ?_)
  rw [if_pos hbang]
  exact Step.bind_of_error hbangStack

end Lower

/-! ### Stores of the machine -/

namespace Machine

variable {machine : Machine} {a : Word} {n : Nat}

/-- What has been accessed so far: where, how many bytes, and whether they have been written. -/
def accessed (machine : Machine) : List (Word × Nat × Bool) :=
  machine.accesses.toList.map fun x => (x.addr, x.width, x.write)

/-- The address at this distance from the stack pointer. -/
def fromStack (machine : Machine) (disp : Int) : Word := machine.reg .rsp + BitVec.ofInt 64 disp

/-- The bytes of the words at these distances from the stack pointer. -/
def InWords (machine : Machine) (disps : List Int32) (a : Word) : Prop :=
  ∃ disp ∈ disps, (a - machine.fromStack disp.toInt).toNat < 8

theorem aluAt_sub_qword (a b : Word) (cf : Bool) : (aluAt .sub .qword a b cf).1 = a - b := by
  change (a.setWidth 64 - b.setWidth 64 - 0#64).setWidth 64 = a - b
  simp

/-- The new frame is below the old one. -/
theorem executes_subStack (imm : Int32) (s : Machine) (next : Word) :
    Executes (Instr.aluImm .sub true (.reg .rsp) imm).decoded next s fun c =>
      ∃ flags, c = { s with flags := flags }.setReg .rsp
        (s.reg .rsp - BitVec.ofInt 64 imm.toInt) := by
  have hne : AluOp.sub ≠ .cmp := nofun
  refine (executes_alu hne (readsSource_imm imm.toInt .qword)).mono fun _ c hc => ?_
  obtain ⟨flags, rfl⟩ := hc
  refine ⟨flags, ?_⟩
  rw [merge_qword, aluAt_sub_qword, low_qword]

/-- An access to a protected range faults. -/
theorem faultsAt_of_protected {r : AddressRange} (hr : r ∈ machine.protectedRanges)
    (hstart : r.start.toNat ≤ a.toNat) (hstop : a.toNat < r.stop.toNat) (hn : 0 < n)
    (hend : a.toNat + n < 2 ^ 64) : machine.faultsAt a n = true := by
  rw [faultsAt, Bool.or_eq_true, List.any_eq_true]
  refine .inr ⟨r, hr, ?_⟩
  rw [Bool.and_eq_true, decide_eq_true_iff, decide_eq_true_iff, BitVec.lt_def, BitVec.lt_def,
    BitVec.toNat_add, BitVec.toNat_ofNat]
  omega

theorem effectiveAddress_stack (disp : Int32) (next : Word) :
    machine.effectiveAddress (.based .rsp disp) next = machine.fromStack disp.toInt := by
  simp [effectiveAddress, Mem.based, fromStack, BitVec.add_comm]

theorem execute_store (m : Mem) (g : Gpr) (next : Word) :
    execute (.mov .qword (.mem m) (.rm (.reg g))) next machine =
      storeBytes (machine.effectiveAddress m next) 8 (low (machine.reg g) .qword) machine := rfl

theorem storeBytes_of_faults (h : machine.faultsAt a n = true) (v : Word) :
    storeBytes a n v machine = .error (.segv machine.pc a) machine := by
  refine Step.bind_of_error ?_
  unfold access
  rw [Step.get_bind, h]
  rfl

/-- A store leaves its record. -/
theorem storeBytes_of_accessible (h : machine.faultsAt a n = false) (v : Word) : ∃ machine',
    storeBytes a n v machine = .ok () machine' ∧ machine'.core = machine.core.stored a n v ∧
      machine'.rip = machine.rip ∧ machine'.accessed = machine.accessed ++ [(a, n, true)] := by
  have haccess : access a n true machine =
      .ok () { machine with accesses := machine.accesses.push ⟨machine.pc, a, n, true⟩ } := by
    unfold access
    rw [Step.get_bind, h]
    rfl
  refine ⟨_, Step.bind_of_ok haccess, rfl, rfl, ?_⟩
  simp [accessed]

end Machine

namespace Site.Hosts

variable {S : Site} {P : Machine → Prop} {s machine : Machine} {pre post : List Chunk}
  {final : Draft} {disp : Int32}

theorem step_touch (h : S.Hosts (pre ++ touch disp :: post) final)
    (hat : S.Stands (extent pre) P machine) :
    Machine.step machine = storeBytes (machine.fromStack disp.toInt) 8 (machine.reg .rax)
      (machine.fetched (Instr.store true .rax (.based .rsp disp)).decoded (touch disp).size) := by
  refine (h.step_plain hat).trans ((execute_store _ _ _).trans ?_)
  rw [low_qword, effectiveAddress_stack]
  rfl

theorem span_touch (h : S.Stands (extent pre) P machine) :
    S.Span (extent pre) (extent (pre ++ [touch disp])) machine.rip := by
  refine ⟨extent pre, Nat.le_refl _, ?_, h.rip⟩
  have : 0 < (touch disp).size :=
    Instr.length_pos (Instr.encodable_of_some rfl (encodable_based _ _))
  simpa using this

/-- A touch stores its word. -/
theorem walks_touch (h : S.Hosts (pre ++ touch disp :: post) final)
    (hat : S.Stands (extent pre) (· = s) machine)
    (hfaults : s.faultsAt (s.fromStack disp.toInt) 8 = false)
    (hclear : S.Clear (s.fromStack disp.toInt) 8) :
    ∃ machine', machine.Walks (S.Span (extent pre) (extent (pre ++ [touch disp]))) machine' ∧
      S.Stands (extent (pre ++ [touch disp]))
        (· = s.stored (s.fromStack disp.toInt) 8 (s.reg .rax)) machine' ∧
      machine'.accessed = machine.accessed ++ [(s.fromStack disp.toInt, 8, true)] := by
  obtain ⟨hloads, hrip, rfl⟩ := hat
  have hat : S.Stands (extent pre) (· = machine.core) machine := ⟨hloads, hrip, rfl⟩
  let fetched :=
    machine.fetched (Instr.store true .rax (.based .rsp disp)).decoded (touch disp).size
  have hfaults : fetched.faultsAt (machine.fromStack disp.toInt) 8 = false := hfaults
  obtain ⟨machine', hrun, hcore, hrip', haccessed⟩ :=
    storeBytes_of_accessible hfaults (machine.reg .rax)
  refine ⟨machine', .step (span_touch hat) ((h.step_touch hat).trans hrun) (.refl _),
    ⟨?_, ?_, hcore⟩, haccessed⟩
  · refine Machine.loaded_core.mp (hcore ▸ ?_)
    exact hclear.loads (Machine.loaded_core.mpr hloads)
      (keeps_stored (G := fun _ => False) (X := fun _ => False) (fun _ => id) _)
  · rw [hrip']
    change machine.rip + _ = _
    rw [hrip, Site.addressOf_add]
    simp

/-- A touch faults where its word cannot be accessed. -/
theorem stops_touch (h : S.Hosts (pre ++ touch disp :: post) final)
    (hat : S.Stands (extent pre) P machine)
    (hfaults : machine.faultsAt (machine.fromStack disp.toInt) 8 = true) : ∃ machine',
      Machine.step machine = .error (.segv machine.rip (machine.fromStack disp.toInt)) machine' ∧
      machine'.core = machine.core := by
  let fetched :=
    machine.fetched (Instr.store true .rax (.based .rsp disp)).decoded (touch disp).size
  have hfaults : fetched.faultsAt (machine.fromStack disp.toInt) 8 = true := hfaults
  exact ⟨fetched, (h.step_touch hat).trans (storeBytes_of_faults hfaults _), rfl⟩

/-- Touches store their words one after the other, where all of these can be accessed. -/
theorem walks_touches {disps : List Int32} (h : S.Hosts (pre ++ (disps.map touch ++ post)) final)
    (hat : S.Stands (extent pre) (· = s) machine)
    (hfaults : ∀ disp ∈ disps, s.faultsAt (s.fromStack disp.toInt) 8 = false)
    (hclear : ∀ disp ∈ disps, S.Clear (s.fromStack disp.toInt) 8) :
    ∃ machine', machine.Walks (S.Span (extent pre) (extent (pre ++ disps.map touch))) machine' ∧
      S.Stands (extent (pre ++ disps.map touch))
        (s.Keeps (fun _ => False) (fun _ => False) (s.InWords disps)) machine' ∧
      machine'.accessed = machine.accessed ++ disps.map fun disp =>
        (s.fromStack disp.toInt, 8, true) := by
  induction disps generalizing pre s machine with
  | nil =>
    rw [List.map_nil, List.append_nil]
    exact ⟨machine, .refl _, hat.mono fun c hc => hc ▸ .refl c, (List.append_nil _).symm⟩
  | cons disp disps ih =>
    obtain ⟨hdisp, hfaults⟩ := List.forall_mem_cons.mp hfaults
    obtain ⟨hdispClear, hclear⟩ := List.forall_mem_cons.mp hclear
    obtain ⟨m₁, hwalks₁, hat₁, haccessed₁⟩ := h.walks_touch hat hdisp hdispClear
    obtain ⟨m₂, hwalks₂, hat₂, haccessed₂⟩ := ih (by simpa using h) hat₁ hfaults hclear
    refine ⟨m₂, ?_, ?_, ?_⟩
    · rw [List.append_assoc] at hwalks₂
      exact (Span.grow (Nat.le_refl _) (by simp) hwalks₁).trans
        (Span.grow (by simp) (Nat.le_refl _) hwalks₂)
    · rw [List.append_assoc] at hat₂
      refine hat₂.mono fun c hc => .trans ?_ (hc.mono (fun _ => id) (fun _ => id) ?_)
      · exact keeps_stored (fun b hb => ⟨disp, List.mem_cons_self, hb⟩) _
      · rintro a ⟨disp', hdisp', ha⟩
        exact ⟨disp', List.mem_cons_of_mem _ hdisp', ha⟩
    · rw [haccessed₂, haccessed₁, List.append_assoc]
      rfl

/-- The first touch of a word that cannot be accessed faults, with all registers as they have been
before. -/
theorem stops_touches {disps : List Int32} (h : S.Hosts (pre ++ (disps.map touch ++ post)) final)
    (hat : S.Stands (extent pre) (· = s) machine)
    (hfaults : ∃ disp ∈ disps, s.faultsAt (s.fromStack disp.toInt) 8 = true)
    (hclear : ∀ disp ∈ disps, S.Clear (s.fromStack disp.toInt) 8) : ∃ disp ∈ disps, ∃ m₁ m₂,
      machine.Walks (S.Span (extent pre) (extent (pre ++ disps.map touch))) m₁ ∧
      S.Span (extent pre) (extent (pre ++ disps.map touch)) m₁.rip ∧
      Machine.step m₁ = .error (.segv m₁.rip (s.fromStack disp.toInt)) m₂ ∧ m₂.core = m₁.core ∧
      s.Keeps (fun _ => False) (fun _ => False) (s.InWords disps) m₁.core := by
  obtain ⟨disp, hdisp⟩ := Option.isSome_iff_exists.mp (List.find?_isSome.mpr hfaults)
  obtain ⟨hfault, front, back, rfl, hfront⟩ := List.find?_eq_some_iff_append.mp hdisp
  have hfrontHosts : S.Hosts (pre ++ (front.map touch ++ (touch disp :: (back.map touch ++ post))))
    final := by simpa using h
  obtain ⟨m₁, hwalks, hat₁, -⟩ :=
    hfrontHosts.walks_touches hat (fun x hx => by simpa using hfront x hx)
    fun x hx => hclear x (by simp [hx])
  have hhosts : S.Hosts ((pre ++ front.map touch) ++ touch disp :: (back.map touch ++ post))
    final := by simpa using h
  have hstack : m₁.fromStack disp.toInt = s.fromStack disp.toInt :=
    congrArg (· + _) (hat₁.core.gprs .rsp id)
  obtain ⟨m₂, hstep, hcore⟩ :=
    hhosts.stops_touch hat₁ ((hat₁.core.faultsAt _ _).trans (hstack ▸ hfault))
  have hinside : S.Span (extent (pre ++ front.map touch))
      (extent ((pre ++ front.map touch) ++ [touch disp])) m₁.rip :=
    span_touch hat₁
  refine ⟨disp, by simp, m₁, m₂, Span.grow (Nat.le_refl _) (by simp) hwalks,
    hinside.mono (by simp) (by simp), hstack ▸ hstep, hcore,
    hat₁.core.mono (fun _ => id) (fun _ => id) fun a ⟨x, hx, ha⟩ => ⟨x, by simp [hx], ha⟩⟩

end Site.Hosts

/-! ### Pages -/

namespace Machine

variable {machine : Machine} {page count i k : Nat}

/-- The address that is touched on the page numbered `i`, counted downwards from the stack
pointer. -/
def touchAddress (machine : Machine) (page i : Nat) : Word :=
  machine.reg .rsp - BitVec.ofNat 64 (i * page)

theorem fromStack_neg (machine : Machine) (n : Nat) :
    machine.fromStack (-(n : Int)) = machine.reg .rsp - BitVec.ofNat 64 n := by
  rw [fromStack, BitVec.ofInt_neg, BitVec.ofInt_natCast, BitVec.sub_eq_add_neg]

/-- Below the stack pointer the touches lie one page apart. -/
theorem touchAddress_div (hpage : 0 < page) (hi : i * page ≤ 2 ^ 31)
    (hk : (k + 1) * page ≤ (machine.reg .rsp).toNat) :
    (machine.touchAddress page i).toNat / page = k ↔ i + k = (machine.reg .rsp).toNat / page := by
  have hlt := (machine.reg .rsp).isLt
  rw [Nat.div_eq_iff hpage, eq_comm, Nat.div_eq_iff hpage, touchAddress,
    BitVec.toNat_sub, BitVec.toNat_ofNat]
  rw [Nat.add_mul] at hk ⊢
  obtain hgt | hle := Nat.lt_or_ge (machine.reg .rsp).toNat (i * page)
  · omega
  · omega

/-- The pages between the deepest touch and the stack pointer are touched once each. -/
theorem existsUnique_touchAddress (hpage : 0 < page)
    (hreach : ∀ i, 1 ≤ i → i ≤ count → i * page ≤ 2 ^ 31)
    (hdeep : (machine.reg .rsp).toNat ≤ (k + count) * page)
    (hbelow : (k + 1) * page ≤ (machine.reg .rsp).toNat) :
    ∃! i, (1 ≤ i ∧ i ≤ count) ∧ (machine.touchAddress page i).toNat / page = k := by
  have hdiv : ∀ i, 1 ≤ i ∧ i ≤ count →
      ((machine.touchAddress page i).toNat / page = k ↔
        i + k = (machine.reg .rsp).toNat / page) := fun i hi =>
    touchAddress_div hpage (hreach i hi.1 hi.2) hbelow
  have hlow : k + 1 ≤ (machine.reg .rsp).toNat / page := (Nat.le_div_iff_mul_le hpage).mpr hbelow
  have hhigh : (machine.reg .rsp).toNat / page ≤ k + count :=
    Nat.div_le_of_le_mul (by rwa [Nat.mul_comm])
  have hfirst : 1 ≤ (machine.reg .rsp).toNat / page - k ∧
    (machine.reg .rsp).toNat / page - k ≤ count := by omega
  refine ⟨_, ⟨hfirst, (hdiv _ hfirst).mpr (by omega)⟩, ?_⟩
  rintro i ⟨hi, hpageOf⟩
  have := (hdiv i hi).mp hpageOf
  omega

/-- A touch of a protected page faults. -/
theorem faultsAt_of_touched (hpage : 8 ≤ page) (hfirst : 1 ≤ i) (hi : i * page ≤ 2 ^ 31)
    (hk : (k + 1) * page ≤ (machine.reg .rsp).toNat)
    (hpageOf : (machine.touchAddress page i).toNat / page = k) {r : AddressRange}
    (hr : r ∈ machine.protectedRanges) (hstart : r.start.toNat ≤ k * page)
    (hstop : (k + 1) * page ≤ r.stop.toNat) :
    machine.faultsAt (machine.touchAddress page i) 8 = true := by
  have hwithin := (Nat.div_eq_iff (by omega)).mp hpageOf
  have hfar : 8 ≤ i * page := Nat.le_trans hpage (Nat.le_mul_of_pos_left page hfirst)
  have haddress : (machine.touchAddress page i).toNat =
      (2 ^ 64 - i * page + (machine.reg .rsp).toNat) % 2 ^ 64 := by
    rw [touchAddress, BitVec.toNat_sub, BitVec.toNat_ofNat,
      Nat.mod_eq_of_lt (by omega : i * page < 2 ^ 64)]
  have hlt := (machine.reg .rsp).isLt
  rw [Nat.add_mul] at hk hstop
  exact faultsAt_of_protected hr (by omega) (by omega) (by omega) (by omega)

end Machine

namespace Lower.PageTouches

variable {page count i : Nat} {disps : List Int32} {disp : Int32}

theorem exists_touchAddress (h : PageTouches page count 1 disps) (hdisp : disp ∈ disps)
    (machine : Machine) :
    ∃ i, (1 ≤ i ∧ i ≤ count) ∧ machine.fromStack disp.toInt = machine.touchAddress page i := by
  obtain ⟨i, hle, hlt, hi⟩ := h.exists_of_mem hdisp
  exact ⟨i, ⟨hle, Nat.lt_one_add_iff.mp hlt⟩, by rw [hi, fromStack_neg, touchAddress]⟩

theorem exists_fromStack (h : PageTouches page count 1 disps) (hi : 1 ≤ i ∧ i ≤ count)
    (machine : Machine) :
    ∃ disp ∈ disps, machine.fromStack disp.toInt = machine.touchAddress page i := by
  obtain ⟨disp, hdisp, heq⟩ := h.exists_mem hi.1 (Nat.lt_one_add_iff.mpr hi.2)
  exact ⟨disp, hdisp, by rw [heq, fromStack_neg, touchAddress]⟩

end Lower.PageTouches

/-- The frame is allocated by the next instruction. -/
theorem Site.Hosts.step_allocate {S : Site} {P : Machine → Prop} {machine : Machine}
    {pre rest post : List Chunk} {final : Draft} {size : Nat}
    (h : S.Hosts (pre ++ (rest ++ post)) final) (hrest : Allocates size rest)
    (hat : S.Stands (extent pre) P machine) :
    size = 0 ∧ extent pre = extent (pre ++ rest) ∨
    0 < size ∧ extent pre < extent (pre ++ rest) ∧ ∃ machine',
      Machine.step machine = .ok () machine' ∧
      machine'.reg .rsp = machine.reg .rsp - BitVec.ofNat 64 size := by
  obtain ⟨hsize, rfl⟩ | ⟨hsize, imm, stores, himm, rfl⟩ := hrest
  · exact .inl ⟨hsize, by rw [List.append_nil]⟩
  · obtain ⟨_, machine', hrun, ⟨flags, hcore⟩, -⟩ :=
      executes_subStack imm machine.core _ _ (core_fetched machine _ _)
    refine .inr ⟨hsize, ?_, machine', (h.step_plain hat).trans hrun, ?_⟩
    · have : 0 < (Instr.aluImm .sub true (.reg .rsp) imm).encode.length :=
        Instr.length_pos (Instr.encodable_of_none rfl)
      simp
      omega
    · have hreg : machine'.reg .rsp = machine.reg .rsp - BitVec.ofInt 64 imm.toInt :=
        (congrArg (reg · .rsp) hcore).trans (reg_setReg_self _ _ _)
      rw [hreg, himm, BitVec.ofInt_natCast]

/-! ### The prologue of an installed method -/

namespace Installation

/-- Pages that the prologue touches. -/
def touchedPages (I : Installation) : Nat := I.target.touchedPages I.source.frame.size

/-- What the prologue does before it allocates the frame, from this state on. -/
structure Bangs (I : Installation) (stop : Nat) (machine : Machine) : Prop where
  /-- One word is stored to each page, the highest page first, and all registers stay. The frame is
  allocated right after that; an empty one is there already. -/
  stores : (∀ i, 1 ≤ i → i ≤ I.touchedPages →
    machine.faultsAt (machine.touchAddress I.target.pageSize i) 8 = false) →
    ∃ p m₁, machine.Walks (I.site.Span 0 p) m₁ ∧ m₁.rip = I.base + BitVec.ofNat 64 p ∧
      (∀ g, m₁.reg g = machine.reg g) ∧ (∀ x, m₁.xmmReg x = machine.xmmReg x) ∧
      m₁.accessed = machine.accessed ++
        (List.range' 1 I.touchedPages).map
          (fun i => (machine.touchAddress I.target.pageSize i, 8, true)) ∧
      (I.source.frame.size = 0 ∧ p = stop ∨
        0 < I.source.frame.size ∧ p < stop ∧ ∃ m₂, Machine.step m₁ = .ok () m₂ ∧
        m₂.reg .rsp = machine.reg .rsp - BitVec.ofNat 64 I.source.frame.size)
  /-- No page between the deepest touch and the stack pointer is left out, and none is touched
  twice. -/
  once : ∀ k, (machine.reg .rsp).toNat ≤ (k + I.touchedPages) * I.target.pageSize →
    (k + 1) * I.target.pageSize ≤ (machine.reg .rsp).toNat → ∃! i, (1 ≤ i ∧ i ≤ I.touchedPages) ∧
      (machine.touchAddress I.target.pageSize i).toNat / I.target.pageSize = k
  /-- If such a page is protected, the prologue faults at a touch, with all registers as they have
  been on entry. -/
  faults : ∀ k, (machine.reg .rsp).toNat ≤ (k + I.touchedPages) * I.target.pageSize →
    (k + 1) * I.target.pageSize ≤ (machine.reg .rsp).toNat → ∀ r ∈ machine.protectedRanges,
      r.start.toNat ≤ k * I.target.pageSize → (k + 1) * I.target.pageSize ≤ r.stop.toNat →
      ∃ i m₁ m₂, (1 ≤ i ∧ i ≤ I.touchedPages) ∧ machine.Walks (I.site.Span 0 stop) m₁ ∧
      I.site.Span 0 stop m₁.rip ∧
        Machine.step m₁ = .error (.segv m₁.rip (machine.touchAddress I.target.pageSize i)) m₂ ∧
        (∀ g, m₂.reg g = machine.reg g) ∧ ∀ x, m₂.xmmReg x = machine.xmmReg x

variable {I : Installation} {stop : Nat} {machine : Machine}

theorem HasPrologue.hosts_touches (h : I.HasPrologue stop)
    (hbang : I.target.options.useStackBanging = true) (hpage : 0 < I.target.pageSize) :
    ∃ (pre post : List Chunk) (disps : List Int32) (rest : List Chunk) (final : Draft),
      I.site.Hosts (pre ++ (disps.map touch ++ (rest ++ post))) final ∧
      PageTouches I.target.pageSize I.touchedPages 1 disps ∧
      Allocates I.source.frame.size rest ∧ extent pre = 0 ∧
      extent (pre ++ (disps.map touch ++ rest)) = stop := by
  obtain ⟨pre, new, post, final, hhosts, ⟨disps, rest, rfl, htouches, hrest⟩,
    hpre, hstop⟩ := h.hosts
    (K := TouchesFirst I.target I.source.frame) fun C hframe htarget =>
      hframe ▸ htarget ▸
        lays_enterFrame (htarget ▸ hbang) (htarget ▸ hpage) (hframe ▸ I.fault?_frame)
  rw [List.append_assoc] at hhosts
  exact ⟨pre, post, disps, rest, final, hhosts, htouches, hrest, hpre, hstop⟩

/-- The touches of an installed method are within reach. -/
theorem HasPrologue.touch_le (h : I.HasPrologue stop)
    (hbang : I.target.options.useStackBanging = true) (hpage : 0 < I.target.pageSize) {i : Nat}
    (hi : 1 ≤ i) (hle : i ≤ I.touchedPages) : i * I.target.pageSize ≤ 2 ^ 31 := by
  obtain ⟨-, -, disps, -, -, -, htouches, -⟩ := h.hosts_touches hbang hpage
  exact htouches.le_reach hi (Nat.lt_one_add_iff.mpr hle)

/-- From its start on, an installed prologue touches the pages in order, or faults at a touch. -/
theorem HasPrologue.bangs (h : I.HasPrologue stop) (hbang : I.target.options.useStackBanging = true)
    (hpage : 8 ≤ I.target.pageSize) (hloaded : machine.Loaded I.base I.image)
    (hrip : machine.rip = I.base)
    (hclear : ∀ i, 1 ≤ i → i ≤ I.touchedPages →
      I.site.Clear (machine.touchAddress I.target.pageSize i) 8) :
    I.Bangs stop machine := by
  have hreach : ∀ i, 1 ≤ i → i ≤ I.touchedPages → i * I.target.pageSize ≤ 2 ^ 31 := fun i hi hle =>
    h.touch_le hbang (by omega) hi hle
  obtain ⟨pre, post, disps, rest, final, hhosts, htouches, hrest, hpre, rfl⟩ :=
    h.hosts_touches hbang (by omega)
  have hat : I.site.Stands (extent pre) (· = machine.core) machine :=
    ⟨hloaded, by simp [hrip, hpre, Site.addressOf, site], rfl⟩
  have hclear : ∀ disp ∈ disps, I.site.Clear (machine.core.fromStack disp.toInt) 8 := by
    intro disp hdisp
    obtain ⟨i, ⟨hle, hlt⟩, haddress⟩ := htouches.exists_touchAddress hdisp machine.core
    exact haddress ▸ hclear i hle hlt
  refine ⟨fun haccessible => ?_, fun k => existsUnique_touchAddress (by omega) hreach,
    fun k hdeep hbelow r hr hstart hstop => ?_⟩
  · have hfaults :
        ∀ disp ∈ disps, machine.core.faultsAt (machine.core.fromStack disp.toInt) 8 = false := by
      intro disp hdisp
      obtain ⟨i, ⟨hle, hlt⟩, haddress⟩ := htouches.exists_touchAddress hdisp machine.core
      exact haddress ▸ haccessible i hle hlt
    obtain ⟨m₁, hwalks, hat₁, haccessed⟩ := hhosts.walks_touches hat hfaults hclear
    have hstack : m₁.reg .rsp = machine.reg .rsp := hat₁.core.gprs .rsp id
    refine ⟨_, m₁, hpre ▸ hwalks, hat₁.rip, fun g => hat₁.core.gprs g id,
      fun x => hat₁.core.xmms x id, ?_, ?_⟩
    · rw [haccessed, htouches.map_eq fun v => (machine.core.fromStack v, 8, true)]
      simp only [fromStack_neg]
      rfl
    · have hhosts' : I.site.Hosts ((pre ++ disps.map touch) ++ (rest ++ post)) final := by
        rwa [List.append_assoc]
      have hallocates := hhosts'.step_allocate hrest hat₁
      rwa [hstack, List.append_assoc] at hallocates
  · obtain ⟨i, ⟨hi, hpageOf⟩, -⟩ := existsUnique_touchAddress (by omega) hreach hdeep hbelow
    obtain ⟨disp, hdisp, hstack⟩ := htouches.exists_fromStack hi machine.core
    have hfault :=
      faultsAt_of_touched hpage hi.1 (hreach i hi.1 hi.2) hbelow hpageOf hr hstart hstop
    obtain ⟨disp', hdisp', m₁, m₂, hwalks, hinside, hstep, hcore, hkeeps⟩ :=
      hhosts.stops_touches hat ⟨disp, hdisp, hstack ▸ hfault⟩ hclear
    obtain ⟨i', hi', haddress⟩ := htouches.exists_touchAddress hdisp' machine.core
    have hgrow :
        extent (pre ++ disps.map touch) ≤ extent (pre ++ (disps.map touch ++ rest)) := by simp
    refine ⟨i', m₁, m₂, hi', hwalks.mono fun _ => Site.Span.mono (Nat.zero_le _) hgrow,
      hinside.mono (Nat.zero_le _) hgrow, haddress ▸ hstep, fun g => ?_, fun x => ?_⟩
    · exact (congrArg (reg · g) hcore).trans (hkeeps.gprs g id)
    · exact (congrArg (xmmReg · x) hcore).trans (hkeeps.xmms x id)

end Installation

/-- Where a touch is out of reach, the compilation fails with the distance of the first such
touch. -/
theorem compile_eq_error_of_touch {target : Target} {source : MethodSource} {d before : Draft}
    {i : Nat} (hbang : target.options.useStackBanging = true) (hpage : 0 < target.pageSize)
    (hstart : Draft.start target source.frame source.name source.id = .ok d)
    (hprepare : preparation source.constants source.ops d = .ok () before) (hi : 1 ≤ i)
    (hle : i ≤ target.touchedPages source.frame.size) (hfar : 2 ^ 31 < i * target.pageSize) :
    ∃ j, 1 ≤ j ∧ j ≤ target.touchedPages source.frame.size ∧ 2 ^ 31 < j * target.pageSize ∧
      (∀ k, 1 ≤ k → k < j → k * target.pageSize ≤ 2 ^ 31) ∧
      (compile target source).1 =
        .error (.displacementOutOfRange (-((j * target.pageSize : Nat) : Int))) := by
  have hsources : Source.prologue :: source.ops.map .operation =
    [] ++ Source.prologue :: source.ops.map .operation := rfl
  have hreach : Reaches source.constants source.ops d .prologue before :=
    .front hsources ((Step.bind_of_ok hprepare).trans rfl)
  have harrived := hreach.arrived (.start hstart)
  obtain rfl := harrived.target
  rw [← harrived.frame] at hle ⊢
  obtain ⟨j, d', hj, hlt, hout, hfirst, hrun⟩ :=
    bangPages_eq_error { before with current := "prologue" }
      ⟨i, hi, Nat.lt_one_add_iff.mpr hle, hfar⟩
  have hprologue := prologue_eq_error hbang hpage hrun
  have hmethod := hreach.error hprologue
  exact ⟨j, hj, by omega, hout, hfirst, compile_error_of_method hstart hmethod⟩

/-- With stack banging on, an installed method touches the stack down to the end of its frame and of
the shadow zone, and leaves out no page. If not all of the touches are within reach, there is no
method. -/
theorem banging_covers_pages (target : Target) (source : MethodSource)
    (hbang : target.options.useStackBanging = true) (hpage : 8 ≤ target.pageSize) :
    source.frame.size + target.options.stackShadowPages * target.pageSize ≤
      target.touchedPages source.frame.size * target.pageSize ∧
    (∀ I : Installation, I.target = target → I.source = source →
      ∃ stop, I.HasPrologue stop ∧ ∀ machine : Machine,
      machine.Loaded I.base I.image → machine.rip = I.base →
      (∀ i, 1 ≤ i → i ≤ I.touchedPages →
        I.site.Clear (machine.touchAddress I.target.pageSize i) 8) → I.Bangs stop machine) ∧
    ∀ d before i, Draft.start target source.frame source.name source.id = .ok d →
      preparation source.constants source.ops d = .ok () before → 1 ≤ i →
      i ≤ target.touchedPages source.frame.size →
      2 ^ 31 < i * target.pageSize → ∃ j, 1 ≤ j ∧ j ≤ target.touchedPages source.frame.size ∧
      2 ^ 31 < j * target.pageSize ∧
        (∀ k, 1 ≤ k → k < j → k * target.pageSize ≤ 2 ^ 31) ∧
        (compile target source).1 =
          .error (.displacementOutOfRange (-((j * target.pageSize : Nat) : Int))) := by
  refine ⟨target.size_le_touchedPages _ (by omega), ?_,
    fun d before i hstart hprepare hi hle hfar =>
    compile_eq_error_of_touch hbang (by omega) hstart hprepare hi hle hfar⟩
  rintro I rfl rfl
  obtain ⟨stop, hprologue⟩ := I.exists_hasPrologue
  exact ⟨stop, hprologue, fun machine hloaded hrip hclear =>
    hprologue.bangs hbang hpage hloaded hrip hclear⟩

/-- A frame of three and a half pages, with two shadow pages: six touches. With pages of almost four
gigabytes the first touch is out of reach. -/
theorem exists_banged :
    (∃ (I : Installation) (stop p : Nat) (machine m₁ : Machine), I.HasPrologue stop ∧
      I.source.frame.size = 14336 ∧
      machine.reg .rsp = 0x800000 ∧ machine.Walks (I.site.Span 0 p) m₁ ∧
      m₁.accessed = [(0x7FF000, 8, true), (0x7FE000, 8, true),
        (0x7FD000, 8, true), (0x7FC000, 8, true), (0x7FB000, 8, true), (0x7FA000, 8, true)]) ∧
    (compile ⟨Options.standard, ⟨true, true⟩, 4294967295⟩
      ⟨"test", none, .empty, [], [.ret none]⟩).1 =
      .error (.displacementOutOfRange (-4294967295)) := by
  constructor
  · let target : Target := ⟨Options.standard, ⟨true, true⟩, 4096⟩
    let source : MethodSource := ⟨"test", none, .withSize 14336 [], [], [.ret none]⟩
    let machine : Machine := Machine.initial.setReg .rsp 0x800000
    obtain ⟨I, htarget, hsource, hbase, hlow, hhigh⟩ :=
      Installation.exists_installed target source 0x10000000 (by decide +kernel)
    obtain ⟨-, hbangs, -⟩ := banging_covers_pages target source rfl (by decide)
    obtain ⟨stop, hprologue, hbangs⟩ := hbangs I htarget hsource
    have hpages : I.touchedPages = 6 := by
      rw [Installation.touchedPages, htarget, hsource]
      decide
    have hsize : I.target.pageSize = 4096 := by rw [htarget]
    have haddress : ∀ i, (I.enter machine 0).touchAddress I.target.pageSize i =
        0x800000 - BitVec.ofNat 64 (i * 4096) := by
      rw [hsize]
      exact fun i => rfl
    have hnear : ∀ i, 1 ≤ i → i ≤ I.touchedPages →
        ((I.enter machine 0).touchAddress I.target.pageSize i).toNat = 0x800000 - i * 4096 := by
      intro i hi hle
      have hstack : (0x800000 : Word).toNat = 0x800000 := rfl
      rw [haddress, BitVec.toNat_sub, BitVec.toNat_ofNat, hstack]
      omega
    have hclear : ∀ i, 1 ≤ i → i ≤ I.touchedPages →
        I.site.Clear ((I.enter machine 0).touchAddress I.target.pageSize i) 8 := by
      intro i hi hle
      refine Site.clear_of_below ?_ hhigh
      rw [hnear i hi hle, Installation.site, hbase]
      change 0x800000 - i * 4096 + 8 ≤ 0x10000000
      omega
    have haccessible : ∀ i, 1 ≤ i → i ≤ I.touchedPages →
        (I.enter machine 0).faultsAt
          ((I.enter machine 0).touchAddress I.target.pageSize i) 8 = false := by
      intro i hi hle
      have habove : ¬ (I.enter machine 0).touchAddress I.target.pageSize i < nullGuard := by
        rw [BitVec.lt_def, hnear i hi hle]
        change ¬ 0x800000 - i * 4096 < 0x10000
        omega
      rw [faultsAt, decide_eq_false habove]
      rfl
    obtain ⟨p, m₁, hwalks, -, -, -, haccessed, -⟩ :=
      (hbangs (I.enter machine 0) (Installation.loaded_enter _ _) (by simp [Installation.enter])
        hclear).stores haccessible
    refine ⟨I, stop, p, _, m₁, hprologue, by rw [hsource]; rfl, rfl, hwalks, ?_⟩
    have hnone : (I.enter machine 0).accessed = [] := rfl
    simp only [haccessed, hnone, haddress, hpages]
    decide
  · let target : Target := ⟨Options.standard, ⟨true, true⟩, 4294967295⟩
    let source : MethodSource := ⟨"test", none, .empty, [], [.ret none]⟩
    obtain ⟨-, -, hfails⟩ := banging_covers_pages target source rfl (by decide)
    obtain ⟨d, hd⟩ : ∃ d, Draft.start target source.frame source.name source.id = .ok d := ⟨_, rfl⟩
    obtain ⟨journal, rfl⟩ := Draft.start_eq_ok hd
    obtain ⟨before, hbefore⟩ : ∃ before, preparation source.constants source.ops
      ⟨target, source.frame, .empty, .empty, .empty, #[], journal, "prologue"⟩ =
        .ok () before := ⟨_, rfl⟩
    have hpages : target.touchedPages source.frame.size = 2 := by decide
    have hpage : target.pageSize = 4294967295 := rfl
    obtain ⟨j, hj, -, -, hfirst, hcompile⟩ :=
      hfails _ before 1 hd hbefore (by decide) (by rw [hpages]; decide) (by rw [hpage]; decide)
    obtain rfl : j = 1 := by
      by_contra hne
      have hnear := hfirst 1 (by decide) (by omega)
      rw [hpage] at hnear
      omega
    rw [hpage] at hcompile
    exact hcompile

end MachineCode
