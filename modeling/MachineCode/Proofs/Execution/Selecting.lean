import MachineCode.Proofs.Execution.Comparing
import MachineCode.Proofs.Execution.Installations
import MachineCode.Proofs.Execution.Moving

/-! Conditional moves. The first value is moved to the result, and the second one behind it if the
flags say so. -/
namespace MachineCode.Lower

open X64 Machine

/-! ### Whether the second value is taken -/

namespace Selection

/-- With these flags the second value is taken. -/
def takes (sel : Selection) (unorderedIsTrue : Option Bool) (flags : Flags) : Bool :=
  match unorderedIsTrue with
  | none => flags.cond (.ofCondition sel.takeSecond)
  | some unorderedIsTrue =>
    if flags.pf then unorderedIsTrue == sel.swapped
      else flags.cond (.ofCondition sel.takeSecond.toUnsigned)

theorem takes_none (sel : Selection) (flags : Flags) :
    sel.takes none flags = flags.cond (.ofCondition sel.takeSecond) := rfl

theorem takes_some (sel : Selection) (unorderedIsTrue : Bool) (flags : Flags) :
    sel.takes (some unorderedIsTrue) flags = if flags.pf then unorderedIsTrue == sel.swapped
      else flags.cond (.ofCondition sel.takeSecond.toUnsigned) := rfl

end Selection

theorem toUnsigned_negate (c : Condition) : c.negate.toUnsigned = c.toUnsigned.negate := by
  cases c <;> rfl

variable {cond : Condition} {trueValue falseValue result : Operand}

/-- The flags of a compare tell whether the condition holds. -/
theorem takes_eq (cond : Condition) {sel : Selection}
    (h : sel.takeSecond = if sel.swapped then cond else cond.negate) (x : Comparison) :
    sel.takes x.unorderedIsTrue x.flags = (x.holds cond == sel.swapped) := by
  have hholds : (∀ unorderedIsTrue, x ≠ .floats .unordered unorderedIsTrue) →
      x.holds sel.takeSecond = (x.holds cond == sel.swapped) := by
    intro hordered
    rw [h]
    cases sel.swapped with
    | true => simp
    | false => simp [Comparison.holds_negate hordered]
  cases x with
  | words w a b => exact (Comparison.cond_words _).trans (hholds nofun)
  | floats order unorderedIsTrue =>
    by_cases horder : order = .unordered
    · subst horder
      rfl
    · have hpf : (Comparison.floats order unorderedIsTrue).flags.pf = false := by
        simpa [Comparison.pf_floats] using horder
      rw [Comparison.unorderedIsTrue, Selection.takes_some, hpf, if_neg Bool.false_ne_true,
        Comparison.cond_floats horder]
      refine hholds fun _ heq => ?_
      cases heq
      exact horder rfl

/-- The flags of a compare make the move take the value that the condition asks for. -/
theorem takes_selection (x : Comparison) :
    let sel := selection cond trueValue falseValue result
    (if sel.takes x.unorderedIsTrue x.flags then sel.second else sel.first) =
      if x.holds cond then trueValue else falseValue := by
  dsimp only
  rw [takes_eq cond (by unfold selection; split <;> rfl)]
  unfold selection
  split <;> cases x.holds cond <;> rfl

/-! ### The branch around the second move -/

section Branch

variable {S : Site} {C : Context} {P Q : Assertion} {sel : Selection}
  {unorderedIsTrue : Option Bool} {second : Operand}

/-- Where the second value is not taken, the branch goes around its move. -/
theorem runs_selectByBranch
    (hmove : Runs S C (mov second result false)
      (fun s c => P s c ∧ sel.takes unorderedIsTrue c.flags = true) (fun _ => Q) noExit)
    (hkeep : ∀ s c, P s c → sel.takes unorderedIsTrue c.flags = false → Q s c) :
    Runs S C (selectByBranch sel second unorderedIsTrue result) P (fun _ => Q) noExit := by
  have hstays : ∀ {flags : Flags} {c : Condition} {v : Bool},
      flags.cond (.ofCondition c.negate) = v → flags.cond (.ofCondition c) = !v := by
    rintro flags c v rfl
    rw [Cond.ofCondition_negate, Flags.cond_invert, Bool.not_not]
  unfold selectByBranch
  refine runs_newLabel fun skip => ?_
  extract_lets keepFirst last
  let leave : Label → Assertion := fun l s c => l = skip ∧ Q s c
  -- Whatever leads to the second move where it is to be made, and to the end elsewhere.
  have hlast : ∀ x : Lower Unit, Runs S C x P
    (fun _ s c => P s c ∧ sel.takes unorderedIsTrue c.flags = true) leave →
      Runs S C (x >>= last) P (fun _ => Q) noExit := by
    intro x hx
    have hboth := hx.bind fun _ => hmove.mono (fun _ _ _ => id) (L := leave) fun _ _ _ => False.elim
    have := hboth.join (R := fun _ => Q) (L := noExit) (fun _ _ _ => id) fun _ _ _ h => .inr h
    rwa [bind_assoc] at this
  cases unorderedIsTrue with
  | none =>
    refine hlast _ ((runs_jcc _ skip).mono ?_ ?_)
    · rintro _ s c ⟨hP, hcond⟩
      exact ⟨hP, hstays hcond⟩
    · rintro l s c ⟨hl, hP, hcond⟩
      exact ⟨hl, hkeep s c hP (hstays hcond)⟩
  | some unorderedIsTrue =>
    refine runs_newLabel fun move => ?_
    let target : Label := if unorderedIsTrue != sel.swapped then skip else move
    let Taken : Assertion := fun s c => P s c ∧ sel.takes (some unorderedIsTrue) c.flags = true
    have hboth :
        Runs S C (jcc .p target >>= fun _ => jcc (.ofCondition keepFirst.toUnsigned) skip) P
        (fun _ => Taken) fun l s c => leave l s c ∨ l = move ∧ Taken s c := by
      refine ((runs_jcc .p target).mono (Q := fun _ s c => P s c ∧ c.flags.pf = false)
        (fun _ _ _ => id) ?_).bind
        fun _ => (runs_jcc _ skip).mono ?_ ?_
      · rintro _ s c ⟨rfl, hP, hpf⟩
        have hpf : c.flags.pf = true := hpf
        by_cases hfirst : (unorderedIsTrue != sel.swapped) = true
        · refine .inl ⟨if_pos hfirst, hkeep s c hP ?_⟩
          rw [Selection.takes_some, if_pos hpf]
          simpa using hfirst
        · refine .inr ⟨if_neg hfirst, hP, ?_⟩
          rw [Selection.takes_some, if_pos hpf]
          simpa using hfirst
      · rintro _ s c ⟨⟨hP, hpf⟩, hcond⟩
        refine ⟨hP, ?_⟩
        rw [Selection.takes_some, hpf, if_neg Bool.false_ne_true]
        exact hstays (toUnsigned_negate _ ▸ hcond)
      · rintro l s c ⟨rfl, ⟨hP, hpf⟩, hcond⟩
        refine .inl ⟨rfl, hkeep s c hP ?_⟩
        rw [Selection.takes_some, hpf, if_neg Bool.false_ne_true]
        exact hstays (toUnsigned_negate _ ▸ hcond)
    have := hlast _
      (hboth.join (R := fun _ => Taken) (L := leave) (fun _ _ _ => id) fun _ _ _ => id)
    rwa [bind_assoc, bind_assoc] at this

end Branch

/-! ### The move by the instruction -/

section Instruction

variable {S : Site} {C : Context} {src : Operand} {wide : Bool}

theorem fills_of_cmovWide? (h : cmovWide? src = some wide) (hmemory : ∀ r kind, src ≠ .reg r kind) :
    src.kind.isFloating = false ∧ ¬ src.kind.size < 4 ∧ wide = src.kind.isWord := by
  cases src with
  | reg r kind => exact absurd rfl (hmemory r kind)
  | const c => cases h
  | stack slot kind => cases kind <;> cases h <;> exact ⟨rfl, of_decide_eq_false rfl, rfl⟩
  | addr a =>
    obtain ⟨kind, base, index, scale, disp⟩ := a
    cases kind <;> cases h <;> exact ⟨rfl, of_decide_eq_false rfl, rfl⟩

/-- The register has received the value if the condition holds, and is as before at this width
elsewhere. -/
def Replaced (code : Cond) (wide : Bool) (dst : Gpr) (v : Word) : Assertion := fun s c =>
  ∃ result, c = s.setReg dst result ∧ result.setWidth (Width.ofWide wide).bits =
    (if s.flags.cond code then v else s.reg dst).setWidth (Width.ofWide wide).bits

theorem Replaced.reg_eq {code : Cond} {dst : Gpr} {v : Word} {s c : Machine}
    (h : Replaced code wide dst v s c) :
    (c.reg dst).setWidth (Width.ofWide wide).bits =
      (if s.flags.cond code then v else s.reg dst).setWidth (Width.ofWide wide).bits := by
  obtain ⟨result, rfl, hresult⟩ := h
  rw [reg_setReg_self, hresult]

theorem executes_replace {code : Cond} {dst : Gpr} {v next : Word} {s : Machine} {x : Rm}
    (h : s.ReadsRm next (.ofWide wide) v x) :
    Executes (Instr.cmov code wide dst x).decoded next s (Replaced code wide dst v s) := by
  refine (executes_cmov h).mono fun _ c hc => ⟨_, hc, ?_⟩
  rw [merge_ofWide, setWidth_low]
  split
  · rfl
  · rw [setWidth_low]

/-- The instruction takes the value if its condition holds. -/
theorem computes_cmov (code : Cond) (dst : Gpr) (h : cmovWide? src = some wide) :
    Computes S C (cmov code wide dst src) (S.Accessible C.frame · src) fun _ s c =>
      ∃ v, S.value? C.frame s src = some v ∧ (c.reg dst).setWidth (Width.ofWide wide).bits =
        (if s.flags.cond code then v else s.reg dst).setWidth (Width.ofWide wide).bits := by
  unfold cmov
  split
  · rename_i r kind
    refine (finds_gpr _).computes fun g hg => ?_
    refine (computes_emit (R := fun s => Replaced code wide dst (low (s.reg g) (.ofWide wide)) s)
      (Instr.encodable_of_none rfl) (fun s _ _ => executes_replace (readsRm_reg g _)) ?_).mono
        fun s _ hs => ⟨hs, ?_⟩
    · rintro s _ ⟨result, rfl, -⟩
      rfl
    · intro _ c hc
      refine ⟨_, Site.value?_gpr hg, hc.reg_eq.trans ?_⟩
      split <;> simp
  · rename_i hmemory
    obtain ⟨hfloat, hsize, rfl⟩ := fills_of_cmovWide? h hmemory
    obtain ⟨hbytes, hread⟩ := Kind.read_of_full hfloat hsize
    refine (finds_location src).computes fun l hl => Computes.discard ?_
    refine (computes_emitAt (i := fun m => .cmov code src.kind.isWord dst (.mem m))
      (R := fun s => Replaced code src.kind.isWord dst
        (s.loaded (S.place s l) src.kind.size) s) hl.2
      (fixed_of_place? hl.1) (fun _ => rfl) (fun _ _ => rfl) (fun s m next hs ha => ?_) ?_).mono
        fun s _ hs => ⟨hs, ?_⟩
    · have hfaults := hs l hl.1
      rw [← hbytes] at hfaults ⊢
      exact executes_replace (readsRm_mem ha hfaults)
    · rintro s _ ⟨result, rfl, -⟩
      rfl
    · intro _ c hc
      exact ⟨_, (Site.value?_place hl.1).trans (congrArg some (hread _)), hc.reg_eq⟩

end Instruction

/-! ### The second value stays -/

section Spared

variable {S : Site} {C : Context} {frame : Frame} {o second : Operand} {s c : Machine} {v : Word}

/-- A move to the result changes nothing that the operand is read from. -/
structure Spared (S : Site) (frame : Frame) (o result : Operand) (s : Machine) : Prop where
  gprs : ∀ g, o.Uses frame g → gpr? result ≠ some g ∧ (result.isRegister = false → g ≠ scratch)
  xmms : ∀ x, xmm? o = some x → xmm? result ≠ some x
  apart : ∀ l l', place? frame result = some l → place? frame o = some l' →
    ∀ k < o.kind.size, result.kind.size ≤ (S.place s l' + BitVec.ofNat 64 k - S.place s l).toNat

/-- What the operand is read from is as before. -/
structure Steady (S : Site) (frame : Frame) (o result : Operand) (s c : Machine) : Prop where
  value : S.value? frame c o = S.value? frame s o
  accessible : S.Accessible frame s o → S.Accessible frame c o

theorem Spared.steady (h : Spared S frame o result s) (hdelivers : S.Delivers frame result v s c) :
    Steady S frame o result s c := by
  have hgprs :
      ∀ g, o.Uses frame g → ¬ (gpr? result = some g ∨ result.isRegister = false ∧ g = scratch) := by
    rintro g hg (hres | ⟨hregister, rfl⟩)
    · exact (h.gprs g hg).1 hres
    · exact (h.gprs _ hg).2 hregister rfl
  refine ⟨Site.value?_keeps hdelivers.keeps hgprs (fun x hx => h.xmms x hx) ?_,
    fun haccessible => haccessible.keeps hdelivers.keeps hgprs⟩
  rintro l' hl' k hk ⟨l, hl, hlt⟩
  exact Nat.not_lt.mpr (h.apart l l' hl hl' k hk) hlt

/-- The flags matter to constants only. -/
theorem mov_of_memory {dst : Operand} (h : second.isMemory = true) (keepFlags keepFlags' : Bool) :
    mov second dst keepFlags = mov second dst keepFlags' := by
  cases second with
  | reg | const => cases h
  | stack | addr => cases dst <;> rfl

/-- The second value stays where it is, or it is loaded in front of all else. -/
theorem computes_preloaded {β : Type} {f : Operand → Lower β} {A : Machine → Prop}
    {R : β → Assertion}
    (hself : (∀ g, gpr? result = some g → ∀ l, place? C.frame second = some l →
      l.mem.uses g = false) → Computes S C (f second) A R)
    (hload : ∀ g, gpr? result = some g → gpr? second = none → Computes S C (do
      mov second (.reg scratch.register second.kind) true
      f (.reg scratch.register second.kind)) A R) :
    Computes S C (preloaded second result >>= f) A R := by
  unfold preloaded
  split
  · rename_i hnone
    rw [pure_bind]
    exact hself fun g hg => by cases hnone.symm.trans hg
  · rename_i res hres
    dsimp only
    split
    · rename_i hmemory
      rw [bind_assoc]
      refine (finds_location second).computes fun l hl => ?_
      split
      · rw [toScratch_bind, bind_assoc, mov_of_memory hmemory false true]
        simp only [pure_bind]
        exact hload res hres (Site.gpr?_of_place? hl.1)
      · rename_i huses
        rw [pure_bind]
        refine hself fun g hg l' hl' => ?_
        cases hres.symm.trans hg
        cases hl.1.symm.trans hl'
        simpa using huses
    · rename_i hmemory
      rw [pure_bind]
      refine hself fun g _ l hl => ?_
      cases second with
      | reg | const => cases hl
      | stack | addr => exact absurd rfl hmemory

end Spared

/-! ### Both values -/

/-- A 64-bit float is in no general register, where a move would cut it. -/
def Whole (o : Operand) : Prop := o.kind = .double → ∀ r, o.register? = some r → r.isGeneral = false

theorem Whole.ne_double {o : Operand} (h : Whole o) (g : Gpr)
    (hg : gpr? o = some g) : o.kind ≠ .double := by
  intro hdouble
  obtain ⟨r, hr, hgpr⟩ := register?_of_gpr? hg
  have hgeneral := h hdouble r hr
  rw [eq_register_of_gpr hgpr] at hgeneral
  cases hgeneral

theorem width_of_cmovWide? {o : Operand} {wide : Bool} (h : cmovWide? o = some wide)
    (hwhole : Whole o) :
    o.kind.width = .ofWide wide := by
  cases o with
  | reg r kind =>
    unfold cmovWide? at h
    dsimp only at h
    split at h <;> cases h
    rename_i hgeneral
    cases kind with
    | double => exact absurd ((hwhole rfl r rfl).symm.trans hgeneral) Bool.false_ne_true
    | _ => rfl
  | const c => cases h
  | stack | addr =>
    obtain ⟨hfloat, -, rfl⟩ := fills_of_cmovWide? h nofun
    exact Kind.width_eq_ofWide hfloat

section Select

variable {S : Site} {C : Context} {frame : Frame} {first o : Operand} {sel : Selection}
  {unorderedIsTrue : Option Bool} {s c : Machine}

/-- The first value can be moved to the result, and the other operand stays or nothing has to be
moved. -/
structure CanSelect (S : Site) (frame : Frame) (first o result : Operand) (s : Machine) : Prop where
  move : CanMove S frame first result s
  accessible : S.Accessible frame s o
  spared : Spared S frame o result s ∨ ∃ r kind kind', first = .reg r kind ∧ result = .reg r kind'

/-- The first value has been moved to the result. -/
structure FirstMoved (S : Site) (frame : Frame) (first o result : Operand)
    (s c : Machine) : Prop where
  first : ∃ v, S.value? frame s first = some v ∧ S.Holds frame s result v c
  value : S.value? frame c o = S.value? frame s o
  flags : c.flags = s.flags
  ready : CanMove S frame o result c
  place : ∀ l, place? frame result = some l → S.place c l = S.place s l

theorem computes_firstMove (hkind : result.kind = first.kind) (hexists : result.Exists)
    (hwhole : Whole first)
    (hscratch : ∀ l, place? C.frame result = some l → l.mem.uses scratch = false) :
    Computes S C (mov first result true) (CanSelect S C.frame first o result)
      fun _ => FirstMoved S C.frame first o result := by
  by_cases hsame : ∃ r kind kind', first = .reg r kind ∧ result = .reg r kind'
  · obtain ⟨r, kind, kind', rfl, rfl⟩ := hsame
    obtain rfl : kind' = kind := hkind
    rw [mov_self]
    refine (computes_pure ()).mono fun s _ hs => ⟨hs, ?_⟩
    rintro _ s ⟨-, rfl, -⟩
    obtain ⟨v, hv, hdelivers⟩ : ∃ v, S.value? C.frame s (.reg r kind') = some v ∧
        S.Delivers C.frame (.reg r kind') v s s := Site.delivers_self hexists
    exact ⟨⟨v, hv, hdelivers.holds⟩, rfl, rfl,
      canMove_reg hs.move.readable hs.accessible, fun _ _ => rfl⟩
  · refine (computes_mov hkind hexists hwhole.ne_double hscratch).mono fun s _ hs => ⟨hs.move, ?_⟩
    rintro _ c ⟨v, hv, hdelivers, hflags⟩
    have hsteady := (hs.spared.resolve_right hsame).steady hdelivers
    have hresult : ∀ l, place? C.frame result = some l → S.place c l = S.place s l := fun l hl =>
      hdelivers.keeps.place S fun g hg hchanged => by
        obtain hres | ⟨-, rfl⟩ := hchanged
        · cases (Site.place?_of_gpr? hres).symm.trans hl
        · rw [hscratch l hl] at hg
          cases hg
    refine ⟨⟨v, hv, hdelivers.holds⟩, hsteady.value, hflags rfl,
      ⟨hs.move.readable.keeps hdelivers.keeps, hsteady.accessible hs.accessible, ?_, ?_⟩, hresult⟩
    · intro l hl
      rw [hresult l hl, hdelivers.keeps.faultsAt]
      exact hs.move.target l hl
    · intro l hl
      rw [hresult l hl]
      exact hs.move.clear l hl

/-- The result holds the value of `o` or that of `first`. -/
def Chosen (S : Site) (frame : Frame) (first o result : Operand)
    (takes : Flags → Bool) : Assertion := fun s c =>
  ∃ v, S.value? frame s (if takes s.flags then o else first) = some v ∧ S.Holds frame s result v c

/-- The second move makes the choice. -/
theorem runs_secondMove (hkind : result.kind = o.kind) (hexists : result.Exists) (hwhole : Whole o)
    (hscratch : ∀ l, place? C.frame result = some l → l.mem.uses scratch = false) :
    Runs S C (selectByBranch sel o unorderedIsTrue result) (FirstMoved S C.frame first o result)
      (fun _ => Chosen S C.frame first o result (sel.takes unorderedIsTrue)) noExit := by
  refine runs_selectByBranch ((computes_mov hkind hexists hwhole.ne_double hscratch).runs ?_) ?_
  · rintro s c - ⟨hmoved, htakes⟩
    refine ⟨hmoved.ready, ?_⟩
    rintro _ c' ⟨v, hv, hdelivers, -⟩
    rw [hmoved.flags] at htakes
    refine ⟨v, ?_, hdelivers.holds.gpr, hdelivers.holds.xmm, fun l hl => ?_⟩
    · rw [if_pos htakes, ← hmoved.value, hv]
    · rw [← hmoved.place l hl]
      exact hdelivers.holds.memory l hl
  · intro s c hmoved htakes
    obtain ⟨v, hv, hholds⟩ := hmoved.first
    rw [hmoved.flags] at htakes
    exact ⟨v, by rw [htakes, if_neg Bool.false_ne_true, hv], hholds⟩

/-- The instruction makes the choice. -/
theorem runs_cmov {res : Gpr} {wide : Bool} (hres : gpr? result = some res)
    (hwide : cmovWide? o = some wide) (hkind : result.kind = o.kind) (hwhole : Whole o) :
    Runs S C (cmov (.ofCondition sel.takeSecond) wide res o) (FirstMoved S C.frame first o result)
      (fun _ => Chosen S C.frame first o result (sel.takes none)) noExit := by
  have hwidth : result.kind.width = .ofWide wide := by rw [hkind, width_of_cmovWide? hwide hwhole]
  refine (computes_cmov _ res hwide).runs fun s c _ hmoved => ⟨hmoved.ready.source, ?_⟩
  rintro _ c' ⟨v, hv, hresult⟩
  rw [hmoved.flags] at hresult
  obtain ⟨v₁, hv₁, hholds⟩ := hmoved.first
  have hgpr :
      ∀ v', (c'.reg res).setWidth (Width.ofWide wide).bits = v'.setWidth (Width.ofWide wide).bits →
      S.Holds C.frame s result v' c' := by
    intro v' hv'
    refine ⟨fun g hg => ?_, fun x hx => ?_, fun l hl => ?_⟩
    · cases hres.symm.trans hg
      rw [hwidth]
      exact low_eq_iff.mpr hv'
    · cases (Site.gpr?_of_xmm? hx).symm.trans hres
    · cases (Site.place?_of_gpr? hres).symm.trans hl
  cases htakes : sel.takes none s.flags with
  | true =>
    rw [← Selection.takes_none, htakes, if_pos rfl] at hresult
    exact ⟨v, by rw [htakes, if_pos rfl, ← hmoved.value, hv], hgpr v hresult⟩
  | false =>
    rw [← Selection.takes_none, htakes, if_neg Bool.false_ne_true] at hresult
    refine ⟨v₁, by rw [htakes, if_neg Bool.false_ne_true, hv₁], hgpr v₁ (hresult.trans ?_)⟩
    have hlow := hholds.gpr res hres
    rw [hwidth] at hlow
    exact low_eq_iff.mp hlow

/-- The two moves in a row. -/
theorem computes_bothMoves (hfirst : result.kind = first.kind) (hother : result.kind = o.kind)
    (hexists : result.Exists) (hwhole : Whole first) (hwhole' : Whole o)
    (hscratch : ∀ l, place? C.frame result = some l → l.mem.uses scratch = false) :
    Computes S C (do
      mov first result true
      let hasCmov := (← get).target.features.cmov && unorderedIsTrue.isNone
      match gpr? result, cmovWide? o with
      | some res, some wide =>
        if hasCmov then cmov (.ofCondition sel.takeSecond) wide res o
        else selectByBranch sel o unorderedIsTrue result
      | _, _ => selectByBranch sel o unorderedIsTrue result) (CanSelect S C.frame first o result)
      fun _ => Chosen S C.frame first o result (sel.takes unorderedIsTrue) := by
  have hbranch :
      Runs S C (selectByBranch sel o unorderedIsTrue result) (FirstMoved S C.frame first o result)
      (fun _ => Chosen S C.frame first o result (sel.takes unorderedIsTrue)) noExit :=
    runs_secondMove hother hexists hwhole' hscratch
  have hmove : Computes S C (mov first result true) (CanSelect S C.frame first o result)
      fun _ => FirstMoved S C.frame first o result :=
        computes_firstMove hfirst hexists hwhole hscratch
  refine Runs.bind hmove fun _ => finds_get.runs fun d _ => ?_
  · dsimp only
    split
    · rename_i res wide hres hwide
      split
      · rename_i hcmov
        obtain rfl : unorderedIsTrue = none :=
          Option.isNone_iff_eq_none.mp (Bool.and_eq_true_iff.mp hcmov).2
        exact runs_cmov hres hwide hother hwhole'
      · exact hbranch
    · exact hbranch

end Select

/-! ### Conditional moves -/

section CondMove

variable {S : Site} {C : Context} {frame : Frame} {unorderedIsTrue : Option Bool}
  {s c : Machine} {v v' : Word}

/-- Operands of one kind, none of them in the scratch register or addressed through it. -/
structure Selectable (frame : Frame) (trueValue falseValue result : Operand) : Prop where
  kinds : ∀ o ∈ [trueValue, falseValue, result], o.kind = result.kind
  resultExists : result.Exists
  whole : ∀ o ∈ [trueValue, falseValue, result], Whole o
  unscratched : ∀ o ∈ [trueValue, falseValue, result], ¬ o.Uses frame scratch

/-- The operands can be accessed. Where the result and the false value are both in memory, the
places are apart: the true value is stored to the result before the false one is read. -/
structure CanCondMove (S : Site) (frame : Frame) (trueValue falseValue result : Operand)
    (s : Machine) : Prop where
  readable : S.Readable s
  accessible : ∀ o ∈ [trueValue, falseValue, result], S.Accessible frame s o
  clear : ∀ l, place? frame result = some l → S.Clear (S.place s l) result.kind.size
  apart : ∀ l l', place? frame result = some l → place? frame falseValue = some l' →
    ∀ k < result.kind.size, result.kind.size ≤
      (S.place s l' + BitVec.ofNat 64 k - S.place s l).toNat

/-- The result holds the same from a state in which its address is the same. -/
theorem holds_congr (h : S.Holds frame s result v c)
    (hlow : low v result.kind.width = low v' result.kind.width) {s' : Machine}
    (hplace : ∀ l, place? frame result = some l → S.place s' l = S.place s l) :
    S.Holds frame s' result v' c where
  gpr g hg := (h.gpr g hg).trans hlow
  xmm x hx := (h.xmm x hx).trans hlow
  memory l hl := by
    have hdvd : 256 ^ result.kind.size ∣ 256 ^ result.kind.width.bytes :=
      Nat.pow_dvd_pow 256 (by cases result.kind <;> decide)
    have hmod := congrArg (fun w => w.toNat % 256 ^ result.kind.size) hlow
    simp only [toNat_low, Nat.mod_mod_of_dvd _ hdvd] at hmod
    rw [hplace l hl, h.memory l hl, hmod]

variable {cond : Condition} {trueValue falseValue : Operand}

/-- The first value is in the result register already, or the second one is not. -/
theorem selection_apart (cond : Condition) (trueValue falseValue : Operand)
    (hresult : result.isRegister = true) :
    let sel := selection cond trueValue falseValue result
    sel.first.register? = result.register? ∨ sel.second.register? ≠ result.register? := by
  unfold selection
  dsimp only
  split
  · rename_i hswapped
    exact .inl hswapped.2.1
  · rename_i hplain
    by_cases hsame : falseValue.register? = result.register?
    · have heq : trueValue = falseValue :=
        Classical.not_not.mp fun hne => hplain ⟨hresult, hsame, hne⟩
      exact .inl (heq ▸ hsame)
    · exact .inr hsame

/-- A result in memory has the false value second. -/
theorem selection_of_memory (cond : Condition) (trueValue falseValue : Operand)
    (hresult : result.isRegister = false) :
    selection cond trueValue falseValue result = ⟨trueValue, falseValue, cond.negate, false⟩ := by
  unfold selection
  rw [if_neg (by simp [hresult])]

theorem mem_selection (cond : Condition) (trueValue falseValue result : Operand) :
    (selection cond trueValue falseValue result).first ∈ [trueValue, falseValue, result] ∧
      (selection cond trueValue falseValue result).second ∈ [trueValue, falseValue, result] := by
  unfold selection
  split <;> simp

/-- A move to the result register spares an operand that is not in it and not addressed through
it. -/
theorem spared_of_register {o : Operand} (hresult : result.isRegister = true)
    (hother : o.register? ≠ result.register?)
    (huses : ∀ g, gpr? result = some g → ∀ l, place? frame o = some l → l.mem.uses g = false) :
    Spared S frame o result s := by
  refine ⟨fun g hg => ⟨fun hres => ?_, fun hnot => ?_⟩,
    fun x hx hres => hother ?_, fun l l' hl => ?_⟩
  · obtain hg | ⟨l, hl, hl'⟩ := hg
    · obtain ⟨r, hr, hgpr⟩ := register?_of_gpr? hg
      obtain ⟨r', hr', hgpr'⟩ := register?_of_gpr? hres
      exact hother (by rw [hr, hr', eq_register_of_gpr hgpr, eq_register_of_gpr hgpr'])
    · rw [huses g hres l hl] at hl'
      cases hl'
  · rw [hresult] at hnot
    cases hnot
  · obtain ⟨r, hr, hxmm⟩ := register?_of_xmm? hx
    obtain ⟨r', hr', hxmm'⟩ := register?_of_xmm? hres
    rw [hr, hr', eq_register_of_xmm hxmm, eq_register_of_xmm hxmm']
  · cases (Site.isRegister_of_place? hl).symm.trans hresult

/-- The moves can be made one after the other. -/
theorem CanCondMove.canSelect (h : CanCondMove S frame trueValue falseValue result s)
    (hoperands : Selectable frame trueValue falseValue result)
    (huses : ∀ g, gpr? result = some g → ∀ l, place? frame
      (selection cond trueValue falseValue result).second = some l → l.mem.uses g = false) :
    CanSelect S frame (selection cond trueValue falseValue result).first
      (selection cond trueValue falseValue result).second result s := by
  obtain ⟨hfirst, hsecond⟩ := mem_selection cond trueValue falseValue result
  refine ⟨⟨h.readable, h.accessible _ hfirst, h.accessible _ (by simp), h.clear⟩,
    h.accessible _ hsecond, ?_⟩
  cases hresult : result.isRegister with
  | true =>
    obtain hsame | hother := selection_apart cond trueValue falseValue hresult
    · refine .inr ?_
      generalize (selection cond trueValue falseValue result).first = first at hsame ⊢
      cases result with
      | reg r kind =>
        cases first with
        | reg r' kind' =>
          cases hsame
          exact ⟨_, _, _, rfl, rfl⟩
        | stack | const | addr => cases hsame
      | stack | const | addr => cases hresult
    · exact .inl (spared_of_register hresult hother huses)
  | false =>
    have hgpr : ∀ g, gpr? result ≠ some g := fun g hg => by
      rw [isRegister_of_gpr? hg] at hresult
      cases hresult
    have hxmm : ∀ x, xmm? result ≠ some x := fun x hx => by
      rw [isRegister_of_xmm? hx] at hresult
      cases hresult
    rw [selection_of_memory cond trueValue falseValue hresult]
    refine .inl ⟨fun g hg => ⟨hgpr g, fun _ hscratch => ?_⟩, fun x _ => hxmm x,
      fun l l' hl hl' k hk => ?_⟩
    · exact hoperands.unscratched falseValue (by simp) (hscratch ▸ hg)
    · exact h.apart l l' hl hl' k (hoperands.kinds falseValue (by simp) ▸ hk)

/-- A conditional move leaves one of its two values in the result, as the flags say. -/
theorem computes_condMove (h : Selectable C.frame trueValue falseValue result) :
    let sel := selection cond trueValue falseValue result
    Computes S C (condMove cond unorderedIsTrue trueValue falseValue result)
      (CanCondMove S C.frame trueValue falseValue result)
      fun _ => Chosen S C.frame sel.first sel.second result (sel.takes unorderedIsTrue) := by
  intro sel
  obtain ⟨hfirst, hsecond⟩ := mem_selection cond trueValue falseValue result
  have hscratch : ∀ l, place? C.frame result = some l → l.mem.uses scratch = false := fun l hl =>
    Bool.eq_false_iff.mpr fun huses => h.unscratched result (by simp) (.inr ⟨l, hl, huses⟩)
  have hmoves : ∀ o : Operand, o.kind = result.kind → Whole o →
    Computes S C _ (CanSelect S C.frame sel.first o result)
      fun _ => Chosen S C.frame sel.first o result (sel.takes unorderedIsTrue) := fun o ho hwhole =>
    computes_bothMoves (h.kinds _ hfirst).symm ho.symm h.resultExists
      (h.whole _ hfirst) hwhole hscratch
  unfold condMove
  refine computes_preloaded (fun huses => ?_) fun g hg hmemory => ?_
  · exact (hmoves _ (h.kinds _ hsecond) (h.whole _ hsecond)).mono fun s _ hs =>
      ⟨hs.canSelect h huses, fun _ _ => id⟩
  · have hresult := isRegister_of_gpr? hg
    have hgpr := gpr?_register scratch sel.second.kind
    have hplace : ∀ l, place? C.frame result ≠ some l := fun l hl => by
      cases (Site.isRegister_of_place? hl).symm.trans hresult
    have hkind : sel.second.kind = result.kind := h.kinds _ hsecond
    have hwhole : Whole (.reg scratch.register sel.second.kind) := fun hdouble => by
      exact absurd (hkind.symm.trans hdouble) ((h.whole result (by simp)).ne_double g hg)
    have hload : Computes S C (mov sel.second (.reg scratch.register sel.second.kind) true)
        (CanCondMove S C.frame trueValue falseValue result) _ :=
      (computes_toScratch fun _ hnone => by cases hmemory.symm.trans hnone).mono fun s _ hs =>
        ⟨⟨hs.readable, hs.accessible _ hsecond⟩, fun _ _ => id⟩
    refine hload.bind (fun _ => hmoves _ hkind hwhole) ?_
    rintro s _ c hs ⟨b, hb, hlow, hkeeps, hflags⟩
    have hstays : ∀ g, sel.first.Uses C.frame g → ¬ g = scratch := fun g hg hg' =>
      h.unscratched _ hfirst (hg' ▸ hg)
    refine ⟨⟨⟨hs.readable.keeps hkeeps, (hs.accessible _ hfirst).keeps hkeeps hstays,
      fun l hl => absurd hl (hplace l), fun l hl => absurd hl (hplace l)⟩, nofun, .inl ?_⟩, ?_⟩
    · refine spared_of_register hresult (fun hsame => ?_) nofun
      obtain ⟨r, hr, hgpr'⟩ := register?_of_gpr? hg
      obtain rfl : scratch.register = r := Option.some.inj (hsame.trans hr)
      exact h.unscratched result (by simp) (.inl (hg.trans (hgpr'.symm.trans hgpr)))
    · rintro _ c' ⟨v, hv, hholds⟩
      rw [hflags rfl] at hv
      cases htakes : sel.takes unorderedIsTrue s.flags with
      | true =>
        rw [htakes, if_pos rfl, Site.value?_gpr hgpr] at hv
        cases hv
        rw [hkind] at hlow
        exact ⟨b, by rw [htakes, if_pos rfl, hb],
          holds_congr hholds hlow fun l hl => absurd hl (hplace l)⟩
      | false =>
        rw [htakes, if_neg Bool.false_ne_true,
          Site.value?_keeps hkeeps hstays (fun _ _ => id) fun _ _ _ _ => id] at hv
        exact ⟨v, by rw [htakes, if_neg Bool.false_ne_true, hv],
          holds_congr hholds rfl fun l hl => absurd hl (hplace l)⟩

end CondMove

end MachineCode.Lower

/-! ### Installed code -/

namespace MachineCode

open X64 Lower

/-- From any state whose flags come from a compare, the code of a conditional move runs to its end
and leaves in the result the true value if the condition holds and the false value elsewhere, as
these and the address of the result have been before. With or without the instruction for it the
outcome is the same. -/
theorem exists_run_condMove {I : Installation} {cond : Condition} {x : Comparison}
    {trueValue falseValue result : Operand} {start stop : Nat} {machine : Machine}
    (hcode : I.HasCode (.condMove cond x.unorderedIsTrue trueValue falseValue result) start stop)
    (hoperands : Selectable I.source.frame trueValue falseValue result)
    (hflags : machine.flags = x.flags) (hloaded : machine.Loaded I.base I.image)
    (hrip : machine.rip = I.base + BitVec.ofNat 64 start)
    (hcan : CanCondMove I.site I.source.frame trueValue falseValue result machine) :
    ∃ machine' v, machine.RunsTo (I.base + BitVec.ofNat 64 stop) machine' ∧
      I.site.value? I.source.frame machine (if x.holds cond then trueValue
        else falseValue) = some v ∧
      I.site.Holds I.source.frame machine result v machine' := by
  let sel := selection cond trueValue falseValue result
  have hcomputes : ∀ C, C.frame = I.source.frame →
      Computes I.site C (lower (.condMove cond x.unorderedIsTrue trueValue falseValue result))
        (CanCondMove I.site I.source.frame trueValue falseValue result)
        fun _ => Chosen I.site I.source.frame sel.first sel.second result
          (sel.takes x.unorderedIsTrue) := by
    intro C hC
    rw [← hC] at hoperands ⊢
    exact computes_condMove hoperands
  obtain ⟨machine', hrun, v, hv, hholds⟩ := hcode.exists_run hcomputes hloaded hrip
    ⟨hcan.readable, hcan.accessible, hcan.clear, hcan.apart⟩
  rw [Machine.flags_core, hflags, takes_selection, Site.value?_core] at hv
  exact ⟨machine', v, hrun, hv, hholds.gpr, hholds.xmm, hholds.memory⟩

/-- After a compare of 5 with 7, a move for less than, without the instruction for it. The result is
in the register of the false value. -/
theorem exists_run_condMove_less :
    let trueValue : Operand := .reg Gpr.rcx.register .int
    let falseValue : Operand := .reg Gpr.rax.register .int
    let op : Operation := .condMove .lt none trueValue falseValue falseValue
    ∃ (I : Installation) (start stop : Nat) (machine machine' : Machine),
      I.target.features.cmov = false ∧
      I.HasCode op start stop ∧ machine.Loaded I.base I.image ∧
      machine.rip = I.base + BitVec.ofNat 64 start ∧
      I.site.Readable machine ∧ machine.flags = (Comparison.words .dword 5 7).flags ∧
      machine.reg .rcx = 1 ∧ machine.reg .rax = 2 ∧
      machine.RunsTo (I.base + BitVec.ofNat 64 stop) machine' ∧
      Machine.low (machine'.reg .rax) .dword = 1 := by
  intro trueValue falseValue op
  let target : Target := ⟨{ Options.standard with useStackBanging := false }, ⟨false, true⟩, 4096⟩
  let x : Comparison := .words .dword 5 7
  obtain ⟨I, start, stop, htarget, -, hcode, hloaded, hrip, hreadable⟩ :=
    Installation.exists_entered target op 0x10000000
      ({ (Machine.initial.setReg .rcx 1).setReg .rax 2 with flags := x.flags })
        (by decide +kernel) rfl
  have hregister : ∀ o ∈ [trueValue, falseValue, falseValue], ∃ g, g ≠ scratch ∧
      o = .reg (Gpr.register g) .int := by
    have htrue : ∃ g, g ≠ scratch ∧ trueValue = .reg (Gpr.register g) .int := ⟨.rcx, by decide, rfl⟩
    have hfalse : ∃ g, g ≠ scratch ∧ falseValue = .reg (Gpr.register g) .int :=
      ⟨.rax, by decide, rfl⟩
    simp [htrue, hfalse]
  have hselectable : Selectable I.source.frame trueValue falseValue falseValue := by
    refine ⟨fun o ho => ?_, fun _ => .inl ⟨.rax, rfl⟩, fun o ho => ?_, fun o ho => ?_⟩ <;>
      obtain ⟨g, hg, rfl⟩ := hregister o ho
    · rfl
    · nofun
    · rintro (h | ⟨l, h, -⟩)
      · exact hg (Option.some.inj ((gpr?_register g .int).symm.trans h))
      · cases h
  have haccessible : ∀ o ∈ [trueValue, falseValue, falseValue], ∀ machine,
      I.site.Accessible I.source.frame machine o := fun o ho machine => by
    obtain ⟨g, -, rfl⟩ := hregister o ho
    exact nofun
  obtain ⟨machine', v, hrun, hv, hholds⟩ :=
    exists_run_condMove (x := x) hcode hselectable rfl hloaded hrip
    ⟨hreadable, fun o ho => haccessible o ho _, nofun, nofun⟩
  refine ⟨I, start, stop, _, machine', by rw [htarget], hcode, hloaded, hrip, hreadable,
    rfl, rfl, rfl, hrun, ?_⟩
  have hlt : x.holds .lt = true := by decide
  rw [hlt, if_pos rfl] at hv
  cases hv
  exact hholds.gpr .rax rfl

end MachineCode
