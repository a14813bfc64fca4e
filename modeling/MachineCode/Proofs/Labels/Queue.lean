import MachineCode.Proofs.Effects.Runs

/-! Code that is put off. An operation puts off one piece of code at most; the labels of this code
are the first ones that the operation makes. -/
namespace MachineCode

open X64 Lower

variable {α : Type}

/-! ### What is put off -/

/-- The context of a draft by itself. -/
def Context.of (d : Draft) : Context := ⟨d.frame, d.target, d.buffer.labels.size⟩

theorem Context.holds_of {d : Draft} (h : d.buffer.mark = none) : (Context.of d).Holds d :=
  ⟨rfl, rfl, Nat.le_refl _, h⟩

/-- What is put off is covered by the effect. -/
theorem Lowers.pending_append {C : Context} {e : Effect} {x : Lower α} {p : α → Prop} {d d' : Draft}
    {a : α} (hx : Lowers C e x p) (hd : C.Holds d) (hrun : x d = .ok a d') :
    ∃ paths : Array SlowPath, d'.pending = d.pending ++ paths ∧ ∀ path ∈ paths, e.paths path := by
  obtain ⟨-, -, as, has, hperform⟩ := hx.run hd hrun
  rw [(performAll_ok hd hperform).2]
  clear hperform
  generalize d.pending = queue
  induction as generalizing queue with
  | nil => exact ⟨#[], by simp, by simp⟩
  | cons a as ih =>
    obtain ⟨ha, has⟩ := List.forall_mem_cons.mp has
    obtain ⟨paths, hpaths, hwithin⟩ := ih has (Action.pending queue a)
    rw [List.foldl_cons, hpaths]
    cases a with
    | enqueue path =>
      refine ⟨#[path] ++ paths, ?_, ?_⟩
      · simp [Action.pending]
      · simpa using ⟨ha, hwithin⟩
    | _ => exact ⟨paths, rfl, hwithin⟩

/-- Where the effect allows no code to be put off, none is. -/
theorem Lowers.pending_eq {C : Context} {e : Effect} {x : Lower α} {p : α → Prop} {d d' : Draft}
    {a : α} (hx : Lowers C e x p) (hpaths : ∀ path, ¬ e.paths path) (hd : C.Holds d)
    (hrun : x d = .ok a d') :
    d'.pending = d.pending := by
  obtain ⟨paths, hpending, hwithin⟩ := hx.pending_append hd hrun
  have hnone : paths = #[] := Array.eq_empty_iff_forall_not_mem.mpr fun path hpath =>
    hpaths path (hwithin path hpath)
  rw [hpending, hnone, Array.append_empty]

/-- The labels that code which is put off shares with what is in its place. -/
def SlowPath.labels : SlowPath → List Label
  | .convertFixup entry resume _ _ _ _ => [entry, resume]
  | .template x => x.labels

/-- Width of the value that a truncating conversion takes, and of the one that it gives. -/
def ConvertOp.truncation? : ConvertOp → Option (Bool × Bool)
  | .f2i => some (false, false)
  | .f2l => some (false, true)
  | .d2i => some (true, false)
  | .d2l => some (true, true)
  | _ => none

/-- What an operation may put off; `n` is the number of labels there are before. -/
def Operation.PutsOff (op : Operation) (n : Nat) : SlowPath → Prop
  | .convertFixup entry resume _ _ _ _ =>
    (∃ f src dst, op = .convert f src dst) ∧ entry = ⟨n⟩ ∧ resume = ⟨n + 1⟩
  | .template x => op = .template x.template x.operands x.info x.infoAfter ∧
    x.labels = (List.range' n x.template.labelCount).map Label.mk

theorem Finds.same {C : Context} {x : Lower α} {p : α → Prop} {d d' : Draft} {a : α}
    (hx : Finds C x p) (hd : C.Holds d) (hrun : x d = .ok a d') : d' = d := by
  obtain ⟨b, hb, -⟩ | ⟨err, herr, -⟩ := hx d hd
  · rw [hb] at hrun
    cases hrun
    rfl
  · rw [herr] at hrun
    cases hrun

theorem Finds.result {C : Context} {x : Lower α} {p : α → Prop} {d d' : Draft} {a : α}
    (hx : Finds C x p) (hd : C.Holds d) (hrun : x d = .ok a d') : p a := by
  obtain ⟨b, hb, hp⟩ | ⟨err, herr, -⟩ := hx d hd
  · rw [hb] at hrun
    cases hrun
    exact hp
  · rw [herr] at hrun
    cases hrun

/-- Neither were labels made nor was code put off. -/
structure Calm (d d' : Draft) : Prop where
  labels : d'.buffer.labels.size = d.buffer.labels.size
  pending : d'.pending = d.pending
  mark : d'.buffer.mark = d.buffer.mark

theorem calm_emit {d d' : Draft} {i : Instr} (hrun : emit i d = .ok () d') : Calm d d' := by
  cases emitBytes_eq_ok.mp hrun
  exact ⟨rfl, rfl, rfl⟩

theorem Calm.trans {d d' d'' : Draft} (h : Calm d d') (h' : Calm d' d'') : Calm d d'' :=
  ⟨h'.labels.trans h.labels, h'.pending.trans h.pending, h'.mark.trans h.mark⟩

/-- The end of a truncation. -/
theorem putOffFixup_eq_ok {d d' : Draft} {s : Xmm} {g : Gpr} {double long : Bool}
    (hmark : d.buffer.mark = none)
    (hrun : (do
      let entry ← newLabel
      let resume ← newLabel
      jcc .e entry
      Lower.bind resume
      enqueue (.convertFixup entry resume s g double long)) d = .ok () d') :
    d'.pending = d.pending.push
        (.convertFixup ⟨d.buffer.labels.size⟩ ⟨d.buffer.labels.size + 1⟩ s g double long) ∧
      d.buffer.labels.size + 2 ≤ d'.buffer.labels.size := by
  let made : Draft := { d with buffer := d.buffer.newLabel.2.newLabel.2 }
  have hsize : made.buffer.labels.size = d.buffer.labels.size + 2 := by
    simp [made, CodeBuffer.newLabel]
  have hmade : (Context.of made).Holds made := Context.holds_of hmark
  have hresume : d.buffer.newLabel.2.newLabel.1 = ⟨d.buffer.labels.size + 1⟩ := by
    simp [CodeBuffer.newLabel]
  obtain ⟨entry, d₁, h₁, hrun⟩ := Step.bind_eq_ok.mp hrun
  cases h₁
  obtain ⟨resume, d₂, h₂, hrun⟩ := Step.bind_eq_ok.mp hrun
  cases h₂
  obtain ⟨_, d₃, h₃, hrun⟩ := Step.bind_eq_ok.mp hrun
  obtain ⟨hholds₃, hpending₃⟩ :=
    keeps_onBuffer (CodeBuffer.grows_branch _ _ _) _ made () d₃ hmade h₃
  obtain ⟨_, d₄, h₄, hrun⟩ := Step.bind_eq_ok.mp hrun
  obtain ⟨hholds₄, hpending₄⟩ := keeps_bind _ _ d₃ () d₄ hholds₃ h₄
  cases Step.modify_eq_ok.mp hrun
  refine ⟨?_, hsize ▸ hholds₄.labels⟩
  have hpending : d₄.pending = d.pending := hpending₄.trans hpending₃
  change d₄.pending.push (.convertFixup ⟨d.buffer.labels.size⟩ d.buffer.newLabel.2.newLabel.1 s g
    double long) = _
  rw [hpending, hresume]

/-- The result is compared with the least integer. -/
def Lower.compareLeast (long : Bool) (g : Gpr) : Lower Unit :=
  if long then do
    emit (.movImm true scratch 0x8000000000000000)
    emit (.alu .cmp true g (.reg scratch))
  else emit (.aluImm .cmp false (.reg g) Int32.minValue)

theorem truncate_eq_bind (double long : Bool) (src dst : Operand) :
    truncate double long src dst = xmm src >>= fun x => gpr dst >>= fun g =>
      emit (.cvtToInt double long g x) >>= fun _ =>
      compareLeast long g >>= fun _ => newLabel >>= fun entry => newLabel >>= fun resume =>
        jcc .e entry >>= fun _ =>
      Lower.bind resume >>= fun _ => enqueue (.convertFixup entry resume x g double long) := by
  cases long <;> simp [truncate, compareLeast, bind_assoc]

theorem calm_compareLeast {d d' : Draft} {long : Bool} {g : Gpr}
    (hrun : compareLeast long g d = .ok () d') : Calm d d' := by
  cases long with
  | true =>
    obtain ⟨_, d₁, h₁, h₂⟩ := Step.bind_eq_ok.mp hrun
    exact (calm_emit h₁).trans (calm_emit h₂)
  | false => exact calm_emit hrun

/-- A truncation makes its labels behind a conversion and a compare. -/
theorem truncate_starts {double long : Bool} {src dst : Operand} {d d' : Draft}
    (hmark : d.buffer.mark = none) (hrun : truncate double long src dst d = .ok () d') :
    ∃ x g d₁ d₂, xmm? src = some x ∧ gpr? dst = some g ∧
    emit (.cvtToInt double long g x) d = .ok () d₁ ∧
      compareLeast long g d₁ = .ok () d₂ ∧ Calm d d₂ ∧ (do
        let entry ← newLabel
        let resume ← newLabel
        jcc .e entry
        Lower.bind resume
        enqueue (.convertFixup entry resume x g double long)) d₂ = .ok () d' := by
  have hd := Context.holds_of hmark
  rw [truncate_eq_bind] at hrun
  obtain ⟨x, d₁, h₁, hrun⟩ := Step.bind_eq_ok.mp hrun
  have hx := (finds_xmm src).result hd h₁
  cases (finds_xmm src).same hd h₁
  obtain ⟨g, d₂, h₂, hrun⟩ := Step.bind_eq_ok.mp hrun
  have hg := (finds_gpr dst).result hd h₂
  cases (finds_gpr dst).same hd h₂
  obtain ⟨_, d₃, h₃, hrun⟩ := Step.bind_eq_ok.mp hrun
  obtain ⟨_, d₄, h₄, hrun⟩ := Step.bind_eq_ok.mp hrun
  exact ⟨x, g, d₃, d₄, hx, hg, h₃, h₄, (calm_emit h₃).trans (calm_compareLeast h₄), hrun⟩

/-- The two labels of a conversion's fix-up are new. -/
theorem truncate_eq_ok {double long : Bool} {src dst : Operand} {d d' : Draft}
    (hmark : d.buffer.mark = none) (hrun : truncate double long src dst d = .ok () d') :
    ∃ (s : Xmm) (g : Gpr), xmm? src = some s ∧ gpr? dst = some g ∧ d'.pending = d.pending.push
        (.convertFixup ⟨d.buffer.labels.size⟩ ⟨d.buffer.labels.size + 1⟩ s g double long) ∧
      d.buffer.labels.size + 2 ≤ d'.buffer.labels.size := by
  obtain ⟨s, g, d₁, d₂, hs, hg, -, -, hcalm, hrun⟩ := truncate_starts hmark hrun
  have hfixup := putOffFixup_eq_ok (hcalm.mark.trans hmark) hrun
  rw [hcalm.labels, hcalm.pending] at hfixup
  exact ⟨s, g, hs, hg, hfixup⟩

/-- Nothing is put off, and all labels are allowed. -/
theorem pending_eq_of_does {x : Lower Unit} {d d' : Draft} (hmark : d.buffer.mark = none)
    (hx : Does (Context.of d)
      (.naming (fun _ => True) (fun _ => True) (fun _ => True) fun _ => False) x)
    (hrun : x d = .ok () d') :
    d'.pending = d.pending ∧ d.buffer.labels.size ≤ d'.buffer.labels.size := by
  have hd := Context.holds_of hmark
  exact ⟨hx.pending_eq (fun _ => not_false) hd hrun, (hx.run hd hrun).2.1.labels⟩

theorem fresh_naming (paths : SlowPath → Prop) (n : Nat) :
    (Effect.naming (fun _ => True) (fun _ => True) (fun _ => True) paths).Fresh n :=
  ⟨fun _ _ => trivial, fun _ _ => trivial⟩

/-- A conversion is a truncation, or it puts nothing off. -/
theorem convert_cases (f : ConvertOp) (src dst : Operand) :
    (∃ double long, f.truncation? = some (double, long) ∧
      convert f src dst = truncate double long src dst) ∨ f.truncation? = none ∧
      ∀ d d', d.buffer.mark = none → convert f src dst d = .ok () d' → d'.pending = d.pending := by
  have hsets :
      (Effect.naming (fun _ => True) (fun _ => True) (fun _ => True) fun _ => False).Sets dst :=
    Effect.open_naming.sets dst
  cases f with
  | f2i | f2l | d2i | d2l => exact .inl ⟨_, _, rfl, rfl⟩
  | i2l | i2b | i2c | i2s =>
    exact .inr ⟨rfl, fun d d' hmark hrun => (pending_eq_of_does hmark (does_extend hsets) hrun).1⟩
  | l2i =>
    exact .inr ⟨rfl, fun d d' hmark hrun => (pending_eq_of_does hmark (does_narrow hsets) hrun).1⟩
  | i2f | i2d | l2f | l2d =>
    exact .inr ⟨rfl, fun d d' hmark hrun =>
      (pending_eq_of_does hmark (does_intToFloat hsets) hrun).1⟩
  | f2d | d2f =>
    exact .inr ⟨rfl, fun d d' hmark hrun =>
      (pending_eq_of_does hmark (does_floatToFloat hsets) hrun).1⟩
  | movI2F | movL2D =>
    exact .inr ⟨rfl, fun d d' hmark hrun =>
      (pending_eq_of_does hmark (does_bitsToFloat hsets) hrun).1⟩
  | movF2I | movD2L =>
    exact .inr ⟨rfl, fun d d' hmark hrun =>
      (pending_eq_of_does hmark (does_floatToBits hsets) hrun).1⟩

/-- The fast path of a template is lowered with new labels, the slow path is put off with them. -/
theorem template_run {t : Template} {operands : List Operand} {info infoAfter : Option DebugInfo}
    {d d' : Draft} (hrun : template t operands info infoAfter d = .ok () d') :
    let x : Expansion :=
  ⟨t, operands, (List.range' d.buffer.labels.size t.labelCount).map Label.mk, info,
      infoAfter⟩
    ∃ d₁, t.fastPath.forM (microOp x) { d with buffer := (d.buffer.newLabels t.labelCount).2 } =
        .ok () d₁ ∧
      d' = if t.slowPath.isSome then { d₁ with pending := d₁.pending.push (.template x) }
        else d₁ := by
  unfold template at hrun
  obtain ⟨labels, d₁, h₁, hrun⟩ := Step.bind_eq_ok.mp hrun
  cases h₁
  obtain ⟨_, d₂, h₂, hrun⟩ := Step.bind_eq_ok.mp hrun
  refine ⟨d₂, h₂, ?_⟩
  split at hrun
  · rename_i hslow
    rw [if_pos hslow]
    cases Step.modify_eq_ok.mp hrun
    rfl
  · rename_i hslow
    rw [if_neg hslow]
    cases hrun
    rfl

/-- The labels of a template are new. -/
theorem template_eq_ok {t : Template} {operands : List Operand} {info infoAfter : Option DebugInfo}
    {d d' : Draft} (hmark : d.buffer.mark = none)
    (hrun : template t operands info infoAfter d = .ok () d') :
    d'.pending = (if t.slowPath.isSome then d.pending.push (.template ⟨t, operands,
      (List.range' d.buffer.labels.size t.labelCount).map Label.mk, info, infoAfter⟩)
      else d.pending) ∧
    d.buffer.labels.size + t.labelCount ≤ d'.buffer.labels.size := by
  let made : Draft := { d with buffer := (d.buffer.newLabels t.labelCount).2 }
  have hsize : made.buffer.labels.size = d.buffer.labels.size + t.labelCount := by
    simp [made, CodeBuffer.newLabels]
  obtain ⟨d₁, hfast, hd'⟩ := template_run hrun
  obtain ⟨hpending, hle⟩ := pending_eq_of_does (d := made) hmark (does_forM fun op hop =>
    does_microOp (fresh_naming _ _) ⟨Template.within_naming (fun _ _ _ _ => trivial)
      fun _ _ _ _ => trivial, fun _ _ => trivial, fun _ _ => trivial⟩ (op.within_naming _)) hfast
  rw [hsize] at hle
  subst hd'
  split
  · refine ⟨?_, hle⟩
    change d₁.pending.push _ = _
    rw [hpending]
  · exact ⟨hpending, hle⟩

/-- An operation is lowered, and then reported. -/
theorem operation_run {op : Operation} {d d' : Draft} (hrun : operation op d = .ok () d') :
    ∃ d₁ journal, lower op { d with current := op.name } = .ok () d₁ ∧
      d' = { d₁ with journal := journal } := by
  unfold operation at hrun
  obtain ⟨_, d₀, ⟨⟩, hrun⟩ := Step.bind_eq_ok.mp hrun
  obtain ⟨start, d₁, ⟨⟩, hrun⟩ := Step.bind_eq_ok.mp hrun
  obtain ⟨_, d₂, h₂, hrun⟩ := Step.bind_eq_ok.mp hrun
  obtain ⟨stop, d₃, ⟨⟩, hrun⟩ := Step.bind_eq_ok.mp hrun
  exact ⟨d₂, _, h₂, (Step.modify_eq_ok.mp hrun).symm⟩

/-- An operation fails where its code does. -/
theorem operation_of_error {op : Operation} {d d' : Draft} {err : Error}
    (h : lower op { d with current := op.name } = .error err d') : operation op d = .error err d' :=
  (Step.bind_of_ok rfl).trans ((Step.bind_of_ok rfl).trans (Step.bind_of_error h))

theorem operation_eq_ok {op : Operation} {d d' : Draft} (hrun : operation op d = .ok () d') :
    ∃ d₁, lower op { d with current := op.name } = .ok () d₁ ∧ d'.buffer = d₁.buffer ∧
      d'.pending = d₁.pending := by
  obtain ⟨d₁, journal, hlower, rfl⟩ := operation_run hrun
  exact ⟨d₁, hlower, rfl, rfl⟩

/-- What an operation puts off has labels of the operation's own. -/
theorem putsOff_of_operation {op : Operation} {d d' : Draft} (hmark : d.buffer.mark = none)
    (hrun : operation op d = .ok () d') :
    d'.pending = d.pending ∨ ∃ path, op.PutsOff d.buffer.labels.size path ∧
      d'.pending = d.pending.push path ∧
      ∀ l ∈ path.labels, d.buffer.labels.size ≤ l.index ∧ l.index < d'.buffer.labels.size := by
  obtain ⟨d₁, hlower, hbuffer, hpending⟩ := operation_eq_ok hrun
  rw [hbuffer, hpending]
  let started : Draft := { d with current := op.name }
  have hmark : started.buffer.mark = none := hmark
  change lower op started = .ok () d₁ at hlower
  have hsilent : Does (Context.of started)
    (.naming (fun _ => True) (fun _ => True) (fun _ => True) fun _ => False)
      (lower op) → d₁.pending = d.pending := fun hx => (pending_eq_of_does hmark hx hlower).1
  have hplain : (∀ f src dst, op ≠ .convert f src dst) →
      (∀ t operands info infoAfter, op ≠ .template t operands info infoAfter) →
      d₁.pending = d.pending := by
    refine fun hconvert htemplate =>
      hsilent (does_lower (fresh_naming _ _) (Effect.open_naming.within ?_))
    exact ⟨fun _ _ => trivial, fun _ _ => trivial, fun _ _ => trivial, fun _ _ _ _ _ _ => trivial,
      fun f src dst h => absurd h (hconvert f src dst),
      fun t operands info infoAfter h => absurd h (htemplate t operands info infoAfter),
      fun t operands info infoAfter h => absurd h (htemplate t operands info infoAfter)⟩
  cases op with
  | template t operands info infoAfter =>
    obtain ⟨hpending, hle⟩ := template_eq_ok hmark hlower
    split at hpending
    swap
    · exact .inl hpending
    · let x : Expansion :=
        ⟨t, operands, (List.range' d.buffer.labels.size t.labelCount).map Label.mk, info, infoAfter⟩
      refine .inr ⟨.template x, ⟨rfl, rfl⟩, hpending, fun l hl => ?_⟩
      obtain ⟨n, hn, rfl⟩ := List.mem_map.mp hl
      have := List.mem_range'_1.mp hn
      exact ⟨this.1, Nat.lt_of_lt_of_le this.2 hle⟩
  | convert f src dst =>
    change convert f src dst started = .ok () d₁ at hlower
    obtain ⟨double, long, -, htruncate⟩ | ⟨-, hnothing⟩ := convert_cases f src dst
    · rw [htruncate] at hlower
      obtain ⟨s, g, -, -, hpending, hle⟩ := truncate_eq_ok hmark hlower
      have hle : d.buffer.labels.size + 2 ≤ d₁.buffer.labels.size := hle
      refine .inr ⟨.convertFixup _ _ s g double long, ⟨⟨f, src, dst, rfl⟩, rfl, rfl⟩, hpending,
        fun l hl => ?_⟩
      obtain rfl | rfl : l = ⟨d.buffer.labels.size⟩ ∨ l = ⟨d.buffer.labels.size + 1⟩ := by
        simpa [SlowPath.labels] using hl
      · exact ⟨Nat.le_refl _, Nat.lt_of_lt_of_le (Nat.lt_add_of_pos_right Nat.two_pos) hle⟩
      · exact ⟨Nat.le_succ _, Nat.lt_of_lt_of_le (Nat.lt_succ_self _) hle⟩
    · exact .inl (hnothing started d₁ hmark hlower)
  | _ => exact .inl (hplain (by simp) (by simp))

end MachineCode
