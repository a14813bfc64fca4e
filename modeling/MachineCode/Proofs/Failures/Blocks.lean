import MachineCode.Proofs.Failures.Fields

/-! Code with labels of its own. A lowering step makes a label, binds it once, and keeps the short
branches to it in reach; so it cannot fail because of what it has written itself. -/
namespace MachineCode

open X64 Lower

variable {α β : Type} {C : Context} {before : Label → Option Nat} {lent : Label → Prop}

/-- The draft is one of the context, in which labels were bound as `before` says; since then, at
most labels that are `lent` have been bound of these. The labels `ls` are not bound; short branches
wait for labels of `ss`, and the position is at most `n` bytes behind them. -/
structure Held (C : Context) (before : Label → Option Nat) (lent : Label → Prop)
    (ls ss : List Label) (n : Nat) (d : Draft) : Prop where
  holds : C.Holds d
  same : ∀ l, l.index < C.labels → ¬ lent l → d.buffer.labelOffset l = before l
  own : ∀ l ∈ ls, C.labels ≤ l.index ∨ lent l
  unbound : ∀ l ∈ ls, l.index < d.buffer.labels.size ∧ d.buffer.labelOffset l = none
  near : d.buffer.Near ss n

variable {ls ss : List Label} {n : Nat}

theorem Held.mono {ls' ss' : List Label} {n' : Nat} {d : Draft} (h : Held C before lent ls ss n d)
    (hls : ls' ⊆ ls) (hss : ss ⊆ ss') (hn : n ≤ n') : Held C before lent ls' ss' n' d where
  holds := h.holds
  same := h.same
  own l hl := h.own l (hls hl)
  unbound l hl := h.unbound l (hls hl)
  near := h.near.mono hss hn

/-- Without short branches the position does not matter. -/
theorem Held.reset {n' : Nat} {d : Draft} (h : Held C before lent ls [] n d) :
    Held C before lent ls [] n' d where
  holds := h.holds
  same := h.same
  own := h.own
  unbound := h.unbound
  near l s hs hkind := absurd (h.near l s hs hkind).1 List.not_mem_nil

/-- The step leads from `p` to `q`, and does not fail because of what has been written. -/
abbrev Tame (p : Draft → Prop) (x : Lower α) (q : α → Draft → Prop) : Prop :=
  Triple p x q fun err _ => err.isInternal = false

/-! ### Rules -/

theorem tame_of_buffer {x : BufferStep α} {p : Draft → Prop} {q : α → Draft → Prop}
    (hok : ∀ d a b, p d → x d.buffer = .ok a b → q a { d with buffer := b })
    (herror : ∀ d err b, p d → x d.buffer = .error err b → err.isInternal = false) :
    Tame p (onBuffer x) q := by
  refine fun d hd => ⟨fun a d' hrun => ?_, fun err d' hrun => ?_⟩
  · obtain ⟨b, hb, rfl⟩ := onBuffer_eq_ok.mp hrun
    exact hok d a b hd hb
  · unfold onBuffer at hrun
    dsimp only at hrun
    split at hrun
    · cases hrun
    · rename_i hb
      cases hrun
      exact herror d _ _ hd hb

/-- What changes in a buffer when code is added to it. -/
theorem Held.advance {ss' : List Label} {n' : Nat} {d : Draft} {b : CodeBuffer}
    (h : Held C before lent ls ss n d) (hsize : d.buffer.labels.size ≤ b.labels.size)
    (hmark : b.mark = d.buffer.mark) (hlabels : ∀ l, b.labelOffset l = d.buffer.labelOffset l)
    (hnear : b.Near ss' n') : Held C before lent ls ss' n' { d with buffer := b } where
  holds :=
    ⟨h.holds.frame, h.holds.target, Nat.le_trans h.holds.labels hsize, hmark.trans h.holds.mark⟩
  same l hl hlent := (hlabels l).trans (h.same l hl hlent)
  own := h.own
  unbound l hl :=
    ⟨Nat.lt_of_lt_of_le (h.unbound l hl).1 hsize, (hlabels l).trans (h.unbound l hl).2⟩
  near := hnear

/-- Steps on a buffer that add labels and bytes only. -/
theorem unlabelled_runAll {ops : List BufferOp} {b b' : CodeBuffer}
    (hops : ∀ op ∈ ops, op.Within .unlabelled) (hrun : BufferOp.runAll ops b = .ok () b') :
    ∀ l, b'.labelOffset l = b.labelOffset l ∧ b'.pendingSites l = b.pendingSites l := by
  induction ops generalizing b with
  | nil =>
    cases hrun
    exact fun _ => ⟨rfl, rfl⟩
  | cons op ops ih =>
    obtain ⟨c, hc, hrun⟩ := BufferOp.runAll_cons.mp hrun
    obtain ⟨hop, hops⟩ := List.forall_mem_cons.mp hops
    have hstep : ∀ l, c.labelOffset l = b.labelOffset l ∧ c.pendingSites l = b.pendingSites l := by
      intro l
      cases op with
      | emit bs =>
        cases hc
        exact ⟨rfl, rfl⟩
      | newLabel =>
        cases Step.modify_eq_ok.mp hc
        rw [CodeBuffer.newLabel_eq]
        exact ⟨CodeBuffer.labelOffset_withLabels, CodeBuffer.pendingSites_withLabels⟩
      | reserve count =>
        cases CodeBuffer.reserveLabels_eq_ok hc
        exact ⟨CodeBuffer.labelOffset_withLabels, CodeBuffer.pendingSites_withLabels⟩
      | bind m => exact (hop.binds m rfl).elim
      | rel8 m | rel32 m | tableEntry m | jmp m | jcc _ m | jmpShort m | jccShort _ m =>
        exact (hop.refers m rfl).elim
    intro l
    obtain ⟨hoffset, hsites⟩ := ih hops hrun l
    exact ⟨hoffset.trans (hstep l).1, hsites.trans (hstep l).2⟩

/-- A step without labels, in a place where no short branch waits. -/
theorem tame_lowers {x : Lower α} {p : α → Prop} (hx : Lowers C .unlabelled x p) :
    Tame (Held C before lent ls [] n) x fun a d => p a ∧ Held C before lent ls [] 0 d := by
  intro d hd
  obtain ⟨as, has, heq, hp⟩ := hx d hd.holds
  have hsober : Sober (performAll as) := sober_forM fun a ha => Action.sober (has a ha)
  refine ⟨fun a d' hrun => ⟨hp a d' hrun, ?_⟩, fun err d' hrun => ?_⟩
  · have hholds := (hx.run hd.holds hrun).2.1
    obtain ⟨ops, hops, hwithin⟩ := hx.transcribed hd.holds hrun
    have hsame := unlabelled_runAll hwithin hops
    refine ⟨hholds, fun l hl hlent => (hsame l).1.trans (hd.same l hl hlent), hd.own,
      fun l hl => ⟨?_, (hsame l).1.trans (hd.unbound l hl).2⟩, fun l s hs hkind => ?_⟩
    · exact Nat.lt_of_lt_of_le (hd.unbound l hl).1 (BufferOp.labels_le_of_runAll hops)
    · rw [(hsame l).2] at hs
      exact absurd (hd.near l s hs hkind).1 List.not_mem_nil
  · exact hsober d err d' (heq ▸ Step.discard_of_error hrun)

theorem tame_does {x : Lower α} (hx : Does C .unlabelled x) :
    Tame (Held C before lent ls [] n) x fun _ => Held C before lent ls [] 0 :=
  (tame_lowers hx).weaken (fun _ => id) fun _ _ h => h.2

theorem tame_unhandled {p : Draft → Prop} {q : α → Draft → Prop} (detail : String) :
    Tame p (unhandled detail) q := by
  refine fun d _ => ⟨fun a d' hrun => ?_, fun err d' hrun => ?_⟩
  · cases hrun
  · cases hrun
    rfl

theorem tame_newLabel : Tame (Held C before lent ls ss n) newLabel
    fun l d => l ∉ ls ∧ Held C before lent (l :: ls) ss n d := by
  refine triple_of_ok (a := fun d => d.buffer.newLabel.1)
    (f := fun d => { d with buffer := d.buffer.newLabel.2 }) (fun _ => rfl) fun d hd => ?_
  have hlabels : ∀ l, d.buffer.newLabel.2.labelOffset l = d.buffer.labelOffset l := by
    intro l
    rw [CodeBuffer.newLabel_eq]
    exact CodeBuffer.labelOffset_withLabels
  have hsize : d.buffer.newLabel.2.labels.size = d.buffer.labels.size + 1 := by
    simp [CodeBuffer.newLabel]
  have hheld := hd.advance (b := d.buffer.newLabel.2) (by omega) rfl hlabels fun l s hs => by
    rw [CodeBuffer.newLabel_eq] at hs
    exact hd.near l s (CodeBuffer.pendingSites_withLabels ▸ hs)
  have hnone : d.buffer.labelOffset d.buffer.newLabel.1 = none := by
    cases hl : d.buffer.labelOffset d.buffer.newLabel.1 with
    | none => rfl
    | some p => exact absurd (BufferOp.lt_of_labelOffset hl) (Nat.lt_irrefl _)
  refine ⟨fun hmem => Nat.lt_irrefl _ (hd.unbound _ hmem).1, { hheld with
    own := List.forall_mem_cons.mpr ⟨.inl hd.holds.labels, hheld.own⟩
    unbound := List.forall_mem_cons.mpr ⟨⟨?_, (hlabels _).trans hnone⟩, hheld.unbound⟩ }⟩
  change d.buffer.labels.size < _
  rw [hsize]
  exact Nat.lt_succ_self _

theorem tame_newLabel_bind {f : Label → Lower α} {q : α → Draft → Prop}
    (hf : ∀ l ∉ ls, Tame (Held C before lent (l :: ls) ss n) (f l) q) :
    Tame (Held C before lent ls ss n) (newLabel >>= f) q :=
  tame_newLabel.bind fun l d hd => hf l hd.1 d hd.2

theorem tame_emit (i : Instr) : Tame (Held C before lent ls ss n) (emit i)
    fun _ => Held C before lent ls ss (n + 15) := by
  refine triple_of_ok (f := fun d => { d with buffer := d.buffer.append i.encode.bytes })
    (fun d => emitBytes_eq_ok.mpr rfl) fun d hd => ?_
  refine hd.advance (Nat.le_refl _) rfl (fun _ => rfl)
    (hd.near.advance (fun _ _ hs _ => hs) (by simp) ?_)
  rw [CodeBuffer.position_append]
  exact Nat.add_le_add_left i.length_encode_le _

theorem tame_branch {short : UInt8} {long : List UInt8} {l : Label} (hlong : long.length ≤ 2) :
    Tame (Held C before lent ls ss n) (onBuffer (CodeBuffer.branch short long l))
      fun _ => Held C before lent ls ss (n + 6) := by
  refine tame_of_buffer (fun d a b hd hb => ?_) fun d err b hd hb => CodeBuffer.error_branch hb
  have hgrows := CodeBuffer.grows_branch short long l
  obtain ⟨hnear, hlabels⟩ := hd.near.branch hlong hb
  exact hd.advance (hgrows.labels _ _ _ hb) (hgrows.mark _ _ _ hb) hlabels hnear

theorem tame_jcc (cond : Cond) (l : Label) : Tame (Held C before lent ls ss n) (jcc cond l)
    fun _ => Held C before lent ls ss (n + 6) :=
  tame_branch (Nat.le_refl 2)

theorem tame_jmp (l : Label) : Tame (Held C before lent ls ss n) (jmp l)
    fun _ => Held C before lent ls ss (n + 6) :=
  tame_branch Nat.le.refl.step

theorem tame_jccShort {cond : Cond} {l : Label} (hl : l ∈ ls) :
    Tame (Held C before lent ls ss n) (jccShort cond l)
      fun _ => Held C before lent ls (l :: ss) (n + 2) := by
  refine tame_of_buffer (fun d a b hd hb => ?_) fun d err b hd hb =>
    CodeBuffer.error_jccShort (hd.unbound l hl).2 hb
  have hgrows := BufferOp.grows_run (.jccShort cond l)
  obtain ⟨hnear, hlabels⟩ := (hd.near.mono (List.subset_cons_self l ss) (Nat.le_refl n)).jccShort
    List.mem_cons_self hb
  exact hd.advance (hgrows.labels _ _ _ hb) (hgrows.mark _ _ _ hb) hlabels hnear

/-- A label that is not bound yet is bound. -/
theorem tame_bind {l : Label} (hl : l ∈ ls) (hn : n ≤ 127) :
    Tame (Held C before lent ls ss n) (Lower.bind l)
      fun _ => Held C before lent (ls.filter (· ≠ l)) (ss.filter (· ≠ l)) n := by
  have hbind : Tame (Held C before lent ls ss n) (onBuffer (CodeBuffer.bind l))
      fun _ => Held C before lent (ls.filter (· ≠ l)) (ss.filter (· ≠ l)) n := by
    refine tame_of_buffer (fun d a b hd hb => ?_) fun d err b hd hb => ?_
    · have hgrows := CodeBuffer.grows_bind l
      have hsize := hgrows.labels _ _ _ hb
      obtain ⟨-, hlabels, -⟩ := (CodeBuffer.bind_cases l d.buffer).1 a b hb
      refine ⟨⟨hd.holds.frame, hd.holds.target, Nat.le_trans hd.holds.labels hsize,
        (hgrows.mark _ _ _ hb).trans hd.holds.mark⟩, fun m hm hlent => ?_,
        fun m hm => hd.own m (List.mem_filter.mp hm).1, fun m hm => ?_, hd.near.bind hb⟩
      · have hml : m ≠ l := by
          rintro rfl
          exact (hd.own m hl).elim (fun h => absurd hm (Nat.not_lt.mpr h)) hlent
        exact (hlabels m).trans ((if_neg hml).trans (hd.same m hm hlent))
      · obtain ⟨hm, hml⟩ := List.mem_filter.mp hm
        have hml : m ≠ l := by simpa using hml
        exact ⟨Nat.lt_of_lt_of_le (hd.unbound m hm).1 hsize,
          (hlabels m).trans ((if_neg hml).trans (hd.unbound m hm).2)⟩
    · by_contra he
      obtain ⟨p, hp, -⟩ | ⟨s, hs, hf⟩ :=
        (CodeBuffer.bind_cases l d.buffer).2 err b hb (by simpa using he)
      · rw [(hd.unbound l hl).2] at hp
        cases hp
      · exact he (hd.near.field hn hs hf)
  refine Triple.bind hbind fun fresh => ?_
  cases fresh with
  | true => exact triple_position.bind fun p => triple_modify fun d hd => ⟨⟨hd.1.holds.frame,
      hd.1.holds.target, hd.1.holds.labels, hd.1.holds.mark⟩, hd.1.same, hd.1.own,
      hd.1.unbound, hd.1.near⟩
  | false => exact triple_pure fun _ => id

/-! ### Steps with labels of their own -/

/-- A step that keeps its labels to itself. -/
def Discreet (C : Context) (before : Label → Option Nat) (lent : Label → Prop)
    (x : Lower α) : Prop :=
  Tame (Held C before lent [] [] 0) x fun _ => Held C before lent [] [] 0

theorem Discreet.bind {x : Lower α} {f : α → Lower β} (hx : Discreet C before lent x)
    (hf : ∀ a, Discreet C before lent (f a)) : Discreet C before lent (x >>= f) := Triple.bind hx hf

theorem discreet_does {x : Lower α} (hx : Does C .unlabelled x) : Discreet C before lent x :=
  tame_does hx

theorem discreet_unhandled (detail : String) :
    Discreet C before lent (unhandled detail : Lower α) := tame_unhandled detail

theorem unlabelled_open : Effect.unlabelled.Open := Effect.open_naming

theorem unlabelled_receives (src dst : Operand) : Receives C .unlabelled src dst :=
  unlabelled_open.receives src dst

theorem discreet_mov (src dst : Operand) (keepFlags : Bool) :
    Discreet C before lent (mov src dst keepFlags) :=
  discreet_does (does_mov (unlabelled_receives src dst))

/-- The checks in front of a division stay in reach of both of their labels. -/
theorem tame_guardDivision {wide rem : Bool} {divisor : Gpr} {done : Label} :
    Tame (Held C before lent [done] [] 0) (guardDivision wide rem divisor done)
      fun _ => Held C before lent [done] [done] 64 := by
  refine tame_newLabel_bind fun normal hne => ?_
  have hne : done ≠ normal := by simpa [eq_comm] using hne
  extract_lets atMinusOne atLeast
  have hone : Tame (Held C before lent [normal, done] [normal] 32) (atMinusOne ())
      fun _ => Held C before lent [done] [done] 64 :=
    (tame_emit _).bind fun _ => (tame_jccShort (l := done) (by simp)).bind fun _ =>
      (tame_bind (l := normal) (by simp) (by omega)).weaken (fun _ => id) fun _ _ h =>
        h.mono (by simp [hne]) (by simp [hne]) (by omega)
  have hleast : Tame (Held C before lent [normal, done] [] 0) (atLeast ())
      fun _ => Held C before lent [done] [done] 64 := by
    refine (tame_jccShort (l := normal) (by simp)).bind fun _ => ?_
    split
    · exact (tame_emit _).bind fun _ =>
        hone.weaken (fun d h => h.mono (by simp) (by simp) (by omega)) fun _ _ => id
    · exact hone.weaken (fun d h => h.mono (by simp) (by simp) (by omega)) fun _ _ => id
  split
  · exact (tame_emit _).bind fun _ => (tame_emit _).bind fun _ =>
      hleast.weaken (fun d h => h.reset) fun _ _ => id
  · exact (tame_emit _).bind fun _ => hleast.weaken (fun d h => h.reset) fun _ _ => id

/-- The label behind a division is in reach of the checks. -/
theorem discreet_divideSigned (wide rem : Bool) (divisor : Gpr) :
    Discreet C before lent (divideSigned wide rem divisor) := by
  refine tame_newLabel_bind fun done _ => (tame_lowers lowers_get).bind fun d => ?_
  extract_lets quotient
  have hquotient : Tame (Held C before lent [done] [done] 64) (quotient ())
      fun _ => Held C before lent [] [] 0 :=
    (tame_emit _).bind fun _ =>
      (triple_position.weaken (fun _ => id) fun _ _ h => h.1).bind fun pc =>
      (tame_emit _).bind fun _ => (tame_bind (l := done) (by simp) (by omega)).bind fun _ =>
      triple_pure fun d h => (h.mono (by simp) (by simp) (Nat.le_refl _)).reset
  split
  · exact (tame_guardDivision.weaken (fun _ h => h.2) fun _ _ => id).bind fun _ => hquotient
  · exact hquotient.weaken (fun d h => h.2.mono (by simp) (by simp) (Nat.zero_le _)) fun _ _ => id

theorem tame_recordTrap (pc : Nat) (info : DebugInfo) :
    Tame (Held C before lent ls ss n) (recordTrap pc info) fun _ => Held C before lent ls ss n := by
  have htables : ∀ d : Draft, ∀ t, Held C before lent ls ss n d →
      Held C before lent ls ss n { d with tables := t } := fun d t hd =>
    ⟨⟨hd.holds.frame, hd.holds.target, hd.holds.labels, hd.holds.mark⟩, hd.same, hd.own, hd.unbound,
      hd.near⟩
  refine fun d hd => ⟨fun _ d' hrun => ?_, sober_recordTrap pc info d⟩
  obtain ⟨_, d₁, h₁, h₂⟩ := Step.bind_eq_ok.mp hrun
  obtain ⟨t₁, -, rfl⟩ := record_eq_ok.mp h₁
  obtain ⟨t₂, -, rfl⟩ := record_eq_ok.mp h₂
  exact htables _ t₂ (htables d t₁ hd)

theorem discreet_divide (isSigned rem : Bool) (left right result : Operand)
    (info : Option DebugInfo) :
    Discreet C before lent (divide isSigned rem left right result info) := by
  unfold divide
  refine Discreet.bind (discreet_does (finds_gpr right).lowers.does) fun divisor => ?_
  split
  · exact discreet_unhandled _
  · refine (discreet_mov _ _ _).bind fun _ => ?_
    extract_lets out finish behind
    have hfinish : ∀ u, Discreet C before lent (finish u) := fun _ => discreet_mov _ _ _
    have hbehind : ∀ pc, Discreet C before lent (behind pc) := by
      intro pc
      dsimp only [behind]
      cases info with
      | none => exact hfinish ()
      | some info => exact Discreet.bind (tame_recordTrap pc info) hfinish
    split
    · exact (discreet_divideSigned _ _ _).bind hbehind
    · exact Discreet.bind (discreet_does (accesses_divideUnsigned trivial trivial).lowers) hbehind

theorem discreet_arith (op : ArithOp) (left right result : Operand) (info : Option DebugInfo) :
    Discreet C before lent (arith op left right result info) := by
  have hsets : Effect.unlabelled.Sets result := unlabelled_open.sets result
  unfold arith
  split
  · exact discreet_does (does_floatArith hsets)
  · cases op with
    | add | sub | mul => exact discreet_does (does_binary hsets)
    | div | rem | udiv | urem => exact discreet_divide _ _ _ _ _ _

theorem discreet_compareToInt (op : CompareToIntOp) (left right result : Operand) :
    Discreet C before lent (compareToInt op left right result) := by
  have hless : ∀ res done, Tame (Held C before lent [done] [] 0) (lessOrUnordered op res done)
      fun _ => Held C before lent [done] [done] 34 := by
    intro res done
    have hpost : ∀ {ss n}, ss ⊆ [done] → n ≤ 34 →
      ∀ _ : Unit, ∀ d, Held C before lent [done] ss n d →
        Held C before lent [done] [done] 34 d := fun hss hn _ d h => h.mono (by simp) hss hn
    unfold lessOrUnordered
    cases op with
    | lcmp =>
      exact (tame_emit _).bind fun _ => (tame_jccShort (l := done) (by simp)).weaken (fun _ => id)
        (hpost (by simp) (by omega))
    | fcmpl | dcmpl =>
      exact (tame_emit _).bind fun _ => (tame_jccShort (l := done) (by simp)).bind fun _ =>
        (tame_jccShort (l := done) (by simp)).weaken (fun _ => id) (hpost (by simp) (by omega))
    | fcmpg | dcmpg =>
      exact (tame_emit _).bind fun _ => (tame_jccShort (l := done) (by simp)).bind fun _ =>
        (tame_emit _).bind fun _ => (tame_jccShort (l := done) (by simp)).weaken (fun _ => id)
        (hpost (by simp) (by omega))
  refine Discreet.bind (discreet_does (finds_gpr result).lowers.does) fun res =>
    (discreet_does (does_compare left right)).bind fun _ => tame_newLabel_bind fun done _ =>
    (hless res done).bind fun _ => (tame_emit _).bind fun _ => (tame_emit _).bind fun _ =>
    (tame_bind (l := done) (by simp) (by omega)).weaken (fun _ => id) fun _ _ h => ?_
  exact (h.mono (by simp) (by simp) (Nat.le_refl _)).reset

/-- The label of a conversion's fix-up is left for the code that is put off. -/
theorem tame_truncate {double long : Bool} {src dst : Operand} :
    Tame (Held C before lent [] [] 0) (truncate double long src dst) fun _ d =>
      Held C before lent [] [] 0 d ∧ ∃ entry resume s g,
        d.pending.back? = some (.convertFixup entry resume s g double long) ∧
          d.buffer.labelOffset entry = none := by
  unfold truncate
  refine Triple.bind (discreet_does (finds_xmm src).lowers.does) fun s =>
    Triple.bind (discreet_does (finds_gpr dst).lowers.does) fun d =>
    Triple.bind (discreet_does (does_plain rfl rfl (Effect.admits_gpr trivial))) fun _ => ?_
  extract_lets behind
  have hbehind : ∀ u, Tame (Held C before lent [] [] 0) (behind u) fun _ d =>
      Held C before lent [] [] 0 d ∧ ∃ entry resume s g,
        d.pending.back? = some (.convertFixup entry resume s g double long) ∧
          d.buffer.labelOffset entry = none := by
    intro u
    refine tame_newLabel_bind fun entry _ => tame_newLabel_bind fun resume hresume =>
      (tame_jcc _ _).bind fun _ => (tame_bind (l := resume) (by simp) (by omega)).bind fun _ =>
      triple_modify fun d hd => ?_
    have hresume : entry ≠ resume := by simpa [eq_comm] using hresume
    have hdone : Held C before lent [] [] _ d := hd.mono (by simp) (by simp) (Nat.le_refl _)
    exact ⟨⟨⟨hd.holds.frame, hd.holds.target, hd.holds.labels, hd.holds.mark⟩,
      hd.same, nofun, nofun, hdone.reset.near⟩, entry, resume, _, _, Array.back?_push ..,
      (hd.unbound entry (by simp [hresume])).2⟩
  split
  · exact Triple.bind (discreet_does (does_movImm Effect.unlabelled.scratch)) fun _ =>
      Triple.bind (discreet_does does_cmp) hbehind
  · exact Triple.bind (discreet_does does_cmpImm) hbehind

theorem discreet_truncate (double long : Bool) (src dst : Operand) :
    Discreet C before lent (truncate double long src dst) :=
  tame_truncate.weaken (fun _ => id) fun _ _ h => h.1

/-- The fix-up binds the label that was left for it. -/
theorem tame_convertFixup {entry resume : Label} {src : Xmm} {dst : Gpr} {double long : Bool} :
    Tame (Held C before lent [entry] [] 0) (convertFixup entry resume src dst double long)
      fun _ => Held C before lent [] [] 0 := by
  refine tame_newLabel_bind fun nan hnan => ?_
  have hnan : nan ≠ entry := by simpa using hnan
  have hentry : Tame (Held C before lent [nan, entry] [] 0) (Lower.bind entry)
      fun _ => Held C before lent [nan] [] 0 :=
    (tame_bind (by simp) (by omega)).weaken (fun _ => id) fun _ _ h =>
      h.mono (by simp [hnan]) (by simp) (Nat.le_refl 0)
  refine hentry.bind fun _ => ?_
  refine (tame_emit _).bind fun _ => (tame_jccShort (l := nan) (by simp)).bind fun _ =>
    (tame_emit _).bind fun _ => (tame_emit _).bind fun _ => (tame_jcc _ _).bind fun _ =>
    (tame_emit _).bind fun _ => (tame_jmp _).bind fun _ =>
    (tame_bind (l := nan) (by simp) (by omega)).bind fun _ =>
    (tame_emit _).bind fun _ => (tame_jmp _).weaken (fun _ => id) fun _ d h => ?_
  have hdone : Held C before lent [] [] _ d := h.mono (by simp) (by simp) (Nat.le_refl _)
  exact hdone.reset

theorem discreet_convert (op : ConvertOp) (src dst : Operand) :
    Discreet C before lent (convert op src dst) := by
  have hsets : Effect.unlabelled.Sets dst := unlabelled_open.sets dst
  cases op with
  | i2l | i2b | i2c | i2s => exact discreet_does (does_extend hsets)
  | l2i => exact discreet_does (does_narrow hsets)
  | i2f | i2d | l2f | l2d => exact discreet_does (does_intToFloat hsets)
  | f2d | d2f => exact discreet_does (does_floatToFloat hsets)
  | f2i | f2l | d2i | d2l => exact discreet_truncate _ _ _ _
  | movI2F | movL2D => exact discreet_does (does_bitsToFloat hsets)
  | movF2I | movD2L => exact discreet_does (does_floatToBits hsets)

/-! ### Branches -/

theorem discreet_jcc (cond : Cond) (l : Label) : Discreet C before lent (jcc cond l) :=
  (tame_jcc cond l).weaken (fun _ => id) fun _ _ h => h.reset

theorem discreet_jmp (l : Label) : Discreet C before lent (jmp l) :=
  (tame_jmp l).weaken (fun _ => id) fun _ _ h => h.reset

theorem discreet_branch (cond : Option Condition) (target : Label) :
    Discreet C before lent (branch cond target) := by
  cases cond with
  | none => exact discreet_jmp target
  | some cond => exact discreet_jcc _ target

/-- The entries of a jump table are never short. -/
theorem discreet_entries (targets : List Label) (table : Nat) :
    Discreet C before lent
      (targets.forM fun l => onBuffer (CodeBuffer.reference l (.table table))) := by
  refine triple_forM fun l _ => tame_of_buffer (fun d a b hd hb => ?_) fun d err b hd hb => ?_
  · have hgrows := CodeBuffer.grows_reference l (.table table)
    have hnear := hd.near.reference (by simp) hb
    exact (hd.advance (hgrows.labels _ _ _ hb) (hgrows.mark _ _ _ hb)
      (CodeBuffer.reference_eq_ok hb).1 hnear).reset
  · by_contra he
    exact absurd (CodeBuffer.error_reference hb (by simpa using he)).1 (by simp)

theorem discreet_record {x : RecordStep Unit}
    (hx : ∀ t err t', x t = .error err t' → err.isInternal = false) :
    Discreet C before lent (record x) :=
  triple_record (fun _ _ hd _ => ⟨⟨hd.holds.frame, hd.holds.target, hd.holds.labels, hd.holds.mark⟩,
    hd.same, hd.own, hd.unbound, hd.near⟩) fun d err t _ => hx d.tables err t

theorem discreet_emit (i : Instr) : Discreet C before lent (emit i) :=
  (tame_emit i).weaken (fun _ => id) fun _ _ h => h.reset

theorem discreet_position : Discreet C before lent position := discreet_does finds_position.lowers

theorem discreet_tableSwitch (index : Operand) (low : Int32) (targets : List Label)
    (default : Label) :
    Discreet C before lent (tableSwitch index low targets default) := by
  unfold tableSwitch
  refine Discreet.bind (discreet_does (finds_gpr index).lowers.does) fun idx => ?_
  split
  · exact discreet_unhandled _
  · split
    · exact discreet_jmp default
    · split
      · exact discreet_unhandled _
      · split
        · exact discreet_unhandled _
        · extract_lets address jump behind
          have hbehind : ∀ u, Discreet C before lent (behind u) := fun _ =>
            (discreet_emit _).bind fun _ => (discreet_jcc _ _).bind fun _ =>
            discreet_position.bind fun p => (discreet_emit _).bind fun _ =>
            Discreet.bind (triple_forM fun i _ => discreet_emit i) fun _ =>
            (discreet_does (does_emitAlign _)).bind fun _ => discreet_position.bind fun table =>
            (discreet_entries _ _).bind fun _ => discreet_record fun _ _ _ => error_keyed
          split
          · exact (discreet_emit _).bind hbehind
          · exact (discreet_emit _).bind hbehind

theorem discreet_selectByBranch (s : Selection) (second : Operand) (unorderedIsTrue : Option Bool)
    (result : Operand) :
    Discreet C before lent (selectByBranch s second unorderedIsTrue result) := by
  unfold selectByBranch
  refine tame_newLabel_bind fun skip _ => ?_
  extract_lets keepFirst last
  have hlast : ∀ {n}, Tame (Held C before lent [skip] [] n) (last ())
      fun _ => Held C before lent [] [] 0 := fun {n} =>
    (tame_does (does_mov (unlabelled_receives second result))).bind fun _ =>
      (tame_bind (l := skip) (by simp) (by omega)).weaken (fun _ => id)
        fun _ _ h => h.mono (by simp) (by simp) (Nat.le_refl _)
  split
  · refine tame_newLabel_bind fun move hmove => ?_
    have hmove : skip ≠ move := by simpa [eq_comm] using hmove
    exact (tame_jcc _ _).bind fun _ => (tame_jcc _ _).bind fun _ =>
      (tame_bind (l := move) (by simp) (by omega)).bind fun _ =>
      hlast.weaken (fun d h => h.mono (by simp [hmove]) (by simp) (Nat.le_refl _)) fun _ _ => id
  · exact (tame_jcc _ _).bind fun _ => hlast

theorem discreet_condMove (cond : Condition) (unorderedIsTrue : Option Bool)
    (trueValue falseValue result : Operand) :
    Discreet C before lent (condMove cond unorderedIsTrue trueValue falseValue result) := by
  unfold condMove
  refine Discreet.bind (discreet_does (does_preloaded _ _)) fun second =>
    (discreet_mov _ _ _).bind fun _ => Discreet.bind (discreet_does lowers_get.does) fun d => ?_
  dsimp only
  split
  · split
    · exact discreet_does (does_cmov trivial)
    · exact discreet_selectByBranch _ _ _ _
  · exact discreet_selectByBranch _ _ _ _

/-! ### Templates and operations -/

theorem discreet_templateFloatJump (cond : Condition) (target : Label) :
    Discreet C before lent (templateFloatJump cond target) := by
  unfold templateFloatJump
  split
  · exact (discreet_jcc _ _).bind fun _ => discreet_jcc _ _
  · exact tame_newLabel_bind fun unordered _ =>
      (tame_jccShort (l := unordered) (by simp)).bind fun _ => (tame_jcc _ _).bind fun _ =>
      (tame_bind (l := unordered) (by simp) (by omega)).weaken (fun _ => id) fun _ _ h =>
        (h.mono (by simp) (by simp) (Nat.le_refl _)).reset

theorem discreet_templateJump (x : Expansion) (cond : Condition) (a b target : Nat) :
    Discreet C before lent (templateJump x cond a b target) := by
  unfold templateJump
  refine Discreet.bind (discreet_does (finds_operand x a).lowers.does) fun a =>
    Discreet.bind (discreet_does (finds_operand x b).lowers.does) fun b =>
    Discreet.bind (discreet_does (finds_label x target).lowers.does) fun l =>
    Discreet.bind (discreet_does (does_compare a b)) fun _ => ?_
  split
  · exact discreet_templateFloatJump _ _
  · exact discreet_jcc _ _

theorem discreet_templateBinary (op : TemplateBinary) (a b result : Operand)
    (info : Option DebugInfo) :
    Discreet C before lent (templateBinary op a b result info) := by
  have hsets : Effect.unlabelled.Sets result := unlabelled_open.sets result
  cases op with
  | add | sub | mul | div | rem => exact discreet_arith _ _ _ _ _
  | and | or | xor => exact discreet_does (does_binary hsets)
  | shl | shr | ushr => exact discreet_does (does_shift hsets)

theorem unlabelled_info (info : DebugInfo) : info.Within .unlabelled := fun _ _ => trivial

/-- A micro-operation that binds no label of its template. -/
theorem discreet_microOp (x : Expansion) {op : MicroOp} (hop : ∀ k, op ≠ .bind k) :
    Discreet C before lent (microOp x op) := by
  have hwithin : op.Within C .unlabelled x.operands := op.within_naming x.operands
  cases op with
  | bind k => exact absurd rfl (hop k)
  | binary op a b result =>
    exact Discreet.bind (discreet_does (finds_operand x a).lowers.does) fun a =>
      Discreet.bind (discreet_does (finds_operand x b).lowers.does) fun b =>
      Discreet.bind (discreet_does (finds_operand x result).lowers.does) fun r =>
      discreet_templateBinary _ _ _ _ _
  | jmp label =>
    exact Discreet.bind (discreet_does (finds_label x label).lowers.does) fun l => discreet_jmp l
  | jcc cond a b target => exact discreet_templateJump x _ _ _ _
  | _ =>
    exact discreet_does (does_plainMicroOp unlabelled_open (fun i _ => unlabelled_info i)
      (fun i _ => unlabelled_info i) hwithin rfl)

/-- An operation that binds no label that an operation names, and has no template. -/
theorem discreet_lower {op : Operation} (hlabel : ∀ l, op ≠ .label l)
    (htemplate : ∀ t operands info infoAfter, op ≠ .template t operands info infoAfter) :
    Discreet C before lent (lower op) := by
  by_cases hplain : op.isPlain = true
  · refine discreet_does (does_plainOperation ?_ hplain)
    cases op with
    | label | arith | convert | compareToInt | branch | floatBranch | tableSwitch | condMove
  | template =>
      cases hplain
    | move src dst => exact unlabelled_receives src dst
    | logic op left right result => exact unlabelled_open.sets result
    | shift op value count result => exact unlabelled_open.sets result
    | negate value result | abs value result | sqrt value result | lea value result =>
      exact unlabelled_open.sets result
    | monitorAddress index result | stackAllocate index result => exact unlabelled_open.sets result
    | significantBit most value result => exact unlabelled_open.sets result
    | nullCheck object info => exact unlabelled_info info
    | directCall target info | indirectCall target info | throw target info =>
      exact ⟨trivial, unlabelled_info info⟩
    | nativeCall symbol address info => exact ⟨trivial, unlabelled_info info⟩
    | uncommonTrap info => exact ⟨trivial, unlabelled_info info⟩
    | ret value => exact unlabelled_open
    | compareAndSwap cell expected newValue => exact ⟨trivial, fun _ _ => trivial⟩
    | _ => trivial
  · cases op with
    | label l => exact absurd rfl (hlabel l)
    | template t operands info infoAfter => exact absurd rfl (htemplate t operands info infoAfter)
    | arith op left right result info => exact discreet_arith op left right result info
    | convert op src dst => exact discreet_convert op src dst
    | compareToInt op left right result => exact discreet_compareToInt op left right result
    | branch cond target => exact discreet_branch cond target
    | floatBranch cond target unordered => exact (discreet_jcc _ _).bind fun _ => discreet_jcc _ _
    | tableSwitch index low targets default =>
      have hswitch : Discreet C before lent (tableSwitch index low targets default) :=
        discreet_tableSwitch index low targets default
      exact hswitch
    | condMove cond unorderedIsTrue trueValue falseValue result =>
      exact discreet_condMove cond unorderedIsTrue trueValue falseValue result
    | _ => exact absurd rfl hplain

end MachineCode
