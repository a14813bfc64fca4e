import MachineCode.Proofs.Execution.Deciding
import MachineCode.Proofs.Execution.Expansions
import MachineCode.Proofs.Execution.Scalars
import MachineCode.Proofs.Execution.Traps
import MachineCode.Proofs.Execution.Truncating

/-! What compares of floats decide: the branches that follow them, three-way compares and the jumps
of templates. The flags of operands without an order are those of operands that are equal and less
at once, and only the parity flag tells. -/
namespace MachineCode

open X64 Lower Machine Chunk

/-- Whether floats in this order meet the condition, in its signed spelling or in its unsigned one.
Without an order they are not equal, and meet no other condition. -/
def FloatOrder.meets (order : FloatOrder) : Condition → Bool
  | .eq => order == .equal
  | .ne => order != .equal
  | .lt | .bt => order == .less
  | .le | .be => order == .less || order == .equal
  | .gt | .at => order == .greater
  | .ge | .ae => order == .greater || order == .equal

/-- The result of a three-way compare. -/
def FloatOrder.number (order : FloatOrder) (unordered : Int) : Int :=
  match order with
  | .less => -1
  | .equal => 0
  | .greater => 1
  | .unordered => unordered

/-- How the floats in the two operands are ordered. -/
def Site.order? (S : Site) (frame : Frame) (c : Machine)
    (left right : Operand) : Option FloatOrder := do
  let a ← S.value? frame c left
  let b ← S.value? frame c right
  return (left.kind.scalar a).compare (left.kind.scalar b)

@[simp] theorem Site.order?_core {S : Site} {frame : Frame} (machine : Machine)
    (left right : Operand) :
    S.order? frame machine.core left right = S.order? frame machine left right := by
  simp only [order?, value?_core]

theorem FloatOrder.cond_flags {order : FloatOrder} (h : order ≠ .unordered) (c : Condition) :
    (orderFlags order).cond (.ofCondition c.toUnsigned) = order.meets c := by
  cases order with
  | unordered => exact absurd rfl h
  | less | equal | greater => cases c <;> rfl

/-! ### Compares -/

namespace Machine

theorem executes_ucomis_lane {s : Machine} {next v : Word} {double : Bool} {x : Xmm} {y : Xm}
    (h : s.ReadsLane next double v y) :
    Executes (.ucomis double x y) next s fun c =>
      c = { s with flags := orderFlags ((s.scalar double x).compare
        ((FloatFormat.ofDouble double).decode v.toNat)) } :=
  (yields_readLane (x := .reg x) rfl).after ((yields_readLane h).after (yields_setFlags _))

end Machine

namespace Lower

variable {S : Site} {C : Context} {left right : Operand} {x : Xmm}

/-- With the order of the operands the core is as `P` says. -/
def Outcome (S : Site) (frame : Frame) (left right : Operand)
    (P : FloatOrder → Assertion) : Assertion := fun s c =>
  ∃ order, S.order? frame s left right = some order ∧ P order s c

/-- The flags are those of the order, and nothing else has changed but the scratch register. -/
structure Ranked (order : FloatOrder) (s c : Machine) : Prop where
  flags : c.flags = orderFlags order
  keeps : s.Keeps (fun _ => False) (· = floatScratch) (fun _ => False) c

/-- What a compare of floats needs. A constant is brought to the scratch register. -/
structure CanCompare (left right : Operand) (x : Xmm) : Prop where
  kind : right.kind = left.kind
  float : left.kind.isFloating = true
  left : xmm? left = some x
  spare : ∀ k, right = .const k → x ≠ floatScratch

theorem computes_compareFloats (h : CanCompare left right x) :
    Computes S C (compare left right)
      (fun s => S.Readable s ∧ S.Accessible C.frame s right) fun _ =>
      Outcome S C.frame left right Ranked := by
  obtain ⟨hkind, hfloat, hx, hspare⟩ := h
  have hwidth := Kind.laneWidth_isDouble hfloat
  have htake : Computes S C (takeScalar (.ucomis right.kind.isDouble x) right) _ fun _ =>
    Taken S C.frame right
      fun v s c => c = { s with flags := orderFlags ((s.scalar right.kind.isDouble x).compare
        ((FloatFormat.ofDouble right.kind.isDouble).decode v.toNat)) } :=
    computes_takeScalar (hkind ▸ hfloat) (fun _ => rfl) (fun _ => rfl) (fun _ _ => rfl)
      (fun s next v y hv => executes_ucomis_lane hv) fun v s c hc => by rw [hc]
  rw [hkind] at htake
  unfold compare
  dsimp only
  rw [if_pos hfloat, compareFloat_eq_bind]
  refine (finds_xmm left).computes fun x' hx' => ?_
  cases hx.symm.trans hx'
  refine htake.mono fun s _ hs => ⟨hs, ?_⟩
  rintro _ _ ⟨b, s', ⟨hb, hkeeps⟩, rfl⟩
  have hleft : s'.scalar left.kind.isDouble x = left.kind.scalar ((s.xmmReg x).setWidth 64) := by
    rw [scalar_keeps hkeeps fun ⟨⟨k, hk⟩, heq⟩ => hspare k hk heq, Machine.scalar,
      Kind.scalar, hwidth]
  refine ⟨(left.kind.scalar ((s.xmmReg x).setWidth 64)).compare (left.kind.scalar b), ?_, ?_, ?_⟩
  · rw [Site.order?, Site.value?_xmm hx, hb]
    rfl
  · change orderFlags _ = _
    rw [hleft, hkind]
    rfl
  · exact (hkeeps.mono (fun _ => id) (fun _ h => h.2) fun _ => id).trans (keeps_flags _)

end Lower

/-! ### Two branches -/

/-- The first branch goes to its label if the operands have no order. The second one is about
operands that have one. -/
theorem Site.Hosts.advances_branches {S : Site} {pre new post : List Chunk} {final : Draft}
    {short short' : Bool} {cond : Cond} {a b : Label} {order : FloatOrder} {P : Machine → Prop}
    {machine : Machine} (hnew : new = [.branch short (some .p) a, .branch short' (some cond) b])
    (hhosts : S.Hosts (pre ++ (new ++ post)) final) (hat : S.Stands (extent pre) P machine)
    (hflags : machine.flags = orderFlags order) :
    ∃ p q machine', final.buffer.labelOffset a = some p ∧ final.buffer.labelOffset b = some q ∧
      machine.Advances (S.Span (extent pre) (extent (pre ++ new))) machine' ∧
      machine'.core = machine.core ∧
      machine'.rip = S.addressOf (if order = .unordered then p else
        if (orderFlags order).cond cond then q else extent (pre ++ new)) := by
  subst hnew
  let first : Chunk := .branch short (some .p) a
  let second : Chunk := .branch short' (some cond) b
  have hsize : ∀ short cond l, 0 < (Chunk.branch short (some cond) l).size := fun short cond l => by
    cases short <;> simp [Chunk.size, pieces, Piece.length, ReferenceKind.width, longOpcode]
  have hfirst : 0 < first.size := hsize short .p a
  have hsecond : 0 < second.size := hsize short' cond b
  have hextent : extent (pre ++ [first]) = extent pre + first.size := by simp
  have hextent' : extent (pre ++ [first, second]) = extent (pre ++ [first]) + second.size := by
    simp [Nat.add_assoc]
  have hhosts' : S.Hosts ((pre ++ [first]) ++ second :: post) final := by simpa using hhosts
  obtain ⟨p, m₁, hp, hstep, hcore, hrip⟩ := hhosts.step_branch hat
  -- The second label is placed whether or not control gets to its branch.
  let there : Machine := { m₁ with rip := S.addressOf (extent (pre ++ [first])) }
  have hthere : S.Stands (extent (pre ++ [first])) P there := hat.moved hcore rfl
  obtain ⟨q, m₂, hq, hstep', hcore', hrip'⟩ := hhosts'.step_branch hthere
  have hinside : S.Span (extent pre) (extent (pre ++ [first, second])) machine.rip :=
    ⟨extent pre, Nat.le_refl _, by omega, hat.rip⟩
  have hflags' : there.flags = orderFlags order := (congrArg Machine.flags hcore).trans hflags
  by_cases horder : order = .unordered
  · refine ⟨p, q, m₁, hp, hq, ⟨m₁, hinside, hstep, .refl _⟩, hcore, ?_⟩
    have hpf : machine.flags.cond .p = true := hflags ▸ (pf_orderFlags order).mpr horder
    rw [hrip, if_pos horder]
    exact congrArg S.addressOf (if_pos hpf)
  · have hpf : machine.flags.cond .p = false :=
      Bool.eq_false_iff.mpr fun h => horder ((pf_orderFlags order).mp (hflags ▸ h))
    have hpasses : m₁.rip = S.addressOf (extent (pre ++ [first])) := by
      rw [hrip, hextent]
      exact congrArg S.addressOf (if_neg (by rw [Option.all_some, hpf]; exact Bool.false_ne_true))
    have hsame : there = m₁ := by
      change { m₁ with rip := _ } = m₁
      rw [← hpasses]
    have hinside' : S.Span (extent pre) (extent (pre ++ [first, second])) there.rip :=
      ⟨extent (pre ++ [first]), by omega, by omega, rfl⟩
    refine ⟨p, q, m₂, hp, hq, ⟨m₁, hinside, hstep, ?_⟩, hcore'.trans hcore, ?_⟩
    · exact hsame ▸ .step hinside' hstep' (.refl _)
    · rw [hrip', if_neg horder, hextent', ← hflags']
      rfl

namespace Lower

variable {S : Site} {C : Context} {left right : Operand} {x : Expansion} {g : Gpr}
  {L : Label → Assertion}

theorem lays_floatBranch (cond : Condition) (target unordered : Label) :
    Lays S C (floatBranch cond target unordered) fun _ _ new _ => ∃ short short', new =
      [.branch short (some .p) unordered,
        .branch short' (some (.ofCondition cond.toUnsigned)) target] :=
  ((lays_jcc .p unordered).bind fun _ => lays_jcc (.ofCondition cond.toUnsigned) target).mono
    fun _ _ _ _ _ _ ⟨_, _, _, hnew, ⟨short, h⟩, short', h'⟩ =>
      ⟨short, short', by rw [hnew, h, h']; rfl⟩

/-! ### Jumps of templates -/

/-- Two branches that lead to the label if the condition is met, and else to their end. -/
def JumpsIf (cond : Condition) (l : Label) : Site.Claim := fun pre new final =>
  ∃ short short' c a, new = [.branch short (some .p) a, .branch short' (some c) l] ∧
    ∀ p q, final.buffer.labelOffset a = some p → final.buffer.labelOffset l = some q →
    ∀ order : FloatOrder,
      (if order = .unordered then p else if (orderFlags order).cond c then q
        else extent (pre ++ new)) =
        if order.meets cond then q else extent (pre ++ new)

theorem lays_templateFloatJump (cond : Condition) (l : Label) :
    Lays S C (templateFloatJump cond l) fun _ => JumpsIf cond l := by
  unfold templateFloatJump
  split
  · rename_i hne
    refine ((lays_jcc .p l).bind fun _ => lays_jcc .ne l).mono ?_
    rintro _ pre _ post final - ⟨_, _, _, rfl, ⟨short, rfl⟩, short', rfl⟩
    refine ⟨short, short', .ne, l, rfl, fun p q hp hq order => ?_⟩
    cases hp.symm.trans hq
    subst hne
    cases order <;> rfl
  · rename_i hne
    refine (lays_newLabel.bind fun unordered => (lays_jccShort .p unordered).bind fun _ =>
      (lays_jcc (.ofCondition cond.toUnsigned) l).bind fun _ => lays_bind unordered).mono ?_
    rintro _ pre _ post final - ⟨unordered, _, _, rfl, rfl, _, _, _, rfl, rfl, _, _, _, rfl,
      ⟨short, rfl⟩, rfl, hl⟩
    refine ⟨true, short, .ofCondition cond.toUnsigned, unordered, by simp,
      fun p q hp hq order => ?_⟩
    have hend : p = extent (pre ++ ([] ++ ([.branch true (some .p) unordered] ++
        ([.branch short (some (.ofCondition cond.toUnsigned)) l] ++ [])))) := by
      rw [hl] at hp
      cases hp
      simp
    by_cases horder : order = .unordered
    · have hunmet : order.meets cond = false := by
        subst horder
        cases cond <;> first | rfl | exact absurd rfl hne
      rw [if_pos horder, hunmet, if_neg Bool.false_ne_true, hend]
    · rw [if_neg horder, FloatOrder.cond_flags horder]

theorem finds_labelAt (x : Expansion) (i : Nat) :
    Finds C (x.label i) fun l => x.labels[i]? = some l := by
  unfold Expansion.label
  split
  · exact finds_pure (by assumption)
  · exact finds_unhandled _

/-- The compare leads to its end, and the branches behind it jump if the condition is met. -/
theorem lays_templateJump {y : Xmm} {cond : TemplateCondition} {a b target : Nat}
    (h : CanCompare left right y) (ha : x.operands[a]? = some left)
    (hb : x.operands[b]? = some right) :
    Lays S C (microOp x (.jcc cond a b target)) fun _ pre new final =>
      ∃ l new₁ new₂, x.labels[target]? = some l ∧
      new = new₁ ++ new₂ ∧
      S.Leads (fun s c => c = s ∧ S.Readable s ∧ S.Accessible C.frame s right)
        (Outcome S C.frame left right Ranked) noExit
        pre new₁ final ∧
      JumpsIf cond.condition l (pre ++ new₁) new₂ final := by
  rw [microOp, templateJump, operand_of ha, operand_of hb]
  simp only [pure_bind]
  refine (finds_labelAt x target).lays_bind fun l hl => ?_
  rw [if_pos h.float]
  refine (Lays.bind (computes_compareFloats h) fun _ =>
    lays_templateFloatJump cond.condition l).mono ?_
  rintro _ pre new post final - ⟨_, new₁, new₂, hnew, hleads, hjumps⟩
  exact ⟨l, new₁, new₂, hl, hnew, hleads, hjumps⟩

theorem lays_microBind {target : Nat} :
    Lays S C (microOp x (.bind target)) fun _ pre _ final => ∃ l,
    x.labels[target]? = some l ∧ final.buffer.labelOffset l = some (extent pre) := by
  exact (finds_labelAt x target).lays_bind fun l hl =>
    (lays_bind l).mono fun _ pre _ post final _ h => ⟨l, hl, h.2⟩

/-! ### Three-way compares -/

/-- The flags are those of the order, and nothing else has changed but the scratch register and the
result register. -/
structure Weighed (g : Gpr) (order : FloatOrder) (s c : Machine) : Prop where
  flags : c.flags = orderFlags order
  keeps : s.Keeps (· = g) (· = floatScratch) (fun _ => False) c

/-- The result register receives something, and the flags stay. -/
theorem Weighed.setReg {order : FloatOrder} {s c : Machine} (h : Weighed g order s c) (v : Word) :
    Weighed g order s (c.setReg g v) := ⟨h.flags, h.keeps.trans (keeps_setReg (G := (· = g)) rfl v)⟩

/-- The order is one of these, and its flags are there. -/
def Knows (S : Site) (frame : Frame) (left right : Operand) (g : Gpr)
    (A : FloatOrder → Prop) : Assertion :=
  Outcome S frame left right fun order s c => A order ∧ Weighed g order s c

/-- The same with a number in the result register. -/
def Proposes (S : Site) (frame : Frame) (left right : Operand) (g : Gpr) (v : BitVec 32)
    (A : FloatOrder → Prop) : Assertion :=
  Outcome S frame left right fun order s c =>
    (A order ∧ Weighed g order s c) ∧ (c.reg g).setWidth 32 = v

/-- The result register holds the number of the order. -/
def Decided (S : Site) (frame : Frame) (left right : Operand) (g : Gpr)
    (unordered : Int) : Assertion :=
  Outcome S frame left right fun order s c =>
    (c.reg g).setWidth 32 = BitVec.ofInt 32 (order.number unordered) ∧
    s.Keeps (· = g) (· = floatScratch) (fun _ => False) c

section ThreeWay

variable {v : BitVec 32} {A B : FloatOrder → Prop} {unordered : Int} {s c : Machine} {frame : Frame}

theorem Outcome.mono {P P' : FloatOrder → Assertion} {c' : Machine}
    (h : Outcome S frame left right P s c) (hP : ∀ order, P order s c → P' order s c') :
    Outcome S frame left right P' s c' :=
  h.imp fun order h => ⟨h.1, hP order h.2⟩

theorem runs_propose (imm : UInt64) :
    Runs S C (emit (.movImm false g imm)) (Knows S C.frame left right g A)
    (fun _ => Proposes S C.frame left right g (imm.toBitVec.setWidth 32) A) L :=
  (computes_movImm (A := fun _ => True) false g imm).runs fun s c _ hs =>
    ⟨trivial, fun _ c' hc => by
    subst hc
    refine hs.mono fun order h => ⟨⟨h.1, h.2.setReg _⟩, ?_⟩
    rw [reg_setReg_self]
    exact setWidth_low _ (.ofWide false)⟩

/-- A branch takes the orders out whose flags meet its condition. -/
theorem runs_takeOut (cond : Cond) (done : Label)
    (hB : ∀ order, A order → (orderFlags order).cond cond = false → B order)
    (hv : ∀ order, A order → (orderFlags order).cond cond = true →
      v = BitVec.ofInt 32 (order.number unordered)) :
    Runs S C (jccShort cond done) (Proposes S C.frame left right g v A)
      (fun _ => Proposes S C.frame left right g v B)
      fun l s c => l = done ∧ Decided S C.frame left right g unordered s c := by
  refine (runs_jccShort cond done).mono ?_ ?_
  · rintro _ s c ⟨hs, hcond⟩
    exact hs.mono fun order h => ⟨⟨hB order h.1.1 (h.1.2.flags ▸ hcond), h.1.2⟩, h.2⟩
  · rintro l s c ⟨rfl, hs, hcond⟩
    exact ⟨rfl, hs.mono fun order h =>
      ⟨h.2.trans (hv order h.1.1 (h.1.2.flags ▸ hcond)), h.1.2.keeps⟩⟩

/-- What goes on is greater or equal. -/
theorem runs_lessOrUnordered {op : CompareToIntOp} (hop : op ≠ .lcmp) (done : Label) :
    Runs S C (lessOrUnordered op g done) (Knows S C.frame left right g fun _ => True)
      (fun _ => Knows S C.frame left right g fun order => order = .equal ∨ order = .greater)
      fun l s c => l = done ∧ Decided S C.frame left right g op.unorderedResult s c := by
  have hforget : ∀ {v A} s c, Proposes S C.frame left right g v A s c →
      Knows S C.frame left right g A s c :=
    fun s c h => h.mono fun _ => And.left
  have hless : ∀ unordered : Int, Runs S C (jccShort .b done)
      (Proposes S C.frame left right g (-1) fun order => order ≠ .unordered)
      (fun _ => Knows S C.frame left right g fun order => order = .equal ∨ order = .greater)
      fun l s c => l = done ∧ Decided S C.frame left right g unordered s c := by
    intro unordered
    have htake : Runs S C (jccShort .b done)
      (Proposes S C.frame left right g (-1) fun order => order ≠ .unordered)
        (fun _ => Proposes S C.frame left right g (-1) fun order => order =
          .equal ∨ order = .greater)
        fun l s c => l = done ∧ Decided S C.frame left right g unordered s c := by
      refine runs_takeOut .b done ?_ ?_
      · intro order hne hcond
        cases order with
        | equal => exact .inl rfl
        | greater => exact .inr rfl
        | unordered => exact absurd rfl hne
        | less => cases hcond
      · intro order hne hcond
        cases order with
        | less => rfl
        | unordered => exact absurd rfl hne
        | equal | greater => cases hcond
    exact htake.mono (fun _ => hforget) fun _ _ _ => id
  have hordered : ∀ (v : BitVec 32) (unordered : Int), v = BitVec.ofInt 32 unordered →
    Runs S C (jccShort .p done)
      (Proposes S C.frame left right g v fun _ => True)
      (fun _ => Proposes S C.frame left right g v fun order => order ≠ .unordered)
      fun l s c => l = done ∧ Decided S C.frame left right g unordered s c := by
    intro v unordered hv
    refine runs_takeOut .p done ?_ ?_
    · rintro order - hcond rfl
      cases hcond
    · intro order _ hcond
      rw [(pf_orderFlags order).mp hcond]
      exact hv
  cases op with
  | lcmp => exact absurd rfl hop
  | fcmpl | dcmpl =>
    exact (runs_propose 0xFFFFFFFF).bind fun _ => (hordered _ (-1) rfl).bind fun _ => hless _
  | fcmpg | dcmpg =>
    refine (runs_propose 1).bind fun _ => (hordered _ 1 rfl).bind fun _ => ?_
    exact Runs.bind
      (Q := fun _ => Proposes S C.frame left right g (-1) fun order => order ≠ .unordered)
      ((runs_propose 0xFFFFFFFF).adapt fun s c _ h =>
        ⟨s, hforget s c h, fun _ _ => id, fun _ _ => id⟩) fun _ => hless _

/-- Of what is not less only what is greater is not equal. -/
theorem runs_greaterOrEqual :
    Runs S C (emit (.setcc .ne g) >>= fun _ => emit (.extend .zeroByte g (.reg g)))
    (Knows S C.frame left right g fun order => order = .equal ∨ order = .greater)
    (fun _ => Decided S C.frame left right g unordered) L := by
  let Differs : Assertion :=
    Outcome S C.frame left right fun order s c => (order = .equal ∨ order = .greater) ∧
    low (c.reg g) .byte = (if order = .equal then 0 else 1) ∧
    s.Keeps (· = g) (· = floatScratch) (fun _ => False) c
  refine Runs.bind (Q := fun _ => Differs)
    ((computes_setcc (A := fun _ => True)).runs fun s c _ hs =>
    ⟨trivial, fun _ c' hc => ?_⟩) fun _ =>
      (computes_extendByte (A := fun _ => True)).runs fun s c _ hs =>
    ⟨trivial, fun _ c' hc => ?_⟩
  · subst hc
    refine Outcome.mono hs fun order ⟨horder, hflags, hkeeps⟩ =>
      ⟨horder, ?_, hkeeps.trans (keeps_setReg (G := (· = g)) rfl _)⟩
    rw [reg_setReg_self, low_merge_byte, hflags]
    obtain rfl | rfl := horder <;> rfl
  · subst hc
    refine Outcome.mono hs fun order ⟨horder, hlow, hkeeps⟩ =>
      ⟨?_, hkeeps.trans (keeps_setReg (G := (· = g)) rfl _)⟩
    rw [reg_setReg_self, hlow]
    obtain rfl | rfl := horder <;> rfl

theorem computes_compareFloatsToInt {op : CompareToIntOp} {x : Xmm} {result : Operand}
    (hop : op ≠ .lcmp) (h : CanCompare left right x) (hg : gpr? result = some g) :
    Computes S C (compareToInt op left right result)
      (fun s => S.Readable s ∧ S.Accessible C.frame s right)
      fun _ => Decided S C.frame left right g op.unorderedResult := by
  unfold compareToInt
  refine (finds_gpr result).runs fun g' hg' => ?_
  cases hg.symm.trans hg'
  have hcompare :
      Runs S C (compare left right) (fun s c => c = s ∧ S.Readable s ∧ S.Accessible C.frame s right)
      (fun _ => Knows S C.frame left right g fun _ => True) noExit :=
    (computes_compareFloats h).mono fun s _ hs => ⟨hs, fun _ c hc => hc.mono fun order hranked =>
      ⟨trivial, hranked.flags, hranked.keeps.mono (fun _ => False.elim) (fun _ => id) fun _ => id⟩⟩
  refine hcompare.bind fun _ => runs_newLabel fun done => ?_
  have hall :=
    ((runs_lessOrUnordered hop done).bind fun _ => runs_greaterOrEqual).join (L := noExit)
    (R := fun _ => Decided S C.frame left right g op.unorderedResult) (fun _ _ _ => id)
      fun _ _ _ h => .inr h
  simpa only [bind_assoc] using hall

end ThreeWay

end Lower

/-! ### Installed code -/

namespace Installation

variable {I : Installation} {left right : Operand} {y : Xmm} {order : FloatOrder}
  {start stop : Nat} {machine : Machine}

/-- A branch on a compare of floats goes to where one of its labels is placed, or falls through. -/
theorem HasCode.advances_floatBranch {cond : Condition} {target unordered : Label}
    (h : I.HasCode (.floatBranch cond target unordered) start stop)
    (hloaded : machine.Loaded I.base I.image) (hrip : machine.rip = I.base + BitVec.ofNat 64 start)
    (hflags : machine.flags = orderFlags order) :
    ∃ p q p' q' machine', I.HasCode (.label target) p q ∧ I.HasCode (.label unordered) p' q' ∧
      machine.Advances (I.site.Span start stop) machine' ∧ machine'.rip = I.base + BitVec.ofNat 64
        (if order = .unordered then p' else if order.meets cond then p else stop) := by
  obtain ⟨last, hlast⟩ := I.exists_ends
  obtain ⟨pre, new, post, hhosts, ⟨short, short', hnew⟩, rfl, rfl⟩ :=
    h.hosts_last hlast fun C _ _ => lays_floatBranch cond target unordered
  have hat : I.site.Stands (extent pre) (fun _ => True) machine := ⟨hloaded, hrip, trivial⟩
  obtain ⟨p', p, machine', hp', hp, hadvances, -, hrip'⟩ := hhosts.advances_branches hnew hat hflags
  obtain ⟨q, htarget⟩ := exists_hasCode_label hlast h.mem (List.mem_cons_self ..) hp
  obtain ⟨q', hunordered⟩ :=
    exists_hasCode_label hlast h.mem (List.mem_cons_of_mem _ (List.mem_cons_self ..)) hp'
  refine ⟨p, q, p', q', machine', htarget, hunordered, hadvances,
    hrip'.trans (congrArg I.site.addressOf ?_)⟩
  by_cases horder : order = .unordered
  · rw [if_pos horder, if_pos horder]
  · rw [if_neg horder, if_neg horder, FloatOrder.cond_flags horder]

/-- A jump of a template goes to where its label is bound if the condition is met, and else falls
through. -/
theorem HasMicro.advances_jcc {x : Expansion} {cond : TemplateCondition} {a b target p q : Nat}
    (h : I.HasMicro x (.jcc cond a b target) start stop) (hbound : I.HasMicro x (.bind target) p q)
    (hcompare : CanCompare left right y) (ha : x.operands[a]? = some left)
    (hb : x.operands[b]? = some right) (hloaded : machine.Loaded I.base I.image)
    (hrip : machine.rip = I.base + BitVec.ofNat 64 start) (hreadable : I.site.Readable machine)
    (hright : I.site.Accessible I.source.frame machine right) :
    ∃ machine', machine.Advances (I.site.Span start stop) machine' ∧
      Outcome I.site I.source.frame left right (fun order _ jumped =>
        jumped.rip = I.base + BitVec.ofNat 64 (if order.meets cond.condition then p else stop))
          machine machine' := by
  obtain ⟨last, hlast⟩ := I.exists_ends
  obtain ⟨_, _, _, -, ⟨l, hl, hoffset⟩, rfl, -⟩ :=
    hbound.hosts_last hlast fun C _ _ => lays_microBind
  have hlays : ∀ C, C.frame = I.source.frame → Lays I.site C (microOp x (.jcc cond a b target)) _ :=
    fun C hC => hC ▸ lays_templateJump hcompare ha hb
  obtain ⟨pre, _, post, hhosts,
      ⟨l', new₁, new₂, hl', rfl, hleads, short, short', c, other, hnew, hgoes⟩, rfl, rfl⟩ :=
    h.hosts_last hlast fun C hC _ => hlays C hC
  cases hl.symm.trans hl'
  obtain ⟨m₁, hwalks, hend | ⟨_, _, -, hexit⟩⟩ :=
    hleads machine.core machine ⟨hloaded, hrip, rfl, hreadable, hright⟩
  · obtain ⟨order, horder, hflags, -⟩ := hend.core
    have hhosts' : I.site.Hosts ((pre ++ new₁) ++ (new₂ ++ post)) last := by simpa using hhosts
    obtain ⟨p', q', machine', hp', hq', hadvances, -, hrip'⟩ :=
      hhosts'.advances_branches hnew hend hflags
    cases hoffset.symm.trans hq'
    rw [hgoes p' _ hp' hq', List.append_assoc] at hrip'
    refine ⟨machine',
      .of_walks (Site.Span.grow (Nat.le_refl _) (by simp) hwalks) (hadvances.mono fun _ =>
      Site.Span.mono (by simp) (by simp)), order, ?_, hrip'⟩
    rwa [Site.order?_core] at horder
  · exact hexit.core.elim

end Installation

/-- From any state in which the right operand can be accessed, the code of a compare of floats runs
to its end. A branch that follows it goes to where its last label is placed if the operands have no
order, and otherwise to where its first one is if they meet the condition, and falls through
elsewhere. The code of a three-way compare leaves in the low half of its result register -1, 0 or 1,
where operands without an order count as the operation says. The compare-and-jump of a template goes
to where its label is bound, on the fast path or on the slow one, if the condition is met, and falls
through elsewhere; operands without an order are unequal, and meet no other condition. -/
theorem exists_run_compareFloats {I : Installation} {left right : Operand} {y : Xmm} {start : Nat}
    {machine : Machine} (h : CanCompare left right y) (hloaded : machine.Loaded I.base I.image)
    (hrip : machine.rip = I.base + BitVec.ofNat 64 start) (hreadable : I.site.Readable machine)
    (hright : I.site.Accessible I.source.frame machine right) :
    (∀ stop, I.HasCode (.compare left right) start stop →
      ∃ machine', machine.RunsTo (I.base + BitVec.ofNat 64 stop) machine' ∧
      Outcome I.site I.source.frame left right
        (fun order _ branching => ∀ cond target unordered next,
        I.HasCode (.floatBranch cond target unordered) stop next →
        ∃ p q p' q' machine'', I.HasCode (.label target) p q ∧
          I.HasCode (.label unordered) p' q' ∧
          branching.Advances (I.site.Span stop next) machine'' ∧
          machine''.rip = I.base + BitVec.ofNat 64
            (if order = .unordered then p' else if order.meets cond then p
              else next)) machine machine') ∧
    (∀ op stop result g, op ≠ .lcmp → gpr? result = some g →
      I.HasCode (.compareToInt op left right result) start stop →
      ∃ machine', machine.RunsTo (I.base + BitVec.ofNat 64 stop) machine' ∧
        Outcome I.site I.source.frame left right (fun order _ ordered =>
          (ordered.reg g).setWidth 32 =
            BitVec.ofInt 32 (order.number op.unorderedResult)) machine machine') ∧
    ∀ (x : Expansion) cond a b target stop p q, x.operands[a]? = some left →
    x.operands[b]? = some right →
      I.HasMicro x (.jcc cond a b target) start stop → I.HasMicro x (.bind target) p q →
      ∃ machine', machine.Advances (I.site.Span start stop) machine' ∧
        Outcome I.site I.source.frame left right (fun order _ jumped =>
          jumped.rip = I.base + BitVec.ofNat 64 (if order.meets cond.condition then p else stop))
            machine machine' := by
  refine ⟨fun stop hcode => ?_, fun op stop result g hop hg hcode => ?_,
    fun x cond a b target stop p q ha hb hcode hbound =>
    hcode.advances_jcc hbound h ha hb hloaded hrip hreadable hright⟩
  · have hcompare : ∀ C, C.frame = I.source.frame → Computes I.site C (lower (.compare left right))
        (fun s => I.site.Readable s ∧ I.site.Accessible I.source.frame s right)
        fun _ => Outcome I.site I.source.frame left right Ranked :=
          fun C hC => hC ▸ computes_compareFloats h
    obtain ⟨machine', hrun, hranked⟩ := hcode.exists_run hcompare hloaded hrip ⟨hreadable, hright⟩
    obtain ⟨order, horder, hflags, hkeeps⟩ := hranked
    rw [Site.order?_core] at horder
    refine ⟨machine', hrun, order, horder, fun cond target unordered next hbranch => ?_⟩
    have hloads : I.site.Loads machine'.core :=
      Site.loads_of_keeps (Machine.loaded_core.mpr hloaded) hkeeps
    exact hbranch.advances_floatBranch (Machine.loaded_core.mp hloads) hrun.rip hflags
  · have hcompare :
        ∀ C, C.frame = I.source.frame →
        Computes I.site C (lower (.compareToInt op left right result))
        (fun s => I.site.Readable s ∧ I.site.Accessible I.source.frame s right)
        fun _ => Decided I.site I.source.frame left right g op.unorderedResult :=
      fun C hC => hC ▸ computes_compareFloatsToInt hop h hg
    obtain ⟨machine', hrun, order, horder, hresult, -⟩ :=
      hcode.exists_run hcompare hloaded hrip ⟨hreadable, hright⟩
    rw [Site.order?_core] at horder
    exact ⟨machine', hrun, order, horder, hresult⟩

/-- NaN has no order beside 1: a branch on less goes to its label for that, a three-way compare that
counts it as greater leaves 1, and a template jumps as they are not equal. -/
theorem exists_run_compareFloats_nan :
    let left : Operand := .reg (Xmm.register ⟨1⟩) .double
    let right : Operand := .const ⟨.double, 0x3FF0000000000000⟩
    let result : Operand := .reg Gpr.rax.register .int
    let machine : Machine := Machine.initial.setXmm ⟨1⟩ 0x7FF8000000000000
    ∃ I : Installation,
      (∃ (start stop next p q : Nat) (machine' machine'' : Machine),
        I.HasCode (.compare left right) start stop ∧
        I.HasCode (.floatBranch .lt ⟨0⟩ ⟨1⟩) stop next ∧ I.HasCode (.label ⟨1⟩) p q ∧
        (I.enter machine start).RunsTo (I.base + BitVec.ofNat 64 stop) machine' ∧
        machine'.Advances (I.site.Span stop next) machine'' ∧
        machine''.rip = I.base + BitVec.ofNat 64 p) ∧
      (∃ (start stop : Nat) (machine' : Machine),
        I.HasCode (.compareToInt .dcmpg left right result) start stop ∧
        (I.enter machine start).RunsTo (I.base + BitVec.ofNat 64 stop) machine' ∧
        (machine'.reg .rax).setWidth 32 = (1 : BitVec 32)) ∧
      ∃ (x : Expansion) (start stop p q : Nat) (machine' : Machine),
        I.HasMicro x (.jcc .jneq 0 1 0) start stop ∧
        I.HasMicro x (.bind 0) p q ∧
        (I.enter machine start).Advances (I.site.Span start stop) machine' ∧
        machine'.rip = I.base + BitVec.ofNat 64 p := by
  intro left right result machine
  let t : Template := ⟨"jump", [.bind 0, .jcc .jneq 0 1 0], none, 1⟩
  let ops : List Operation :=
    [.compare left right, .floatBranch .lt ⟨0⟩ ⟨1⟩, .compareToInt .dcmpg left right result,
      .template t [left, right] none none, .label ⟨0⟩, .label ⟨1⟩, .ret none]
  obtain ⟨I, -, hsource, -, hlow, hhigh⟩ :=
    Installation.exists_installed
      ⟨{ Options.standard with useStackBanging := false }, ⟨true, true⟩, 4096⟩
      ⟨"test", none, .empty, [], ops⟩ 0x10000000 (by decide +kernel)
  have hcan : CanCompare left right ⟨1⟩ := ⟨rfl, rfl, rfl, fun _ _ => by decide⟩
  have horder : ∀ start, I.site.order? I.source.frame (I.enter machine start) left right =
      some .unordered := fun start => by
    change some ((Kind.double.scalar 0x7FF8000000000000).compare
      (Kind.double.scalar 0x3FF0000000000000)) = _
    decide +kernel
  have hrun := fun start => exists_run_compareFloats hcan (Installation.loaded_enter machine start)
    (rfl : (I.enter machine start).rip = I.base + BitVec.ofNat 64 start)
    (Site.readable_of_unprotected rfl hlow hhigh) (Site.accessible_of_none rfl)
  refine ⟨I, ?_, ?_, ?_⟩
  · have hops : I.source.ops = [] ++ .compare left right :: ops.tail := by rw [hsource]; rfl
    obtain ⟨start, stop, hcode, hnext⟩ := I.exists_hasCode_next hops
    obtain ⟨next, hbranch⟩ := hnext _ _ rfl
    obtain ⟨machine', hrun, order, heq, hbranches⟩ := (hrun start).1 stop hcode
    cases (horder start).symm.trans heq
    obtain ⟨_, _, p, q, machine'', -, hlabel, hadvances, hrip⟩ := hbranches _ _ _ _ hbranch
    exact ⟨start, stop, next, p, q, machine', machine'', hcode, hbranch, hlabel,
      hrun, hadvances, hrip⟩
  · have hop : .compareToInt .dcmpg left right result ∈ I.source.ops := by simp [hsource, ops]
    obtain ⟨start, stop, hcode⟩ := I.exists_hasCode hop
    obtain ⟨machine', hrun, order, heq, hresult⟩ :=
      (hrun start).2.1 .dcmpg stop result .rax (by decide) rfl hcode
    cases (horder start).symm.trans heq
    exact ⟨start, stop, machine', hcode, hrun, hresult⟩
  · have hop : .template t [left, right] none none ∈ I.source.ops := by simp [hsource, ops]
    obtain ⟨labels, hmicros⟩ := I.exists_hasMicros hop
    obtain ⟨p, q, hbound⟩ := hmicros (.bind 0) (by simp [t])
    obtain ⟨start, stop, hcode⟩ := hmicros (.jcc .jneq 0 1 0) (by simp [t])
    obtain ⟨machine', hadvances, order, heq, hrip⟩ :=
      (hrun start).2.2 _ .jneq 0 1 0 stop p q rfl rfl hcode hbound
    cases (horder start).symm.trans heq
    exact ⟨_, start, stop, p, q, machine', hcode, hbound, hadvances, hrip⟩

end MachineCode
