import MachineCode.Proofs.Effects.Methods

/-! Runs of whole methods. What every action keeps, a method keeps that consists of actions; and
where actions fail, the method does. -/
namespace MachineCode

open X64 Lower

variable {α β : Type}

/-! ### Triples -/

/-- From a draft that `p` holds of, the step leads to one that `q` holds of, or fails as `r`
says. -/
def Triple (p : Draft → Prop) (x : Lower α) (q : α → Draft → Prop)
    (r : Error → Draft → Prop) : Prop :=
  ∀ d, p d → (∀ a d', x d = .ok a d' → q a d') ∧ ∀ err d', x d = .error err d' → r err d'

section Rules

variable {p : Draft → Prop} {x : Lower α} {q : α → Draft → Prop} {r : Error → Draft → Prop}

theorem Triple.bind {f : α → Lower β} {s : β → Draft → Prop} (hx : Triple p x q r)
    (hf : ∀ a, Triple (q a) (f a) s r) : Triple p (x >>= f) s r := by
  intro d hd
  obtain ⟨hok, herror⟩ := hx d hd
  constructor
  · intro b d'' hrun
    obtain ⟨a, d', hx', hf'⟩ := Step.bind_eq_ok.mp hrun
    exact (hf a d' (hok a d' hx')).1 b d'' hf'
  · intro err d'' hrun
    obtain hx' | ⟨a, d', hx', hf'⟩ := Step.bind_eq_error.mp hrun
    · exact herror err d'' hx'
    · exact (hf a d' (hok a d' hx')).2 err d'' hf'

theorem Triple.weaken {p' : Draft → Prop} {q' : α → Draft → Prop} (hx : Triple p x q r)
    (hp : ∀ d, p' d → p d) (hq : ∀ a d, q a d → q' a d) : Triple p' x q' r :=
  fun d hd => ⟨fun a d' hrun => hq a d' ((hx d (hp d hd)).1 a d' hrun), (hx d (hp d hd)).2⟩

/-- What is known of every successful run may be added. -/
theorem Triple.also {q' : α → Draft → Prop} (hx : Triple p x q r)
    (h : ∀ d a d', p d → x d = .ok a d' → q' a d') : Triple p x (fun a d => q a d ∧ q' a d) r :=
  fun d hd => ⟨fun a d' hrun => ⟨(hx d hd).1 a d' hrun, h d a d' hd hrun⟩, (hx d hd).2⟩

theorem Triple.discard {q : Draft → Prop} (hx : Triple p x (fun _ => q) r) :
    Triple p (discard x) (fun _ => q) r := by
  intro d hd
  constructor
  · intro u d' hrun
    obtain ⟨a, hrun⟩ := Step.discard_eq_ok.mp hrun
    exact (hx d hd).1 a d' hrun
  · exact fun err d' hrun => (hx d hd).2 err d' (Step.discard_eq_error.mp hrun)

theorem triple_of_ok {a : Draft → α} {f : Draft → Draft} (hx : ∀ d, x d = .ok (a d) (f d))
    (h : ∀ d, p d → q (a d) (f d)) : Triple p x q r := by
  refine fun d hd => ⟨fun b d' hrun => ?_, fun err d' hrun => ?_⟩
  · rw [hx] at hrun
    cases hrun
    exact h d hd
  · rw [hx] at hrun
    cases hrun

theorem triple_pure {a : α} (h : ∀ d, p d → q a d) : Triple p (pure a) q r :=
  triple_of_ok (fun _ => rfl) h

theorem triple_modify {f : Draft → Draft} {q : Draft → Prop} (h : ∀ d, p d → q (f d)) :
    Triple p (modify f) (fun _ => q) r :=
  triple_of_ok (fun _ => rfl) h

theorem triple_get : Triple p get (fun a d => p d ∧ a = d) r :=
  triple_of_ok (fun _ => rfl) fun _ hd => ⟨hd, rfl⟩

theorem triple_position : Triple p position (fun n d => p d ∧ n = d.buffer.position) r :=
  triple_of_ok (fun _ => rfl) fun _ hd => ⟨hd, rfl⟩

theorem triple_throw {err : Error} (h : ∀ d, p d → r err d) : Triple p (throw err) q r := by
  refine fun d hd => ⟨fun a d' hrun => absurd hrun Step.throw_ne_ok, fun err' d' hrun => ?_⟩
  cases hrun
  exact h d hd

theorem triple_ofExcept {y : Except Error α} (herror : ∀ err, y = .error err → ∀ d, p d → r err d) :
    Triple p (Lower.ofExcept y) (fun a d => p d ∧ y = .ok a) r := by
  cases y with
  | ok a => exact triple_of_ok (fun _ => rfl) fun _ hd => ⟨hd, rfl⟩
  | error err =>
    refine fun d hd => ⟨fun a d' hrun => (by cases hrun), fun err' d' hrun => ?_⟩
    cases hrun
    exact herror err rfl d hd

theorem triple_forM {xs : List α} {f : α → Lower Unit}
    (hf : ∀ a ∈ xs, Triple p (f a) (fun _ => p) r) : Triple p (xs.forM f) (fun _ => p) r := by
  induction xs with
  | nil => exact triple_pure fun _ => id
  | cons a xs ih => exact Triple.bind (hf a (by simp)) fun _ => ih fun b hb => hf b (by simp [hb])

/-- A step that does not fail with a duplicate record, where other failures are allowed. -/
theorem triple_onBuffer {x : BufferStep α} (hx : CodeBuffer.Grows x)
    (hr : ∀ err d, err.isDuplicate = false → r err d)
    (h : ∀ d a b, p d → x d.buffer = .ok a b → q a { d with buffer := b }) :
    Triple p (onBuffer x) q r := by
  refine fun d hd => ⟨fun a d' hrun => ?_, fun err d' hrun => hr err d' ?_⟩
  · obtain ⟨b, hb, rfl⟩ := onBuffer_eq_ok.mp hrun
    exact h d a b hd hb
  · unfold onBuffer at hrun
    dsimp only at hrun
    split at hrun
    · cases hrun
    · rename_i hb
      cases hrun
      exact hx.error _ _ _ hb

theorem error_record {x : RecordStep Unit} {d d' : Draft} {err : Error}
    (hrun : record x d = .error err d') :
    ∃ t, x d.tables = .error err t ∧ d' = { d with tables := t } := by
  simp only [record] at hrun
  cases hx : x d.tables with
  | ok u t =>
    rw [hx] at hrun
    cases hrun
  | error err' t =>
    rw [hx] at hrun
    cases hrun
    exact ⟨t, rfl, rfl⟩

theorem triple_record {x : RecordStep Unit} {q : Draft → Prop}
    (hok : ∀ d t, p d → x d.tables = .ok () t → q { d with tables := t })
    (herror : ∀ d err t, p d → x d.tables = .error err t → r err { d with tables := t }) :
    Triple p (record x) (fun _ => q) r := by
  refine fun d hd => ⟨fun _ d' hrun => ?_, fun err d' hrun => ?_⟩
  · obtain ⟨t, ht, rfl⟩ := record_eq_ok.mp hrun
    exact hok d t hd ht
  · obtain ⟨t, ht, rfl⟩ := error_record hrun
    exact herror d err t hd ht

end Rules

/-! ### Steps made of actions -/

variable {C : Context} {e : Effect} {I : Draft → Prop} {r : Error → Draft → Prop}

/-- The draft is one of the context, and code that is put off is covered by the effect. -/
structure Covered (C : Context) (e : Effect) (I : Draft → Prop) (d : Draft) : Prop where
  holds : C.Holds d
  pending : ∀ path ∈ d.pending, e.paths path
  inv : I d

theorem pending_of_within {a : Action} {paths : Array SlowPath} (ha : a.Within e)
    (h : ∀ path ∈ paths, e.paths path) : ∀ path ∈ a.pending paths, e.paths path := by
  cases a with
  | enqueue path => exact Array.forall_mem_push.mpr ⟨ha, h⟩
  | _ => exact h

theorem Action.triple {a : Action}
    (hI : ∀ a : Action, a.Within e → Triple I a.perform (fun _ => I) r) (ha : a.Within e) :
    Triple (Covered C e I) a.perform (fun _ => Covered C e I) r := by
  intro d hd
  obtain ⟨hok, herror⟩ := hI a ha d hd.inv
  refine ⟨fun _ d' hrun => ?_, herror⟩
  obtain ⟨hholds, hpending⟩ := Action.perform_ok hd.holds hrun
  exact ⟨hholds, hpending ▸ pending_of_within ha hd.pending, hok () d' hrun⟩

/-- What all actions within an effect keep, a step keeps that is made of them. -/
theorem Lowers.triple {x : Lower α} {p : α → Prop}
    (hI : ∀ a : Action, a.Within e → Triple I a.perform (fun _ => I) r) (hx : Lowers C e x p) :
    Triple (Covered C e I) x (fun a d => p a ∧ Covered C e I d) r := by
  intro d hd
  obtain ⟨as, has, heq, hp⟩ := hx d hd.holds
  have hrun : Triple (Covered C e I) (performAll as) (fun _ => Covered C e I) r :=
    triple_forM fun a ha => Action.triple hI (has a ha)
  refine ⟨fun a d' h => ⟨hp a d' h, ?_⟩, fun err d' h => ?_⟩
  · exact (hrun d hd).1 () d' (heq ▸ Step.discard_of_ok h)
  · exact (hrun d hd).2 err d' (heq ▸ Step.discard_of_error h)

theorem Does.triple {x : Lower Unit}
    (hI : ∀ a : Action, a.Within e → Triple I a.perform (fun _ => I) r) (hx : Does C e x) :
    Triple (Covered C e I) x (fun _ => Covered C e I) r :=
  (Lowers.triple hI hx).weaken (fun _ => id) fun _ _ h => h.2

/-! ### Liberal effects -/

/-- All micro-operations of an operation's template are allowed. -/
def Operation.All (ok : List Operand → MicroOp → Prop) : Operation → Prop
  | .template t operands _ _ => ∀ op ∈ t.fastPath ++ t.slowPath.getD [], ok operands op
  | _ => True

def SlowPath.All (ok : List Operand → MicroOp → Prop) : SlowPath → Prop
  | .template x => ∀ op ∈ x.template.fastPath ++ x.template.slowPath.getD [], ok x.operands op
  | .convertFixup .. => True

/-- Everything is allowed, but only some stores and micro-operations. -/
def Effect.liberal (stores : Location → Nat → Prop) (raws marks : Prop)
    (ok : List Operand → MicroOp → Prop) : Effect where
  binds _ := True
  refers _ := True
  handlers _ := True
  gprs _ := True
  xmms _ := True
  stores := stores
  leaves := True
  raws := raws
  marks := marks
  paths := SlowPath.All ok
  scratch := trivial
  floatScratch := trivial

section

variable {stores : Location → Nat → Prop} {raws marks : Prop} {ok : List Operand → MicroOp → Prop}

theorem Effect.open_liberal (hplain : ∀ m n, stores (.plain m) n) :
    (Effect.liberal stores raws marks ok).Open :=
  ⟨fun _ => trivial, fun _ => trivial, hplain, trivial⟩

theorem Effect.fresh_liberal (n : Nat) : (Effect.liberal stores raws marks ok).Fresh n :=
  ⟨fun _ _ => trivial, fun _ _ => trivial⟩

variable (hplain : ∀ m n, stores (.plain m) n)
  (hok : ∀ operands op, ok operands op →
    op.Within C (Effect.liberal stores raws marks ok) operands)

include hplain hok

/-- Exchanges are on places that may be stored to. -/
theorem does_operation_liberal {op : Operation} (hop : op.All ok)
    (hexchange : ∀ cell expected newValue, op = .compareAndSwap cell expected newValue →
      ∀ l, place? C.frame cell = some l → stores l cell.kind.size) :
    Does C (.liberal stores raws marks ok) (operation op) := by
  have hopen : (Effect.liberal stores raws marks ok).Open := Effect.open_liberal hplain
  refine does_operation trivial (Effect.fresh_liberal _) (hopen.within ?_)
  refine ⟨fun _ _ => trivial, fun _ _ => trivial, fun _ _ => trivial, hexchange,
    fun _ _ _ _ _ _ _ _ _ _ _ _ _ => trivial, ?_, ?_⟩
  · rintro t operands info infoAfter rfl micro hmicro
    exact hok operands micro (hop micro hmicro)
  · rintro t operands info infoAfter rfl labels -
    exact hop

theorem does_slowPath_liberal {path : SlowPath} (hpath : path.All ok) :
    Does C (.liberal stores raws marks ok) (slowPath path) := by
  refine does_slowPath trivial (Effect.fresh_liberal _) ?_
  cases path with
  | convertFixup => exact ⟨trivial, trivial, trivial⟩
  | template x =>
    exact ⟨⟨Effect.open_liberal hplain, fun _ _ _ _ => trivial, fun _ _ _ _ => trivial,
      fun op hmem => hok _ op (hpath op (List.mem_append_left _ hmem)),
      fun op hmem => hok _ op (hpath op (List.mem_append_right _ hmem))⟩,
      fun _ _ => trivial, fun _ _ => trivial⟩

end

/-! ### Effects on names -/

/-- Only the names of labels are restricted, and the code that is put off. -/
def Effect.naming (binds refers handlers : Label → Prop) (paths : SlowPath → Prop) : Effect where
  binds := binds
  refers := refers
  handlers := handlers
  gprs _ := True
  xmms _ := True
  stores _ _ := True
  leaves := True
  raws := True
  marks := True
  paths := paths
  scratch := trivial
  floatScratch := trivial

section

variable {binds refers handlers : Label → Prop} {paths : SlowPath → Prop}

theorem Effect.open_naming : (Effect.naming binds refers handlers paths).Open :=
  ⟨fun _ => trivial, fun _ => trivial, fun _ _ => trivial, trivial⟩

theorem MicroOp.within_naming (operands : List Operand) (op : MicroOp) :
    op.Within C (.naming binds refers handlers paths) operands := by
  cases op with
  | pointerLoad | pointerLoadDisp => exact fun _ _ _ _ => trivial
  | _ => trivial

theorem Template.within_naming {t : Template} {operands : List Operand}
    {info infoAfter : Option DebugInfo}
    (hinfo : ∀ i ∈ info, i.Within (.naming binds refers handlers paths))
    (hafter : ∀ i ∈ infoAfter, i.Within (.naming binds refers handlers paths)) :
    t.Within C (.naming binds refers handlers paths) operands info infoAfter :=
  ⟨Effect.open_naming, hinfo, hafter, fun op _ => op.within_naming operands,
    fun op _ => op.within_naming operands⟩

end

/-! ### Methods -/

/-- The method is made from this draft. -/
structure Completed (m : Method) (d : Draft) : Prop where
  code : d.buffer.finish = .ok m.code
  handlers : resolveHandlers d.buffer d.tables.exceptionHandlers = .ok m.tables.exceptionHandlers
  tables : m.tables = { d.tables with exceptionHandlers := m.tables.exceptionHandlers }
  data : m.data = d.data.bytes

/-- A method has been compiled if its lowering starts, and gives it. -/
theorem compile_eq_ok {target : Target} {source : MethodSource} {m : Method} :
    (compile target source).1 = .ok m ↔
    ∃ d d', Draft.start target source.frame source.name source.id = .ok d ∧
      method source.constants source.ops d = .ok m d' := by
  unfold compile
  constructor
  · intro h
    split at h
    · cases h
    · rename_i d hd
      split at h
      · rename_i m' d' hm
        cases h
        exact ⟨d, d', hd, hm⟩
      · cases h
  · rintro ⟨d, d', hd, hm⟩
    rw [hd]
    dsimp only
    rw [hm]

/-- Where the lowering of a method fails, its compilation does. -/
theorem compile_error_of_method {target : Target} {source : MethodSource} {d d' : Draft}
    {err : Error} (hd : Draft.start target source.frame source.name source.id = .ok d)
    (hm : method source.constants source.ops d = .error err d') :
    (compile target source).1 = .error err := by
  unfold compile
  rw [hd]
  dsimp only
  rw [hm]

theorem covered_start {target : Target} {frame : Frame} {name : String} {id : Option UInt32}
    {d : Draft} (h : Draft.start target frame name id = .ok d) (hI : I d) :
    Covered ⟨frame, target, 0⟩ e I d := by
  obtain ⟨journal, rfl⟩ := Draft.start_eq_ok h
  exact ⟨⟨rfl, rfl, Nat.zero_le _, rfl⟩, by simp, hI⟩

theorem error_of_mapM {ε : Type} {f : α → Except ε β} {xs : List α} {err : ε}
    (h : xs.mapM f = .error err) : ∃ x ∈ xs, f x = .error err := by
  induction xs with
  | nil => cases h
  | cons x xs ih =>
    rw [List.mapM_cons] at h
    obtain hx | ⟨y, -, h⟩ := Step.except_bind_eq_error.mp h
    · exact ⟨x, by simp, hx⟩
    · obtain h | ⟨ys, -, h⟩ := Step.except_bind_eq_error.mp h
      · obtain ⟨x', hx', herr⟩ := ih h
        exact ⟨x', by simp [hx'], herr⟩
      · cases h

/-- The rows for exception edges are those of the draft, each with the offset of its handler. -/
theorem resolveHandlers_eq_ok {b : CodeBuffer} {handlers rows : Array ExceptionHandler}
    (h : resolveHandlers b handlers = .ok rows) {x : ExceptionHandler} (hx : x ∈ handlers) :
    ∃ offset, b.labelOffset x.handler = some offset ∧
    { x with handlerOffset := some offset } ∈ rows := by
  have hlist := congrArg (Array.toList <$> ·) h
  obtain ⟨y, hy, hf⟩ :=
    (Step.mem_of_mapM (Array.toList_mapM.symm.trans hlist)).1 x (Array.mem_toList_iff.mpr hx)
  split at hf
  · rename_i offset hoffset
    cases hf
    exact ⟨offset, hoffset, Array.mem_toList_iff.mp hy⟩
  · cases hf

theorem error_resolveHandlers {b : CodeBuffer} {handlers : Array ExceptionHandler} {err : Error}
    (h : resolveHandlers b handlers = .error err) :
    ∃ x ∈ handlers, b.labelOffset x.handler = none ∧ err = .unboundLabel x.handler := by
  have hlist := congrArg (Array.toList <$> ·) h
  obtain ⟨x, hx, herr⟩ := error_of_mapM (Array.toList_mapM.symm.trans hlist)
  refine ⟨x, Array.mem_toList_iff.mp hx, ?_⟩
  split at herr
  · cases herr
  · rename_i hnone
    cases herr
    exact ⟨hnone, rfl⟩

theorem error_finish {b : CodeBuffer} {err : Error} (h : b.finish = .error err) :
    err.isRefusal = true := by
  unfold CodeBuffer.finish at h
  split at h <;> cases h
  rfl

section

variable (hI : ∀ a : Action, a.Within e → Triple I a.perform (fun _ => I) r)
  (hflush : ∀ d, I d → I { d with pending := #[] })
  (hpaths : ∀ path, e.paths path → Does C e (slowPath path))

include hI hflush hpaths

theorem triple_slowPaths : Triple (Covered C e I) slowPaths (fun _ => Covered C e I) r := by
  unfold slowPaths
  refine triple_get.bind fun d => ?_
  refine Triple.bind (q := fun _ d' => Covered C e I d' ∧ ∀ path ∈ d.pending, e.paths path) ?_
    fun _ => ?_
  · intro d' hd'
    obtain ⟨hd', rfl⟩ := hd'
    refine ⟨fun u d'' hrun => ?_, fun err d'' hrun => (by cases hrun)⟩
    cases hrun
    have hholds : C.Holds { d with pending := #[] } :=
      ⟨hd'.holds.frame, hd'.holds.target, hd'.holds.labels, hd'.holds.mark⟩
    exact ⟨⟨hholds, by simp, hflush d hd'.inv⟩, hd'.pending⟩
  · intro d' hd'
    have hrun :
        Triple (Covered C e I) (d.pending.toList.forM slowPath) (fun _ => Covered C e I) r :=
      triple_forM fun path hpath => Does.triple hI (hpaths path (hd'.2 path (by simpa using hpath)))
    exact hrun d' hd'.1

theorem triple_finish : Triple (Covered C e I) finish
    (fun m d => Covered C e I d ∧ Completed m d) r := by
  have hrefuse : ∀ err d, err.isRefusal = true → I d → r err d := fun err d herr hd =>
    (hI (.refuse err) herr d hd).2 err d rfl
  have hclean : ∀ {b : CodeBuffer} {handlers : Array ExceptionHandler} {err : Error},
      resolveHandlers b handlers = .error err → err.isRefusal = true := by
    intro b handlers err herr
    obtain ⟨x, -, -, rfl⟩ := error_resolveHandlers herr
    rfl
  refine (triple_slowPaths hI hflush hpaths).bind fun _ => triple_get.bind fun d => ?_
  refine (triple_ofExcept fun err herr d hd => hrefuse err d (hclean herr) hd.1.inv).bind
    fun handlers => ?_
  refine (triple_ofExcept fun err herr d hd => hrefuse err d (error_finish herr) hd.1.1.inv).bind
    fun code => ?_
  intro d' hd'
  obtain ⟨⟨⟨hd', rfl⟩, hhandlers⟩, hcode⟩ := hd'
  refine ⟨fun m d'' hrun => ?_, fun err d'' hrun => (by cases hrun)⟩
  cases hrun
  refine ⟨⟨⟨hd'.holds.frame, hd'.holds.target, hd'.holds.labels, hd'.holds.mark⟩, hd'.pending, ?_⟩,
    hcode, hhandlers, rfl, rfl⟩
  let compiled : Event := .compiled d.journal.name d.journal.id d.journal.ops d.journal.slowPaths
    code.toList.length d.data.size
  have hcompiled := (hI (.log compiled) trivial d hd'.inv).1 () _ rfl
  unfold Journal.finished
  dsimp only
  split
  · exact (hI (.log (.dump code.toList)) trivial _ hcompiled).1 () _ rfl
  · exact hcompiled

/-- What all actions keep, a method keeps. In front of the prologue it may be something else. -/
theorem triple_method {I₀ : Draft → Prop} {constants : List DataConstant} {ops : List Operation}
    (hI₀ : ∀ a : Action, a.Within e → Triple I₀ a.perform (fun _ => I₀) r)
    (hprologue : Triple (Covered C e I₀) prologue (fun _ => Covered C e I) r)
    (hops : ∀ op ∈ ops, Does C e (operation op)) : Triple (Covered C e I₀) (method constants ops)
      (fun m d => Covered C e I d ∧ Completed m d) r := by
  have hreserve : Does C e (reserveLabels (labelCount ops)) :=
    does_action (.reserve (labelCount ops)) trivial rfl
  refine (Does.triple hI₀ (does_addConstants constants)).bind fun _ => ?_
  refine (Does.triple hI₀ hreserve).bind fun _ => hprologue.bind fun _ => ?_
  refine Triple.bind (triple_forM fun op hop => Does.triple hI (hops op hop)) fun _ => ?_
  exact (triple_slowPaths hI hflush hpaths).bind fun _ => triple_finish hI hflush hpaths

end

end MachineCode
