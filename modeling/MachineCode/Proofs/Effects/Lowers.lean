import MachineCode.Proofs.Effects.Context

/-! Lowering is a sequence of actions. `Lowers C e x p` says this of a step: from each draft of the
context `C` it does what certain actions do that stay within the effect `e`, and its result is as
`p` says. The rules put such facts together as the steps are put together. -/
namespace MachineCode

open X64

variable {α β : Type} {C : Context} {e : Effect}

/-- The step does what actions within `e` do, and gives results as `p` says. -/
def Lowers (C : Context) (e : Effect) (x : Lower α) (p : α → Prop) : Prop :=
  ∀ d, C.Holds d → ∃ as : List Action, (∀ a ∈ as, a.Within e) ∧
    (discard x) d = performAll as d ∧ ∀ a d', x d = .ok a d' → p a

/-- The same for steps whose result does not matter. -/
abbrev Does (C : Context) (e : Effect) (x : Lower α) : Prop := Lowers C e x fun _ => True

/-- The step does what actions within `e` do, and goes on as `K` says. -/
def Continues (C : Context) (e : Effect) (K : Lower Nat → Prop) (x : Lower Nat) : Prop :=
  ∀ d, C.Holds d → ∃ (as : List Action) (k : Lower Nat), (∀ a ∈ as, a.Within e) ∧ K k ∧
    x d = (do performAll as; k) d

/-- An instruction is emitted, with a trailer at most behind it. The result is where it starts. -/
def Accessing (e : Effect) (k : Lower Nat) : Prop :=
  ∃ (i : Emission) (after : Trailer), i.Within e ∧ after.Within e ∧ k = do
    let pc ← Lower.position
    i.perform
    after.perform
    return pc

/-- The step emits an instruction among its actions, with a trailer at most behind it, and its
result is where that instruction starts. -/
def Accesses (C : Context) (e : Effect) (x : Lower Nat) : Prop := Continues C e (Accessing e) x

/-- The step ends with an instruction, which `e'` covers, and its result is where that starts. -/
def Closes (C : Context) (e e' : Effect) (x : Lower Nat) : Prop :=
  Continues C e (fun k => ∃ i : Emission, i.Within e' ∧ k = do
    let pc ← Lower.position
    i.perform
    return pc) x

theorem performAll_append (as bs : List Action) :
    performAll (as ++ bs) = (do performAll as; performAll bs) := List.forM_append

theorem performAll_singleton (a : Action) (d : Draft) : performAll [a] d = a.perform d := by
  rw [performAll_cons]
  cases h : a.perform d with
  | ok u d' =>
    rw [Step.bind_of_ok h]
    rfl
  | error err d' => rw [Step.bind_of_error h]

/-- What a successful step does. -/
theorem Lowers.run {x : Lower α} {p : α → Prop} {d d' : Draft} {a : α} (hx : Lowers C e x p)
    (hd : C.Holds d) (hrun : x d = .ok a d') :
    p a ∧ C.Holds d' ∧ ∃ as : List Action, (∀ a ∈ as, a.Within e) ∧
    performAll as d = .ok () d' := by
  obtain ⟨as, has, heq, hp⟩ := hx d hd
  rw [Step.discard_of_ok hrun] at heq
  exact ⟨hp a d' hrun, (performAll_ok hd heq.symm).1, as, has, heq.symm⟩

/-! ### Rules -/

theorem Lowers.weaken {x : Lower α} {p q : α → Prop} (hx : Lowers C e x p) (hpq : ∀ a, p a → q a) :
    Lowers C e x q := by
  intro d hd
  obtain ⟨as, has, heq, hp⟩ := hx d hd
  exact ⟨as, has, heq, fun a d' h => hpq a (hp a d' h)⟩

theorem Lowers.does {x : Lower α} {p : α → Prop} (hx : Lowers C e x p) : Does C e x :=
  hx.weaken fun _ _ => trivial

theorem lowers_pure {p : α → Prop} {a : α} (ha : p a) : Lowers C e (pure a) p := by
  refine fun d hd => ⟨[], by simp, rfl, fun b d' h => ?_⟩
  cases h
  exact ha

theorem does_pure (a : α) : Does C e (pure a) := lowers_pure trivial

theorem lowers_get : Lowers C e get C.Holds := by
  refine fun d hd => ⟨[], by simp, rfl, fun b d' h => ?_⟩
  cases h
  exact hd

/-- A step that does what one action does. -/
theorem lowers_action {x : Lower α} {p : α → Prop} (a : Action) (ha : a.Within e)
    (hx : ∀ d, C.Holds d → (discard x) d = a.perform d ∧ ∀ b d', x d = .ok b d' → p b) :
    Lowers C e x p := by
  intro d hd
  obtain ⟨heq, hp⟩ := hx d hd
  exact ⟨[a], by simpa using ha, heq.trans (performAll_singleton a d).symm, hp⟩

/-- A step that is an action. -/
theorem does_action {x : Lower Unit} (a : Action) (ha : a.Within e) (hx : x = a.perform) :
    Does C e x :=
  lowers_action a ha fun d _ => ⟨by rw [Step.discard_unit, hx], fun _ _ _ => trivial⟩

/-- The step fails where it starts. -/
def Fails (x : Lower α) : Prop := ∀ d, ∃ err, x d = .error err d ∧ err.isRefusal = true

theorem fails_throw {err : Error} (h : err.isRefusal = true) : Fails (throw err : Lower α) :=
  fun _ => ⟨err, rfl, h⟩

theorem fails_unhandled (detail : String) : Fails (Lower.unhandled detail : Lower α) :=
  fun _ => ⟨_, rfl, rfl⟩

theorem lowers_of_fails {x : Lower α} {p : α → Prop} (hx : Fails x) : Lowers C e x p := by
  intro d hd
  obtain ⟨err, herr, href⟩ := hx d
  refine ⟨[.refuse err], List.forall_mem_singleton.mpr href, ?_,
    fun a d' h => by rw [herr] at h; cases h⟩
  rw [performAll_singleton, Step.discard_of_error herr]
  rfl

theorem lowers_throw {p : α → Prop} {err : Error} (h : err.isRefusal = true) :
    Lowers C e (throw err) p :=
  lowers_of_fails (fails_throw h)

theorem Lowers.bind {x : Lower α} {f : α → Lower β} {p : α → Prop} {q : β → Prop}
    (hx : Lowers C e x p) (hf : ∀ a, p a → Lowers C e (f a) q) : Lowers C e (x >>= f) q := by
  intro d hd
  cases h : x d with
  | ok a d' =>
    obtain ⟨ha, hd', as, has, hrun⟩ := hx.run hd h
    obtain ⟨bs, hbs, heq, hq⟩ := hf a ha d' hd'
    refine ⟨as ++ bs, List.forall_mem_append.mpr ⟨has, hbs⟩, ?_, fun b d'' hb => hq b d'' ?_⟩
    · rw [Step.discard_bind, Step.bind_of_ok h, heq, performAll_append, Step.bind_of_ok hrun]
    · rwa [Step.bind_of_ok h] at hb
  | error err d' =>
    obtain ⟨as, has, heq, -⟩ := hx d hd
    have hbind : (x >>= f) d = .error err d' := Step.bind_of_error h
    refine ⟨as, has, ?_, fun b d'' hb => by rw [hbind] at hb; cases hb⟩
    rw [Step.discard_of_error hbind, ← heq, Step.discard_of_error h]

/-- The rule for steps whose result does not matter. -/
theorem Lowers.andThen {x : Lower α} {f : α → Lower β} {p : α → Prop} {q : β → Prop}
    (hx : Lowers C e x p) (hf : ∀ a, Lowers C e (f a) q) : Lowers C e (x >>= f) q :=
  hx.bind fun a _ => hf a

theorem Lowers.discard {x : Lower α} {p : α → Prop} (hx : Lowers C e x p) :
    Does C e (discard x) := by
  intro d hd
  obtain ⟨as, has, heq, -⟩ := hx d hd
  exact ⟨as, has, (Step.discard_unit _ d).trans heq, fun _ _ _ => trivial⟩

theorem does_forM {xs : List α} {f : α → Lower Unit} (hf : ∀ a ∈ xs, Does C e (f a)) :
    Does C e (xs.forM f) := by
  induction xs with
  | nil => exact does_pure ()
  | cons a xs ih =>
    exact Lowers.andThen (hf a (by simp)) fun _ => ih fun b hb => hf b (by simp [hb])

/-! ### Accesses -/

theorem Trailer.performAll_actions (after : Trailer) (d : Draft) :
    performAll after.actions d = after.perform d := by
  cases after with
  | none => rfl
  | store x => exact performAll_singleton (.instr x) d
  | bind l => exact performAll_singleton (.bind l) d
  | refuse err => exact performAll_singleton (.refuse err) d

theorem Trailer.within_actions {after : Trailer} (h : after.Within e) :
    ∀ a ∈ after.actions, a.Within e := by
  cases after with
  | none => simp [Trailer.actions]
  | store x | bind l | refuse err => exact List.forall_mem_singleton.mpr h

/-- The position may be read and not used. -/
theorem position_andThen (x : Lower α) : (Lower.position >>= fun _ => x) = x := rfl

theorem Accesses.lowers {x : Lower Nat} (hx : Accesses C e x) : Does C e x := by
  intro d hd
  obtain ⟨as, _, has, ⟨i, after, hi, hafter, rfl⟩, heq⟩ := hx d hd
  refine ⟨as ++ .instr i :: after.actions, ?_, ?_, fun _ _ _ => trivial⟩
  · refine List.forall_mem_append.mpr ⟨has, List.forall_mem_cons.mpr ⟨hi, ?_⟩⟩
    exact Trailer.within_actions hafter
  · have hdiscard : ∀ pc : Nat, discard (pure pc : Lower Nat) = pure () := fun _ => rfl
    rw [Step.discard_congr heq, performAll_append, performAll_cons,
      funext after.performAll_actions]
    simp only [Step.discard_bind, hdiscard, position_andThen, bind_pure_unit]
    rfl

theorem Accesses.does {x : Lower Nat} (hx : Accesses C e x) : Does C e (discard x) :=
  hx.lowers.discard

/-- An access with the record that it may fault on purpose. -/
theorem Accesses.trap {x : Lower Nat} {info : DebugInfo} (hx : Accesses C e x)
    (hinfo : info.Within e) : Does C e (x >>= fun pc => Lower.recordTrap pc info) := by
  intro d hd
  obtain ⟨as, _, has, ⟨i, after, hi, hafter, rfl⟩, heq⟩ := hx d hd
  refine ⟨as ++ [.trap i after info], ?_, ?_, fun _ _ _ => trivial⟩
  · exact List.forall_mem_append.mpr ⟨has, List.forall_mem_singleton.mpr ⟨hi, hafter, hinfo⟩⟩
  · rw [Step.discard_unit, Step.bind_congr heq, performAll_append,
      funext (performAll_singleton (.trap i after info))]
    simp only [bind_assoc, pure_bind]
    rfl

theorem Continues.after {K : Lower Nat → Prop} {x : Lower α} {f : α → Lower Nat} {p : α → Prop}
    (hK : ∃ k, K k) (hx : Lowers C e x p) (hf : ∀ a, p a → Continues C e K (f a)) :
    Continues C e K (x >>= f) := by
  intro d hd
  cases h : x d with
  | ok a d' =>
    obtain ⟨ha, hd', as, has, hrun⟩ := hx.run hd h
    obtain ⟨bs, k, hbs, hk, heq⟩ := hf a ha d' hd'
    refine ⟨as ++ bs, k, List.forall_mem_append.mpr ⟨has, hbs⟩, hk, ?_⟩
    rw [Step.bind_of_ok h, heq, performAll_append, bind_assoc, Step.bind_of_ok hrun]
  | error err d' =>
    obtain ⟨as, has, heq, -⟩ := hx d hd
    obtain ⟨k, hk⟩ := hK
    rw [Step.discard_of_error h] at heq
    exact ⟨as, k, has, hk, by rw [Step.bind_of_error h, Step.bind_of_error heq.symm]⟩

/-- A step that fails may continue in any way. -/
theorem continues_of_fails {K : Lower Nat → Prop} {x : Lower Nat} (hK : ∃ k, K k) (hx : Fails x) :
    Continues C e K x := by
  have h : Continues C e K (x >>= fun _ => x) :=
    Continues.after (p := fun _ => False) hK (lowers_of_fails hx) fun _ => False.elim
  intro d hd
  obtain ⟨err, herr, -⟩ := hx d
  have := h d hd
  rwa [Step.bind_of_error herr, ← herr] at this

theorem within_pause (e : Effect) : (Emission.emit .pause).Within e :=
  ⟨Instr.encodable_of_none rfl, Effect.admits_nothing⟩

theorem exists_accessing (e : Effect) : ∃ k, Accessing e k :=
  ⟨_, .emit .pause, .none, within_pause e, trivial, rfl⟩

theorem Accesses.after {x : Lower α} {f : α → Lower Nat} {p : α → Prop} (hx : Lowers C e x p)
    (hf : ∀ a, p a → Accesses C e (f a)) : Accesses C e (x >>= f) :=
  Continues.after (exists_accessing e) hx hf

/-- A step that fails in place of an access. -/
theorem accesses_of_fails {x : Lower Nat} (hx : Fails x) : Accesses C e x :=
  continues_of_fails (exists_accessing e) hx

theorem Closes.after {e' : Effect} {x : Lower α} {f : α → Lower Nat} {p : α → Prop}
    (hx : Lowers C e x p) (hf : ∀ a, p a → Closes C e e' (f a)) : Closes C e e' (x >>= f) :=
  Continues.after ⟨_, .emit .pause, within_pause e', rfl⟩ hx hf

theorem closes_of_fails {e' : Effect} {x : Lower Nat} (hx : Fails x) : Closes C e e' x :=
  continues_of_fails ⟨_, .emit .pause, within_pause e', rfl⟩ hx

theorem Closes.accesses {x : Lower Nat} (hx : Closes C e e x) : Accesses C e x := by
  intro d hd
  obtain ⟨as, _, has, ⟨i, hi, rfl⟩, heq⟩ := hx d hd
  exact ⟨as, _, has, ⟨i, .none, hi, trivial, rfl⟩, heq⟩

theorem closes_emitAt {e' : Effect} {l : Location} {i : Mem → Instr}
    (h : (Emission.at l i).Within e') :
    Closes C e e' (Lower.emitAt l i) := by
  refine fun d hd => ⟨[], _, by simp, ⟨.at l i, h, rfl⟩, ?_⟩
  change _ = ((discard (Lower.emitAt l i)) >>= fun _ => pure d.buffer.position) d
  cases hrun : Lower.emitAt l i d with
  | ok pc d' =>
    rw [Step.bind_of_ok (Step.discard_of_ok hrun), (Lower.emitAt_eq_ok hrun).1]
    rfl
  | error err d' => rw [Step.bind_of_error (Step.discard_of_error hrun)]

/-- A step that finds something in the draft, or fails there. -/
def Finds (C : Context) (x : Lower α) (p : α → Prop) : Prop :=
  ∀ d, C.Holds d →
    (∃ a, x d = .ok a d ∧ p a) ∨ ∃ err, x d = .error err d ∧ err.isRefusal = true

theorem Finds.lowers {x : Lower α} {p : α → Prop} (hx : Finds C x p) : Lowers C e x p := by
  intro d hd
  obtain ⟨a, ha, hp⟩ | ⟨err, herr, href⟩ := hx d hd
  · refine ⟨[], by simp, Step.discard_of_ok ha, fun b d' hb => ?_⟩
    rw [ha] at hb
    cases hb
    exact hp
  · refine ⟨[.refuse err], List.forall_mem_singleton.mpr href, ?_,
      fun b d' hb => by rw [herr] at hb; cases hb⟩
    rw [performAll_singleton, Step.discard_of_error herr]
    rfl

theorem finds_pure {p : α → Prop} {a : α} (ha : p a) : Finds C (pure a) p :=
  fun _ _ => .inl ⟨a, rfl, ha⟩

theorem finds_get : Finds C get C.Holds := fun d hd => .inl ⟨d, rfl, hd⟩

theorem finds_of_fails {x : Lower α} {p : α → Prop} (hx : Fails x) : Finds C x p :=
  fun d _ => .inr (hx d)

theorem finds_throw {p : α → Prop} {err : Error} (h : err.isRefusal = true) :
    Finds C (throw err) p :=
  finds_of_fails (fails_throw h)

theorem finds_unhandled {p : α → Prop} (detail : String) : Finds C (Lower.unhandled detail) p :=
  finds_of_fails (fails_unhandled detail)

theorem finds_ofExcept {x : Except Error α} {p : α → Prop} (hx : ∀ a, x = .ok a → p a)
    (herror : ∀ err, x = .error err → err.isRefusal = true) : Finds C (Lower.ofExcept x) p := by
  cases x with
  | ok a => exact fun _ _ => .inl ⟨a, rfl, hx a rfl⟩
  | error err => exact fun _ _ => .inr ⟨err, rfl, herror err rfl⟩

theorem Finds.bind {x : Lower α} {f : α → Lower β} {p : α → Prop} {q : β → Prop}
    (hx : Finds C x p) (hf : ∀ a, p a → Finds C (f a) q) : Finds C (x >>= f) q := by
  intro d hd
  obtain ⟨a, ha, hp⟩ | ⟨err, herr, href⟩ := hx d hd
  · rw [Step.bind_of_ok ha]
    exact hf a hp d hd
  · exact .inr ⟨err, Step.bind_of_error herr, href⟩

/-- An access to memory with a store behind it, to a place that is found in between. -/
theorem accesses_emitAt_store {l : Location} {i : Mem → Instr} {y : Lower Location}
    {j : Location → Mem → Instr} {p : Location → Prop} (h : (Emission.at l i).Within e)
    (hy : Finds C y p) (hj : ∀ t, p t → (Emission.at t (j t)).Within e) :
    Accesses C e (do
      let pc ← Lower.emitAt l i
      let t ← y
      discard (Lower.emitAt t (j t))
      return pc) := by
  intro d hd
  cases hrun : Lower.emitAt l i d with
  | ok pc d' =>
    obtain ⟨hpc, -⟩ := Lower.emitAt_eq_ok hrun
    have hemit : (Emission.at l i).perform d = .ok () d' := Step.discard_of_ok hrun
    obtain ⟨t, ht, hp⟩ | ⟨err, herr, href⟩ := hy d' (keeps_emitAt l i C d pc d' hd hrun).1
    · refine ⟨[], _, by simp, ⟨.at l i, .store (.at t (j t)), h, hj t hp, rfl⟩, ?_⟩
      change _ = ((Emission.at l i).perform >>= fun _ =>
        (discard (Lower.emitAt t (j t))) >>= fun _ => pure d.buffer.position) d
      rw [Step.bind_of_ok hrun, Step.bind_of_ok ht, Step.bind_of_ok hemit, hpc]
    · refine ⟨[], _, by simp, ⟨.at l i, .refuse err, h, href, rfl⟩, ?_⟩
      change _ = ((Emission.at l i).perform >>= fun _ =>
        (throw err : Lower Unit) >>= fun _ => pure d.buffer.position) d
      rw [Step.bind_of_ok hrun, Step.bind_of_error herr, Step.bind_of_ok hemit]
      rfl
  | error err d' =>
    refine ⟨[], _, by simp, ⟨.at l i, .none, h, trivial, rfl⟩, ?_⟩
    change _ = ((Emission.at l i).perform >>= fun _ => pure d.buffer.position) d
    have hemit : (Emission.at l i).perform d = .error err d' := Step.discard_of_error hrun
    rw [Step.bind_of_error hrun, Step.bind_of_error hemit]

/-- An instruction at the position that is read before. -/
theorem accesses_emit {i : Instr} (h : (Emission.emit i).Within e) :
    Accesses C e (do
      let pc ← Lower.position
      Lower.emit i
      return pc) :=
  fun _ _ => ⟨[], _, by simp, ⟨.emit i, .none, h, trivial, rfl⟩, rfl⟩

/-- The same with a label behind the instruction. -/
theorem accesses_emit_bind {i : Instr} {l : Label} (h : (Emission.emit i).Within e)
    (hl : e.binds l) :
    Accesses C e (do
      let pc ← Lower.position
      Lower.emit i
      Lower.bind l
      return pc) :=
  fun _ _ => ⟨[], _, by simp, ⟨.emit i, .bind l, h, hl, rfl⟩, rfl⟩

end MachineCode
