import Mathlib.Order.Defs.Unbundled
import Mathlib.Tactic.Common

/-! Steps that succeed. A step that is put together from others succeeds when all of them do, each
from where the one before has ended. -/
namespace MachineCode.Step

variable {ε σ α β : Type}

theorem bind_eq_ok {x : EStateM ε σ α} {f : α → EStateM ε σ β} {s s'' : σ} {b : β} :
    (x >>= f) s = .ok b s'' ↔ ∃ a s', x s = .ok a s' ∧ f a s' = .ok b s'' := by
  simp only [bind, EStateM.bind]
  cases x s <;> simp

theorem bind_eq_error {x : EStateM ε σ α} {f : α → EStateM ε σ β} {s s'' : σ} {e : ε} :
    (x >>= f) s = .error e s'' ↔
      x s = .error e s'' ∨ ∃ a s', x s = .ok a s' ∧ f a s' = .error e s'' := by
  simp only [bind, EStateM.bind]
  cases x s <;> simp

theorem pure_eq_ok {a b : α} {s s' : σ} :
    (pure a : EStateM ε σ α) s = .ok b s' ↔ a = b ∧ s = s' := by
  simp [pure, EStateM.pure]

theorem map_eq_ok {x : EStateM ε σ α} {f : α → β} {s s' : σ} {b : β} :
    (f <$> x) s = .ok b s' ↔ ∃ a, x s = .ok a s' ∧ f a = b := by
  simp only [Functor.map, EStateM.map]
  cases x s <;> simp [and_comm]

theorem discard_eq_error {x : EStateM ε σ α} {s s' : σ} {e : ε} :
    (discard x) s = .error e s' ↔ x s = .error e s' := by
  have h : discard x = (fun _ => PUnit.unit) <$> x := rfl
  rw [h]
  simp only [Functor.map, EStateM.map]
  cases x s <;> simp

theorem discard_eq_ok {x : EStateM ε σ α} {s s' : σ} :
    (discard x) s = .ok () s' ↔ ∃ a, x s = .ok a s' := by
  have h : discard x = (fun _ => PUnit.unit) <$> x := rfl
  rw [h, map_eq_ok]
  simp

/-! The result of a step may be forgotten. -/

theorem discard_of_ok {x : EStateM ε σ α} {s s' : σ} {a : α} (h : x s = .ok a s') :
    (discard x) s = .ok () s' :=
  discard_eq_ok.mpr ⟨a, h⟩

theorem discard_of_error {x : EStateM ε σ α} {s s' : σ} {e : ε} (h : x s = .error e s') :
    (discard x) s = .error e s' := by
  have hd : discard x = (fun _ => PUnit.unit) <$> x := rfl
  rw [hd]
  simp only [Functor.map, EStateM.map, h]

theorem discard_bind (x : EStateM ε σ α) (f : α → EStateM ε σ β) :
    discard (x >>= f) = x >>= fun a => discard (f a) := map_bind _ x f

theorem discard_unit (x : EStateM ε σ Unit) (s : σ) : (discard x) s = x s := by
  cases h : x s with
  | ok u s' => exact discard_of_ok h
  | error e s' => exact discard_of_error h

/-! A step that is put together from others does what the first one does, and then the second. -/

theorem bind_of_ok {x : EStateM ε σ α} {f : α → EStateM ε σ β} {s s' : σ} {a : α}
    (h : x s = .ok a s') : (x >>= f) s = f a s' := by
  simp only [bind, EStateM.bind, h]

theorem bind_of_error {x : EStateM ε σ α} {f : α → EStateM ε σ β} {s s' : σ} {e : ε}
    (h : x s = .error e s') : (x >>= f) s = .error e s' := by
  simp only [bind, EStateM.bind, h]

theorem discard_congr {x y : EStateM ε σ α} {s : σ} (h : x s = y s) :
    (discard x) s = (discard y) s := by
  have hd : ∀ z : EStateM ε σ α, discard z = (fun _ => PUnit.unit) <$> z := fun _ => rfl
  rw [hd, hd]
  simp only [Functor.map, EStateM.map, h]

/-- What follows a step depends on its result and on the state that it leaves. -/
theorem bind_congr {x y : EStateM ε σ α} {f : α → EStateM ε σ β} {s : σ} (h : x s = y s) :
    (x >>= f) s = (y >>= f) s := by
  simp only [bind, EStateM.bind, h]

/-! Steps that cannot fail are carried out. -/

theorem get_bind (f : σ → EStateM ε σ α) (s : σ) : (get >>= f) s = f s s := rfl

theorem modify_bind (g : σ → σ) (f : PUnit → EStateM ε σ α) (s : σ) :
    (modify g >>= f) s = f ⟨⟩ (g s) := rfl

theorem modify_eq_ok {f : σ → σ} {s s' : σ} {u : PUnit} :
    (modify f : EStateM ε σ PUnit) s = .ok u s' ↔ f s = s' := by
  change EStateM.Result.ok PUnit.unit (f s) = .ok u s' ↔ _
  rw [EStateM.Result.ok.injEq, and_iff_right rfl]

theorem throw_ne_ok {e : ε} {s s' : σ} {a : α} : (throw e : EStateM ε σ α) s ≠ .ok a s' := by
  change EStateM.Result.error e s ≠ _
  simp

/-! How a step ends can be evaluated. -/

/-- Whether a step has succeeded, with a result and a state that pass the check. -/
def succeeds (check : α → σ → Bool) : EStateM.Result ε σ α → Bool
  | .ok a s => check a s
  | .error .. => false

/-- Whether a step has failed with an error that passes the check. -/
def fails (check : ε → Bool) : EStateM.Result ε σ α → Bool
  | .ok .. => false
  | .error e _ => check e

theorem exists_of_succeeds {check : α → σ → Bool} {r : EStateM.Result ε σ α}
    (h : succeeds check r = true) :
    ∃ a s, r = .ok a s ∧ check a s = true := by
  cases r with
  | ok a s => exact ⟨a, s, rfl, h⟩
  | error e s => cases h

theorem exists_of_fails {check : ε → Bool} {r : EStateM.Result ε σ α} (h : fails check r = true) :
    ∃ e s, r = .error e s ∧ check e = true := by
  cases r with
  | ok a s => cases h
  | error e s => exact ⟨e, s, rfl, h⟩

/-! The same for steps without a state. -/

theorem except_pure_eq_ok {a b : α} : (pure a : Except ε α) = .ok b ↔ a = b := by
  simp [pure, Except.pure]

theorem except_bind_eq_ok {x : Except ε α} {f : α → Except ε β} {b : β} :
    (x >>= f) = .ok b ↔ ∃ a, x = .ok a ∧ f a = .ok b := by
  simp only [bind, Except.bind]
  cases x <;> simp

theorem except_bind_eq_error {x : Except ε α} {f : α → Except ε β} {e : ε} :
    (x >>= f) = .error e ↔ x = .error e ∨ ∃ a, x = .ok a ∧ f a = .error e := by
  simp only [bind, Except.bind]
  cases x <;> simp

/-- A step for each element of a list gives a result for each, and nothing else. -/
theorem mem_of_mapM {f : α → Except ε β} {xs : List α} {ys : List β} (h : xs.mapM f = .ok ys) :
    (∀ x ∈ xs, ∃ y ∈ ys, f x = .ok y) ∧ ∀ y ∈ ys, ∃ x ∈ xs, f x = .ok y := by
  induction xs generalizing ys with
  | nil =>
    cases h
    exact ⟨nofun, nofun⟩
  | cons x xs ih =>
    rw [List.mapM_cons] at h
    obtain ⟨z, hz, h⟩ := except_bind_eq_ok.mp h
    obtain ⟨zs, hzs, h⟩ := except_bind_eq_ok.mp h
    cases h
    obtain ⟨hxs, hys⟩ := ih hzs
    refine ⟨List.forall_mem_cons.mpr ⟨⟨z, by simp, hz⟩, fun x' hx' => ?_⟩,
      List.forall_mem_cons.mpr ⟨⟨x, by simp, hz⟩, fun y hy => ?_⟩⟩
    · obtain ⟨y, hy, hf⟩ := hxs x' hx'
      exact ⟨y, List.mem_cons_of_mem _ hy, hf⟩
    · obtain ⟨x', hx', hf⟩ := hys y hy
      exact ⟨x', List.mem_cons_of_mem _ hx', hf⟩

/-- A step for each element of a list: what holds of the state and of the elements that are left is
kept by each step, wherever the steps in front of it have succeeded. -/
theorem forM_induction {f : α → EStateM ε σ PUnit} {xs : List α} {s : σ} {P : List α → σ → Prop}
    {Q : ε → Prop} (hP : P xs s) (hstep : ∀ pre x rest t, xs = pre ++ x :: rest →
      pre.forM f s = .ok ⟨⟩ t → P (x :: rest) t →
      (∀ t', f x t = .ok ⟨⟩ t' → P rest t') ∧ ∀ e t', f x t = .error e t' → Q e) :
    (∀ s', xs.forM f s = .ok ⟨⟩ s' → P [] s') ∧ ∀ e s', xs.forM f s = .error e s' → Q e := by
  -- By induction on the rest of the list, with the steps in front of it as a run.
  suffices hrest : ∀ rest pre t, xs = pre ++ rest → pre.forM f s = .ok ⟨⟩ t → P rest t →
      (∀ s', rest.forM f t = .ok ⟨⟩ s' → P [] s') ∧ ∀ e s', rest.forM f t = .error e s' → Q e from
    hrest xs [] s rfl rfl hP
  intro rest
  induction rest with
  | nil =>
    refine fun pre t _ _ hP => ⟨fun s' h => ?_, fun e s' h => ?_⟩
    · cases h
      exact hP
    · cases h
  | cons x rest ih =>
    intro pre t hxs hpre hP
    obtain ⟨hok, herror⟩ := hstep pre x rest t hxs hpre hP
    have hlater : ∀ t', f x t = .ok ⟨⟩ t' → (∀ s', rest.forM f t' = .ok ⟨⟩ s' → P [] s') ∧
        ∀ e s', rest.forM f t' = .error e s' → Q e := fun t' hx => by
      refine ih (pre ++ [x]) t' (by simp [hxs]) ?_ (hok t' hx)
      rw [List.forM_eq_forM, List.forM_append, ← List.forM_eq_forM, bind_of_ok hpre]
      exact bind_eq_ok.mpr ⟨⟨⟩, t', hx, rfl⟩
    refine ⟨fun s' h => ?_, fun e s' h => ?_⟩
    · obtain ⟨_, t', hx, h⟩ := bind_eq_ok.mp h
      exact (hlater t' hx).1 s' h
    · obtain hx | ⟨_, t', hx, h⟩ := bind_eq_error.mp h
      · exact herror e s' hx
      · exact (hlater t' hx).2 e s' h

/-! What a step leaves can be said without saying whether it succeeds. -/

/-- The state that a step leaves, whether it succeeds or fails. -/
def final (x : EStateM ε σ α) (s : σ) : σ :=
  match x s with
  | .ok _ s' | .error _ s' => s'

theorem final_of_ok {x : EStateM ε σ α} {s s' : σ} {a : α}
    (h : x s = .ok a s') : final x s = s' := by
  rw [final, h]

theorem final_of_error {x : EStateM ε σ α} {s s' : σ} {e : ε}
    (h : x s = .error e s') : final x s = s' := by
  rw [final, h]

/-- Steps end where the second one does, or where the first one has failed. -/
theorem final_bind (x : EStateM ε σ α) (f : α → EStateM ε σ β) (s : σ) :
    (∃ a, x s = .ok a (final x s) ∧ final (x >>= f) s = final (f a) (final x s)) ∨
      (∃ e, x s = .error e (final x s)) ∧ final (x >>= f) s = final x s := by
  cases h : x s with
  | ok a s' =>
    rw [final_of_ok h]
    exact .inl ⟨a, rfl, by rw [final, final, bind_of_ok h]⟩
  | error e s' =>
    rw [final_of_error h]
    exact .inr ⟨⟨e, rfl⟩, final_of_error (bind_of_error h)⟩

/-- Wherever the step starts, what it leaves is related to that. -/
def Along (R : σ → σ → Prop) (x : EStateM ε σ α) : Prop := ∀ s, R s (final x s)

section

variable {R : σ → σ → Prop} {x y : EStateM ε σ α} {f : α → EStateM ε σ β}

theorem along_modify {g : σ → σ} (h : ∀ s, R s (g s)) : Along R (modify g : EStateM ε σ PUnit) := h

theorem along_ite {p : Prop} [Decidable p] (hx : Along R x) (hy : Along R y) :
    Along R (if p then x else y) := by
  split <;> assumption

variable [IsPreorder σ R]

/-- A step leaves what the first part of it leaves, and what the second part makes of that. -/
theorem along_final_bind (hf : ∀ a, Along R (f a)) (x : EStateM ε σ α) (s : σ) :
    R (final x s) (final (x >>= f) s) := by
  obtain ⟨a, -, hfinal⟩ | ⟨-, hfinal⟩ := final_bind x f s
  · exact hfinal ▸ hf a _
  · exact hfinal ▸ refl _

theorem Along.bind (hx : Along R x) (hf : ∀ a, Along R (f a)) : Along R (x >>= f) :=
  fun s => IsTrans.trans _ _ _ (hx s) (along_final_bind hf x s)

theorem along_pure (a : α) : Along R (pure a : EStateM ε σ α) := fun s => refl s

theorem along_throw (e : ε) : Along R (throw e : EStateM ε σ α) := fun s => refl s

theorem along_get : Along R (get : EStateM ε σ σ) := fun s => refl s

theorem Along.discard (hx : Along R x) : Along R (discard x) := hx.bind fun _ => along_pure _

theorem along_forM {xs : List α} {f : α → EStateM ε σ PUnit}
    (hf : ∀ a, Along R (f a)) : Along R (xs.forM f) := by
  induction xs with
  | nil => exact along_pure _
  | cons a xs ih => exact (hf a).bind fun _ => ih

end

end MachineCode.Step
