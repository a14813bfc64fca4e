import MachineCode.Proofs.Execution.Moving
import MachineCode.Lowering.Compare

/-! Instructions that take a scalar float. Their operand is a register or memory, or a constant that
is brought to the scratch register. -/
namespace MachineCode

open X64 Lower Machine

/-- A value of the kind, as a float. -/
def Kind.scalar (k : Kind) (v : Word) : FloatValue :=
  (FloatFormat.ofDouble k.isDouble).decode (low v k.width).toNat

theorem Kind.laneWidth_isDouble {k : Kind} (h : k.isFloating = true) :
    laneWidth k.isDouble = k.width := by
  cases k <;> first | rfl | cases h

namespace Lower

/-- An instruction that takes the operand. -/
def takeScalar (i : Xm → Instr) (o : Operand) : Lower Unit := do
  match o with
  | .reg .. => emit (i (.reg (← xmm o)))
  | .const _ => emit (i (.reg (← toFloatScratch o)))
  | o => discard (emitAt (← location o) fun m => i (.mem m))

theorem compareFloat_eq_bind (double : Bool) (left right : Operand) :
    compareFloat double left right = xmm left >>= fun l => takeScalar (.ucomis double l) right := by
  cases right <;> rfl

theorem applySse_eq_takeScalar (op : SseOp) (double : Bool) (dst : Xmm) (right : Operand) :
    applySse op double dst right = takeScalar (.sse op double dst) right := by
  cases right <;> rfl

theorem toFloatScratch_bind {α : Type} (src : Operand)
    (f : Xmm → Lower α) : (toFloatScratch src >>= f) =
    (mov src (.reg floatScratch.register src.kind) false >>= fun _ => f floatScratch) := by
  rw [toFloatScratch, bind_assoc]
  rfl

/-- A constant has been brought to the scratch register; no other operand has to be brought
anywhere. -/
def Brought (S : Site) (frame : Frame) (o : Operand) (b : Word) (s c : Machine) : Prop :=
  S.value? frame s o = some b ∧
    s.Keeps (fun _ => False) (fun x => (∃ k, o = .const k) ∧ x = floatScratch) (fun _ => False) c

/-- The instruction takes the low part of the value. Of a constant it takes it from the scratch
register. -/
def Taken (S : Site) (frame : Frame) (o : Operand) (R : Word → Assertion) : Assertion := fun s c =>
  ∃ b s', Brought S frame o b s s' ∧ R (low b o.kind.width) s' c

variable {S : Site} {C : Context} {o : Operand} {R : Word → Assertion} {i : Xm → Instr}

theorem computes_toFloatScratch {k : Constant} :
    Computes S C (mov (.const k) (.reg floatScratch.register k.kind) false)
    S.Readable fun _ s c => ∃ b, Brought S C.frame (.const k) b s c ∧
      low ((c.xmmReg floatScratch).setWidth 64) (Operand.const k).kind.width =
        low b (Operand.const k).kind.width := by
  have hdst : xmm? (.reg floatScratch.register k.kind) = some floatScratch :=
    Xmm.ofRegister?_register floatScratch
  have hkind : (Operand.reg floatScratch.register k.kind).kind = (Operand.const k).kind := rfl
  refine (computes_mov hkind (fun _ => .inr ⟨_, hdst⟩) (fun _ h => by cases h)
    (fun _ h => by cases h)).mono
    fun s _ hs => ⟨canMove_reg hs (Site.accessible_of_none rfl), ?_⟩
  rintro _ c ⟨b, hb, hdelivers, -⟩
  refine ⟨b, ⟨hb, hdelivers.keeps.mono ?_ ?_ ?_⟩, hdelivers.holds.xmm _ hdst⟩
  · rintro g (hg | ⟨hregister, -⟩)
    · rw [Site.gpr?_of_xmm? hdst] at hg
      cases hg
    · cases hregister
  · intro x hx
    cases hdst.symm.trans hx
    exact ⟨⟨k, rfl⟩, rfl⟩
  · rintro a ⟨l, hl, -⟩
    cases hl

theorem computes_takeScalar (hfloat : o.kind.isFloating = true)
    (hplain : ∀ x, (i (.reg x)).mem? = none) (hmem : ∀ m, (i (.mem m)).mem? = some m)
    (hwith : ∀ m m', (i (.mem m)).withMem m' = i (.mem m'))
    (h : ∀ s next v x, s.ReadsLane next o.kind.isDouble v x → Executes (i x).decoded next s (R v s))
    (hR : ∀ v s c, R v s c → c.memory = s.memory) :
    Computes S C (takeScalar i o) (fun s => S.Readable s ∧ S.Accessible C.frame s o) fun _ =>
      Taken S C.frame o R := by
  have hwidth : laneWidth o.kind.isDouble = o.kind.width := Kind.laneWidth_isDouble hfloat
  -- From a register that holds the value.
  have hregister : ∀ x, Computes S C (emit (i (.reg x))) (fun _ => True) fun _ s c =>
      R (low ((s.xmmReg x).setWidth 64) o.kind.width) s c := fun x =>
    computes_emit (Instr.encodable_of_none (hplain x)) (fun s next _ => hwidth ▸
      h s next _ (.reg x) rfl)
      fun _ _ => hR _ _ _
  unfold takeScalar
  split
  · refine (finds_xmm _).computes fun x hx => (hregister x).mono fun s _ hs =>
      ⟨trivial, fun _ c hc => ?_⟩
    exact ⟨_, s, ⟨Site.value?_xmm hx, .refl s⟩, hc⟩
  · rename_i k
    have hbring : Computes S C (mov (.const k) (.reg floatScratch.register k.kind) false)
        (fun s => S.Readable s ∧ S.Accessible C.frame s (.const k)) _ :=
      computes_toFloatScratch.mono fun s _ hs => ⟨hs.1, fun _ _ => id⟩
    rw [toFloatScratch_bind]
    refine hbring.bind (fun _ => hregister floatScratch) ?_
    rintro s _ s' - ⟨b, hbrought, hlow⟩
    refine ⟨trivial, fun _ c hc => ⟨b, s', hbrought, ?_⟩⟩
    rwa [← hlow]
  · refine (finds_location o).computes fun l hl => Computes.discard ?_
    refine (computes_emitAt (A := (S.Accessible C.frame · o))
      (i := fun m => i (.mem m)) (R := fun s c =>
      R (s.loaded (S.place s l) (laneWidth o.kind.isDouble).bytes) s c) hl.2
        (fixed_of_place? hl.1) hmem hwith
      (fun s m next hs haddress => h s next _ (.mem m) (readsLane_mem haddress ?_)) fun _ _ =>
        hR _ _ _).mono
      fun s _ hs => ⟨hs.2, fun _ c hc => ⟨_, s, ⟨Site.value?_place hl.1, .refl s⟩, ?_⟩⟩
    · rw [bytes_laneWidth hfloat]
      exact hs l hl.1
    · rw [low_read, read_isFloating hfloat, ← bytes_laneWidth hfloat]
      exact hc

end Lower

end MachineCode
