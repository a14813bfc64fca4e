import MachineCode.Proofs.Decoding.Forms

/-! Readers whose bytes delimit themselves: what a reader takes is fixed by the bytes it takes, and
it fails where these bytes are cut short. -/
namespace MachineCode.X64

namespace Reader

/-- On `bytes` the reader fails, or takes a front part of them that it also takes whatever follows.
It fails on every proper front part of what it takes. -/
def DelimitsOn {α : Type} (r : Reader α) (bytes : List UInt8) : Prop :=
  ∀ taken a c, r ⟨bytes, taken⟩ = some (a, c) → ∃ used, bytes = used ++ c.rest ∧
    Reads r used a ∧ ∀ front, front <+: used → front ≠ used → ∀ n, r ⟨front, n⟩ = none

def Delimited {α : Type} (r : Reader α) : Prop := ∀ bytes, DelimitsOn r bytes

variable {α β : Type}

theorem delimited_pure (a : α) : Delimited (pure a) := by
  intro bytes taken b c h
  cases h
  refine ⟨[], rfl, reads_pure a, ?_⟩
  intro front hfront hne
  exact absurd (List.prefix_nil.mp hfront) hne

theorem delimited_failure : Delimited (failure : Reader α) := by
  intro bytes taken a c h
  cases h

theorem delimited_byte : Delimited byte := by
  intro bytes taken b c h
  cases bytes with
  | nil => cases h
  | cons b' rest =>
    cases h
    refine ⟨[b], rfl, reads_byte b, ?_⟩
    intro front hfront hne n
    cases front with
    | nil => rfl
    | cons x front =>
      obtain ⟨rfl, hnil⟩ := List.cons_prefix_cons.mp hfront
      rw [List.prefix_nil.mp hnil] at hne
      exact absurd rfl hne

theorem bind_eq_some {x : Reader α} {f : α → Reader β} {c d : Cursor} {b : β} :
    (x >>= f) c = some (b, d) ↔ ∃ a e, x c = some (a, e) ∧ f a e = some (b, d) := by
  change (x c).bind (fun r => f r.1 r.2) = _ ↔ _
  simp [Option.bind_eq_some_iff]

theorem bind_eq_none {x : Reader α} {f : α → Reader β} {c : Cursor}
    (h : x c = none) : (x >>= f) c = none := by
  change (x c).bind (fun r => f r.1 r.2) = _
  rw [h, Option.bind_none]

theorem Reads.bind_apply {x : Reader α} {f : α → Reader β} {u rest : List UInt8} {a : α} {n : Nat}
    (h : Reads x u a) : (x >>= f) ⟨u ++ rest, n⟩ = f a ⟨rest, n + u.length⟩ := by
  change (x ⟨u ++ rest, n⟩).bind (fun r => f r.1 r.2) = _
  rw [h rest n, Option.bind_some]

/-- A front part of two readings ends in the first or reaches into the second. -/
theorem Delimited.bind {x : Reader α} {f : α → Reader β} (hx : Delimited x)
    (hf : ∀ a, Delimited (f a)) : Delimited (x >>= f) := by
  intro bytes taken b c h
  obtain ⟨a, d, ha, hb⟩ := bind_eq_some.mp h
  obtain ⟨first, rfl, hfirst, hfails⟩ := hx bytes taken a d ha
  obtain ⟨second, hrest, hsecond, hfails'⟩ := hf a d.rest d.taken b c hb
  refine ⟨first ++ second, ?_, hfirst.bind hsecond, ?_⟩
  · rw [hrest, List.append_assoc]
  · rintro front ⟨cut, hcut⟩ hne n
    rcases List.append_eq_append_iff.mp hcut with ⟨left, hleft, -⟩ | ⟨more, rfl, hmore⟩
    · by_cases heq : front = first
      · subst heq
        have happly : (x >>= f) ⟨front ++ [], n⟩ = f a ⟨[], n + front.length⟩ := hfirst.bind_apply
        rw [List.append_nil] at happly
        rw [happly]
        refine hfails' [] (List.nil_prefix) ?_ _
        rintro rfl
        exact hne (List.append_nil front).symm
      · exact bind_eq_none (hfails front ⟨left, hleft.symm⟩ heq n)
    · rw [hfirst.bind_apply]
      refine hfails' more ⟨cut, hmore.symm⟩ ?_ _
      rintro rfl
      exact hne rfl

theorem Delimited.map {x : Reader α} {f : α → β} (hx : Delimited x) : Delimited (f <$> x) := by
  rw [map_eq_pure_bind]
  exact hx.bind fun a => delimited_pure (f a)

theorem Delimited.return {x : Reader α} {f : α → β} (hx : Delimited x) :
    Delimited (x >>= fun a => pure (f a)) := hx.bind fun a => delimited_pure (f a)

theorem Delimited.ite {p : Prop} [Decidable p] {x y : Reader α} (hx : Delimited x)
    (hy : Delimited y) : Delimited (if p then x else y) := by
  split
  · exact hx
  · exact hy

theorem delimited_require (b : Bool) : Delimited (require b) :=
  (delimited_pure ()).ite delimited_failure

/-! The fields of an instruction. -/

theorem delimited_number (k : Nat) : Delimited (number k) := by
  induction k with
  | zero => exact delimited_pure 0
  | succ k ih => exact delimited_byte.bind fun _ => ih.return

theorem delimited_int8 : Delimited int8 := delimited_byte.return

theorem delimited_int16 : Delimited int16 := (delimited_number 2).return

theorem delimited_int32 : Delimited int32 := (delimited_number 4).return

theorem delimited_immediate (w : Width) : Delimited (immediate w) :=
  delimited_int16.ite delimited_int32.return

theorem delimited_shortImmediate (byte : Bool) (w : Width) : Delimited (shortImmediate byte w) :=
  delimited_int8.ite (delimited_immediate w)

theorem delimited_moveImmediate (w : Width) : Delimited (moveImmediate w) := by
  cases w
  · exact (delimited_number 4).return
  · exact (delimited_number 2).return
  · exact (delimited_number 4).return
  · exact (delimited_number 8).return

theorem delimited_displacement (mode : Nat) : Delimited (displacement mode) := by
  unfold displacement
  split
  · exact delimited_int8.return
  · exact delimited_int32
  · exact delimited_pure 0

theorem delimited_sibMem (p : Prefixes) (mode : Nat) : Delimited (sibMem p mode) :=
  delimited_byte.bind fun _ => delimited_int32.return.ite (delimited_displacement mode).return

theorem delimited_mem (p : Prefixes) (mode rm : Nat) : Delimited (mem p mode rm) :=
  (delimited_sibMem p mode).ite (delimited_int32.return.ite (delimited_displacement mode).return)

theorem delimited_modRm (p : Prefixes) : Delimited (modRm p) :=
  delimited_byte.bind fun _ => (delimited_pure _).return.ite (delimited_mem p _ _).map.return

theorem delimited_gpr (p : Prefixes) (w : Width) (num : Fin 16) : Delimited (gpr p w num) :=
  delimited_failure.ite (delimited_pure _)

theorem delimited_rm (p : Prefixes) (w : Width) (x : Operand) : Delimited (Reader.rm p w x) := by
  cases x with
  | reg num => exact (delimited_gpr p w num).map
  | mem m => exact delimited_pure _

theorem delimited_rmReg (p : Prefixes) (w : Width) : Delimited (rmReg p w) :=
  (delimited_modRm p).bind fun m => (delimited_rm p w m.rm).bind fun _ =>
    (delimited_gpr p w m.reg).return

theorem delimited_regRm (p : Prefixes) (w v : Width) : Delimited (regRm p w v) :=
  (delimited_modRm p).bind fun m => (delimited_gpr p w m.reg).bind fun _ =>
    (delimited_rm p v m.rm).return

theorem delimited_xmmXm (p : Prefixes) : Delimited (xmmXm p) := (delimited_modRm p).return

theorem delimited_shift (p : Prefixes) {count : Reader ShiftCount} (h : Delimited count) :
    Delimited (shift p count) := by
  refine (delimited_modRm p).bind fun m => ?_
  split
  · exact (delimited_rm p _ m.rm).bind fun _ => h.return
  · exact delimited_failure

theorem delimited_group3 (p : Prefixes) : Delimited (Reader.group3 p) := by
  refine (delimited_modRm p).bind fun m => (delimited_rm p _ m.rm).bind fun x => ?_
  split
  · exact (delimited_immediate p.width).return
  all_goals first | exact delimited_pure _ | exact delimited_failure

theorem delimited_group5 (p : Prefixes) : Delimited (Reader.group5 p) := by
  refine (delimited_modRm p).bind fun m => (delimited_rm p _ m.rm).bind fun x => ?_
  split
  all_goals first | exact delimited_pure _ | exact delimited_failure

end Reader

open Reader

theorem OpcodeForm.delimited_read (p : Prefixes) (form : OpcodeForm) : Delimited (form.read p) := by
  cases form with
  | aluStore op => exact (delimited_rmReg p p.width).return
  | aluLoad op => exact (delimited_regRm p p.width p.width).return
  | push low => exact delimited_pure _
  | pop low => exact delimited_pure _
  | movsxd => exact (delimited_regRm p p.width .dword).return
  | imulImm byte =>
    exact (delimited_regRm p p.width p.width).bind fun _ => (delimited_shortImmediate byte _).return
  | jccShort cond => exact delimited_int8.return
  | aluImm byte =>
    exact (delimited_modRm p).bind fun m => (delimited_rm p p.width m.rm).bind fun _ =>
      (delimited_shortImmediate byte _).return
  | test byte => exact (delimited_rmReg p _).return
  | movStore byte => exact (delimited_rmReg p _).return
  | movLoad byte => exact (delimited_regRm p _ _).return
  | lea =>
    refine (delimited_modRm p).bind fun m => ?_
    split
    · exact (delimited_gpr p p.width m.reg).return
    · exact delimited_failure
  | nop => exact (delimited_pure _)
  | cdq => exact (delimited_pure _)
  | movImm low => exact (delimited_moveImmediate p.width).return
  | shiftImm => exact delimited_shift p delimited_byte.map
  | shiftOne => exact delimited_shift p (delimited_pure _)
  | shiftCl => exact delimited_shift p (delimited_pure _)
  | ret => exact delimited_pure _
  | movImmRm byte =>
    exact (delimited_modRm p).bind fun m => (delimited_require _).bind fun _ =>
      (delimited_rm p _ m.rm).bind fun _ => (delimited_shortImmediate byte _).return
  | int3 => exact delimited_pure _
  | call => exact delimited_int32.return
  | jmp => exact delimited_int32.return
  | jmpShort => exact delimited_int8.return
  | group3 => exact delimited_group3 p
  | group5 => exact delimited_group5 p

theorem EscapedForm.delimited_read (p : Prefixes) (form : EscapedForm) :
    Delimited (form.read p) := by
  cases form with
  | ud2 => exact delimited_pure _
  | movsLoad => exact (delimited_require _).bind fun _ => (delimited_xmmXm p).return
  | movsStore => exact (delimited_require _).bind fun _ => (delimited_xmmXm p).return
  | nop => exact (delimited_modRm p).return
  | movap => exact (delimited_xmmXm p).return
  | cvtFromInt =>
    exact (delimited_require _).bind fun _ => (delimited_modRm p).bind fun m =>
      (delimited_rm p _ m.rm).return
  | cvtToInt =>
    exact (delimited_require _).bind fun _ => (delimited_modRm p).bind fun m =>
      (delimited_gpr p _ m.reg).return
  | ucomis => exact (delimited_xmmXm p).return
  | cmov cond => exact (delimited_regRm p _ _).return
  | sse op => exact (delimited_require _).bind fun _ => (delimited_xmmXm p).return
  | packed op => exact (delimited_xmmXm p).return
  | cvtFloat => exact (delimited_require _).bind fun _ => (delimited_xmmXm p).return
  | movToXmm =>
    exact (delimited_require _).bind fun _ => (delimited_modRm p).bind fun m =>
      (delimited_rm p _ m.rm).return
  | movFromXmm =>
    exact (delimited_require _).bind fun _ => (delimited_modRm p).bind fun m =>
      (delimited_rm p _ m.rm).return
  | jcc cond => exact delimited_int32.return
  | setcc cond => exact (delimited_modRm p).bind fun m => (delimited_rm p _ m.rm).return
  | fence => exact delimited_byte.bind fun _ => (delimited_require _).return
  | imul => exact (delimited_regRm p _ _).return
  | cmpxchg => exact (delimited_rmReg p _).return
  | movx sign word => exact (delimited_regRm p _ _).return
  | bitScan reverse => exact (delimited_regRm p _ _).return

theorem Decoded.delimited_read (p : Prefixes) : Delimited (Decoded.read p) := by
  refine delimited_byte.bind fun b => Delimited.ite (delimited_byte.bind fun b' => ?_) ?_
  all_goals split
  · exact EscapedForm.delimited_read p _
  · exact delimited_failure
  · exact OpcodeForm.delimited_read p _
  · exact delimited_failure

/-! The prefixes. A run of prefixes ends at a byte that is none, and such a byte must follow: the
opcode is read from it. -/

namespace Reader

/-- An instruction whose legacy prefixes are known. -/
def afterLegacy (p : Prefixes) : Reader Decoded := fun c =>
  Decoded.read (p.takeRex c).1 (p.takeRex c).2

/-- An instruction some of whose legacy prefixes are known. -/
def prefixed (p : Prefixes) : Reader Decoded := fun c =>
  afterLegacy (p.legacy c.taken c.rest).1 (p.legacy c.taken c.rest).2

end Reader

theorem decode_eq_map (bytes : List UInt8) :
    decode bytes = (prefixed .empty ⟨bytes, 0⟩).map fun (i, c) => (i, c.taken) := rfl

namespace Reader

variable {α : Type}

/-- A reader that takes the first byte and goes on as another one. -/
theorem DelimitsOn.cons {r s : Reader α} {b : UInt8} {bytes : List UInt8} (hs : DelimitsOn s bytes)
    (hnil : ∀ n, r ⟨[], n⟩ = none)
    (hcons : ∀ rest n, r ⟨b :: rest, n⟩ = s ⟨rest, n + 1⟩) : DelimitsOn r (b :: bytes) := by
  intro taken a c h
  rw [hcons] at h
  obtain ⟨used, rfl, hreads, hfails⟩ := hs _ a c h
  refine ⟨b :: used, rfl, ?_, ?_⟩
  · intro rest n
    rw [List.cons_append, hcons, hreads, List.length_cons, Nat.add_assoc, Nat.add_comm 1]
  · intro front hfront hne n
    cases front with
    | nil => exact hnil n
    | cons x front =>
      obtain ⟨rfl, hmore⟩ := List.cons_prefix_cons.mp hfront
      rw [hcons]
      refine hfails front hmore ?_ _
      rintro rfl
      exact hne rfl

/-- A reader that behaves as another one where the first byte is `b`. -/
theorem DelimitsOn.congr_cons {r s : Reader α} {b : UInt8} {bytes : List UInt8}
    (hs : DelimitsOn s (b :: bytes)) (hnil : ∀ n, r ⟨[], n⟩ = none) (hnil' : ∀ n, s ⟨[], n⟩ = none)
    (hcons : ∀ rest n, r ⟨b :: rest, n⟩ = s ⟨b :: rest, n⟩) : DelimitsOn r (b :: bytes) := by
  intro taken a c h
  rw [hcons] at h
  obtain ⟨used, hused, hreads, hfails⟩ := hs _ a c h
  cases used with
  | nil =>
    have hsome := hreads [] 0
    rw [List.append_nil, hnil'] at hsome
    cases hsome
  | cons x used =>
    obtain ⟨rfl, -⟩ := List.cons.inj hused
    refine ⟨b :: used, hused, ?_, ?_⟩
    · intro rest n
      rw [List.cons_append, hcons]
      exact hreads rest n
    · intro front hfront hne n
      cases front with
      | nil => exact hnil n
      | cons y front =>
        obtain ⟨rfl, -⟩ := List.cons_prefix_cons.mp hfront
        rw [hcons]
        exact hfails (y :: front) hfront hne n

theorem delimited_afterLegacy (p : Prefixes) : Delimited (afterLegacy p) := by
  intro bytes
  cases bytes with
  | nil =>
    intro taken i c h
    cases h
  | cons b bytes =>
    by_cases hrex : b &&& 0xF0 = 0x40
    · refine (Decoded.delimited_read { p with rex := b } bytes).cons (fun _ => rfl) ?_
      intro rest n
      simp only [afterLegacy, Prefixes.takeRex, if_pos hrex]
    · refine (Decoded.delimited_read p (b :: bytes)).congr_cons (fun _ => rfl) (fun _ => rfl) ?_
      intro rest n
      simp only [afterLegacy, Prefixes.takeRex, if_neg hrex]

/-- By induction on the bytes: each legacy prefix leaves the same question about the bytes after. -/
theorem delimited_prefixed (p : Prefixes) : Delimited (prefixed p) := by
  intro bytes
  induction bytes generalizing p with
  | nil =>
    intro taken i c h
    cases h
  | cons b bytes ih =>
    cases htake : p.take? b with
    | some q =>
      refine (ih q).cons (fun _ => rfl) ?_
      intro rest n
      simp only [prefixed, Prefixes.legacy, htake]
    | none =>
      refine (delimited_afterLegacy p (b :: bytes)).congr_cons (fun _ => rfl) (fun _ => rfl) ?_
      intro rest n
      simp only [prefixed, Prefixes.legacy, htake]

end Reader

/-- The bytes of the instruction at the front decode to it whatever follows them, and do not decode
where they are cut short. -/
theorem decode_eq_some {bytes : List UInt8} {i : Decoded} {n : Nat}
    (h : decode bytes = some (i, n)) :
    ∃ used rest, bytes = used ++ rest ∧ used.length = n ∧ Decodes used i ∧
      ∀ front, front <+: used → front ≠ used → decode front = none := by
  rw [decode_eq_map] at h
  obtain ⟨⟨j, c⟩, hread, hout⟩ := Option.map_eq_some_iff.mp h
  obtain ⟨used, hbytes, hreads, hfails⟩ := delimited_prefixed .empty bytes 0 j c hread
  rw [hbytes, hreads] at hread
  obtain ⟨rfl, rfl⟩ := Prod.mk.inj hout
  refine ⟨used, c.rest, hbytes, ?_, ?_, ?_⟩
  · have htaken := congrArg Cursor.taken (Prod.mk.inj (Option.some.inj hread)).2
    simpa using htaken
  · intro t
    rw [decode_eq_map, hreads, Option.map_some, Nat.zero_add]
  · intro front hfront hne
    rw [decode_eq_map, hfails front hfront hne, Option.map_none]

end MachineCode.X64
