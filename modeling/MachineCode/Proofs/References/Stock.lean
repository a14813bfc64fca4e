import MachineCode.Proofs.Emission.Actions
import MachineCode.Proofs.Installation.Fields
import MachineCode.Proofs.References.Entries

/-! What the data section holds. The bytes of a constant stand in it from the time on when the
constant was put there, and the slot of every object is recorded as one, apart from all
constants. -/
namespace MachineCode

open X64 Lower SideTables

/-- The constants of the section stand in its bytes, and its slots are recorded. -/
structure Draft.Stocked (d : Draft) : Prop where
  placed : d.data.Placed
  bytes : ∀ e ∈ d.data.constants, BytesAt d.data.bytes e.2 e.1.bytes
  slots : ∀ e ∈ d.data.slots, ⟨e.2, e.1⟩ ∈ d.tables.dataObjects
  inside : ∀ x ∈ d.tables.dataObjects, x.dataOffset + 8 ≤ d.data.size
  apart : ∀ e ∈ d.data.constants, ∀ x ∈ d.tables.dataObjects,
    e.2 + e.1.bytes.length ≤ x.dataOffset ∨ x.dataOffset + 8 ≤ e.2

/-- On the way from `d` to `d'` the section has been added to, and nothing else. -/
structure Draft.Stocks (d d' : Draft) : Prop where
  stocked : d.Stocked → d'.Stocked
  constants : d.data.constants ⊆ d'.data.constants
  slots : d.data.slots ⊆ d'.data.slots

namespace Draft.Stocks

variable {d d' d'' : Draft}

theorem refl (d : Draft) : d.Stocks d := ⟨id, List.Subset.refl _, List.Subset.refl _⟩

theorem trans (h : d.Stocks d') (h' : d'.Stocks d'') : d.Stocks d'' :=
  ⟨h'.stocked ∘ h.stocked, List.Subset.trans h.constants h'.constants,
    List.Subset.trans h.slots h'.slots⟩

theorem of_same (hdata : d'.data = d.data)
    (hobjects : d'.tables.dataObjects = d.tables.dataObjects) :
    d.Stocks d' := by
  refine ⟨fun h => ⟨?_, ?_, ?_, ?_, ?_⟩, by rw [hdata]; exact List.Subset.refl _,
    by rw [hdata]; exact List.Subset.refl _⟩
  · exact hdata ▸ h.placed
  · rw [hdata]
    exact h.bytes
  · rw [hdata, hobjects]
    exact h.slots
  · rw [hdata, hobjects]
    exact h.inside
  · rw [hdata, hobjects]
    exact h.apart

end Draft.Stocks

/-! ### The section grows -/

namespace DataSection

variable {s : DataSection} {bytes : List UInt8} {align : Nat}

theorem bytes_emitAligned (s : DataSection) (bytes : List UInt8) (align : Nat) :
    (s.emitAligned bytes align).2.bytes =
      s.bytes ++
        (Array.replicate (alignUp s.size align - s.size) (0 : UInt8) ++ bytes.toArray) := by
  apply Array.ext'
  simp [emitAligned]

/-- Bytes stay where they are when others are appended. -/
theorem bytesAt_append {image new : Array UInt8} {offset : Nat} {bs : List UInt8}
    (h : BytesAt image offset bs) (hinside : offset + bs.length ≤ image.size) :
    BytesAt (image ++ new) offset bs := by
  refine h.congr fun i _ hi => ?_
  rw [Array.getElem?_append_left (by omega)]

theorem bytesAt_emitAligned (s : DataSection) (bytes : List UInt8) (align : Nat) :
    BytesAt (s.emitAligned bytes align).2.bytes (alignUp s.size align) bytes := by
  intro k hk
  have hle := le_alignUp s.size align
  have hsize : (s.bytes ++ Array.replicate (alignUp s.size align - s.size) (0 : UInt8)).size =
      alignUp s.size align := by
    simp only [Array.size_append, Array.size_replicate, size] at hle ⊢
    omega
  rw [bytes_emitAligned, ← Array.append_assoc, Array.getElem?_append_right (by omega), hsize,
    Nat.add_sub_cancel_left, List.getElem?_toArray]

theorem mem_constant (s : DataSection) (bytes : List UInt8) (align : Nat) :
    (⟨bytes, align⟩, (s.constant bytes align).1) ∈ (s.constant bytes align).2.constants := by
  unfold DataSection.constant
  cases hlookup : s.constants.lookup ⟨bytes, align⟩ with
  | some offset => exact mem_of_lookup hlookup
  | none => exact List.mem_cons_self

theorem mem_objectSlot (s : DataSection) (o : ObjectId) :
    (o, (s.objectSlot o).1.1) ∈ (s.objectSlot o).2.slots := by
  unfold DataSection.objectSlot
  cases hlookup : s.slots.lookup o with
  | some offset => exact mem_of_lookup hlookup
  | none => exact List.mem_cons_self

end DataSection

namespace Draft

variable {d : Draft}

/-- A constant is put into the section, if it is not there. -/
theorem stocks_constant (d : Draft) (bytes : List UInt8) (align : Nat) :
    d.Stocks { d with data := (d.data.constant bytes align).2 } := by
  have hplaced : d.data.Placed → (d.data.constant bytes align).2.Placed :=
    fun h => (h.constant bytes align).1
  revert hplaced
  unfold DataSection.constant
  cases d.data.constants.lookup ⟨bytes, align⟩ with
  | some offset => exact fun _ => .refl d
  | none =>
    intro hplaced
    have hnew := d.data.bytesAt_emitAligned bytes align
    have hbytes := d.data.bytes_emitAligned bytes align
    have hsize := d.data.size_emitAligned bytes align
    have hle := DataSection.le_alignUp d.data.size align
    refine ⟨fun h => ⟨hplaced h.placed, ?_, h.slots, fun x hx => ?_, ?_⟩, fun e he => ?_,
      List.Subset.refl _⟩
    · refine List.forall_mem_cons.mpr ⟨hnew, fun e he => ?_⟩
      change BytesAt (d.data.emitAligned bytes align).2.bytes e.2 e.1.bytes
      rw [hbytes]
      exact DataSection.bytesAt_append (h.bytes e he) (h.placed.inside e he)
    · have := h.inside x hx
      change x.dataOffset + 8 ≤ (d.data.emitAligned bytes align).2.size
      omega
    · refine List.forall_mem_cons.mpr ⟨fun x hx => .inr ?_, h.apart⟩
      exact Nat.le_trans (h.inside x hx) hle
    · exact List.mem_cons_of_mem _ he

/-- The slot of an object is recorded when it is new. -/
theorem stocks_slot {o : ObjectId} {t : SideTables} {offset : Nat} {fresh : Bool} {s : DataSection}
    (hs : d.data.objectSlot o = ((offset, fresh), s))
    (hold : fresh = false → t.dataObjects = d.tables.dataObjects)
    (hnew : fresh = true → t.dataObjects = d.tables.dataObjects.push ⟨offset, o⟩) :
    d.Stocks { d with data := s, tables := t } := by
  have hplaced : d.data.Placed → s.Placed := fun h => by
    have := (h.objectSlot o).1
    rwa [hs] at this
  unfold DataSection.objectSlot at hs
  cases hlookup : d.data.slots.lookup o with
  | some offset' =>
    rw [hlookup] at hs
    cases hs
    exact .of_same rfl (hold rfl)
  | none =>
    rw [hlookup] at hs
    cases hs
    have ht := hnew rfl
    have hbytes := d.data.bytes_emitAligned (leBytes 8 0) 8
    have hsize := d.data.size_emitAligned (leBytes 8 0) 8
    have hle := DataSection.le_alignUp d.data.size 8
    rw [length_leBytes] at hsize
    refine ⟨fun h => ⟨hplaced h.placed, fun e he => ?_, ?_, ?_, ?_⟩,
      List.Subset.refl _, fun e he => ?_⟩
    · change BytesAt (d.data.emitAligned (leBytes 8 0) 8).2.bytes e.2 e.1.bytes
      rw [hbytes]
      exact DataSection.bytesAt_append (h.bytes e he) (h.placed.inside e he)
    · change ∀ e ∈ (o, _) :: d.data.slots, ⟨e.2, e.1⟩ ∈ t.dataObjects
      rw [ht]
      exact List.forall_mem_cons.mpr ⟨Array.mem_push_self,
        fun e he => Array.mem_push_of_mem _ (h.slots e he)⟩
    · change ∀ x ∈ t.dataObjects, x.dataOffset + 8 ≤ (d.data.emitAligned (leBytes 8 0) 8).2.size
      rw [ht, hsize]
      refine Array.forall_mem_push.mpr ⟨Nat.le_refl _, fun x hx => ?_⟩
      have := h.inside x hx
      omega
    · change ∀ e ∈ d.data.constants, ∀ x ∈ t.dataObjects, _
      rw [ht]
      refine fun e he => Array.forall_mem_push.mpr ⟨.inl ?_, h.apart e he⟩
      exact Nat.le_trans (h.placed.inside e he) hle
    · exact List.mem_cons_of_mem _ he

end Draft

/-! ### Steps -/

/-- On the way from `d` to `d'` constants and slots have been put into the section, one after the
other, and nothing else has happened to it. -/
inductive Draft.Feeds : Draft → Draft → Prop
  | same {d d' : Draft} (hdata : d'.data = d.data)
    (hobjects : d'.tables.dataObjects = d.tables.dataObjects) : Feeds d d'
  | constant (d : Draft) (bytes : List UInt8) (align : Nat) :
      Feeds d { d with data := (d.data.constant bytes align).2 }
  | slot {o : ObjectId} {d d' : Draft} (h : (Action.slot o).perform d = .ok () d') : Feeds d d'
  | trans {d d' d'' : Draft} (h : Feeds d d') (h' : Feeds d' d'') : Feeds d d''

/-- The step adds to the data section at most. -/
def Feeding {α : Type} (x : Lower α) : Prop := ∀ d a d', x d = .ok a d' → d.Feeds d'

section

variable {α β : Type} {x : Lower α}

theorem feeding_of_same (h : ∀ d a d', x d = .ok a d' →
    d'.data = d.data ∧ d'.tables.dataObjects = d.tables.dataObjects) : Feeding x :=
  fun d a d' hrun => .same (h d a d' hrun).1 (h d a d' hrun).2

theorem Feeding.bind {f : α → Lower β} (hx : Feeding x) (hf : ∀ a, Feeding (f a)) :
    Feeding (x >>= f) := by
  intro d b d'' hrun
  obtain ⟨a, d', hx', hf'⟩ := Step.bind_eq_ok.mp hrun
  exact (hx d a d' hx').trans (hf a d' b d'' hf')

theorem Feeding.discard (hx : Feeding x) : Feeding (discard x) := by
  intro d u d' hrun
  obtain ⟨a, hrun⟩ := Step.discard_eq_ok.mp hrun
  exact hx d a d' hrun

theorem feeding_pure (a : α) : Feeding (pure a : Lower α) :=
  feeding_of_same fun _ _ _ h => by cases h; exact ⟨rfl, rfl⟩

theorem feeding_get : Feeding get := feeding_of_same fun _ _ _ h => by cases h; exact ⟨rfl, rfl⟩

theorem feeding_position : Feeding position := feeding_get.bind fun _ => feeding_pure _

theorem feeding_modify {f : Draft → Draft}
    (hf : ∀ d, (f d).data = d.data ∧ (f d).tables.dataObjects = d.tables.dataObjects) :
    Feeding (modify f) := feeding_of_same fun d _ _ h => by cases h; exact hf d

theorem feeding_throw (err : Error) : Feeding (throw err : Lower α) :=
  fun _ _ _ hrun => absurd hrun Step.throw_ne_ok

theorem feeding_onBuffer (y : BufferStep α) : Feeding (onBuffer y) :=
  feeding_of_same fun _ _ _ h => by
    obtain ⟨b, -, rfl⟩ := onBuffer_eq_ok.mp h
    exact ⟨rfl, rfl⟩

theorem feeding_emitBytes (bytes : List UInt8) : Feeding (emitBytes bytes) := feeding_onBuffer _

theorem feeding_record {f : RecordStep Unit}
    (hf : ∀ t t', f t = .ok () t' → t'.dataObjects = t.dataObjects) : Feeding (record f) :=
  feeding_of_same fun _ _ _ h => by
    obtain ⟨t, ht, rfl⟩ := record_eq_ok.mp h
    exact ⟨rfl, hf _ _ ht⟩

theorem feeding_forM {γ : Type} {xs : List γ} {f : γ → Lower Unit} (hf : ∀ a ∈ xs, Feeding (f a)) :
    Feeding (xs.forM f) := by
  induction xs with
  | nil => exact feeding_pure ()
  | cons a xs ih =>
    obtain ⟨ha, hxs⟩ := List.forall_mem_cons.mp hf
    exact Feeding.bind ha fun _ => ih hxs

end

theorem feeding_emitAt (l : Location) (i : Mem → Instr) : Feeding (emitAt l i) :=
  feeding_of_same fun d pc d' hrun => by
    obtain ⟨-, t, rfl, hplain, hdata⟩ := emitAt_eq_ok hrun
    refine ⟨rfl, ?_⟩
    cases hl : l.data with
    | none => rw [hplain hl]
    | some offset =>
      obtain ⟨k, -, ht⟩ := hdata offset hl
      cases recordData_eq_ok ht
      rfl

theorem feeding_emitLinked {i : Instr} {f : Nat → RecordStep Unit}
    (hf : ∀ k t t', f k t = .ok () t' → t'.dataObjects = t.dataObjects) :
    Feeding (emitLinked i f) :=
  feeding_of_same fun d u d' hrun => by
    obtain ⟨t, ht, rfl⟩ := emitLinked_eq_ok hrun
    exact ⟨rfl, hf _ _ _ ht⟩

theorem Emission.feeding (x : Emission) : Feeding x.perform := by
  cases x with
  | emit i => exact feeding_emitBytes _
  | «at» l i => exact (feeding_emitAt l i).discard

theorem feeding_bind (l : Label) : Feeding (Lower.bind l) := by
  refine (feeding_onBuffer _).bind fun fresh => ?_
  cases fresh with
  | true => exact feeding_position.bind fun _ => feeding_modify fun _ => ⟨rfl, rfl⟩
  | false => exact feeding_pure ()

theorem Trailer.feeding (x : Trailer) : Feeding x.perform := by
  cases x with
  | none => exact feeding_pure ()
  | store x => exact x.feeding
  | bind l => exact feeding_bind l
  | refuse err => exact feeding_throw err

theorem feeding_recordHandlers (pc : Nat) (info : DebugInfo) :
    Feeding (record (SideTables.recordHandlers pc info)) :=
  feeding_record fun t t' h => by
    obtain ⟨rows, rfl⟩ := recordHandlers_eq_ok h
    rfl

theorem feeding_recordTrap (pc : Nat) (info : DebugInfo) : Feeding (recordTrap pc info) := by
  refine Feeding.bind (feeding_record fun t t' h => ?_) fun _ => feeding_recordHandlers pc info
  cases eq_of_keyed h
  rfl

theorem feeding_recordCall (start : Nat) (target : Option CallTarget) (info : Option DebugInfo)
    (direct : Bool) : Feeding (recordCall start target info direct) := by
  refine feeding_position.bind fun pc => Feeding.bind (feeding_record fun t t' h => ?_) fun _ => ?_
  · cases eq_of_keyed h
    rfl
  · cases info with
    | none => exact feeding_pure ()
    | some info => exact feeding_recordHandlers _ _

theorem feeding_nopAfterCall : Feeding nopAfterCall := by
  refine feeding_get.bind fun d => ?_
  split
  · exact feeding_emitBytes _
  · exact feeding_pure ()

/-- Every action adds to the data section at most. -/
theorem Action.feeding (a : Action) : Feeding a.perform := by
  by_cases hslot : ∃ o, a = .slot o
  · obtain ⟨o, rfl⟩ := hslot
    exact fun d _ d' hrun => .slot hrun
  unfold Action.perform
  cases a with
  | instr x => exact x.feeding
  | embed o dst =>
    refine feeding_emitLinked fun k t t' h => ?_
    cases eq_of_keyed h
    rfl
  | slot o => exact absurd ⟨o, rfl⟩ hslot
  | constant bytes align =>
    refine Feeding.discard fun d offset d' hrun => ?_
    obtain ⟨-, rfl⟩ := onData_eq_ok.mp hrun
    exact .constant d bytes align
  | reserve count => exact feeding_onBuffer _
  | fresh n =>
    refine Feeding.discard (feeding_of_same fun d ls d' hrun => ?_)
    cases hrun
    exact ⟨rfl, rfl⟩
  | bind l => exact feeding_bind l
  | jump cond l => cases cond <;> exact feeding_onBuffer _
  | jumpShort cond l => exact feeding_onBuffer _
  | pad n | raw bytes => exact feeding_emitBytes _
  | table low high targets =>
    refine (feeding_emitBytes _).bind fun _ => Feeding.bind ?_ fun _ =>
      feeding_position.bind fun p =>
      Feeding.bind (feeding_forM fun l _ => feeding_onBuffer _) fun _ =>
        feeding_record fun t t' h => ?_
    · exact feeding_position.bind fun _ => feeding_emitBytes _
    · cases eq_of_keyed h
      rfl
  | directCall target info =>
    refine feeding_position.bind fun _ =>
      Feeding.bind (feeding_emitLinked fun k t t' h => ?_) fun _ =>
      (feeding_recordCall _ _ _ _).bind fun _ => feeding_nopAfterCall
    cases eq_of_keyed h
    rfl
  | indirectCall r target info =>
    exact feeding_position.bind fun _ => (feeding_emitBytes _).bind fun _ =>
      (feeding_recordCall _ _ _ _).bind fun _ => feeding_nopAfterCall
  | safepoint info =>
    refine feeding_position.bind fun _ => Feeding.bind (feeding_record fun t t' h => ?_) fun _ =>
      feeding_emitBytes _
    cases eq_of_keyed h
    rfl
  | trap x after info =>
    exact feeding_position.bind fun _ => x.feeding.bind fun _ => after.feeding.bind fun _ =>
      feeding_recordTrap _ info
  | mark id =>
    refine feeding_position.bind fun _ => feeding_record fun t t' h => ?_
    rw [(recordMark_eq_ok.mp h).2]
  | enqueue path | log event | report f | name op => exact feeding_modify fun _ => ⟨rfl, rfl⟩
  | refuse err => exact feeding_throw err

/-- A step that is made of actions adds to the data section at most. -/
theorem Lowers.feeds {α : Type} {C : Context} {e : Effect} {x : Lower α} {p : α → Prop}
    {d d' : Draft} {a : α} (hx : Lowers C e x p) (hd : C.Holds d)
    (hrun : x d = .ok a d') : d.Feeds d' := by
  obtain ⟨-, -, as, -, hperform⟩ := hx.run hd hrun
  have hall : Feeding (performAll as) := feeding_forM fun a _ => a.feeding
  exact hall d () d' hperform

/-! ### What has been put there stays -/

/-- The slot of an object. -/
theorem stocks_of_slot {o : ObjectId} {d d' : Draft}
    (hrun : (Action.slot o).perform d = .ok () d') :
    d.Stocks d' := by
  obtain ⟨r, d₁, h₁, hrun⟩ := Step.bind_eq_ok.mp hrun
  obtain ⟨rfl, rfl⟩ := onData_eq_ok.mp h₁
  dsimp only at hrun
  split at hrun
  · rename_i hfresh
    obtain ⟨t, ht, rfl⟩ := record_eq_ok.mp hrun
    cases eq_of_keyed ht
    exact Draft.stocks_slot rfl (fun h => absurd (hfresh.symm.trans h) (by decide)) fun _ => rfl
  · rename_i hfresh
    cases hrun
    exact Draft.stocks_slot rfl (fun _ => rfl) fun h => absurd h hfresh

theorem Draft.Feeds.stocks {d d' : Draft} (h : d.Feeds d') : d.Stocks d' := by
  induction h with
  | same hdata hobjects => exact .of_same hdata hobjects
  | constant d bytes align => exact d.stocks_constant bytes align
  | slot h => exact stocks_of_slot h
  | trans _ _ ih ih' => exact ih.trans ih'

theorem Action.stocks {a : Action} {d d' : Draft} (hrun : a.perform d = .ok () d') : d.Stocks d' :=
  (a.feeding d () d' hrun).stocks

theorem Lowers.stocks {α : Type} {C : Context} {e : Effect} {x : Lower α} {p : α → Prop}
    {d d' : Draft} {a : α} (hx : Lowers C e x p) (hd : C.Holds d) (hrun : x d = .ok a d') :
    d.Stocks d' := (hx.feeds hd hrun).stocks

end MachineCode
